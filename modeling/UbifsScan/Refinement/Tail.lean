import UbifsScan.Refinement.Loop

/-!
# The empty space

The two tail loops of `ubifs_scan`. Together they find the first byte that is not empty, from any
cursor and over any number of bytes left; the word-wise one may stop early, at the word it is in.
-/

namespace UbifsScan

open Mem Program

/-- The cursors `k` bytes further on. -/
def Cursor.plus (cur : Cursor) (k : Int) : Cursor := ⟨cur.buf + k, cur.offs + k, cur.len - k⟩

/-- The cursors can be advanced over all bytes left. -/
structure Cursor.Fits (cur : Cursor) : Prop where
  len : 0 ≤ cur.len
  offs : -2147483648 ≤ cur.offs
  stop : cur.offs + cur.len < 2147483648
  int : cur.len < 2147483648

/-- The `k` bytes at `p` are empty. -/
def EmptyAt (m : Mem) (p k : Int) : Prop := ∀ i, p ≤ i → i < p + k → m i = 0xFF#8

/-- The first `k` bytes left at the cursors are empty and were read. -/
structure Swept (m : Mem) (cur : Cursor) (w : World) (k : Int) (w' : World) : Prop where
  lo : 0 ≤ k
  hi : k ≤ cur.len
  empty : EmptyAt m cur.buf k
  reads : ∃ is, Observed w w' is ∧ Within is cur.buf cur.len

section Tail

variable {sbuf : Mem} {cur : Cursor} {w w' : World} {k n : Int}

theorem Cursor.advance_plus (hfits : cur.Fits) (hk : 0 ≤ k) (hn : 0 ≤ n)
    (hle : k + n ≤ cur.len) : (cur.plus k).advance n = cur.plus (k + n) := by
  obtain ⟨h1, h2, h3, h4⟩ := hfits
  simp only [Cursor.advance, Cursor.plus]
  rw [wrap32_of_fits (by omega) (by omega), wrap32_of_fits (by omega) (by omega)]
  simp only [Cursor.mk.injEq]
  omega

theorem Swept.start (hfits : cur.Fits) (w : World) : Swept sbuf cur w 0 w :=
  ⟨Int.le_refl 0, hfits.len, by intro i h h'; omega, [], .refl w, by simp [Within]⟩

private theorem Swept.look {n : Nat} (hs : Swept sbuf cur w k w') (hle : k + n ≤ cur.len) :
    Swept sbuf cur w k (w'.see (span (cur.buf + k) n)) := by
  obtain ⟨hlo, hhi, hempty, is, hobs, hin⟩ := hs
  refine ⟨hlo, hhi, hempty, _, hobs.trans (.see w' _), hin.append ?_⟩
  exact within_span (by omega) (by omega)

private theorem Swept.extend {n : Nat} (hs : Swept sbuf cur w k w') (hle : k + n ≤ cur.len)
    (hempty : ∀ i, cur.buf + k ≤ i → i < cur.buf + k + n → sbuf i = 0xFF#8) :
    Swept sbuf cur w (k + n) (w'.see (span (cur.buf + k) n)) := by
  have hlo := hs.lo
  refine ⟨by omega, hle, fun i h h' => ?_, (hs.look hle).reads⟩
  by_cases hi : i < cur.buf + k
  · exact hs.empty i h hi
  · exact hempty i (by omega) (by omega)

theorem ensures_tailLoops_keeps {τ : Type} (part : World → τ)
    (hsee : ∀ v is, part (v.see is) = part v) (sbuf : Mem) (cur : Cursor) (w : World) :
    Ensures (iterate (emptyWordsRound sbuf) (cur.len.toNat + 1) cur) w fun cur' w₁ =>
      Ensures (iterate (emptyBytesRound sbuf) (emptyBytesBound cur'.len) cur') w₁ fun _ w' =>
        part w' = part w := by
  have hword : ∀ cur v, Ensures (emptyWordsRound sbuf cur) v fun _ v' => part v' = part v := by
    intro cur v
    apply Returns.ensures
    simp [emptyWordsRound, hsee]
  have hbyte : ∀ cur v, Ensures (emptyBytesRound sbuf cur) v fun _ v' => part v' = part v := by
    intro cur v
    apply Returns.ensures
    simp [emptyBytesRound, hsee]
  refine (ensures_iterate_keeps part hword).mono fun cur' w₁ h₁ => ?_
  exact (ensures_iterate_keeps part hbyte).mono fun _ _ h₂ => h₂.trans h₁

theorem returns_emptyWords (hfits : cur.Fits) (w : World) :
    Returns (iterate (emptyWordsRound sbuf) (cur.len.toNat + 1) cur) w fun cur' w' =>
      ∃ k, cur' = cur.plus k ∧ Swept sbuf cur w k w' := by
  apply returns_iterate (fun cur' v => ∃ k, cur' = cur.plus k ∧ Swept sbuf cur w k v)
    (fun cur' _ => cur'.len.toNat)
  · rintro _ v - ⟨k, rfl, hs⟩
    have hlo := hs.lo
    rw [emptyWordsRound, returns_ite]
    split
    · rename_i hlong
      have hle : k + 4 ≤ cur.len := by
        simp only [Cursor.plus] at hlong
        omega
      simp only [returns_bind, returns_readLe32, returns_ite, returns_pure]
      split
      · exact ⟨k, rfl, hs.look hle⟩
      · rename_i hword
        have hbytes := (chMagic_empty_iff (m := sbuf) (o := cur.buf + k)).mp (not_not.mp hword)
        refine ⟨⟨k + 4, Cursor.advance_plus hfits hlo (by omega) hle, hs.extend hle hbytes⟩, ?_⟩
        rw [Cursor.advance_plus hfits hlo (by omega) hle]
        simp only [Cursor.plus]
        omega
    · rw [returns_pure]
      exact ⟨k, rfl, hs⟩
  · exact ⟨0, by simp [Cursor.plus], .start hfits w⟩
  · exact Nat.lt_succ_self _

theorem returns_emptyBytes (hfits : cur.Fits) (w : World) :
    Returns (iterate (emptyBytesRound sbuf) (emptyBytesBound cur.len) cur) w fun r w' =>
      match r with
      | none => Swept sbuf cur w cur.len w'
      | some cur' => ∃ k, cur' = cur.plus k ∧ k < cur.len ∧ sbuf (cur.buf + k) ≠ 0xFF#8 ∧
          Swept sbuf cur w k w' := by
  have h1 := hfits.len
  have h2 := hfits.int
  apply returns_iterate (fun cur' v => ∃ k, cur' = cur.plus k ∧ Swept sbuf cur w k v)
    (fun cur' _ => cur'.len.toNat)
  · rintro _ v - ⟨k, rfl, hs⟩
    have hlo := hs.lo
    have hhi := hs.hi
    rw [emptyBytesRound, returns_ite]
    split
    · rename_i hend
      have hk : k = cur.len := by
        simp only [Cursor.plus] at hend
        omega
      rw [returns_pure]
      exact hk ▸ hs
    · rename_i hmore
      have hle : k + 1 ≤ cur.len := by
        simp only [Cursor.plus] at hmore
        omega
      simp only [returns_bind, returns_readByte, returns_ite, returns_pure]
      split
      · rename_i hbyte
        exact ⟨k, rfl, by omega, hbyte, hs.look hle⟩
      · rename_i hbyte
        refine ⟨⟨k + 1, Cursor.advance_plus hfits hlo (by omega) hle, hs.extend hle ?_⟩, ?_⟩
        · intro i hi hi'
          have hlt : i < cur.buf + k + 1 := hi'
          rw [show i = cur.buf + k by omega]
          exact not_not.mp hbyte
        · rw [Cursor.advance_plus hfits hlo (by omega) hle]
          simp only [Cursor.plus]
          omega
  · exact ⟨0, by simp [Cursor.plus], .start hfits w⟩
  · simp only [emptyBytesBound]
    omega

/-- What the two tail loops find from `cur` on: nothing but empty space, or the cursors of the first
byte that is not empty. -/
inductive Found (m : Mem) (cur : Cursor) : Option Cursor → Prop
  | empty (h : EmptyAt m cur.buf cur.len) : Found m cur none
  | dirty {k : Int} (hlo : 0 ≤ k) (hhi : k < cur.len) (hempty : EmptyAt m cur.buf k)
      (hbyte : m (cur.buf + k) ≠ 0xFF#8) : Found m cur (some (cur.plus k))

/-- **The two tail loops**, one after the other, find the first byte that is not empty. -/
theorem returns_tailLoops (hfits : cur.Fits) (w : World) :
    Returns (iterate (emptyWordsRound sbuf) (cur.len.toNat + 1) cur) w fun cur' w₁ =>
      Returns (iterate (emptyBytesRound sbuf) (emptyBytesBound cur'.len) cur') w₁ fun r w' =>
        Found sbuf cur r ∧ ∃ is, Observed w w' is ∧ Within is cur.buf cur.len := by
  apply (returns_emptyWords hfits w).mono
  rintro _ w₁ ⟨n, rfl, hlo, hhi, hbefore, is, hobs, hin⟩
  obtain ⟨h1, h2, h3, h4⟩ := hfits
  have hfits' : (cur.plus n).Fits :=
    ⟨by simp only [Cursor.plus]; omega, by simp only [Cursor.plus]; omega,
      by simp only [Cursor.plus]; omega, by simp only [Cursor.plus]; omega⟩
  have hjoin : ∀ k, EmptyAt sbuf (cur.plus n).buf k → EmptyAt sbuf cur.buf (n + k) := by
    intro k hk i h h'
    by_cases hi : i < cur.buf + n
    · exact hbefore i h hi
    · refine hk i ?_ ?_
      · simp only [Cursor.plus]
        omega
      · simp only [Cursor.plus]
        omega
  have hwithin : ∀ {js}, Within js (cur.plus n).buf (cur.plus n).len →
      Within (is ++ js) cur.buf cur.len := by
    intro js hjs
    refine hin.append (hjs.mono ?_ ?_)
    · simp only [Cursor.plus]
      omega
    · simp only [Cursor.plus]
      omega
  apply (returns_emptyBytes hfits' w₁).mono
  intro r w₂ hr
  cases r with
  | none =>
      obtain ⟨-, -, hempty, js, hobs', hjs⟩ := hr
      have hall := hjoin _ hempty
      simp only [Cursor.plus, add_sub_cancel] at hall
      exact ⟨.empty hall, is ++ js, hobs.trans hobs', hwithin hjs⟩
  | some cur' =>
      obtain ⟨k, rfl, hlt, hbyte, hlo', -, hempty, js, hobs', hjs⟩ := hr
      refine ⟨?_, is ++ js, hobs.trans hobs', hwithin hjs⟩
      have hplus : (cur.plus n).plus k = cur.plus (n + k) := by
        simp only [Cursor.plus, Cursor.mk.injEq]
        omega
      rw [hplus]
      refine .dirty (by omega) ?_ (hjoin k hempty) ?_
      · simp only [Cursor.plus] at hlt
        omega
      · simpa only [Cursor.plus, add_assoc] using hbyte

end Tail

end UbifsScan
