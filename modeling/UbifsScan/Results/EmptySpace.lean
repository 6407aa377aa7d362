import UbifsScan.Results.Acceptance

/-!
# The empty space is checked byte by byte

The two tail loops of `ubifs_scan` against a plain scan of the bytes left: they come to the same
verdict, name the same place and read nothing else.
-/

namespace UbifsScan

open Mem Program

/-- A plain byte scan: how many of the `n` bytes from `p` on are empty before the first that is
not, if there is one. -/
def byteScan (m : Mem) (p : Int) : Nat → Option Nat
  | 0 => none
  | n + 1 => if m p = 0xFF#8 then (byteScan m (p + 1) n).map (· + 1) else some 0

/-- The two tail loops of `ubifs_scan`, one after the other. -/
def tailLoops (sbuf : Mem) (cur : Cursor) : Program World (Option Cursor) := do
  let cur ← iterate (emptyWordsRound sbuf) (cur.len.toNat + 1) cur
  iterate (emptyBytesRound sbuf) (emptyBytesBound cur.len) cur

section ByteScan

variable {m : Mem} {p : Int} {n k : Nat}

private theorem emptyAt_succ :
    EmptyAt m p ((n + 1 : Nat) : Int) ↔ m p = 0xFF#8 ∧ EmptyAt m (p + 1) n := by
  constructor
  · intro h
    exact ⟨h p (by omega) (by omega), fun i hi hi' => h i (by omega) (by omega)⟩
  · rintro ⟨hp, hrest⟩ i hi hi'
    by_cases hip : i = p
    · rw [hip]
      exact hp
    · exact hrest i (by omega) (by omega)

theorem byteScan_eq_none : byteScan m p n = none ↔ EmptyAt m p n := by
  induction n generalizing p with
  | zero =>
      simp only [byteScan, true_iff]
      intro i hi hi'
      omega
  | succ n ih =>
      rw [byteScan, emptyAt_succ]
      split
      · rename_i hp
        rw [Option.map_eq_none_iff, ih]
        simp [hp]
      · rename_i hp
        simp [hp]

theorem byteScan_eq_some :
    byteScan m p n = some k ↔ k < n ∧ EmptyAt m p k ∧ m (p + k) ≠ 0xFF#8 := by
  induction n generalizing p k with
  | zero => simp [byteScan]
  | succ n ih =>
      rw [byteScan]
      cases k with
      | zero =>
          have hnone : EmptyAt m p 0 := by
            intro i hi hi'
            omega
          split
          · rename_i hp
            simp [hp]
          · rename_i hp
            simp [hp, hnone]
      | succ k =>
          have hplace : p + ((k + 1 : Nat) : Int) = p + 1 + k := by omega
          rw [emptyAt_succ, hplace]
          split
          · rename_i hp
            simp [hp, ih]
          · rename_i hp
            simp [hp]

private theorem Found.eq_byteScan {cur : Cursor} {r : Option Cursor} (hlen : 0 ≤ cur.len)
    (h : Found m cur r) :
    r = (byteScan m cur.buf cur.len.toNat).map fun k : Nat => cur.plus k := by
  cases h with
  | empty hempty =>
      rw [byteScan_eq_none.mpr (by rwa [Int.toNat_of_nonneg hlen])]
      rfl
  | @dirty k hlo hhi hempty hbyte =>
      have hk : ((k.toNat : Nat) : Int) = k := Int.toNat_of_nonneg hlo
      have hscan : byteScan m cur.buf cur.len.toNat = some k.toNat :=
        byteScan_eq_some.mpr ⟨by omega, by rwa [hk], by rwa [hk]⟩
      rw [hscan, Option.map_some, hk]

end ByteScan

section Tail

variable {sbuf : Mem} {cur : Cursor} {w : World} {sleb : Addr}

theorem returns_byteScan (hfits : cur.Fits) (w : World) :
    Returns (tailLoops sbuf cur) w fun r w' =>
      (r = (byteScan sbuf cur.buf cur.len.toNat).map fun k : Nat => cur.plus k) ∧
        ∃ is, Observed w w' is ∧ Within is cur.buf cur.len := by
  rw [tailLoops, returns_bind]
  apply (returns_tailLoops hfits w).mono
  intro cur' w₁ hbytes
  apply hbytes.mono
  rintro r w' ⟨hfound, hreads⟩
  exact ⟨hfound.eq_byteScan hfits.len, hreads⟩

/-- `ubifs_scan` from an aligned offset on: it returns its scan information if a byte scan finds
nothing, and else reports the place that the byte scan finds. -/
private theorem returns_scanTail_byteScan {base : Heap} {nodes : List Addr} (c : UbifsInfo)
    (lnum : Int) (quiet : Bool) (hfits : cur.Fits) (hheld : Held base sleb nodes w.heap)
    (hdef : ModDefined cur.offs c.minIoSize) (hmod : cur.offs.tmod c.minIoSize = 0) :
    Returns (scanTail c lnum sbuf quiet sleb cur) w fun r w' =>
      (match byteScan sbuf cur.buf cur.len.toNat with
        | none => r = sleb ∧ w'.msgs = w.msgs
        | some k => r = errPtr (-euclean) ∧
            w'.msgs = w.msgs ++ if quiet then [] else
              .corruptEmptySpace lnum (cur.offs + k) :: corruptionReport c lnum (cur.offs + k)) ∧
        ∃ is, w'.reads = w.reads ++ is ∧ Within is cur.buf cur.len := by
  apply (returns_scanTail_of_mod hfits hheld hdef hmod).mono
  rintro r w' ⟨found, is, hfound, hreads, hwithin, hend⟩
  refine ⟨?_, is, hreads, hwithin⟩
  obtain rfl := hfound.eq_byteScan hfits.len
  cases hscan : byteScan sbuf cur.buf cur.len.toNat with
  | none =>
      rw [hscan] at hend
      exact ⟨hend.1, hend.2.1⟩
  | some k =>
      rw [hscan] at hend
      exact hend.2

end Tail

/-- **The empty-space check is a byte scan.** From any cursors the two tail loops reach the return
of the scan information if and only if all bytes left are empty, and otherwise stop with all three
cursors at the first byte that is not; the offset there is the one in every message. -/
theorem ubifsScan_tail_scans_bytes (sbuf : Mem) (cur : Cursor) (w : World) (hfits : cur.Fits) :
    Returns (tailLoops sbuf cur) w (fun r w' =>
      (r = (byteScan sbuf cur.buf cur.len.toNat).map fun k : Nat => cur.plus k) ∧
      (r = none ↔ EmptyAt sbuf cur.buf cur.len) ∧
      (∀ cur', r = some cur' → ∃ k, 0 ≤ k ∧ k < cur.len ∧ EmptyAt sbuf cur.buf k ∧
        sbuf (cur.buf + k) ≠ 0xFF#8 ∧
        cur' = ⟨cur.buf + k, cur.offs + k, cur.len - k⟩) ∧
      ∃ is, Observed w w' is ∧ Within is cur.buf cur.len) ∧
    ∀ (c : UbifsInfo) (lnum : Int) (quiet : Bool) (sleb : Addr) (base : Heap) (nodes : List Addr),
      Held base sleb nodes w.heap → ModDefined cur.offs c.minIoSize →
      cur.offs.tmod c.minIoSize = 0 →
      Returns (scanTail c lnum sbuf quiet sleb cur) w fun r w' =>
        (match byteScan sbuf cur.buf cur.len.toNat with
        | none => r = sleb ∧ w'.msgs = w.msgs
        | some k => r = errPtr (-euclean) ∧
            w'.msgs = w.msgs ++ if quiet then [] else
              .corruptEmptySpace lnum (cur.offs + k) :: corruptionReport c lnum (cur.offs + k)) ∧
        ∃ is, w'.reads = w.reads ++ is ∧ Within is cur.buf cur.len := by
  have hlen := Int.toNat_of_nonneg hfits.len
  constructor
  · apply (returns_byteScan hfits w).mono
    rintro r w' ⟨hr, hreads⟩
    refine ⟨hr, ?_, fun cur' hcur => ?_, hreads⟩
    · rw [hr, Option.map_eq_none_iff, byteScan_eq_none, hlen]
    · rw [hr, Option.map_eq_some_iff] at hcur
      obtain ⟨k, hscan, rfl⟩ := hcur
      obtain ⟨hlt, hempty, hbyte⟩ := byteScan_eq_some.mp hscan
      exact ⟨k, by omega, by omega, hempty, hbyte, rfl⟩
  · intro c lnum quiet sleb base nodes hheld hdef hmod
    exact returns_scanTail_byteScan c lnum quiet hfits hheld hdef hmod

/-- Empty space of 15 bytes from 80 on, with a byte that is not empty behind its first word. -/
def dirtyTail : Mem := fun i => if i = 86 then 0xFE#8 else 0xFF#8

theorem sample_dirtyTail : ∃ w₁, (ubifsStartScan (.harness .bump) sampleInfo 3 0).run .boot =
    some (1, w₁) ∧
    Returns (scanTail sampleInfo 3 dirtyTail false 1 ⟨80, 80, 15⟩) w₁ fun r w' =>
      r = errPtr (-euclean) ∧
      w'.msgs = w₁.msgs ++ .corruptEmptySpace 3 86 :: corruptionReport sampleInfo 3 86 := by
  have hstart : ((ubifsStartScan (.harness .bump) sampleInfo 3 0).run .boot).map Prod.fst =
      some 1 := by decide +kernel
  obtain ⟨⟨sleb, w₁⟩, hrun, rfl⟩ := Option.map_eq_some_iff.mp hstart
  refine ⟨w₁, hrun, ?_⟩
  have hhead : AtHead .bump dirtyTail sampleInfo.lebSize 0 3 .boot _ [] 0 w₁ :=
    started (by decide) hrun
  obtain ⟨nodes, hheld, -, -⟩ := hhead.held
  have hfits : (⟨80, 80, 15⟩ : Cursor).Fits := ⟨by decide, by decide, by decide, by decide⟩
  apply ((ubifsScan_tail_scans_bytes dirtyTail ⟨80, 80, 15⟩ w₁ hfits).2 sampleInfo 3 false _ _
    nodes hheld (by decide) (by decide)).mono
  rintro r w' ⟨hend, -⟩
  have hscan : byteScan dirtyTail 80 (15 : Int).toNat = some 6 := by decide
  rw [hscan] at hend
  exact hend

end UbifsScan
