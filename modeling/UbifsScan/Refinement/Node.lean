import UbifsScan.Format.Items

/-!
# What `ubifs_scan_a_node` can answer

One inversion of `ubifs_scan_a_node`: each of its returns with the bytes that lead to it and the
bytes it looked at. Everything proved about the scan goes through these cases.
-/

namespace UbifsScan

open Mem Program

/-- Between two worlds only bytes of the scan buffer were read, namely `is`, messages printed and
the CRC called. -/
structure Observed (w w' : World) (is : List Int) : Prop where
  heap : w'.heap = w.heap
  reads : w'.reads = w.reads ++ is

theorem Observed.refl (w : World) : Observed w w [] := ⟨rfl, by simp⟩

theorem Observed.trans {w w' w'' : World} {is js : List Int} (h : Observed w w' is)
    (h' : Observed w' w'' js) : Observed w w'' (is ++ js) :=
  ⟨h'.heap.trans h.heap, by rw [h'.reads, h.reads, List.append_assoc]⟩

theorem Observed.see (w : World) (is : List Int) : Observed w (w.see is) is := ⟨rfl, rfl⟩

/-- Every byte of `is` lies in the `n` bytes from `p` on. -/
def Within (is : List Int) (p n : Int) : Prop := ∀ i ∈ is, p ≤ i ∧ i < p + n

theorem Within.append {is js : List Int} {p n : Int} (h : Within is p n) (h' : Within js p n) :
    Within (is ++ js) p n := by
  intro i hi
  rcases List.mem_append.mp hi with hi | hi
  · exact h i hi
  · exact h' i hi

theorem within_span {p q n : Int} {k : Nat} (hp : p ≤ q) (hq : q + k ≤ p + n) :
    Within (span q k) p n := by
  intro i hi
  rw [mem_span] at hi
  omega

theorem Within.mono {is : List Int} {p n q k : Int} (h : Within is q k) (hp : p ≤ q)
    (hq : q + k ≤ p + n) : Within is p n := by
  intro i hi
  have := h i hi
  omega

variable {sbuf : Mem}

theorem returns_countPadding (p : Int) (n : Nat) (w : World) :
    Returns (countPadding sbuf p n) w fun k w' =>
      k ≤ n ∧ (∀ i, p ≤ i → i < p + k → sbuf i = ubifsPaddingByte) ∧
        (k < n → sbuf (p + k) ≠ ubifsPaddingByte) ∧
          ∃ is, Observed w w' is ∧ Within is p n := by
  induction n generalizing p w with
  | zero =>
      simp only [countPadding, returns_pure]
      exact ⟨Nat.le_refl 0, by intro i h h'; omega, by omega, [], .refl w, by simp [Within]⟩
  | succ n ih =>
      simp only [countPadding, returns_bind, returns_readByte, returns_ite, returns_pure]
      split
      · rename_i hbyte
        apply (ih (p + 1) (w.see (span p 1))).mono
        intro k w' hk
        have hone : Within (span p 1) p ((n + 1 : Nat) : Int) :=
          within_span (by omega) (by omega)
        rcases hk with ⟨hle, hbytes, hstop, is, hobs, hin⟩
        refine ⟨by omega, ?_, ?_, span p 1 ++ is, (Observed.see w _).trans hobs,
          hone.append (hin.mono (by omega) (by omega))⟩
        · intro i hlo hhi
          by_cases hi : i = p
          · rw [hi, hbyte]
          · exact hbytes i (by omega) (by omega)
        · intro hlt
          have h := hstop (by omega)
          rwa [show p + 1 + (k : Int) = p + ((k + 1 : Nat) : Int) by omega] at h
      · rename_i hbyte
        refine ⟨by omega, by intro i h h'; omega, ?_, span p 1, .see w _,
          within_span (by omega) (by omega)⟩
        intro _
        simpa using hbyte

private theorem raw_of_count {buf len : Int} {k : Nat} (hlen : 8 ≤ len)
    (hk : (k : Int) ≤ min 28 len)
    (hbytes : ∀ i, buf ≤ i → i < buf + k → sbuf i = ubifsPaddingByte)
    (hstop : (k : Int) < min 28 len → sbuf (buf + k) ≠ ubifsPaddingByte) :
    (if (k : Int) = 0 ∨ (k : Int) % 8 ≠ 0 then ∀ n, ¬ IsRaw sbuf (buf + len) buf n
      else IsRaw sbuf (buf + len) buf k) := by
  split
  · rename_i hno
    intro n hn
    have hsize := hn.size
    have hfits := hn.fits
    have hnk : n = k := by
      rcases lt_trichotomy n k with hlt | heq | hgt
      · rcases hn.maximal with hend | hnext
        · omega
        · exact absurd (hbytes (buf + n) (by omega) (by omega)) hnext
      · exact heq
      · exact absurd (hn.bytes (buf + k) (by omega) (by omega)) (hstop (by omega))
    omega
  · rename_i hyes
    refine ⟨by omega, by omega, hbytes, ?_⟩
    by_cases hend : (k : Int) = len
    · exact .inl (by omega)
    · exact .inr (hstop (by omega))

theorem returns_scanPaddingBytes {buf len : Int} (hlen : 8 ≤ len) (hint : len < 2147483648)
    (w : World) :
    Returns (scanPaddingBytes sbuf buf len) w fun ret w' =>
      (IsRaw sbuf (buf + len) buf ret ∨
        ret = scannedGarbage ∧ ∀ n, ¬ IsRaw sbuf (buf + len) buf n) ∧
        ∃ is, Observed w w' is ∧ Within is buf len := by
  have hmin : minT ubifsPadNodeSz len = min 28 len := by
    rw [minT, ubifsPadNodeSz, sizeT, Int.emod_eq_of_lt (by omega) (by omega)]
    split <;> omega
  simp only [scanPaddingBytes, returns_bind, returns_ite, returns_pure, hmin]
  apply (returns_countPadding buf (min 28 len).toNat w).mono
  intro k w' hk
  rcases hk with ⟨hle, hbytes, hstop, is, hobs, hin⟩
  have hraw := raw_of_count hlen (by omega) hbytes (fun hlt => hstop (by omega))
  have hreads : ∃ is, Observed w w' is ∧ Within is buf len :=
    ⟨is, hobs, hin.mono (by omega) (by omega)⟩
  split at hraw
  · rename_i hno
    rw [if_pos hno]
    exact ⟨.inr ⟨trivial, hraw⟩, hreads⟩
  · rename_i hyes
    rw [if_neg hyes]
    exact ⟨.inl hraw, hreads⟩

theorem returns_ubifsCheckNode (buf len : Int) (w : World) :
    Returns (ubifsCheckNode sbuf buf len) w fun ret w' =>
      (ret = 0 ↔ HeaderOk sbuf buf len) ∧ ∃ is, Observed w w' is ∧ Within is buf 24 := by
  have h16 : Within (span (buf + 16) 4) buf 24 := within_span (by omega) (by omega)
  have h8 : Within (span (buf + 8) 16) buf 24 := within_span (by omega) (by omega)
  have h4 : Within (span (buf + 4) 4) buf 24 := within_span (by omega) (by omega)
  simp only [ubifsCheckNode, returns_bind, returns_readLe32, returns_ite, returns_pure]
  split
  · rename_i hrange
    refine ⟨⟨by simp, fun h => ?_⟩, _, .see w _, h16⟩
    have hlo := h.lo
    have hhi := h.hi
    simp only [chLen] at hlo hhi
    omega
  · rename_i hrange
    simp only [returns_readBytes]
    apply returns_callCrc32
    intro st
    have hobs : Observed w ((({ (w.see (span (buf + 16) 4)).see (span (buf + 8) 16) with
        crc := st } : World)).see (span (buf + 4) 4))
        (span (buf + 16) 4 ++ (span (buf + 8) 16 ++ span (buf + 4) 4)) :=
      ⟨rfl, by simp [World.see]⟩
    have hin := h16.append (h8.append h4)
    split
    · rename_i hcrc
      exact ⟨⟨by simp, fun h => absurd h.crc hcrc⟩, _, hobs, hin⟩
    · rename_i hcrc
      rw [not_or, not_lt, not_lt] at hrange
      exact ⟨⟨fun _ => ⟨hrange.1, hrange.2, not_not.mp hcrc⟩, fun _ => trivial⟩, _, hobs, hin⟩

/-- The answers of `ubifs_scan_a_node`, each with what it found. -/
inductive Verdict (m : Mem) (L buf len offs : Int) : Int → Prop
  | empty (hmagic : chMagic m buf = 0xFFFFFFFF#32) : Verdict m L buf len offs scannedEmptySpace
  | raw {n : Int} (hraw : IsRaw m (buf + len) buf n) : Verdict m L buf len offs n
  | garbage (hempty : chMagic m buf ≠ 0xFFFFFFFF#32) (hraw : ∀ n, ¬ IsRaw m (buf + len) buf n)
      (hheader : ¬ IsHeader m buf len) : Verdict m L buf len offs scannedGarbage
  | corrupt (hmagic : chMagic m buf = ubifsNodeMagic) (hheader : ¬ HeaderOk m buf len) :
      Verdict m L buf len offs scannedACorruptNode
  | badPad (hpad : IsPadHeader m buf len)
      (hbad : (padPadLen m buf).toInt < 0 ∨
        L < wrap32 (wrap32 (offs + (chLen m buf).toInt) + (padPadLen m buf).toInt) ∨
        wrap32 ((chLen m buf).toInt + (padPadLen m buf).toInt) % 8 ≠ 0) :
      Verdict m L buf len offs scannedABadPadNode
  | pad (hpad : IsPadHeader m buf len) (hneg : 0 ≤ (padPadLen m buf).toInt)
      (hfits : wrap32 (wrap32 (offs + (chLen m buf).toInt) + (padPadLen m buf).toInt) ≤ L)
      (h8 : wrap32 ((chLen m buf).toInt + (padPadLen m buf).toInt) % 8 = 0) :
      Verdict m L buf len offs (wrap32 ((chLen m buf).toInt + (padPadLen m buf).toInt))
  | node (hheader : IsHeader m buf len) (htype : chNodeType m buf ≠ NodeType.pad.code) :
      Verdict m L buf len offs scannedANode

/-- The bytes looked at: they lie in the `len` bytes left or in the padding length of a pad node,
and the padding length of a pad node is among them. -/
structure NodeReads (m : Mem) (buf len : Int) (is : List Int) : Prop where
  within : ∀ i ∈ is, buf ≤ i ∧ (i < buf + len ∨ IsPadHeader m buf len ∧ i < buf + 28)
  padWord : IsPadHeader m buf len → buf + 27 ∈ is

private theorem nodeReads_of_within {buf len : Int} {is : List Int} (h : Within is buf len)
    (hno : ¬ IsPadHeader sbuf buf len) : NodeReads sbuf buf len is :=
  ⟨fun i hi => ⟨(h i hi).1, .inl (h i hi).2⟩, fun hp => absurd hp hno⟩

private theorem nodeReads_of_pad {buf len : Int} {is : List Int} (hpad : IsPadHeader sbuf buf len)
    (h : Within is buf len) :
    NodeReads sbuf buf len (is ++ (span (buf + 24) 4 ++ span (buf + 16) 4)) := by
  refine ⟨fun i hi => ?_, fun _ => ?_⟩
  · rcases List.mem_append.mp hi with hi | hi
    · exact ⟨(h i hi).1, .inl (h i hi).2⟩
    · simp only [List.mem_append, mem_span] at hi
      exact ⟨by omega, .inr ⟨hpad, by omega⟩⟩
  · have hword : buf + 27 ∈ span (buf + 24) 4 := mem_span.mpr ⟨by omega, by omega⟩
    exact List.mem_append_right _ (List.mem_append_left _ hword)

/-- **What `ubifs_scan_a_node` answers**, for any remaining length the loop calls it with. -/
theorem returns_ubifsScanANode (c : UbifsInfo) (sbuf : Mem) (buf : Int) {len : Int}
    (lnum offs : Int) (quiet : Bool)
    (hlen : 8 ≤ len) (hint : len < 2147483648) (w : World) :
    Returns (ubifsScanANode c sbuf buf len lnum offs quiet) w fun ret w' =>
      Verdict sbuf c.lebSize buf len offs ret ∧
        ∃ is, Observed w w' is ∧ NodeReads sbuf buf len is := by
  have hword : Within (span buf 4) buf len := within_span (by omega) (by omega)
  have hno : ∀ {is : List Int}, ¬ IsHeader sbuf buf len → Within is buf len →
      NodeReads sbuf buf len is :=
    fun hh hin => nodeReads_of_within hin (fun hp => hh hp.1)
  simp only [ubifsScanANode, returns_bind, returns_readLe32, returns_ite, returns_pure]
  split
  · rename_i hempty
    refine ⟨.empty hempty, _, .see w _, hno (fun hh => ?_) hword⟩
    exact absurd (hh.magic.symm.trans hempty) (by decide)
  rename_i hempty
  split
  · rename_i hmagic
    have hnone : ¬ IsHeader sbuf buf len := fun hh => hmagic hh.magic
    apply (returns_scanPaddingBytes hlen hint _).mono
    intro ret w' hret
    rcases hret with ⟨hraw, is, hobs, hin⟩
    refine ⟨?_, _, (Observed.see w _).trans hobs, hno hnone (hword.append hin)⟩
    rcases hraw with hraw | ⟨rfl, hraw⟩
    · exact .raw hraw
    · exact .garbage hempty hraw hnone
  rename_i hmagic
  have hm : chMagic sbuf buf = ubifsNodeMagic := not_not.mp hmagic
  split
  · rename_i hshort
    have hlt : len < 24 := by
      simp only [sizeT, ubifsChSz] at hshort
      omega
    have hnone : ¬ IsHeader sbuf buf len := fun hh => by
      have hroom := hh.room
      omega
    exact ⟨.garbage hempty (fun n hr => hr.not_magic hm) hnone, _, .see w _, hno hnone hword⟩
  rename_i hlong
  have h24 : 24 ≤ len := by
    simp only [sizeT, ubifsChSz] at hlong
    omega
  apply (returns_ubifsCheckNode buf len _).mono
  intro chk w₁ hchk
  rcases hchk with ⟨hok, is, hobs, hin⟩
  have hobs₁ := (Observed.see w (span buf 4)).trans hobs
  have hin₁ : Within (span buf 4 ++ is) buf len := hword.append (hin.mono (by omega) (by omega))
  simp only [returns_readByte]
  split
  · rename_i hbad
    have hnone : ¬ HeaderOk sbuf buf len := fun hh => hbad (hok.mpr hh)
    exact ⟨.corrupt hm hnone, _, hobs₁, hno (fun hh => hnone hh.toHeaderOk) hin₁⟩
  rename_i hgood
  have hheader : IsHeader sbuf buf len := ⟨hok.mp (not_not.mp hgood), hm⟩
  have hobs₂ := hobs₁.trans (Observed.see w₁ (span (buf + 20) 1))
  have hin₂ := hin₁.append (within_span (q := buf + 20) (k := 1) (by omega) (by omega))
  split
  · rename_i htype
    have hpad : IsPadHeader sbuf buf len := ⟨hheader, htype⟩
    let tail := span (buf + 24) 4 ++ span (buf + 16) 4
    have hreads : NodeReads sbuf buf len (span buf 4 ++ is ++ span (buf + 20) 1 ++ tail) :=
      nodeReads_of_pad hpad hin₂
    have hobs₃ : ∀ msgs, Observed w { ((w₁.see (span (buf + 20) 1)).see (span (buf + 24) 4)).see
        (span (buf + 16) 4) with msgs := msgs }
        (span buf 4 ++ is ++ span (buf + 20) 1 ++ tail) := by
      intro msgs
      exact ⟨hobs₂.heap, by simp [World.see, tail, hobs₁.reads, List.append_assoc]⟩
    simp only [returns_ubifsErr]
    split
    · rename_i hbad
      have hv : Verdict sbuf c.lebSize buf len offs scannedABadPadNode :=
        .badPad hpad (hbad.imp_right .inl)
      split
      · exact ⟨hv, _, hobs₃ _, hreads⟩
      · exact ⟨hv, _, hobs₃ _, hreads⟩
    rename_i hfits
    rw [not_or, not_lt, gt_iff_lt, not_lt] at hfits
    split
    · rename_i h8
      have hv : Verdict sbuf c.lebSize buf len offs scannedABadPadNode :=
        .badPad hpad (.inr (.inr h8))
      split
      · exact ⟨hv, _, hobs₃ _, hreads⟩
      · exact ⟨hv, _, hobs₃ _, hreads⟩
    · rename_i h8
      exact ⟨.pad hpad hfits.1 hfits.2 (not_not.mp h8), _, hobs₃ _, hreads⟩
  · rename_i htype
    exact ⟨.node hheader htype, _, hobs₂, nodeReads_of_within hin₂ (fun hp => htype hp.2)⟩

end UbifsScan
