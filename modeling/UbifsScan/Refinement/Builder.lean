import UbifsScan.Format.Locality

/-!
# What the node builders write

`ut_make_node` and `ut_make_pad_node` leave a header that the format accepts, zeroes behind it, and
everything outside the node as it was.
-/

namespace UbifsScan

open Mem

section Stores

variable {m : Mem} {p i : Int}

theorem memset_inside {b : Byte} {n : Int} (hn : 0 ≤ n) (hint : n < 18446744073709551616)
    (h : p ≤ i) (h' : i < p + n) : memset m p b n i = b := by
  rw [memset, if_pos]
  rw [sizeT, Int.emod_eq_of_lt hn hint]
  exact ⟨h, h'⟩

theorem memset_outside {b : Byte} {n : Int} (hn : 0 ≤ n) (hint : n < 18446744073709551616)
    (h : i < p ∨ p + n ≤ i) : memset m p b n i = m i := by
  rw [memset, if_neg]
  rw [sizeT, Int.emod_eq_of_lt hn hint]
  omega

/-- `m` with the first `n` bytes of `src` at `p`. -/
def splice (m : Mem) (p : Int) (src : Mem) (n : Int) : Mem :=
  fun i => if p ≤ i ∧ i < p + n then src (i - p) else m i

theorem splice_inside {src : Mem} {n : Int} (h : p ≤ i) (h' : i < p + n) :
    splice m p src n i = src (i - p) := if_pos ⟨h, h'⟩

theorem splice_outside {src : Mem} {n : Int} (h : i < p ∨ p + n ≤ i) :
    splice m p src n i = m i := if_neg (by omega)

theorem splice_eq_self {src : Mem} {n : Nat} (h : bytesAt src 0 n = bytesAt m p n) :
    splice m p src n = m := by
  funext i
  by_cases hi : p ≤ i ∧ i < p + n
  · have hbyte := bytesAt_eq_iff.mp h (i - p).toNat (by omega)
    rw [show (0 : Int) + ((i - p).toNat : Int) = i - p by omega,
      show p + ((i - p).toNat : Int) = i by omega] at hbyte
    rw [splice_inside hi.1 hi.2, hbyte]
  · exact splice_outside (by omega)

theorem storeLe_outside {n : Nat} {v : BitVec (8 * n)} (h : i < p ∨ p + n ≤ i) :
    storeLe n m p v i = m i := by
  rw [storeLe, if_neg]
  omega

theorem storeLe_byte {n k : Nat} {v : BitVec (8 * n)} (hk : k < n) :
    storeLe n m p v (p + k) = v.extractLsb' (8 * k) 8 := by
  rw [storeLe, if_pos (by omega), show (p + k - p).toNat = k by omega]

theorem le32_storeLe (v : BitVec 32) : le32 (storeLe 4 m p v) p = v := by
  apply BitVec.eq_of_toNat_eq
  have h : ∀ k : Nat, k < 4 → (storeLe 4 m p v (p + k)).toNat = v.toNat / 2 ^ (8 * k) % 256 := by
    intro k hk
    rw [storeLe_byte hk, BitVec.extractLsb'_toNat, Nat.shiftRight_eq_div_pow]
  have h0 := h 0 (by omega)
  have h1 := h 1 (by omega)
  have h2 := h 2 (by omega)
  have h3 := h 3 (by omega)
  have hv := v.isLt
  norm_num at h0 h1 h2 h3
  rw [le32_toNat, h0, h1, h2, h3]
  omega

theorem le64_storeLe (v : BitVec 64) : le64 (storeLe 8 m p v) p = v := by
  apply BitVec.eq_of_toNat_eq
  have h : ∀ k : Nat, k < 8 → (storeLe 8 m p v (p + k)).toNat = v.toNat / 2 ^ (8 * k) % 256 := by
    intro k hk
    rw [storeLe_byte hk, BitVec.extractLsb'_toNat, Nat.shiftRight_eq_div_pow]
  have h0 := h 0 (by omega)
  have h1 := h 1 (by omega)
  have h2 := h 2 (by omega)
  have h3 := h 3 (by omega)
  have h4 := h 4 (by omega)
  have h5 := h 5 (by omega)
  have h6 := h 6 (by omega)
  have h7 := h 7 (by omega)
  have hv := v.isLt
  norm_num at h0 h1 h2 h3 h4 h5 h6 h7
  have hlow := (le32 (storeLe 8 m p v) p).isLt
  rw [le64, BitVec.toNat_append, ← Nat.shiftLeft_add_eq_or_of_lt hlow, Nat.shiftLeft_eq,
    le32_toNat, le32_toNat, show p + 4 + 1 = p + 5 by omega, show p + 4 + 2 = p + 6 by omega,
    show p + 4 + 3 = p + 7 by omega, h0, h1, h2, h3, h4, h5, h6, h7]
  omega

theorem storeLe_one (v : BitVec 8) : storeLe 1 m p v p = v := by
  have h := storeLe_byte (m := m) (p := p) (k := 0) (n := 1) (v := v) (by omega)
  simpa using h

end Stores

/-- What the bytes of a built node are; `m` is the memory before. -/
structure MadeNode (m m' : Mem) (o nodeLen : Int) (nodeType : Byte) (sqnum : BitVec 64) :
    Prop where
  magic : chMagic m' o = ubifsNodeMagic
  crc : utCrc32Value (chCovered m' o) = chCrc m' o
  sqnum : chSqnum m' o = sqnum
  len : (chLen m' o).toInt = nodeLen
  type : chNodeType m' o = nodeType
  zero : ∀ i, o + 21 ≤ i → i < o + 24 → m' i = 0#8
  outside : ∀ i, i < o ∨ o + nodeLen ≤ i → m' i = m i

theorem toInt_ofInt {x : Int} (h0 : 0 ≤ x) (h : x < 2147483648) :
    (BitVec.ofInt 32 x).toInt = x := by
  rw [BitVec.toInt_eq_toNat_cond, BitVec.toNat_ofInt]
  norm_num
  omega

private theorem crc_stored {m : Mem} {o : Int} :
    utCrc32Value (chCovered (storeLe 4 m (o + 4) (utCrc32Value (chCovered m o))) o) =
      chCrc (storeLe 4 m (o + 4) (utCrc32Value (chCovered m o))) o := by
  have hcov : chCovered (storeLe 4 m (o + 4) (utCrc32Value (chCovered m o))) o = chCovered m o := by
    apply bytesAt_congr
    intro i hi hi'
    exact storeLe_outside (by omega)
  rw [hcov, chCrc, le32_storeLe]

theorem utMakeNode_made {st : CrcStatics} (hst : st.Lazy) (m : Mem) (o nodeType : Int)
    {nodeLen : Int} (sqnum : BitVec 64) (h24 : 24 ≤ nodeLen) (hint : nodeLen < 2147483648) :
    MadeNode m (utMakeNode st m o nodeType nodeLen sqnum).1 o nodeLen (BitVec.ofInt 8 nodeType)
        sqnum ∧
      ∀ i, o + 21 ≤ i → i < o + nodeLen →
        (utMakeNode st m o nodeType nodeLen sqnum).1 i = 0#8 := by
  let m₁ := memset m o 0 nodeLen
  let m₂ := storeLe 4 m₁ o ubifsNodeMagic
  let m₃ := storeLe 8 m₂ (o + 8) sqnum
  let m₄ := storeLe 4 m₃ (o + 16) (BitVec.ofInt 32 nodeLen)
  let m₅ := storeLe 1 m₄ (o + 20) (BitVec.ofInt 8 nodeType)
  let m₆ := storeLe 4 m₅ (o + 4) (utCrc32Value (chCovered m₅ o))
  have hmade : (utMakeNode st m o nodeType nodeLen sqnum).1 = m₆ := by
    simp only [utMakeNode, m₆]
    rw [utCrc32_fst hst, ← utCrc32Value_eq]
    rfl
  have h6 : ∀ i, i < o + 4 ∨ o + 8 ≤ i → m₆ i = m₅ i := fun i hi => storeLe_outside (by omega)
  have h5 : ∀ i, i < o + 20 ∨ o + 21 ≤ i → m₅ i = m₄ i := fun i hi => storeLe_outside (by omega)
  have h4 : ∀ i, i < o + 16 ∨ o + 20 ≤ i → m₄ i = m₃ i := fun i hi => storeLe_outside (by omega)
  have h3 : ∀ i, i < o + 8 ∨ o + 16 ≤ i → m₃ i = m₂ i := fun i hi => storeLe_outside (by omega)
  have h2 : ∀ i, i < o ∨ o + 4 ≤ i → m₂ i = m₁ i := fun i hi => storeLe_outside (by omega)
  have hzero : ∀ i, o + 21 ≤ i → i < o + nodeLen → m₆ i = 0#8 := by
    intro i hi hi'
    rw [h6 i (by omega), h5 i (by omega), h4 i (by omega), h3 i (by omega), h2 i (by omega)]
    exact memset_inside (by omega) (by omega) (by omega) hi'
  rw [hmade]
  refine ⟨⟨?_, crc_stored, ?_, ?_, ?_, fun i hi hi' => hzero i hi (by omega), ?_⟩, hzero⟩
  · have heq : chMagic m₆ o = chMagic m₂ o := chMagic_congr fun i hi hi' => by
      rw [h6 i (by omega), h5 i (by omega), h4 i (by omega), h3 i (by omega)]
    rw [heq]
    exact le32_storeLe _
  · have heq : le64 m₆ (o + 8) = le64 m₃ (o + 8) := le64_congr fun i hi hi' => by
      rw [h6 i (by omega), h5 i (by omega), h4 i (by omega)]
    rw [chSqnum, heq]
    exact le64_storeLe _
  · have heq : le32 m₆ (o + 16) = le32 m₄ (o + 16) := le32_congr fun i hi hi' => by
      rw [h6 i (by omega), h5 i (by omega)]
    rw [chLen, heq]
    rw [show le32 m₄ (o + 16) = _ from le32_storeLe _]
    exact toInt_ofInt (by omega) hint
  · rw [chNodeType, h6 (o + 20) (by omega)]
    exact storeLe_one _
  · intro i hi
    rw [h6 i (by omega), h5 i (by omega), h4 i (by omega), h3 i (by omega), h2 i (by omega)]
    exact memset_outside (by omega) (by omega) hi

theorem MadeNode.isHeader {m m' : Mem} {o nodeLen len : Int} {nodeType : Byte}
    {sqnum : BitVec 64} (h : MadeNode m m' o nodeLen nodeType sqnum) (h24 : 24 ≤ nodeLen)
    (hlen : nodeLen ≤ len) : IsHeader m' o len := by
  refine ⟨⟨?_, ?_, h.crc⟩, h.magic⟩
  · rw [h.len]
    exact h24
  · rw [h.len]
    exact hlen

theorem MadeNode.congr {m m' m'' : Mem} {o nodeLen : Int} {nodeType : Byte} {sqnum : BitVec 64}
    (h : MadeNode m m' o nodeLen nodeType sqnum) (hagree : AgreeOn m' m'' o (o + 24))
    (hout : ∀ i, i < o ∨ o + nodeLen ≤ i → m'' i = m' i) :
    MadeNode m m'' o nodeLen nodeType sqnum := by
  refine ⟨?_, ?_, ?_, ?_, ?_, ?_, fun i hi => (hout i hi).trans (h.outside i hi)⟩
  · rw [chMagic_congr (hagree.mono (Int.le_refl o) (by omega))]
    exact h.magic
  · rw [chCovered_congr hagree, chCrc_congr (hagree.mono (Int.le_refl o) (by omega))]
    exact h.crc
  · rw [chSqnum_congr (hagree.mono (Int.le_refl o) (by omega))]
    exact h.sqnum
  · rw [chLen_congr (hagree.mono (Int.le_refl o) (by omega))]
    exact h.len
  · rw [chNodeType_congr (hagree.mono (Int.le_refl o) (by omega))]
    exact h.type
  · intro i hi hi'
    rw [hagree i (by omega) hi']
    exact h.zero i hi hi'

theorem MadeNode.moved {m m' : Mem} {o nodeLen : Int} {nodeType : Byte} {sqnum : BitVec 64}
    (h : MadeNode m m' o nodeLen nodeType sqnum) :
    MadeNode (fun i => m (o + i)) (fun i => m' (o + i)) 0 nodeLen nodeType sqnum := by
  have hword : ∀ p, le32 (fun i => m' (o + i)) p = le32 m' (o + p) := by
    intro p
    simp only [le32, Int.add_assoc]
  have hcov : chCovered (fun i => m' (o + i)) 0 = chCovered m' o := by
    rw [chCovered, chCovered, bytesAt_eq_iff]
    intro k _
    congr 1
    omega
  refine ⟨?_, ?_, ?_, ?_, h.type, fun i hi hi' => ?_, fun i hi => ?_⟩
  · rw [chMagic, hword, Int.add_zero]
    exact h.magic
  · rw [hcov, chCrc, hword]
    exact h.crc
  · rw [chSqnum, le64, hword, hword, ← Int.add_assoc]
    exact h.sqnum
  · rw [chLen, hword]
    exact h.len
  · exact h.zero (o + i) (by omega) (by omega)
  · exact h.outside (o + i) (by omega)

theorem utMakePadNode_made {st : CrcStatics} (hst : st.Lazy) (m : Mem) (o : Int)
    {nodeLen padLen : Int} (sqnum : BitVec 64) (h28 : 28 ≤ nodeLen) (hint : nodeLen < 2147483648)
    (hpad : 0 ≤ padLen) (hpad' : padLen < 2147483648) :
    MadeNode m (utMakePadNode st m o nodeLen padLen sqnum).1 o nodeLen NodeType.pad.code sqnum ∧
      (padPadLen (utMakePadNode st m o nodeLen padLen sqnum).1 o).toInt = padLen := by
  have hmade := (utMakeNode_made hst m o NodeType.pad.code.toNat sqnum (by omega) hint).1
  have hlazy := utMakeNode_lazy hst m o NodeType.pad.code.toNat nodeLen sqnum
  let m₁ := (utMakeNode st m o NodeType.pad.code.toNat nodeLen sqnum).1
  let m₂ := storeLe 4 m₁ (o + 24) (BitVec.ofInt 32 padLen)
  let m₃ := storeLe 4 m₂ (o + 4) (utCrc32Value (chCovered m₂ o))
  have heq : (utMakePadNode st m o nodeLen padLen sqnum).1 = m₃ := by
    simp only [utMakePadNode, m₃]
    rw [utCrc32_fst hlazy, ← utCrc32Value_eq]
    rfl
  have h2 : ∀ i, i < o + 24 ∨ o + 28 ≤ i → m₂ i = m₁ i := fun i hi => storeLe_outside (by omega)
  have hcov : chCovered m₂ o = chCovered m₁ o := bytesAt_congr fun i hi hi' => h2 i (by omega)
  -- The second CRC is the first one again, so the last store changes nothing.
  have hsame : m₃ = m₂ := by
    funext i
    by_cases hi : i < o + 4 ∨ o + 4 + 4 ≤ i
    · exact storeLe_outside hi
    · have hcrc : utCrc32Value (chCovered m₂ o) = le32 m₂ (o + 4) := by
        rw [hcov, le32_congr (m := m₁) fun j hj hj' => h2 j (by omega)]
        exact hmade.crc
      have hb := le32_byte m₂ (o + 4) (k := (i - (o + 4)).toNat) (by omega)
      have hs := storeLe_byte (m := m₂) (p := o + 4) (n := 4) (v := utCrc32Value (chCovered m₂ o))
        (k := (i - (o + 4)).toNat) (by omega)
      rw [show o + 4 + ((i - (o + 4)).toNat : Int) = i by omega] at hb hs
      rw [show m₃ i = _ from hs, hb, hcrc]
  rw [heq, hsame]
  refine ⟨?_, ?_⟩
  · exact hmade.congr (fun i hi hi' => h2 i (by omega)) fun i hi => h2 i (by omega)
  · rw [padPadLen, show le32 m₂ (o + 24) = _ from le32_storeLe _]
    exact toInt_ofInt hpad hpad'

end UbifsScan
