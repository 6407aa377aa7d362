import UbifsScan.Refinement.Layout
import UbifsScan.Results.Corruption

/-!
# Writing that was cut off

Pieces of which only the bytes before some place were written. Pieces that are complete stand as
they do in the whole writing; of the piece that was cut either enough is there for a shorter piece,
or too little to be taken for any item.
-/

namespace UbifsScan

open Mem

/-- What is left of the piece when its first `k` bytes are written into empty space, if they can be
read at all. -/
def Piece.torn (k : Int) : Piece → Option Piece
  | .node nodeType nodeLen sqnum payload =>
      if 24 ≤ k then
        some (.node nodeType nodeLen sqnum fun i => if i < k - 24 then payload i else 0xFF#8)
      else none
  | .pad nodeLen padLen sqnum => if 28 ≤ k then some (.pad nodeLen padLen sqnum) else none
  | .raw _ => if k % 8 = 0 then some (.raw k) else none

/-- What is left of the pieces from `o` on when only the bytes before `p` are written. -/
def tornFrom (p o : Int) : List Piece → Option (List Piece)
  | [] => some []
  | q :: qs =>
      if p ≤ o then some []
      else if o + q.size ≤ p then (tornFrom p (o + q.size) qs).map (q :: ·)
      else (q.torn (p - o)).map ([·])

/-- The pieces `ps` can be read from `o` on. -/
structure Reads (J : Mem) (L o : Int) (ps : List Piece) : Prop where
  le : endFrom o ps ≤ L
  tiles : Tiles J L o (itemsFrom o ps) (endFrom o ps)
  empty : EmptyFrom J L (endFrom o ps)
  records : recorded J (itemsFrom o ps) = recordsFrom o ps

/-- Nothing can be read at `x`, and the space there is not empty. -/
structure Unreadable (J : Mem) (L x : Int) : Prop where
  lt : x < L
  stuck : Steps.Stuck (ItemStep J L) x
  sum : SumFits J L x
  used : J x ≠ 0xFF#8

section Piece

variable {m J : Mem} {L o p : Int} {st : CrcStatics}

private theorem reads_of_agree {q : Piece} (hvalid : q.Valid) {m' : Mem}
    (hwritten : Written m m' L o q) (hfit : o + q.size ≤ L)
    (hcore : AgreeOn m' J o (o + (q.item o).core))
    (hrecords : q.kind = .node → AgreeOn m' J o (o + q.size))
    (hempty : EmptyFrom J L (o + q.size)) :
    Reads J L o [q] := by
  have hitem : IsItem J L (q.item o) := by
    refine hwritten.item.transport hcore hfit fun _ => ?_
    by_cases hend : o + q.size = L
    · exact .inl hend
    · right
      change J (o + q.size) ≠ _
      rw [hempty (o + q.size) (Int.le_refl _) (by omega)]
      decide
  refine ⟨hfit, .cons ⟨rfl, hitem, rfl⟩ (.nil _), hempty, ?_⟩
  simp only [itemsFrom, recordsFrom, List.append_nil]
  cases q with
  | node nodeType nodeLen sqnum payload =>
      exact hwritten.records_stay hvalid (hrecords rfl)
  | pad nodeLen padLen sqnum => rfl
  | raw n => rfl

private theorem unreadable_of_cut {M : Mem} {nodeLen : Int} {nodeType : Byte} {sqnum : BitVec 64}
    (hmade : MadeNode m M o nodeLen nodeType sqnum) (h24 : 24 ≤ nodeLen) (hroom : o + 24 ≤ L)
    (hp : o < p) (hp' : p < o + 24)
    (hsame : ∀ i, o ≤ i → i < p → J i = M i) (hcut : EmptyFrom J L p) : Unreadable J L o := by
  have hfirst : J o = 0x31#8 := by
    rw [hsame o (Int.le_refl o) hp]
    exact (hmade.isHeader h24 (Int.le_refl nodeLen)).first
  let erased : Mem := fun i => if o ≤ i ∧ i < L then 0xFF#8 else J i
  have hsplice : splice erased o (fun i => M (o + i)) (p - o).toNat = J := by
    funext i
    by_cases hi : o ≤ i ∧ i < p
    · rw [splice_inside hi.1 (by omega), hsame i hi.1 hi.2, show o + (i - o) = i by omega]
    · rw [splice_outside (by omega)]
      by_cases hblock : o ≤ i ∧ i < L
      · exact (if_pos hblock).trans (hcut i (by omega) hblock.2).symm
      · exact if_neg hblock
  have hheader : ¬ IsHeader J o (L - o) := by
    rw [← hsplice]
    exact not_header_of_cut hmade.moved (fun i hi hi' => if_pos ⟨hi, hi'⟩) hroom (by omega)
  refine ⟨by omega, stuck_of_not_header (fun n hr => ?_) hheader,
    fun hpad _ => absurd hpad.1 hheader, ?_⟩
  · have hce := hr.first
    rw [hfirst] at hce
    exact absurd hce (by decide)
  · rw [hfirst]
    decide

/-- What there is to be read after a cut. -/
def Left (J : Mem) (L o : Int) : Option (List Piece) → Prop
  | some ps => Reads J L o ps
  | none => ∃ its x, Tiles J L o its x ∧ Unreadable J L x

private theorem Unreadable.left (h : Unreadable J L o) : Left J L o none := ⟨[], o, .nil o, h⟩

private theorem left_node {nodeType nodeLen : Int} {sqnum : BitVec 64} {payload : Mem}
    (hst : st.Lazy) (hL : L < 2147483648) (h0 : 0 ≤ o) (hempty : EmptyFrom m L o)
    (hvalid : (Piece.node nodeType nodeLen sqnum payload).Valid)
    (hfit : o + (Piece.node nodeType nodeLen sqnum payload).size ≤ L) (hp : o < p)
    (hp' : p < o + (Piece.node nodeType nodeLen sqnum payload).size)
    (hsame : ∀ i, o ≤ i → i < p →
      J i = ((Piece.node nodeType nodeLen sqnum payload).write st m o).1 i)
    (hcut : EmptyFrom J L p) :
    Left J L o (((Piece.node nodeType nodeLen sqnum payload).torn (p - o)).map ([·])) := by
  have h24 := hvalid.2.2.2.1
  have hsize : (Piece.node nodeType nodeLen sqnum payload).size = (nodeLen + 7) / 8 * 8 := rfl
  rw [hsize] at hfit hp'
  have hmade := (utMakeNode_made hst m o nodeType sqnum h24 (by omega)).1
  by_cases hk : 24 ≤ p - o
  · let rest : Mem := fun i => if i < p - o - 24 then payload i else 0xFF#8
    have htorn : (Piece.node nodeType nodeLen sqnum payload).torn (p - o) =
        some (.node nodeType nodeLen sqnum rest) := if_pos hk
    have hvalid' : (Piece.node nodeType nodeLen sqnum rest).Valid := hvalid
    have hwritten := Piece.written (m := m) hst hL h0 hempty hvalid' (by rw [Piece.size]; omega)
    have hagree : ∀ i, o ≤ i → i < L →
        J i = ((Piece.node nodeType nodeLen sqnum rest).write st m o).1 i := by
      intro i hi hi'
      simp only [Piece.write] at hsame ⊢
      generalize (utMakeNode st m o nodeType nodeLen sqnum).1 = M at hmade hsame ⊢
      by_cases hbody : o + 24 ≤ i ∧ i < o + 24 + (nodeLen - 24)
      · rw [splice_inside hbody.1 hbody.2]
        by_cases hip : i < p
        · rw [hsame i hi hip, splice_inside hbody.1 hbody.2]
          exact (if_pos (by omega)).symm
        · rw [hcut i (by omega) hi']
          exact (if_neg (by omega)).symm
      · rw [splice_outside (by omega)]
        by_cases hip : i < p
        · rw [hsame i hi hip, splice_outside (by omega)]
        · rw [hcut i (by omega) hi', hmade.outside i (by omega), hempty i hi hi']
    rw [htorn]
    refine reads_of_agree hvalid' hwritten (by rw [Piece.size]; omega) ?_ (fun _ => ?_) ?_
    · refine fun i hi hi' => hagree i hi ?_
      simp only [Piece.item, Piece.kind, Item.core] at hi'
      omega
    · exact fun i hi hi' => hagree i hi (by rw [Piece.size] at hi'; omega)
    · exact fun i hi hi' => hcut i (by rw [Piece.size] at hi; omega) hi'
  · have htorn : (Piece.node nodeType nodeLen sqnum payload).torn (p - o) = none := if_neg hk
    rw [htorn]
    apply (unreadable_of_cut hmade h24 (by omega) hp (by omega) (fun i hi hi' => ?_) hcut).left
    rw [hsame i hi hi']
    exact splice_outside (by omega)

private theorem left_pad {nodeLen padLen : Int} {sqnum : BitVec 64} (hst : st.Lazy)
    (hL : L < 2147483648) (h0 : 0 ≤ o) (hempty : EmptyFrom m L o)
    (hvalid : (Piece.pad nodeLen padLen sqnum).Valid)
    (hfit : o + (Piece.pad nodeLen padLen sqnum).size ≤ L) (hp : o < p)
    (hp' : p < o + (Piece.pad nodeLen padLen sqnum).size)
    (hsame : ∀ i, o ≤ i → i < p → J i = ((Piece.pad nodeLen padLen sqnum).write st m o).1 i)
    (hcut : EmptyFrom J L p) :
    Left J L o (((Piece.pad nodeLen padLen sqnum).torn (p - o)).map ([·])) := by
  have hwritten := Piece.written (m := m) hst hL h0 hempty hvalid hfit
  obtain ⟨h28, hpad, h8⟩ := hvalid
  have hsize : (Piece.pad nodeLen padLen sqnum).size = nodeLen + padLen := rfl
  rw [hsize] at hfit hp'
  have hmade := (utMakePadNode_made hst m o sqnum h28 (by omega) hpad (by omega)).1
  by_cases hk : 28 ≤ p - o
  · have htorn : (Piece.pad nodeLen padLen sqnum).torn (p - o) =
        some (.pad nodeLen padLen sqnum) := if_pos hk
    rw [htorn]
    refine reads_of_agree ⟨h28, hpad, h8⟩ hwritten hfit (fun i hi hi' => hsame i hi ?_)
      (fun hkind => by cases hkind) fun i hi hi' => hcut i (by rw [hsize] at hi; omega) hi'
    simp only [Piece.item, Piece.kind, Item.core] at hi'
    omega
  · have htorn : (Piece.pad nodeLen padLen sqnum).torn (p - o) = none := if_neg hk
    rw [htorn]
    by_cases h24 : p - o < 24
    · exact (unreadable_of_cut hmade (by omega) (by omega) hp (by omega) hsame hcut).left
    · -- The header is there, and the last byte of the padding length is still empty.
      have hwhole : IsPad ((Piece.pad nodeLen padLen sqnum).write st m o).1 L o
          (nodeLen + padLen) := hwritten.item
      have hagree : AgreeOn ((Piece.pad nodeLen padLen sqnum).write st m o).1 J o (o + 24) :=
        fun i hi hi' => hsame i hi (by omega)
      have hheader : IsHeader J o (L - o) :=
        hwhole.toIsHeader.transport hagree hwhole.toIsHeader.hi
      have htype : chNodeType J o = NodeType.pad.code :=
        (chNodeType_congr (hagree.mono (Int.le_refl o) (by omega))).trans hwhole.type
      have hneg : (padPadLen J o).toInt < 0 := by
        have hlast := hcut (o + 24 + 3) (by omega) (by omega)
        have hnat := le32_toNat J (o + 24)
        rw [hlast, show (0xFF#8).toNat = 255 from rfl] at hnat
        rw [padPadLen, BitVec.toInt_eq_toNat_cond]
        omega
      refine Unreadable.left ⟨by omega, ?_, fun _ hlen => absurd hlen (by omega), ?_⟩
      · rintro ⟨kind, x, n⟩ y ⟨rfl, hitem, -⟩
        cases kind with
        | raw => exact IsRaw.not_header (show IsRaw J L x n from hitem) hheader
        | pad =>
            have hlen := IsPad.padLen (show IsPad J L x n from hitem)
            simp only at hneg
            omega
        | node => exact IsNode.type (show IsNode J L x n from hitem) htype
      · rw [hheader.first]
        decide

private theorem left_raw {n : Int} (hL : L < 2147483648) (h0 : 0 ≤ o)
    (hvalid : (Piece.raw n).Valid) (hfit : o + (Piece.raw n).size ≤ L) (hp : o < p)
    (hp' : p < o + (Piece.raw n).size)
    (hsame : ∀ i, o ≤ i → i < p → J i = ((Piece.raw n).write st m o).1 i)
    (hcut : EmptyFrom J L p) : Left J L o (((Piece.raw n).torn (p - o)).map ([·])) := by
  have hsize : (Piece.raw n).size = n := rfl
  rw [hsize] at hfit hp'
  simp only [Piece.Valid] at hvalid
  have hpad : ∀ i, o ≤ i → i < p → J i = ubifsPaddingByte := by
    intro i hi hi'
    rw [hsame i hi hi']
    exact memset_inside (by omega) (by omega) hi (by omega)
  by_cases hk : (p - o) % 8 = 0
  · have htorn : (Piece.raw n).torn (p - o) = some (.raw (p - o)) := if_pos hk
    have hitem : IsRaw J L o (p - o) := by
      refine ⟨by omega, by omega, fun i hi hi' => hpad i hi (by omega), .inr ?_⟩
      rw [show o + (p - o) = p by omega, hcut p (Int.le_refl p) (by omega)]
      decide
    have hend : endFrom o [Piece.raw (p - o)] = p := by
      simp only [endFrom, Piece.size]
      omega
    rw [htorn]
    change Reads J L o [.raw (p - o)]
    refine ⟨by omega, .cons ⟨rfl, hitem, rfl⟩ (.nil _), ?_, rfl⟩
    rw [hend]
    exact hcut
  · have htorn : (Piece.raw n).torn (p - o) = none := if_neg hk
    have hfirst := hpad o (Int.le_refl o) hp
    rw [htorn]
    refine Unreadable.left ⟨by omega, ?_, fun hheader _ => ?_, ?_⟩
    · refine stuck_of_not_header (fun k hr => ?_) fun hheader => ?_
      -- The run has the length that was written.
      · have hle : k ≤ p - o := by
          by_contra hlong
          have hce := hr.bytes p (by omega) (by omega)
          rw [hcut p (Int.le_refl p) (by omega)] at hce
          exact absurd hce (by decide)
        have hlen := hr.size
        rcases hr.maximal with hlast | hlast
        · omega
        · exact hlast (hpad (o + k) (by omega) (by omega))
      · have hmagic := hheader.first
        rw [hfirst] at hmagic
        exact absurd hmagic (by decide)
    · have hmagic := hheader.1.first
      rw [hfirst] at hmagic
      exact absurd hmagic (by decide)
    · rw [hfirst]
      decide

end Piece

section Pieces

variable {m J : Mem} {L o p : Int} {st : CrcStatics}

private theorem Left.cons {q : Piece} {r : Option (List Piece)} (hitem : IsItem J L (q.item o))
    (hrecords : recorded J [q.item o] = q.records o) (h : Left J L (o + q.size) r) :
    Left J L o (r.map (q :: ·)) := by
  have hstep : ItemStep J L o (q.item o) (o + q.size) := ⟨rfl, hitem, rfl⟩
  cases r with
  | none =>
      obtain ⟨its, x, htiles, hx⟩ := h
      exact ⟨q.item o :: its, x, .cons hstep htiles, hx⟩
  | some ps =>
      have happend := recorded_append J [q.item o] (itemsFrom (o + q.size) ps)
      rw [hrecords, h.records] at happend
      exact ⟨h.le, .cons hstep h.tiles, h.empty, happend⟩

/-- **What a cut leaves**: with the bytes before `p` of the writing and empty space behind them,
the complete pieces are read, and of the piece that was cut what is left of it. -/
theorem left_of_cut {ps : List Piece} (hst : st.Lazy) (hL : L < 2147483648) (h0 : 0 ≤ o)
    (hempty : EmptyFrom m L o) (hvalid : ∀ q ∈ ps, q.Valid)
    (hapart : ps.IsChain fun p q => p.kind = .raw → q.kind ≠ .raw) (hend : endFrom o ps ≤ L)
    (hsame : ∀ i, o ≤ i → i < p → J i = buildFrom st m o ps i)
    (hcut : ∀ i, o ≤ i → p ≤ i → i < L → J i = 0xFF#8) : Left J L o (tornFrom p o ps) := by
  induction ps generalizing st m o with
  | nil =>
      refine ⟨hend, .nil o, fun i hi hi' => ?_, rfl⟩
      simp only [endFrom] at hi
      by_cases hp : i < p
      · exact (hsame i hi hp).trans (hempty i hi hi')
      · exact hcut i hi (by omega) hi'
  | cons q qs ih =>
      have hq := hvalid q (by simp)
      have hqs : ∀ r ∈ qs, r.Valid := fun r hr => hvalid r (List.mem_cons_of_mem q hr)
      have hpos := hq.size_pos
      have hle := le_endFrom (o + q.size) hqs
      simp only [endFrom] at hend
      simp only [buildFrom] at hsame
      have hwritten := Piece.written hst hL h0 hempty hq (by omega)
      have hlazy := Piece.write_lazy hst m o q
      have hrest := built hlazy hL (q.write st m o).1 (by omega) hwritten.empty hqs
        hapart.of_cons hend
      rw [tornFrom]
      by_cases hbefore : p ≤ o
      · rw [if_pos hbefore]
        refine ⟨?_, .nil o, fun i hi hi' => hcut i hi ?_ hi', rfl⟩
        · simp only [endFrom]
          omega
        · simp only [endFrom] at hi
          omega
      rw [if_neg hbefore]
      by_cases hwhole : o + q.size ≤ p
      · rw [if_pos hwhole]
        have hagree : AgreeOn (q.write st m o).1 J o (o + q.size) := by
          intro i hi hi'
          rw [hsame i hi (by omega)]
          exact hrest.before i hi'
        have hcore := hq.core_le o
        have hitem : IsItem J L (q.item o) := by
          refine hwritten.item.transport (hagree.mono (Int.le_refl o) ?_) ?_ fun hraw => ?_
          · simp only [Piece.item] at hcore ⊢
            omega
          · simp only [Piece.item]
            omega
          · simp only [Piece.item]
            by_cases hp : o + q.size < p
            · rw [hsame _ (by omega) hp]
              exact first_not_padding (head_of_apart hapart hraw) hrest.tiles hrest.empty hend
            · by_cases hL' : o + q.size = L
              · exact .inl hL'
              · right
                rw [hcut _ (by omega) (by omega) (by omega)]
                decide
        apply Left.cons hitem (hwritten.records_stay hq hagree)
        exact ih hlazy (by omega) hwritten.empty hqs hapart.of_cons hend
          (fun i hi hi' => hsame i (by omega) hi') fun i hi hi' => hcut i (by omega) hi'
      · rw [if_neg hwhole]
        have hpiece : ∀ i, o ≤ i → i < p → J i = (q.write st m o).1 i := by
          intro i hi hi'
          rw [hsame i hi hi']
          exact hrest.before i (by omega)
        have hrest' : EmptyFrom J L p := fun i hi hi' => hcut i (by omega) hi hi'
        cases q with
        | node nodeType nodeLen sqnum payload =>
            exact left_node hst hL h0 hempty hq (by omega) (by omega) (by omega) hpiece hrest'
        | pad nodeLen padLen sqnum =>
            exact left_pad hst hL h0 hempty hq (by omega) (by omega) (by omega) hpiece hrest'
        | raw n => exact left_raw hL h0 hq (by omega) (by omega) (by omega) hpiece hrest'

end Pieces

end UbifsScan
