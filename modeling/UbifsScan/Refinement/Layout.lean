import UbifsScan.Refinement.Builder

/-!
# Building a block

Nodes, pad nodes and raw padding, written one after another into empty space the way the tests
build an image, read as the items that were written.
-/

namespace UbifsScan

open Mem

/-- What a block is built from. The bytes of a node behind its header are overwritten with
`payload`. -/
inductive Piece
  | node (nodeType nodeLen : Int) (sqnum : BitVec 64) (payload : Mem)
  | pad (nodeLen padLen : Int) (sqnum : BitVec 64)
  | raw (size : Int)

namespace Piece

def kind : Piece → Kind
  | .node .. => .node
  | .pad .. => .pad
  | .raw _ => .raw

/-- How far the writer advances. -/
def size : Piece → Int
  | .node _ nodeLen _ _ => (nodeLen + 7) / 8 * 8
  | .pad nodeLen padLen _ => nodeLen + padLen
  | .raw size => size

def Valid : Piece → Prop
  | .node nodeType nodeLen _ _ =>
      0 ≤ nodeType ∧ nodeType < 256 ∧ nodeType ≠ NodeType.pad.code.toNat ∧ 24 ≤ nodeLen ∧
        (isKeyed (BitVec.ofInt 8 nodeType) = true → 40 ≤ nodeLen)
  | .pad nodeLen padLen _ => 28 ≤ nodeLen ∧ 0 ≤ padLen ∧ (nodeLen + padLen) % 8 = 0
  | .raw size => size = 8 ∨ size = 16 ∨ size = 24

instance (p : Piece) : Decidable p.Valid :=
  match p with
  | .node .. => inferInstanceAs (Decidable (_ ∧ _))
  | .pad .. => inferInstanceAs (Decidable (_ ∧ _))
  | .raw _ => inferInstanceAs (Decidable (_ ∨ _))

def write (st : CrcStatics) (m : Mem) (o : Int) : Piece → Mem × CrcStatics
  | .node nodeType nodeLen sqnum payload =>
      let (m, st) := utMakeNode st m o nodeType nodeLen sqnum
      (splice m (o + 24) payload (nodeLen - 24), st)
  | .pad nodeLen padLen sqnum => utMakePadNode st m o nodeLen padLen sqnum
  | .raw size => (memset m o ubifsPaddingByte size, st)

def item (o : Int) (p : Piece) : Item := ⟨p.kind, o, p.size⟩

/-- What a scan is to record of the piece at `o`. -/
def records (o : Int) : Piece → List ScanNode
  | .node nodeType nodeLen sqnum payload =>
      [{ key := if isKeyed (BitVec.ofInt 8 nodeType) then bytesAt payload 0 ubifsMaxKeyLen
          else List.replicate ubifsMaxKeyLen 0
         sqnum := sqnum
         type := nodeType
         offs := o
         len := nodeLen
         node := o }]
  | .pad .. => []
  | .raw _ => []

theorem Valid.size_pos {p : Piece} (h : p.Valid) : 8 ≤ p.size ∧ p.size % 8 = 0 := by
  cases p with
  | node nodeType nodeLen sqnum payload =>
      have h24 := h.2.2.2.1
      simp only [size]
      omega
  | pad nodeLen padLen sqnum =>
      obtain ⟨h28, hpad, h8⟩ := h
      simp only [size]
      omega
  | raw n =>
      simp only [Valid] at h
      simp only [size]
      omega

theorem Valid.core_le {p : Piece} (h : p.Valid) (o : Int) : (p.item o).core ≤ p.size := by
  cases p with
  | node nodeType nodeLen sqnum payload =>
      have h24 := h.2.2.2.1
      simp only [item, kind, Item.core, size]
      omega
  | pad nodeLen padLen sqnum =>
      obtain ⟨h28, hpad, -⟩ := h
      simp only [item, kind, Item.core, size]
      omega
  | raw n => exact Int.le_refl _

end Piece

/-- The piece `p` stands at `o`, behind what was there, with empty space behind it. -/
structure Written (m m' : Mem) (L o : Int) (p : Piece) : Prop where
  before : ∀ i, i < o → m' i = m i
  item : IsItem m' L (p.item o)
  empty : EmptyFrom m' L (o + p.size)
  records : recorded m' [p.item o] = p.records o

section Write

variable {m : Mem} {L o : Int} {st : CrcStatics}

private theorem empty_behind {m' : Mem} {e e' : Int} (hempty : EmptyFrom m L e) (he : e ≤ e')
    (hsame : ∀ i, e' ≤ i → m' i = m i) : EmptyFrom m' L e' := by
  intro i hi hi'
  rw [hsame i hi]
  exact hempty i (by omega) hi'

private theorem written_node (hst : st.Lazy) {nodeType nodeLen : Int} {sqnum : BitVec 64}
    {payload : Mem} (hL : L < 2147483648) (h0 : 0 ≤ o) (hempty : EmptyFrom m L o)
    (hvalid : (Piece.node nodeType nodeLen sqnum payload).Valid)
    (hfit : o + (Piece.node nodeType nodeLen sqnum payload).size ≤ L) :
    Written m ((Piece.node nodeType nodeLen sqnum payload).write st m o).1 L o
      (.node nodeType nodeLen sqnum payload) := by
  obtain ⟨hlo, hhi, hpad, h24, hkeyed⟩ := hvalid
  simp only [Piece.size] at hfit
  have hmade := (utMakeNode_made hst m o nodeType sqnum h24 (by omega)).1
  simp only [Piece.write]
  generalize (utMakeNode st m o nodeType nodeLen sqnum).1 = m₁ at hmade ⊢
  have hbody : ∀ i, i < o + 24 ∨ o + nodeLen ≤ i →
      splice m₁ (o + 24) payload (nodeLen - 24) i = m₁ i := by
    intro i hi
    exact splice_outside (by omega)
  have hmade' := hmade.congr (fun i _ hi => hbody i (.inl hi)) fun i hi => hbody i (by omega)
  have htype : ((BitVec.ofInt 8 nodeType).toNat : Int) = nodeType := by
    rw [BitVec.toNat_ofInt]
    omega
  have hitem : IsNode (splice m₁ (o + 24) payload (nodeLen - 24)) L o
      ((nodeLen + 7) / 8 * 8) := by
    refine ⟨hmade'.isHeader h24 (by omega), ?_, ?_⟩
    · rw [hmade'.type]
      intro heq
      rw [heq] at htype
      exact hpad htype.symm
    · rw [hmade'.len]
  refine ⟨fun i hi => hmade'.outside i (.inl hi), hitem, ?_, ?_⟩
  · exact empty_behind hempty (by simp only [Piece.size]; omega) fun i hi =>
      hmade'.outside i (.inr (by simp only [Piece.size] at hi; omega))
  · have hrecord : recorded (splice m₁ (o + 24) payload (nodeLen - 24))
        [(Piece.node nodeType nodeLen sqnum payload).item o] =
          [scanNodeAt (splice m₁ (o + 24) payload (nodeLen - 24)) o] := rfl
    rw [hrecord, scanNodeAt, hmade'.type, hmade'.sqnum, hmade'.len, htype, Piece.records]
    by_cases hkey : isKeyed (BitVec.ofInt 8 nodeType) = true
    · have h40 := hkeyed hkey
      have hkeyBytes : inoKey (splice m₁ (o + 24) payload (nodeLen - 24)) o =
          bytesAt payload 0 ubifsMaxKeyLen := by
        apply List.ext_getElem (by simp [inoKey])
        intro k hk hk'
        simp only [bytesAt_length, ubifsMaxKeyLen] at hk'
        simp only [inoKey, bytesAt_getElem]
        rw [splice_inside (by omega) (by omega)]
        congr 1
        omega
      rw [if_pos hkey, if_pos hkey, hkeyBytes]
    · rw [if_neg hkey, if_neg hkey]

private theorem written_pad (hst : st.Lazy) {nodeLen padLen : Int} {sqnum : BitVec 64}
    (hL : L < 2147483648) (h0 : 0 ≤ o) (hempty : EmptyFrom m L o)
    (hvalid : (Piece.pad nodeLen padLen sqnum).Valid)
    (hfit : o + (Piece.pad nodeLen padLen sqnum).size ≤ L) :
    Written m ((Piece.pad nodeLen padLen sqnum).write st m o).1 L o
      (.pad nodeLen padLen sqnum) := by
  obtain ⟨h28, hpad, h8⟩ := hvalid
  simp only [Piece.size] at hfit
  obtain ⟨hmade, hlen⟩ :=
    utMakePadNode_made hst m o sqnum h28 (by omega) hpad (by omega)
  simp only [Piece.write]
  have hitem : IsPad (utMakePadNode st m o nodeLen padLen sqnum).1 L o (nodeLen + padLen) := by
    refine ⟨hmade.isHeader (by omega) (by omega), hmade.type, ?_, ?_, hfit, h8⟩
    · rw [hlen]
      exact hpad
    · rw [hlen, hmade.len]
  refine ⟨fun i hi => hmade.outside i (.inl hi), hitem, ?_, rfl⟩
  exact empty_behind hempty (by simp only [Piece.size]; omega) fun i hi =>
    hmade.outside i (.inr (by simp only [Piece.size] at hi; omega))

private theorem written_raw {n : Int} (hL : L < 2147483648) (h0 : 0 ≤ o) (hempty : EmptyFrom m L o)
    (hvalid : (Piece.raw n).Valid) (hfit : o + (Piece.raw n).size ≤ L) :
    Written m ((Piece.raw n).write st m o).1 L o (.raw n) := by
  simp only [Piece.Valid] at hvalid
  simp only [Piece.size] at hfit
  simp only [Piece.write]
  have hout : ∀ i, i < o ∨ o + n ≤ i → memset m o ubifsPaddingByte n i = m i := fun i hi =>
    memset_outside (by omega) (by omega) hi
  have hitem : IsRaw (memset m o ubifsPaddingByte n) L o n := by
    refine ⟨hvalid, hfit, fun i hi hi' => memset_inside (by omega) (by omega) hi hi', ?_⟩
    by_cases hend : o + n = L
    · exact .inl hend
    · right
      rw [hout (o + n) (by omega), hempty (o + n) (by omega) (by omega)]
      decide
  refine ⟨fun i hi => hout i (.inl hi), hitem, ?_, rfl⟩
  exact empty_behind hempty (by simp only [Piece.size]; omega) fun i hi => hout i (.inr hi)

theorem Piece.written (hst : st.Lazy) (hL : L < 2147483648) (h0 : 0 ≤ o)
    (hempty : EmptyFrom m L o) {p : Piece} (hvalid : p.Valid) (hfit : o + p.size ≤ L) :
    Written m (p.write st m o).1 L o p := by
  cases p with
  | node nodeType nodeLen sqnum payload => exact written_node hst hL h0 hempty hvalid hfit
  | pad nodeLen padLen sqnum => exact written_pad hst hL h0 hempty hvalid hfit
  | raw n => exact written_raw hL h0 hempty hvalid hfit

theorem Piece.write_lazy (hst : st.Lazy) (m : Mem) (o : Int) (p : Piece) :
    (p.write st m o).2.Lazy := by
  cases p with
  | node nodeType nodeLen sqnum payload => exact utMakeNode_lazy hst m o nodeType nodeLen sqnum
  | pad nodeLen padLen sqnum => exact utMakePadNode_lazy hst m o nodeLen padLen sqnum
  | raw n => exact hst

end Write

/-- Pieces to be written one after another, with no two raw runs in a row. -/
structure Layout where
  pieces : List Piece
  valid : ∀ p ∈ pieces, p.Valid
  apart : pieces.IsChain fun p q => p.kind = .raw → q.kind ≠ .raw

/-- Write the pieces from `o` on. -/
def buildFrom (st : CrcStatics) (m : Mem) (o : Int) : List Piece → Mem
  | [] => m
  | p :: ps =>
      let (m, st) := p.write st m o
      buildFrom st m (o + p.size) ps

/-- Where the writer stands after the pieces. -/
def endFrom (o : Int) : List Piece → Int
  | [] => o
  | p :: ps => endFrom (o + p.size) ps

def itemsFrom (o : Int) : List Piece → List Item
  | [] => []
  | p :: ps => p.item o :: itemsFrom (o + p.size) ps

def recordsFrom (o : Int) : List Piece → List ScanNode
  | [] => []
  | p :: ps => p.records o ++ recordsFrom (o + p.size) ps

section Build

variable {L : Int}

theorem le_endFrom {ps : List Piece} (o : Int) (hvalid : ∀ p ∈ ps, p.Valid) :
    o ≤ endFrom o ps := by
  induction ps generalizing o with
  | nil => exact Int.le_refl o
  | cons p ps ih =>
      have hpos := (hvalid p (by simp)).size_pos
      have hrest := ih (o + p.size) fun q hq => hvalid q (List.mem_cons_of_mem p hq)
      simp only [endFrom]
      omega

/-- The pieces `ps` stand from `o` on, behind what was there, with empty space behind them. -/
structure Built (m m' : Mem) (L o : Int) (ps : List Piece) : Prop where
  before : ∀ i, i < o → m' i = m i
  tiles : Tiles m' L o (itemsFrom o ps) (endFrom o ps)
  empty : EmptyFrom m' L (endFrom o ps)
  records : recorded m' (itemsFrom o ps) = recordsFrom o ps

theorem Written.records_stay {m m' m'' : Mem} {o : Int} {p : Piece} (h : Written m m' L o p)
    (hvalid : p.Valid) (hagree : AgreeOn m' m'' o (o + p.size)) :
    recorded m'' [p.item o] = p.records o := by
  rw [← h.records]
  refine recorded_congr fun it hit hkind => ?_
  rw [List.mem_singleton] at hit
  subst hit
  cases p with
  | pad nodeLen padLen sqnum => cases hkind
  | raw n => cases hkind
  | node nodeType nodeLen sqnum payload =>
      obtain ⟨-, -, -, h24, hkeyed⟩ := hvalid
      simp only [Piece.size] at hagree
      apply scanNodeAt_congr
      · exact hagree.mono (Int.le_refl o) (by simp only [Piece.item]; omega)
      · intro hkey
        have hrecord := h.records
        have hscan : [scanNodeAt m' o] = (Piece.node nodeType nodeLen sqnum payload).records o :=
          hrecord
        have htype := congrArg ScanNode.type (List.singleton_inj.mp hscan)
        have hbyte : BitVec.ofInt 8 nodeType = chNodeType m' o := by
          simp only [scanNodeAt] at htype
          rw [← htype, BitVec.ofInt_natCast, BitVec.ofNat_toNat, BitVec.setWidth_eq]
        have h40 := hkeyed (hbyte ▸ hkey)
        exact hagree.mono (Int.le_refl o) (by simp only [Piece.item]; omega)

/-- No padding byte stands where the pieces begin, unless a raw run is the first of them. -/
theorem first_not_padding {m : Mem} {o : Int} {ps : List Piece}
    (hhead : ∀ q ∈ ps.head?, q.kind ≠ .raw) (htiles : Tiles m L o (itemsFrom o ps) (endFrom o ps))
    (hempty : EmptyFrom m L (endFrom o ps)) (hend : endFrom o ps ≤ L) :
    o = L ∨ m o ≠ ubifsPaddingByte := by
  cases ps with
  | nil =>
      simp only [endFrom] at hempty hend
      by_cases hL : o = L
      · exact .inl hL
      · right
        rw [hempty o (Int.le_refl o) (by omega)]
        decide
  | cons q qs =>
      right
      have hkind : q.kind ≠ .raw := hhead q rfl
      cases htiles with
      | cons hstep _ =>
          have hitem := hstep.2.1
          have hfirst : m o = 0x31#8 := by
            cases q with
            | node nodeType nodeLen sqnum payload => exact (IsNode.toIsHeader hitem).first
            | pad nodeLen padLen sqnum => exact (IsPad.toIsHeader hitem).first
            | raw n => exact absurd rfl hkind
          rw [hfirst]
          decide

theorem head_of_apart {p : Piece} {ps : List Piece}
    (hapart : (p :: ps).IsChain fun p q => p.kind = .raw → q.kind ≠ .raw) (hraw : p.kind = .raw) :
    ∀ q ∈ ps.head?, q.kind ≠ .raw := by
  cases ps with
  | nil => simp
  | cons q qs => simpa using (List.isChain_cons_cons.mp hapart).1 hraw

theorem built {st : CrcStatics} (hst : st.Lazy) (hL : L < 2147483648) {ps : List Piece} (m : Mem)
    {o : Int} (h0 : 0 ≤ o) (hempty : EmptyFrom m L o) (hvalid : ∀ p ∈ ps, p.Valid)
    (hapart : ps.IsChain fun p q => p.kind = .raw → q.kind ≠ .raw) (hend : endFrom o ps ≤ L) :
    Built m (buildFrom st m o ps) L o ps := by
  induction ps generalizing st m o with
  | nil => exact ⟨fun _ _ => rfl, .nil o, hempty, rfl⟩
  | cons p ps ih =>
      have hp := hvalid p (by simp)
      have hps : ∀ q ∈ ps, q.Valid := fun q hq => hvalid q (List.mem_cons_of_mem p hq)
      have hpos := hp.size_pos
      have hle := le_endFrom (o + p.size) hps
      simp only [endFrom] at hend
      have hwritten := Piece.written hst hL h0 hempty hp (by omega)
      have hrest := ih (Piece.write_lazy hst m o p) (p.write st m o).1 (by omega) hwritten.empty
        hps hapart.of_cons hend
      simp only [buildFrom]
      have hagree : AgreeOn (p.write st m o).1
          (buildFrom (p.write st m o).2 (p.write st m o).1 (o + p.size) ps) o (o + p.size) :=
        fun i _ hi => hrest.before i hi
      refine ⟨fun i hi => ?_, ?_, hrest.empty, ?_⟩
      · rw [hrest.before i (by omega)]
        exact hwritten.before i hi
      · refine .cons ⟨rfl, ?_, rfl⟩ hrest.tiles
        refine hwritten.item.transport (hagree.mono (Int.le_refl o) ?_) ?_ fun hraw => ?_
        · have hcore := hp.core_le o
          simp only [Piece.item] at hcore ⊢
          omega
        · simp only [Piece.item]
          omega
        · exact first_not_padding (head_of_apart hapart hraw) hrest.tiles hrest.empty hend
      · have hone := hwritten.records_stay hp hagree
        have happend := recorded_append
          (buildFrom (p.write st m o).2 (p.write st m o).1 (o + p.size) ps) [p.item o]
          (itemsFrom (o + p.size) ps)
        rw [hone, hrest.records] at happend
        exact happend

end Build

end UbifsScan
