import UbifsScan.Framework.Steps
import UbifsScan.Model.Scan
import Mathlib.Data.Int.Range

/-!
# The LEB format

What a scannable eraseblock is, stated over its bytes without reference to the scanner: a sequence
of items (raw padding runs, pad nodes and other nodes), each starting where the one before ends,
and then empty space to the end. Which item starts at an offset, if any, is determined by the
bytes, so a block has at most one such reading.
-/

namespace UbifsScan

open Mem

/-- A block and a start offset that scanning is meant for. -/
structure Geometry (c : UbifsInfo) (offs : Int) : Prop where
  leb : c.lebSize % 8 = 0
  int : c.lebSize < 2147483648
  start : offs % 8 = 0
  nonneg : 0 ≤ offs
  le : offs ≤ c.lebSize
  minIo : ∃ k : Nat, k < 31 ∧ c.minIoSize = 2 ^ k

/-- The common header at `o` passes the header check when `len` bytes are left. -/
structure HeaderOk (m : Mem) (o len : Int) : Prop where
  lo : ubifsChSz ≤ (chLen m o).toInt
  hi : (chLen m o).toInt ≤ len
  crc : utCrc32Value (chCovered m o) = chCrc m o

/-- A common header at `o` with the magic, and `len` bytes left. -/
structure IsHeader (m : Mem) (o len : Int) : Prop extends HeaderOk m o len where
  magic : chMagic m o = ubifsNodeMagic

/-- A header at `o` that is a pad node's. -/
def IsPadHeader (m : Mem) (o len : Int) : Prop :=
  IsHeader m o len ∧ chNodeType m o = NodeType.pad.code

/-- A header at `o` that is followed by a key. -/
def IsKeyedHeader (m : Mem) (o len : Int) : Prop :=
  IsHeader m o len ∧ isKeyed (chNodeType m o) = true

/-- A maximal run of `n` padding bytes at `o`. -/
structure IsRaw (m : Mem) (L o n : Int) : Prop where
  size : n = 8 ∨ n = 16 ∨ n = 24
  fits : o + n ≤ L
  bytes : ∀ i, o ≤ i → i < o + n → m i = ubifsPaddingByte
  maximal : o + n = L ∨ m (o + n) ≠ ubifsPaddingByte

/-- A pad node at `o` that, with its padding, takes `n` bytes. -/
structure IsPad (m : Mem) (L o n : Int) : Prop extends IsHeader m o (L - o) where
  type : chNodeType m o = NodeType.pad.code
  padLen : 0 ≤ (padPadLen m o).toInt
  size : n = (chLen m o).toInt + (padPadLen m o).toInt
  fits : o + n ≤ L
  aligned : n % 8 = 0

/-- A node at `o` that is not a pad node and takes `n` bytes, its length rounded up to 8. -/
structure IsNode (m : Mem) (L o n : Int) : Prop extends IsHeader m o (L - o) where
  type : chNodeType m o ≠ NodeType.pad.code
  size : n = ((chLen m o).toInt + 7) / 8 * 8

inductive Kind
  | raw | pad | node
  deriving DecidableEq, Repr

/-- A stretch of the block and what it is. -/
structure Item where
  kind : Kind
  offs : Int
  size : Int
  deriving DecidableEq, Repr

def IsItem (m : Mem) (L : Int) (it : Item) : Prop :=
  match it.kind with
  | .raw => IsRaw m L it.offs it.size
  | .pad => IsPad m L it.offs it.size
  | .node => IsNode m L it.offs it.size

theorem IsItem.isRaw {m : Mem} {L : Int} {it : Item} (h : IsItem m L it)
    (hkind : it.kind = .raw) : IsRaw m L it.offs it.size := by
  rwa [IsItem, hkind] at h

theorem IsItem.isPad {m : Mem} {L : Int} {it : Item} (h : IsItem m L it)
    (hkind : it.kind = .pad) : IsPad m L it.offs it.size := by
  rwa [IsItem, hkind] at h

theorem IsItem.isNode {m : Mem} {L : Int} {it : Item} (h : IsItem m L it)
    (hkind : it.kind = .node) : IsNode m L it.offs it.size := by
  rwa [IsItem, hkind] at h

/-- The item `it` starts at `o` and ends at `o'`. -/
def ItemStep (m : Mem) (L o : Int) (it : Item) (o' : Int) : Prop :=
  it.offs = o ∧ IsItem m L it ∧ o' = o + it.size

/-- The items `its` tile the bytes from `a` to `e`. -/
abbrev Tiles (m : Mem) (L : Int) : Int → List Item → Int → Prop := Steps (ItemStep m L)

/-- The bytes from `e` on are empty space. -/
def EmptyFrom (m : Mem) (L e : Int) : Prop := ∀ i, e ≤ i → i < L → m i = 0xFF#8

/-- The block reads from `a` as the items `its`, and from `e` on as empty space. -/
structure Decomposes (m : Mem) (c : UbifsInfo) (a : Int) (its : List Item) (e : Int) : Prop where
  tiles : Tiles m c.lebSize a its e
  le : e ≤ c.lebSize
  aligned : c.minIoSize ∣ e
  empty : EmptyFrom m c.lebSize e

def scanNodeAt (m : Mem) (o : Int) : ScanNode where
  key := if isKeyed (chNodeType m o) then inoKey m o else List.replicate ubifsMaxKeyLen 0
  sqnum := chSqnum m o
  type := (chNodeType m o).toNat
  offs := o
  len := (chLen m o).toInt
  node := o

def recorded (m : Mem) (its : List Item) : List ScanNode :=
  (its.filter (·.kind = .node)).map fun it => scanNodeAt m it.offs

@[simp] theorem recorded_nil (m : Mem) : recorded m [] = [] := rfl

@[simp] theorem recorded_append (m : Mem) (its its' : List Item) :
    recorded m (its ++ its') = recorded m its ++ recorded m its' := by
  simp [recorded]

/-- The `int` sum of the pad-node check does not overflow at `o`. -/
def SumFits (m : Mem) (L o : Int) : Prop :=
  IsPadHeader m o (L - o) → 0 ≤ (padPadLen m o).toInt →
    o + (chLen m o).toInt + (padPadLen m o).toInt < 2147483648

/-- The sum does not overflow where it would be an aligned skip length; `buf` is the place of the
header in the buffer and `offs` its offset in the block. -/
def SkipExact (m : Mem) (buf len offs : Int) : Prop :=
  IsPadHeader m buf len → 0 ≤ (padPadLen m buf).toInt →
    ((chLen m buf).toInt + (padPadLen m buf).toInt) % 8 = 0 →
      offs + (chLen m buf).toInt + (padPadLen m buf).toInt < 2147483648

abbrev SkipFits (m : Mem) (L o : Int) : Prop := SkipExact m o (L - o) o

theorem SumFits.skipFits {m : Mem} {L o : Int} (h : SumFits m L o) : SkipFits m L o :=
  fun hpad hlen _ => h hpad hlen

/-- The sum does not overflow at any pad node met from `a` on. -/
def SumsFit (m : Mem) (L a : Int) : Prop := ∀ its o, Tiles m L a its o → SumFits m L o

instance (m : Mem) (o len : Int) : Decidable (HeaderOk m o len) :=
  decidable_of_iff (ubifsChSz ≤ (chLen m o).toInt ∧ (chLen m o).toInt ≤ len ∧
      utCrc32Value (chCovered m o) = chCrc m o)
    ⟨fun ⟨lo, hi, crc⟩ => ⟨lo, hi, crc⟩, fun ⟨lo, hi, crc⟩ => ⟨lo, hi, crc⟩⟩

instance (m : Mem) (o len : Int) : Decidable (IsHeader m o len) :=
  decidable_of_iff (HeaderOk m o len ∧ chMagic m o = ubifsNodeMagic)
    ⟨fun ⟨ok, magic⟩ => ⟨ok, magic⟩, fun ⟨ok, magic⟩ => ⟨ok, magic⟩⟩

instance (m : Mem) (o len : Int) : Decidable (IsPadHeader m o len) :=
  inferInstanceAs (Decidable (_ ∧ _))

instance (m : Mem) (o len : Int) : Decidable (IsKeyedHeader m o len) :=
  inferInstanceAs (Decidable (_ ∧ _))

instance (m : Mem) (L o n : Int) : Decidable (IsRaw m L o n) :=
  decidable_of_iff ((n = 8 ∨ n = 16 ∨ n = 24) ∧ o + n ≤ L ∧
      (∀ i, o ≤ i → i < o + n → m i = ubifsPaddingByte) ∧
      (o + n = L ∨ m (o + n) ≠ ubifsPaddingByte))
    ⟨fun ⟨size, fits, bytes, max⟩ => ⟨size, fits, bytes, max⟩,
      fun ⟨size, fits, bytes, max⟩ => ⟨size, fits, bytes, max⟩⟩

instance (m : Mem) (L o n : Int) : Decidable (IsPad m L o n) :=
  decidable_of_iff (IsHeader m o (L - o) ∧ chNodeType m o = NodeType.pad.code ∧
      0 ≤ (padPadLen m o).toInt ∧ n = (chLen m o).toInt + (padPadLen m o).toInt ∧ o + n ≤ L ∧
      n % 8 = 0)
    ⟨fun ⟨header, type, padLen, size, fits, h8⟩ => ⟨header, type, padLen, size, fits, h8⟩,
      fun ⟨header, type, padLen, size, fits, h8⟩ => ⟨header, type, padLen, size, fits, h8⟩⟩

instance (m : Mem) (L o n : Int) : Decidable (IsNode m L o n) :=
  decidable_of_iff (IsHeader m o (L - o) ∧ chNodeType m o ≠ NodeType.pad.code ∧
      n = ((chLen m o).toInt + 7) / 8 * 8)
    ⟨fun ⟨header, type, size⟩ => ⟨header, type, size⟩,
      fun ⟨header, type, size⟩ => ⟨header, type, size⟩⟩

instance (m : Mem) (L : Int) (it : Item) : Decidable (IsItem m L it) :=
  match it with
  | ⟨.raw, o, n⟩ => inferInstanceAs (Decidable (IsRaw m L o n))
  | ⟨.pad, o, n⟩ => inferInstanceAs (Decidable (IsPad m L o n))
  | ⟨.node, o, n⟩ => inferInstanceAs (Decidable (IsNode m L o n))

instance (m : Mem) (L e : Int) : Decidable (EmptyFrom m L e) :=
  inferInstanceAs (Decidable (∀ i, e ≤ i → i < L → m i = 0xFF#8))

def tilesFrom (m : Mem) (L : Int) (a : Int) : List Item → Int → Bool
  | [], e => a = e
  | it :: its, e => it.offs = a && decide (IsItem m L it) && tilesFrom m L (a + it.size) its e

theorem tilesFrom_iff {m : Mem} {L a e : Int} {its : List Item} :
    tilesFrom m L a its e = true ↔ Tiles m L a its e := by
  induction its generalizing a with
  | nil =>
      simp only [tilesFrom, decide_eq_true_eq]
      constructor
      · rintro rfl
        exact .nil a
      · intro h
        cases h
        rfl
  | cons it its ih =>
      simp only [tilesFrom, Bool.and_eq_true, decide_eq_true_eq, ih]
      constructor
      · rintro ⟨⟨hoffs, hitem⟩, hrest⟩
        exact .cons ⟨hoffs, hitem, rfl⟩ hrest
      · intro h
        cases h with
        | cons hstep hrest =>
            obtain ⟨hoffs, hitem, rfl⟩ := hstep
            exact ⟨⟨hoffs, hitem⟩, hrest⟩

instance (m : Mem) (L a : Int) (its : List Item) (e : Int) : Decidable (Tiles m L a its e) :=
  decidable_of_iff _ tilesFrom_iff

instance (m : Mem) (c : UbifsInfo) (a : Int) (its : List Item) (e : Int) :
    Decidable (Decomposes m c a its e) :=
  decidable_of_iff (Tiles m c.lebSize a its e ∧ e ≤ c.lebSize ∧ c.minIoSize ∣ e ∧
      EmptyFrom m c.lebSize e)
    ⟨fun ⟨tiles, le, aligned, empty⟩ => ⟨tiles, le, aligned, empty⟩,
      fun ⟨tiles, le, aligned, empty⟩ => ⟨tiles, le, aligned, empty⟩⟩

theorem first_of_magic {m : Mem} {o : Int} (h : chMagic m o = ubifsNodeMagic) : m o = 0x31#8 := by
  have hb := le32_byte m o (k := 0) (by omega)
  have hm : le32 m o = ubifsNodeMagic := h
  have hlow : ubifsNodeMagic.extractLsb' 0 8 = 0x31#8 := by decide
  rw [hm] at hb
  simpa [hlow] using hb

theorem IsHeader.first {m : Mem} {o len : Int} (h : IsHeader m o len) : m o = 0x31#8 :=
  first_of_magic h.magic

theorem IsHeader.room {m : Mem} {o len : Int} (h : IsHeader m o len) : 24 ≤ len := by
  have hlo := h.lo
  have hhi := h.hi
  simp only [ubifsChSz] at hlo
  omega

theorem IsRaw.first {m : Mem} {L o n : Int} (h : IsRaw m L o n) : m o = ubifsPaddingByte :=
  h.bytes o (by omega) (by have := h.size; omega)

theorem IsRaw.not_magic {m : Mem} {L o n : Int} (h : IsRaw m L o n) :
    chMagic m o ≠ ubifsNodeMagic := by
  intro hmagic
  have hfirst := h.first
  rw [first_of_magic hmagic] at hfirst
  exact absurd hfirst (by decide)

theorem IsRaw.not_header {m : Mem} {L o n len : Int} (h : IsRaw m L o n) :
    ¬ IsHeader m o len := fun hh => h.not_magic hh.magic

theorem chMagic_empty_iff {m : Mem} {o : Int} :
    chMagic m o = 0xFFFFFFFF#32 ↔ ∀ i, o ≤ i → i < o + 4 → m i = 0xFF#8 := by
  constructor
  · intro h i hlo hhi
    have hb := le32_byte m o (k := (i - o).toNat) (by omega)
    have hm : le32 m o = 0xFFFFFFFF#32 := h
    rw [hm, show o + ((i - o).toNat : Int) = i by omega] at hb
    rw [hb]
    have hk : (i - o).toNat < 4 := by omega
    generalize (i - o).toNat = k at hk
    revert k
    decide
  · intro h
    rw [chMagic, le32, h o (by omega) (by omega), h (o + 1) (by omega) (by omega),
      h (o + 2) (by omega) (by omega), h (o + 3) (by omega) (by omega)]
    rfl

theorem IsItem.first {m : Mem} {L : Int} {it : Item} (h : IsItem m L it) :
    m it.offs = ubifsPaddingByte ∨ m it.offs = 0x31#8 := by
  rcases it with ⟨kind, o, n⟩
  cases kind with
  | raw => exact .inl (IsRaw.first (show IsRaw m L o n from h))
  | pad => exact .inr (IsPad.toIsHeader (show IsPad m L o n from h)).first
  | node => exact .inr (IsNode.toIsHeader (show IsNode m L o n from h)).first

theorem IsItem.first_ne {m : Mem} {L : Int} {it : Item} (h : IsItem m L it) :
    m it.offs ≠ 0xFF#8 := by
  rcases h.first with hb | hb
  · rw [hb]
    decide
  · rw [hb]
    decide

theorem IsItem.size_pos {m : Mem} {L : Int} {it : Item} (h : IsItem m L it) :
    8 ≤ it.size ∧ it.size % 8 = 0 := by
  rcases it with ⟨kind, o, n⟩
  cases kind with
  | raw =>
      have hs := IsRaw.size (show IsRaw m L o n from h)
      simp only
      omega
  | pad =>
      have hp : IsPad m L o n := h
      have h1 := hp.lo
      have h2 := hp.size
      have h3 := hp.padLen
      have h4 := hp.aligned
      simp only [ubifsChSz] at h1 ⊢
      omega
  | node =>
      have hn : IsNode m L o n := h
      have h1 := hn.lo
      have h2 := hn.size
      simp only [ubifsChSz] at h1 ⊢
      omega

theorem IsItem.fits {m : Mem} {L : Int} {it : Item} (h : IsItem m L it)
    (h8 : (L - it.offs) % 8 = 0) : it.offs + it.size ≤ L := by
  rcases it with ⟨kind, o, n⟩
  cases kind with
  | raw => exact IsRaw.fits (show IsRaw m L o n from h)
  | pad => exact IsPad.fits (show IsPad m L o n from h)
  | node =>
      have hn : IsNode m L o n := h
      have h1 := hn.hi
      have h2 := hn.size
      simp only at h8 ⊢
      omega

/-- Where an item stands the pad sum fits: a pad node is accepted only inside the block. -/
theorem IsItem.sumFits {m : Mem} {L : Int} {it : Item} (h : IsItem m L it) (hL : L < 2147483648) :
    SumFits m L it.offs := by
  rintro ⟨hh, htype⟩ _
  rcases it with ⟨kind, o, n⟩
  cases kind with
  | raw => exact absurd hh (IsRaw.not_header (show IsRaw m L o n from h))
  | pad =>
      have hp : IsPad m L o n := h
      have h1 := hp.fits
      have h2 := hp.size
      simp only
      omega
  | node => exact absurd htype (IsNode.type (show IsNode m L o n from h))

private theorem raw_size_le {m : Mem} {L o n n' : Int} (h : IsRaw m L o n) (h' : IsRaw m L o n') :
    n' ≤ n := by
  by_contra hlt
  rcases h.maximal with hend | hnext
  · have := h'.fits
    omega
  · have := h.size
    exact hnext (h'.bytes (o + n) (by omega) (by omega))

theorem isItem_unique {m : Mem} {L : Int} {it it' : Item} (h : IsItem m L it)
    (h' : IsItem m L it') (ho : it.offs = it'.offs) : it = it' := by
  rcases it with ⟨kind, o, n⟩
  rcases it' with ⟨kind', o', n'⟩
  simp only at ho
  subst o'
  cases kind <;> cases kind'
  case raw.raw =>
    have hr : IsRaw m L o n := h
    have hr' : IsRaw m L o n' := h'
    rw [Int.le_antisymm (raw_size_le hr' hr) (raw_size_le hr hr')]
  case pad.pad =>
    have h1 := IsPad.size (show IsPad m L o n from h)
    have h2 := IsPad.size (show IsPad m L o n' from h')
    rw [h1, h2]
  case node.node =>
    have h1 := IsNode.size (show IsNode m L o n from h)
    have h2 := IsNode.size (show IsNode m L o n' from h')
    rw [h1, h2]
  case raw.pad => exact absurd (IsPad.toIsHeader h') (IsRaw.not_header h)
  case raw.node => exact absurd (IsNode.toIsHeader h') (IsRaw.not_header h)
  case pad.raw => exact absurd (IsPad.toIsHeader h) (IsRaw.not_header h')
  case node.raw => exact absurd (IsNode.toIsHeader h) (IsRaw.not_header h')
  case pad.node => exact absurd (IsPad.type h) (IsNode.type h')
  case node.pad => exact absurd (IsPad.type h') (IsNode.type h)

theorem itemStep_deterministic (m : Mem) (L : Int) : Steps.Deterministic (ItemStep m L) := by
  intro o it p it' q h h'
  have heq := isItem_unique h.2.1 h'.2.1 (h.1.trans h'.1.symm)
  subst it'
  exact ⟨rfl, h.2.2.trans h'.2.2.symm⟩

theorem stuck_of_empty {m : Mem} {L e : Int} (hL : L % 8 = 0) (he8 : e % 8 = 0) (he : e ≤ L)
    (h : EmptyFrom m L e) : Steps.Stuck (ItemStep m L) e := by
  intro it o ⟨hoffs, hitem, _⟩
  have hfit := hitem.fits (by omega)
  have hpos := hitem.size_pos
  exact hitem.first_ne (hoffs ▸ h e (by omega) (by omega))

theorem Tiles.aligned {m : Mem} {L a o : Int} {its : List Item} (h : Tiles m L a its o)
    (ha : a % 8 = 0) : o % 8 = 0 := by
  apply Steps.inv (P := fun o => o % 8 = 0) ?_ h ha
  intro o it o' ⟨_, hitem, ho'⟩ ho
  have := hitem.size_pos
  omega

theorem Tiles.le {m : Mem} {L a o : Int} {its : List Item} (h : Tiles m L a its o) : a ≤ o := by
  apply Steps.inv (P := fun o => a ≤ o) ?_ h (by omega)
  intro o it o' ⟨_, hitem, ho'⟩ ho
  have := hitem.size_pos
  omega

theorem Tiles.length_le {m : Mem} {L a o : Int} {its : List Item} (h : Tiles m L a its o) :
    8 * (its.length : Int) ≤ o - a := by
  induction h with
  | nil s => simp
  | cons hstep _ ih =>
      have hpos := hstep.2.1.size_pos
      have hend := hstep.2.2
      rw [List.length_cons]
      push_cast
      omega

theorem Tiles.le_end {m : Mem} {L a o : Int} {its : List Item} (h : Tiles m L a its o)
    (hL : L % 8 = 0) (ha : a % 8 = 0) (haL : a ≤ L) : o ≤ L := by
  have hinv := Steps.inv (P := fun o => o % 8 = 0 ∧ o ≤ L) ?_ h ⟨ha, haL⟩
  · exact hinv.2
  · intro o it o' ⟨hoffs, hitem, ho'⟩ ho
    have hfit := hitem.fits (by omega)
    have hpos := hitem.size_pos
    omega

private theorem tiles_self {m : Mem} {L e : Int} {its : List Item} (h : Tiles m L e its e) :
    its = [] := by
  cases h with
  | nil => rfl
  | cons hstep hrest =>
      have hpos := hstep.2.1.size_pos
      have hend := hstep.2.2
      have hle := Tiles.le hrest
      omega

theorem Tiles.unique {m : Mem} {L a e : Int} {its its' : List Item} (h : Tiles m L a its e)
    (h' : Tiles m L a its' e) : its = its' := by
  rcases Steps.comparable (itemStep_deterministic m L) h h' with
    ⟨rest, rfl, hrest⟩ | ⟨rest, rfl, hrest⟩
  · rw [tiles_self hrest, List.append_nil]
  · rw [tiles_self hrest, List.append_nil]

/-- **The reading of a block is unique.** -/
theorem Decomposes.unique {m : Mem} {c : UbifsInfo} {a e e' : Int} {its its' : List Item}
    (hL : c.lebSize % 8 = 0) (ha : a % 8 = 0) (h : Decomposes m c a its e)
    (h' : Decomposes m c a its' e') : its = its' ∧ e = e' :=
  Steps.unique_of_stuck (itemStep_deterministic m c.lebSize) h.tiles
    (stuck_of_empty hL (h.tiles.aligned ha) h.le h.empty) h'.tiles
    (stuck_of_empty hL (h'.tiles.aligned ha) h'.le h'.empty)

theorem sumsFit_of_stuck {m : Mem} {L a e : Int} {its : List Item} (hL : L < 2147483648)
    (h : Tiles m L a its e) (hstuck : Steps.Stuck (ItemStep m L) e) (he : SumFits m L e) :
    SumsFit m L a := by
  intro its' o h'
  obtain ⟨rest, -, hp⟩ := Steps.extends_of_stuck (itemStep_deterministic m L) h hstuck h'
  cases hp with
  | nil => exact he
  | cons hstep _ => exact hstep.1 ▸ hstep.2.1.sumFits hL

theorem Tiles.header_of_mem {m : Mem} {L a e : Int} {its : List Item} {it : Item}
    (h : Tiles m L a its e) (hit : it ∈ its) (hkind : it.kind ≠ .raw) :
    ∃ before, Tiles m L a before it.offs ∧ IsHeader m it.offs (L - it.offs) := by
  obtain ⟨x, y, before, after, -, hbefore, ⟨rfl, hitem, -⟩, -⟩ := h.mem_step hit
  refine ⟨before, hbefore, ?_⟩
  cases hk : it.kind with
  | raw => exact absurd hk hkind
  | pad => exact (hitem.isPad hk).toIsHeader
  | node => exact (hitem.isNode hk).toIsHeader

theorem EmptyFrom.not_header {m : Mem} {L e : Int} (h : EmptyFrom m L e) :
    ¬ IsHeader m e (L - e) := by
  intro hh
  have hroom := hh.room
  have hfirst := hh.first
  rw [h e (by omega) (by omega)] at hfirst
  exact absurd hfirst (by decide)

theorem Decomposes.sumsFit {m : Mem} {c : UbifsInfo} {a e : Int} {its : List Item}
    (hg : Geometry c a) (h : Decomposes m c a its e) : SumsFit m c.lebSize a :=
  sumsFit_of_stuck hg.int h.tiles
    (stuck_of_empty hg.leb (h.tiles.aligned hg.start) h.le h.empty)
    fun hpad _ => absurd hpad.1 h.empty.not_header

end UbifsScan
