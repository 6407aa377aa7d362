import UbifsScan.Format.Items

/-!
# Which bytes an item depends on

An item survives every change outside the few bytes that define it, and also a change of the block
size that leaves room for it.
-/

namespace UbifsScan

open Mem

section Fields

variable {m m' : Mem} {o : Int}

theorem chMagic_congr (h : AgreeOn m m' o (o + 4)) : chMagic m' o = chMagic m o := le32_congr h

theorem chCrc_congr (h : AgreeOn m m' o (o + 8)) : chCrc m' o = chCrc m o :=
  le32_congr (h.mono (by omega) (by omega))

theorem chSqnum_congr (h : AgreeOn m m' o (o + 16)) : chSqnum m' o = chSqnum m o :=
  le64_congr (h.mono (by omega) (by omega))

theorem chLen_congr (h : AgreeOn m m' o (o + 20)) : chLen m' o = chLen m o :=
  le32_congr (h.mono (by omega) (by omega))

theorem chNodeType_congr (h : AgreeOn m m' o (o + 21)) : chNodeType m' o = chNodeType m o :=
  h (o + 20) (by omega) (by omega)

theorem padPadLen_congr (h : AgreeOn m m' o (o + 28)) : padPadLen m' o = padPadLen m o :=
  le32_congr (h.mono (by omega) (by omega))

theorem inoKey_congr (h : AgreeOn m m' o (o + 40)) : inoKey m' o = inoKey m o :=
  bytesAt_congr (h.mono (by omega) (by simp only [ubifsMaxKeyLen]; omega))

theorem chCovered_congr (h : AgreeOn m m' o (o + 24)) : chCovered m' o = chCovered m o :=
  bytesAt_congr (h.mono (by omega) (by omega))

end Fields

section Transport

variable {m m' : Mem} {L L' o n len len' : Int} {it : Item}

theorem IsHeader.transport (h : IsHeader m o len) (hagree : AgreeOn m m' o (o + 24))
    (hroom : (chLen m o).toInt ≤ len') : IsHeader m' o len' := by
  have hlen := chLen_congr (hagree.mono (Int.le_refl o) (by omega))
  have hcrc := chCrc_congr (hagree.mono (Int.le_refl o) (by omega))
  have hmagic := chMagic_congr (hagree.mono (Int.le_refl o) (by omega))
  refine ⟨⟨?_, ?_, ?_⟩, ?_⟩
  · rw [hlen]
    exact h.lo
  · rw [hlen]
    exact hroom
  · rw [chCovered_congr hagree, hcrc]
    exact h.crc
  · rw [hmagic]
    exact h.magic

theorem IsRaw.transport (h : IsRaw m L o n) (hagree : AgreeOn m m' o (o + n)) (hfits : o + n ≤ L')
    (hend : o + n = L' ∨ m' (o + n) ≠ ubifsPaddingByte) : IsRaw m' L' o n :=
  ⟨h.size, hfits, fun i hi hi' => by rw [hagree i hi hi']; exact h.bytes i hi hi', hend⟩

theorem IsPad.transport (h : IsPad m L o n) (hagree : AgreeOn m m' o (o + 28))
    (hfits : o + n ≤ L') : IsPad m' L' o n := by
  have hlen := chLen_congr (hagree.mono (Int.le_refl o) (by omega))
  have hpad := padPadLen_congr hagree
  have htype := chNodeType_congr (hagree.mono (Int.le_refl o) (by omega))
  have hsize := h.size
  have hpos := h.padLen
  have hheader : IsHeader m' o (L' - o) :=
    h.toIsHeader.transport (hagree.mono (Int.le_refl o) (by omega)) (by omega)
  refine ⟨hheader, ?_, ?_, ?_, hfits, h.aligned⟩
  · rw [htype]
    exact h.type
  · rw [hpad]
    exact hpos
  · rw [hlen, hpad]
    exact hsize

theorem IsNode.transport (h : IsNode m L o n) (hagree : AgreeOn m m' o (o + 24))
    (hfits : o + n ≤ L') : IsNode m' L' o n := by
  have hlen := chLen_congr (hagree.mono (Int.le_refl o) (by omega))
  have htype := chNodeType_congr (hagree.mono (Int.le_refl o) (by omega))
  have hsize := h.size
  have hheader : IsHeader m' o (L' - o) := h.toIsHeader.transport hagree (by omega)
  refine ⟨hheader, ?_, ?_⟩
  · rw [htype]
    exact h.type
  · rw [hlen]
    exact hsize

/-- The bytes an item is recognised by. -/
def Item.core (it : Item) : Int :=
  match it.kind with
  | .raw => it.size
  | .pad => 28
  | .node => 24

theorem Item.core_pos (h : IsItem m L it) : 0 < it.core := by
  have hpos := h.size_pos
  rw [Item.core]
  split <;> omega

/-- Only of a pad node the defining bytes may reach behind the item. -/
theorem Item.core_le (h : IsItem m L it) (hkind : it.kind ≠ .pad) : it.core ≤ it.size := by
  cases hk : it.kind with
  | raw => simp only [Item.core, hk, Int.le_refl]
  | pad => exact absurd hk hkind
  | node =>
      have hsize := (h.isNode hk).size
      have hlen := (h.isNode hk).lo
      simp only [ubifsChSz] at hlen
      simp only [Item.core, hk]
      omega

/-- **An item is local**: it stays where its defining bytes stay, where it fits, and where the
byte behind it still ends a raw run. -/
theorem IsItem.transport (h : IsItem m L it) (hagree : AgreeOn m m' it.offs (it.offs + it.core))
    (hfits : it.offs + it.size ≤ L')
    (hend : it.kind = .raw → it.offs + it.size = L' ∨ m' (it.offs + it.size) ≠ ubifsPaddingByte) :
    IsItem m' L' it := by
  rcases it with ⟨kind, o, n⟩
  cases kind with
  | raw => exact IsRaw.transport (show IsRaw m L o n from h) hagree hfits (hend rfl)
  | pad => exact IsPad.transport (show IsPad m L o n from h) hagree hfits
  | node => exact IsNode.transport (show IsNode m L o n from h) hagree hfits

theorem scanNodeAt_congr (h : AgreeOn m m' o (o + 24))
    (hkey : isKeyed (chNodeType m o) = true → AgreeOn m m' o (o + 40)) :
    scanNodeAt m' o = scanNodeAt m o := by
  have hlen := chLen_congr (h.mono (Int.le_refl o) (by omega))
  have hsqnum := chSqnum_congr (h.mono (Int.le_refl o) (by omega))
  have htype := chNodeType_congr (h.mono (Int.le_refl o) (by omega))
  simp only [scanNodeAt, hlen, hsqnum, htype]
  by_cases hk : isKeyed (chNodeType m o) = true
  · rw [if_pos hk, if_pos hk, inoKey_congr (hkey hk)]
  · rw [if_neg hk, if_neg hk]

theorem Tiles.of_items {a e : Int} {its : List Item} (h : Tiles m L a its e)
    (hitems : ∀ it ∈ its, IsItem m' L' it) : Tiles m' L' a its e := by
  induction h with
  | nil s => exact .nil s
  | cons hstep _ ih =>
      refine .cons ⟨hstep.1, hitems _ (by simp), hstep.2.2⟩ (ih fun it hit => ?_)
      exact hitems it (List.mem_cons_of_mem _ hit)

theorem recorded_congr {its : List Item}
    (h : ∀ it ∈ its, it.kind = .node → scanNodeAt m' it.offs = scanNodeAt m it.offs) :
    recorded m' its = recorded m its := by
  apply List.map_congr_left
  intro it hit
  rw [List.mem_filter, decide_eq_true_eq] at hit
  exact h it hit.1 hit.2

/-- A tiling is local: it stays where the bytes up to some `p` behind it stay, if these hold the
padding lengths of its pad nodes and if a raw run at its end still ends there. -/
theorem Tiles.carry {a e p : Int} {its : List Item} (hL : L % 8 = 0) (ha : a % 8 = 0)
    (haL : a ≤ L) (htiles : Tiles m L a its e) (he : e ≤ L') (hep : e ≤ p)
    (hagree : AgreeOn m m' a p) (hpad : ∀ it ∈ its, it.kind = .pad → it.offs + 28 ≤ p)
    (hraw : ∀ before it, its = before ++ [it] → it.kind = .raw →
      e = L' ∨ m' e ≠ ubifsPaddingByte) : Tiles m' L' a its e := by
  refine htiles.of_items fun it hit => ?_
  obtain ⟨x, y, before, after, hsplit, hbefore, ⟨hoffs, hitem, hy⟩, hafter⟩ :=
    htiles.mem_step hit
  subst hoffs hy
  have hlo := Tiles.le hbefore
  have hpos := hitem.size_pos
  have hle := Tiles.le hafter
  have hpad' := hpad it hit
  have heL := htiles.le_end hL ha haL
  refine hitem.transport (hagree.mono hlo ?_) (by omega) fun hkind => ?_
  · by_cases hkind : it.kind = .pad
    · simpa only [Item.core, hkind] using hpad' hkind
    · have hcore := Item.core_le hitem hkind
      omega
  · cases hafter with
    | nil => exact hraw before it hsplit hkind
    | cons hstep hrest =>
        have hnext := hstep.2.1.size_pos
        have hend := Tiles.le hrest
        have hstop := hstep.2.2
        right
        rw [hagree (it.offs + it.size) (by omega) (by omega)]
        exact (hitem.isRaw hkind).maximal.resolve_left (by omega)

/-- A pad node that is followed by a byte that is not zero covers its padding length: without it
the padding length is that byte. -/
theorem Tiles.pad_room {a e : Int} {its : List Item} (htiles : Tiles m L a its e)
    (hnext : m e ≠ 0#8) : ∀ it ∈ its, it.kind = .pad → it.offs + 28 ≤ e := by
  intro it hit hkind
  obtain ⟨x, y, before, after, hsplit, hbefore, ⟨hoffs, hitem, hy⟩, hafter⟩ :=
    htiles.mem_step hit
  subst hoffs hy
  have hle := Tiles.le hafter
  have hpos := hitem.size_pos
  have hp := hitem.isPad hkind
  have hsize := hp.size
  have hlo := hp.lo
  have hpl := hp.padLen
  simp only [ubifsChSz] at hlo
  by_contra hshort
  have hzero : (padPadLen m it.offs).toInt = 0 := by omega
  have hbyte : m (it.offs + it.size) = 0#8 := by
    have hb := le32_byte m (it.offs + 24) (k := 0) (by omega)
    have hw : le32 m (it.offs + 24) = 0#32 := BitVec.eq_of_toInt_eq hzero
    rw [hw] at hb
    rw [show it.size = 24 by omega]
    simpa using hb
  cases hafter with
  | nil => exact hnext hbyte
  | cons hstep _ =>
      have hfirst := hstep.2.1.first
      rw [hstep.1, hbyte] at hfirst
      exact absurd hfirst (by decide)

end Transport

end UbifsScan
