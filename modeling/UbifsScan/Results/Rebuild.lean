import UbifsScan.Refinement.Layout
import UbifsScan.Results.Headers
import UbifsScan.Results.Locality

/-!
# Rebuilding a block

What a block that scans would be built from, read off its bytes: the builders write a block that
scans as the first one did, so they reach every result that a scan of a roomy block can have.
-/

namespace UbifsScan

open Mem Program

/-- What the item would be built from. -/
def pieceAt (m : Mem) (it : Item) : Piece :=
  match it.kind with
  | .node => .node (chNodeType m it.offs).toNat (chLen m it.offs).toInt (chSqnum m it.offs)
      fun i => m (it.offs + 24 + i)
  | .pad => .pad (chLen m it.offs).toInt (padPadLen m it.offs).toInt (chSqnum m it.offs)
  | .raw => .raw it.size

def piecesAt (m : Mem) (its : List Item) : List Piece := its.map (pieceAt m)

section Pieces

variable {m : Mem} {L a e : Int} {it : Item} {its : List Item}

theorem pieceAt_kind (m : Mem) (it : Item) : (pieceAt m it).kind = it.kind := by
  rcases it with ⟨kind, o, n⟩
  cases kind <;> rfl

theorem pieceAt_size (h : IsItem m L it) : (pieceAt m it).size = it.size := by
  rcases it with ⟨kind, o, n⟩
  cases kind with
  | raw => rfl
  | pad => exact (IsPad.size (show IsPad m L o n from h)).symm
  | node => exact (IsNode.size (show IsNode m L o n from h)).symm

theorem pieceAt_records (m : Mem) (it : Item) :
    (pieceAt m it).records it.offs = recorded m [it] := by
  rcases it with ⟨kind, o, n⟩
  cases kind with
  | raw => rfl
  | pad => rfl
  | node =>
      have hkey : bytesAt (fun i => m (o + 24 + i)) 0 ubifsMaxKeyLen = inoKey m o := by
        rw [inoKey, bytesAt_eq_iff]
        intro k _
        rw [Int.zero_add]
      have hscan : recorded m [⟨.node, o, n⟩] = [scanNodeAt m o] := rfl
      rw [hscan, scanNodeAt, pieceAt, Piece.records, hkey, ofInt_toNat_byte]

theorem pieceAt_valid (h : IsItem m L it)
    (h28 : IsPadHeader m it.offs (L - it.offs) → 28 ≤ (chLen m it.offs).toInt)
    (h40 : IsKeyedHeader m it.offs (L - it.offs) → 40 ≤ (chLen m it.offs).toInt) :
    (pieceAt m it).Valid := by
  rcases it with ⟨kind, o, n⟩
  cases kind with
  | raw => exact IsRaw.size (show IsRaw m L o n from h)
  | pad =>
      have hp : IsPad m L o n := h
      have hsize := hp.size
      have h8 := hp.aligned
      exact ⟨h28 ⟨hp.toIsHeader, hp.type⟩, hp.padLen, by rwa [hsize] at h8⟩
  | node =>
      have hn : IsNode m L o n := h
      have hbyte := (chNodeType m o).isLt
      refine ⟨by omega, by omega, fun htype => hn.type ?_, hn.lo, fun hkey => ?_⟩
      · exact BitVec.eq_of_toNat_eq (by exact_mod_cast htype)
      · exact h40 ⟨hn.toIsHeader, by rwa [ofInt_toNat_byte] at hkey⟩

theorem endFrom_piecesAt (h : Tiles m L a its e) : endFrom a (piecesAt m its) = e := by
  induction h with
  | nil s => rfl
  | cons hstep _ ih =>
      obtain ⟨rfl, hitem, rfl⟩ := hstep
      rw [piecesAt, List.map_cons, endFrom, pieceAt_size hitem]
      exact ih

theorem recordsFrom_piecesAt (h : Tiles m L a its e) :
    recordsFrom a (piecesAt m its) = recorded m its := by
  induction h with
  | nil s => rfl
  | @cons _ _ _ it its hstep _ ih =>
      obtain ⟨rfl, hitem, rfl⟩ := hstep
      have happend := recorded_append m [it] its
      rw [piecesAt, List.map_cons, recordsFrom, pieceAt_size hitem, pieceAt_records]
      exact (congrArg _ ih).trans happend.symm

theorem piecesAt_apart (h : Tiles m L a its e) :
    (piecesAt m its).IsChain fun p q => p.kind = .raw → q.kind ≠ .raw := by
  induction h with
  | nil s => exact .nil
  | @cons _ _ _ it its hstep hrest ih =>
      obtain ⟨hoffs, hitem, hend⟩ := hstep
      subst hoffs hend
      cases hrest with
      | nil => exact .singleton _
      | @cons _ _ _ next rest hnext _ =>
          refine List.isChain_cons_cons.mpr ⟨fun hraw hraw' => ?_, ih⟩
          rw [pieceAt_kind] at hraw hraw'
          have hend := (hitem.isRaw hraw).maximal
          have hr := hnext.2.1.isRaw hraw'
          have hfirst := hr.first
          have hfits := hr.fits
          have hsize := hr.size
          rw [hnext.1] at hfirst hfits
          rcases hend with hend | hend
          · omega
          · exact hend hfirst

end Pieces

private theorem layout_exists {m : Mem} {c : UbifsInfo} {a e : Int} {its : List Item}
    (hdec : Decomposes m c a its e) (hroom : RoomyBefore m c.lebSize a e) :
    ∃ l : Layout, l.pieces = piecesAt m its := by
  refine ⟨⟨piecesAt m its, fun p hp => ?_, piecesAt_apart hdec.tiles⟩, rfl⟩
  obtain ⟨it, hit, rfl⟩ := List.mem_map.mp hp
  obtain ⟨x, y, before, after, -, hbefore, ⟨hoffs, hitem, hy⟩, hafter⟩ :=
    hdec.tiles.mem_step hit
  subst hoffs hy
  have hle := Tiles.le hafter
  have hpos := hitem.size_pos
  obtain ⟨h28, h40⟩ := hroom before it.offs hbefore (by omega)
  exact pieceAt_valid hitem h28 h40

/-- **Rebuilding.** A block that scans is one that the builders can write: the pieces read off its
bytes, written one after another into empty space, scan as it did. -/
theorem ubifsScan_rebuilds (A : Allocator) (c : UbifsInfo) (lnum offs : Int) (sbuf : Mem)
    (quiet : Bool) (w : World) (v : LebView) (hg : Geometry c offs)
    (hfit : SumsFit sbuf c.lebSize offs)
    (hscan : scanOutcome (.harness A) c lnum offs sbuf quiet w = some (.scanned v))
    (hroom : RoomyBefore sbuf c.lebSize offs v.endpt) :
    ∃ (its : List Item) (l : Layout), Decomposes sbuf c offs its v.endpt ∧
      l.pieces = piecesAt sbuf its ∧ endFrom offs l.pieces = v.endpt ∧
      recordsFrom offs l.pieces = v.nodes ∧
      ∀ (st : LazyCrc) (blank : Mem) (w' : World), EmptyFrom blank c.lebSize offs →
        AllocsSucceed (.harness A) c lnum offs (buildFrom st.val blank offs l.pieces) quiet w' →
        scanOutcome (.harness A) c lnum offs (buildFrom st.val blank offs l.pieces) quiet w' =
          some (.scanned v) := by
  obtain ⟨its, e, hdec, rfl⟩ := decomposes_of_scanned hg hfit hscan
  obtain ⟨l, hl⟩ := layout_exists hdec hroom
  have hend : endFrom offs l.pieces = e := by rw [hl, endFrom_piecesAt hdec.tiles]
  have hrecords : recordsFrom offs l.pieces = recorded sbuf its := by
    rw [hl, recordsFrom_piecesAt hdec.tiles]
  refine ⟨its, l, hdec, hl, hend, hrecords, fun st blank w' hblank hA => ?_⟩
  have hle := hdec.le
  have hbuilt := built st.property hg.int blank hg.nonneg hblank l.valid l.apart (by omega)
  have hdec' : Decomposes (buildFrom st.val blank offs l.pieces) c offs
      (itemsFrom offs l.pieces) e :=
    ⟨hend ▸ hbuilt.tiles, hle, hdec.aligned, hend ▸ hbuilt.empty⟩
  rw [scanOutcome_of_decomposes hg (hdec'.sumsFit hg) hA hdec', blockView, hbuilt.records,
    hrecords]
  rfl

theorem sample_rebuilt :
    scanOutcome (.harness .bump) sampleInfo 3 0
        (buildFrom .boot (fun _ => 0xFF#8) 0 (piecesAt sampleLeb sampleItems)) true .boot =
      some (.scanned ⟨3, 80, 1, [scanNodeAt sampleLeb 0]⟩) := by
  have hscan : scanOutcome (.harness .bump) sampleInfo 3 0 sampleLeb true .boot =
      some (.scanned ⟨3, 80, 1, [scanNodeAt sampleLeb 0]⟩) := by decide +kernel
  have hroom : RoomyBefore sampleLeb 96 0 80 :=
    roomyBefore_of_items sample_decomposes.tiles (by decide +kernel)
  obtain ⟨its, l, hdec, hpieces, -, -, hscans⟩ := ubifsScan_rebuilds .bump sampleInfo 3 0 sampleLeb
    true .boot _ sample_geometry (sample_decomposes.sumsFit sample_geometry) hscan hroom
  obtain ⟨rfl, -⟩ := hdec.unique (by decide) (by decide) sample_decomposes
  rw [← hpieces]
  refine hscans ⟨.boot, CrcStatics.boot_lazy⟩ (fun _ => 0xFF#8) .boot (fun _ _ _ => rfl) ?_
  rw [hpieces]
  exact .of_count (by decide +kernel)

end UbifsScan
