import UbifsScan.Refinement.Torn
import UbifsScan.Results.Rebuild

/-!
# Power cuts

A block that scans, appended to until the power fails. Whatever was being written, and wherever it
stopped, the scan fails or it finds what was there before, the pieces that were complete and at most
one more that was not.
-/

namespace UbifsScan

open Mem Program

/-- The block `m` in which `m'` was written up to `p`. -/
def cutAt (m m' : Mem) (p : Int) : Mem := fun i => if i < p then m' i else m i

/-- What a scan returns when the pieces were written where `v` ends. -/
def LebView.append (c : UbifsInfo) (v : LebView) (ps : List Piece) : Outcome :=
  if c.minIoSize ∣ endFrom v.endpt ps then
    .scanned { v with
      endpt := endFrom v.endpt ps
      nodesCnt := v.nodesCnt + (recordsFrom v.endpt ps).length
      nodes := v.nodes ++ recordsFrom v.endpt ps }
  else .failed (-euclean)

/-- **Power cuts.** Pieces are written from the end of the nodes on, and only the bytes before `p`
reach the flash: the scan returns what is left of the pieces behind the nodes from before, and it
fails if the last piece was cut off unreadably. -/
theorem ubifsScan_after_cut (A : Allocator) (c : UbifsInfo) (lnum offs p : Int) (sbuf : Mem)
    (quiet : Bool) (w w' : World) (v : LebView) (st : LazyCrc) (l : Layout) (hg : Geometry c offs)
    (hfit : SumsFit sbuf c.lebSize offs)
    (hscan : scanOutcome (.harness A) c lnum offs sbuf quiet w = some (.scanned v))
    (hreads : ReadsBefore sbuf c.lebSize offs v.endpt)
    (hnext : ∀ its it, Tiles sbuf c.lebSize offs (its ++ [it]) v.endpt → it.kind = .raw →
      ∀ q ∈ l.pieces.head?, q.kind ≠ .raw)
    (hend : endFrom v.endpt l.pieces ≤ c.lebSize)
    (hA : AllocsSucceed (.harness A) c lnum offs
      (cutAt sbuf (buildFrom st.val sbuf v.endpt l.pieces) p) quiet w') :
    scanOutcome (.harness A) c lnum offs (cutAt sbuf (buildFrom st.val sbuf v.endpt l.pieces) p)
        quiet w' =
      some (match tornFrom p v.endpt l.pieces with
        | some ps => v.append c ps
        | none => .failed (-euclean)) := by
  obtain ⟨its, e, hdec, rfl⟩ := decomposes_of_scanned hg hfit hscan
  simp only [blockView] at hreads hnext hend hA ⊢
  have h0 := (hdec.tiles.inside hg.inside).nonneg
  have hfull := built st.property hg.int sbuf h0 hdec.empty l.valid l.apart hend
  have hle := hdec.le
  generalize hJ : cutAt sbuf (buildFrom st.val sbuf e l.pieces) p = J at hA ⊢
  have hwritten : ∀ i, i < p → J i = buildFrom st.val sbuf e l.pieces i := by
    intro i hi
    rw [← hJ]
    exact if_pos hi
  have hempty : ∀ i, e ≤ i → p ≤ i → i < c.lebSize → J i = 0xFF#8 := by
    intro i hi hp hi'
    rw [← hJ]
    exact (if_neg (by omega)).trans (hdec.empty i hi hi')
  have hagree : AgreeOn sbuf J offs e := by
    intro i _ hi
    by_cases hp : i < p
    · rw [hwritten i hp]
      exact hfull.before i hi
    · rw [← hJ]
      exact if_neg hp
  -- What was there before is still read, and the rest from where it ends.
  obtain ⟨htiles, hrec⟩ := tiles_resume hg.leb hg.start hg.le hdec.tiles hreads hle
    (Int.le_refl e) hagree fun before it hlast hkind => by
      by_cases hp : e < p
      · rw [hwritten e hp]
        exact first_not_padding (hnext before it hlast hkind) hfull.tiles hfull.empty hend
      · by_cases heL : e = c.lebSize
        · exact .inl heL
        · right
          rw [hempty e (Int.le_refl e) (by omega) (by omega)]
          decide
  have hleft := left_of_cut (p := p) st.property hg.int h0 hdec.empty l.valid l.apart hend
    (fun i _ hi => hwritten i hi) hempty
  cases htorn : tornFrom p e l.pieces with
  | none =>
      rw [htorn] at hleft
      obtain ⟨rest, x, hrest, hx⟩ := hleft
      exact scanOutcome_of_stuck hg hA (htiles.append hrest) hx.lt hx.stuck hx.sum hx.used
  | some ps =>
      rw [htorn] at hleft
      have hreads : Reads J c.lebSize e ps := hleft
      rw [scanOutcome_of_tiles hg hA (htiles.append hreads.tiles) hreads.le hreads.empty]
      simp [LebView.append, blockView, hrec, hreads.records]

/-- An inode node to be written behind the sample block. -/
def appendedLayout : Layout where
  pieces := [.node 0 40 13 fun _ => 0x31]
  valid := by decide
  apart := by decide

/-- Half of its key is lost. -/
theorem sample_after_cut :
    scanOutcome (.harness .bump) ⟨128, 8⟩ 3 0
      (cutAt sampleLeb (buildFrom .boot sampleLeb 80 appendedLayout.pieces) 112) true .boot =
      some (.scanned ⟨3, 120, 2, [scanNodeAt sampleLeb 0,
        ⟨List.replicate 8 0x31 ++ List.replicate 8 0xFF, 13, 0, 80, 40, 80⟩]⟩) := by
  have hg : Geometry ⟨128, 8⟩ 0 :=
    ⟨by decide, by decide, by decide, by decide, by decide, 3, by decide, by decide⟩
  have hdec : Decomposes sampleLeb ⟨128, 8⟩ 0 sampleItems 80 := by decide +kernel
  have hscan : scanOutcome (.harness .bump) ⟨128, 8⟩ 3 0 sampleLeb true .boot =
      some (.scanned ⟨3, 80, 1, [scanNodeAt sampleLeb 0]⟩) := by decide +kernel
  have hreads : ReadsBefore sampleLeb 128 0 80 :=
    (roomyBefore_of_items hdec.tiles (by decide +kernel)).reads hdec.tiles
  have hcut := ubifsScan_after_cut .bump ⟨128, 8⟩ 3 0 112 sampleLeb true .boot .boot _
    ⟨.boot, CrcStatics.boot_lazy⟩ appendedLayout hg (hdec.sumsFit hg) hscan hreads
    (fun _ _ _ _ => by simp [appendedLayout, Piece.kind]) (by decide)
    (.of_count (by decide +kernel))
  exact hcut.trans (congrArg some (by decide +kernel))

end UbifsScan
