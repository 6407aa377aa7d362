import UbifsScan.Refinement.Layout
import UbifsScan.Results.Acceptance

/-!
# Scanning undoes building
-/

namespace UbifsScan

open Mem Program

/-- **Scanning undoes building.** A block built of nodes, pad nodes and raw padding scans as the
nodes that were written if the end of the writing is a multiple of the I/O size, and fails with
`-EUCLEAN` if it is not. -/
theorem ubifsScan_undoes_building (A : Allocator) (c : UbifsInfo) (lnum a : Int) (quiet : Bool)
    (w : World) (st : LazyCrc) (blank : Mem) (l : Layout) (hg : Geometry c a)
    (hblank : EmptyFrom blank c.lebSize a) (hend : endFrom a l.pieces ≤ c.lebSize)
    (hA : AllocsSucceed (.harness A) c lnum a (buildFrom st.val blank a l.pieces) quiet w) :
    (c.minIoSize ∣ endFrom a l.pieces →
      scanOutcome (.harness A) c lnum a (buildFrom st.val blank a l.pieces) quiet w =
        some (.scanned ⟨lnum, endFrom a l.pieces, (recordsFrom a l.pieces).length,
          recordsFrom a l.pieces⟩)) ∧
      (¬ c.minIoSize ∣ endFrom a l.pieces →
        scanOutcome (.harness A) c lnum a (buildFrom st.val blank a l.pieces) quiet w =
          some (.failed (-euclean))) := by
  have hbuilt := built st.property hg.int blank hg.nonneg hblank l.valid l.apart hend
  generalize buildFrom st.val blank a l.pieces = m at hbuilt hA ⊢
  have hstuck :=
    stuck_of_empty hg.leb (hbuilt.tiles.aligned hg.start) hend hbuilt.empty
  have hfit : SumsFit m c.lebSize a :=
    sumsFit_of_stuck hg.int hbuilt.tiles hstuck fun hpad _ =>
      absurd hpad.1 hbuilt.empty.not_header
  constructor
  · intro haligned
    have hdec : Decomposes m c a (itemsFrom a l.pieces) (endFrom a l.pieces) :=
      ⟨hbuilt.tiles, hend, haligned, hbuilt.empty⟩
    rw [scanOutcome_of_decomposes hg hfit hA hdec, blockView, hbuilt.records]
  · intro hunaligned
    apply scanOutcome_of_not_decomposes hg hfit hA
    intro its e hdec
    have hstuck' := stuck_of_empty hg.leb (hdec.tiles.aligned hg.start) hdec.le hdec.empty
    obtain ⟨-, rfl⟩ := Steps.unique_of_stuck (itemStep_deterministic m c.lebSize) hbuilt.tiles
      hstuck hdec.tiles hstuck'
    exact hunaligned hdec.aligned

/-- A commit-start node whose payload looks like padding, a pad node, raw padding and an inode
node. -/
def sampleLayout : Layout where
  pieces := [.node 10 32 11 fun _ => 0xCE, .pad 28 4 12, .raw 8, .node 0 44 13 fun _ => 0x31]
  valid := by decide
  apart := by decide

theorem sample_round_trip :
    scanOutcome (.harness .bump) ⟨160, 8⟩ 5 0
      (buildFrom .boot (fun _ => 0xFF) 0 sampleLayout.pieces) true .boot =
        some (.scanned ⟨5, 120, 2, [⟨List.replicate 16 0, 11, 10, 0, 32, 0⟩,
          ⟨List.replicate 16 0x31, 13, 0, 72, 44, 72⟩]⟩) := by
  have hg : Geometry ⟨160, 8⟩ 0 :=
    ⟨by decide, by decide, by decide, by decide, by decide, 3, by decide, by decide⟩
  exact (ubifsScan_undoes_building .bump ⟨160, 8⟩ 5 0 true .boot ⟨.boot, CrcStatics.boot_lazy⟩
    (fun _ => 0xFF) sampleLayout hg (fun _ _ _ => rfl) (by decide)
    (.of_count (by decide +kernel))).1 (by decide)

end UbifsScan
