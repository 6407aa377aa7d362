import UbifsScan.Refinement.Outcome

/-!
# What is accepted

`ubifs_scan` accepts exactly the blocks that decompose and reports exactly what they decompose into.
-/

namespace UbifsScan

open Mem Program

theorem AllocsSucceed.of_count {K : Env} {c : UbifsInfo} {lnum offs : Int} {sbuf : Mem}
    {quiet : Bool} {w : World}
    (h : ((ubifsScan K c lnum offs sbuf quiet).run w).map (·.2.heap.failures) =
      some w.heap.failures) : AllocsSucceed K c lnum offs sbuf quiet w := by
  intro r w' hrun
  rw [hrun] at h
  exact Option.some.inj h

/-- **Acceptance.** A scan succeeds if and only if the block decomposes; the decomposition is then
unique and the result is its view. Otherwise the scan fails with `-EUCLEAN`. -/
theorem ubifsScan_accepts_iff (A : Allocator) (c : UbifsInfo) (lnum offs : Int) (sbuf : Mem)
    (quiet : Bool) (w : World) (hg : Geometry c offs) (hfit : SumsFit sbuf c.lebSize offs)
    (hA : AllocsSucceed (.harness A) c lnum offs sbuf quiet w) :
    ((∃ v, scanOutcome (.harness A) c lnum offs sbuf quiet w = some (.scanned v)) ↔
        ∃ its e, Decomposes sbuf c offs its e) ∧
      (∀ its e, Decomposes sbuf c offs its e →
        scanOutcome (.harness A) c lnum offs sbuf quiet w =
          some (.scanned ⟨lnum, e, (recorded sbuf its).length, recorded sbuf its⟩) ∧
        ∀ its' e', Decomposes sbuf c offs its' e' → its' = its ∧ e' = e) ∧
      ((∀ its e, ¬ Decomposes sbuf c offs its e) →
        scanOutcome (.harness A) c lnum offs sbuf quiet w = some (.failed (-euclean))) := by
  refine ⟨⟨?_, ?_⟩, ?_, scanOutcome_of_not_decomposes hg hfit hA⟩
  · rintro ⟨v, hscan⟩
    obtain ⟨its, e, hdec, -⟩ := decomposes_of_scanned hg hfit hscan
    exact ⟨its, e, hdec⟩
  · rintro ⟨its, e, hdec⟩
    exact ⟨_, scanOutcome_of_decomposes hg hfit hA hdec⟩
  · intro its e hdec
    refine ⟨scanOutcome_of_decomposes hg hfit hA hdec, fun its' e' hdec' => ?_⟩
    exact hdec'.unique hg.leb hg.start hdec

/-- An inode node of 40 bytes, a pad node of 28 with 4 bytes of padding and a run of 8. -/
def sampleBytes : List Byte :=
  [0x31, 0x18, 0x10, 0x06, 0x0b, 0x19, 0xf3, 0x9c, 0x0b, 0x00, 0x00, 0x00, 0x00, 0x00, 0x00, 0x00,
    0x28, 0x00, 0x00, 0x00, 0x00, 0x00, 0x00, 0x00, 0x01, 0x02, 0x03, 0x04, 0x05, 0x06, 0x07, 0x08,
    0x09, 0x0a, 0x0b, 0x0c, 0x0d, 0x0e, 0x0f, 0x10, 0x31, 0x18, 0x10, 0x06, 0xcb, 0x4c, 0x53, 0x57,
    0x0c, 0x00, 0x00, 0x00, 0x00, 0x00, 0x00, 0x00, 0x1c, 0x00, 0x00, 0x00, 0x05, 0x00, 0x00, 0x00,
    0x04, 0x00, 0x00, 0x00, 0x00, 0x00, 0x00, 0x00, 0xce, 0xce, 0xce, 0xce, 0xce, 0xce, 0xce, 0xce]

/-- The sample items in an otherwise empty block. -/
def sampleLeb : Mem := fun i => sampleBytes[i.toNat]?.getD 0xFF#8

def sampleInfo : UbifsInfo := ⟨96, 8⟩

def sampleItems : List Item := [⟨.node, 0, 40⟩, ⟨.pad, 40, 32⟩, ⟨.raw, 72, 8⟩]

theorem sample_geometry : Geometry sampleInfo 0 :=
  ⟨by decide, by decide, by decide, by decide, by decide, 3, by decide, by decide⟩

theorem sample_decomposes : Decomposes sampleLeb sampleInfo 0 sampleItems 80 := by
  decide +kernel

theorem ubifsScan_accepts_sample :
    scanOutcome (.harness .bump) sampleInfo 3 0 sampleLeb true .boot =
      some (.scanned ⟨3, 80, 1, [scanNodeAt sampleLeb 0]⟩) :=
  ((ubifsScan_accepts_iff .bump sampleInfo 3 0 sampleLeb true .boot sample_geometry
    (sample_decomposes.sumsFit sample_geometry) (.of_count (by decide +kernel))).2.1 _ _
      sample_decomposes).1

end UbifsScan
