import UbifsScan.Results.Acceptance

/-!
# What is read

The scan stays inside the block except at a header that is checked to lie inside it, and whose
padding length or key does not.
-/

namespace UbifsScan

open Mem Program

/-- No pad node that the scan comes to stands 24 bytes before the end of the block, and no keyed
node that it allocates 24 or 32 bytes before it. -/
def HeadersClear (A : Allocator) (h : Heap) (m : Mem) (L a : Int) : Prop :=
  ∀ its o, Tiles m L a its o →
    (h.GrantsAfter A its 0 → IsPadHeader m o (L - o) → L - o ≠ 24) ∧
      (h.GrantsAfter A its 1 → IsKeyedHeader m o (L - o) → L - o ≠ 24 ∧ L - o ≠ 32)

private theorem overread_inside {A : Allocator} {h : Heap} {m : Mem} {L a o i : Int}
    {its : List Item} (hL : L % 8 = 0) (ha : a % 8 = 0) (hclear : HeadersClear A h m L a)
    (htiles : Tiles m L a its o) (hover : Overread (h.GrantsAfter A its) m L o i) : i < L := by
  have h8 := htiles.aligned ha
  obtain ⟨hpad, hkey⟩ := hclear its o htiles
  rcases hover with ⟨hgrant, hheader, hlt⟩ | ⟨hgrant, hheader, hlt⟩
  · have hroom := hheader.1.room
    have hne := hpad hgrant hheader
    omega
  · have hroom := hheader.1.room
    have hne := hkey hgrant hheader
    omega

private theorem scanReads_eq {K : Env} {c : UbifsInfo} {lnum offs : Int} {sbuf : Mem}
    {quiet : Bool} {w w' : World} {r : Addr} {is : List Int}
    (hrun : (ubifsScan K c lnum offs sbuf quiet).run w = some (r, w'))
    (hreads : w'.reads = w.reads ++ is) : scanReads K c lnum offs sbuf quiet w = is := by
  simp [scanReads, hrun, hreads]

/-- **Reads.** Every byte read lies between the start of the scan and the end of the block if and
only if no such header comes too close to the end. -/
theorem ubifsScan_reads_inside_iff (A : Allocator) (c : UbifsInfo) (lnum offs : Int) (sbuf : Mem)
    (quiet : Bool) (w : World) (hg : Geometry c offs) (hfit : SumsFit sbuf c.lebSize offs) :
    (∀ i ∈ scanReads (.harness A) c lnum offs sbuf quiet w, offs ≤ i ∧ i < c.lebSize) ↔
      HeadersClear A w.heap sbuf c.lebSize offs := by
  obtain ⟨r, w', hrun, is, hreads, hin, htouched, -⟩ := harness_scan A lnum quiet w hg hfit
  have htouch := htouched fun hread => absurd (harness_reads A c lnum offs) hread.1
  rw [scanReads_eq hrun hreads]
  constructor
  · intro hall its o htiles
    have ht := htouch its o htiles
    constructor
    · intro hgrant hpad
      have hlt := (hall _ (ht.pad hgrant hpad)).2
      omega
    · intro hgrant hkey
      have hlt := (hall _ (ht.key hgrant hkey)).2
      omega
  · intro hclear i hi
    obtain ⟨hlo, hlt | ⟨its, o, htiles, hover⟩⟩ := hin i hi
    · exact ⟨hlo, hlt⟩
    · exact ⟨hlo, overread_inside hg.leb hg.start hclear htiles hover⟩

theorem sample_headersClear : HeadersClear .bump World.boot.heap sampleLeb 96 0 :=
  (ubifsScan_reads_inside_iff .bump sampleInfo 3 0 sampleLeb true .boot sample_geometry
    (sample_decomposes.sumsFit sample_geometry)).mp (by decide +kernel)

/-- A block that is one inode header of 24 bytes, with the right CRC. -/
def bareInodeLeb : Mem :=
  let header : List Byte :=
    [0x31, 0x18, 0x10, 0x06, 0xbe, 0x99, 0x1c, 0xbe, 0x07, 0x00, 0x00, 0x00, 0x00, 0x00, 0x00, 0x00,
      0x18, 0x00, 0x00, 0x00, 0x00, 0x00, 0x00, 0x00]
  fun i => header[i.toNat]?.getD 0#8

/-- The scan accepts the block and reads the key from behind its end. -/
theorem ubifsScan_reads_outside :
    Geometry ⟨24, 8⟩ 0 ∧ SumsFit bareInodeLeb 24 0 ∧
      ¬ ∀ i ∈ scanReads (.harness .bump) ⟨24, 8⟩ 3 0 bareInodeLeb true .boot, 0 ≤ i ∧ i < 24 := by
  have hg : Geometry ⟨24, 8⟩ 0 :=
    ⟨by decide, by decide, by decide, by decide, by decide, 3, by decide, by decide⟩
  have hdec : Decomposes bareInodeLeb ⟨24, 8⟩ 0 [⟨.node, 0, 24⟩] 24 := by decide +kernel
  exact ⟨hg, hdec.sumsFit hg, by decide +kernel⟩

end UbifsScan
