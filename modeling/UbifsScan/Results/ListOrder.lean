import UbifsScan.Results.Headers

/-!
# The list lies in the block

Whatever the bytes of a block, sizes that are not aligned and pad sums that overflow included: the
nodes on the list of a scan that succeeds lie one behind the other between the start of the scan
and the end of the block.
-/

namespace UbifsScan

open Mem Program

/-- The node `snod` stands in the bytes from `a` to `L`, with an accepted header of its own that is
not a pad node's. -/
structure InBlock (m : Mem) (L a : Int) (snod : ScanNode) : Prop where
  lo : a ≤ snod.offs
  hi : snod.offs + snod.len ≤ L
  size : 24 ≤ snod.len
  place : snod.node = snod.offs
  type : snod.type ≠ NodeType.pad.code.toNat
  header : IsHeader m snod.offs (L - snod.offs)
  fields : snod = scanNodeAt m snod.offs

section Listed

variable {m : Mem} {L start o : Int} {snods : List ScanNode} {snod : ScanNode}

theorem Accepted.inBlock (h : Accepted m L snod)
    (htype : chNodeType m snod.offs ≠ NodeType.pad.code)
    (hlo : start ≤ snod.offs) : InBlock m L start snod := by
  have hlen : snod.len = (chLen m snod.offs).toInt := congrArg ScanNode.len h.eq
  have htyp : snod.type = (chNodeType m snod.offs).toNat := congrArg ScanNode.type h.eq
  have h24 := h.header.lo
  have hhi := h.header.hi
  simp only [ubifsChSz] at h24
  refine ⟨hlo, by omega, by omega, congrArg ScanNode.node h.eq, fun heq => htype ?_, h.header, h.eq⟩
  rw [htyp] at heq
  exact BitVec.eq_of_toNat_eq (Int.ofNat.inj heq)

theorem InBlock.mono {a : Int} (h : InBlock m L start snod) (ha : a ≤ start) :
    InBlock m L a snod := { h with lo := ha.trans h.lo }

theorem Listed.inBlock (h : Listed m L start snods o) : ∀ snod ∈ snods, InBlock m L start snod := by
  induction snods generalizing start with
  | nil => simp
  | cons snod snods ih =>
      obtain ⟨hlo, hacc, htype, hrest⟩ := h
      have hhead := hacc.inBlock htype hlo
      have h24 := hhead.size
      rw [List.forall_mem_cons]
      exact ⟨hhead, fun next hnext => (ih hrest next hnext).mono (by omega)⟩

theorem Listed.pairwise (h : Listed m L start snods o) :
    snods.Pairwise fun snod next => snod.offs + snod.len ≤ next.offs := by
  induction snods generalizing start with
  | nil => exact .nil
  | cons snod snods ih =>
      exact .cons (fun next hnext => (Listed.inBlock h.2.2.2 next hnext).lo) (ih h.2.2.2)

theorem Listed.sum_len_le (h : Listed m L start snods o) (hne : snods ≠ []) :
    24 * (snods.length : Int) ≤ (snods.map ScanNode.len).sum ∧
      (snods.map ScanNode.len).sum ≤ L - start := by
  induction snods generalizing start with
  | nil => exact absurd rfl hne
  | cons snod snods ih =>
      have hhead := Listed.inBlock h snod List.mem_cons_self
      have h24 := hhead.size
      have hlo := hhead.lo
      have hhi := hhead.hi
      simp only [List.map_cons, List.sum_cons, List.length_cons]
      by_cases hlast : snods = []
      · subst hlast
        simp only [List.map_nil, List.sum_nil, List.length_nil]
        omega
      · have hrest := ih h.2.2.2 hlast
        omega

theorem Listed.count_fits (h : Listed m L start snods o) (hL : L < 2147483648)
    (hstart : -2147483648 ≤ start) : wrap32 snods.length = snods.length := by
  by_cases hne : snods = []
  · rw [hne]
    rfl
  · have hsum := h.sum_len_le hne
    exact wrap32_of_fits (by omega) (by omega)

end Listed

/-- **The list lies in the block.** For every call, on any bytes and with any allocator: if the scan
succeeds, its list is as long as it says, its nodes have accepted headers inside the block, and no
two of them overlap. -/
theorem ubifsScan_list_in_block (call : ScanCall) (sbuf : Mem) (v : LebView)
    (hscan : call.outcome sbuf = some (.scanned v)) :
    v.lnum = call.lnum ∧ v.nodesCnt = v.nodes.length ∧
      (∀ snod ∈ v.nodes, InBlock sbuf call.info.lebSize call.offs snod) ∧
      v.nodes.Pairwise (fun snod next => snod.offs + snod.len ≤ next.offs) ∧
      (v.nodes ≠ [] → 24 * v.nodesCnt ≤ (v.nodes.map ScanNode.len).sum ∧
        (v.nodes.map ScanNode.len).sum ≤ call.info.lebSize - call.offs) := by
  obtain ⟨⟨r, w'⟩, hrun, hout⟩ := Option.map_eq_some_iff.mp hscan
  have hend := ensures_ubifsScan_built call.errno call.size call.sizeInt call.offsInt.1
    call.offsInt.2 r w' hrun
  cases hend with
  | failed herr _ _ _ =>
      rw [Heap.outcome, if_pos herr] at hout
      cases hout
  | scanned hvalid _ hbuilt _ =>
      obtain ⟨nodes, o, e, hheld, hlisted, hsleb, -⟩ := hbuilt
      rw [Heap.outcome, hvalid] at hout
      obtain rfl := Outcome.scanned.inj hout
      have hfits := hlisted.count_fits call.sizeInt call.offsInt.1
      have hcnt : (w'.heap.view r).nodesCnt = (nodes.map w'.heap.snods).length := by
        rw [← hfits, List.length_map]
        simp [Heap.view, hsleb]
      have hlnum : (w'.heap.view r).lnum = call.lnum := by
        simp [Heap.view, hsleb]
      rw [hheld.view_nodes, hcnt]
      exact ⟨hlnum, rfl, hlisted.inBlock, hlisted.pairwise, hlisted.sum_len_le⟩

/-- A call that scans 40 bytes of a block, neither of whose ends is aligned. -/
def oddCall : ScanCall where
  env := .harness .bump
  info := ⟨45, 1⟩
  lnum := 3
  offs := 5
  quiet := true
  world := .boot
  errno := fun h => absurd rfl h.1
  size := by decide
  sizeInt := by decide
  offsInt := by decide

/-- The node of the sample block, five bytes further on. -/
def oddNode : Mem := fun i => if i < 45 then sampleLeb (i - 5) else 0xFF#8

theorem sample_list_in_block :
    oddCall.outcome oddNode = some (.scanned ⟨3, 45, 1, [scanNodeAt oddNode 5]⟩) ∧
      InBlock oddNode 45 5 (scanNodeAt oddNode 5) := by
  have hscan : oddCall.outcome oddNode =
      some (.scanned ⟨3, 45, 1, [scanNodeAt oddNode 5]⟩) := by decide +kernel
  have hlist := ubifsScan_list_in_block oddCall oddNode _ hscan
  exact ⟨hscan, hlist.2.2.1 _ (List.mem_singleton.mpr rfl)⟩

end UbifsScan
