import UbifsScan.Results.SkipLength

/-!
# What is left on the heap

A scan that fails leaves the heap as it found it; one that succeeds leaves its scan information and
its nodes, which `ubifs_scan_destroy` frees.
-/

namespace UbifsScan

open Mem Program

/-- The heap is as before, and what was allocated in between was freed once. -/
def LeftClean (h h' : Heap) : Prop :=
  h'.live = h.live ∧ Heap.Same h.live h h' ∧
    ∃ events, h'.cells.log = h.cells.log ++ events ∧ Lifetime.Balanced h.live events

/-- The error of a failed scan: that of the read, of a failed allocation, or of a block that needs
recovery. Nothing is read where the first request is refused. -/
inductive FailReason (K : Env) (c : UbifsInfo) (lnum offs : Int) (h h' : Heap) : Int → Prop
  | read (hread : K.ReadFails c lnum offs) (hfail : h'.failures = h.failures) :
      FailReason K c lnum offs h h' (K.readError c lnum offs)
  | nomem (hread : h.Grants K.alloc 1 → ¬ K.ReadFails c lnum offs)
      (hfail : h'.failures = h.failures + 1) : FailReason K c lnum offs h h' (-enomem)
  | euclean (hread : ¬ K.ReadFails c lnum offs) (hfail : h'.failures = h.failures) :
      FailReason K c lnum offs h h' (-euclean)

/-- The new objects are the scan information `sleb` and the `nodes_cnt` nodes of its list. -/
structure LeftScanned (h : Heap) (sleb : Addr) (nodes : List Addr) (h' : Heap) : Prop where
  ring : h'.cells.links.Ring sleb nodes
  visits : Links.walk h'.cells.links.next sleb (nodes.length + 1) (h'.cells.links.next sleb) = nodes
  count : (h'.slebs sleb).nodesCnt = nodes.length
  new : h'.live \ h.live = (sleb :: nodes).toFinset
  card : (h'.live \ h.live).card = nodes.length + 1
  old : h.live ⊆ h'.live
  same : Heap.Same h.live h h'

/-- The objects `objs` were freed, each once and never touched after, and no others. -/
def FreedOnce (base : Heap) (objs : List Addr) (h h' : Heap) : Prop :=
  h'.live = base.live ∧ Heap.Same base.live base h' ∧
    ∃ events, h'.cells.log = h.cells.log ++ events ∧ Lifetime h.live events h'.live ∧
      (∀ a, events.count (.free a) = if a ∈ objs then 1 else 0) ∧
      ∀ before after a, events = before ++ .free a :: after →
        Event.use a ∉ after ∧ Event.free a ∉ after

theorem Released.leftClean {h h' : Heap} (hrel : Released h h') : LeftClean h h' := by
  obtain ⟨hlive, hsame, mid, ⟨grow, htg, hg⟩, ⟨shrink, hts, hs⟩⟩ := hrel
  have htrace := htg.trans hts
  have hlife : Lifetime h.live (grow ++ shrink) h.live := hlive ▸ htrace.life
  exact ⟨hlive, hsame, _, htrace.log, Lifetime.balanced_of_grow_shrink hlife hg hs⟩

theorem Held.leftScanned {h h' : Heap} {sleb : Addr} {nodes : List Addr}
    (hh : Held h sleb nodes h') (hcount : (h'.slebs sleb).nodesCnt = nodes.length) :
    LeftScanned h sleb nodes h' := by
  have hnew : h'.live \ h.live = (sleb :: nodes).toFinset := by
    ext x
    rw [Finset.mem_sdiff, hh.live, List.mem_toFinset]
    constructor
    · rintro ⟨hx | hx, hold⟩
      · exact hx
      · exact absurd hx hold
    · exact fun hx => ⟨.inl hx, hh.fresh x hx⟩
  refine ⟨hh.ring, hh.ring.walk_next (Nat.lt_succ_self _), hcount, hnew, ?_, ?_, hh.same⟩
  · rw [hnew, List.toFinset_card_of_nodup hh.ring.nodup, List.length_cons]
  · exact fun x hx => (hh.live x).mpr (.inr hx)

theorem LeftScanned.listed {h h' : Heap} {sleb : Addr} {nodes : List Addr}
    (hl : LeftScanned h sleb nodes h') : h'.listed sleb = nodes := by
  have hcard := hl.card
  have hle := Finset.card_le_card (Finset.sdiff_subset (s := h'.live) (t := h.live))
  exact hl.ring.walk_next (by omega)

theorem Held.freedOnce {base h h' : Heap} {sleb : Addr} {nodes : List Addr}
    (hh : Held base sleb nodes h) (hd : Destroyed base h h') :
    FreedOnce base (sleb :: nodes) h h' := by
  obtain ⟨events, htrace, hnew⟩ := hd.shrunk
  refine ⟨hd.live, hd.same, events, htrace.log, htrace.life, fun a => ?_, ?_⟩
  · have hl := htrace.life.ledger (a := a)
    rw [List.count_eq_zero_of_not_mem (hnew a)] at hl
    have hlive := hh.live a
    by_cases hmem : a ∈ sleb :: nodes
    · have hout : a ∉ h'.live := hd.live ▸ hh.fresh a hmem
      rw [if_neg hout, if_pos (hlive.mpr (.inl hmem))] at hl
      rw [if_pos hmem]
      omega
    · have hiff : a ∈ h.live ↔ a ∈ h'.live := by
        rw [hlive, hd.live]
        exact ⟨fun hx => hx.resolve_left hmem, .inr⟩
      rw [if_neg hmem]
      by_cases hin : a ∈ h.live
      · rw [if_pos hin, if_pos (hiff.mp hin)] at hl
        omega
      · rw [if_neg hin] at hl
        omega
  · intro before after a heq
    apply Lifetime.dead_after_free (heq ▸ htrace.life)
    exact fun ha => hnew a (by simp [heq, ha])

private theorem failed_clean {K : Env} {c : UbifsInfo} {lnum offs err : Int} {h h' : Heap}
    {P : Prop} (hlo : -4095 ≤ err) (hhi : err < 0) (hrel : Released h h')
    (hreason : FailReason K c lnum offs h h' err) :
    (isErr (errPtr err) = true →
        LeftClean h h' ∧ FailReason K c lnum offs h h' (ptrErr (errPtr err))) ∧
      (isErr (errPtr err) = false → P) := by
  rw [ptrErr_errPtr hlo hhi]
  exact ⟨fun _ => ⟨hrel.leftClean, hreason⟩, fun h => absurd h (not_valid_errPtr hlo hhi)⟩

/-- **Memory.** For any allocator and a flash read that answers 0 or an error number: a scan that
fails leaves the heap as it was, and one that succeeds leaves exactly what `ubifs_scan_destroy` then
frees. -/
theorem ubifsScan_leaves_clean (K : Env) (c : UbifsInfo) (lnum offs : Int) (sbuf : Mem)
    (quiet : Bool) (w : World) (hg : Geometry c offs) (hfit : SumsFit sbuf c.lebSize offs)
    (herr : K.readError c lnum offs = 0 ∨
      -4095 ≤ K.readError c lnum offs ∧ K.readError c lnum offs < 0) :
    Returns (ubifsScan K c lnum offs sbuf quiet) w fun r w' =>
      (isErr r = true → LeftClean w.heap w'.heap ∧
        FailReason K c lnum offs w.heap w'.heap (ptrErr r)) ∧
      (isErr r = false → ¬ K.ReadFails c lnum offs ∧ w'.heap.failures = w.heap.failures ∧
        ∃ nodes, LeftScanned w.heap r nodes w'.heap ∧
          Returns (ubifsScanDestroy r) w' fun _ w'' =>
            FreedOnce w.heap (r :: nodes) w'.heap w''.heap) := by
  apply (returns_ubifsScan hg herr fun _ _ _ _ _ htiles => hfit.skipFits htiles).mono
  rintro r w' ⟨is, -, -, -, hend⟩
  cases hend with
  | @scanned its e nodes sleb hread _ _ hvalid hheld _ hsleb _ hfail =>
      refine ⟨fun herr => absurd (hvalid.symm.trans herr) (by simp), fun _ => ⟨hread, hfail, nodes,
        hheld.leftScanned (by rw [hsleb]), ?_⟩⟩
      apply (returns_ubifsScanDestroy hheld).mono
      rintro ⟨⟩ w'' hd
      exact hheld.freedOnce hd
  | corrupted hread _ hrel hfail =>
      exact failed_clean (by decide) (by decide) hrel (.euclean hread hfail)
  | nomem hread hrel hfail =>
      exact failed_clean (by decide) (by decide) hrel (.nomem hread hfail)
  | unread hread hrel hfail =>
      have hbound := herr.resolve_left hread.1
      exact failed_clean hbound.1 hbound.2 hrel (.read hread hfail)

/-- The node of the sample block, twice. -/
def twoNodes : Mem := fun i =>
  if i < 40 then sampleLeb i else if i < 80 then sampleLeb (i - 40) else 0xFF#8

/-- An allocator that refuses its third request. -/
def refusesThird : Allocator where
  pick n live := if n = 2 then none else Allocator.bump.pick n live
  fresh := by
    intro n live a h
    split at h
    · cases h
    · exact Allocator.bump.fresh h

/-- The flash read fails; the second node is refused; the scan succeeds and is destroyed. -/
theorem sample_leaves_clean :
    (Returns (ubifsScan ⟨.bump, fun _ _ _ _ _ _ => -5⟩ sampleInfo 3 0 sampleLeb true) .boot
      fun r w' => ptrErr r = -5 ∧ LeftClean World.boot.heap w'.heap) ∧
    (Returns (ubifsScan (.harness refusesThird) sampleInfo 3 0 twoNodes true) .boot
      fun r w' => ptrErr r = -12 ∧ w'.heap.failures = 1 ∧ LeftClean World.boot.heap w'.heap) ∧
    Returns (ubifsScan (.harness .bump) sampleInfo 3 0 twoNodes true) .boot
      fun r w' => r = 1 ∧ w'.heap.live = {3, 2, 1} ∧
        Returns (ubifsScanDestroy r) w' fun _ w'' =>
          FreedOnce World.boot.heap [1, 2, 3] w'.heap w''.heap := by
  have hfit := sample_decomposes.sumsFit sample_geometry
  have htwo : Decomposes twoNodes sampleInfo 0 [⟨.node, 0, 40⟩, ⟨.node, 40, 40⟩] 80 := by
    decide +kernel
  have hfit' := htwo.sumsFit sample_geometry
  refine ⟨?_, ?_, ?_⟩
  · have herr : ((ubifsScan ⟨.bump, fun _ _ _ _ _ _ => -5⟩ sampleInfo 3 0 sampleLeb true).run
        .boot).map Prod.fst = some (errPtr (-5)) := by decide +kernel
    obtain ⟨⟨r, w'⟩, hrun, rfl⟩ := Option.map_eq_some_iff.mp herr
    have hspec := (ubifsScan_leaves_clean ⟨.bump, fun _ _ _ _ _ _ => -5⟩ sampleInfo 3 0 sampleLeb
      true .boot sample_geometry hfit (.inr (by decide))).of_run hrun
    exact ⟨errPtr (-5), w', hrun, by decide, (hspec.1 (by decide)).1⟩
  · have herr : ((ubifsScan (.harness refusesThird) sampleInfo 3 0 twoNodes true).run .boot).map
        (fun x => (x.1, x.2.heap.failures)) = some (errPtr (-12), 1) := by decide +kernel
    obtain ⟨⟨r, w'⟩, hrun, hx⟩ := Option.map_eq_some_iff.mp herr
    obtain ⟨rfl, hfail⟩ := Prod.mk.inj hx
    have hspec := (ubifsScan_leaves_clean (.harness refusesThird) sampleInfo 3 0 twoNodes true
      .boot sample_geometry hfit' (.inl rfl)).of_run hrun
    exact ⟨errPtr (-12), w', hrun, by decide, hfail, (hspec.1 (by decide)).1⟩
  · have hrun' : ((ubifsScan (.harness .bump) sampleInfo 3 0 twoNodes true).run .boot).map
        (fun x => (x.1, x.2.heap.live, x.2.heap.listed 1)) =
        some (1, {3, 2, 1}, [2, 3]) := by decide +kernel
    obtain ⟨⟨r, w'⟩, hrun, hx⟩ := Option.map_eq_some_iff.mp hrun'
    simp only [Prod.mk.injEq] at hx
    obtain ⟨rfl, hlive, hlisted⟩ := hx
    have hspec := (ubifsScan_leaves_clean (.harness .bump) sampleInfo 3 0 twoNodes true .boot
      sample_geometry hfit' (.inl rfl)).of_run hrun
    obtain ⟨-, -, nodes, hleft, hdestroy⟩ := hspec.2 (by decide)
    obtain rfl : nodes = [2, 3] := hleft.listed.symm.trans hlisted
    exact ⟨1, w', hrun, rfl, hlive, hdestroy⟩

end UbifsScan
