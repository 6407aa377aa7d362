import UbifsScan.Refinement.Table
import UbifsScan.Results.Acceptance
import Mathlib.Data.Finset.Union

/-!
# Many scans on one heap

A client calls into `scan.c` in any order, on any blocks, and holds several results at a time. To
it they are the entries of a table, each changed by its own calls alone; below it they are lists of
records that share one heap and one allocator. Every session of calls is one of the table, and
whatever is held at its end can be released in any order.
-/

namespace UbifsScan

open Mem Program

/-- The calls into `scan.c`, each with what it is linked against. -/
inductive Call
  | scan (K : Env) (c : UbifsInfo) (lnum offs : Int) (sbuf : Mem) (quiet : Bool)
  | scanANode (c : UbifsInfo) (sbuf : Mem) (buf len lnum offs : Int) (quiet : Bool)
  | startScan (K : Env) (c : UbifsInfo) (lnum offs : Int)
  | addSnod (K : Env) (sleb : Addr) (sbuf : Mem) (buf offs : Int)
  | endScan (c : UbifsInfo) (sleb : Addr) (offs : Int)
  | scannedCorruption (c : UbifsInfo) (lnum offs : Int)
  | scanDestroy (sleb : Addr)

inductive Answer
  | ptr (r : Addr)
  | code (ret : Int)
  | void
  deriving DecidableEq

namespace Call

def run : Call → Program World Answer
  | .scan K c lnum offs sbuf quiet => Answer.ptr <$> ubifsScan K c lnum offs sbuf quiet
  | .scanANode c sbuf buf len lnum offs quiet =>
      Answer.code <$> ubifsScanANode c sbuf buf len lnum offs quiet
  | .startScan K c lnum offs => Answer.ptr <$> ubifsStartScan K c lnum offs
  | .addSnod K sleb sbuf buf offs => Answer.code <$> ubifsAddSnod K sleb sbuf buf offs
  | .endScan c sleb offs => (fun _ => Answer.void) <$> ubifsEndScan c sleb offs
  | .scannedCorruption c lnum offs =>
      (fun _ => Answer.void) <$> ubifsScannedCorruption c lnum offs
  | .scanDestroy sleb => (fun _ => Answer.void) <$> ubifsScanDestroy sleb

/-- What a caller owes: `int` arguments, a flash read that fails with an error number, and calls
on results that it holds. -/
def Allowed (held : Finset Addr) : Call → Prop
  | .scan K c lnum offs _ _ =>
      (K.ReadFails c lnum offs → -4095 ≤ K.readError c lnum offs ∧ K.readError c lnum offs < 0) ∧
        0 ≤ c.lebSize ∧ c.lebSize < 2147483648 ∧ -2147483648 ≤ offs ∧ offs < 2147483648
  | .startScan K c lnum offs =>
      K.ReadFails c lnum offs → -4095 ≤ K.readError c lnum offs ∧ K.readError c lnum offs < 0
  | .addSnod _ sleb _ _ _ => sleb ∈ held
  | .endScan _ sleb _ => sleb ∈ held
  | .scanDestroy sleb => sleb ∈ held
  | .scanANode .. => True
  | .scannedCorruption .. => True

/-- What the caller holds after the call. -/
def heldAfter (held : Finset Addr) : Call → Answer → Finset Addr
  | .scan .., .ptr r => if isErr r then held else insert r held
  | .startScan .., .ptr r => if isErr r then held else insert r held
  | .scanDestroy sleb, _ => held.erase sleb
  | _, _ => held

end Call

/-- One call of a session: what the caller holds changes with the answer. -/
def SessionStep (x : World × Finset Addr) (l : Call × Answer) (y : World × Finset Addr) : Prop :=
  l.1.Allowed x.2 ∧ l.1.run.run x.1 = some (l.2, y.1) ∧ y.2 = l.1.heldAfter x.2 l.2

/-- A table of results, with the number of requests that were refused so far. -/
structure Ledger where
  table : Table
  refused : Nat

/-- The entry of `r` is now `res`. -/
def Ledger.set (s : Ledger) (r : Addr) (res : Option ScanResult) : Ledger :=
  { s with table := Function.update s.table r res }

def Ledger.refuse (s : Ledger) (n : Nat) : Ledger := { s with refused := s.refused + n }

/-- What a call does to the table of results. Only a call on an entry changes it, and a request
that is refused is counted. -/
inductive TableStep (s : Ledger) : Call × Answer → Ledger → Prop
  | scanned {K : Env} {c : UbifsInfo} {lnum offs o : Int} {sbuf : Mem} {quiet : Bool} {r : Addr}
      {res : ScanResult} (hvalid : isErr r = false) (hnew : s.table r = none)
      (hread : ¬ K.ReadFails c lnum offs) (hlnum : res.lnum = lnum)
      (hnodes : Listed sbuf c.lebSize offs res.nodes o)
      (hblock : Geometry c offs → SumsFit sbuf c.lebSize offs →
        ∃ its, Decomposes sbuf c offs its res.endpt ∧ res.nodes = recorded sbuf its) :
      TableStep s (.scan K c lnum offs sbuf quiet, .ptr r) (s.set r (some res))
  | scanFailed {K : Env} {c : UbifsInfo} {lnum offs : Int} {sbuf : Mem} {quiet : Bool} {r : Addr}
      {n : Nat} (herr : isErr r = true) (hwhy : ScanFails K c lnum offs r n)
      (hblock : Geometry c offs → SumsFit sbuf c.lebSize offs → ¬ K.ReadFails c lnum offs →
        n = 0 → r = errPtr (-euclean) ∧ ∀ its e, ¬ Decomposes sbuf c offs its e) :
      TableStep s (.scan K c lnum offs sbuf quiet, .ptr r) (s.refuse n)
  | scannedANode {c : UbifsInfo} {sbuf : Mem} {buf len lnum offs ret : Int} {quiet : Bool}
      (hverdict : 8 ≤ len → len < 2147483648 → Verdict sbuf c.lebSize buf len offs ret) :
      TableStep s (.scanANode c sbuf buf len lnum offs quiet, .code ret) s
  | started {K : Env} {c : UbifsInfo} {lnum offs : Int} {r : Addr} (hvalid : isErr r = false)
      (hnew : s.table r = none) (hread : ¬ K.ReadFails c lnum offs) :
      TableStep s (.startScan K c lnum offs, .ptr r) (s.set r (some ⟨lnum, 0, []⟩))
  | startFailed {K : Env} {c : UbifsInfo} {lnum offs : Int} {r : Addr} {n : Nat}
      (herr : isErr r = true) (hwhy : StartFails K c lnum offs r n) :
      TableStep s (.startScan K c lnum offs, .ptr r) (s.refuse n)
  | added {K : Env} {sleb : Addr} {sbuf : Mem} {buf offs : Int} {res : ScanResult}
      (hsleb : s.table sleb = some res) : TableStep s (.addSnod K sleb sbuf buf offs, .code 0)
        (s.set sleb (some { res with
          nodes := res.nodes ++ [{ scanNodeAt sbuf buf with offs := offs }] }))
  | addFailed {K : Env} {sleb : Addr} {sbuf : Mem} {buf offs : Int} :
      TableStep s (.addSnod K sleb sbuf buf offs, .code (-enomem)) (s.refuse 1)
  | ended {c : UbifsInfo} {sleb : Addr} {offs : Int} {res : ScanResult}
      (hsleb : s.table sleb = some res) (hmod : offs.tmod c.minIoSize = 0) :
      TableStep s (.endScan c sleb offs, .void)
        (s.set sleb (some { res with endpt := endptOf c offs }))
  | reported {c : UbifsInfo} {lnum offs : Int} :
      TableStep s (.scannedCorruption c lnum offs, .void) s
  | destroyed {sleb : Addr} {res : ScanResult} (hsleb : s.table sleb = some res) :
      TableStep s (.scanDestroy sleb, .void) (s.set sleb none)

/-- The heap shows the table of what is held, and what led there since `base` is in its log. -/
structure Serves (base : Heap) (held : Finset Addr) (s : Ledger) (nodes : Addr → List Addr)
    (h : Heap) : Prop where
  holding : Holding base s.table nodes h
  held : ∀ r, r ∈ held ↔ (s.table r).isSome
  refused : h.failures = s.refused
  trace : ∃ events, Heap.Trace base h events

section Call

variable {base h h' : Heap} {held : Finset Addr} {s : Ledger} {nodes : Addr → List Addr}
  {r : Addr} {res : ScanResult} {w : World}

theorem Serves.entry (hs : Serves base held s nodes h) (hr : r ∈ held) :
    ∃ res, s.table r = some res := Option.isSome_iff_exists.mp ((hs.held r).mp hr)

private theorem traced {P : List (Event Addr) → Prop} (ht : ∃ events, Heap.Trace base h events)
    (hon : ∃ events, Heap.Trace h h' events ∧ P events) :
    ∃ events, Heap.Trace base h' events := by
  obtain ⟨events, htrace⟩ := ht
  obtain ⟨events', htrace', -⟩ := hon
  exact ⟨events ++ events', htrace.trans htrace'⟩

theorem Serves.released {n : Nat} (hs : Serves base held s nodes h) (hrel : Released h h')
    (hfail : h'.failures = h.failures + n) : Serves base held (s.refuse n) nodes h' := by
  obtain ⟨hlive, hsame, mid, hgrown, hshrunk⟩ := hrel
  exact ⟨hs.holding.keep hlive hsame, hs.held, hfail.trans (congrArg (· + n) hs.refused),
    traced (traced hs.trace hgrown) hshrunk⟩

theorem Serves.add {as : List Addr} (hs : Serves base held s nodes h) (hheld : Held h r as h')
    (hshows : Shows h' r as res) (hgrown : Heap.Grown h h') (hfail : h'.failures = h.failures) :
    s.table r = none ∧
      Serves base (insert r held) (s.set r (some res)) (Function.update nodes r as) h' := by
  have hnew := hs.holding.none_of_fresh (hheld.fresh r (by simp))
  refine ⟨hnew, hs.holding.add hnew hheld hshows, fun q => ?_, hfail.trans hs.refused,
    traced hs.trace hgrown⟩
  by_cases hqr : q = r
  · simp [Ledger.set, hqr]
  · simp [Ledger.set, hqr, hs.held]

theorem Serves.change {as : List Addr} {old : ScanResult} (hs : Serves base held s nodes h)
    (hr : s.table r = some old) (hheld : Held (h.without (r :: nodes r)) r as h')
    (hshows : Shows h' r as res) (hgrown : Heap.Grown h h') (hfail : h'.failures = h.failures) :
    Serves base held (s.set r (some res)) (Function.update nodes r as) h' := by
  refine ⟨hs.holding.change hr hheld hshows, fun q => ?_, hfail.trans hs.refused,
    traced hs.trace hgrown⟩
  by_cases hqr : q = r
  · simp [Ledger.set, hqr, hs.held, hr]
  · simp [Ledger.set, hqr, hs.held]

theorem Serves.destroy (hs : Serves base held s nodes h) (hr : s.table r = some res)
    (hd : Destroyed (h.without (r :: nodes r)) h h') :
    Serves base (held.erase r) (s.set r none) nodes h' := by
  refine ⟨hs.holding.destroy hr hd, fun q => ?_, hd.failures.trans hs.refused,
    traced hs.trace hd.shrunk⟩
  by_cases hqr : q = r
  · simp [Ledger.set, hqr]
  · simp [Ledger.set, hqr, hs.held]

theorem returns_ubifsScanANode_heap (c : UbifsInfo) (sbuf : Mem) (buf len lnum offs : Int)
    (quiet : Bool) (w : World) :
    Returns (ubifsScanANode c sbuf buf len lnum offs quiet) w fun _ w' => w'.heap = w.heap := by
  simp only [ubifsScanANode, returns_bind, returns_readLe32, returns_readByte, returns_ite,
    returns_pure]
  split
  · rfl
  split
  · simp only [scanPaddingBytes, returns_bind, returns_ite, returns_pure]
    apply (returns_countPadding buf _ _).mono
    rintro k w' ⟨-, -, -, is, hobs, -⟩
    split
    · exact hobs.heap
    · exact hobs.heap
  split
  · rfl
  apply (returns_ubifsCheckNode buf len _).mono
  rintro chk w' ⟨-, is, hobs, -⟩
  have hheap : w'.heap = w.heap := hobs.heap
  simp [World.see, hheap]

theorem Serves.scanANode {c : UbifsInfo} {sbuf : Mem} {buf len lnum offs : Int} {quiet : Bool}
    (hs : Serves base held s nodes w.heap) :
    Ensures (ubifsScanANode c sbuf buf len lnum offs quiet) w fun ret w' => ∃ s' nodes',
      TableStep s (.scanANode c sbuf buf len lnum offs quiet, .code ret) s' ∧
        Serves base held s' nodes' w'.heap := by
  intro ret w' hrun
  have hheap := (returns_ubifsScanANode_heap c sbuf buf len lnum offs quiet w).of_run hrun
  refine ⟨s, nodes, .scannedANode fun h8 hint => ?_, hheap ▸ hs⟩
  exact ((returns_ubifsScanANode c sbuf buf lnum offs quiet h8 hint w).of_run hrun).1

private theorem scanEnd_of_run {K : Env} {c : UbifsInfo} {lnum offs : Int} {sbuf : Mem}
    {quiet : Bool} {w' : World} (hok : ¬ K.ReadFails c lnum offs) (hg : Geometry c offs)
    (hfit : SumsFit sbuf c.lebSize offs)
    (hrun : (ubifsScan K c lnum offs sbuf quiet).run w = some (r, w')) :
    ScanEnd K sbuf c offs lnum w.heap w'.heap r := by
  have herr : K.readError c lnum offs = 0 ∨
      -4095 ≤ K.readError c lnum offs ∧ K.readError c lnum offs < 0 := by
    rw [Env.ReadFails, not_and_or, not_not, not_not] at hok
    refine hok.imp_right fun hbad => ?_
    rw [hbad]
    decide
  obtain ⟨is, -, -, -, hend⟩ := (returns_ubifsScan hg herr
    fun _ _ _ _ _ htiles => hfit.skipFits htiles).of_run hrun
  exact hend

theorem Serves.scan {K : Env} {c : UbifsInfo} {lnum offs : Int} {sbuf : Mem} {quiet : Bool}
    (hs : Serves base held s nodes w.heap)
    (hallow : (Call.scan K c lnum offs sbuf quiet).Allowed held) :
    Ensures (ubifsScan K c lnum offs sbuf quiet) w fun r w' => ∃ s' nodes',
      TableStep s (.scan K c lnum offs sbuf quiet, .ptr r) s' ∧
        Serves base (if isErr r then held else insert r held) s' nodes' w'.heap := by
  obtain ⟨hread, h0, hL, hlo, hhi⟩ := hallow
  intro r w' hrun
  have hbuilt := ensures_ubifsScan_built hread h0 hL hlo hhi r w' hrun
  cases hbuilt with
  | failed herr hwhy hrel hfail =>
      rw [if_pos herr]
      refine ⟨_, nodes, .scanFailed herr hwhy fun hg hfit hok hn => ?_, hs.released hrel hfail⟩
      cases scanEnd_of_run hok hg hfit hrun with
      | scanned _ _ _ hvalid => simp [hvalid] at herr
      | corrupted _ hno => exact ⟨rfl, hno⟩
      | nomem _ _ hfail' => omega
      | unread hbad => exact absurd hbad hok
  | scanned hvalid hok hbuilt hfail =>
      obtain ⟨as, o, e, hheld, hlisted, hsleb, hgrown⟩ := hbuilt
      have hshows : Shows w'.heap r as ⟨lnum, e, as.map w'.heap.snods⟩ := ⟨hsleb, rfl⟩
      obtain ⟨hnew, hserves⟩ := hs.add hheld hshows hgrown hfail
      rw [hvalid]
      refine ⟨_, _, .scanned hvalid hnew hok rfl hlisted fun hg hfit => ?_, hserves⟩
      cases scanEnd_of_run hok hg hfit hrun with
      | @scanned its e' as' _ _ hdec _ _ hheld' hrec hsleb' =>
          have hsame : as' = as := hheld'.listed.symm.trans hheld.listed
          have hend : e' = e := by
            rw [hsleb] at hsleb'
            exact (congrArg ScanLeb.endpt hsleb').symm
          subst hsame hend
          exact ⟨its, hdec, hrec⟩
      | corrupted => exact absurd hvalid (not_valid_errPtr (by decide) (by decide))
      | nomem => exact absurd hvalid (not_valid_errPtr (by decide) (by decide))
      | unread hbad => exact absurd hbad hok

theorem Serves.startScan {K : Env} {c : UbifsInfo} {lnum offs : Int}
    (hs : Serves base held s nodes w.heap)
    (hallow : (Call.startScan K c lnum offs).Allowed held) :
    Ensures (ubifsStartScan K c lnum offs) w fun r w' => ∃ s' nodes',
      TableStep s (.startScan K c lnum offs, .ptr r) s' ∧
        Serves base (if isErr r then held else insert r held) s' nodes' w'.heap := by
  refine (returns_ubifsStartScan K c lnum offs w).ensures.mono ?_
  rintro r w' ⟨-, hstart⟩
  rcases hstart with ⟨hok, hvalid, -, hst⟩ | ⟨rfl, -, hheap⟩ | ⟨hbad, rfl, a, mid, hst, hheap⟩
  · have hshows : Shows w'.heap r [] ⟨lnum, 0, []⟩ := by
      refine ⟨?_, rfl⟩
      rw [hst.slebs, Function.update_self]
      rfl
    obtain ⟨hnew, hserves⟩ := hs.add hst.held hshows hst.grown hst.failures
    rw [hvalid]
    exact ⟨_, _, .started hvalid hnew hok, hserves⟩
  · have herr : isErr (errPtr (-enomem)) := by decide
    rw [herr]
    exact ⟨_, nodes, .startFailed herr .nomem,
      hs.released (hheap ▸ .refused w.heap) (hheap ▸ rfl)⟩
  · have hrange := hallow hbad
    have herr := isErr_errPtr hrange.1 hrange.2
    rw [herr]
    exact ⟨_, nodes, .startFailed herr (.unread hbad),
      hs.released (hheap ▸ .of_held hst.held hst.grown) (hheap ▸ hst.failures)⟩

theorem Serves.addSnod {K : Env} {sleb : Addr} {sbuf : Mem} {buf offs : Int}
    (hs : Serves base held s nodes w.heap) (hsleb : sleb ∈ held) :
    Ensures (ubifsAddSnod K sleb sbuf buf offs) w fun ret w' => ∃ s' nodes',
      TableStep s (.addSnod K sleb sbuf buf offs, .code ret) s' ∧
        Serves base held s' nodes' w'.heap := by
  obtain ⟨res, hres⟩ := hs.entry hsleb
  have hheld := hs.holding.held hres
  have hshows := hs.holding.shows sleb res hres
  refine (returns_ubifsAddSnod K sleb sbuf buf offs w).ensures.mono ?_
  rintro ret w' (⟨rfl, a, is, -, hadd, -, -⟩ | ⟨rfl, -, rfl⟩)
  · have hshows' : Shows w'.heap sleb (nodes sleb ++ [a])
        { res with nodes := res.nodes ++ [{ scanNodeAt sbuf buf with offs := offs }] } := by
      refine ⟨?_, ?_⟩
      · rw [hadd.slebs, Function.update_self, hshows.sleb]
        simp [wrap32_wrap32_add]
      · rw [hadd.records hheld, hshows.nodes]
    exact ⟨_, _, .added hres,
      hs.change hres (hadd.held hheld) hshows' (hadd.grown hheld) hadd.failures⟩
  · exact ⟨_, nodes, .addFailed, hs.released (.refused w.heap) rfl⟩

theorem Serves.endScan {c : UbifsInfo} {sleb : Addr} {offs : Int}
    (hs : Serves base held s nodes w.heap) (hsleb : sleb ∈ held) :
    Ensures (ubifsEndScan c sleb offs) w fun _ w' => ∃ s' nodes',
      TableStep s (.endScan c sleb offs, .void) s' ∧ Serves base held s' nodes' w'.heap := by
  obtain ⟨res, hres⟩ := hs.entry hsleb
  have hheld := hs.holding.held hres
  have hshows := hs.holding.shows sleb res hres
  refine (ensures_ubifsEndScan c sleb offs w).mono ?_
  rintro ⟨⟩ w' ⟨hmod, hend⟩
  have hheap : w'.heap = w.heap.ended sleb (endptOf c offs) := congrArg World.heap hend
  have hshows' : Shows w'.heap sleb (nodes sleb) { res with endpt := endptOf c offs } := by
    rw [hheap]
    refine ⟨?_, hshows.nodes⟩
    simp [Heap.ended, hshows.sleb]
  have hgrown : Heap.Grown w.heap w'.heap := hheap ▸ ⟨_, hheld.trace_ended _, by simp⟩
  exact ⟨_, _, .ended hres hmod,
    hs.change hres (hheap ▸ hheld.ended _) hshows' hgrown (hheap ▸ rfl)⟩

theorem Serves.scanDestroy {sleb : Addr} (hs : Serves base held s nodes w.heap)
    (hsleb : sleb ∈ held) :
    Returns (ubifsScanDestroy sleb) w fun _ w' => ∃ s',
      TableStep s (.scanDestroy sleb, .void) s' ∧
        Serves base (held.erase sleb) s' nodes w'.heap := by
  obtain ⟨res, hres⟩ := hs.entry hsleb
  apply (returns_ubifsScanDestroy (hs.holding.held hres)).mono
  intro _ w' hd
  exact ⟨_, .destroyed hres, hs.destroy hres hd⟩

private theorem ensures_map {α β : Type} {p : Program World α} {f : α → β}
    {Q : β → World → Prop} (h : Ensures p w fun a w' => Q (f a) w') : Ensures (f <$> p) w Q := by
  rw [map_eq_pure_bind]
  exact ensures_bind (h.mono fun _ _ hq => ensures_pure hq)

/-- **One call on the heap is one step of the table.** -/
theorem Serves.call {call : Call} (hs : Serves base held s nodes w.heap)
    (hallow : call.Allowed held) :
    Ensures call.run w fun ans w' => ∃ s' nodes', TableStep s (call, ans) s' ∧
      Serves base (call.heldAfter held ans) s' nodes' w'.heap := by
  cases call with
  | scan K c lnum offs sbuf quiet => exact ensures_map (hs.scan hallow)
  | scanANode c sbuf buf len lnum offs quiet => exact ensures_map hs.scanANode
  | startScan K c lnum offs => exact ensures_map (hs.startScan hallow)
  | addSnod K sleb sbuf buf offs => exact ensures_map (hs.addSnod hallow)
  | endScan c sleb offs => exact ensures_map (hs.endScan hallow)
  | scannedCorruption c lnum offs =>
      refine ensures_map (Returns.ensures ?_)
      simp only [ubifsScannedCorruption, returns_bind, returns_ubifsErr]
      exact ⟨s, nodes, .reported, ⟨hs.holding, hs.held, hs.refused, hs.trace⟩⟩
  | scanDestroy sleb =>
      refine ensures_map ((hs.scanDestroy hallow).ensures.mono fun _ w' h => ?_)
      obtain ⟨s', hstep, hs'⟩ := h
      exact ⟨s', nodes, hstep, hs'⟩

end Call

/-- The records at `r`: its scan information and the nodes on its list. -/
def Heap.records (h : Heap) (r : Addr) : Finset Addr := (r :: h.listed r).toFinset

/-- What the holder of `held` has in the world `w`, when it began in `w₀` with nothing and the table
has come to `s.table`. -/
structure SessionHolds (w₀ w : World) (held : Finset Addr) (s : Ledger) : Prop where
  entries : ∀ r, r ∈ held ↔ (s.table r).isSome
  view : ∀ r res, s.table r = some res → w.heap.view r = res.view
  ring : ∀ r ∈ held, w.heap.cells.links.Ring r (w.heap.listed r)
  live : w.heap.live = w₀.heap.live ∪ held.biUnion w.heap.records
  apart : ∀ r ∈ held, ∀ q ∈ held, r ≠ q → Disjoint (w.heap.records r) (w.heap.records q)
  fresh : ∀ r ∈ held, Disjoint w₀.heap.live (w.heap.records r)
  same : Heap.Same w₀.heap.live w₀.heap w.heap
  refused : w.heap.failures = s.refused
  life : ∃ events, w.heap.cells.log = w₀.heap.cells.log ++ events ∧
    Lifetime w₀.heap.live events w.heap.live

section Session

variable {w₀ w : World} {held : Finset Addr} {labels : List (Call × Answer)} {s : Ledger}
  {nodes : Addr → List Addr} {base h : Heap}

theorem Serves.listed (hs : Serves base held s nodes h) {r : Addr} (hr : r ∈ held) :
    h.listed r = nodes r := by
  obtain ⟨res, hres⟩ := hs.entry hr
  exact (hs.holding.held hres).listed

theorem Serves.mem_records (hs : Serves base held s nodes h) {r a : Addr} :
    a ∈ s.table.objs nodes r ↔ r ∈ held ∧ a ∈ h.records r := by
  by_cases hr : r ∈ held
  · obtain ⟨res, hres⟩ := hs.entry hr
    simp [Table.objs_some hres, Heap.records, hs.listed hr, hr]
  · have hnone : s.table r = none := by
      simpa using (hs.held r).not.mp hr
    simp [Table.objs_none hnone, hr]

theorem Serves.live_eq (hs : Serves base held s nodes h) :
    h.live = base.live ∪ held.biUnion h.records := by
  ext a
  rw [hs.holding.live, Finset.mem_union, Finset.mem_biUnion]
  exact or_congr_right (exists_congr fun r => hs.mem_records)

theorem Serves.start (w₀ : World) (nodes : Addr → List Addr) :
    Serves w₀.heap ∅ ⟨.empty, w₀.heap.failures⟩ nodes w₀.heap :=
  ⟨.empty w₀.heap nodes, by simp [Table.empty], rfl, [], by simp, .nil _⟩

theorem Serves.holds (hs : Serves w₀.heap held s nodes w.heap) : SessionHolds w₀ w held s where
  entries := hs.held
  view _ _ hr := hs.holding.view hr
  ring r hr := by
    obtain ⟨res, hres⟩ := hs.entry hr
    rw [hs.listed hr]
    exact hs.holding.ring r res hres
  live := hs.live_eq
  apart r hr q hq hne := by
    rw [Finset.disjoint_left]
    exact fun a ha ha' => hs.holding.apart r q hne a (hs.mem_records.mpr ⟨hr, ha⟩)
      (hs.mem_records.mpr ⟨hq, ha'⟩)
  fresh r hr := by
    rw [Finset.disjoint_right]
    exact fun a ha => hs.holding.fresh r a (hs.mem_records.mpr ⟨hr, ha⟩)
  same := hs.holding.same
  refused := hs.refused
  life := by
    obtain ⟨events, htrace⟩ := hs.trace
    exact ⟨events, htrace.log, htrace.life⟩

theorem session_serves (h : Steps SessionStep (w₀, ∅) labels (w, held)) :
    ∃ s nodes, Steps TableStep ⟨.empty, w₀.heap.failures⟩ labels s ∧
      Serves w₀.heap held s nodes w.heap := by
  have hsim := h.simulate TableStep
    (fun (x : World × Finset Addr) s => ∃ nodes, Serves w₀.heap x.2 s nodes x.1.heap)
    ?_ ⟨fun _ => [], Serves.start w₀ _⟩
  · obtain ⟨s, hsteps, nodes, hs⟩ := hsim
    exact ⟨s, nodes, hsteps, hs⟩
  · rintro ⟨x, held⟩ ⟨call, ans⟩ ⟨y, held'⟩ s ⟨hallow, hrun, rfl⟩ ⟨nodes, hs⟩
    obtain ⟨s', nodes', hstep, hs'⟩ := hs.call hallow ans y hrun
    exact ⟨s', hstep, nodes', hs'⟩

/-- **A heap of many scans is a table of values.** Whatever calls a client makes, in any order and
on any blocks, from any heap: what it holds are the entries of a table that each call changes at
its own entry only; exactly their records are live besides what was there before, which stays as it
was; and nothing was ever used or freed after its free. -/
theorem session_refines_table (h : Steps SessionStep (w₀, ∅) labels (w, held)) :
    ∃ s, Steps TableStep ⟨.empty, w₀.heap.failures⟩ labels s ∧ SessionHolds w₀ w held s := by
  obtain ⟨s, nodes, hsteps, hs⟩ := session_serves h
  exact ⟨s, hsteps, hs.holds⟩

private theorem returns_destroyAll (hs : Serves base held s nodes w.heap) {order : List Addr}
    (hnd : order.Nodup) (hmem : ∀ r, r ∈ order ↔ r ∈ held) :
    Returns (order.forM ubifsScanDestroy) w fun _ w' => ∃ s',
      Serves base ∅ s' nodes w'.heap := by
  induction order generalizing held s w with
  | nil =>
      have hnone : held = ∅ := Finset.eq_empty_of_forall_notMem fun r hr => by
        simpa using (hmem r).mpr hr
      subst hnone
      simpa using ⟨s, hs⟩
  | cons r order ih =>
      obtain ⟨hr, hnd⟩ := List.nodup_cons.mp hnd
      simp only [List.forM_eq_forM, List.forM_cons, returns_bind]
      apply (hs.scanDestroy ((hmem r).mp List.mem_cons_self)).mono
      rintro ⟨⟩ w' ⟨s', -, hs'⟩
      refine ih hs' hnd fun q => ?_
      rw [Finset.mem_erase, ← hmem q, List.mem_cons]
      constructor
      · exact fun hq => ⟨fun hqr => hr (hqr ▸ hq), .inr hq⟩
      · exact fun hq => hq.2.resolve_left hq.1

/-- **Whatever a session holds can be released, in any order**: `ubifs_scan_destroy` on each result
returns, and then the heap is as it was before the session and every object that the session
allocated was freed as often. -/
theorem session_releases (h : Steps SessionStep (w₀, ∅) labels (w, held)) {order : List Addr}
    (hnd : order.Nodup) (hmem : ∀ r, r ∈ order ↔ r ∈ held) :
    Returns (order.forM ubifsScanDestroy) w fun _ w' =>
      w'.heap.live = w₀.heap.live ∧ Heap.Same w₀.heap.live w₀.heap w'.heap ∧
        ∃ events, w'.heap.cells.log = w₀.heap.cells.log ++ events ∧
          Lifetime w₀.heap.live events w₀.heap.live ∧
          ∀ a, events.count (.free a) = events.count (.alloc a) := by
  obtain ⟨s, nodes, -, hs⟩ := session_serves h
  apply (returns_destroyAll hs hnd hmem).mono
  rintro ⟨⟩ w' ⟨s', hs'⟩
  have hlive : w'.heap.live = w₀.heap.live := by simpa using hs'.live_eq
  obtain ⟨events, htrace⟩ := hs'.trace
  have hlife : Lifetime w₀.heap.live events w₀.heap.live := hlive ▸ htrace.life
  refine ⟨hlive, hs'.holding.same, events, htrace.log, hlife, fun a => ?_⟩
  have hledger := hlife.ledger (a := a)
  omega

end Session

/-- The sample block is scanned, and another scan is started. -/
def sampleCalls : List (Call × Answer) :=
  [(.scan (.harness .bump) sampleInfo 3 0 sampleLeb true, .ptr 1),
    (.startScan (.harness .bump) sampleInfo 4 0, .ptr 3)]

private theorem sample_session :
    ∃ w, Steps SessionStep (World.boot, ∅) sampleCalls (w, {3, 1}) ∧
      w.heap.view 1 = ⟨3, 80, 1, [scanNodeAt sampleLeb 0]⟩ ∧ w.heap.view 3 = ⟨4, 0, 0, []⟩ ∧
      w.heap.live = {3, 2, 1} := by
  have hans : ((do
      let a ← (Call.scan (.harness .bump) sampleInfo 3 0 sampleLeb true).run
      let b ← (Call.startScan (.harness .bump) sampleInfo 4 0).run
      return (a, b)).run World.boot).map (fun r : (Answer × Answer) × World =>
        (r.1, r.2.heap.view 1, r.2.heap.view 3, r.2.heap.live)) =
      some ((.ptr 1, .ptr 3), ⟨3, 80, 1, [scanNodeAt sampleLeb 0]⟩, ⟨4, 0, 0, []⟩, {3, 2, 1}) := by
    decide +kernel
  obtain ⟨⟨ans, w⟩, hrun, hshows⟩ := Option.map_eq_some_iff.mp hans
  rw [StateT.run_bind] at hrun
  obtain ⟨⟨a, w₁⟩, hscan, hrun⟩ := Option.bind_eq_some_iff.mp hrun
  rw [StateT.run_bind] at hrun
  obtain ⟨⟨b, w₂⟩, hstart, hrun⟩ := Option.bind_eq_some_iff.mp hrun
  cases hrun
  simp only [Prod.mk.injEq] at hshows
  obtain ⟨⟨rfl, rfl⟩, hfirst, hsecond, hlive⟩ := hshows
  have hread : ∀ lnum, (Env.harness .bump).ReadFails sampleInfo lnum 0 →
      -4095 ≤ (Env.harness .bump).readError sampleInfo lnum 0 ∧
        (Env.harness .bump).readError sampleInfo lnum 0 < 0 :=
    fun lnum hbad => absurd (harness_reads .bump sampleInfo lnum 0) hbad.1
  refine ⟨w₂, .cons (t := (w₁, {1})) ⟨⟨hread 3, ?_⟩, hscan, rfl⟩
    (.cons ⟨hread 4, hstart, rfl⟩ (.nil _)), hfirst, hsecond, hlive⟩
  decide

theorem sample_session_refines : ∃ w s, Steps TableStep ⟨.empty, 0⟩ sampleCalls s ∧
    SessionHolds .boot w {3, 1} s ∧ s.table 1 = some ⟨3, 80, [scanNodeAt sampleLeb 0]⟩ ∧
    s.table 3 = some ⟨4, 0, []⟩ ∧ w.heap.live = {3, 2, 1} := by
  obtain ⟨w, h, hfirst, hsecond, hlive⟩ := sample_session
  obtain ⟨s, hsteps, hholds⟩ := session_refines_table h
  obtain ⟨first, hone⟩ := Option.isSome_iff_exists.mp ((hholds.entries 1).mp (by decide))
  obtain ⟨second, hthree⟩ := Option.isSome_iff_exists.mp ((hholds.entries 3).mp (by decide))
  have hview := (hholds.view 1 first hone).symm.trans hfirst
  have hview' := (hholds.view 3 second hthree).symm.trans hsecond
  simp only [ScanResult.view, LebView.mk.injEq] at hview hview'
  refine ⟨w, s, hsteps, hholds, ?_, ?_, hlive⟩
  · rw [hone, ← hview.1, ← hview.2.1, ← hview.2.2.2]
  · rw [hthree, ← hview'.1, ← hview'.2.1, ← hview'.2.2.2]

theorem sample_session_releases : ∃ w, w.heap.live = {3, 2, 1} ∧
    Returns ([1, 3].forM ubifsScanDestroy) w fun _ w' => w'.heap.live = ∅ := by
  obtain ⟨w, h, -, -, hlive⟩ := sample_session
  have hmem : ∀ r, r ∈ [1, 3] ↔ r ∈ ({3, 1} : Finset Addr) := by
    intro r
    simp [or_comm]
  exact ⟨w, hlive, (session_releases h (by decide) hmem).mono fun _ _ hend => hend.1⟩

end UbifsScan
