import UbifsScan.Refinement.Node

/-!
# The heap of a scan

What a scan keeps on the heap: its scan information and the list of its nodes, allocated since it
began, with everything older untouched. `ubifs_start_scan` sets this up, `ubifs_add_snod` extends
it and `ubifs_scan_destroy` takes it down.
-/

namespace UbifsScan

open Mem Program

/-- The objects `objs` are the same in both heaps. -/
structure Heap.Same (objs : Finset Addr) (h h' : Heap) : Prop where
  next : ∀ a ∈ objs, h'.cells.links.next a = h.cells.links.next a
  prev : ∀ a ∈ objs, h'.cells.links.prev a = h.cells.links.prev a
  sleb : ∀ a ∈ objs, h'.slebs a = h.slebs a
  snod : ∀ a ∈ objs, h'.snods a = h.snods a

/-- The events from one heap to the other, each on a live object. -/
structure Heap.Trace (h h' : Heap) (events : List (Event Addr)) : Prop where
  log : h'.cells.log = h.cells.log ++ events
  life : Lifetime h.live events h'.live

theorem Heap.Trace.trans {h h' h'' : Heap} {events events' : List (Event Addr)}
    (ht : Heap.Trace h h' events) (ht' : Heap.Trace h' h'' events') :
    Heap.Trace h h'' (events ++ events') :=
  ⟨by rw [ht'.log, ht.log, List.append_assoc], ht.life.append ht'.life⟩

/-- Nothing was freed on the way. -/
def Heap.Grown (h h' : Heap) : Prop :=
  ∃ events, Heap.Trace h h' events ∧ ∀ a, Event.free a ∉ events

/-- Nothing was allocated on the way. -/
def Heap.Shrunk (h h' : Heap) : Prop :=
  ∃ events, Heap.Trace h h' events ∧ ∀ a, Event.alloc a ∉ events

theorem Heap.Grown.refl (h : Heap) : Heap.Grown h h := ⟨[], ⟨by simp, .nil _⟩, by simp⟩

theorem Heap.Grown.trans {h h' h'' : Heap} (hg : Heap.Grown h h') (hg' : Heap.Grown h' h'') :
    Heap.Grown h h'' := by
  obtain ⟨events, ht, hf⟩ := hg
  obtain ⟨events', ht', hf'⟩ := hg'
  refine ⟨events ++ events', ht.trans ht', fun a ha => ?_⟩
  rcases List.mem_append.mp ha with ha | ha
  · exact hf a ha
  · exact hf' a ha

theorem Heap.Shrunk.trans {h h' h'' : Heap} (hs : Heap.Shrunk h h') (hs' : Heap.Shrunk h' h'') :
    Heap.Shrunk h h'' := by
  obtain ⟨events, ht, hf⟩ := hs
  obtain ⟨events', ht', hf'⟩ := hs'
  refine ⟨events ++ events', ht.trans ht', fun a ha => ?_⟩
  rcases List.mem_append.mp ha with ha | ha
  · exact hf a ha
  · exact hf' a ha

private theorem no_free_uses (as : List Addr) (a : Addr) : Event.free a ∉ as.map Event.use := by
  simp

theorem Heap.Grown.refused {h h' : Heap} (hg : Heap.Grown h h') : Heap.Grown h h'.refused := by
  obtain ⟨events, ht, hf⟩ := hg
  exact ⟨events, ⟨ht.log, ht.life⟩, hf⟩

/-- The allocator grants `n` requests in a row, on a heap that has seen `attempts` requests and
holds the objects `live`. -/
def Allocator.Grants (A : Allocator) : Nat → Nat → Finset Addr → Prop
  | 0, _, _ => True
  | n + 1, attempts, live =>
      ∃ a, A.pick attempts live = some a ∧ A.Grants n (attempts + 1) (insert a live)

/-- The allocator grants the next `n` requests. -/
def Heap.Grants (h : Heap) (A : Allocator) (n : Nat) : Prop := A.Grants n h.attempts h.live

theorem Allocator.Grants.mono {A : Allocator} {n k attempts : Nat} {live : Finset Addr}
    (h : A.Grants n attempts live) (hk : k ≤ n) : A.Grants k attempts live := by
  induction n generalizing k attempts live with
  | zero =>
      obtain rfl : k = 0 := Nat.le_zero.mp hk
      trivial
  | succ n ih =>
      cases k with
      | zero => trivial
      | succ k =>
          obtain ⟨a, hpick, hrest⟩ := h
          exact ⟨a, hpick, ih hrest (Nat.le_of_succ_le_succ hk)⟩

/-- One request was granted on the way. -/
structure Heap.Granted (A : Allocator) (a : Addr) (h h' : Heap) : Prop where
  pick : A.pick h.attempts h.live = some a
  attempts : h'.attempts = h.attempts + 1
  live : h'.live = insert a h.live

theorem Heap.Granted.grants {A : Allocator} {a : Addr} {h h' : Heap} (hg : Heap.Granted A a h h')
    (n : Nat) : h.Grants A (n + 1) ↔ h'.Grants A n := by
  simp only [Heap.Grants, Allocator.Grants, hg.pick, hg.attempts, hg.live, Option.some.injEq,
    exists_eq_left']

theorem Heap.not_grants {A : Allocator} {h : Heap} (hpick : A.pick h.attempts h.live = none)
    (n : Nat) : ¬ h.Grants A (n + 1) := by
  rintro ⟨a, hsome, -⟩
  rw [hpick] at hsome
  cases hsome

theorem returns_kmallocObj {A : Allocator} {w : World} {Q : Addr → World → Prop}
    (hsome : ∀ a, A.pick w.heap.attempts w.heap.live = some a → a ∉ w.heap.live → a ≠ 0 →
      a < errBase → Q a { w with heap := w.heap.allocated a })
    (hnone : A.pick w.heap.attempts w.heap.live = none → Q 0 { w with heap := w.heap.refused }) :
    Returns (kmallocObj A) w Q := by
  simp only [kmallocObj, returns_bind, returns_get]
  cases hpick : A.pick w.heap.attempts w.heap.live with
  | some a =>
      obtain ⟨hfresh, hnull, herr⟩ := A.fresh hpick
      simpa using hsome a hpick hfresh hnull herr
  | none =>
      simpa using hnone hpick

/-- Since `base` a scan allocated its scan information `sleb` and the nodes `nodes` of its list;
older objects are as they were. -/
structure Held (base : Heap) (sleb : Addr) (nodes : List Addr) (h : Heap) : Prop where
  ring : h.cells.links.Ring sleb nodes
  live : ∀ a, a ∈ h.live ↔ a ∈ sleb :: nodes ∨ a ∈ base.live
  fresh : ∀ a ∈ sleb :: nodes, a ∉ base.live
  same : Heap.Same base.live base h

section Held

variable {base h h' : Heap} {sleb : Addr} {nodes : List Addr}

theorem Held.refused (hh : Held base sleb nodes h) : Held base sleb nodes h.refused :=
  ⟨hh.ring, hh.live, hh.fresh, ⟨hh.same.next, hh.same.prev, hh.same.sleb, hh.same.snod⟩⟩

theorem Held.event (hh : Held base sleb nodes h) (e : Event Addr) :
    Held base sleb nodes (h.event e) :=
  ⟨hh.ring, hh.live, hh.fresh, ⟨hh.same.next, hh.same.prev, hh.same.sleb, hh.same.snod⟩⟩

theorem Held.mem_live (hh : Held base sleb nodes h) {a : Addr} (ha : a ∈ sleb :: nodes) :
    a ∈ h.live := (hh.live a).mpr (.inl ha)

theorem Held.ne_of_base (hh : Held base sleb nodes h) {a b : Addr} (ha : a ∈ sleb :: nodes)
    (hb : b ∈ base.live) : b ≠ a := fun he => hh.fresh a ha (he ▸ hb)

private theorem same_join {objs : Finset Addr} {a b : Addr} (ha : a ∉ objs) (hb : b ∉ objs)
    (hs : Heap.Same objs base h) :
    Heap.Same objs base { h with cells := { h.cells with links := h.cells.links.join a b } } where
  next x hx := by
    have hne : x ≠ a := fun he => ha (he ▸ hx)
    exact (Links.join_next_of_ne hne).trans (hs.next x hx)
  prev x hx := by
    have hne : x ≠ b := fun he => hb (he ▸ hx)
    exact (Links.join_prev_of_ne hne).trans (hs.prev x hx)
  sleb := hs.sleb
  snod := hs.snod

/-- What `ubifs_add_snod` does to the heap when its request for `a` succeeds. -/
structure SnodAdded (snod : ScanNode) (sleb a : Addr) (h h' : Heap) : Prop where
  fresh : a ∉ h.live
  links : h'.cells.links = (h.cells.links.join a sleb).join (h.cells.links.prev sleb) a
  log : h'.cells.log = h.cells.log ++ (.alloc a ::
    [a, a, a, a, a, a, sleb, sleb, a, a, h.cells.links.prev sleb, sleb].map .use)
  live : h'.live = insert a h.live
  slebs : h'.slebs = Function.update h.slebs sleb
    { h.slebs sleb with nodesCnt := wrap32 ((h.slebs sleb).nodesCnt + 1) }
  snods : h'.snods = Function.update h.snods a snod
  failures : h'.failures = h.failures

/-- The bytes that adding the node at `o` reads: its header, and its key if it is keyed. -/
structure SnodReads (m : Mem) (o : Int) (is : List Int) : Prop where
  within : ∀ i ∈ is, o ≤ i ∧ (i < o + 24 ∨ isKeyed (chNodeType m o) ∧ i < o + 40)
  key : isKeyed (chNodeType m o) → o + 39 ∈ is

private theorem snodReads_keyed {m : Mem} {o : Int} (hkey : isKeyed (chNodeType m o)) :
    SnodReads m o (span (o + 8) 8 ++ (span (o + 20) 1 ++ (span (o + 16) 4 ++
      (span (o + 20) 1 ++ span (o + 24) 16)))) := by
  refine ⟨fun i hi => ?_, fun _ => ?_⟩
  · simp only [List.mem_append, mem_span] at hi
    exact ⟨by omega, .inr ⟨hkey, by omega⟩⟩
  · simp only [List.mem_append, mem_span]
    omega

private theorem snodReads_other {m : Mem} {o : Int} (hkey : ¬ isKeyed (chNodeType m o)) :
    SnodReads m o (span (o + 8) 8 ++ (span (o + 20) 1 ++ (span (o + 16) 4 ++
      span (o + 20) 1))) := by
  refine ⟨fun i hi => ?_, fun h => absurd h hkey⟩
  simp only [List.mem_append, mem_span] at hi
  omega

theorem returns_ubifsAddSnod (K : Env) (sleb : Addr) (m : Mem) (buf offs : Int) (w : World) :
    Returns (ubifsAddSnod K sleb m buf offs) w fun err w' =>
      (err = 0 ∧ ∃ a is, Heap.Granted K.alloc a w.heap w'.heap ∧
        SnodAdded { scanNodeAt m buf with offs := offs } sleb a w.heap w'.heap ∧
        w'.reads = w.reads ++ is ∧ SnodReads m buf is) ∨
      (err = -enomem ∧ ¬ w.heap.Grants K.alloc 1 ∧ w' = { w with heap := w.heap.refused }) := by
  simp only [ubifsAddSnod, returns_bind]
  apply returns_kmallocObj
  · intro a hpick hfresh hnull _
    simp only [hnull, if_false, returns_bind, returns_readLe64, returns_readByte,
      returns_readLe32, returns_ite, setSnod, setSleb, returns_onHeap, returns_modify,
      returns_onCells, returns_listAddTail, returns_pure, returns_readBytes]
    split
    · rename_i hkey
      refine .inl ⟨trivial, a, _, ⟨hpick, rfl, rfl⟩, ⟨hfresh, rfl, ?_, rfl, ?_, ?_, rfl⟩, ?_,
        snodReads_keyed hkey⟩
      · simp [Heap.event, Heap.allocated, World.see]
      · simp [Heap.event, Heap.allocated, World.see]
      · have hkey' : isKeyed (m (buf + 20)) = true := hkey
        simp [Heap.event, Heap.allocated, World.see, scanNodeAt, chNodeType, chSqnum, chLen, inoKey,
          hkey']
      · simp [World.see, ubifsMaxKeyLen]
    · rename_i hkey
      refine .inl ⟨trivial, a, _, ⟨hpick, rfl, rfl⟩, ⟨hfresh, rfl, ?_, rfl, ?_, ?_, rfl⟩, ?_,
        snodReads_other hkey⟩
      · simp [Heap.event, Heap.allocated, World.see]
      · simp [Heap.event, Heap.allocated, World.see]
      · have hkey' : isKeyed (m (buf + 20)) = false := by simpa using hkey
        simp [Heap.event, Heap.allocated, World.see, scanNodeAt, chNodeType, chSqnum, chLen, hkey']
      · simp [World.see]
  · intro hpick
    simp only [if_true, returns_pure]
    exact .inr ⟨trivial, Heap.not_grants hpick 0, trivial⟩

theorem SnodAdded.held {snod : ScanNode} {a : Addr} (hadd : SnodAdded snod sleb a h h')
    (hh : Held base sleb nodes h) : Held base sleb (nodes ++ [a]) h' := by
  have hnew : a ∉ sleb :: nodes := fun ha => hadd.fresh (hh.mem_live ha)
  have hbase : a ∉ base.live := fun ha => hadd.fresh ((hh.live a).mpr (.inr ha))
  have hlast := hh.ring.prev_mem List.mem_cons_self
  refine ⟨?_, ?_, ?_, ?_⟩
  · rw [hadd.links]
    exact hh.ring.add_tail hnew
  · intro x
    rw [hadd.live, Finset.mem_insert, hh.live]
    simp only [List.mem_cons, List.mem_append, List.not_mem_nil, or_false]
    tauto
  · intro x hx
    rw [← List.cons_append, List.mem_append, List.mem_singleton] at hx
    rcases hx with hx | rfl
    · exact hh.fresh x hx
    · exact hbase
  · have hlinks := same_join (hh.fresh _ hlast) hbase
      (same_join hbase (hh.fresh sleb (by simp)) hh.same)
    refine ⟨?_, ?_, ?_, ?_⟩
    · rw [hadd.links]
      exact hlinks.next
    · rw [hadd.links]
      exact hlinks.prev
    · intro x hx
      rw [hadd.slebs, Function.update_of_ne (hh.ne_of_base (by simp) hx)]
      exact hh.same.sleb x hx
    · intro x hx
      have hne : x ≠ a := fun he => hbase (he ▸ hx)
      rw [hadd.snods, Function.update_of_ne hne]
      exact hh.same.snod x hx

theorem SnodAdded.grown {snod : ScanNode} {a : Addr} (hadd : SnodAdded snod sleb a h h')
    (hh : Held base sleb nodes h) : Heap.Grown h h' := by
  refine ⟨_, ⟨hadd.log, ?_⟩, ?_⟩
  · rw [hadd.live]
    refine .alloc hadd.fresh (.uses ?_)
    have hsleb : sleb ∈ h.live := hh.mem_live (by simp)
    have hlast : h.cells.links.prev sleb ∈ h.live :=
      hh.mem_live (hh.ring.prev_mem List.mem_cons_self)
    intro b hb
    simp only [List.mem_cons, List.not_mem_nil, or_false] at hb
    rw [Finset.mem_insert]
    rcases hb with h | h | h | h | h | h | h | h | h | h | h | h <;> simp [h, hsleb, hlast]
  · intro b hb
    rw [List.mem_cons] at hb
    rcases hb with hb | hb
    · cases hb
    · exact no_free_uses _ b hb

theorem SnodAdded.records {snod : ScanNode} {a : Addr} (hadd : SnodAdded snod sleb a h h')
    (hh : Held base sleb nodes h) :
    (nodes ++ [a]).map h'.snods = nodes.map h.snods ++ [snod] := by
  rw [hadd.snods, List.map_append]
  congr 1
  · apply List.map_congr_left
    intro x hx
    rw [Function.update_of_ne]
    rintro rfl
    exact hadd.fresh (hh.mem_live (List.mem_cons_of_mem _ hx))
  · simp

end Held

/-- The heap is as in `base` again, and what was allocated since was freed afterwards. -/
structure Released (base h : Heap) : Prop where
  live : h.live = base.live
  same : Heap.Same base.live base h
  trace : ∃ mid, Heap.Grown base mid ∧ Heap.Shrunk mid h

theorem Released.refused (base : Heap) : Released base base.refused :=
  ⟨rfl, ⟨fun _ _ => rfl, fun _ _ => rfl, fun _ _ => rfl, fun _ _ => rfl⟩,
    base.refused, (Heap.Grown.refl base).refused, [], ⟨by simp, .nil _⟩, by simp⟩

theorem Held.freed {base h : Heap} {sleb : Addr} (hh : Held base sleb [] h) :
    (h.freed sleb).live = base.live ∧ Heap.Same base.live base (h.freed sleb) ∧
      Heap.Shrunk h (h.freed sleb) := by
  refine ⟨?_, ⟨hh.same.next, hh.same.prev, hh.same.sleb, hh.same.snod⟩, [.free sleb], ⟨rfl, ?_⟩,
    by simp⟩
  · ext x
    have hbase := hh.fresh sleb (by simp)
    simp only [Heap.freed, Finset.mem_erase, hh.live, List.mem_singleton]
    constructor
    · rintro ⟨hne, hx | hx⟩
      · exact absurd hx hne
      · exact hx
    · intro hx
      exact ⟨fun he => hbase (he ▸ hx), .inr hx⟩
  · exact .free (hh.mem_live (by simp)) (.nil _)

theorem Released.of_held {base h : Heap} {sleb : Addr} (hh : Held base sleb [] h)
    (hg : Heap.Grown base h) : Released base (h.freed sleb) :=
  ⟨hh.freed.1, hh.freed.2.1, h, hg, hh.freed.2.2⟩

/-- The answer of `ubifs_leb_read` at the start of a scan. -/
def Env.readError (K : Env) (c : UbifsInfo) (lnum offs : Int) : Int :=
  K.lebRead c lnum offs offs (wrap32 (c.lebSize - offs)) 0

/-- The read fails; integrity errors are ignored. -/
def Env.ReadFails (K : Env) (c : UbifsInfo) (lnum offs : Int) : Prop :=
  K.readError c lnum offs ≠ 0 ∧ K.readError c lnum offs ≠ -ebadmsg

/-- What `ubifs_start_scan` has done to the heap when it reads the block. -/
structure Started (lnum : Int) (a : Addr) (h h' : Heap) : Prop where
  fresh : a ∉ h.live
  links : h'.cells.links = ((h.cells.links.setNext a 0).setPrev a 0).join a a
  log : h'.cells.log = h.cells.log ++ (.alloc a :: [a, a, a, a].map .use)
  live : h'.live = insert a h.live
  slebs : h'.slebs = Function.update h.slebs a { ScanLeb.zero with lnum := lnum }
  snods : h'.snods = h.snods
  failures : h'.failures = h.failures

theorem Started.held {lnum : Int} {a : Addr} {h h' : Heap} (hs : Started lnum a h h') :
    Held h a [] h' := by
  have hne : ∀ x ∈ h.live, x ≠ a := fun x hx he => hs.fresh (he ▸ hx)
  refine ⟨?_, ?_, ?_, ?_, ?_, ?_, ?_⟩
  · rw [hs.links]
    exact Links.ring_self (by simp [Links.join]) (by simp [Links.join])
  · intro x
    rw [hs.live]
    simp
  · simpa using hs.fresh
  · intro x hx
    rw [hs.links]
    simp [Links.join, hne x hx]
  · intro x hx
    rw [hs.links]
    simp [Links.join, hne x hx]
  · intro x hx
    rw [hs.slebs, Function.update_of_ne (hne x hx)]
  · intro x _
    rw [hs.snods]

theorem Started.grown {lnum : Int} {a : Addr} {h h' : Heap} (hs : Started lnum a h h') :
    Heap.Grown h h' := by
  refine ⟨_, ⟨hs.log, ?_⟩, by simp⟩
  rw [hs.live]
  exact .alloc hs.fresh (.uses (by simp))

theorem returns_ubifsStartScan (K : Env) (c : UbifsInfo) (lnum o : Int) (w : World) :
    Returns (ubifsStartScan K c lnum o) w fun sleb w' =>
      w'.reads = w.reads ∧
      ((¬ K.ReadFails c lnum o ∧ isErr sleb = false ∧ Heap.Granted K.alloc sleb w.heap w'.heap ∧
          Started lnum sleb w.heap w'.heap) ∨
        (sleb = errPtr (-enomem) ∧ (∀ n, ¬ w.heap.Grants K.alloc (n + 1)) ∧
          w'.heap = w.heap.refused) ∨
        (K.ReadFails c lnum o ∧ sleb = errPtr (K.readError c lnum o) ∧
          ∃ a mid, Started lnum a w.heap mid ∧ w'.heap = mid.freed a)) := by
  simp only [ubifsStartScan, kzallocScanLeb, returns_bind]
  apply returns_kmallocObj
  · intro a hpick hfresh hnull herr
    have hok : isErr a = false := by
      simp only [isErr, decide_eq_false_iff_not]
      exact Nat.not_le.mpr herr
    simp only [ne_eq, hnull, not_false_eq_true, if_true, if_false, returns_bind, returns_onHeap,
      returns_modify, returns_pure, setSleb, returns_onCells, returns_initListHead, returns_ite,
      returns_ubifsErr, kfree]
    split
    · rename_i hread
      refine ⟨trivial, .inr (.inr ⟨hread, rfl, a, _, ?_, rfl⟩)⟩
      refine ⟨hfresh, rfl, ?_, rfl, ?_, rfl, rfl⟩
      · simp [Heap.event, Heap.allocated]
      · simp [Heap.event, Heap.allocated, ScanLeb.zero]
    · rename_i hread
      refine ⟨trivial, .inl ⟨hread, hok, ⟨hpick, rfl, rfl⟩, hfresh, rfl, ?_, rfl, ?_, rfl, rfl⟩⟩
      · simp [Heap.event, Heap.allocated]
      · simp [Heap.event, Heap.allocated, ScanLeb.zero]
  · intro hpick
    simp [Heap.not_grants hpick]

/-- The heap after `ubifs_end_scan` at `o`. -/
def Heap.ended (h : Heap) (sleb : Addr) (o : Int) : Heap :=
  { h.event (.use sleb) with
    slebs := Function.update h.slebs sleb { h.slebs sleb with endpt := o } }

/-- The `endpt` of a scan that ends at `offs`. -/
def endptOf (c : UbifsInfo) (offs : Int) : Int :=
  (align (BitVec.ofInt 32 offs) (BitVec.ofInt 32 c.minIoSize)).toInt

theorem ensures_ubifsEndScan (c : UbifsInfo) (sleb : Addr) (o : Int) (w : World) :
    Ensures (ubifsEndScan c sleb o) w fun _ w' => o.tmod c.minIoSize = 0 ∧
      w' = { w with heap := w.heap.ended sleb (endptOf c o) } := by
  refine ensures_bind ((ensures_cMod _ _ w).mono ?_)
  rintro r w' ⟨rfl, rfl⟩
  split
  · intro u w' hrun
    cases hrun
  · rename_i hmod
    apply Returns.ensures
    simp only [setSleb, returns_onHeap, returns_modify]
    exact ⟨not_not.mp hmod, rfl⟩

theorem returns_ubifsEndScan {c : UbifsInfo} {sleb : Addr} {o : Int} {w : World}
    (hdef : ModDefined o c.minIoSize) (hmod : o.tmod c.minIoSize = 0) :
    Returns (ubifsEndScan c sleb o) w fun _ w' =>
      w' = { w with heap := w.heap.ended sleb (endptOf c o) } := by
  simp only [ubifsEndScan, returns_bind, returns_cMod hdef, hmod, ne_eq, not_true_eq_false,
    if_false, setSleb, returns_onHeap, returns_modify]
  rfl

theorem endpt_eq {c : UbifsInfo} {o : Int} {k : Nat} (hk : k < 31) (hmin : c.minIoSize = 2 ^ k)
    (h0 : 0 ≤ o) (hint : o < 2147483648) (hdvd : c.minIoSize ∣ o) : endptOf c o = o := by
  rw [endptOf, hmin]
  rw [hmin] at hdvd
  exact align_of_dvd hk h0 hint hdvd

theorem Held.ended {base h : Heap} {sleb : Addr} {nodes : List Addr}
    (hh : Held base sleb nodes h) (o : Int) : Held base sleb nodes (h.ended sleb o) := by
  refine ⟨hh.ring, hh.live, hh.fresh, hh.same.next, hh.same.prev, ?_, hh.same.snod⟩
  intro x hx
  simp only [Heap.ended, Heap.event]
  rw [Function.update_of_ne (hh.ne_of_base (by simp) hx)]
  exact hh.same.sleb x hx

theorem Held.trace_ended {base h : Heap} {sleb : Addr} {nodes : List Addr}
    (hh : Held base sleb nodes h) (o : Int) : Heap.Trace h (h.ended sleb o) [.use sleb] :=
  ⟨rfl, .use (hh.mem_live (by simp)) (.nil _)⟩

/-- What a round of `ubifs_scan_destroy` does to the heap when it frees the node `a`. -/
structure SnodFreed (sleb a : Addr) (h h' : Heap) : Prop where
  links : h'.cells.links = h.cells.links.join (h.cells.links.prev a) (h.cells.links.next a)
  log : h'.cells.log = h.cells.log ++ ([sleb, sleb, a, a, h.cells.links.next a, a, a,
    h.cells.links.prev a].map .use ++ [.free a])
  live : h'.live = h.live.erase a
  slebs : h'.slebs = h.slebs
  snods : h'.snods = h.snods
  failures : h'.failures = h.failures

section Destroy

variable {base : Heap} {sleb a : Addr} {nodes : List Addr}

theorem returns_destroyRound (w : World) :
    Returns (destroyRound sleb ()) w fun r w' =>
      match r with
      | .inl _ => w.heap.cells.links.next sleb ≠ sleb ∧
          SnodFreed sleb (w.heap.cells.links.next sleb) w.heap w'.heap
      | .inr _ => w.heap.cells.links.next sleb = sleb ∧ w'.heap = w.heap.event (.use sleb) := by
  simp only [destroyRound, returns_bind, returns_onCells, returns_listEmpty, returns_ite,
    returns_pure, decide_eq_true_eq]
  split
  · rename_i hempty
    exact ⟨hempty, rfl⟩
  · rename_i hfull
    simp only [readNext, returns_bind, returns_modify, returns_get, returns_pure, kfree,
      returns_onHeap, returns_listDel, Cells.touch]
    refine ⟨hfull, rfl, ?_, rfl, rfl, rfl, rfl⟩
    simp [Heap.freed, Heap.event]

theorem ensures_ubifsScanDestroy_keeps {τ : Type} (part : World → τ)
    (hheap : ∀ v h, part { v with heap := h } = part v) (w : World) :
    Ensures (ubifsScanDestroy sleb) w fun _ w' => part w' = part w := by
  have hround : ∀ (u : Unit) (v : World),
      Ensures (destroyRound sleb u) v fun _ v' => part v' = part v := by
    intro u v
    apply Returns.ensures
    simp [destroyRound, readNext, kfree, returns_listEmpty, returns_listDel, hheap]
  refine ensures_bind (ensures_get ?_)
  refine ensures_bind ((ensures_iterate_keeps part hround).mono fun _ v h => ?_)
  apply Returns.ensures
  simpa [kfree, hheap] using h

theorem SnodFreed.held {h h' : Heap} (hfree : SnodFreed sleb a h h')
    (hh : Held base sleb (a :: nodes) h) : Held base sleb nodes h' := by
  have ha : a ∈ sleb :: a :: nodes := by simp
  have hnd := hh.ring.nodup
  rw [List.nodup_cons, List.nodup_cons] at hnd
  have hnext := hh.fresh _ (hh.ring.next_mem ha)
  have hprev := hh.fresh _ (hh.ring.prev_mem ha)
  have hlinks := same_join hprev hnext hh.same
  refine ⟨?_, ?_, ?_, ?_, ?_, ?_, ?_⟩
  · rw [hfree.links]
    exact Links.Ring.delete [] hh.ring
  · intro x
    have hbase := hh.fresh a ha
    rw [hfree.live, Finset.mem_erase, hh.live]
    simp only [List.mem_cons] at hnd hbase ⊢
    grind
  · intro x hx
    apply hh.fresh
    simp only [List.mem_cons] at hx ⊢
    tauto
  · rw [hfree.links]
    exact hlinks.next
  · rw [hfree.links]
    exact hlinks.prev
  · rw [hfree.slebs]
    exact hh.same.sleb
  · rw [hfree.snods]
    exact hh.same.snod

theorem SnodFreed.shrunk {h h' : Heap} (hfree : SnodFreed sleb a h h')
    (hh : Held base sleb (a :: nodes) h) : Heap.Shrunk h h' := by
  have ha : a ∈ sleb :: a :: nodes := by simp
  refine ⟨_, ⟨hfree.log, ?_⟩, by simp⟩
  rw [hfree.live]
  refine (Lifetime.uses ?_).append (.free (hh.mem_live ha) (.nil _))
  have hsleb : sleb ∈ h.live := hh.mem_live (by simp)
  have hnext := hh.mem_live (hh.ring.next_mem ha)
  have hprev := hh.mem_live (hh.ring.prev_mem ha)
  intro b hb
  simp only [List.mem_cons, List.not_mem_nil, or_false] at hb
  rcases hb with h | h | h | h | h | h | h | h <;> simp [h, hsleb, hnext, hprev, hh.mem_live ha]

/-- What the scan holds in `h` has been released in `h'`. -/
structure Destroyed (base h h' : Heap) : Prop where
  live : h'.live = base.live
  same : Heap.Same base.live base h'
  shrunk : Heap.Shrunk h h'
  failures : h'.failures = h.failures

theorem Destroyed.released {h h' : Heap} (hd : Destroyed base h h')
    (hgrown : Heap.Grown base h) : Released base h' := ⟨hd.live, hd.same, h, hgrown, hd.shrunk⟩

theorem Destroyed.of_shrunk {h₀ h h' : Heap} (hd : Destroyed base h h')
    (hshrunk : Heap.Shrunk h₀ h) (hfail : h.failures = h₀.failures) : Destroyed base h₀ h' :=
  ⟨hd.live, hd.same, hshrunk.trans hd.shrunk, hd.failures.trans hfail⟩

/-- **`ubifs_scan_destroy` releases what the scan holds**, and terminates. -/
theorem returns_ubifsScanDestroy {w : World} (hh : Held base sleb nodes w.heap) :
    Returns (ubifsScanDestroy sleb) w fun _ w' => Destroyed base w.heap w'.heap := by
  let Inv : Unit → World → Prop := fun _ v => v.heap.failures = w.heap.failures ∧
    Heap.Shrunk w.heap v.heap ∧ ∃ rest, Held base sleb rest v.heap
  let Done : Unit → World → Prop := fun _ v => v.heap.failures = w.heap.failures ∧
    Heap.Shrunk w.heap v.heap ∧ Held base sleb [] v.heap
  have hloop : Returns (iterate (destroyRound sleb) (w.heap.live.card + 1) ()) w Done := by
    apply returns_iterate Inv (fun _ v => v.heap.live.card)
    · rintro ⟨⟩ v - ⟨hfail, hshrunk, rest, hrest⟩
      apply (returns_destroyRound v).mono
      intro r v' hr
      cases r with
      | inl next =>
          obtain ⟨hne, hfreed⟩ := hr
          cases rest with
          | nil => exact absurd (hrest.ring.next_eq_head_iff.mpr rfl) hne
          | cons x rest =>
              rw [hrest.ring.next_head] at hfreed
              refine ⟨⟨hfreed.failures.trans hfail, hshrunk.trans (hfreed.shrunk hrest), rest,
                hfreed.held hrest⟩, ?_⟩
              rw [hfreed.live]
              exact Finset.card_erase_lt_of_mem (hrest.mem_live (by simp))
      | inr _ =>
          obtain ⟨hempty, hheap⟩ := hr
          obtain rfl := hrest.ring.next_eq_head_iff.mp hempty
          refine ⟨?_, hshrunk.trans ?_, ?_⟩
          · rw [hheap]
            exact hfail
          · rw [hheap]
            exact ⟨[.use sleb], ⟨rfl, .use (hrest.mem_live (by simp)) (.nil _)⟩, by simp⟩
          · rw [hheap]
            exact hrest.event _
    · exact ⟨rfl, ⟨[], ⟨by simp, .nil _⟩, by simp⟩, nodes, hh⟩
    · exact Nat.lt_succ_self _
  simp only [ubifsScanDestroy, returns_bind, returns_get, kfree, returns_onHeap, returns_modify]
  apply hloop.mono
  rintro ⟨⟩ v ⟨hfail, hshrunk, hheld⟩
  obtain ⟨hlive, hsame, hlast⟩ := hheld.freed
  exact ⟨hlive, hsame, hshrunk.trans hlast, hfail⟩

end Destroy

end UbifsScan
