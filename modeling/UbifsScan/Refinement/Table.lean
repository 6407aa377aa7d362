import UbifsScan.Refinement.Recorded

/-!
# The table of scan results

What the results on one heap are for: a table that maps each address a client holds to a scan
result, a plain value. The heap shows a table when every entry is there with a list of its own and
nothing but the entries was allocated. An entry can be taken out of a shown table, changed, and put
back in.
-/

namespace UbifsScan

open Mem Program

/-- A scan result as a value: the block, the end of its nodes, and the nodes in order. -/
structure ScanResult where
  lnum : Int
  endpt : Int
  nodes : List ScanNode
  deriving DecidableEq, Repr

def ScanResult.view (res : ScanResult) : LebView :=
  ⟨res.lnum, res.endpt, wrap32 res.nodes.length, res.nodes⟩

/-- What is held, by address. -/
abbrev Table := Addr → Option ScanResult

/-- The table that holds nothing. -/
def Table.empty : Table := fun _ => none

/-- The objects that make up the entry of `r`, if there is one. -/
def Table.objs (t : Table) (nodes : Addr → List Addr) (r : Addr) : List Addr :=
  if (t r).isSome then r :: nodes r else []

/-- The heap with the objects `as` no longer live. -/
def Heap.without (h : Heap) (as : List Addr) : Heap := { h with live := h.live \ as.toFinset }

/-- The scan information at `r` and its list say `res`. -/
structure Shows (h : Heap) (r : Addr) (nodes : List Addr) (res : ScanResult) : Prop where
  sleb : h.slebs r =
    { ScanLeb.zero with
      lnum := res.lnum, nodesCnt := wrap32 nodes.length, endpt := res.endpt }
  nodes : nodes.map h.snods = res.nodes

/-- The heap shows the table `t`, allocated since `base`; `nodes` are the nodes of each list. -/
structure Holding (base : Heap) (t : Table) (nodes : Addr → List Addr) (h : Heap) : Prop where
  ring : ∀ r res, t r = some res → h.cells.links.Ring r (nodes r)
  shows : ∀ r res, t r = some res → Shows h r (nodes r) res
  apart : ∀ r q, r ≠ q → ∀ a ∈ t.objs nodes r, a ∉ t.objs nodes q
  live : ∀ a, a ∈ h.live ↔ a ∈ base.live ∨ ∃ r, a ∈ t.objs nodes r
  fresh : ∀ r, ∀ a ∈ t.objs nodes r, a ∉ base.live
  same : Heap.Same base.live base h

section Objs

variable {t : Table} {nodes : Addr → List Addr} {r q : Addr} {res : ScanResult}

theorem Table.objs_some (h : t r = some res) : t.objs nodes r = r :: nodes r := by
  simp [Table.objs, h]

theorem Table.objs_none (h : t r = none) : t.objs nodes r = [] := by
  simp [Table.objs, h]

@[simp] theorem Table.objs_erase_self :
    Table.objs (Function.update t r none) nodes r = [] := by
  simp [Table.objs]

@[simp] theorem Table.objs_set_self (as : List Addr) :
    Table.objs (Function.update t r (some res)) (Function.update nodes r as) r = r :: as := by
  simp [Table.objs]

theorem Table.objs_erase_of_ne (h : q ≠ r) :
    Table.objs (Function.update t r none) nodes q = t.objs nodes q := by
  simp [Table.objs, h]

theorem Table.objs_set_of_ne (h : q ≠ r) (as : List Addr) :
    Table.objs (Function.update t r (some res)) (Function.update nodes r as) q =
      t.objs nodes q := by
  simp [Table.objs, h]

theorem Table.mem_objs_of_some (h : t r = some res) {a : Addr} (ha : a ∈ r :: nodes r) :
    a ∈ t.objs nodes r := (Table.objs_some h).symm ▸ ha

end Objs

section Same

variable {h h' h'' : Heap} {objs objs' : Finset Addr}

theorem Heap.Same.trans (hs : Heap.Same objs h h') (hs' : Heap.Same objs' h' h'')
    (hsub : objs ⊆ objs') : Heap.Same objs h h'' where
  next a ha := (hs'.next a (hsub ha)).trans (hs.next a ha)
  prev a ha := (hs'.prev a (hsub ha)).trans (hs.prev a ha)
  sleb a ha := (hs'.sleb a (hsub ha)).trans (hs.sleb a ha)
  snod a ha := (hs'.snod a (hsub ha)).trans (hs.snod a ha)

theorem Shows.same {r : Addr} {nodes : List Addr} {res : ScanResult} (h₁ : Shows h r nodes res)
    (hs : Heap.Same objs h h') (hsub : ∀ a ∈ r :: nodes, a ∈ objs) : Shows h' r nodes res := by
  refine ⟨(hs.sleb r (hsub r (by simp))).trans h₁.sleb, ?_⟩
  rw [← h₁.nodes]
  exact List.map_congr_left fun a ha => hs.snod a (hsub a (List.mem_cons_of_mem r ha))

end Same

section Holding

variable {base h h' : Heap} {t : Table} {nodes : Addr → List Addr} {r : Addr} {res : ScanResult}

theorem Holding.empty (base : Heap) (nodes : Addr → List Addr) :
    Holding base .empty nodes base where
  ring := by simp [Table.empty]
  shows := by simp [Table.empty]
  apart := by simp [Table.objs, Table.empty]
  live := by simp [Table.objs, Table.empty]
  fresh := by simp [Table.objs, Table.empty]
  same := ⟨fun _ _ => rfl, fun _ _ => rfl, fun _ _ => rfl, fun _ _ => rfl⟩

theorem Holding.mem_live (hh : Holding base t nodes h) {a : Addr} (ha : a ∈ t.objs nodes r) :
    a ∈ h.live := (hh.live a).mpr (.inr ⟨r, ha⟩)

theorem Holding.base_live (hh : Holding base t nodes h) : base.live ⊆ h.live :=
  fun a ha => (hh.live a).mpr (.inl ha)

theorem Holding.none_of_fresh (hh : Holding base t nodes h) (hr : r ∉ h.live) : t r = none := by
  cases hres : t r with
  | none => rfl
  | some res =>
      exact absurd (hh.mem_live (Table.mem_objs_of_some hres List.mem_cons_self)) hr

theorem Holding.held (hh : Holding base t nodes h) (hr : t r = some res) :
    Held (h.without (r :: nodes r)) r (nodes r) h := by
  refine ⟨hh.ring r res hr, fun a => ?_, fun a ha => ?_, ?_⟩
  · have hlive : a ∈ r :: nodes r → a ∈ h.live :=
      fun ha => hh.mem_live (Table.mem_objs_of_some hr ha)
    rw [Heap.without, Finset.mem_sdiff, List.mem_toFinset]
    tauto
  · rw [Heap.without, Finset.mem_sdiff, List.mem_toFinset, not_and_not_right]
    exact fun _ => ha
  · exact ⟨fun _ _ => rfl, fun _ _ => rfl, fun _ _ => rfl, fun _ _ => rfl⟩

theorem Holding.view (hh : Holding base t nodes h) (hr : t r = some res) :
    h.view r = res.view := by
  have hshows := hh.shows r res hr
  have hlen := congrArg List.length hshows.nodes
  have hnodes := (hh.held hr).view_nodes
  rw [List.length_map] at hlen
  simp only [Heap.view, ScanResult.view, LebView.mk.injEq] at hnodes ⊢
  rw [hnodes, hshows.sleb, hshows.nodes, hlen]
  simp

theorem Holding.without (hh : Holding base t nodes h) (r : Addr) :
    Holding base (Function.update t r none) nodes (h.without (t.objs nodes r)) := by
  have hother : ∀ q res, Function.update t r none q = some res → q ≠ r ∧ t q = some res := by
    intro q res hq
    by_cases hqr : q = r
    · rw [hqr, Function.update_self] at hq
      cases hq
    · rw [Function.update_of_ne hqr] at hq
      exact ⟨hqr, hq⟩
  have hobjs : ∀ q a, a ∈ Table.objs (Function.update t r none) nodes q ↔
      q ≠ r ∧ a ∈ t.objs nodes q := by
    intro q a
    by_cases hqr : q = r
    · simp [hqr]
    · simp [hqr, Table.objs_erase_of_ne]
  refine ⟨fun q res hq => hh.ring q res (hother q res hq).2,
    fun q res hq => ?_, fun q q' hne a ha ha' => ?_, fun a => ?_, fun q a ha => ?_, ?_⟩
  · exact ⟨(hh.shows q res (hother q res hq).2).sleb, (hh.shows q res (hother q res hq).2).nodes⟩
  · exact hh.apart q q' hne a ((hobjs q a).mp ha).2 ((hobjs q' a).mp ha').2
  · rw [Heap.without, Finset.mem_sdiff, List.mem_toFinset, hh.live]
    constructor
    · rintro ⟨hbase | ⟨q, hq⟩, hout⟩
      · exact .inl hbase
      · exact .inr ⟨q, (hobjs q a).mpr ⟨fun hqr => hout (hqr ▸ hq), hq⟩⟩
    · rintro (hbase | ⟨q, hq⟩)
      · exact ⟨.inl hbase, fun ha => hh.fresh r a ha hbase⟩
      · obtain ⟨hqr, hq⟩ := (hobjs q a).mp hq
        exact ⟨.inr ⟨q, hq⟩, hh.apart q r hqr a hq⟩
  · exact hh.fresh q a ((hobjs q a).mp ha).2
  · exact ⟨hh.same.next, hh.same.prev, hh.same.sleb, hh.same.snod⟩

theorem Holding.keep (hh : Holding base t nodes h) (hlive : h'.live = h.live)
    (hsame : Heap.Same h.live h h') : Holding base t nodes h' := by
  have hsub : ∀ {q res}, t q = some res → ∀ a ∈ q :: nodes q, a ∈ h.live :=
    fun hq a ha => hh.mem_live (Table.mem_objs_of_some hq ha)
  refine ⟨fun q res hq => ?_, fun q res hq => (hh.shows q res hq).same hsame (hsub hq), hh.apart,
    fun a => hlive ▸ hh.live a, hh.fresh, hh.same.trans hsame hh.base_live⟩
  exact (hh.ring q res hq).congr (fun a ha => hsame.next a (hsub hq a ha))
    fun a ha => hsame.prev a (hsub hq a ha)

theorem Holding.add {as : List Addr} (hh : Holding base t nodes h) (hr : t r = none)
    (hheld : Held h r as h') (hshows : Shows h' r as res) :
    Holding base (Function.update t r (some res)) (Function.update nodes r as) h' := by
  have hobjs : ∀ q a, a ∈ Table.objs (Function.update t r (some res))
      (Function.update nodes r as) q ↔ q = r ∧ a ∈ r :: as ∨ q ≠ r ∧ a ∈ t.objs nodes q := by
    intro q a
    by_cases hqr : q = r
    · simp [hqr]
    · simp [hqr, Table.objs_set_of_ne]
  have hlive : ∀ q a, a ∈ t.objs nodes q → a ∈ h.live := fun q a => hh.mem_live
  have hsub : ∀ {q res'}, t q = some res' → ∀ a ∈ q :: nodes q, a ∈ h.live :=
    fun hq a ha => hh.mem_live (Table.mem_objs_of_some hq ha)
  refine ⟨fun q res' hq => ?_, fun q res' hq => ?_, fun q q' hne a ha ha' => ?_, fun a => ?_,
    fun q a ha hbase => ?_, hh.same.trans hheld.same hh.base_live⟩
  · by_cases hqr : q = r
    · rw [hqr, Function.update_self]
      exact hheld.ring
    · rw [Function.update_of_ne hqr] at hq ⊢
      exact (hh.ring q res' hq).congr (fun a ha => hheld.same.next a (hsub hq a ha))
        fun a ha => hheld.same.prev a (hsub hq a ha)
  · by_cases hqr : q = r
    · subst q
      rw [Function.update_self] at hq ⊢
      exact Option.some.inj hq ▸ hshows
    · rw [Function.update_of_ne hqr] at hq ⊢
      exact (hh.shows q res' hq).same hheld.same (hsub hq)
  · rcases (hobjs q a).mp ha with ⟨hq, hin⟩ | ⟨hq, hin⟩ <;>
      rcases (hobjs q' a).mp ha' with ⟨hq', hin'⟩ | ⟨hq', hin'⟩
    · exact hne (hq.trans hq'.symm)
    · exact hheld.fresh a hin (hlive q' a hin')
    · exact hheld.fresh a hin' (hlive q a hin)
    · exact hh.apart q q' hne a hin hin'
  · rw [hheld.live, hh.live]
    constructor
    · rintro (hnew | hbase | ⟨q, hq⟩)
      · exact .inr ⟨r, (hobjs r a).mpr (.inl ⟨rfl, hnew⟩)⟩
      · exact .inl hbase
      · have hqr : q ≠ r := by
          rintro rfl
          rw [Table.objs_none hr] at hq
          cases hq
        exact .inr ⟨q, (hobjs q a).mpr (.inr ⟨hqr, hq⟩)⟩
    · rintro (hbase | ⟨q, hq⟩)
      · exact .inr (.inl hbase)
      · rcases (hobjs q a).mp hq with ⟨-, hnew⟩ | ⟨-, hold⟩
        · exact .inl hnew
        · exact .inr (.inr ⟨q, hold⟩)
  · rcases (hobjs q a).mp ha with ⟨-, hnew⟩ | ⟨-, hold⟩
    · exact hheld.fresh a hnew (hh.base_live hbase)
    · exact hh.fresh q a hold hbase

theorem Holding.change {as : List Addr} {old : ScanResult} (hh : Holding base t nodes h)
    (hr : t r = some old) (hheld : Held (h.without (r :: nodes r)) r as h')
    (hshows : Shows h' r as res) :
    Holding base (Function.update t r (some res)) (Function.update nodes r as) h' := by
  have hrest := hh.without r
  rw [Table.objs_some hr] at hrest
  have hnew := hrest.add (Function.update_self r none t) hheld hshows
  rwa [Function.update_idem] at hnew

theorem Holding.destroy (hh : Holding base t nodes h) (hr : t r = some res)
    (hd : Destroyed (h.without (r :: nodes r)) h h') :
    Holding base (Function.update t r none) nodes h' := by
  have hrest := hh.without r
  rw [Table.objs_some hr] at hrest
  exact hrest.keep hd.live hd.same

end Holding

end UbifsScan
