import Mathlib.Data.Finset.Basic
import Mathlib.Tactic.Common

/-!
# Lifetimes of allocated objects

The events a program causes on its heap, and the traces in which every object is used and freed
only while it lives. Such a trace keeps a ledger: an object that was not live before and is not
live after is freed exactly as often as it was allocated.
-/

/-- What a program does to an object. -/
inductive Event (α : Type)
  | alloc (a : α)
  | use (a : α)
  | free (a : α)
  deriving DecidableEq

/-- The trace turns the live objects from the first set into the second: objects are allocated
fresh, and used and freed only while they live. -/
inductive Lifetime {α : Type} [DecidableEq α] : Finset α → List (Event α) → Finset α → Prop
  | nil (live : Finset α) : Lifetime live [] live
  | alloc {live live' : Finset α} {a : α} {events : List (Event α)} (h : a ∉ live)
      (hrest : Lifetime (insert a live) events live') : Lifetime live (.alloc a :: events) live'
  | use {live live' : Finset α} {a : α} {events : List (Event α)} (h : a ∈ live)
      (hrest : Lifetime live events live') : Lifetime live (.use a :: events) live'
  | free {live live' : Finset α} {a : α} {events : List (Event α)} (h : a ∈ live)
      (hrest : Lifetime (live.erase a) events live') : Lifetime live (.free a :: events) live'

namespace Lifetime

variable {α : Type} [DecidableEq α] {live live' live'' : Finset α} {a : α}
  {events events' : List (Event α)}

theorem append (h : Lifetime live events live') (h' : Lifetime live' events' live'') :
    Lifetime live (events ++ events') live'' := by
  induction h with
  | nil => exact h'
  | alloc ha _ ih => exact .alloc ha (ih h')
  | use ha _ ih => exact .use ha (ih h')
  | free ha _ ih => exact .free ha (ih h')

theorem split (h : Lifetime live (events ++ events') live'') :
    ∃ live', Lifetime live events live' ∧ Lifetime live' events' live'' := by
  induction events generalizing live with
  | nil => exact ⟨live, .nil live, h⟩
  | cons e events ih =>
      cases h with
      | alloc ha hrest => exact (ih hrest).imp fun _ hp => ⟨.alloc ha hp.1, hp.2⟩
      | use ha hrest => exact (ih hrest).imp fun _ hp => ⟨.use ha hp.1, hp.2⟩
      | free ha hrest => exact (ih hrest).imp fun _ hp => ⟨.free ha hp.1, hp.2⟩

theorem uses {as : List α} (h : ∀ a ∈ as, a ∈ live) :
    Lifetime live (as.map Event.use) live := by
  induction as with
  | nil => exact .nil live
  | cons b as ih =>
      exact .use (h b (by simp)) (ih fun c hc => h c (by simp [hc]))

/-- The ledger of one object: its frees and what is left of it against its allocations and what
there was of it. -/
theorem ledger (h : Lifetime live events live') :
    events.count (.free a) + (if a ∈ live' then 1 else 0) =
      events.count (.alloc a) + (if a ∈ live then 1 else 0) := by
  induction h with
  | nil => simp
  | @alloc live live' b events hb hrest ih =>
      by_cases hab : b = a
      · subst b
        simp only [Finset.mem_insert_self, if_true] at ih
        simp [hb]
        omega
      · simp [Ne.symm hab] at ih
        simp [hab]
        omega
  | @use live live' b events hb hrest ih => simpa using ih
  | @free live live' b events hb hrest ih =>
      by_cases hab : b = a
      · subst b
        simp only [Finset.notMem_erase, if_false] at ih
        simp [hb]
        omega
      · simp [Ne.symm hab] at ih
        simp [hab]
        omega

theorem untouched (h : Lifetime live events live') (ha : a ∉ live)
    (hnew : Event.alloc a ∉ events) : Event.use a ∉ events ∧ Event.free a ∉ events := by
  induction h with
  | nil => simp
  | @alloc live live' b events hb hrest ih =>
      have hab : b ≠ a := fun he => hnew (by simp [he])
      obtain ⟨huse, hfree⟩ := ih (by simp [ha, Ne.symm hab]) (fun hm => hnew (by simp [hm]))
      simp [huse, hfree]
  | @use live live' b events hb hrest ih =>
      have hab : a ≠ b := fun he => ha (he ▸ hb)
      obtain ⟨huse, hfree⟩ := ih ha (fun hm => hnew (by simp [hm]))
      simp [huse, hfree, hab]
  | @free live live' b events hb hrest ih =>
      have hab : a ≠ b := fun he => ha (he ▸ hb)
      obtain ⟨huse, hfree⟩ := ih (by simp [ha]) (fun hm => hnew (by simp [hm]))
      simp [huse, hfree, hab]

/-- After its last free an object is not used: of a trace cut at a free, the rest only touches
the object if it allocates it again. -/
theorem dead_after_free {before after : List (Event α)}
    (h : Lifetime live (before ++ .free a :: after) live') (hnew : Event.alloc a ∉ after) :
    Event.use a ∉ after ∧ Event.free a ∉ after := by
  obtain ⟨mid, -, hrest⟩ := split h
  cases hrest with
  | free _ hafter => exact untouched hafter (Finset.notMem_erase _ _) hnew

theorem count_alloc_le (h : Lifetime live events live') (hfree : Event.free a ∉ events) :
    events.count (.alloc a) + (if a ∈ live then 1 else 0) ≤ 1 := by
  have hl := ledger (a := a) h
  rw [List.count_eq_zero_of_not_mem hfree] at hl
  split_ifs at hl ⊢ <;> omega

/-- A trace that ends with the objects it began with: what it allocates it frees, once, and nothing
is touched after it was freed. -/
structure Balanced (live : Finset α) (events : List (Event α)) : Prop where
  life : Lifetime live events live
  freed : ∀ a, events.count (.free a) = events.count (.alloc a)
  once : ∀ a, events.count (.alloc a) ≤ 1
  dead : ∀ before after a, events = before ++ .free a :: after →
    Event.use a ∉ after ∧ Event.free a ∉ after

/-- A trace that first only allocates and then only frees is balanced when it comes back to its
first objects. -/
theorem balanced_of_grow_shrink (h : Lifetime live (events ++ events') live)
    (hgrow : ∀ a, Event.free a ∉ events) (hshrink : ∀ a, Event.alloc a ∉ events') :
    Balanced live (events ++ events') := by
  refine ⟨h, fun a => ?_, fun a => ?_, ?_⟩
  · have hl := ledger (a := a) h
    omega
  · obtain ⟨mid, hfirst, -⟩ := split h
    have hl := count_alloc_le hfirst (hgrow a)
    rw [List.count_append, List.count_eq_zero_of_not_mem (hshrink a)]
    omega
  · intro before after a heq
    apply dead_after_free (heq ▸ h)
    rcases List.append_eq_append_iff.mp heq with ⟨l, rfl, hl⟩ | ⟨l, rfl, hl⟩
    · exact fun ha => hshrink a (by simp [hl, ha])
    · cases l with
      | nil =>
          rw [List.nil_append] at hl
          exact fun ha => hshrink a (by rw [← hl]; exact List.mem_cons_of_mem _ ha)
      | cons e l =>
          obtain ⟨rfl, -⟩ := List.cons.inj hl
          exact absurd (List.mem_append_right _ List.mem_cons_self) (hgrow a)

end Lifetime
