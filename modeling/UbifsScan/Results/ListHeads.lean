import UbifsScan.Framework.RingFamily
import UbifsScan.Model.Kernel

/-!
# Lists under any order of operations

What the `list_head` operations keep for a caller that only adds cells that are in no list and only
deletes cells that are in one: each head stays the head of a circular list of what was added to it
and not deleted since.
-/

namespace UbifsScan

open Program Links

variable {α : Type} [DecidableEq α]

/-- An operation on lists that were initialised before. -/
inductive ListOp (α : Type)
  | addTail (new head : α)
  | del (entry : α)
  deriving DecidableEq

def ListOp.run : ListOp α → Program (Cells α) Unit
  | .addTail new head => listAddTail new head
  | .del entry => listDel entry

/-- The cells that were added to the list of `head` and not deleted since, in the order they were
added. -/
def members (head : α) : List (ListOp α) → List α
  | [] => []
  | .addTail new h :: later =>
      if h = head ∧ .del new ∉ later then new :: members head later else members head later
  | .del _ :: later => members head later

/-- An operation that may come after `before`: it adds a cell that is in no list and no head, or
deletes a cell that is in a list. -/
def ListOp.Allowed (heads : List α) (before : List (ListOp α)) : ListOp α → Prop
  | .addTail new head => head ∈ heads ∧ new ∉ heads ∧ ∀ other ∈ heads, new ∉ members other before
  | .del entry => ∃ head ∈ heads, entry ∈ members head before

instance (heads : List α) (before : List (ListOp α)) (op : ListOp α) :
    Decidable (op.Allowed heads before) :=
  match op with
  | .addTail .. => inferInstanceAs (Decidable (_ ∧ _))
  | .del _ => inferInstanceAs (Decidable (∃ head ∈ heads, _))

def AllowedFrom (heads : List α) : List (ListOp α) → List (ListOp α) → Prop
  | _, [] => True
  | before, op :: ops => op.Allowed heads before ∧ AllowedFrom heads (before ++ [op]) ops

instance decidableAllowedFrom (heads : List α) :
    ∀ before ops, Decidable (AllowedFrom heads before ops)
  | _, [] => inferInstanceAs (Decidable True)
  | before, op :: ops =>
      have := decidableAllowedFrom heads (before ++ [op]) ops
      inferInstanceAs (Decidable (_ ∧ _))

/-- Distinct heads that are initialised, and operations in an order that is allowed. -/
structure ListSession (α : Type) [DecidableEq α] where
  heads : List α
  ops : List (ListOp α)
  distinct : heads.Nodup
  allowed : AllowedFrom heads [] ops

def ListSession.run (s : ListSession α) : Program (Cells α) Unit := do
  s.heads.forM initListHead
  s.ops.forM ListOp.run

/-- Two lists, one of which takes over a cell of the other. -/
def sampleSession : ListSession Nat where
  heads := [1, 2]
  ops := [.addTail 10 1, .addTail 11 2, .addTail 12 1, .del 10, .addTail 10 2]
  distinct := by decide
  allowed := by decide

example : members 1 sampleSession.ops = [12] ∧ members 2 sampleSession.ops = [11, 10] := by decide

/-- The list that the operation changes is that of `head`. -/
def ListOp.On (before : List (ListOp α)) (head : α) : ListOp α → Prop
  | .addTail _ h => h = head
  | .del entry => entry ∈ members head before

section Step

variable {heads before : List α} {head : α} {ops : List (ListOp α)} {c : Cells α}

private theorem members_addTail (head new h : α) (ops : List (ListOp α)) :
    members head (ops ++ [.addTail new h]) =
      members head ops ++ if h = head then [new] else [] := by
  induction ops with
  | nil => simp [members]
  | cons op ops ih =>
      cases op with
      | addTail a b =>
          simp only [List.cons_append, members, List.mem_append, List.mem_singleton, reduceCtorEq,
            or_false, ih]
          split
          · rfl
          · rfl
      | del a => simpa only [List.cons_append, members] using ih

private theorem members_del (head e : α) (ops : List (ListOp α)) :
    members head (ops ++ [.del e]) = (members head ops).filter (· ≠ e) := by
  induction ops with
  | nil => simp [members]
  | cons op ops ih =>
      cases op with
      | addTail a b =>
          simp only [List.cons_append, members, List.mem_append, List.mem_singleton,
            ListOp.del.injEq, ih]
          by_cases hold : b = head ∧ .del a ∉ ops
          · by_cases hae : a = e
            · rw [if_neg (by simp [hae]), if_pos hold, List.filter_cons_of_neg (by simp [hae])]
            · rw [if_pos (by simp [hae, hold]), if_pos hold,
                List.filter_cons_of_pos (by simp [hae])]
          · rw [if_neg (by tauto), if_neg hold]
      | del a => simpa only [List.cons_append, members] using ih

private theorem returns_addTail {new : α} (h : c.links.Rings heads (members · ops))
    (hop : (ListOp.addTail new head).Allowed heads ops) :
    Returns (listAddTail new head) c fun _ c' =>
      c'.links.Rings heads (members · (ops ++ [.addTail new head])) ∧
        ∀ other ∈ heads, head ≠ other → SameOn c.links c'.links (other :: members other ops) := by
  obtain ⟨hhead, hnew, hfree⟩ := hop
  have hout : ∀ other ∈ heads, new ∉ other :: members other ops := by
    intro other hmem
    rw [List.mem_cons, not_or]
    exact ⟨fun he => hnew (he ▸ hmem), hfree other hmem⟩
  rw [returns_listAddTail]
  refine ⟨h.add_tail hhead hout ?_ fun other _ hne => ?_, fun other hmem hne => ?_⟩
  · rw [members_addTail, if_pos rfl]
  · rw [members_addTail, if_neg hne.symm, List.append_nil]
  · exact h.same_add_tail hhead hout hmem hne.symm

private theorem returns_del {e : α} (h : c.links.Rings heads (members · ops))
    (hop : (ListOp.del e).Allowed heads ops) :
    Returns (listDel e) c fun _ c' =>
      c'.links.Rings heads (members · (ops ++ [.del e])) ∧
        ∀ other ∈ heads, e ∉ members other ops →
          SameOn c.links c'.links (other :: members other ops) := by
  obtain ⟨head, hhead, he⟩ := hop
  obtain ⟨before, after, hsplit⟩ := List.append_of_mem he
  have hother : ∀ other ∈ heads, other ≠ head → e ∉ members other ops := fun other hmem hne hin =>
    h.apart head hhead other hmem hne e (List.mem_cons_of_mem _ hin) (List.mem_cons_of_mem _ he)
  have hnd := (List.nodup_cons.mp (h.ring head hhead).nodup).2
  rw [hsplit] at hnd
  rw [returns_listDel]
  refine ⟨h.delete hhead hsplit ?_ fun other hmem hne => ?_, fun other hmem hout => ?_⟩
  · have hmid := List.nodup_middle.mp hnd
    rw [List.nodup_cons, List.mem_append, not_or] at hmid
    rw [members_del, hsplit, List.filter_append, List.filter_cons_of_neg (by simp),
      List.filter_eq_self.mpr, List.filter_eq_self.mpr]
    · intro x hx
      simpa using fun hxe : x = e => hmid.1.2 (hxe ▸ hx)
    · intro x hx
      simpa using fun hxe : x = e => hmid.1.1 (hxe ▸ hx)
  · rw [members_del, List.filter_eq_self]
    intro x hx
    simpa using fun hxe : x = e => hother other hmem hne (hxe ▸ hx)
  · have hne : other ≠ head := fun heq => hout (heq ▸ he)
    exact h.same_delete hhead he hmem hne

theorem ListOp.returns_run {op : ListOp α} (h : c.links.Rings heads (members · ops))
    (hop : op.Allowed heads ops) :
    Returns op.run c fun _ c' => c'.links.Rings heads (members · (ops ++ [op])) ∧
      ∀ head ∈ heads, ¬ op.On ops head →
        SameOn c.links c'.links (head :: members head ops) := by
  cases op with
  | addTail new head => exact returns_addTail h hop
  | del e => exact returns_del h hop

end Step

section Run

variable {heads : List α} {c : Cells α}

private theorem returns_inits {done rest : List α} (h : c.links.Rings done fun _ => [])
    (hnd : (done ++ rest).Nodup) :
    Returns (rest.forM initListHead) c fun _ c' =>
      c'.links.Rings (done ++ rest) fun _ => [] := by
  induction rest generalizing done c with
  | nil => simpa using h
  | cons head rest ih =>
      have hnew : ∀ other ∈ done, head ∉ [other] := by
        intro other hmem he
        rw [List.nodup_append] at hnd
        exact hnd.2.2 other hmem head (by simp) (List.mem_singleton.mp he).symm
      have hassoc : done ++ head :: rest = (done ++ [head]) ++ rest := by simp
      rw [hassoc] at hnd ⊢
      simp only [List.forM_eq_forM, List.forM_cons, returns_bind, returns_initListHead]
      exact ih (h.start rfl hnew) hnd

private theorem returns_ops {before ops : List (ListOp α)}
    (h : c.links.Rings heads (members · before)) (hops : AllowedFrom heads before ops) :
    Returns (ops.forM ListOp.run) c fun _ c' =>
      c'.links.Rings heads (members · (before ++ ops)) := by
  induction ops generalizing before c with
  | nil => simpa using h
  | cons op ops ih =>
      have hassoc : before ++ op :: ops = (before ++ [op]) ++ ops := by simp
      rw [hassoc]
      simp only [List.forM_eq_forM, List.forM_cons, returns_bind]
      apply (ListOp.returns_run h hops.1).mono
      rintro ⟨⟩ c' ⟨hrings, -⟩
      exact ih hrings hops.2

/-- **The lists of a session** are there after any of its runs, whatever the cells held before. -/
theorem ListSession.returns_run (s : ListSession α) (c : Cells α) :
    Returns s.run c fun _ c' => c'.links.Rings s.heads (members · s.ops) := by
  have hnone : c.links.Rings ([] : List α) fun _ => [] := ⟨by simp, by simp⟩
  rw [ListSession.run, returns_bind]
  apply (returns_inits hnone s.distinct).mono
  rintro ⟨⟩ c' hrings
  exact returns_ops hrings s.allowed

end Run

/-- **The lists keep their shape.** After any session, following next from a head visits what was
added to it and not deleted since, in order, and following prev visits it in reverse;
`list_empty` tells whether anything is left; and an operation that may come next, like the
initialisation of another head, changes no link of a list that it is not on. -/
theorem listSession_keeps_lists (s : ListSession α) (c : Cells α) :
    Returns s.run c fun _ c' =>
      (∀ head ∈ s.heads, Tours c'.links.next head (members head s.ops) ∧
        Tours c'.links.prev head (members head s.ops).reverse ∧
        Returns (listEmpty head) c' fun empty c'' =>
          (empty = true ↔ members head s.ops = []) ∧ c''.links = c'.links) ∧
      (∀ op : ListOp α, op.Allowed s.heads s.ops → Returns op.run c' fun _ c'' =>
        ∀ head ∈ s.heads, ¬ op.On s.ops head →
          SameOn c'.links c''.links (head :: members head s.ops)) ∧
      ∀ new, (∀ head ∈ s.heads, new ∉ head :: members head s.ops) →
        Returns (initListHead new) c' fun _ c'' =>
          ∀ head ∈ s.heads, SameOn c'.links c''.links (head :: members head s.ops) := by
  apply (s.returns_run c).mono
  rintro ⟨⟩ c' hrings
  refine ⟨fun head hmem => ?_, fun op hop => ?_, fun new hnew => ?_⟩
  · have hring := hrings.ring head hmem
    refine ⟨hring.tours_next, hring.tours_prev, ?_⟩
    rw [returns_listEmpty]
    exact ⟨by rw [decide_eq_true_eq, hring.next_eq_head_iff], rfl⟩
  · exact (ListOp.returns_run hrings hop).mono fun _ _ h => h.2
  · rw [returns_initListHead]
    exact fun head hmem => sameOn_join (hnew head hmem) (hnew head hmem)

theorem sample_lists (c : Cells Nat) :
    Returns sampleSession.run c fun _ c' =>
      Tours c'.links.next 1 [12] ∧ Tours c'.links.prev 2 [10, 11] := by
  apply (listSession_keeps_lists sampleSession c).mono
  rintro ⟨⟩ c' ⟨hlists, -⟩
  exact ⟨(hlists 1 (by decide)).1, (hlists 2 (by decide)).2.1⟩

end UbifsScan
