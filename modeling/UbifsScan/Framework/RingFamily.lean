import UbifsScan.Framework.LinkedRing
import Mathlib.Data.List.Iterate

/-!
# Rings side by side

Several rings in one memory, with no cell in common. An update that keeps one of them a ring and
leaves the links of the others alone keeps them all; insertion at the end and deletion are such
updates.
-/

namespace Links

variable {α : Type} {m m' : Links α} {head : α} {xs : List α}

/-- Following `step` from `head` visits the distinct cells `xs` and returns to `head`. -/
def Tours (step : α → α) (head : α) (xs : List α) : Prop :=
  List.iterate step (step head) (xs.length + 1) = xs ++ [head] ∧ (head :: xs).Nodup

private theorem iterate_of_chain {step : α → α} {a b : α}
    (h : (a :: (xs ++ [b])).IsChain fun x y => step x = y) :
    List.iterate step (step a) (xs.length + 1) = xs ++ [b] := by
  induction xs generalizing a with
  | nil =>
      have hstep : step a = b := by simpa using h
      simp [List.iterate, hstep]
  | cons x xs ih =>
      rw [List.cons_append, List.isChain_cons_cons] at h
      rw [List.length_cons, List.iterate, h.1, ih h.2]
      rfl

theorem Ring.tours_next (h : m.Ring head xs) : Tours m.next head xs :=
  ⟨iterate_of_chain (h.chain.imp fun _ _ hlink => hlink.1), h.nodup⟩

theorem Ring.tours_prev (h : m.Ring head xs) : Tours m.prev head xs.reverse := by
  have hback : (head :: (xs.reverse ++ [head])).IsChain fun x y => m.prev x = y := by
    have hrev := List.isChain_reverse.mpr (h.chain.imp fun _ _ hlink => hlink.2)
    simpa [flip] using hrev
  refine ⟨iterate_of_chain hback, ?_⟩
  have hnd := h.nodup
  rw [List.nodup_cons] at hnd ⊢
  simpa using hnd

/-- The links of the cells `xs` are the same in both memories. -/
def SameOn (m m' : Links α) (xs : List α) : Prop :=
  ∀ x ∈ xs, m'.next x = m.next x ∧ m'.prev x = m.prev x

theorem SameOn.trans {m'' : Links α} (h : SameOn m m' xs) (h' : SameOn m' m'' xs) :
    SameOn m m'' xs :=
  fun x hx => ⟨(h' x hx).1.trans (h x hx).1, (h' x hx).2.trans (h x hx).2⟩

theorem Ring.same (h : m.Ring head xs) (hsame : SameOn m m' (head :: xs)) : m'.Ring head xs :=
  h.congr (fun a ha => (hsame a ha).1) fun a ha => (hsame a ha).2

/-- From each of `heads` there is a ring of its `contents`, and the rings have no cell in common. -/
structure Rings (m : Links α) (heads : List α) (contents : α → List α) : Prop where
  ring : ∀ head ∈ heads, m.Ring head (contents head)
  apart : ∀ head ∈ heads, ∀ other ∈ heads, other ≠ head →
    ∀ x ∈ other :: contents other, x ∉ head :: contents head

variable {heads : List α} {contents contents' : α → List α}

/-- One ring changes to the cells `contents' head`, which are its own or in no ring before. -/
theorem Rings.update (h : m.Rings heads contents) (hhead : head ∈ heads)
    (hring : m'.Ring head (contents' head))
    (hown : ∀ x ∈ contents' head, x ∈ contents head ∨ ∀ other ∈ heads, x ∉ other :: contents other)
    (hother : ∀ other ∈ heads, other ≠ head →
      contents' other = contents other ∧ SameOn m m' (other :: contents other)) :
    m'.Rings heads contents' := by
  have hout : ∀ other ∈ heads, other ≠ head → ∀ x ∈ other :: contents other,
      x ∉ head :: contents' head := by
    intro other hmem hne x hx hx'
    rcases List.mem_cons.mp hx' with rfl | hx'
    · exact h.apart x hhead other hmem hne x hx List.mem_cons_self
    · rcases hown x hx' with hin | hfree
      · exact h.apart head hhead other hmem hne x hx (List.mem_cons_of_mem _ hin)
      · exact hfree other hmem hx
  refine ⟨fun a ha => ?_, fun a ha b hb hab x hx hx' => ?_⟩
  · by_cases hah : a = head
    · rw [hah]
      exact hring
    · obtain ⟨heq, hsame⟩ := hother a ha hah
      rw [heq]
      exact (h.ring a ha).same hsame
  · by_cases hah : a = head
    · subst hah
      rw [(hother b hb hab).1] at hx
      exact hout b hb hab x hx hx'
    · rw [(hother a ha hah).1] at hx'
      by_cases hbh : b = head
      · subst hbh
        exact hout a ha hah x hx' hx
      · rw [(hother b hb hbh).1] at hx
        exact h.apart a ha b hb hab x hx hx'

variable [DecidableEq α]

theorem sameOn_join {a b : α} (ha : a ∉ xs) (hb : b ∉ xs) : SameOn m (m.join a b) xs := by
  intro x hx
  exact ⟨join_next_of_ne fun he => ha (he ▸ hx), join_prev_of_ne fun he => hb (he ▸ hx)⟩

theorem Rings.same_add_tail {new other : α} (h : m.Rings heads contents) (hhead : head ∈ heads)
    (hnew : ∀ other ∈ heads, new ∉ other :: contents other) (hmem : other ∈ heads)
    (hne : other ≠ head) :
    SameOn m ((m.join new head).join (m.prev head) new) (other :: contents other) := by
  have hout : ∀ x ∈ head :: contents head, x ∉ other :: contents other :=
    fun x hx hx' => h.apart head hhead other hmem hne x hx' hx
  have hlast := (h.ring head hhead).prev_mem List.mem_cons_self
  exact (sameOn_join (hnew other hmem) (hout head List.mem_cons_self)).trans
    (sameOn_join (hout _ hlast) (hnew other hmem))

theorem Rings.same_delete {e other : α} (h : m.Rings heads contents) (hhead : head ∈ heads)
    (he : e ∈ contents head) (hmem : other ∈ heads) (hne : other ≠ head) :
    SameOn m (m.join (m.prev e) (m.next e)) (other :: contents other) := by
  have hout : ∀ x ∈ head :: contents head, x ∉ other :: contents other :=
    fun x hx hx' => h.apart head hhead other hmem hne x hx' hx
  have hring := h.ring head hhead
  have he' : e ∈ head :: contents head := List.mem_cons_of_mem _ he
  exact sameOn_join (hout _ (hring.prev_mem he')) (hout _ (hring.next_mem he'))

theorem Rings.add_tail {new : α} (h : m.Rings heads contents) (hhead : head ∈ heads)
    (hnew : ∀ other ∈ heads, new ∉ other :: contents other)
    (hcontents : contents' head = contents head ++ [new])
    (hother : ∀ other ∈ heads, other ≠ head → contents' other = contents other) :
    ((m.join new head).join (m.prev head) new).Rings heads contents' := by
  apply h.update hhead
  · rw [hcontents]
    exact (h.ring head hhead).add_tail (hnew head hhead)
  · intro x hx
    rw [hcontents, List.mem_append, List.mem_singleton] at hx
    rcases hx with hx | rfl
    · exact .inl hx
    · exact .inr hnew
  · exact fun other hmem hne => ⟨hother other hmem hne, h.same_add_tail hhead hnew hmem hne⟩

theorem Rings.delete {e : α} {before after : List α} (h : m.Rings heads contents)
    (hhead : head ∈ heads) (hsplit : contents head = before ++ e :: after)
    (hcontents : contents' head = before ++ after)
    (hother : ∀ other ∈ heads, other ≠ head → contents' other = contents other) :
    (m.join (m.prev e) (m.next e)).Rings heads contents' := by
  have he : e ∈ contents head := by simp [hsplit]
  apply h.update hhead
  · rw [hcontents]
    exact Ring.delete before (hsplit ▸ h.ring head hhead)
  · intro x hx
    rw [hcontents] at hx
    rw [hsplit]
    exact .inl (List.mem_append.mpr ((List.mem_append.mp hx).imp_right (List.mem_cons_of_mem e)))
  · exact fun other hmem hne => ⟨hother other hmem hne, h.same_delete hhead he hmem hne⟩

theorem Rings.start {new : α} (h : m.Rings heads contents) (hempty : contents new = [])
    (hnew : ∀ other ∈ heads, new ∉ other :: contents other) :
    (m.join new new).Rings (heads ++ [new]) contents := by
  have hstart : (m.join new new).Ring new (contents new) := by
    rw [hempty]
    exact ring_self (by simp [join]) (by simp [join])
  have hkeep : ∀ head ∈ heads, (m.join new new).Ring head (contents head) := fun head hmem =>
    (h.ring head hmem).same (sameOn_join (hnew head hmem) (hnew head hmem))
  refine ⟨fun head hmem => ?_, fun head hmem other hmem' hne x hx hx' => ?_⟩
  · rcases List.mem_append.mp hmem with hmem | hmem
    · exact hkeep head hmem
    · rw [List.mem_singleton.mp hmem]
      exact hstart
  · rcases List.mem_append.mp hmem with hold | hnew₁
    · rcases List.mem_append.mp hmem' with hold' | hnew₂
      · exact h.apart head hold other hold' hne x hx hx'
      · obtain rfl := List.mem_singleton.mp hnew₂
        rw [hempty, List.mem_singleton] at hx
        exact hnew head hold (hx ▸ hx')
    · obtain rfl := List.mem_singleton.mp hnew₁
      rw [hempty, List.mem_singleton] at hx'
      rcases List.mem_append.mp hmem' with hold' | hnew₂
      · exact hnew other hold' (hx' ▸ hx)
      · exact hne (List.mem_singleton.mp hnew₂)

end Links
