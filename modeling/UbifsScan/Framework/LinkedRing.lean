import Mathlib.Data.List.Chain
import Mathlib.Data.List.Nodup
import Mathlib.Tactic.Common

/-!
# Circular doubly linked lists

Cells that hold a next and a previous cell, as a memory over any type of addresses. A ring is a
head cell and the distinct cells met on the way back to it; joining two cells is the one update
that insertion and deletion are made of.
-/

/-- A memory of list cells. -/
structure Links (α : Type) where
  next : α → α
  prev : α → α

namespace Links

variable {α : Type} {m m' : Links α} {head : α} {xs : List α}

def Linked (m : Links α) (a b : α) : Prop := m.next a = b ∧ m.prev b = a

/-- From `head` the next cells are `xs` and then `head` again; the previous cells mirror them. -/
structure Ring (m : Links α) (head : α) (xs : List α) : Prop where
  chain : (head :: (xs ++ [head])).IsChain m.Linked
  nodup : (head :: xs).Nodup

/-- A chain only depends on the next cells of all but its last cell and on the previous cells of
all but its first. -/
theorem chain_congr {l : List α} (h : l.IsChain m.Linked)
    (hnext : ∀ a ∈ l.dropLast, m'.next a = m.next a) (hprev : ∀ b ∈ l.tail, m'.prev b = m.prev b) :
    l.IsChain m'.Linked := by
  induction l with
  | nil => exact .nil
  | cons a l ih =>
      cases l with
      | nil => exact .singleton a
      | cons b l =>
          rw [List.isChain_cons_cons] at h ⊢
          obtain ⟨⟨hn, hp⟩, hrest⟩ := h
          refine ⟨⟨?_, ?_⟩, ih hrest ?_ ?_⟩
          · rw [hnext a (by simp), hn]
          · rw [hprev b (by simp), hp]
          · exact fun x hx => hnext x (by simp [hx])
          · exact fun x hx => hprev x (List.mem_of_mem_tail hx)

theorem Ring.congr (h : m.Ring head xs)
    (hnext : ∀ a ∈ head :: xs, m'.next a = m.next a)
    (hprev : ∀ a ∈ head :: xs, m'.prev a = m.prev a) : m'.Ring head xs := by
  refine ⟨chain_congr h.chain ?_ ?_, h.nodup⟩
  · intro a ha
    apply hnext
    rwa [← List.cons_append, List.dropLast_concat] at ha
  · intro a ha
    apply hprev
    simp only [List.tail_cons, List.mem_append, List.mem_singleton] at ha
    rcases ha with ha | rfl
    · exact List.mem_cons_of_mem _ ha
    · exact List.mem_cons_self

theorem ring_self (h : m.next head = head) (h' : m.prev head = head) : m.Ring head [] :=
  ⟨by simp [Linked, h, h'], by simp⟩

theorem Ring.next_eq_head_iff (h : m.Ring head xs) : m.next head = head ↔ xs = [] := by
  cases xs with
  | nil =>
      have hc := h.chain
      simp only [List.nil_append, List.isChain_cons_cons] at hc
      simp [hc.1.1]
  | cons x xs =>
      have hc := h.chain
      rw [List.cons_append, List.isChain_cons_cons] at hc
      have hx := (List.nodup_cons.mp h.nodup).1
      rw [hc.1.1]
      simp only [List.cons_ne_nil, iff_false]
      exact fun he => hx (by simp [he])

theorem Ring.next_head {x : α} (h : m.Ring head (x :: xs)) : m.next head = x := by
  have hc := h.chain
  rw [List.cons_append, List.isChain_cons_cons] at hc
  exact hc.1.1

theorem Ring.next_mem {a : α} (h : m.Ring head xs) (ha : a ∈ head :: xs) :
    m.next a ∈ head :: xs := by
  obtain ⟨l₁, l₂, hl⟩ := List.append_of_mem ha
  have hc := h.chain
  rw [← List.cons_append, hl, List.append_assoc, List.cons_append, List.isChain_append] at hc
  cases hrest : l₂ ++ [head] with
  | nil => simp at hrest
  | cons b rest =>
      rw [hrest, List.isChain_cons_cons] at hc
      have hb : b ∈ l₂ ++ [head] := by simp [hrest]
      rw [hc.2.1.1.1, hl]
      rcases List.mem_append.mp hb with hb | hb
      · simp [hb]
      · rw [List.mem_singleton] at hb
        rw [← hl, hb]
        simp

theorem Ring.prev_mem {a : α} (h : m.Ring head xs) (ha : a ∈ head :: xs) :
    m.prev a ∈ head :: xs := by
  have ha' : a ∈ xs ++ [head] := by
    rw [List.mem_cons] at ha
    rw [List.mem_append, List.mem_singleton]
    exact ha.symm
  obtain ⟨l₁, l₂, hl⟩ := List.append_of_mem ha'
  obtain ⟨l, p, hp⟩ : ∃ l p, head :: l₁ = l ++ [p] := by
    simpa using (List.eq_nil_or_concat (head :: l₁)).resolve_left (by simp)
  have hc := h.chain
  rw [hl, ← List.cons_append, hp, List.isChain_append] at hc
  have hlink : m.Linked p a := hc.2.2 p (by simp) a (by simp)
  have hpm : p ∈ head :: l₁ := by simp [hp]
  have hsub : l₁ ⊆ xs ++ [head] := by
    rw [hl]
    exact List.subset_append_left _ _
  rw [hlink.2]
  rcases List.mem_cons.mp hpm with rfl | hp₁
  · exact List.mem_cons_self
  · rcases List.mem_append.mp (hsub hp₁) with hx | hx
    · exact List.mem_cons_of_mem _ hx
    · rw [List.mem_singleton] at hx
      simp [hx]

variable [DecidableEq α]

def setNext (m : Links α) (a b : α) : Links α := { m with next := Function.update m.next a b }

def setPrev (m : Links α) (a b : α) : Links α := { m with prev := Function.update m.prev a b }

@[simp] theorem setNext_next (m : Links α) (a b : α) :
    (m.setNext a b).next = Function.update m.next a b := rfl

@[simp] theorem setNext_prev (m : Links α) (a b : α) : (m.setNext a b).prev = m.prev := rfl

@[simp] theorem setPrev_prev (m : Links α) (a b : α) :
    (m.setPrev a b).prev = Function.update m.prev a b := rfl

@[simp] theorem setPrev_next (m : Links α) (a b : α) : (m.setPrev a b).next = m.next := rfl

/-- Make `a` and `b` point at each other. -/
def join (m : Links α) (a b : α) : Links α := (m.setNext a b).setPrev b a

theorem join_next_of_ne {a b c : α} (h : c ≠ a) : (m.join a b).next c = m.next c := by
  simp [join, h]

theorem join_prev_of_ne {a b c : α} (h : c ≠ b) : (m.join a b).prev c = m.prev c := by
  simp [join, h]

theorem chain_join {l₁ l₂ : List α} {p n : α} (h₁ : (l₁ ++ [p]).IsChain m.Linked)
    (h₂ : (n :: l₂).IsChain m.Linked) (hp₁ : p ∉ l₁) (hn₂ : n ∉ l₂)
    (hn₁ : n ∉ (l₁ ++ [p]).tail) (hp₂ : p ∉ (n :: l₂).dropLast) :
    (l₁ ++ p :: n :: l₂).IsChain (m.join p n).Linked := by
  have hleft : (l₁ ++ [p]).IsChain (m.join p n).Linked := by
    apply chain_congr h₁
    · intro a ha
      rw [List.dropLast_concat] at ha
      exact join_next_of_ne (fun he => hp₁ (he ▸ ha))
    · intro b hb
      exact join_prev_of_ne (fun he => hn₁ (he ▸ hb))
  have hright : (n :: l₂).IsChain (m.join p n).Linked := by
    apply chain_congr h₂
    · intro a ha
      exact join_next_of_ne (fun he => hp₂ (he ▸ ha))
    · intro b hb
      exact join_prev_of_ne (fun he => hn₂ (he ▸ hb))
  have happ : l₁ ++ p :: n :: l₂ = (l₁ ++ [p]) ++ (n :: l₂) := by simp
  rw [happ, List.isChain_append]
  refine ⟨hleft, hright, ?_⟩
  intro x hx y hy
  obtain rfl : p = x := by simpa using hx
  obtain rfl : n = y := by simpa using hy
  simp [Linked, join]

theorem Ring.add_tail {new : α} (h : m.Ring head xs) (hnew : new ∉ head :: xs) :
    ((m.join new head).join (m.prev head) new).Ring head (xs ++ [new]) := by
  obtain ⟨l, p, hl⟩ : ∃ l p, head :: xs = l ++ [p] := by
    simpa using (List.eq_nil_or_concat (head :: xs)).resolve_left (by simp)
  have hc := h.chain
  rw [← List.cons_append, hl, List.append_assoc, List.isChain_append] at hc
  have hlink : m.Linked p head := by simpa using hc.2.1
  have hlp : (l ++ [p]).IsChain m.Linked := by
    have hall := h.chain
    rw [← List.cons_append, hl, List.isChain_append] at hall
    exact hall.1
  have hnd := h.nodup
  rw [hl, List.nodup_append] at hnd
  have hpl : p ∉ l := fun hp => hnd.2.2 p hp p (by simp) rfl
  have htail : (l ++ [p]).tail = xs := by rw [← hl, List.tail_cons]
  have hhead : head ∉ xs := (List.nodup_cons.mp h.nodup).1
  have hnl : new ∉ l ++ [p] := hl ▸ hnew
  have hleft : (l ++ [p]).IsChain (m.join new head).Linked := by
    apply chain_congr hlp
    · intro a ha
      rw [List.dropLast_concat] at ha
      exact join_next_of_ne (fun he => hnl (by simp [← he, ha]))
    · intro b hb
      rw [htail] at hb
      exact join_prev_of_ne (fun he => hhead (he ▸ hb))
  have hright : [new, head].IsChain (m.join new head).Linked := by
    simp [Linked, join]
  have hnh : new ≠ head := fun he => hnew (by simp [he])
  refine ⟨?_, ?_⟩
  · have hjoin := chain_join hleft hright hpl (by simpa using hnh)
      (by rw [htail]; exact fun hx => hnew (List.mem_cons_of_mem _ hx))
      (by simpa using fun he : p = new => hnl (by simp [he]))
    have hlist : head :: (xs ++ [new] ++ [head]) = l ++ p :: new :: [head] := by
      rw [List.append_assoc, ← List.cons_append, hl]
      simp
    rw [hlist, hlink.2]
    exact hjoin
  · rw [← List.cons_append, List.nodup_append]
    refine ⟨h.nodup, by simp, ?_⟩
    intro a ha b hb
    rw [List.mem_singleton] at hb
    exact fun he => hnew (hb ▸ he ▸ ha)

theorem Ring.delete (before : List α) {after : List α} {e : α}
    (h : m.Ring head (before ++ e :: after)) :
    (m.join (m.prev e) (m.next e)).Ring head (before ++ after) := by
  obtain ⟨l₁, p, hl₁⟩ : ∃ l p, head :: before = l ++ [p] := by
    simpa using (List.eq_nil_or_concat (head :: before)).resolve_left (by simp)
  obtain ⟨n, l₂, hl₂⟩ : ∃ n l, after ++ [head] = n :: l := by
    cases hcase : after ++ [head] with
    | nil => simp at hcase
    | cons n l => exact ⟨n, l, rfl⟩
  have hc := h.chain
  have hlist : head :: (before ++ e :: after ++ [head]) = (l₁ ++ [p]) ++ (e :: n :: l₂) := by
    rw [← hl₁, ← hl₂]
    simp
  rw [hlist, List.isChain_append, List.isChain_cons_cons] at hc
  obtain ⟨hleft, ⟨hen, hright⟩, hpe⟩ := hc
  have hpe : m.Linked p e := hpe p (by simp) e (by simp)
  have hnd : (head :: (before ++ after)).Nodup := by
    apply List.Nodup.sublist ?_ h.nodup
    simp
  rw [hpe.2, hen.1]
  have hnd₁ : (l₁ ++ [p]).Nodup := by
    rw [← hl₁]
    exact hnd.sublist (by simp)
  have hhead : head ∉ before ++ after := (List.nodup_cons.mp hnd).1
  have hparts := List.nodup_append.mp (List.nodup_cons.mp hnd).2
  have hnmem : n ∈ after ++ [head] := by simp [hl₂]
  have hpmem : p ∈ head :: before := by simp [hl₁]
  have hnd₂ : (n :: l₂).Nodup := by
    rw [← hl₂, List.nodup_append]
    refine ⟨hparts.2.1, by simp, ?_⟩
    intro a ha b hb
    rw [List.mem_singleton] at hb
    exact fun he => hhead (by simp [← hb, ← he, ha])
  refine ⟨?_, hnd⟩
  have hjoin := chain_join hleft hright
    (fun hp => (List.nodup_append.mp hnd₁).2.2 p hp p (by simp) rfl)
    (List.nodup_cons.mp hnd₂).1 ?_ ?_
  · have hgoal : head :: (before ++ after ++ [head]) = l₁ ++ p :: n :: l₂ := by
      rw [List.append_assoc, ← List.cons_append, hl₁, hl₂]
      simp
    rw [hgoal]
    exact hjoin
  · rw [← hl₁, List.tail_cons]
    intro hn
    rcases List.mem_append.mp hnmem with ha | ha
    · exact hparts.2.2 n hn n ha rfl
    · exact hhead (by rw [List.mem_singleton] at ha; simp [← ha, hn])
  · rw [← hl₂, List.dropLast_concat]
    intro hp
    rcases List.mem_cons.mp hpmem with hb | hb
    · exact hhead (by simp [← hb, hp])
    · exact hparts.2.2 p hb p hp rfl

/-- Follow `step` from a cell until the head is met, for at most `n` cells. -/
def walk (step : α → α) (head : α) : Nat → α → List α
  | 0, _ => []
  | n + 1, a => if a = head then [] else a :: walk step head n (step a)

private theorem walk_chain {a : α} {n : Nat} (hc : (a :: (xs ++ [head])).IsChain m.Linked)
    (hhead : head ∉ xs) (hn : xs.length < n) : walk m.next head n (m.next a) = xs := by
  induction xs generalizing a n with
  | nil =>
      obtain ⟨n, rfl⟩ : ∃ k, n = k + 1 := ⟨n - 1, by simp at hn; omega⟩
      have hlink : m.Linked a head := by simpa using hc
      simp [walk, hlink.1]
  | cons x xs ih =>
      obtain ⟨n, rfl⟩ : ∃ k, n = k + 1 := ⟨n - 1, by simp at hn; omega⟩
      rw [List.cons_append, List.isChain_cons_cons] at hc
      rw [List.mem_cons, not_or] at hhead
      have hx : x ≠ head := fun he => hhead.1 he.symm
      rw [hc.1.1, walk, if_neg hx, ih hc.2 hhead.2 (by simpa using hn)]

theorem Ring.walk_next {n : Nat} (h : m.Ring head xs) (hn : xs.length < n) :
    walk m.next head n (m.next head) = xs :=
  walk_chain h.chain (List.nodup_cons.mp h.nodup).1 hn

end Links
