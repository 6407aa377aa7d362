import Mathlib.Tactic.Common

/-!
# Labelled steps

The finite paths of a labelled step relation. Over a deterministic relation two paths from one
start are comparable, so a path that ends where no step is possible is the only maximal one.
-/

/-- `Steps step s ls t`: steps labelled `ls` lead from `s` to `t`. -/
inductive Steps {α ι : Type} (step : α → ι → α → Prop) : α → List ι → α → Prop
  | nil (s : α) : Steps step s [] s
  | cons {s t u : α} {l : ι} {ls : List ι} (h : step s l t) (hs : Steps step t ls u) :
      Steps step s (l :: ls) u

namespace Steps

variable {α ι : Type} {step : α → ι → α → Prop} {s t u : α} {ls ms : List ι}

theorem append (h : Steps step s ls t) (h' : Steps step t ms u) : Steps step s (ls ++ ms) u := by
  induction h with
  | nil s => exact h'
  | cons hstep _ ih => exact .cons hstep (ih h')

theorem snoc {l : ι} (h : Steps step s ls t) (hl : step t l u) : Steps step s (ls ++ [l]) u :=
  h.append (.cons hl (.nil u))

theorem split (h : Steps step s (ls ++ ms) u) : ∃ t, Steps step s ls t ∧ Steps step t ms u := by
  induction ls generalizing s with
  | nil => exact ⟨s, .nil s, h⟩
  | cons l ls ih =>
      cases h with
      | cons hstep hrest =>
          obtain ⟨t, hls, hms⟩ := ih hrest
          exact ⟨t, .cons hstep hls, hms⟩

theorem inv {P : α → Prop} (hstep : ∀ s l t, step s l t → P s → P t)
    (h : Steps step s ls t) (hs : P s) : P t := by
  induction h with
  | nil s => exact hs
  | cons hl _ ih => exact ih (hstep _ _ _ hl hs)

/-- A simulation carries over to paths: what each step matches, a path matches step by step. -/
theorem simulate {β : Type} (step' : β → ι → β → Prop) (R : α → β → Prop)
    (hstep : ∀ s l t x, step s l t → R s x → ∃ y, step' x l y ∧ R t y)
    (h : Steps step s ls t) {x : β} (hs : R s x) : ∃ y, Steps step' x ls y ∧ R t y := by
  induction h generalizing x with
  | nil s => exact ⟨x, .nil x, hs⟩
  | cons hl _ ih =>
      obtain ⟨y, hl', hy⟩ := hstep _ _ _ x hl hs
      obtain ⟨z, hsteps, hz⟩ := ih hy
      exact ⟨z, .cons hl' hsteps, hz⟩

theorem mem_step {l : ι} (h : Steps step s ls t) (hl : l ∈ ls) :
    ∃ x y before after, ls = before ++ l :: after ∧ Steps step s before x ∧ step x l y ∧
      Steps step y after t := by
  obtain ⟨before, after, rfl⟩ := List.append_of_mem hl
  obtain ⟨x, hbefore, hrest⟩ := split h
  cases hrest with
  | cons hstep hafter => exact ⟨x, _, before, after, rfl, hbefore, hstep, hafter⟩

/-- At each state at most one step is possible. -/
def Deterministic (step : α → ι → α → Prop) : Prop :=
  ∀ s l t m u, step s l t → step s m u → l = m ∧ t = u

def Stuck (step : α → ι → α → Prop) (s : α) : Prop := ∀ l t, ¬ step s l t

theorem comparable (hdet : Deterministic step) (h : Steps step s ls t) (h' : Steps step s ms u) :
    (∃ rest, ms = ls ++ rest ∧ Steps step t rest u) ∨
      (∃ rest, ls = ms ++ rest ∧ Steps step u rest t) := by
  induction h generalizing ms with
  | nil s => exact .inl ⟨ms, rfl, h'⟩
  | @cons s x t l ls hl hrest ih =>
      cases h' with
      | nil => exact .inr ⟨l :: ls, rfl, .cons hl hrest⟩
      | @cons _ y _ m ms hm hrest' =>
          obtain ⟨rfl, rfl⟩ := hdet _ _ _ _ _ hl hm
          rcases ih hrest' with ⟨rest, rfl, hp⟩ | ⟨rest, rfl, hp⟩
          · exact .inl ⟨rest, rfl, hp⟩
          · exact .inr ⟨rest, rfl, hp⟩

theorem extends_of_stuck (hdet : Deterministic step) (h : Steps step s ls t)
    (ht : Stuck step t) (h' : Steps step s ms u) :
    ∃ rest, ls = ms ++ rest ∧ Steps step u rest t := by
  rcases comparable hdet h h' with ⟨rest, rfl, hp⟩ | hshort
  · cases hp with
    | nil => exact ⟨[], by simp, .nil t⟩
    | cons hl _ => exact absurd hl (ht _ _)
  · exact hshort

theorem unique_of_stuck (hdet : Deterministic step) (h : Steps step s ls t) (ht : Stuck step t)
    (h' : Steps step s ms u) (hu : Stuck step u) : ls = ms ∧ t = u := by
  obtain ⟨rest, rfl, hp⟩ := extends_of_stuck hdet h ht h'
  cases hp with
  | nil => exact ⟨by simp, rfl⟩
  | cons hl _ => exact absurd hl (hu _ _)

end Steps
