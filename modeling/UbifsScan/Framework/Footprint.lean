import UbifsScan.Framework.Program

/-!
# Runs that follow each other

A program that records which places of its input it looks at, run twice on two inputs. The second
run follows the first when it does the same as long as the inputs agree on the places that the
first looked at. Following is kept by composition and by loops, so it is proved of a program part
by part.
-/

namespace Program

/-- What two runs are compared by: the part of the state that they share and the record of the
places looked at. -/
structure Observer (σ κ ι : Type) where
  core : σ → κ
  log : σ → List ι

variable {σ α β γ κ ι : Type} {obs : Observer σ κ ι} {agree : ι → Prop}

/-- When `p` returns from `s`, it has looked at some places; if the inputs agree there, then `q`
returns from `t` with the same value and the same core, and has looked at the same places. -/
def FollowsAt (obs : Observer σ κ ι) (agree : ι → Prop) (q p : Program σ α) (t s : σ) : Prop :=
  ∀ a s', p.run s = some (a, s') → ∃ is, obs.log s' = obs.log s ++ is ∧
    ((∀ i ∈ is, agree i) → ∃ t', q.run t = some (a, t') ∧ obs.core t' = obs.core s' ∧
      obs.log t' = obs.log t ++ is)

/-- `q` follows `p` from every pair of states with the same core. -/
def Follows (obs : Observer σ κ ι) (agree : ι → Prop) (q p : Program σ α) : Prop :=
  ∀ s t, obs.core t = obs.core s → FollowsAt obs agree q p t s

theorem follows_pure (a : α) : Follows obs agree (pure a : Program σ α) (pure a) := by
  intro s t hcore b s' hrun
  obtain ⟨rfl, rfl⟩ := Prod.mk.inj (Option.some.inj hrun)
  exact ⟨[], by simp, fun _ => ⟨t, rfl, hcore, by simp⟩⟩

theorem follows_failure (q : Program σ α) : Follows obs agree q failure := by
  intro s t _ a s' hrun
  cases hrun

theorem follows_bind {q p : Program σ α} {g f : α → Program σ β} (h : Follows obs agree q p)
    (hf : ∀ a, Follows obs agree (g a) (f a)) : Follows obs agree (q >>= g) (p >>= f) := by
  intro s t hcore b s' hrun
  rw [StateT.run_bind] at hrun
  obtain ⟨⟨a, s₁⟩, hp, hrest⟩ := Option.bind_eq_some_iff.mp hrun
  obtain ⟨is, hlog, hsame⟩ := h s t hcore a s₁ hp
  -- Where the places of the first part do not agree nothing more is to be shown of the second run.
  by_cases hagree : ∀ i ∈ is, agree i
  · obtain ⟨t₁, hq, hcore₁, hlog₁⟩ := hsame hagree
    obtain ⟨js, hlog', hsame'⟩ := hf a s₁ t₁ hcore₁ b s' hrest
    refine ⟨is ++ js, by rw [hlog', hlog, List.append_assoc], fun hall => ?_⟩
    obtain ⟨t', hg, hcore', hlog₂⟩ := hsame' fun i hi => hall i (List.mem_append_right is hi)
    refine ⟨t', ?_, hcore', by rw [hlog₂, hlog₁, List.append_assoc]⟩
    rw [StateT.run_bind, hq]
    exact hg
  · obtain ⟨js, hlog', -⟩ := hf a s₁ s₁ rfl b s' hrest
    refine ⟨is ++ js, by rw [hlog', hlog, List.append_assoc], fun hall => ?_⟩
    exact absurd (fun i hi => hall i (List.mem_append_left js hi)) hagree

theorem follows_map {q p : Program σ α} (f : α → β) (h : Follows obs agree q p) :
    Follows obs agree (f <$> q) (f <$> p) := by
  rw [map_eq_pure_bind, map_eq_pure_bind]
  exact follows_bind h fun a => follows_pure (f a)

theorem follows_ite {c : Prop} [Decidable c] {q p q' p' : Program σ α}
    (h : Follows obs agree q p) (h' : Follows obs agree q' p') :
    Follows obs agree (if c then q else q') (if c then p else p') := by
  split
  · exact h
  · exact h'

theorem follows_get {g f : σ → Program σ α}
    (h : ∀ s t, obs.core t = obs.core s → FollowsAt obs agree (g t) (f s) t s) :
    Follows obs agree (get >>= g) (get >>= f) := by
  intro s t hcore a s' hrun
  rw [StateT.run_bind] at hrun ⊢
  exact h s t hcore a s' hrun

/-- What changes neither the core nor the record. -/
def Silent (obs : Observer σ κ ι) (e : Program σ Unit) : Prop :=
  ∀ s, ∃ s', e.run s = some ((), s') ∧ obs.core s' = obs.core s ∧ obs.log s' = obs.log s

theorem Silent.seq {e f : Program σ Unit} (he : Silent obs e) (hf : Silent obs f) :
    Silent obs (do e; f) := by
  intro s
  obtain ⟨s₁, hrun₁, hcore₁, hlog₁⟩ := he s
  obtain ⟨s₂, hrun₂, hcore₂, hlog₂⟩ := hf s₁
  refine ⟨s₂, ?_, hcore₂.trans hcore₁, hlog₂.trans hlog₁⟩
  rw [StateT.run_bind, hrun₁]
  exact hrun₂

theorem follows_silent {e e' : Program σ Unit} (h : Silent obs e) (h' : Silent obs e') :
    Follows obs agree e' e := by
  intro s t hcore a s' hrun
  obtain ⟨s₁, hrun₁, hcore₁, hlog₁⟩ := h s
  rw [hrun₁] at hrun
  obtain ⟨rfl, rfl⟩ := Prod.mk.inj (Option.some.inj hrun)
  obtain ⟨t₁, hrun', hcore', hlog'⟩ := h' t
  exact ⟨[], by simp [hlog₁], fun _ => ⟨t₁, hrun', by rw [hcore', hcore, hcore₁], by simp [hlog']⟩⟩

/-- Silent parts that only one of two programs has do not matter. -/
theorem follows_unless {c c' : Prop} [Decidable c] [Decidable c'] {e e' : Program σ Unit}
    {q p : Program σ α} (he : Silent obs e) (he' : Silent obs e') (h : Follows obs agree q p) :
    Follows obs agree (if c' then (do e'; q) else q) (if c then (do e; p) else p) := by
  have hskip : Silent obs (pure ()) := fun s => ⟨s, rfl, rfl, rfl⟩
  have hone : ∀ {d : Prop} [Decidable d] (a : Program σ Unit) (r : Program σ α),
      (if d then (do a; r) else r) = (if d then a else pure ()) >>= fun _ => r := by
    intro d _ a r
    split
    · rfl
    · rw [pure_bind]
  rw [hone, hone]
  refine follows_bind (follows_silent ?_ ?_) fun _ => h
  · split
    · exact he
    · exact hskip
  · split
    · exact he'
    · exact hskip

/-- A part of the state that is all of the core: what is done to it alone does not depend on the
rest. -/
theorem follows_zoom {view : σ → κ} {update : κ → σ → σ} {log : σ → List ι}
    (hview : ∀ x s, view (update x s) = x) (hlog : ∀ x s, log (update x s) = log s)
    (p : Program κ α) :
    Follows ⟨view, log⟩ agree (zoom view update p) (zoom view update p) := by
  intro s t hcore a s' hrun
  obtain ⟨⟨b, x⟩, hp, heq⟩ := Option.map_eq_some_iff.mp hrun
  obtain ⟨rfl, rfl⟩ := Prod.mk.inj heq
  refine ⟨[], by simp [hlog], fun _ => ⟨update x t, ?_, ?_, by simp [hlog]⟩⟩
  · have hview' : view t = view s := hcore
    exact Option.map_eq_some_iff.mpr ⟨(b, x), by rw [hview', hp], rfl⟩
  · exact (hview x t).trans (hview x s).symm

theorem follows_iterate {body' body : α → Program σ (α ⊕ β)}
    (h : ∀ a, Follows obs agree (body' a) (body a)) (n : Nat) (a : α) :
    Follows obs agree (iterate body' n a) (iterate body n a) := by
  induction n generalizing a with
  | zero => exact follows_failure _
  | succ n ih =>
      refine follows_bind (h a) fun r => ?_
      cases r with
      | inl next => exact ih next
      | inr b => exact follows_pure b

end Program
