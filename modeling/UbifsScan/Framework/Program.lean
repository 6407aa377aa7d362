import Mathlib.Logic.Relation
import Mathlib.Tactic.Common

/-!
# Stateful programs that may fail to return

A program over the state `σ` either returns a value with a final state or does not return at
all: it aborts, or a loop of it runs past its bound. `Returns` is total correctness, so a proof
of it also rules out the missing return; `Ensures` is partial correctness, for what a program
keeps in every run that does return. Loops are bounded iterations of a body that asks for
another round or leaves with a value.
-/

/-- A program over the state `σ`; `none` is a run that does not return. -/
abbrev Program (σ α : Type) := StateT σ Option α

namespace Program

variable {σ α β γ : Type}

/-- The program returns from `s`, with a value and a final state that satisfy `Q`. -/
def Returns (p : Program σ α) (s : σ) (Q : α → σ → Prop) : Prop :=
  ∃ a t, p.run s = some (a, t) ∧ Q a t

theorem Returns.mono {p : Program σ α} {s : σ} {Q R : α → σ → Prop}
    (h : Returns p s Q) (hQR : ∀ a t, Q a t → R a t) : Returns p s R := by
  obtain ⟨a, t, hrun, hQ⟩ := h
  exact ⟨a, t, hrun, hQR a t hQ⟩

theorem Returns.of_run {p : Program σ α} {s t : σ} {a : α} {Q : α → σ → Prop}
    (h : Returns p s Q) (hrun : p.run s = some (a, t)) : Q a t := by
  obtain ⟨b, u, hrun', hQ⟩ := h
  rw [hrun] at hrun'
  obtain ⟨rfl, rfl⟩ := Prod.mk.inj (Option.some.inj hrun')
  exact hQ

theorem Returns.with_run {p : Program σ α} {s : σ} {Q : α → σ → Prop} (h : Returns p s Q) :
    Returns p s fun a t => p.run s = some (a, t) ∧ Q a t := by
  obtain ⟨a, t, hrun, hQ⟩ := h
  exact ⟨a, t, hrun, hrun, hQ⟩

@[simp] theorem returns_pure (a : α) (s : σ) (Q : α → σ → Prop) :
    Returns (pure a) s Q ↔ Q a s := by
  simp [Returns]

@[simp] theorem returns_bind (p : Program σ α) (f : α → Program σ β) (s : σ)
    (Q : β → σ → Prop) :
    Returns (p >>= f) s Q ↔ Returns p s (fun a t => Returns (f a) t Q) := by
  constructor
  · rintro ⟨b, u, hrun, hQ⟩
    rw [StateT.run_bind] at hrun
    obtain ⟨⟨a, t⟩, hp, hf⟩ := Option.bind_eq_some_iff.mp hrun
    exact ⟨a, t, hp, b, u, hf, hQ⟩
  · rintro ⟨a, t, hp, b, u, hf, hQ⟩
    exact ⟨b, u, by rw [StateT.run_bind, hp]; exact hf, hQ⟩

@[simp] theorem returns_get (s : σ) (Q : σ → σ → Prop) :
    Returns (get : Program σ σ) s Q ↔ Q s s := by
  simp [Returns]

@[simp] theorem returns_modify (f : σ → σ) (s : σ) (Q : Unit → σ → Prop) :
    Returns (modify f : Program σ Unit) s Q ↔ Q () (f s) := by
  constructor
  · rintro ⟨_, _, hrun, hQ⟩
    obtain ⟨-, rfl⟩ := Prod.mk.inj (Option.some.inj hrun)
    exact hQ
  · exact fun hQ => ⟨(), f s, rfl, hQ⟩

@[simp] theorem returns_map (p : Program σ α) (f : α → β) (s : σ) (Q : β → σ → Prop) :
    Returns (f <$> p) s Q ↔ Returns p s (fun a t => Q (f a) t) := by
  rw [map_eq_pure_bind, returns_bind]
  simp

@[simp] theorem returns_ite (c : Prop) [Decidable c] (p q : Program σ α) (s : σ)
    (Q : α → σ → Prop) :
    Returns (if c then p else q) s Q ↔ if c then Returns p s Q else Returns q s Q := by
  split <;> rfl

/-- A program on a part of the state: `view` reads the part and `update` writes it back. -/
def zoom {τ : Type} (view : τ → σ) (update : σ → τ → τ) (p : Program σ α) : Program τ α :=
  fun t => (p.run (view t)).map fun r => (r.1, update r.2 t)

@[simp] theorem returns_zoom {τ : Type} (view : τ → σ) (update : σ → τ → τ) (p : Program σ α)
    (t : τ) (Q : α → τ → Prop) :
    Returns (zoom view update p) t Q ↔ Returns p (view t) (fun a s => Q a (update s t)) := by
  constructor
  · rintro ⟨a, u, hrun, hQ⟩
    obtain ⟨⟨b, s⟩, hp, heq⟩ := Option.map_eq_some_iff.mp hrun
    obtain ⟨rfl, rfl⟩ := Prod.mk.inj heq
    exact ⟨b, s, hp, hQ⟩
  · rintro ⟨a, s, hrun, hQ⟩
    exact ⟨a, update s t, Option.map_eq_some_iff.mpr ⟨(a, s), hrun, rfl⟩, hQ⟩

/-- If the program returns from `s`, then with a value and a final state that satisfy `Q`. -/
def Ensures (p : Program σ α) (s : σ) (Q : α → σ → Prop) : Prop :=
  ∀ a t, p.run s = some (a, t) → Q a t

theorem Returns.ensures {p : Program σ α} {s : σ} {Q : α → σ → Prop} (h : Returns p s Q) :
    Ensures p s Q := fun _ _ hrun => h.of_run hrun

theorem Returns.and_ensures {p : Program σ α} {s : σ} {Q R : α → σ → Prop} (h : Returns p s Q)
    (h' : Ensures p s R) : Returns p s fun a t => Q a t ∧ R a t := by
  obtain ⟨a, t, hrun, hQ⟩ := h
  exact ⟨a, t, hrun, hQ, h' a t hrun⟩

theorem Ensures.mono {p : Program σ α} {s : σ} {Q R : α → σ → Prop} (h : Ensures p s Q)
    (hQR : ∀ a t, Q a t → R a t) : Ensures p s R := fun a t hrun => hQR a t (h a t hrun)

theorem ensures_pure {a : α} {s : σ} {Q : α → σ → Prop} (h : Q a s) : Ensures (pure a) s Q :=
  ((returns_pure a s Q).mpr h).ensures

theorem ensures_get {s : σ} {Q : σ → σ → Prop} (h : Q s s) :
    Ensures (get : Program σ σ) s Q := ((returns_get s Q).mpr h).ensures

theorem ensures_bind {p : Program σ α} {f : α → Program σ β} {s : σ} {Q : β → σ → Prop}
    (h : Ensures p s fun a t => Ensures (f a) t Q) : Ensures (p >>= f) s Q := by
  intro b u hrun
  rw [StateT.run_bind] at hrun
  obtain ⟨⟨a, t⟩, hp, hf⟩ := Option.bind_eq_some_iff.mp hrun
  exact h a t hp b u hf

/-- Run `body` from `a` until it leaves with a value, for at most `n` rounds. -/
def iterate (body : α → Program σ (α ⊕ β)) : Nat → α → Program σ β
  | 0, _ => failure
  | n + 1, a => do
    match ← body a with
    | .inl next => iterate body n next
    | .inr b => pure b

/-- One round of the loop that asks for another. -/
def Round (body : α → Program σ (α ⊕ β)) (x y : α × σ) : Prop :=
  (body x.1).run x.2 = some (.inl y.1, y.2)

/-- The loop, started at `x`, comes to the head of the round `y`. -/
abbrev Heads (body : α → Program σ (α ⊕ β)) : α × σ → α × σ → Prop :=
  Relation.ReflTransGen (Round body)

variable {body : α → Program σ (α ⊕ β)}

theorem iterate_round {n : Nat} {a b : α} {s t : σ} (h : Round body (a, s) (b, t)) :
    (iterate body (n + 1) a).run s = (iterate body n b).run t := by
  rw [iterate, StateT.run_bind, h]
  rfl

theorem iterate_leave {n : Nat} {a : α} {b : β} {s t : σ}
    (h : (body a).run s = some (.inr b, t)) : (iterate body (n + 1) a).run s = some (b, t) := by
  rw [iterate, StateT.run_bind, h]
  rfl

/-- The invariant rule: each round keeps `Inv` and lowers `variant`, or leaves in `Q`. A round
may use that its head is one the loop comes to. -/
theorem returns_iterate (Inv : α → σ → Prop) (variant : α → σ → Nat) {Q : β → σ → Prop}
    {a : α} {s : σ} {n : Nat}
    (hround : ∀ b t, Heads body (a, s) (b, t) → Inv b t → Returns (body b) t fun r u =>
      match r with
      | .inl next => Inv next u ∧ variant next u < variant b t
      | .inr c => Q c u)
    (hInv : Inv a s) (hn : variant a s < n) : Returns (iterate body n a) s Q := by
  induction n generalizing a s with
  | zero => omega
  | succ n ih =>
      obtain ⟨r, u, hrun, hr⟩ := hround a s .refl hInv
      cases r with
      | inl next =>
          have hstep : Round body (a, s) (next, u) := hrun
          obtain ⟨c, v, hrest, hQ⟩ := ih
            (fun b t hb => hround b t (.head hstep hb)) hr.1 (by simp only at hr; omega)
          exact ⟨c, v, by rw [iterate_round hstep]; exact hrest, hQ⟩
      | inr c => exact ⟨c, u, iterate_leave hrun, hr⟩

theorem ensures_iterate (Inv : α → σ → Prop) {Q : β → σ → Prop} {a : α} {s : σ} {n : Nat}
    (hround : ∀ b t, Inv b t → Ensures (body b) t fun r u =>
      match r with
      | .inl next => Inv next u
      | .inr c => Q c u)
    (hInv : Inv a s) : Ensures (iterate body n a) s Q := by
  induction n generalizing a s with
  | zero =>
      intro c u hrun
      cases hrun
  | succ n ih =>
      refine ensures_bind ((hround a s hInv).mono fun r u hr => ?_)
      cases r with
      | inl next => exact ih hr
      | inr c => exact ensures_pure hr

theorem ensures_iterate_keeps {τ : Type} (part : σ → τ) {a : α} {s : σ} {n : Nat}
    (hround : ∀ b t, Ensures (body b) t fun _ u => part u = part t) :
    Ensures (iterate body n a) s fun _ u => part u = part s := by
  refine ensures_iterate (fun _ t => part t = part s) (fun b t ht => ?_) rfl
  refine (hround b t).mono fun r u hu => ?_
  cases r with
  | inl next => exact hu.trans ht
  | inr c => exact hu.trans ht

/-- The invariant rule for heads alone: what every round keeps holds at every head. -/
theorem heads_inv (Inv : α → σ → Prop) {x y : α × σ} (h : Heads body x y)
    (hround : ∀ b t c u, Heads body x (b, t) → Inv b t → Round body (b, t) (c, u) → Inv c u)
    (hInv : Inv x.1 x.2) : Inv y.1 y.2 := by
  induction h with
  | refl => exact hInv
  | tail hx hstep ih => exact hround _ _ _ _ hx ih hstep

end Program
