import StackLang.Proofs.Framework.Triple

/-!
# Computations that fail without a trace

`U s t` says that `t` is `s` but for what may be lost on the way to a failure.  A computation is
`Atomic U` when its failures leave no other trace; it `Sheds U` when its successes do not, either,
so that a later failure is none the worse for it.

* `Sheds.then_atomic`: what may be done first.
* `Atomic.then_unfailing`: what may be done last.
-/

namespace StackLang

section

variable {ε σ α β : Type} (U : σ → σ → Prop)

/-- Whether it succeeds or fails, the computation leaves no trace but what is lost. -/
def Sheds (p : EStateM ε σ α) : Prop :=
  ∀ s, match p s with
    | .ok _ t => U s t
    | .error _ t => U s t

/-- If it fails, the computation leaves no trace but what is lost. -/
def Atomic (p : EStateM ε σ α) : Prop :=
  ∀ s e t, p s = .error e t → U s t

/-- The computation does not fail. -/
def Unfailing (p : EStateM ε σ α) : Prop :=
  ∀ s, ∃ a t, p s = .ok a t

variable {U}

theorem Sheds.of_ok {p : EStateM ε σ α} (h : Sheds U p) {s t : σ} {a : α} (hp : p s = .ok a t) :
    U s t := by
  have := h s
  rwa [hp] at this

theorem Sheds.atomic {p : EStateM ε σ α} (h : Sheds U p) : Atomic U p := by
  intro s e t hp
  have := h s
  rwa [hp] at this

theorem Unfailing.atomic {p : EStateM ε σ α} (h : Unfailing p) : Atomic U p := by
  intro s e t hp
  obtain ⟨a, t', hok⟩ := h s
  rw [hp] at hok
  cases hok

theorem Unfailing.bind {p : EStateM ε σ α} {q : α → EStateM ε σ β} (hp : Unfailing p)
    (hq : ∀ a, Unfailing (q a)) : Unfailing (p >>= q) := by
  intro s
  obtain ⟨a, t, ht⟩ := hp s
  obtain ⟨b, u, hu⟩ := hq a t
  refine ⟨b, u, ?_⟩
  rw [bind_apply, ht]
  exact hu

theorem Unfailing.modify (f : σ → σ) : Unfailing (modify f : EStateM ε σ Unit) :=
  fun s => ⟨(), f s, rfl⟩

theorem Unfailing.pure (a : α) : Unfailing (Pure.pure a : EStateM ε σ α) :=
  fun s => ⟨a, s, rfl⟩

/-- A computation may fail if what comes behind it does not. -/
theorem Atomic.then_unfailing {p : EStateM ε σ α} {q : α → EStateM ε σ β} (hp : Atomic U p)
    (hq : ∀ a, Unfailing (q a)) : Atomic U (p >>= q) := by
  intro s e t h
  rw [bind_apply] at h
  cases hr : p s with
  | ok a s' =>
    obtain ⟨b, u, hu⟩ := hq a s'
    rw [hr] at h
    dsimp only at h
    rw [hu] at h
    cases h
  | error e' s' =>
    rw [hr] at h
    cases h
    exact hp s e t hr

theorem Sheds.pure (refl : ∀ s, U s s) (a : α) : Sheds U (Pure.pure a : EStateM ε σ α) :=
  fun s => refl s

theorem Sheds.throw (refl : ∀ s, U s s) (e : ε) : Sheds U (throw e : EStateM ε σ α) :=
  fun s => refl s

theorem Sheds.mono {V : σ → σ → Prop} {p : EStateM ε σ α} (h : Sheds U p)
    (hU : ∀ {s t}, U s t → V s t) : Sheds V p := by
  intro s
  have := h s
  cases hp : p s with
  | ok a t =>
    rw [hp] at this
    exact hU this
  | error e t =>
    rw [hp] at this
    exact hU this

theorem Sheds.view {q : σ → EStateM ε σ β} (h : ∀ s, Sheds U (q s)) : Sheds U (get >>= q) :=
  fun s => h s s

theorem Atomic.view {q : σ → EStateM ε σ β} (h : ∀ s, Atomic U (q s)) : Atomic U (get >>= q) :=
  fun s => h s s

variable (trans : ∀ {s t u}, U s t → U t u → U s u)
include trans

/-- A computation that leaves no trace may come before others. -/
theorem Sheds.bind {p : EStateM ε σ α} {q : α → EStateM ε σ β} (hp : Sheds U p)
    (hq : ∀ a, Sheds U (q a)) : Sheds U (p >>= q) := by
  intro s
  have h := hp s
  rw [bind_apply]
  cases hr : p s with
  | ok a s' =>
    rw [hr] at h
    have h' := hq a s'
    dsimp only
    revert h'
    cases q a s' with
    | ok b t => exact trans h
    | error e t => exact trans h
  | error e s' =>
    rw [hr] at h
    exact h

theorem Sheds.then_atomic {p : EStateM ε σ α} {q : α → EStateM ε σ β} (hp : Sheds U p)
    (hq : ∀ a, Atomic U (q a)) : Atomic U (p >>= q) := by
  intro s e t h
  have hs := hp s
  rw [bind_apply] at h
  cases hr : p s with
  | ok a s' =>
    rw [hr] at h hs
    exact trans hs (hq a s' e t h)
  | error e' s' =>
    rw [hr] at h hs
    cases h
    exact hs

end

end StackLang
