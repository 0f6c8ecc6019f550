import Mathlib.Logic.Function.Iterate
import Mathlib.Order.Basic
import Mathlib.Tactic.Common

/-!
# Total correctness of the code of a machine

`Reaches step C P Q` says that a machine comes from every state with `P` to a state with `Q`, through
states with `C` only. The rules follow the code: one step, a sequence, and a loop that comes back to
its head with a smaller number.
-/

/-- From every state with `P` the machine comes to one with `Q`, and every state before it has `C`. -/
def Reaches {σ : Type*} (step : σ → σ) (C P Q : σ → Prop) : Prop :=
  ∀ s, P s → ∃ n, Q (step^[n] s) ∧ ∀ k < n, C (step^[k] s)

namespace Reaches

variable {σ : Type*} {step : σ → σ} {C P P' Q Q' R : σ → Prop}

/-- No step. -/
theorem of_imp (h : ∀ s, P s → Q s) : Reaches step C P Q :=
  fun s hs => ⟨0, h s hs, fun k hk => absurd hk (Nat.not_lt_zero k)⟩

/-- One step. -/
theorem one (h : ∀ s, P s → C s ∧ Q (step s)) : Reaches step C P Q := by
  intro s hs
  refine ⟨1, (h s hs).2, fun k hk => ?_⟩
  obtain rfl : k = 0 := by omega
  exact (h s hs).1

/-- A sequence. -/
theorem trans (h : Reaches step C P Q) (h' : Reaches step C Q R) : Reaches step C P R := by
  intro s hs
  obtain ⟨n, hn, hC⟩ := h s hs
  obtain ⟨m, hm, hC'⟩ := h' _ hn
  refine ⟨m + n, by rwa [Function.iterate_add_apply], fun k hk => ?_⟩
  rcases Nat.lt_or_ge k n with hkn | hkn
  · exact hC k hkn
  · have hk' := hC' (k - n) (by omega)
    rwa [← Function.iterate_add_apply, Nat.sub_add_cancel hkn] at hk'

/-- A stronger condition before, and a weaker one behind. -/
theorem mono (h : Reaches step C P Q) (hP : ∀ s, P' s → P s) (hQ : ∀ s, Q s → Q' s) :
    Reaches step C P' Q' :=
  fun s hs => (h s (hP s hs)).imp fun _ hn => ⟨hQ _ hn.1, hn.2⟩

/-- A weaker condition on the way. -/
theorem mono_along {C' : σ → Prop} (h : Reaches step C P Q) (hC : ∀ s, C s → C' s) :
    Reaches step C' P Q :=
  fun s hs => (h s hs).imp fun _ hn => ⟨hn.1, fun k hk => hC _ (hn.2 k hk)⟩

/-- A loop: at its head the invariant has a number, and a round ends behind the loop or at the head
with a smaller one. -/
theorem loop {I : ℕ → σ → Prop}
    (h : ∀ n, Reaches step C (I n) fun s => Q s ∨ ∃ m < n, I m s) (n : ℕ) :
    Reaches step C (I n) Q := by
  induction n using Nat.strongRecOn with
  | ind n ih =>
    refine (h n).trans fun s hs => ?_
    rcases hs with hs | ⟨m, hm, hs⟩
    · exact of_imp (P := Q) (fun _ hq => hq) s hs
    · exact ih m hm s hs

/-- What is reached holds from then on, if every step keeps it. -/
theorem forever (h : Reaches step C P Q) (hQ : ∀ s, Q s → C s ∧ Q (step s)) {s : σ} (hs : P s) :
    (∀ n, C (step^[n] s)) ∧ ∃ n₀, ∀ n ≥ n₀, Q (step^[n] s) := by
  obtain ⟨n₀, hn₀, hC⟩ := h s hs
  have hall : ∀ k, Q (step^[k + n₀] s) := by
    intro k
    induction k with
    | zero => rwa [Nat.zero_add]
    | succ k ih =>
      rw [show k + 1 + n₀ = (k + n₀) + 1 by omega, Function.iterate_succ_apply']
      exact (hQ _ ih).2
  have hge (n : ℕ) (hn : n ≥ n₀) : Q (step^[n] s) := Nat.sub_add_cancel hn ▸ hall (n - n₀)
  refine ⟨fun n => ?_, n₀, hge⟩
  rcases Nat.lt_or_ge n n₀ with hlt | hle
  · exact hC n hlt
  · exact (hQ _ (hge n hle)).1

end Reaches
