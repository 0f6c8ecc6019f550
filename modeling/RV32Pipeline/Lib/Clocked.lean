import Mathlib.Data.Nat.Count
import Mathlib.Data.Nat.Init
import Mathlib.Order.Basic
import Mathlib.Tactic.Common

/-!
# Runs of a clocked machine

A clocked machine is a function from the inputs of a cycle and a state to the next state. The rules
here are the ones that a proof about all of its runs needs: an invariant, progress by a measure, and
the log of what a run emits against the log of a sequence that it follows in order.
-/

namespace Clocked

section Run

variable {S I : Type*}

/-- The state at each cycle of the run from `s₀` on the inputs `inp`. -/
def run (step : I → S → S) (s₀ : S) (inp : ℕ → I) : ℕ → S
  | 0 => s₀
  | t + 1 => step (inp t) (run step s₀ inp t)

variable {step : I → S → S} {s₀ : S} {inp : ℕ → I}

@[simp]
theorem run_zero : run step s₀ inp 0 = s₀ := rfl

/-- A property of the initial state that every step preserves holds at every cycle. -/
theorem run_invariant {P : S → Prop} (h0 : P s₀) (hs : ∀ i s, P s → P (step i s)) (t : ℕ) :
    P (run step s₀ inp t) := by
  induction t with
  | zero => exact h0
  | succ t ih => exact hs _ _ ih

end Run

section Progress

variable {S : Type*}

/-- A sequence of states on which a measure falls at every step that does not reach the goal `g`
reaches it, within one step more than the measure of its first state. -/
theorem exists_goal_of_measure {f : ℕ → S} {g : S → Prop} {μ : S → ℕ}
    (h : ∀ t, g (f (t + 1)) ∨ μ (f (t + 1)) < μ (f t)) (t : ℕ) :
    ∃ k ≤ μ (f t), g (f (t + k + 1)) := by
  induction hn : μ (f t) using Nat.strong_induction_on generalizing t with
  | _ n ih =>
    rcases h t with hg | hlt
    · exact ⟨0, Nat.zero_le _, hg⟩
    · obtain ⟨k, hk, hg⟩ := ih (μ (f (t + 1))) (by omega) (t + 1) rfl
      exact ⟨k + 1, by omega, by rwa [show t + (k + 1) + 1 = t + 1 + k + 1 by omega]⟩

end Progress

section Log

variable {α : Type*}

/-- What a sequence of cycles emits before cycle `t`, in order. -/
def log (e : ℕ → Option α) (t : ℕ) : List α := (List.range t).filterMap e

@[simp]
theorem log_zero (e : ℕ → Option α) : log e 0 = [] := rfl

theorem log_succ (e : ℕ → Option α) (t : ℕ) : log e (t + 1) = log e t ++ (e t).toList := by
  simp only [log, List.range_succ, List.filterMap_append]
  cases he : e t <;> simp [he]

/-- The log before an earlier cycle is a prefix. -/
theorem log_prefix (e : ℕ → Option α) {t u : ℕ} (h : t ≤ u) : log e t <+: log e u := by
  induction u, h using Nat.le_induction with
  | base => exact List.prefix_rfl
  | succ u _ ih => rw [log_succ]; exact ih.trans (List.prefix_append _ _)

/-- The log of a sequence that emits a cycle later what another one emits. -/
theorem log_delay {e g : ℕ → Option α} (h0 : e 0 = none) (hs : ∀ t, e (t + 1) = g t) (t : ℕ) :
    log e (t + 1) = log g t := by
  induction t with
  | zero => simp [log_succ, h0]
  | succ t ih => rw [log_succ, ih, hs, ← log_succ]

/-- The log of a sequence that emits in every cycle. -/
theorem length_log_some (e : ℕ → α) (t : ℕ) : (log (fun n => some (e n)) t).length = t := by
  induction t with
  | zero => rfl
  | succ t ih => simp [log_succ, ih]

/-- A machine that follows a sequence in order, position `d t` at cycle `t`, emits what the sequence
emits: at each cycle it either emits nothing and stays, or emits what the sequence does at its
position and moves on. -/
theorem log_follow {e g : ℕ → Option α} {d : ℕ → ℕ} (h0 : d 0 = 0)
    (hs : ∀ t, (e t = none ∧ d (t + 1) = d t) ∨ (e t = g (d t) ∧ d (t + 1) = d t + 1)) (t : ℕ) :
    log e t = log g (d t) := by
  induction t with
  | zero => rw [h0]; rfl
  | succ t ih =>
    rcases hs t with ⟨he, hd⟩ | ⟨he, hd⟩
    · rw [log_succ, he, hd, ih]; simp
    · rw [log_succ, he, hd, ih, log_succ]

end Log

section Count

/-- The number of cycles before `t` with an event. -/
def countOf (e : ℕ → Bool) (t : ℕ) : ℕ := Nat.count (fun u => e u = true) t

@[simp]
theorem countOf_zero (e : ℕ → Bool) : countOf e 0 = 0 := Nat.count_zero _

theorem countOf_succ (e : ℕ → Bool) (t : ℕ) : countOf e (t + 1) = countOf e t + (e t).toNat := by
  rw [countOf, countOf, Nat.count_succ]
  cases e t <;> rfl

/-- The events of a machine that follows a sequence in order, one position at each cycle with `l`:
they are counted at the positions that the machine has passed. -/
theorem countOf_follow {l e q : ℕ → Bool} (h : ∀ t, e t = (l t && q (countOf l t))) (t : ℕ) :
    countOf e t = countOf q (countOf l t) := by
  induction t with
  | zero => rfl
  | succ t ih =>
    rw [countOf_succ, countOf_succ, ih, h]
    cases l t
    · rfl
    · rw [Bool.toNat_true, countOf_succ, Bool.true_and]

end Count

end Clocked
