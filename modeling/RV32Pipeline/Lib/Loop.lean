import Mathlib.Tactic.Common

/-!
# While loops

A loop of a program that assigns to its variables, as a condition and a body on the state of these
variables. A loop need not be left, so it is run with a bound on the number of its tests, and
`Exits` says what it leaves behind whatever the bound. Two rules go with it: a loop whose states are
known one after another, and a loop that is never left.
-/

/-- A loop `while (cond) body` on the state of its variables. -/
structure WhileLoop (σ : Type*) where
  cond : σ → Bool
  body : σ → σ

namespace WhileLoop

variable {σ : Type*} (L : WhileLoop σ)

/-- The state in which the loop is left, if `fuel` tests of the condition are enough. -/
def run : ℕ → σ → Option σ
  | 0, _ => none
  | fuel + 1, s => if L.cond s then run fuel (L.body s) else some s

/-- The loop is entered with `s` and left with `s'`. -/
def Exits (s s' : σ) : Prop := ∃ fuel, L.run fuel s = some s'

/-- The loop is entered with `s` and never left. -/
def Diverges (s : σ) : Prop := ∀ fuel, L.run fuel s = none

variable {L}

/-- More tests do not change the result. -/
theorem run_mono {fuel fuel' : ℕ} {s s' : σ} (h : L.run fuel s = some s') (hle : fuel ≤ fuel') :
    L.run fuel' s = some s' := by
  induction fuel generalizing s fuel' with
  | zero => exact absurd h (by simp [run])
  | succ fuel ih =>
    obtain ⟨f, rfl⟩ : ∃ f, fuel' = f + 1 := ⟨fuel' - 1, by omega⟩
    rw [run] at h ⊢
    split_ifs at h ⊢ with hc
    · exact ih h (by omega)
    · exact h

/-- A loop is left in one state. -/
theorem Exits.unique {s s' s'' : σ} (h : L.Exits s s') (h' : L.Exits s s'') : s' = s'' := by
  obtain ⟨f, hf⟩ := h
  obtain ⟨f', hf'⟩ := h'
  have hs := run_mono hf (Nat.le_max_left f f')
  rw [run_mono hf' (Nat.le_max_right f f')] at hs
  exact (Option.some.inj hs).symm

/-- The states of a loop, one after another, up to the one in which it is left. -/
theorem exits_of_states {n : ℕ} (S : ℕ → σ)
    (hstep : ∀ k < n, L.cond (S k) = true ∧ L.body (S k) = S (k + 1))
    (hend : L.cond (S n) = false) : L.Exits (S 0) (S n) := by
  have hrun : ∀ j ≤ n, L.run (j + 1) (S (n - j)) = some (S n) := by
    intro j
    induction j with
    | zero =>
      intro _
      rw [run, Nat.sub_zero, hend]
      rfl
    | succ j ih =>
      intro hj
      obtain ⟨hc, hb⟩ := hstep (n - (j + 1)) (by omega)
      rw [run, hc, if_pos rfl, hb, show n - (j + 1) + 1 = n - j by omega]
      exact ih (by omega)
  have h := hrun n (Nat.le_refl n)
  rw [Nat.sub_self] at h
  exact ⟨n + 1, h⟩

/-- A loop whose condition is part of an invariant is never left. -/
theorem diverges_of_invariant {I : σ → Prop} {s : σ} (hs : I s)
    (hstep : ∀ s, I s → L.cond s = true ∧ I (L.body s)) : L.Diverges s := by
  intro fuel
  induction fuel generalizing s with
  | zero => rfl
  | succ fuel ih =>
    obtain ⟨hc, hI⟩ := hstep s hs
    rw [run, hc, if_pos rfl]
    exact ih hI

end WhileLoop
