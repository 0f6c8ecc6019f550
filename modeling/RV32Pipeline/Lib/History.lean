import Mathlib.Data.List.Induction
import Mathlib.Tactic.Common

/-!
# Histories of writes

A history is a list of writes to keyed cells, the oldest first. `lastWritten` is what it leaves in a
cell. A machine whose every step changes the cells that it shows as some writes do shows, after any
run, what the writes of the whole run leave (`view_foldl`).
-/

namespace History

variable {κ ν σ ω : Type*} [DecidableEq κ]

/-- The value of the last write to the key `k`, or the initial one if there is no write to it. -/
def lastWritten (initial : κ → ν) (ws : List (κ × ν)) (k : κ) : ν :=
  ((ws.reverse.find? fun w => w.1 = k).map Prod.snd).getD (initial k)

@[simp] theorem lastWritten_nil (initial : κ → ν) (k : κ) : lastWritten initial [] k = initial k :=
  rfl

/-- A history extended by one write. -/
theorem lastWritten_concat (initial : κ → ν) (ws : List (κ × ν)) (w : κ × ν) (k : κ) :
    lastWritten initial (ws ++ [w]) k = if w.1 = k then w.2 else lastWritten initial ws k := by
  unfold lastWritten
  rw [List.reverse_append, List.reverse_singleton, List.singleton_append, List.find?_cons]
  split_ifs with h <;> simp [h]

/-- A history extended by another starts the second with what the first has left. -/
theorem lastWritten_append (initial : κ → ν) (ws vs : List (κ × ν)) (k : κ) :
    lastWritten initial (ws ++ vs) k = lastWritten (lastWritten initial ws) vs k := by
  induction vs using List.reverseRecOn with
  | nil => rw [List.append_nil, lastWritten_nil]
  | append_singleton vs v ih =>
    rw [← List.append_assoc, lastWritten_concat, lastWritten_concat, ih]

/-- Only the initial value of the key itself matters. -/
theorem lastWritten_congr {f g : κ → ν} {k : κ} (h : f k = g k) (ws : List (κ × ν)) :
    lastWritten f ws k = lastWritten g ws k := by
  rw [lastWritten, lastWritten, h]

/-- A key that no write is to keeps its initial value. -/
theorem lastWritten_of_forall_ne {initial : κ → ν} {ws : List (κ × ν)} {k : κ}
    (h : ∀ w ∈ ws, w.1 ≠ k) : lastWritten initial ws k = initial k := by
  have hnone : (ws.reverse.find? fun w => w.1 = k) = none :=
    List.find?_eq_none.mpr fun w hw => by simpa using h w (List.mem_reverse.mp hw)
  rw [lastWritten, hnone]
  rfl

/-- If all writes to a key that is written are of one value, then it is the last. -/
theorem lastWritten_of_forall_eq {initial : κ → ν} {ws : List (κ × ν)} {k : κ} {v : ν}
    (hex : ∃ w ∈ ws, w.1 = k) (h : ∀ w ∈ ws, w.1 = k → w.2 = v) :
    lastWritten initial ws k = v := by
  obtain ⟨w, hw, hk⟩ := hex
  cases hf : ws.reverse.find? fun w => w.1 = k with
  | none =>
    have hne := List.find?_eq_none.mp hf w (List.mem_reverse.mpr hw)
    exact absurd hk (by simpa using hne)
  | some u =>
    have hu : u ∈ ws := List.mem_reverse.mp (List.mem_of_find?_eq_some hf)
    have huk : u.1 = k := by simpa using List.find?_some hf
    rw [lastWritten, hf]
    exact h u hu huk

/-- If every step of a run changes the cell `k` as its writes do, then the run leaves in it what the
writes of the run leave. -/
theorem view_foldl {step : σ → ω → σ} (view : σ → κ → ν) {writes : ω → List (κ × ν)} {s : σ}
    {k : κ} (ws : List ω)
    (h : ∀ pre w post, ws = pre ++ w :: post →
      view (step (pre.foldl step s) w) k = lastWritten (view (pre.foldl step s)) (writes w) k) :
    view (ws.foldl step s) k = lastWritten (view s) (ws.flatMap writes) k := by
  induction ws using List.reverseRecOn with
  | nil => rfl
  | append_singleton ws w ih =>
    have hws : view (ws.foldl step s) k = lastWritten (view s) (ws.flatMap writes) k :=
      ih fun pre v post hv => h pre v (post ++ [w]) (by rw [hv]; simp)
    rw [List.foldl_append, List.foldl_cons, List.foldl_nil, h ws w [] rfl, List.flatMap_append,
      List.flatMap_singleton, lastWritten_append]
    exact lastWritten_congr hws _

end History
