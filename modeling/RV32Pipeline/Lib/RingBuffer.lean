import Mathlib.Algebra.Group.Fin.Basic
import Mathlib.Algebra.Group.Units.Equiv
import Mathlib.Data.List.FinRange
import Mathlib.Data.List.Induction
import Mathlib.Data.List.OfFn
import Mathlib.Tactic.Common

/-!
# Ring buffers that keep the latest entries

A ring of `n + 1` slots that is written one slot after another, over the oldest entry when it is
full. Read from the slot to be written next on, the slots are the latest entries in their order, so
a ring that has been empty holds the latest entries, each once.
-/

/-- The slots, and the one to be written next. -/
structure RingBuffer (α : Type*) (n : ℕ) where
  slots : Fin (n + 1) → α
  next : Fin (n + 1)

namespace RingBuffer

variable {α : Type*} {n : ℕ}

/-- The entry `a` is written to the next slot. -/
def push (r : RingBuffer α n) (a : α) : RingBuffer α n :=
  { slots := Function.update r.slots r.next a, next := r.next + 1 }

/-- The slots in the order of their age, the oldest first. -/
def byAge (r : RingBuffer α n) : List α := List.ofFn fun k => r.slots (r.next + k)

/-- A new entry comes last, and the oldest one is gone. -/
theorem byAge_push (r : RingBuffer α n) (a : α) : (r.push a).byAge = (r.byAge ++ [a]).tail := by
  have hlast : (r.push a).slots ((r.push a).next + Fin.last n) = a := by
    have hnext : (r.push a).next + Fin.last n = r.next := by
      rw [push, add_assoc, add_comm 1, Fin.last_add_one, add_zero]
    rw [hnext]
    exact Function.update_self ..
  have hrest : ∀ i : Fin n, (r.push a).slots ((r.push a).next + i.castSucc) =
      r.slots (r.next + i.succ) := by
    intro i
    have hnext : (r.push a).next + i.castSucc = r.next + i.succ := by
      rw [push, add_assoc, add_comm 1, Fin.coeSucc_eq_succ]
    rw [hnext]
    exact Function.update_of_ne (by simp [Fin.succ_ne_zero]) ..
  calc (r.push a).byAge
      = (List.ofFn fun i : Fin n => r.slots (r.next + i.succ)) ++ [a] := by
        rw [byAge, List.ofFn_succ', hlast, List.concat_eq_append]
        simp only [hrest]
    _ = (r.byAge ++ [a]).tail := by
        rw [byAge, List.ofFn_succ, List.cons_append, List.tail_cons]

/-- After any entries, the ring holds the latest ones of what it held and of the entries. -/
theorem byAge_foldl (r : RingBuffer α n) (l : List α) :
    (l.foldl push r).byAge = (r.byAge ++ l).drop l.length := by
  induction l using List.reverseRecOn with
  | nil => simp
  | append_singleton l a ih =>
    have hlen : l.length ≤ (r.byAge ++ l).length := by
      rw [List.length_append]
      omega
    rw [List.foldl_append, List.foldl_cons, List.foldl_nil, byAge_push, ih,
      ← List.drop_append_of_le_length hlen, List.tail_drop, List.append_assoc, List.length_append,
      List.length_singleton]

/-- The order by age lists every slot once. -/
theorem byAge_perm (r : RingBuffer α n) : r.byAge.Perm (List.ofFn r.slots) := by
  have h := (Equiv.addLeft r.next).map_finRange_perm.map r.slots
  rw [List.map_map, ← List.ofFn_eq_map, ← List.ofFn_eq_map] at h
  exact h

/-- A ring that has been empty holds the latest entries, each once. -/
theorem filterMap_slots_perm (next : Fin (n + 1)) (l : List α) :
    ((List.ofFn ((l.map some).foldl push ⟨fun _ => none, next⟩).slots).filterMap id).Perm
      (l.drop (l.length - (n + 1))) := by
  have hage := byAge_foldl (⟨fun _ => none, next⟩ : RingBuffer (Option α) n) (l.map some)
  have hempty : (⟨fun _ => none, next⟩ : RingBuffer (Option α) n).byAge =
      List.replicate (n + 1) none :=
    List.ofFn_const (n + 1) none
  rw [hempty, List.drop_append, List.length_map, List.length_replicate, List.drop_replicate] at hage
  refine ((byAge_perm _).symm.filterMap id).trans ?_
  rw [hage, List.filterMap_append, List.filterMap_replicate_of_none rfl, List.nil_append,
    ← List.map_drop, List.filterMap_map]
  simp

end RingBuffer
