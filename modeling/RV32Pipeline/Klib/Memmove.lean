import RV32Pipeline.Lib.ByteMem
import RV32Pipeline.Lib.Loop
import RV32Pipeline.Rtl.Define

/-!
# `memmove`

The function of `klib/src/string.c` copies forwards if the destination is below the source, and
backwards otherwise. The index of the loops is a `size_t`, so the test `i >= 0` of the second loop
always holds and this loop is never left.
-/

namespace RV32Pipeline

namespace Klib

/-- The variables of the loops: the index `i`, and the memory. -/
structure CopyState where
  i : Word
  mem : ByteMem 32

variable (m : ByteMem 32) (dst src n : Word)

/-- The assignment `((uint8_t *)dst)[i] = ((uint8_t *)src)[i]`. -/
def copyByte (s : CopyState) : ByteMem 32 :=
  Function.update s.mem (dst + s.i) (s.mem (src + s.i))

/-- The loop `for(i = 0; i < n; i++)`. -/
def forwardLoop : WhileLoop CopyState where
  cond s := decide (s.i < n)
  body s := { i := s.i + 1, mem := copyByte dst src s }

/-- The loop `for(i = n - 1; i >= 0; i--)`, with the comparison of a `size_t`. -/
def backwardLoop : WhileLoop CopyState where
  cond s := decide (s.i ≥ 0)
  body s := { i := s.i - 1, mem := copyByte dst src s }

/-- The function `memmove`: the returned pointer and the memory, if `fuel` tests of the condition of
the loop are enough. -/
def memmove (fuel : ℕ) (m : ByteMem 32) (dst src n : Word) : Option (Word × ByteMem 32) :=
  if dst < src then ((forwardLoop dst src n).run fuel ⟨0, m⟩).map fun s => (dst, s.mem)
  else ((backwardLoop dst src).run fuel ⟨n - 1, m⟩).map fun s => (dst, s.mem)

/-- The memory `m'` holds in `dst[0..n)` what `m` holds in `src[0..n)`, and is `m` elsewhere. -/
structure Moved (m : ByteMem 32) (dst src n : Word) (m' : ByteMem 32) : Prop where
  moved : ∀ i < n.toNat, m' (dst + BitVec.ofNat 32 i) = m (src + BitVec.ofNat 32 i)
  frame : ∀ x, (∀ i < n.toNat, x ≠ dst + BitVec.ofNat 32 i) → m' x = m x

/-- The call of `memmove` returns, and has moved the bytes. -/
def MemmoveCorrect (m : ByteMem 32) (dst src n : Word) : Prop :=
  ∃ fuel m', memmove fuel m dst src n = some (dst, m') ∧ Moved m dst src n m'

/-- No byte of the source differs from the one that a forward copy has written over it when it is
read. Of two objects this holds wherever they are: it says something only of a source that runs past
the highest address and on to the destination. -/
def ReadIntact (m : ByteMem 32) (dst src n : Word) : Prop :=
  ∀ i < n.toNat, ∀ j < i, dst + BitVec.ofNat 32 j = src + BitVec.ofNat 32 i →
    m (src + BitVec.ofNat 32 i) = m (src + BitVec.ofNat 32 j)

/-! ## The forward loop -/

/-- The memory after `k` rounds of the forward loop. -/
def copied (m : ByteMem 32) (dst src : Word) : ℕ → ByteMem 32
  | 0 => m
  | k + 1 => copyByte dst src ⟨BitVec.ofNat 32 k, copied m dst src k⟩

variable {m dst src n}

theorem add_ofNat_inj {i j : ℕ} (hi : i < 2 ^ 32) (hj : j < 2 ^ 32)
    (h : dst + BitVec.ofNat 32 i = dst + BitVec.ofNat 32 j) : i = j := by
  rw [BitVec.add_right_inj] at h
  have ht := congrArg BitVec.toNat h
  rw [BitVec.toNat_ofNat, BitVec.toNat_ofNat, Nat.mod_eq_of_lt hi, Nat.mod_eq_of_lt hj] at ht
  exact ht

/-- What the rounds have not written is as before. -/
theorem copied_frame {k : ℕ} {x : Word} (h : ∀ i < k, x ≠ dst + BitVec.ofNat 32 i) :
    copied m dst src k x = m x := by
  induction k with
  | zero => rfl
  | succ k ih =>
    rw [copied, copyByte, Function.update_of_ne (h k (by omega))]
    exact ih fun i hi => h i (by omega)

/-- A byte of the destination is written once, in its round. -/
theorem copied_dst {k i : ℕ} (hk : k ≤ 2 ^ 32) (hi : i < k) :
    copied m dst src k (dst + BitVec.ofNat 32 i) =
      copied m dst src i (src + BitVec.ofNat 32 i) := by
  induction k with
  | zero => omega
  | succ k ih =>
    rw [copied, copyByte]
    rcases Nat.lt_succ_iff_lt_or_eq.mp hi with hlt | rfl
    · have hne : dst + BitVec.ofNat 32 i ≠ dst + BitVec.ofNat 32 k := fun h => by
        have := add_ofNat_inj (by omega) (by omega) h
        omega
      rw [Function.update_of_ne hne]
      exact ih (by omega) hlt
    · rw [Function.update_self]

/-- The forward loop is left after `n` rounds. -/
theorem forwardLoop_exits (m : ByteMem 32) (dst src n : Word) :
    (forwardLoop dst src n).Exits ⟨0, m⟩ ⟨n, copied m dst src n.toNat⟩ := by
  have hn := n.isLt
  have h := WhileLoop.exits_of_states (L := forwardLoop dst src n) (n := n.toNat)
    (fun k => ⟨BitVec.ofNat 32 k, copied m dst src k⟩) ?_ ?_
  · rw [BitVec.ofNat_toNat, BitVec.setWidth_eq] at h
    exact h
  · intro k hk
    refine ⟨?_, ?_⟩
    · rw [forwardLoop, decide_eq_true_eq, BitVec.lt_def, BitVec.toNat_ofNat,
        Nat.mod_eq_of_lt (by omega)]
      exact hk
    · rw [forwardLoop, copied]
      simp only [CopyState.mk.injEq, and_true]
      rw [BitVec.ofNat_add]
      rfl
  · rw [forwardLoop, decide_eq_false_iff_not, BitVec.lt_def, BitVec.toNat_ofNat,
      Nat.mod_eq_of_lt hn]
    omega

/-- A forward copy moves the bytes exactly if it reads them all intact. -/
theorem moved_copied_iff :
    Moved m dst src n (copied m dst src n.toNat) ↔ ReadIntact m dst src n := by
  have hn := n.isLt
  constructor
  · intro h i hi j hj heq
    -- The byte at `dst + j` is the one that round `i` reads, and it is not written again.
    have hread : copied m dst src i (src + BitVec.ofNat 32 i) = m (src + BitVec.ofNat 32 i) := by
      rw [← copied_dst hn.le hi]
      exact h.moved i hi
    have hwritten : copied m dst src i (dst + BitVec.ofNat 32 j) = m (src + BitVec.ofNat 32 j) := by
      rw [copied_dst (by omega) hj, ← copied_dst hn.le (hj.trans hi)]
      exact h.moved j (hj.trans hi)
    rw [← hread, ← hwritten, heq]
  · intro h
    have hread : ∀ i < n.toNat,
        copied m dst src i (src + BitVec.ofNat 32 i) = m (src + BitVec.ofNat 32 i) := by
      intro i
      induction i using Nat.strong_induction_on with
      | _ i ih =>
        intro hi
        by_cases hw : ∃ j < i, dst + BitVec.ofNat 32 j = src + BitVec.ofNat 32 i
        · obtain ⟨j, hj, heq⟩ := hw
          calc copied m dst src i (src + BitVec.ofNat 32 i)
              = copied m dst src i (dst + BitVec.ofNat 32 j) := by rw [heq]
            _ = copied m dst src j (src + BitVec.ofNat 32 j) := copied_dst (by omega) hj
            _ = m (src + BitVec.ofNat 32 j) := ih j hj (hj.trans hi)
            _ = m (src + BitVec.ofNat 32 i) := (h i hi j hj heq).symm
        · exact copied_frame fun j hj heq => hw ⟨j, hj, heq.symm⟩
    refine ⟨fun i hi => ?_, fun x hx => copied_frame hx⟩
    rw [copied_dst hn.le hi, hread i hi]

/-- Below the highest address, a source above the destination is read intact. -/
theorem readIntact_of_lt (hlt : dst < src) (hn : src.toNat + n.toNat ≤ 2 ^ 32) :
    ReadIntact m dst src n := by
  intro i hi j hj heq
  rw [BitVec.lt_def] at hlt
  have ht := congrArg BitVec.toNat heq
  rw [BitVec.toNat_add, BitVec.toNat_add, BitVec.toNat_ofNat, BitVec.toNat_ofNat] at ht
  omega

/-! ## The whole function -/

/-- The backward loop is never left, whatever its index is at first. -/
theorem backwardLoop_diverges (dst src : Word) (s : CopyState) :
    (backwardLoop dst src).Diverges s := by
  refine WhileLoop.diverges_of_invariant (I := fun _ => True) trivial fun s _ => ⟨?_, trivial⟩
  have hi : s.i ≥ 0 := BitVec.le_def.mpr (Nat.zero_le _)
  exact decide_eq_true hi

/-- With the destination at or above the source, `memmove` does not return. -/
theorem memmove_of_not_lt (h : ¬ dst < src) (fuel : ℕ) : memmove fuel m dst src n = none := by
  rw [memmove, if_neg h, backwardLoop_diverges dst src _ fuel]
  rfl

/-- With the destination below the source, `memmove` returns with the bytes copied forwards. -/
theorem memmove_of_lt (h : dst < src) :
    ∃ fuel, memmove fuel m dst src n = some (dst, copied m dst src n.toNat) := by
  obtain ⟨fuel, hrun⟩ := forwardLoop_exits m dst src n
  refine ⟨fuel, ?_⟩
  rw [memmove, if_pos h, hrun]
  rfl

/-- A returned memory is the one of the forward copy. -/
theorem eq_copied_of_memmove {fuel : ℕ} {p : Word × ByteMem 32} (h : dst < src)
    (hm : memmove fuel m dst src n = some p) : p = (dst, copied m dst src n.toNat) := by
  rw [memmove, if_pos h, Option.map_eq_some_iff] at hm
  obtain ⟨s, hrun, rfl⟩ := hm
  rw [WhileLoop.Exits.unique ⟨fuel, hrun⟩ (forwardLoop_exits m dst src n)]

/-- `memmove` is correct exactly if the destination is below the source and, around the end of the
address space, no byte of the source is overwritten by another one before it is read. -/
theorem memmove_correct_iff (m : ByteMem 32) (dst src n : Word) :
    MemmoveCorrect m dst src n ↔ dst < src ∧ ReadIntact m dst src n := by
  constructor
  · rintro ⟨fuel, m', hm, hmoved⟩
    have hlt : dst < src := by
      by_contra h
      rw [memmove_of_not_lt h] at hm
      exact absurd hm (by simp)
    have heq : m' = copied m dst src n.toNat := congrArg Prod.snd (eq_copied_of_memmove hlt hm)
    rw [heq] at hmoved
    exact ⟨hlt, moved_copied_iff.mp hmoved⟩
  · rintro ⟨hlt, hr⟩
    obtain ⟨fuel, hm⟩ := memmove_of_lt (m := m) (n := n) hlt
    exact ⟨fuel, _, hm, moved_copied_iff.mpr hr⟩

/-- A call with nothing to move, and one with the two pointers equal, does not return. -/
theorem memmove_empty_incorrect :
    ¬ MemmoveCorrect (fun _ => 0#8) 0x80000000#32 0x80000000#32 0#32 := by
  rintro ⟨fuel, m', hm, -⟩
  rw [memmove_of_not_lt (by decide)] at hm
  exact absurd hm (by simp)

end Klib

end RV32Pipeline
