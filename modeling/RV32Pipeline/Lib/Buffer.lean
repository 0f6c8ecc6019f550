import Mathlib.Data.Int.Notation
import Mathlib.Logic.Function.Basic
import Mathlib.Tactic.Common

/-!
# Arrays with a record of the writes

An array of bytes in the memory of a program, by the index from its first element. A program can
write before the first element or behind the last one: every index has a byte, and the record says
which indices have been written.
-/

/-- The byte of an ASCII character. -/
def byteOf (c : Char) : BitVec 8 := BitVec.ofNat 8 c.toNat

/-- The bytes of an ASCII text. -/
def bytesOf (s : String) : List (BitVec 8) := s.toList.map byteOf

/-- The bytes at and around an array, and the indices written so far. -/
structure Buffer where
  bytes : ℤ → BitVec 8
  written : List ℤ

namespace Buffer

/-- The array with zeros. -/
def zeros : Buffer := { bytes := fun _ => 0#8, written := [] }

/-- The byte `c` is written at the index `i`. -/
def put (b : Buffer) (i : ℤ) (c : BitVec 8) : Buffer :=
  { bytes := Function.update b.bytes i c, written := b.written ++ [i] }

/-- The bytes `cs` are written from the index `i` on. -/
def write (b : Buffer) (i : ℤ) : List (BitVec 8) → Buffer
  | [] => b
  | c :: cs => (b.put i c).write (i + 1) cs

/-- All writes are to the first `n` elements. -/
def Within (b : Buffer) (n : ℕ) : Prop := ∀ i ∈ b.written, 0 ≤ i ∧ i < n

/-- The `n` bytes from the index `i` on. -/
def read (b : Buffer) (i : ℤ) (n : ℕ) : List (BitVec 8) :=
  (List.range n).map fun k : ℕ => b.bytes (i + k)

variable {b : Buffer} {i j : ℤ} {n : ℕ} {cs ds : List (BitVec 8)}

theorem within_zeros : zeros.Within n := fun i hi => absurd hi (List.not_mem_nil (a := i))

@[simp] theorem write_nil : b.write i [] = b := rfl

@[simp] theorem write_cons (c : BitVec 8) :
    b.write i (c :: cs) = (b.put i c).write (i + 1) cs := rfl

theorem write_append : b.write i (cs ++ ds) = (b.write i cs).write (i + cs.length) ds := by
  induction cs generalizing b i with
  | nil => simp
  | cons c cs ih =>
    rw [List.cons_append, write_cons, write_cons, ih, List.length_cons]
    congr 1
    omega

/-- A write stays in the array if the writes before do and its bytes lie in the array. -/
theorem within_write_iff :
    (b.write i cs).Within n ↔ b.Within n ∧ ∀ k < cs.length, 0 ≤ i + k ∧ i + k < n := by
  induction cs generalizing b i with
  | nil => simp [Within]
  | cons c cs ih =>
    rw [write_cons, ih]
    have hput : (b.put i c).Within n ↔ b.Within n ∧ 0 ≤ i ∧ i < n := by
      unfold Within put
      simp only [List.mem_append, List.mem_singleton]
      constructor
      · exact fun h => ⟨fun j hj => h j (Or.inl hj), h i (Or.inr rfl)⟩
      · rintro ⟨h, hi⟩ j (hj | rfl)
        · exact h j hj
        · exact hi
    rw [hput, and_assoc, List.length_cons]
    refine and_congr_right fun _ => ?_
    constructor
    · rintro ⟨hi, hcs⟩ k hk
      rcases k with - | k
      · simpa using hi
      · have h := hcs k (by omega)
        omega
    · intro h
      refine ⟨by simpa using h 0 (by omega), fun k hk => ?_⟩
      have h' := h (k + 1) (by omega)
      omega

/-- What a write leaves outside its bytes. -/
theorem bytes_write_of_outside (h : ∀ k < cs.length, j ≠ i + k) :
    (b.write i cs).bytes j = b.bytes j := by
  induction cs generalizing b i with
  | nil => rfl
  | cons c cs ih =>
    rw [write_cons, ih]
    · rw [put]
      exact Function.update_of_ne (by simpa using h 0 (by simp)) _ _
    · intro k hk
      have h' := h (k + 1) (by rw [List.length_cons]; omega)
      omega

/-- What a write leaves in its bytes. -/
theorem bytes_write {k : ℕ} (hk : k < cs.length) : (b.write i cs).bytes (i + k) = cs[k] := by
  induction cs generalizing b i k with
  | nil => exact absurd hk (by simp)
  | cons c cs ih =>
    rw [write_cons]
    rcases k with - | k
    · rw [bytes_write_of_outside (by omega)]
      simp [put]
    · have h := ih (b := b.put i c) (i := i + 1) (k := k) (by rw [List.length_cons] at hk; omega)
      rw [List.getElem_cons_succ, ← h]
      congr 1
      omega

/-- The first bytes of a write, read back from where they have been written. -/
theorem read_write_append : (b.write i (cs ++ ds)).read i cs.length = cs := by
  refine List.ext_getElem (by simp [read]) fun k _ hk => ?_
  simp only [read, List.getElem_map, List.getElem_range]
  rw [bytes_write (by rw [List.length_append]; omega), List.getElem_append_left hk]

/-- The bytes read back from where they have been written. -/
theorem read_write : (b.write i cs).read i cs.length = cs := by
  have h : (b.write i (cs ++ [])).read i cs.length = cs := read_write_append
  rwa [List.append_nil] at h

end Buffer
