import RV32Pipeline.Lib.RingBuffer
import RV32Pipeline.Rtl.Define

/-!
# The instruction ring buffer

`write_iringbuf` keeps the latest 32 instructions, and `display_iringbuf` prints them and marks the
latest one with an arrow. The arrow is put where the index, an `int`, equals `iringbuf_ptr - 1`, a
`uint32_t`. When the pointer has just wrapped around to 0, this is `0xffffffff`, and no line has the
arrow.
-/

namespace RV32Pipeline

/-- The `struct iringbuf_unit`. -/
structure IringbufUnit where
  pc : Word
  inst : Word
  valid : BitVec 8

/-- The variables `iringbuf` and `iringbuf_ptr`. -/
structure Iringbuf where
  units : Fin 32 → IringbufUnit
  ptr : Word
  ptr_lt : ptr.toNat < 32

/-- The pair in a unit, if it is valid. -/
def IringbufUnit.pair (u : IringbufUnit) : Option (Word × Word) :=
  if u.valid ≠ 0#8 then some (u.pc, u.inst) else none

namespace Iringbuf

/-- The variables at first. -/
def reset : Iringbuf :=
  { units := fun _ => ⟨0#32, 0#32, 0#8⟩, ptr := 0#32, ptr_lt := by decide }

/-- The index that `iringbuf_ptr` is. -/
def index (r : Iringbuf) : Fin 32 := ⟨r.ptr.toNat, r.ptr_lt⟩

/-- The function `write_iringbuf`. -/
def writeIringbuf (r : Iringbuf) (pc inst : Word) : Iringbuf where
  units := Function.update r.units r.index ⟨pc, inst, 1#8⟩
  ptr := (r.ptr + 1#32) % 32#32
  ptr_lt := by
    rw [BitVec.toNat_umod]
    exact Nat.mod_lt _ (by decide)

/-- The variables after calls of `write_iringbuf` with these arguments. -/
def run (calls : List (Word × Word)) : Iringbuf :=
  calls.foldl (fun r c => r.writeIringbuf c.1 c.2) reset

/-- A line of `display_iringbuf`: whether it has the arrow, and the unit it shows. -/
structure Line where
  arrow : Bool
  i : Fin 32
  pc : Word
  inst : Word

/-- The line for the index `i`, if its unit is valid. -/
def line (r : Iringbuf) (i : Fin 32) : Option Line :=
  if (r.units i).valid ≠ 0#8 then
    some
      { arrow := decide (BitVec.ofNat 32 i = r.ptr - 1#32)
        i := i
        pc := (r.units i).pc
        inst := (r.units i).inst }
  else none

/-- The lines of `display_iringbuf`. -/
def displayIringbuf (r : Iringbuf) : List Line := (List.finRange 32).filterMap r.line

/-- The pairs that the buffer holds. -/
def held (r : Iringbuf) : List (Word × Word) :=
  (List.finRange 32).filterMap fun i => (r.units i).pair

/-- The buffer, as a ring of pairs. -/
def toRing (r : Iringbuf) : RingBuffer (Option (Word × Word)) 31 :=
  { slots := fun i => (r.units i).pair, next := r.index }

/-! ## The ring -/

/-- The pointer goes to the next unit, and from the last one to the first. -/
theorem toNat_ptr_writeIringbuf (r : Iringbuf) (pc inst : Word) :
    (r.writeIringbuf pc inst).ptr.toNat = (r.ptr.toNat + 1) % 32 := by
  have hp := r.ptr_lt
  unfold writeIringbuf
  rw [BitVec.toNat_umod, BitVec.toNat_add, show (1#32).toNat = 1 from rfl,
    show (32#32).toNat = 32 from rfl]
  omega

/-- A call of `write_iringbuf` puts its pair into the ring. -/
theorem toRing_writeIringbuf (r : Iringbuf) (pc inst : Word) :
    (r.writeIringbuf pc inst).toRing = r.toRing.push (some (pc, inst)) := by
  have hslots : (fun i => ((r.writeIringbuf pc inst).units i).pair) =
      Function.update (fun i => (r.units i).pair) r.index (some (pc, inst)) := by
    funext i
    unfold writeIringbuf
    dsimp only
    by_cases hi : i = r.index
    · rw [hi, Function.update_self, Function.update_self]
      rfl
    · rw [Function.update_of_ne hi, Function.update_of_ne hi]
  have hnext : (r.writeIringbuf pc inst).index = r.index + 1 :=
    Fin.ext (toNat_ptr_writeIringbuf r pc inst)
  unfold toRing RingBuffer.push
  rw [hslots, hnext]

/-- After any calls, the buffer is the ring with the pairs of these calls. -/
theorem toRing_run (calls : List (Word × Word)) :
    (run calls).toRing = (calls.map some).foldl RingBuffer.push ⟨fun _ => none, 0⟩ := by
  induction calls using List.reverseRecOn with
  | nil => rfl
  | append_singleton calls c ih =>
    rw [run, List.foldl_append, List.map_append, List.foldl_append, ← ih]
    exact toRing_writeIringbuf (run calls) c.1 c.2

/-- The buffer holds the pairs of the latest 32 calls, each once. -/
theorem held_run_perm (calls : List (Word × Word)) :
    (run calls).held.Perm (calls.drop (calls.length - 32)) := by
  have h := RingBuffer.filterMap_slots_perm (n := 31) 0 calls
  rw [← toRing_run, List.ofFn_eq_map, List.filterMap_map] at h
  exact h

/-- The pointer counts the calls, up to the length of the buffer. -/
theorem toNat_ptr_run (calls : List (Word × Word)) :
    (run calls).ptr.toNat = calls.length % 32 := by
  induction calls using List.reverseRecOn with
  | nil => rfl
  | append_singleton calls c ih =>
    rw [run, List.foldl_append, List.length_append, List.foldl_cons, List.foldl_nil,
      toNat_ptr_writeIringbuf, ← run, ih, List.length_singleton]
    omega

/-! ## The arrow -/

/-- The line of the unit written last, with the arrow. -/
def latest (calls : List (Word × Word)) (c : Word × Word) : Line :=
  { arrow := true, i := (run calls).index, pc := c.1, inst := c.2 }

/-- After the calls and one more, the buffer holds the pairs of the latest 32 calls, each once, and
the line of the last call, and no other line, has the arrow. -/
structure Correct (calls : List (Word × Word)) (c : Word × Word) : Prop where
  held : (run (calls ++ [c])).held.Perm ((calls ++ [c]).drop ((calls ++ [c]).length - 32))
  arrow : (run (calls ++ [c])).displayIringbuf.filter Line.arrow = [latest calls c]

/-- The arrow is at the index before the pointer, unless the pointer is 0. -/
theorem arrow_iff (r : Iringbuf) (i : Fin 32) :
    BitVec.ofNat 32 i = r.ptr - 1#32 ↔ i.val + 1 = r.ptr.toNat := by
  have hp := r.ptr_lt
  have hi := i.isLt
  rw [← BitVec.toNat_inj, BitVec.toNat_sub, BitVec.toNat_ofNat, BitVec.toNat_ofNat]
  omega

/-- The lines with an arrow are those of the index before the pointer. -/
theorem filter_arrow (r : Iringbuf) : r.displayIringbuf.filter Line.arrow =
    ((List.finRange 32).filter fun i => decide (i.val + 1 = r.ptr.toNat)).filterMap r.line := by
  rw [displayIringbuf, List.filter_filterMap, List.filterMap_filter]
  congr 1
  funext i
  unfold line
  split_ifs with hv h1 h1
  · simp [(arrow_iff r i).mpr (of_decide_eq_true h1)]
  · simp [mt (arrow_iff r i).mp (by simpa using h1)]
  · rfl
  · rfl

/-- With the pointer at 0 no index comes before it. -/
theorem filter_arrow_of_zero {r : Iringbuf} (h : r.ptr.toNat = 0) :
    r.displayIringbuf.filter Line.arrow = [] := by
  have hnone : ((List.finRange 32).filter fun i => decide (i.val + 1 = r.ptr.toNat)) = [] := by
    rw [List.filter_eq_nil_iff]
    intro i _
    rw [decide_eq_true_eq, h]
    omega
  rw [filter_arrow, hnone]
  rfl

/-- The unit written last is valid and holds the pair of its call. -/
theorem line_latest (calls : List (Word × Word)) (c : Word × Word)
    (hn : (calls.length + 1) % 32 ≠ 0) :
    (run (calls ++ [c])).line (run calls).index = some (latest calls c) := by
  have hptr := toNat_ptr_run (calls ++ [c])
  have hold := toNat_ptr_run calls
  rw [List.length_append, List.length_singleton] at hptr
  have harrow : BitVec.ofNat 32 (run calls).index = (run (calls ++ [c])).ptr - 1#32 := by
    refine (arrow_iff _ _).mpr ?_
    change (run calls).ptr.toNat + 1 = _
    omega
  have hunit : (run (calls ++ [c])).units (run calls).index = ⟨c.1, c.2, 1#8⟩ := by
    rw [run, List.foldl_append, List.foldl_cons, List.foldl_nil, ← run]
    exact Function.update_self ..
  rw [line, hunit, if_pos (show (1#8 : BitVec 8) ≠ 0#8 by decide), decide_eq_true harrow]
  rfl

/-- The display is correct exactly if the number of calls is not a multiple of 32. -/
theorem iringbuf_correct_iff (calls : List (Word × Word)) (c : Word × Word) :
    Correct calls c ↔ (calls.length + 1) % 32 ≠ 0 := by
  have hptr := toNat_ptr_run (calls ++ [c])
  rw [List.length_append, List.length_singleton] at hptr
  constructor
  · intro h hn
    have harrow := h.arrow
    rw [filter_arrow_of_zero (hptr.trans hn)] at harrow
    exact absurd harrow (by simp)
  · intro hn
    refine ⟨held_run_perm _, ?_⟩
    -- Out of the wrap, exactly the slot of the last call has the index before the pointer.
    have hone : ((List.finRange 32).filter fun i =>
        decide (i.val + 1 = (run (calls ++ [c])).ptr.toNat)) = [(run calls).index] := by
      have hold := toNat_ptr_run calls
      have heq : (fun i : Fin 32 => decide (i.val + 1 = (run (calls ++ [c])).ptr.toNat)) =
          fun i => i == (run calls).index := by
        funext i
        rw [Bool.eq_iff_iff, decide_eq_true_eq, beq_iff_eq, Fin.ext_iff]
        change _ ↔ i.val = (run calls).ptr.toNat
        omega
      rw [heq, List.filter_beq, List.count_finRange]
      rfl
    rw [filter_arrow, hone, List.filterMap_cons, line_latest calls c hn]
    rfl

/-- After 32 calls with the same pair, no line has the arrow. -/
theorem iringbuf_no_arrow :
    ¬ Correct (List.replicate 31 (0x80000000#32, 0x13#32)) (0x80000000#32, 0x13#32) := by
  intro h
  have harrow := h.arrow
  rw [filter_arrow_of_zero (toNat_ptr_run _)] at harrow
  exact absurd harrow (by simp)

end Iringbuf

end RV32Pipeline
