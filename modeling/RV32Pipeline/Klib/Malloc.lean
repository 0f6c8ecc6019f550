import Mathlib.Data.List.Infix
import RV32Pipeline.Rtl.Define

/-!
# `malloc` and `free`

The allocator of `klib/src/stdlib.c` hands out the bytes of the heap area from its start on, and
never takes one back. It refuses a request only if the pointer itself is behind the end of the area,
so a block may reach beyond the end, and `ROUNDUP` may overflow. Over any calls, the blocks are as
they should be exactly if each request that is not refused fits into what the requests before have
left.
-/

namespace RV32Pipeline

namespace Klib

/-- The variable `heap`: an area whose start is aligned to 8 bytes. -/
structure Heap where
  start : Word
  stop : Word
  aligned : 8 ∣ start.toNat

/-- The static variables `addr` and `malloc_initialized`. -/
structure Malloc where
  addr : Word
  mallocInitialized : Bool

/-- The static variables before the first call. -/
def Malloc.reset : Malloc := { addr := 0#32, mallocInitialized := false }

/-- The macro `ROUNDUP`, with 8 for `sz`. -/
def roundup (a : Word) : Word := (a + 8#32 - 1#32) &&& ~~~(8#32 - 1#32)

/-- The pointer at which the next block begins. -/
def Malloc.pointer (heap : Heap) (s : Malloc) : Word :=
  if s.mallocInitialized then s.addr else heap.start

/-- The function `malloc`: the result, 0 for `NULL`, and the static variables. -/
def malloc (heap : Heap) (size : Word) (s : Malloc) : Word × Malloc :=
  let s : Malloc :=
    if !s.mallocInitialized then { addr := heap.start, mallocInitialized := true } else s
  if size = 0#32 then (0#32, s)
  else
    let alignedSize := roundup size
    let ptr := s.addr
    if ptr > heap.stop then (0#32, s)
    else (ptr, { s with addr := s.addr + alignedSize })

/-- The function `free`. -/
def free (_ptr : Word) (s : Malloc) : Malloc := s

/-- A call of `malloc` or of `free`. -/
inductive AllocCall
  | malloc (size : Word)
  | free (ptr : Word)

/-- The bytes from a pointer on. -/
structure Block where
  ptr : Word
  size : Word
  deriving DecidableEq

/-- Two blocks have no byte in common. -/
def Block.Disjoint (b c : Block) : Prop :=
  b.ptr.toNat + b.size.toNat ≤ c.ptr.toNat ∨ c.ptr.toNat + c.size.toNat ≤ b.ptr.toNat

/-- The block lies in the heap area, aligned to 8 bytes. -/
structure Block.Inside (heap : Heap) (b : Block) : Prop where
  aligned : 8 ∣ b.ptr.toNat
  start : heap.start.toNat ≤ b.ptr.toNat
  stop : b.ptr.toNat + b.size.toNat ≤ heap.stop.toNat

/-- The static variables, and the blocks returned so far: the results other than `NULL`. -/
structure AllocState where
  vars : Malloc
  blocks : List Block

/-- One call. -/
def AllocState.call (heap : Heap) (s : AllocState) : AllocCall → AllocState
  | .malloc size =>
    let (ptr, vars) := Klib.malloc heap size s.vars
    { vars, blocks := if ptr = 0#32 then s.blocks else s.blocks ++ [⟨ptr, size⟩] }
  | .free ptr => { s with vars := Klib.free ptr s.vars }

/-- The state after a sequence of calls. -/
def allocRun (heap : Heap) (calls : List AllocCall) : AllocState :=
  calls.foldl (AllocState.call heap) { vars := .reset, blocks := [] }

/-- Over a sequence of calls, every block lies in the heap and is disjoint from the others, and the
pointer never wraps around. -/
structure AllocSafe (heap : Heap) (calls : List AllocCall) : Prop where
  inside : ∀ b ∈ (allocRun heap calls).blocks, b.Inside heap
  disjoint : (allocRun heap calls).blocks.Pairwise Block.Disjoint
  noWrap : ∀ before c, before ++ [c] <+: calls →
    (allocRun heap before).vars.pointer heap ≤ (allocRun heap (before ++ [c])).vars.pointer heap

/-- What a call asks for, rounded up. -/
def AllocCall.bytes : AllocCall → ℕ
  | .malloc size => (roundup size).toNat
  | .free _ => 0

/-- The address that is reached when all calls are granted. -/
def reach (heap : Heap) (calls : List AllocCall) : ℕ :=
  heap.start.toNat + (calls.map AllocCall.bytes).sum

/-- With `a` reached, a call is refused, returns a null pointer as its block, or fits into the heap
area and, rounded up, into the address space. -/
def AllocCall.FitsAt (heap : Heap) (a : ℕ) : AllocCall → Prop
  | .malloc size => size ≠ 0#32 → a ≤ heap.stop.toNat → a ≠ 0 →
      a + size.toNat ≤ heap.stop.toNat ∧ a + (roundup size).toNat < 2 ^ 32
  | .free _ => True

/-- Every call fits where it is made. -/
def Fits (heap : Heap) (calls : List AllocCall) : Prop :=
  ∀ before c, before ++ [c] <+: calls → c.FitsAt heap (reach heap before)

/-! ## Rounding up -/

/-- The macro clears the lowest three bits of the sum. -/
theorem toNat_roundup (a : Word) : (roundup a).toNat = (a.toNat + 7) % 2 ^ 32 / 8 * 8 := by
  -- The mask clears the bits that the two shifts lose.
  have hmask : ∀ x : Word, x &&& ~~~(8#32 - 1#32) = x >>> 3 <<< 3 := by
    intro x
    ext i hi
    have hbit : (~~~(8#32 - 1#32)).getLsbD i = decide (3 ≤ i) := by
      revert i
      decide
    rw [BitVec.getElem_and, ← BitVec.getLsbD_eq_getElem (x := ~~~(8#32 - 1#32)), hbit,
      BitVec.getElem_shiftLeft]
    by_cases h3 : i < 3
    · rw [decide_eq_false (by omega), Bool.and_false, decide_eq_true h3, Bool.not_true,
        Bool.false_and]
    · rw [decide_eq_true (by omega), Bool.and_true, decide_eq_false h3, Bool.not_false,
        Bool.true_and, BitVec.getElem_ushiftRight, show 3 + (i - 3) = i by omega,
        BitVec.getLsbD_eq_getElem]
  have hsum : (a + 8#32 - 1#32).toNat = (a.toNat + 7) % 2 ^ 32 := by
    rw [BitVec.toNat_sub, BitVec.toNat_add]
    simp only [BitVec.toNat_ofNat]
    omega
  rw [roundup, hmask, BitVec.toNat_shiftLeft, BitVec.toNat_ushiftRight, hsum,
    Nat.shiftRight_eq_div_pow, Nat.shiftLeft_eq]
  omega

/-- Unless the sum overflows, the result is a multiple of 8 and not below the argument. -/
theorem le_roundup {a : Word} (h : a.toNat + 7 < 2 ^ 32) : a.toNat ≤ (roundup a).toNat := by
  rw [toNat_roundup]
  omega

theorem dvd_roundup (a : Word) : 8 ∣ (roundup a).toNat := by
  rw [toNat_roundup]
  exact Nat.dvd_mul_left 8 _

/-! ## One call -/

variable {heap : Heap} {s : Malloc} {t : AllocState} {a : ℕ} {size : Word} {calls : List AllocCall}

/-- Both cases of the initialization in one: the call works on the pointer. -/
theorem malloc_eq : malloc heap size s =
    if size = 0#32 ∨ heap.stop < s.pointer heap then (0#32, ⟨s.pointer heap, true⟩)
    else (s.pointer heap, ⟨s.pointer heap + roundup size, true⟩) := by
  unfold malloc Malloc.pointer
  obtain ⟨addr, init⟩ := s
  by_cases hz : size = 0#32
  · rcases init with _ | _ <;> simp [hz]
  · rcases init with _ | _ <;> simp [hz]

/-- A request of no bytes, or one with the pointer behind the end, is refused. -/
theorem malloc_refused (h : size = 0#32 ∨ heap.stop < s.pointer heap) :
    (malloc heap size s).1 = 0#32 ∧ (malloc heap size s).2.pointer heap = s.pointer heap := by
  rw [malloc_eq, if_pos h]
  exact ⟨rfl, rfl⟩

/-- Any other request returns the pointer, and moves it by the rounded size. -/
theorem malloc_granted (h : ¬ (size = 0#32 ∨ heap.stop < s.pointer heap)) :
    (malloc heap size s).1 = s.pointer heap ∧
      (malloc heap size s).2.pointer heap = s.pointer heap + roundup size := by
  rw [malloc_eq, if_neg h]
  exact ⟨rfl, rfl⟩

/-- What holds while the calls fit: the pointer is the address `a` reached, or both are behind the
end of the heap, and the blocks lie before the pointer. -/
structure AllocInv (heap : Heap) (a : ℕ) (t : AllocState) : Prop where
  reached : (t.vars.pointer heap).toNat = a ∨
    heap.stop.toNat < (t.vars.pointer heap).toNat ∧ heap.stop.toNat < a
  aligned : 8 ∣ (t.vars.pointer heap).toNat
  start : heap.start.toNat ≤ (t.vars.pointer heap).toNat
  before : ∀ b ∈ t.blocks, b.ptr.toNat + b.size.toNat ≤ (t.vars.pointer heap).toNat
  inside : ∀ b ∈ t.blocks, b.Inside heap
  disjoint : t.blocks.Pairwise Block.Disjoint

/-- The invariant holds before the first call. -/
theorem allocInv_reset : AllocInv heap (reach heap []) (allocRun heap []) where
  reached := Or.inl rfl
  aligned := heap.aligned
  start := le_refl heap.start.toNat
  before := fun b hb => absurd hb (List.not_mem_nil (a := b))
  inside := fun b hb => absurd hb (List.not_mem_nil (a := b))
  disjoint := List.Pairwise.nil

/-- A refused call changes neither the blocks nor the pointer. -/
theorem call_refused (h : size = 0#32 ∨ heap.stop < t.vars.pointer heap) :
    (t.call heap (.malloc size)).blocks = t.blocks ∧
      (t.call heap (.malloc size)).vars.pointer heap = t.vars.pointer heap := by
  obtain ⟨hptr, hpointer⟩ := malloc_refused h
  refine ⟨?_, hpointer⟩
  unfold AllocState.call
  simp only [hptr]
  rfl

/-- A granted call adds a block at the pointer, unless that is null. -/
theorem call_granted (h : ¬ (size = 0#32 ∨ heap.stop < t.vars.pointer heap)) :
    (t.call heap (.malloc size)).blocks =
        (if t.vars.pointer heap = 0#32 then t.blocks
          else t.blocks ++ [⟨t.vars.pointer heap, size⟩]) ∧
      (t.call heap (.malloc size)).vars.pointer heap = t.vars.pointer heap + roundup size := by
  obtain ⟨hptr, hpointer⟩ := malloc_granted h
  refine ⟨?_, hpointer⟩
  unfold AllocState.call
  simp only [hptr]

/-- One more call. -/
theorem allocRun_append (c : AllocCall) :
    allocRun heap (calls ++ [c]) = (allocRun heap calls).call heap c := by
  rw [allocRun, List.foldl_append]
  rfl

theorem reach_append (c : AllocCall) : reach heap (calls ++ [c]) = reach heap calls + c.bytes := by
  rw [reach, reach, List.map_append, List.sum_append]
  simp only [List.map_cons, List.map_nil, List.sum_cons, List.sum_nil]
  omega

/-- A refused call keeps the invariant, whatever more it asks for. -/
theorem AllocInv.call_refused (h : AllocInv heap a t)
    (hr : size = 0#32 ∨ heap.stop < t.vars.pointer heap) :
    AllocInv heap (a + (roundup size).toNat) (t.call heap (.malloc size)) := by
  obtain ⟨hb, hp⟩ := Klib.call_refused hr
  -- A request for 0 bytes adds nothing to `a`; otherwise both are behind the end already.
  have hreached : (t.vars.pointer heap).toNat = a + (roundup size).toNat ∨
      heap.stop.toNat < (t.vars.pointer heap).toNat ∧
        heap.stop.toNat < a + (roundup size).toNat := by
    have hold := h.reached
    rcases hr with rfl | hlt
    · have hz : (roundup 0#32).toNat = 0 := by decide
      omega
    · rw [BitVec.lt_def] at hlt
      omega
  constructor
  · rw [hp]
    exact hreached
  · rw [hp]
    exact h.aligned
  · rw [hp]
    exact h.start
  · rw [hb, hp]
    exact h.before
  · rw [hb]
    exact h.inside
  · rw [hb]
    exact h.disjoint

/-- While the calls fit, a granted call finds the pointer at the address reached. -/
theorem AllocInv.reached_of_granted (h : AllocInv heap a t)
    (hg : ¬ (size = 0#32 ∨ heap.stop < t.vars.pointer heap)) :
    size ≠ 0#32 ∧ (t.vars.pointer heap).toNat = a ∧ a ≤ heap.stop.toNat := by
  rw [not_or, BitVec.lt_def] at hg
  have hold := h.reached
  exact ⟨hg.1, by omega, by omega⟩

/-- A granted call that fits keeps the invariant. -/
theorem AllocInv.call_granted (h : AllocInv heap a t)
    (hg : ¬ (size = 0#32 ∨ heap.stop < t.vars.pointer heap))
    (hfit : AllocCall.FitsAt heap a (.malloc size)) :
    AllocInv heap (a + (roundup size).toNat) (t.call heap (.malloc size)) := by
  obtain ⟨hb, hp⟩ := Klib.call_granted hg
  obtain ⟨hz, ha, hle⟩ := h.reached_of_granted hg
  have hstart := h.start
  have haligned := h.aligned
  rw [ha] at hstart haligned
  have hbytes := (roundup size).isLt
  have hdvd := dvd_roundup size
  have hp' : ((t.call heap (.malloc size)).vars.pointer heap).toNat =
      a + (roundup size).toNat := by
    rw [hp, BitVec.toNat_add, ha]
    by_cases h0 : a = 0
    · omega
    · exact Nat.mod_eq_of_lt (hfit hz hle h0).2
  -- The new block, if there is one.
  have hnew : ∀ b ∈ (t.call heap (.malloc size)).blocks, b ∈ t.blocks ∨
      b = ⟨t.vars.pointer heap, size⟩ ∧ a + size.toNat ≤ heap.stop.toNat ∧
        a + size.toNat ≤ a + (roundup size).toNat := by
    intro b hmem
    rw [hb] at hmem
    split_ifs at hmem with h0
    · exact Or.inl hmem
    · rcases List.mem_append.mp hmem with hold | hmem
      · exact Or.inl hold
      · have hne : a ≠ 0 := fun h => h0 (BitVec.eq_of_toNat_eq (ha.trans h))
        have hstop := (hfit hz hle hne).1
        have hlt := heap.stop.isLt
        have hround := le_roundup (a := size) (by omega)
        exact Or.inr ⟨List.mem_singleton.mp hmem, hstop, by omega⟩
  constructor
  · exact Or.inl hp'
  · rw [hp']
    omega
  · rw [hp']
    omega
  · intro b hmem
    rw [hp']
    rcases hnew b hmem with hold | ⟨rfl, -, hle'⟩
    · have hbefore := h.before b hold
      omega
    · rw [ha]
      exact hle'
  · intro b hmem
    rcases hnew b hmem with hold | ⟨rfl, hstop, -⟩
    · exact h.inside b hold
    · exact ⟨h.aligned, h.start, by rw [ha]; exact hstop⟩
  · rw [hb]
    split_ifs
    · exact h.disjoint
    · refine List.pairwise_append.mpr ⟨h.disjoint, List.pairwise_singleton _ _, ?_⟩
      intro b hold c hc
      rw [List.mem_singleton.mp hc]
      exact Or.inl (h.before b hold)

/-- A call that fits keeps the invariant, and does not lower the pointer. -/
theorem AllocInv.call (h : AllocInv heap a t) {c : AllocCall} (hfit : c.FitsAt heap a) :
    AllocInv heap (a + c.bytes) (t.call heap c) ∧
      t.vars.pointer heap ≤ (t.call heap c).vars.pointer heap := by
  cases c with
  | free ptr => exact ⟨h, BitVec.le_refl _⟩
  | malloc size =>
    by_cases hr : size = 0#32 ∨ heap.stop < t.vars.pointer heap
    · exact ⟨h.call_refused hr, by rw [(Klib.call_refused hr).2]; exact BitVec.le_refl _⟩
    · have hinv := h.call_granted hr hfit
      refine ⟨hinv, ?_⟩
      have hreached := hinv.reached
      obtain ⟨-, ha, hle⟩ := h.reached_of_granted hr
      rw [BitVec.le_def]
      omega

/-- A granted call that leaves the heap as it should be fits. -/
theorem AllocInv.fitsAt (h : AllocInv heap a t) {c : AllocCall}
    (hin : ∀ b ∈ (t.call heap c).blocks, b.Inside heap)
    (hle : t.vars.pointer heap ≤ (t.call heap c).vars.pointer heap) : c.FitsAt heap a := by
  cases c with
  | free ptr => trivial
  | malloc size =>
    intro hz hstop hne
    have hold := h.reached
    have hr : ¬ (size = 0#32 ∨ heap.stop < t.vars.pointer heap) := by
      rw [not_or, BitVec.lt_def]
      exact ⟨hz, by omega⟩
    obtain ⟨hb, hp⟩ := Klib.call_granted hr
    obtain ⟨-, ha, -⟩ := h.reached_of_granted hr
    have hne' : t.vars.pointer heap ≠ 0#32 := fun h0 => hne (by rw [← ha, h0]; rfl)
    rw [hb, if_neg hne'] at hin
    have hinside := (hin ⟨t.vars.pointer heap, size⟩ (by simp)).stop
    rw [hp, BitVec.le_def, BitVec.toNat_add] at hle
    have hbytes := (roundup size).isLt
    exact ⟨by rw [← ha]; exact hinside, by omega⟩

/-! ## All calls -/

/-- The calls of a sequence and one more fit exactly if the sequence does and the last one does. -/
theorem fits_append_iff (c : AllocCall) :
    Fits heap (calls ++ [c]) ↔ Fits heap calls ∧ c.FitsAt heap (reach heap calls) := by
  constructor
  · intro h
    exact ⟨fun before c' hp => h before c' (hp.trans (List.prefix_append _ _)),
      h calls c (List.prefix_refl _)⟩
  · rintro ⟨hcalls, hc⟩ before c' hp
    rcases List.prefix_concat_iff.mp hp with heq | hp
    · obtain ⟨hcalls', hc'⟩ := List.append_inj' heq rfl
      rw [hcalls', List.singleton_inj.mp hc']
      exact hc
    · exact hcalls before c' hp

/-- Calls that fit keep the invariant. -/
theorem allocInv_of_fits (h : Fits heap calls) :
    AllocInv heap (reach heap calls) (allocRun heap calls) := by
  induction calls using List.reverseRecOn with
  | nil => exact allocInv_reset
  | append_singleton calls c ih =>
    obtain ⟨hcalls, hc⟩ := (fits_append_iff c).mp h
    rw [allocRun_append, reach_append]
    exact ((ih hcalls).call hc).1

/-- Earlier calls are safe if all calls are. -/
theorem AllocSafe.init {c : AllocCall} (h : AllocSafe heap (calls ++ [c])) :
    AllocSafe heap calls := by
  have hsub : (allocRun heap calls).blocks <+: (allocRun heap (calls ++ [c])).blocks := by
    rw [allocRun_append]
    cases c with
    | free ptr => exact List.prefix_refl _
    | malloc size =>
      by_cases hr : size = 0#32 ∨ heap.stop < (allocRun heap calls).vars.pointer heap
      · rw [(call_refused hr).1]
      · rw [(call_granted hr).1]
        split_ifs
        · exact List.prefix_refl _
        · exact List.prefix_append _ _
  exact ⟨fun b hb => h.inside b (hsub.subset hb), h.disjoint.sublist hsub.sublist,
    fun before c' hp => h.noWrap before c' (hp.trans (List.prefix_append _ _))⟩

/-- The blocks of all calls lie in the heap, aligned and disjoint, and the pointer never wraps
around, exactly if every call fits. -/
theorem alloc_safe_iff_fits (heap : Heap) (calls : List AllocCall) :
    AllocSafe heap calls ↔ Fits heap calls := by
  constructor
  · intro h
    induction calls using List.reverseRecOn with
    | nil => exact fun before c hp => absurd (List.prefix_nil.mp hp) (by simp)
    | append_singleton calls c ih =>
      have hfits := ih h.init
      refine (fits_append_iff c).mpr ⟨hfits, (allocInv_of_fits hfits).fitsAt ?_ ?_⟩
      · rw [← allocRun_append]
        exact h.inside
      · rw [← allocRun_append]
        exact h.noWrap calls c (List.prefix_refl _)
  · intro h
    have hinv := allocInv_of_fits h
    refine ⟨hinv.inside, hinv.disjoint, fun before c hp => ?_⟩
    have hprefix : Fits heap (before ++ [c]) := fun before' c' hp' =>
      h before' c' (hp'.trans hp)
    obtain ⟨hbefore, hc⟩ := (fits_append_iff c).mp hprefix
    rw [allocRun_append]
    exact ((allocInv_of_fits hbefore).call hc).2

/-- The heap area of the platform, if `_heap_start` is at `0x80010000`. -/
def pmemHeap : Heap where
  start := 0x80010000#32
  stop := 0x88000000#32
  aligned := by decide

/-- The area has fewer than `0x8000000` bytes, but the request is granted. -/
theorem alloc_beyond_heap : ¬ AllocSafe pmemHeap [.malloc 0x8000000#32] ∧
    (allocRun pmemHeap [.malloc 0x8000000#32]).blocks = [⟨0x80010000#32, 0x8000000#32⟩] := by
  have hblocks : (allocRun pmemHeap [.malloc 0x8000000#32]).blocks =
      [⟨0x80010000#32, 0x8000000#32⟩] := by decide
  refine ⟨fun h => ?_, hblocks⟩
  have hstop := (h.inside ⟨0x80010000#32, 0x8000000#32⟩ (by rw [hblocks]; simp)).stop
  exact absurd hstop (by decide)

end Klib

end RV32Pipeline
