import RV32Pipeline.Host.Memory

/-!
# The bytes that an access touches

`pmem_read` and `pmem_write` access an `int` at the byte offset `addr - MBASE` of the array `pmem`,
after `memory_out_of_bound` has looked at `addr` alone. Here the two functions work on the bytes of
the process around `pmem`, given by their index in the array, and keep a record of the indices that
they touch. The bytes behind the last of `pmem` are the host's, not the guest's.
-/

universe u

/-- A computation together with the indices of the bytes that it touches, in order. -/
structure Touching (α : Type u) where
  val : α
  touched : List ℤ

namespace Touching

instance : Monad Touching where
  pure a := ⟨a, []⟩
  bind x f := ⟨(f x.val).val, x.touched ++ (f x.val).touched⟩

variable {α β : Type u}

@[simp] theorem val_pure (a : α) : (pure a : Touching α).val = a := rfl

@[simp] theorem touched_pure (a : α) : (pure a : Touching α).touched = [] := rfl

@[simp] theorem val_bind (x : Touching α) (f : α → Touching β) : (x >>= f).val = (f x.val).val := rfl

@[simp] theorem touched_bind (x : Touching α) (f : α → Touching β) :
    (x >>= f).touched = x.touched ++ (f x.val).touched := rfl

/-- The `int` at the index `i`, the lowest byte first. -/
def readInt (m : ℤ → BitVec 8) (i : ℤ) : Touching (BitVec 32) :=
  ⟨m (i + 3) ++ m (i + 2) ++ m (i + 1) ++ m i, [i, i + 1, i + 2, i + 3]⟩

/-- The bytes with an `int` written at the index `i`. -/
def writeInt (m : ℤ → BitVec 8) (i : ℤ) (w : BitVec 32) : Touching (ℤ → BitVec 8) :=
  ⟨fun j =>
      if j = i then w.extractLsb' 0 8
      else if j = i + 1 then w.extractLsb' 8 8
      else if j = i + 2 then w.extractLsb' 16 8
      else if j = i + 3 then w.extractLsb' 24 8
      else m j,
    [i, i + 1, i + 2, i + 3]⟩

/-- All touched bytes are in an array of `n` bytes. -/
def Within (x : Touching α) (n : ℕ) : Prop := ∀ i ∈ x.touched, 0 ≤ i ∧ i < n

/-- An `int` is in the array if its first and its last byte are. -/
theorem forall_int_iff (i : ℤ) (n : ℕ) :
    (∀ j ∈ [i, i + 1, i + 2, i + 3], 0 ≤ j ∧ j < n) ↔ 0 ≤ i ∧ i + 3 < n := by
  simp only [List.forall_mem_cons, List.not_mem_nil, false_implies, implies_true, and_true]
  omega

end Touching

namespace RV32Pipeline

namespace Host

/-- The index in `pmem` of the byte that `pmem + addr - MBASE` points to. -/
def pmemIndex (addr : Word) : ℤ := addr.toNat - mbase.toNat

/-- What `pmem_read` does: it calls a device, rejects the address, or returns a word of `pmem`. -/
inductive PmemRead
  | mmio
  | outOfBound
  | word (ret : Word)

/-- The function `pmem_read` over the bytes `m`. -/
def pmemReadBytes (m : ℤ → BitVec 8) (raddr : Word) : Touching PmemRead :=
  if inMmio raddr then pure .mmio
  else if memoryOutOfBound raddr then pure .outOfBound
  else do
    let ret ← Touching.readInt m (pmemIndex raddr)
    return .word ret

/-- The function `pmem_write` over the bytes `m`, with its 8-bit `wmask`. -/
def pmemWriteBytes (m : ℤ → BitVec 8) (waddr wdata : Word) (wmask : BitVec 8) :
    Touching (ℤ → BitVec 8) :=
  if inMmio waddr then pure m
  else if memoryOutOfBound waddr then pure m
  else do
    let mask := byteMask (wmask.setWidth 4)
    let p ← Touching.readInt m (pmemIndex waddr)
    let ret := (p &&& ~~~mask) ||| (wdata &&& mask)
    Touching.writeInt m (pmemIndex waddr) ret

/-- The accesses at the address `addr` stay inside `pmem`: those that `memory_out_of_bound` accepts
touch only bytes of `pmem`, and those that it rejects touch none and leave all as they are. -/
structure StaysInPmem (m : ℤ → BitVec 8) (addr wdata : Word) (wmask : BitVec 8) : Prop where
  read : memoryOutOfBound addr = false → (pmemReadBytes m addr).Within msize.toNat
  write : memoryOutOfBound addr = false →
    (pmemWriteBytes m addr wdata wmask).Within msize.toNat
  rejected : memoryOutOfBound addr = true → (pmemReadBytes m addr).touched = [] ∧
    (pmemWriteBytes m addr wdata wmask).touched = [] ∧
    (pmemWriteBytes m addr wdata wmask).val = m

/-! ## What is touched -/

/-- An accepted address is not one of a device. -/
theorem inMmio_of_accepted {addr : Word} (h : memoryOutOfBound addr = false) :
    inMmio addr = false := by
  by_contra hm
  have hlt := lt_mbase_of_inMmio (Bool.eq_true_of_not_eq_false hm) (by decide : 0 < 4)
  rw [memoryOutOfBound, Bool.or_eq_false_iff, decide_eq_false_iff_not] at h
  rw [BitVec.add_zero] at hlt
  exact h.1 hlt

/-- The addresses that `memory_out_of_bound` accepts. -/
theorem memoryOutOfBound_eq_false_iff (addr : Word) : memoryOutOfBound addr = false ↔
    mbase.toNat ≤ addr.toNat ∧ addr.toNat < mbase.toNat + msize.toNat := by
  simp only [memoryOutOfBound, Bool.or_eq_false_iff, decide_eq_false_iff_not, BitVec.lt_def,
    BitVec.le_def, BitVec.toNat_add, mbase, msize, BitVec.toNat_ofNat]
  omega

/-- An accepted read touches the four bytes of its word. -/
theorem touched_pmemReadBytes (m : ℤ → BitVec 8) {addr : Word}
    (ha : memoryOutOfBound addr = false) :
    (pmemReadBytes m addr).touched =
      [pmemIndex addr, pmemIndex addr + 1, pmemIndex addr + 2, pmemIndex addr + 3] := by
  unfold pmemReadBytes
  rw [inMmio_of_accepted ha, ha]
  rfl

/-- An accepted write touches them twice, whatever its mask. -/
theorem touched_pmemWriteBytes (m : ℤ → BitVec 8) {addr : Word} (wdata : Word)
    (wmask : BitVec 8) (ha : memoryOutOfBound addr = false) :
    (pmemWriteBytes m addr wdata wmask).touched =
      [pmemIndex addr, pmemIndex addr + 1, pmemIndex addr + 2, pmemIndex addr + 3] ++
        [pmemIndex addr, pmemIndex addr + 1, pmemIndex addr + 2, pmemIndex addr + 3] := by
  unfold pmemWriteBytes
  rw [inMmio_of_accepted ha, ha]
  rfl

/-- A rejected read touches nothing. -/
theorem pmemReadBytes_of_rejected (m : ℤ → BitVec 8) {addr : Word}
    (ha : memoryOutOfBound addr = true) : (pmemReadBytes m addr).touched = [] := by
  unfold pmemReadBytes
  rw [ha]
  cases inMmio addr <;> rfl

/-- A rejected write touches nothing and changes nothing. -/
theorem pmemWriteBytes_of_rejected (m : ℤ → BitVec 8) {addr : Word} (wdata : Word)
    (wmask : BitVec 8) (ha : memoryOutOfBound addr = true) :
    (pmemWriteBytes m addr wdata wmask).touched = [] ∧
      (pmemWriteBytes m addr wdata wmask).val = m := by
  unfold pmemWriteBytes
  rw [ha]
  cases inMmio addr <;> exact ⟨rfl, rfl⟩

/-! ## The model of the memory -/

/-- The bytes by the guest addresses that point to them. -/
def byAddress (m : ℤ → BitVec 8) : ByteMem 32 := fun x => m (pmemIndex x)

/-- The bytes of an accepted word have indices one after the other. -/
theorem pmemIndex_add {addr : Word} (h : memoryOutOfBound addr = false) {k : ℕ} (hk : k < 4) :
    pmemIndex (addr + BitVec.ofNat 32 k) = pmemIndex addr + k := by
  rw [memoryOutOfBound_eq_false_iff] at h
  simp only [mbase, msize, BitVec.toNat_ofNat] at h
  unfold pmemIndex
  rw [BitVec.toNat_add, BitVec.toNat_ofNat]
  omega

/-- Different addresses have different indices. -/
theorem pmemIndex_inj {x y : Word} : pmemIndex x = pmemIndex y ↔ x = y := by
  unfold pmemIndex
  rw [← BitVec.toNat_inj]
  omega

/-- The word at an accepted address. -/
theorem load_byAddress (m : ℤ → BitVec 8) {addr : Word} (ha : memoryOutOfBound addr = false) :
    (byAddress m).load addr = (Touching.readInt m (pmemIndex addr)).val := by
  unfold ByteMem.load byAddress Touching.readInt
  rw [show (1 : Word) = BitVec.ofNat 32 1 from rfl, show (2 : Word) = BitVec.ofNat 32 2 from rfl,
    show (3 : Word) = BitVec.ofNat 32 3 from rfl, pmemIndex_add ha (by decide),
    pmemIndex_add ha (by decide), pmemIndex_add ha (by decide)]
  rfl

/-- What `pmem_read` returns of the bytes is the word that the model of the memory reads. -/
theorem pmemReadBytes_val (dev : Devices) (h : Host) (m : ℤ → BitVec 8) (hm : h.pmem = byAddress m)
    (raddr : Word) (ha : memoryOutOfBound raddr = false) :
    (pmemReadBytes m raddr).val = .word (pmemRead dev h raddr).1 := by
  unfold pmemReadBytes pmemRead
  rw [inMmio_of_accepted ha, ha, hm]
  exact congrArg PmemRead.word (load_byAddress m ha).symm

/-- What `pmem_write` leaves in the bytes is what the model of the memory leaves. -/
theorem pmemWriteBytes_val (h : Host) (m : ℤ → BitVec 8) (hm : h.pmem = byAddress m)
    (waddr wdata : Word) (wmask : BitVec 8) :
    byAddress (pmemWriteBytes m waddr wdata wmask).val =
      (pmemWrite h waddr wdata (wmask.setWidth 4)).pmem := by
  cases hb : memoryOutOfBound waddr
  · -- An index is that of byte `k` of the word if the address is.
    have hidx : ∀ x k, k < 4 →
        (pmemIndex x = pmemIndex waddr + (k : ℕ) ↔ x = waddr + BitVec.ofNat 32 k) := by
      intro x k hk
      rw [← pmemIndex_add hb hk]
      exact pmemIndex_inj
    have hword : (Touching.readInt m (pmemIndex waddr)).val = h.pmem.load waddr := by
      rw [hm, load_byAddress m hb]
    unfold pmemWriteBytes pmemWrite
    rw [inMmio_of_accepted hb, hb]
    simp only [Bool.false_eq_true, if_false, Touching.val_bind, hword]
    generalize (h.pmem.load waddr &&& ~~~byteMask _) ||| _ = ret
    funext x
    have h0 := hidx x 0 (by decide)
    rw [Nat.cast_zero, add_zero] at h0
    have h1 : pmemIndex x = pmemIndex waddr + 1 ↔ _ := hidx x 1 (by decide)
    have h2 : pmemIndex x = pmemIndex waddr + 2 ↔ _ := hidx x 2 (by decide)
    have h3 : pmemIndex x = pmemIndex waddr + 3 ↔ _ := hidx x 3 (by decide)
    have hmask : ∀ k < 4, (0b1111#4).getLsbD k = true := by decide
    unfold byAddress Touching.writeInt ByteMem.store ByteMem.selects
    simp only [h0, h1, h2, h3, hmask 0 (by decide), hmask 1 (by decide), hmask 2 (by decide),
      hmask 3 (by decide), Bool.true_and, beq_iff_eq]
    rw [hm]
    rfl
  · have hp : inPmem waddr = false := by
      unfold inPmem
      rw [hb, Bool.not_true, Bool.and_false]
    rw [(pmemWriteBytes_of_rejected m wdata wmask hb).2, (pmemWrite_effect h waddr wdata _).1, hp,
      hm]
    rfl

/-! ## Bounds -/

/-- For every address, all contents of memory, every word and every mask: the accesses at the
address stay inside `pmem` unless it is one of the last three of `pmem`. -/
theorem staysInPmem_iff (m : ℤ → BitVec 8) (addr wdata : Word) (wmask : BitVec 8) :
    StaysInPmem m addr wdata wmask ↔
      ¬ (mbase.toNat + msize.toNat - 3 ≤ addr.toNat ∧ addr.toNat < mbase.toNat + msize.toNat) := by
  have hwithin : memoryOutOfBound addr = false →
      (0 ≤ pmemIndex addr ∧ pmemIndex addr + 3 < msize.toNat ↔
        ¬ (mbase.toNat + msize.toNat - 3 ≤ addr.toNat ∧
          addr.toNat < mbase.toNat + msize.toNat)) := by
    intro ha
    rw [memoryOutOfBound_eq_false_iff] at ha
    simp only [mbase, msize, BitVec.toNat_ofNat] at ha
    simp only [pmemIndex, mbase, msize, BitVec.toNat_ofNat]
    omega
  constructor
  · intro h hlast
    have ha : memoryOutOfBound addr = false := by
      rw [memoryOutOfBound_eq_false_iff]
      have hsize : msize.toNat = 0x08000000 := rfl
      omega
    have hr := h.read ha
    unfold Touching.Within at hr
    rw [touched_pmemReadBytes m ha, Touching.forall_int_iff] at hr
    exact (hwithin ha).mp hr hlast
  · intro h
    refine ⟨fun ha => ?_, fun ha => ?_, fun ha => ?_⟩
    · unfold Touching.Within
      rw [touched_pmemReadBytes m ha, Touching.forall_int_iff]
      exact (hwithin ha).mpr h
    · have hint := (Touching.forall_int_iff _ _).mpr ((hwithin ha).mpr h)
      unfold Touching.Within
      rw [touched_pmemWriteBytes m wdata wmask ha, List.forall_mem_append]
      exact ⟨hint, hint⟩
    · exact ⟨pmemReadBytes_of_rejected m ha, pmemWriteBytes_of_rejected m wdata wmask ha⟩

/-- At the last address of `pmem` the accesses touch three bytes behind it. -/
theorem not_staysInPmem_last :
    ¬ StaysInPmem (fun _ => 0#8) 0x87ffffff#32 0x11223344#32 0x0f#8 := by
  intro h
  have hr := h.read (by decide) 0x8000002 (by decide)
  revert hr
  decide

end Host

end RV32Pipeline
