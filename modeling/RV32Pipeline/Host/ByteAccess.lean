import RV32Pipeline.Host.Memory
import RV32Pipeline.Lib.History
import RV32Pipeline.Lib.Rv32i
import RV32Pipeline.Rtl.Stages

/-!
# Loads and stores of bytes, halfwords, and words

A store reaches `pmem` through the lanes `wmask` of the datapath and the read-modify-write of
`pmem_write`, at any byte address; a load takes the word that `pmem_read` returns for its address
and keeps the low bytes of it (`rdata_M`). Over any sequence of accesses that lie in `pmem` as a
whole, whatever their alignment and however they overlap, this is a memory of single bytes: each
byte holds what was last stored at its address.
-/

namespace RV32Pipeline

open Rv32i (LoadOp StoreOp)

/-- What a load returns, from the bytes at its address and behind it: the lowest byte first,
extended by its sign or by zeros. -/
def loadValue (k : LoadOp) (bytes : ℕ → BitVec 8) : Word :=
  match k with
  | .lb => (bytes 0).signExtend 32
  | .lh => (bytes 1 ++ bytes 0).signExtend 32
  | .lw => bytes 3 ++ bytes 2 ++ bytes 1 ++ bytes 0
  | .lbu => (bytes 0).setWidth 32
  | .lhu => (bytes 1 ++ bytes 0).setWidth 32

/-- A load or a store, with its address and, for a store, the data. -/
inductive MemAccess
  | load (k : LoadOp) (addr : Word)
  | store (k : StoreOp) (addr data : Word)

namespace MemAccess

/-- The address of an access. -/
def addr : MemAccess → Word
  | load _ addr => addr
  | store _ addr _ => addr

/-- The bytes that an access stores, by their addresses. -/
def writes : MemAccess → List (Word × BitVec 8)
  | load _ _ => []
  | store k addr data => (List.range k.bytes).map fun i =>
      (addr + BitVec.ofNat 32 i, data.extractLsb' (8 * i) 8)

/-- The buffer `buffer_E_M` as an access reaches the load and store stage. -/
def bufferEM : MemAccess → BufferEM
  | load k addr => { BufferEM.reset with memReadM := true, funct3M := k.funct3, aluResultM := addr }
  | store k addr data =>
    { BufferEM.reset with
      memWriteM := true, funct3M := k.funct3, aluResultM := addr, writeDataM := data }

/-- The instance `u_memory`, evaluated for an access. -/
def uMemory (dev : Devices) (h : Host) (a : MemAccess) : Word × Host :=
  let b := a.bufferEM
  h.memory dev b.aluResultM b.aluResultM b.writeDataM b.wmask b.memWriteM
    (b.memReadM || b.memWriteM)

/-- The wire `rdata_M` of an access. -/
def rdataM (dev : Devices) (h : Host) (a : MemAccess) : Word :=
  a.bufferEM.rdataM (a.uMemory dev h).1

/-- The variables of the simulator after an access. -/
def next (dev : Devices) (h : Host) (a : MemAccess) : Host := (a.uMemory dev h).2

/-- The variables of the simulator after a sequence of accesses. -/
def run (dev : Devices) (h : Host) (as : List MemAccess) : Host := as.foldl (next dev) h

/-- The four bytes from the address on are in `pmem`. -/
def InRange (a : MemAccess) : Prop :=
  Host.mbase.toNat ≤ a.addr.toNat ∧ a.addr.toNat ≤ Host.mbase.toNat + Host.msize.toNat - 4

end MemAccess

/-- A sequence of accesses, over the variables `h` of the simulator, has the meaning of a memory of
bytes: a load returns the bytes that were last stored at its addresses, or are there initially, and
a store changes no byte but those that it addresses. -/
structure ByteSemantics (dev : Devices) (h : Host) (as : List MemAccess) : Prop where
  load : ∀ pre k addr post, as = pre ++ .load k addr :: post →
    (MemAccess.load k addr).rdataM dev (MemAccess.run dev h pre) =
      loadValue k fun i => History.lastWritten h.pmem (pre.flatMap MemAccess.writes)
        (addr + BitVec.ofNat 32 i)
  store : ∀ pre k addr data post, as = pre ++ .store k addr data :: post →
    ∀ x, (∀ i < k.bytes, x ≠ addr + BitVec.ofNat 32 i) →
      ((MemAccess.store k addr data).next dev (MemAccess.run dev h pre)).pmem x =
        (MemAccess.run dev h pre).pmem x

namespace MemAccess

/-! ## One access -/

variable (dev : Devices) (h : Host)

/-- An access whose bytes are in `pmem` is not one to a device, and not rejected. -/
theorem InRange.inPmem {a : MemAccess} (ha : a.InRange) : Host.inPmem a.addr = true := by
  obtain ⟨hlo, hhi⟩ := ha
  have hb : Host.memoryOutOfBound a.addr = false := by
    simp only [Host.memoryOutOfBound, Bool.or_eq_false_iff, decide_eq_false_iff_not,
      BitVec.lt_def, BitVec.le_def, Host.mbase, Host.msize] at hlo hhi ⊢
    simp at hlo hhi ⊢
    omega
  have hm : Host.inMmio a.addr = false := by
    by_contra hm
    have hlt := Host.lt_mbase_of_inMmio (Bool.eq_true_of_not_eq_false hm) (by decide : 0 < 4)
    simp only [BitVec.add_zero, BitVec.lt_def] at hlt
    omega
  rw [Host.inPmem, hm, hb]
  rfl

/-- The lanes of a store are the bytes that it addresses. -/
theorem getLsbD_wmask (k : StoreOp) (addr data : Word) {i : ℕ} (hi : i < 4) :
    (store k addr data).bufferEM.wmask.getLsbD i = decide (i < k.bytes) := by
  revert hi
  revert i
  cases k with
  | sb =>
    change ∀ i < 4, (0x1#4).getLsbD i = decide (i < 1)
    decide
  | sh =>
    change ∀ i < 4, (0x3#4).getLsbD i = decide (i < 2)
    decide
  | sw =>
    change ∀ i < 4, (0xf#4).getLsbD i = decide (i < 4)
    decide

/-- A store writes its bytes, the others are as before. -/
theorem store_wmask (m : ByteMem 32) (k : StoreOp) (addr data x : Word) :
    m.store addr data (store k addr data).bufferEM.wmask x =
      History.lastWritten m (store k addr data).writes x := by
  have hk4 : k.bytes ≤ 4 := by cases k <;> decide
  by_cases hx : ∃ i < 4, x = addr + BitVec.ofNat 32 i
  · obtain ⟨i, hi, rfl⟩ := hx
    rw [ByteMem.store_byte (by decide) hi, getLsbD_wmask k addr data hi]
    by_cases hik : i < k.bytes
    · rw [decide_eq_true hik, if_pos rfl]
      refine (History.lastWritten_of_forall_eq ?_ ?_).symm
      · exact ⟨_, List.mem_map_of_mem (List.mem_range.mpr hik), rfl⟩
      · rintro w hw hkey
        obtain ⟨j, hj, rfl⟩ := List.mem_map.mp hw
        have hj4 : j < 4 := lt_of_lt_of_le (List.mem_range.mp hj) hk4
        rw [(ByteMem.add_ofNat_inj (by decide) hj4 hi).mp hkey]
    · rw [decide_eq_false hik, if_neg (by decide)]
      refine (History.lastWritten_of_forall_ne ?_).symm
      rintro w hw hkey
      obtain ⟨j, hj, rfl⟩ := List.mem_map.mp hw
      have hjk := List.mem_range.mp hj
      have hji := (ByteMem.add_ofNat_inj (by decide) (lt_of_lt_of_le hjk hk4) hi).mp hkey
      omega
  · have hno : ¬ ByteMem.Writes addr (store k addr data).bufferEM.wmask x := by
      rintro ⟨i, hi, hs⟩
      rw [ByteMem.selects, Bool.and_eq_true, beq_iff_eq] at hs
      exact hx ⟨i, hi, hs.2⟩
    rw [ByteMem.store_of_not_writes hno, History.lastWritten_of_forall_ne]
    rintro w hw hkey
    obtain ⟨j, hj, rfl⟩ := List.mem_map.mp hw
    exact hx ⟨j, lt_of_lt_of_le (List.mem_range.mp hj) hk4, hkey.symm⟩

/-- An access in `pmem` changes a byte as its writes do. -/
theorem next_pmem {a : MemAccess} (ha : a.InRange) (x : Word) :
    (a.next dev h).pmem x = History.lastWritten h.pmem a.writes x := by
  cases a with
  | load k addr =>
    have hp := (Host.memory_effect dev h addr addr 0#32 (load k addr).bufferEM.wmask false true).1
    exact congrFun hp x
  | store k addr data =>
    have hp := (Host.memory_effect dev h addr addr data (store k addr data).bufferEM.wmask true
      true).1
    have hin : Host.inPmem addr = true := ha.inPmem
    rw [hin] at hp
    rw [← store_wmask]
    exact congrFun hp x

/-- A load in `pmem` takes its value from the bytes at its address. -/
theorem rdataM_load {k : LoadOp} {addr : Word} (ha : (load k addr).InRange) :
    (load k addr).rdataM dev h = loadValue k fun i => h.pmem (addr + BitVec.ofNat 32 i) := by
  have hword : ((load k addr).uMemory dev h).1 = h.pmem.load addr :=
    Host.memory_of_inPmem dev h ha.inPmem _ _ _
  have h0 : (h.pmem.load addr).extractLsb' 0 8 = h.pmem (addr + BitVec.ofNat 32 0) :=
    ByteMem.extractLsb'_load h.pmem addr (by decide : 0 < 4)
  have h1 : (h.pmem.load addr).extractLsb' 8 8 = h.pmem (addr + BitVec.ofNat 32 1) :=
    ByteMem.extractLsb'_load h.pmem addr (by decide : 1 < 4)
  have hhalf : (h.pmem.load addr).extractLsb' 0 16 =
      (h.pmem.load addr).extractLsb' 8 8 ++ (h.pmem.load addr).extractLsb' 0 8 := by
    apply BitVec.eq_of_getLsbD_eq
    intro i hi
    simp only [BitVec.getLsbD_append, BitVec.getLsbD_extractLsb']
    grind
  rw [h0, h1] at hhalf
  rw [rdataM, hword]
  cases k with
  | lb => exact congrArg (BitVec.signExtend 32) h0
  | lh => exact congrArg (BitVec.signExtend 32) hhalf
  | lw =>
    have hzero : addr = addr + BitVec.ofNat 32 0 := by simp
    change h.pmem.load addr = _
    rw [ByteMem.load]
    nth_rewrite 4 [hzero]
    rfl
  | lbu => exact congrArg (BitVec.setWidth 32) h0
  | lhu => exact congrArg (BitVec.setWidth 32) hhalf

/-! ## Sequences of accesses -/

/-- The bytes of `pmem` after accesses in `pmem` are those last stored. -/
theorem run_pmem {as : List MemAccess} (has : ∀ a ∈ as, a.InRange) (x : Word) :
    (run dev h as).pmem x = History.lastWritten h.pmem (as.flatMap writes) x := by
  unfold run
  refine History.view_foldl Host.pmem as fun pre a post hsplit => ?_
  have ha : a ∈ as := by rw [hsplit]; simp
  exact next_pmem dev _ (has a ha) x

end MemAccess

/-- For every sequence of loads and stores whose addresses lie in `pmem` with the three behind
them, aligned or not, and over any contents of `pmem`: every load returns the extended bytes that
were last stored at its addresses, and every store changes only the bytes that it addresses. -/
theorem byteSemantics (dev : Devices) (h : Host) (as : List MemAccess)
    (has : ∀ a ∈ as, a.InRange) : ByteSemantics dev h as where
  load pre k addr post hsplit := by
    have hpre : ∀ a ∈ pre, a.InRange := fun a ha => has a (by rw [hsplit]; simp [ha])
    have hin : (MemAccess.load k addr).InRange := has _ (by rw [hsplit]; simp)
    rw [MemAccess.rdataM_load dev _ hin]
    exact congrArg _ (funext fun i => MemAccess.run_pmem dev h hpre _)
  store pre k addr data post hsplit x hx := by
    have hin : (MemAccess.store k addr data).InRange := has _ (by rw [hsplit]; simp)
    rw [MemAccess.next_pmem dev _ hin, History.lastWritten_of_forall_ne]
    rintro w hw hkey
    obtain ⟨i, hi, rfl⟩ := List.mem_map.mp hw
    exact hx i (List.mem_range.mp hi) hkey.symm

/-- A word, a byte in it, a halfword over the end of both, and the low half of the last word. -/
theorem byteSemantics_overlap : ByteSemantics ⟨0#32, 0#64⟩ (Host.init fun _ => 0#8)
    [.store .sw 0x80000001#32 0x44332211#32, .store .sb 0x80000003#32 0xff#32,
      .load .lh 0x80000002#32, .load .lhu 0x87fffffc#32] :=
  byteSemantics _ _ _ (by
    simp only [List.forall_mem_cons, List.not_mem_nil, false_implies, implies_true, and_true]
    refine ⟨?_, ?_, ?_, ?_⟩ <;> constructor <;> decide)

end RV32Pipeline
