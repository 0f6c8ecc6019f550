import RV32Pipeline.Host.Memory
import RV32Pipeline.Pipeline.Matches

/-!
# The sequential machine on the simulator's memory

The sequential run of a program whose loads outside `pmem` are answered by devices, up to the
instruction that ends the program, and the addresses that it accesses on the way.
-/

namespace RV32Pipeline

/-- What reads memory does not depend on a response: an instruction that is not a load leaves the
same state whatever the data bus answers. -/
theorem Arch.nextWith_congr {a : Arch} (h : (controlD a.instr).memReadE = false) (v v' : Word) :
    a.nextWith v = a.nextWith v' := by
  have hm : MemMatches a.em a := ⟨rfl, rfl, fun _ => rfl, fun _ => rfl, fun _ => rfl, fun _ => rfl⟩
  have hw : WbMatches (a.mwWith v) a v' := hm.mwIn fun hl => by rw [h] at hl; contradiction
  simp only [Arch.nextWith, hw.rf a.rf, hw.csrs a.csr]

/-- What the data bus answers to the next instruction: the word in `pmem`, and outside of it what a
device answers. -/
def Arch.hostRdata (a : Arch) (device : Word) : Word :=
  if Host.inPmem a.em.aluResultM then a.rdata else device

/-- The state after `n` instructions from reset, where `device` answers the loads outside `pmem`. -/
def hostSeq (pmem : ByteMem 32) (device : ℕ → Word) : ℕ → Arch
  | 0 => Arch.init ⟨true, pmem, pmem⟩
  | n + 1 =>
    let a := hostSeq pmem device n
    a.nextWith (a.hostRdata (device n))

/-- A program depends only on the devices that it loads from. -/
theorem hostSeq_congr {pmem : ByteMem 32} {device device' : ℕ → Word} {n : ℕ}
    (h : ∀ k < n, (hostSeq pmem device' k).em.memReadM = true →
      Host.inPmem (hostSeq pmem device' k).em.aluResultM = true ∨ device k = device' k) :
    hostSeq pmem device n = hostSeq pmem device' n := by
  induction n with
  | zero => rfl
  | succ n ih =>
    rw [hostSeq, ih fun k hk => h k (Nat.lt_succ_of_lt hk), hostSeq]
    cases hl : (hostSeq pmem device' n).em.memReadM
    · exact Arch.nextWith_congr hl _ _
    · rcases h n (Nat.lt_succ_self n) hl with hin | he
      · rw [Arch.hostRdata, Arch.hostRdata, hin, if_pos rfl, if_pos rfl]
      · rw [he]

/-- The run from reset over `pmem` and the devices. -/
def hostSeqRun (pmem : ByteMem 32) (device : ℕ → Word) : SeqRun where
  state := hostSeq pmem device
  rdata n := (hostSeq pmem device n).hostRdata (device n)
  step _ := rfl

/-- A program that comes to a `j 0` depends only on the devices that it loads from before. -/
theorem hostSeq_eq_of_j0 {pmem : ByteMem 32} {device device' : ℕ → Word} {e : ℕ}
    (hj : (hostSeqRun pmem device' e).instr = 0x6f#32)
    (h : ∀ k < e, (hostSeqRun pmem device' k).em.memReadM = true →
      Host.inPmem (hostSeqRun pmem device' k).em.aluResultM = true ∨ device k = device' k) :
    hostSeq pmem device = hostSeq pmem device' := by
  funext n
  refine hostSeq_congr fun k _ hl => ?_
  rcases Nat.lt_or_ge k e with hk | hk
  · exact h k hk hl
  · have hc : (controlD (hostSeqRun pmem device' k).instr).memReadE = true := hl
    rw [(SeqRun.of_j0 hj hk).2.2.1] at hc
    contradiction

variable (σ : ℕ → Arch)

/-- The program comes to instruction `n`: none before it is an `ebreak` or a `j 0`. -/
def Executed (n : ℕ) : Prop := ∀ k < n, (controlD (σ k).instr).ebreakE = false

/-- The program loads from the address. -/
def Loads (addr : Word) : Prop :=
  ∃ n, Executed σ n ∧ (σ n).em.memReadM = true ∧ (σ n).em.aluResultM = addr

/-- The program fetches, loads, or stores at the address. -/
def Accesses (addr : Word) : Prop :=
  ∃ n, Executed σ n ∧ ((σ n).pc = addr ∨
    ((σ n).em.memReadM || (σ n).em.memWriteM) = true ∧ (σ n).em.aluResultM = addr)

variable {σ}

/-- The program does not come past an instruction that ends it. -/
theorem Executed.le {n k : ℕ} (h : Executed σ n) (hk : (controlD (σ k).instr).ebreakE = true) :
    n ≤ k := by
  by_contra hlt
  rw [h k (Nat.lt_of_not_le hlt)] at hk
  contradiction

/-- The program comes to an instruction if it comes to the one before, and that does not end it. -/
theorem Executed.succ {n : ℕ} (h : Executed σ n) (hn : (controlD (σ n).instr).ebreakE = false) :
    Executed σ (n + 1) := by
  intro k hk
  rcases Nat.lt_succ_iff_lt_or_eq.mp hk with hk | rfl
  · exact h k hk
  · exact hn

/-- The program comes to the next instruction, if there is one, that does not end it. -/
theorem Executed.add_toNat {n : ℕ} {b : Bool} (h : Executed σ n)
    (hn : b = true → (controlD (σ n).instr).ebreakE = false) : Executed σ (n + b.toNat) := by
  cases b
  · exact h
  · exact h.succ (hn rfl)

end RV32Pipeline
