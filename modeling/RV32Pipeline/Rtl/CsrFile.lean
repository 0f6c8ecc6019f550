import RV32Pipeline.Lib.History
import RV32Pipeline.Rtl.Stages
import RV32Pipeline.Rtl.Registers

/-!
# Writes to the CSR module

The module `CSR` folds the 4096 addresses through a 2-bit index, and its `default` is the index of
`mtvec`. The arms `default: ;` of the write and `default: csr_rdata = 0` of the read, which would
keep an address without a register apart, are never taken: the 2-bit index always names a register.
So a write to any such address, a common CSR like `mscratch` or `mie` among them, writes `mtvec`.
The module is compared with a file of four registers in which each write goes to the register at its
own address (`FrameLaw`).
-/

namespace RV32Pipeline

/-- The registers of the module `CSR`. -/
inductive CsrName
  | mtvec
  | mstatus
  | mepc
  | mcause
  deriving DecidableEq

namespace CsrName

/-- The localparams `MTVEC_ADDR`, `MSTATUS_ADDR`, `MEPC_ADDR`, and `MCAUSE_ADDR`. -/
def addr : CsrName → BitVec 12
  | mtvec => 0x305#12
  | mstatus => 0x300#12
  | mepc => 0x341#12
  | mcause => 0x342#12

/-- The localparams `MTVEC_IDX`, `MSTATUS_IDX`, `MEPC_IDX`, and `MCAUSE_IDX`. -/
def idx : CsrName → BitVec 2
  | mtvec => 0#2
  | mstatus => 1#2
  | mepc => 2#2
  | mcause => 3#2

/-- Registers have different indices. -/
theorem idx_inj {n m : CsrName} : n.idx = m.idx ↔ n = m := by
  cases n <;> cases m <;> decide

/-- Registers have different addresses. -/
theorem addr_inj {n m : CsrName} : n.addr = m.addr ↔ n = m := by
  cases n <;> cases m <;> decide

/-- An address has a register of its own. -/
def Implemented (a : BitVec 12) : Prop := ∃ n : CsrName, n.addr = a

end CsrName

/-- The write port of the module `CSR` at one clock edge. -/
structure CsrPort where
  csrWe : Bool
  csrWaddr : BitVec 12
  csrWdata : Word

namespace CsrPort

/-- What the write-back stage drives the port with. -/
def ofMW (b : BufferMW) : CsrPort := ⟨b.csrWenW, b.csrWaddrW, b.csrWdataW⟩

/-- The write that the port asks for, by its address. -/
def writes (p : CsrPort) : List (BitVec 12 × Word) :=
  if p.csrWe then [(p.csrWaddr, p.csrWdata)] else []

end CsrPort

namespace Csr

/-- The register of a name. -/
def get (c : Csr) : CsrName → Word
  | .mtvec => c.mtvec
  | .mstatus => c.mstatus
  | .mepc => c.mepc
  | .mcause => c.mcause

/-- The registers after a clock edge that is not a reset. -/
def edge (c : Csr) (p : CsrPort) : Csr := c.next false p.csrWe p.csrWaddr p.csrWdata

/-- The registers after a clock edge for each of the ports, in order. -/
def run (c : Csr) (ps : List CsrPort) : Csr := ps.foldl edge c

/-- The frame law over the clock edges `ps` from the registers `c`: every write changes the register
at its address and no other, and at every point the register at an implemented address reads as the
value last written to that address, or as `c` has it if there was none. -/
structure FrameLaw (c : Csr) (ps : List CsrPort) : Prop where
  frame : ∀ pre p post, ps = pre ++ p :: post → p.csrWe = true →
    ∀ n : CsrName, ((c.run pre).edge p).get n =
      if n.addr = p.csrWaddr then p.csrWdata else (c.run pre).get n
  read : ∀ pre, pre <+: ps → ∀ n : CsrName,
    (c.run pre).read n.addr = History.lastWritten c.read (pre.flatMap CsrPort.writes) n.addr

/-- Every write to an address without a register writes the value that was last written to the
address of `mtvec`. -/
def StraysKeepMtvec (c : Csr) (ps : List CsrPort) : Prop :=
  ∀ pre p post, ps = pre ++ p :: post → p.csrWe = true → ¬ CsrName.Implemented p.csrWaddr →
    p.csrWdata = History.lastWritten c.read (pre.flatMap CsrPort.writes) CsrName.mtvec.addr

/-! ## One edge -/

/-- An implemented address selects the index of its register. -/
@[simp] theorem idx_addr (n : CsrName) : idx n.addr = n.idx := by
  cases n <;> rfl

/-- An address without a register selects the index of `mtvec`. -/
theorem idx_of_not_implemented {a : BitVec 12} (h : ¬ CsrName.Implemented a) :
    idx a = CsrName.mtvec.idx := by
  have hne : ∀ n : CsrName, a ≠ n.addr := fun n hn => h ⟨n, hn.symm⟩
  have h305 : a ≠ 0x305#12 := hne .mtvec
  have h300 : a ≠ 0x300#12 := hne .mstatus
  have h341 : a ≠ 0x341#12 := hne .mepc
  have h342 : a ≠ 0x342#12 := hne .mcause
  unfold idx
  rw [if_neg h305, if_neg h300, if_neg h341, if_neg h342]
  rfl

/-- The read of an implemented address is the register. -/
@[simp] theorem read_addr (c : Csr) (n : CsrName) : c.read n.addr = c.get n := by
  cases n <;> rfl

/-- A write replaces the register at the index that its address selects. -/
theorem get_write (c : Csr) (a : BitVec 12) (d : Word) (n : CsrName) :
    (c.write a d).get n = if n.idx = idx a then d else c.get n := by
  rcases idx_cases a with h | h | h | h <;> cases n <;> simp [write, get, h, CsrName.idx]

/-- An edge without a write changes nothing. -/
theorem edge_of_not_csrWe (c : Csr) {p : CsrPort} (h : p.csrWe = false) : c.edge p = c := by
  simp [edge, next, h]

/-- An edge with a write replaces the register at the index that its address selects. -/
theorem get_edge (c : Csr) {p : CsrPort} (h : p.csrWe = true) (n : CsrName) :
    (c.edge p).get n = if n.idx = idx p.csrWaddr then p.csrWdata else c.get n := by
  rw [← get_write]
  simp [edge, next, h]

/-- A write to an implemented address replaces the register there and no other. -/
theorem get_edge_of_implemented (c : Csr) {p : CsrPort} (hwe : p.csrWe = true)
    (hp : CsrName.Implemented p.csrWaddr) (n : CsrName) :
    (c.edge p).get n = if n.addr = p.csrWaddr then p.csrWdata else c.get n := by
  obtain ⟨m, hm⟩ := hp
  rw [get_edge c hwe, ← hm, idx_addr]
  simp only [CsrName.idx_inj, CsrName.addr_inj]

/-- A write to any other address replaces `mtvec`. -/
theorem get_edge_of_not_implemented (c : Csr) {p : CsrPort} (hwe : p.csrWe = true)
    (hp : ¬ CsrName.Implemented p.csrWaddr) (n : CsrName) :
    (c.edge p).get n = if n = .mtvec then p.csrWdata else c.get n := by
  rw [get_edge c hwe, idx_of_not_implemented hp]
  simp only [CsrName.idx_inj]

/-- A write keeps the frame exactly when it is to an implemented address or leaves `mtvec` as it
is. -/
theorem frame_edge_iff (c : Csr) {p : CsrPort} (hwe : p.csrWe = true) :
    (∀ n : CsrName, (c.edge p).get n =
      if n.addr = p.csrWaddr then p.csrWdata else c.get n) ↔
    (¬ CsrName.Implemented p.csrWaddr → p.csrWdata = c.get .mtvec) := by
  constructor
  · intro h hp
    have hmtvec := h .mtvec
    rw [get_edge_of_not_implemented c hwe hp, if_pos rfl, if_neg fun ha => hp ⟨_, ha⟩] at hmtvec
    exact hmtvec
  · intro h n
    by_cases hp : CsrName.Implemented p.csrWaddr
    · exact get_edge_of_implemented c hwe hp n
    · have hne : n.addr ≠ p.csrWaddr := fun ha => hp ⟨n, ha⟩
      rw [get_edge_of_not_implemented c hwe hp, if_neg hne, h hp]
      split_ifs with hn
      · rw [hn]
      · rfl

/-! ## Runs -/

/-- Where every edge keeps the frame, an implemented address reads as it was last written. -/
theorem read_run_of_frame {c : Csr} (ps : List CsrPort)
    (h : ∀ pre p post, ps = pre ++ p :: post → p.csrWe = true → ∀ n : CsrName,
      ((c.run pre).edge p).get n = if n.addr = p.csrWaddr then p.csrWdata else (c.run pre).get n)
    (n : CsrName) :
    (c.run ps).read n.addr = History.lastWritten c.read (ps.flatMap CsrPort.writes) n.addr := by
  apply History.view_foldl _ ps
  intro pre p post hps
  cases hwe : p.csrWe
  · have hw : p.writes = [] := by simp [CsrPort.writes, hwe]
    rw [hw, History.lastWritten_nil, edge_of_not_csrWe _ hwe]
  · have hw : p.writes = [] ++ [(p.csrWaddr, p.csrWdata)] := by simp [CsrPort.writes, hwe]
    have hf := h pre p post hps hwe n
    unfold run at hf
    rw [hw, History.lastWritten_concat, History.lastWritten_nil, read_addr, read_addr, hf]
    exact if_congr eq_comm rfl rfl

/-- The frame law holds exactly when no write to an address without a register changes `mtvec`. -/
theorem frameLaw_iff (c : Csr) (ps : List CsrPort) : c.FrameLaw ps ↔ c.StraysKeepMtvec ps := by
  constructor
  · intro h pre p post hps hwe hp
    rw [(frame_edge_iff _ hwe).mp (h.frame pre p post hps hwe) hp,
      ← h.read pre ⟨p :: post, hps.symm⟩ .mtvec, read_addr]
  · intro h
    -- By induction on the edges before: they keep the frame, so `mtvec` reads as last written.
    have hframe : ∀ k pre p post, pre.length = k → ps = pre ++ p :: post → p.csrWe = true →
        ∀ n : CsrName, ((c.run pre).edge p).get n =
          if n.addr = p.csrWaddr then p.csrWdata else (c.run pre).get n := by
      intro k
      induction k using Nat.strongRecOn with
      | _ k ih =>
        intro pre p post hk hps hwe
        rw [frame_edge_iff _ hwe]
        intro hp
        rw [h pre p post hps hwe hp, ← read_run_of_frame pre _ .mtvec, read_addr]
        intro pre' q post' hpre hq
        apply ih pre'.length _ pre' q (post' ++ p :: post) rfl _ hq
        · rw [← hk, hpre]
          simp
        · rw [hps, hpre, List.append_assoc, List.cons_append]
    refine ⟨fun pre p post hps hwe => hframe _ pre p post rfl hps hwe, ?_⟩
    rintro pre ⟨rest, hrest⟩ n
    apply read_run_of_frame
    intro pre' q post' hpre hq
    apply hframe _ pre' q (post' ++ rest) rfl _ hq
    rw [← hrest, hpre, List.append_assoc, List.cons_append]

/-- The word `csrrw x0, mscratch, x1` with 5 in `x1`, written back over the registers after reset,
breaks the frame law: it writes `mtvec`. -/
theorem not_frameLaw_mscratch :
    ¬ init.FrameLaw [CsrPort.ofMW { BufferMW.reset with
      toControlW := (controlD 0x34009073#32).toM.toW, src1W := 5#32 }] := by
  intro h
  have hf := h.frame [] _ [] rfl (by decide) .mtvec
  revert hf
  decide

end Csr

end RV32Pipeline
