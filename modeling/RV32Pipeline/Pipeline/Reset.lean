import RV32Pipeline.Machine.Npc

/-!
# Reset erases history

An edge with `rst = 1` sets every register of the core but `csr_rdata_E`. So two runs from it differ
in this register at most, and only until an instruction enters E: the register is read for a
redirect and for what E hands to M, and both need an instruction in E. `Agree` says that, and every
edge preserves it, with or without `rst`.
-/

namespace RV32Pipeline

namespace Datapath

/-- The registers with another word in `csr_rdata_E`. -/
def withCsrRdataE (s : Datapath) (x : Word) : Datapath := { s with de := { s.de with csrRdataE := x } }

/-- Two states of the core agree but for `csr_rdata_E`, and in this too if an instruction is in
E. -/
def Agree (s s' : Datapath) : Prop := ∃ x, s' = s.withCsrRdataE x ∧ (s.ctl.validE = true → s' = s)

variable {s s' : Datapath} (i : DatapathIn) (l : Lookup)

/-- After an edge with `rst = 1` any two states agree. -/
theorem agree_of_rst {j : DatapathIn} {k : Lookup} (hi : i.rst = true) (hj : j.rst = true) :
    Agree (s.edge i l) (s'.edge j k) := by
  refine ⟨s'.de.csrRdataE, ?_, fun hv => ?_⟩
  · unfold edge withCsrRdataE
    simp only [hi, hj, bufferNext, pcNext, ValidCtrl.next, RawDetect.next, Btb.next,
      RegisterFile.next, Csr.next, if_true]
    rfl
  · have hE : (s.edge i l).ctl.validE = false := by
      unfold edge ValidCtrl.next ValidCtrl.validE
      rw [hi]
      rfl
    rw [hE] at hv
    contradiction

/-- Without an instruction in E there is no redirect. -/
theorem pcSrc_withCsrRdataE (x : Word) (hv : s.ctl.validE = false) :
    (s.withCsrRdataE x).pcSrc i l = s.pcSrc i l := by
  have hp : s.preWrongValid = false := by rw [preWrongValid, hv, Bool.and_false]
  have hp' : (s.withCsrRdataE x).preWrongValid = false := hp
  rw [pcSrc, pcSrc, hp, hp']
  rfl

/-- Without an instruction in E, nothing enters M. -/
theorem em_edge_of_not_validE (hv : s.ctl.validE = false) :
    (s.edge i l).em = if i.rst then BufferEM.reset else s.em := by
  show bufferNext i.rst (s.ctl.validE && s.readyM i) BufferEM.reset s.emIn s.em = _
  rw [hv, Bool.false_and]
  rfl

/-- The word that an edge leaves in `csr_rdata_E` when `x` was there. -/
def csrRdataENext (x : Word) : Word :=
  if !i.rst && (s.validD i && s.readyM i) then s.deIn.csrRdataE else x

/-- The buffer behind D after an edge, from another word in `csr_rdata_E`. -/
theorem de_edge_withCsrRdataE (x : Word) :
    ((s.withCsrRdataE x).edge i l).de =
      { (s.edge i l).de with csrRdataE := csrRdataENext (s := s) i x } := by
  show bufferNext i.rst (s.validD i && s.readyM i) (BufferDE.reset { s.de with csrRdataE := x })
      s.deIn { s.de with csrRdataE := x } =
    { bufferNext i.rst (s.validD i && s.readyM i) s.de.reset s.deIn s.de with
      csrRdataE := if !i.rst && (s.validD i && s.readyM i) then s.deIn.csrRdataE else x }
  unfold bufferNext
  rcases Bool.eq_false_or_eq_true i.rst with hr | hr
  · rw [hr]
    rfl
  · rw [hr]
    rcases Bool.eq_false_or_eq_true (s.validD i && s.readyM i) with he | he
    · rw [he]
      rfl
    · rw [he]
      rfl

/-- Without an instruction in E, another word in `csr_rdata_E` is overwritten or still there after
the edge, and the other registers do not depend on it. -/
theorem edge_withCsrRdataE (x : Word) (hv : s.ctl.validE = false) :
    (s.withCsrRdataE x).edge i l =
      (s.edge i l).withCsrRdataE (csrRdataENext (s := s) i x) := by
  have hpc := pcSrc_withCsrRdataE i l x hv
  have hv' : (s.withCsrRdataE x).ctl.validE = false := hv
  have hem : ((s.withCsrRdataE x).edge i l).em = (s.edge i l).em := by
    rw [em_edge_of_not_validE i l hv', em_edge_of_not_validE i l hv]
    rfl
  have hde := de_edge_withCsrRdataE (s := s) i l x
  unfold withCsrRdataE
  rw [← hde, ← hem]
  unfold edge
  rw [← hpc]
  rfl

/-- An instruction enters an empty E only over what D read for it. -/
theorem csrRdataENext_of_validE (x : Word) (hv : s.ctl.validE = false)
    (hn : (s.edge i l).ctl.validE = true) :
    csrRdataENext (s := s) i x = (s.edge i l).de.csrRdataE := by
  have hc : (if i.rst then false
      else if s.preWrong && s.ctl.validE && s.readyM i then false
      else if s.readyM i then s.validD i
      else if s.readyM i then false
      else s.ctl.validEReg) = true := hn
  have hv' : s.ctl.validEReg = false := hv
  rw [hv, hv', Bool.and_false, Bool.false_and] at hc
  -- E is filled out of reset, with M ready, and from D.
  have hr : i.rst = false := by
    by_contra hr
    rw [Bool.not_eq_false] at hr
    rw [hr] at hc
    exact Bool.noConfusion hc
  have hM : s.readyM i = true := by
    by_contra hM
    rw [Bool.not_eq_true] at hM
    rw [hr, hM] at hc
    exact Bool.noConfusion hc
  have hD : s.validD i = true := by
    rw [hr, hM] at hc
    exact hc
  show (if !i.rst && (s.validD i && s.readyM i) then s.deIn.csrRdataE else x) =
    (bufferNext i.rst (s.validD i && s.readyM i) s.de.reset s.deIn s.de).csrRdataE
  rw [hr, hM, hD]
  rfl

/-- Every edge, in reset or not, keeps the agreement. -/
theorem Agree.edge (h : Agree s s') : Agree (s.edge i l) (s'.edge i l) := by
  obtain ⟨x, rfl, hx⟩ := h
  rcases Bool.eq_false_or_eq_true s.ctl.validE with hv | hv
  · rw [hx hv]
    exact ⟨(s.edge i l).de.csrRdataE, rfl, fun _ => rfl⟩
  · refine ⟨_, edge_withCsrRdataE i l x hv, fun hn => ?_⟩
    rw [edge_withCsrRdataE i l x hv, csrRdataENext_of_validE i l x hv hn]
    rfl

/-- No output shows `csr_rdata_E`. -/
theorem Agree.out (h : Agree s s') : s'.out i = s.out i := by
  obtain ⟨x, rfl, -⟩ := h
  rfl

/-- The lookup in the branch target buffer does not read `csr_rdata_E`. -/
theorem Agree.lookup (h : Agree s s') : s'.lookup = s.lookup := by
  obtain ⟨x, rfl, -⟩ := h
  rfl

end Datapath

/-! ## The top module in any surroundings -/

/-- What surrounds the core, with states `M`: the memories, the peripherals, and the input `rst`. It
answers the outputs of a cycle in that cycle, and moves on at the edge. -/
structure Environment (M : Type*) where
  /-- The input `rst`. -/
  rst : M → Bool
  /-- The words on the read channels. -/
  words : M → DatapathOut → BusWords
  /-- The state after a clock edge. -/
  next : M → DatapathOut → M

namespace Npc

variable {y y' : Npc}

/-- Two states agree as their cores do, and `ReadData_M_valid_reg` is the same. -/
structure Agree (y y' : Npc) : Prop where
  core : Datapath.Agree y.core y'.core
  readDataMValidReg : y'.readDataMValidReg = y.readDataMValidReg

/-- After an edge with `rst = 1` any two states agree. -/
theorem agree_next_rst (y y' : Npc) (w w' : BusWords) : Agree (y.next true w) (y'.next true w') :=
  ⟨Datapath.agree_of_rst _ _ rfl rfl, rfl⟩

namespace Agree

variable (h : Agree y y')
include h

/-- Agreeing states have the same outputs. -/
theorem out (rst : Bool) : y'.out rst = y.out rst := by
  show y'.core.out (y'.input rst ⟨0#32, 0#32⟩) = y.core.out (y.input rst ⟨0#32, 0#32⟩)
  unfold input
  rw [h.readDataMValidReg]
  exact h.core.out _

/-- Every edge keeps the agreement. -/
theorem next (rst : Bool) (w : BusWords) : Agree (y.next rst w) (y'.next rst w) := by
  constructor
  · show Datapath.Agree (y.core.edge (y.input rst w) y.core.lookup)
      (y'.core.edge (y'.input rst w) y'.core.lookup)
    unfold input
    rw [h.core.lookup, h.readDataMValidReg]
    exact h.core.edge _ _
  · obtain ⟨⟨x, hx, -⟩, hr⟩ := h
    unfold Npc.next
    rw [hx, hr]
    rfl

end Agree

end Npc

namespace Environment

variable {M : Type*} (E : Environment M)

/-- One clock edge of the core in its surroundings. -/
def step (s : Npc × M) : Npc × M :=
  let o := s.1.out (E.rst s.2)
  (s.1.next (E.rst s.2) (E.words s.2 o), E.next s.2 o)

/-- The outputs of the core in cycle `t` of the run from `y` and `m`. -/
def outputs (y : Npc) (m : M) (t : ℕ) : DatapathOut :=
  ((E.step^[t] (y, m)).1).out (E.rst (E.step^[t] (y, m)).2)

/-- One edge keeps the agreement of two cores, and of their surroundings. -/
theorem agree_step {y y' : Npc} {m : M} (h : Npc.Agree y y') :
    Npc.Agree (E.step (y, m)).1 (E.step (y', m)).1 ∧ (E.step (y', m)).2 = (E.step (y, m)).2 := by
  have ho := h.out (E.rst m)
  unfold step
  simp only [ho]
  exact ⟨h.next _ _, trivial⟩

/-- So does a run. -/
theorem agree_run {y y' : Npc} {m : M} (h : Npc.Agree y y') (t : ℕ) :
    Npc.Agree (E.step^[t] (y, m)).1 (E.step^[t] (y', m)).1 ∧
      (E.step^[t] (y', m)).2 = (E.step^[t] (y, m)).2 := by
  induction t with
  | zero => exact ⟨h, rfl⟩
  | succ t ih =>
    obtain ⟨ha, hm⟩ := ih
    rw [Function.iterate_succ_apply', Function.iterate_succ_apply']
    have hs := E.agree_step (m := (E.step^[t] (y, m)).2) ha
    have hy' : E.step^[t] (y', m) = ((E.step^[t] (y', m)).1, (E.step^[t] (y, m)).2) := by
      rw [← hm]
    rw [hy']
    exact hs

/-- Reset erases history: from any two states of the core, whatever is on the read channels during
the reset, the runs after it in the same surroundings show the same outputs in every cycle. -/
theorem outputs_after_reset (y y' : Npc) (w w' : BusWords) (m : M) (t : ℕ) :
    E.outputs (y'.next true w') m t = E.outputs (y.next true w) m t := by
  obtain ⟨ha, hm⟩ := E.agree_run (m := m) (Npc.agree_next_rst y y' w w') t
  unfold outputs
  rw [hm]
  exact ha.out _

end Environment

end RV32Pipeline
