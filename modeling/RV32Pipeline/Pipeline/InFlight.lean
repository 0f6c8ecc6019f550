import Mathlib.Data.Nat.Count
import RV32Pipeline.Machine.System
import RV32Pipeline.Pipeline.Invariant

/-!
# The instructions in flight

Every instruction that enters E comes to W, in order and once. So the instructions of a run are
numbered by their write-back: when `c` of them have written back, the ones in W, M, and E are the
next ones from `c` on, and D holds the one after them. An edge moves the numbers on with the
instructions.
-/

namespace RV32Pipeline

namespace Datapath

variable (s : Datapath) (i : DatapathIn)

/-- An instruction moves from D to E at this edge. -/
def leavesD : Bool := s.validD i && s.readyM i && !s.preWrongValid

/-- What is forwarded to the instruction that leaves D, for each source register that it reads,
comes from an instruction that writes the register. -/
structure ForwardOk : Prop where
  rs1 : s.leavesD i = true → (controlD s.fd.instrD).readsRs1 = true →
    s.ForwardSafe i (mulcuDecoder s.fd.instrD).rs1
  rs2 : s.leavesD i = true → (controlD s.fd.instrD).readsRs2 = true →
    s.ForwardSafe i (mulcuDecoder s.fd.instrD).rs2

instance : Decidable (s.ForwardOk i) :=
  decidable_of_iff
    ((s.leavesD i = true → (controlD s.fd.instrD).readsRs1 = true →
        s.ForwardSafe i (mulcuDecoder s.fd.instrD).rs1) ∧
      (s.leavesD i = true → (controlD s.fd.instrD).readsRs2 = true →
        s.ForwardSafe i (mulcuDecoder s.fd.instrD).rs2))
    ⟨fun ⟨rs1, rs2⟩ => ⟨rs1, rs2⟩, fun ⟨rs1, rs2⟩ => ⟨rs1, rs2⟩⟩

/-- The index of the instruction in M, when `c` instructions have written back. -/
def idxM (c : ℕ) : ℕ := c + s.ctl.validW.toNat

/-- The index of the instruction in E. -/
def idxE (c : ℕ) : ℕ := s.idxM c + s.occM.toNat

/-- The index of the instruction in D. -/
def idxD (c : ℕ) : ℕ := s.idxE c + s.ctl.validE.toNat

end Datapath

/-! ## The indices after an edge -/

namespace Datapath

variable {s : Datapath} {i : DatapathIn} {l : Lookup} (hrst : i.rst = false) (hs : s.Inv)
include hrst hs

theorem idxM_edge_of_readyM (h : s.readyM i = true) (c : ℕ) :
    (s.edge i l).idxM (s.idxM c) = s.idxE c := by
  rw [idxM, edge_validW hrst, validM_of_readyM hrst hs.mState h, idxE]

theorem idxM_edge_of_not_readyM (h : s.readyM i = false) (c : ℕ) :
    (s.edge i l).idxM (s.idxM c) = s.idxM c := by
  rw [idxM, edge_validW hrst, (load_of_not_readyM hrst hs.mState h).2.2]
  rfl

theorem idxE_edge_of_readyM (h : s.readyM i = true) (c : ℕ) :
    (s.edge i l).idxE (s.idxM c) = s.idxD c := by
  rw [idxE, idxM_edge_of_readyM hrst hs h, hs.occM_edge_of_readyM hrst h, idxD]

theorem idxE_edge_of_not_readyM (h : s.readyM i = false) (c : ℕ) :
    (s.edge i l).idxE (s.idxM c) = s.idxE c := by
  obtain ⟨h1, h2⟩ := hs.occM_edge_of_not_readyM (l := l) hrst h
  rw [idxE, idxM_edge_of_not_readyM hrst hs h, h1, idxE, h2]

theorem idxD_edge_of_readyM (h : s.readyM i = true) (c : ℕ) :
    (s.edge i l).idxD (s.idxM c) = s.idxD c + (s.leavesD i).toNat := by
  rw [idxD, idxE_edge_of_readyM hrst hs h, edge_validE_of_readyM hrst h, leavesD, h, Bool.and_true]

theorem idxD_edge_of_not_readyM (h : s.readyM i = false) (c : ℕ) :
    (s.edge i l).idxD (s.idxM c) = s.idxD c := by
  rw [idxD, idxE_edge_of_not_readyM hrst hs h, edge_validE_of_not_readyM hrst h, idxD]

end Datapath

/-! ## Runs -/

/-- The number of instructions that have written back before cycle `t`. -/
def retired (s : ℕ → Datapath) (t : ℕ) : ℕ := Nat.count (fun u => (s u).ctl.validW = true) t

theorem retired_succ (s : ℕ → Datapath) (t : ℕ) : retired s (t + 1) = (s t).idxM (retired s t) := by
  rw [retired, Nat.count_succ, Datapath.idxM]
  cases (s t).ctl.validW <;> rfl

/-- Two cycles with a write-back are the same if as many instructions were written back before. -/
theorem eq_of_retired_eq {s : ℕ → Datapath} {t u : ℕ} (ht : (s t).ctl.validW = true)
    (hu : (s u).ctl.validW = true) (h : retired s t = retired s u) : t = u :=
  Nat.count_injective ht hu h

/-- The invariant holds in every cycle of a run. -/
theorem CoreRun.inv {inp : ℕ → DatapathIn} {look : ℕ → Lookup} {s : ℕ → Datapath}
    (h : CoreRun inp look s) (t : ℕ) : (s t).Inv := by
  induction t with
  | zero => exact h.reset.inv
  | succ t ih =>
    rw [h.edge]
    exact ih.edge (h.rst t)

end RV32Pipeline
