import RV32Pipeline.Pipeline.Simulation

/-!
# What the branch predictor may answer

`Pre_Wrong` compares only the predicted direction, so the front end is right only as long as a hit
in the branch target buffer names the target of the instruction that is executed. `Code` is the code
that a run executes: the addresses on its path and the word at each, with aligned targets.
`FrontEnd` says that every entry of the buffer for an address on the path is the entry of the word
there, and that D, E, and F follow these entries. It says nothing of addresses off the path: D may
hold a word from one for a cycle, and such a word gets an entry like any other.
-/

namespace RV32Pipeline

/-! ## Word addresses -/

/-- An address of a word is a multiple of 4. -/
def Aligned (a : Word) : Prop := a.extractLsb' 0 2 = 0#2

instance (a : Word) : Decidable (Aligned a) := inferInstanceAs (Decidable (_ = _))

theorem aligned_iff {a : Word} : Aligned a ↔ a.toNat % 4 = 0 := by
  rw [Aligned, ← BitVec.toNat_inj]
  simp

/-- The next word of an aligned address. -/
theorem Aligned.add_four {a : Word} (h : Aligned a) : Aligned (a + 4#32) := by
  rw [aligned_iff] at *
  rw [BitVec.toNat_add]
  simp only [BitVec.toNat_ofNat]
  omega

namespace Btb

/-- The buffer does not tell the addresses apart. -/
def Same (p q : Word) : Prop := index p = index q ∧ tag p = tag q

/-- The index and the tag together determine an aligned address. -/
theorem Same.eq {p q : Word} (h : Same p q) (hp : Aligned p) (hq : Aligned q) : p = q := by
  rw [aligned_iff] at hp hq
  have hi' := congrArg BitVec.toNat h.1
  have ht' := congrArg BitVec.toNat h.2
  simp only [index, tag, BitVec.extractLsb'_toNat, Nat.shiftRight_eq_div_pow] at hi' ht'
  have := p.isLt
  have := q.isLt
  apply BitVec.eq_of_toNat_eq
  omega

/-- A new entry answers for its own address, and for every other as the buffer did, if at all. -/
theorem hit_update {b : Btb} {q p : Word} {v : BitVec 33} (h : (b.update q v).hit p = true) :
    (Same p q ∧ (b.update q v).btbTargets (index p) = v) ∨
      (b.hit p = true ∧ (b.update q v).btbTargets (index p) = b.btbTargets (index p)) := by
  simp only [hit, update, Bool.and_eq_true, beq_iff_eq] at *
  by_cases hi : index p = index q
  · rw [hi] at h ⊢
    simp only [Function.update_self] at h ⊢
    exact .inl ⟨⟨hi, h.1.symm⟩, trivial⟩
  · simp only [Function.update_of_ne hi] at h ⊢
    exact .inr ⟨h, trivial⟩

end Btb

/-! ## The code on the path of a run -/

/-- The word is a conditional branch or a `jal`: its target depends only on the word and on where it
is, and D puts it into the branch target buffer. -/
def isDirectJump (w : Word) : Bool := (mulcuDecoder w).branch || (mulcuDecoder w).jal

/-- The target of a conditional branch or a `jal`. -/
def directTarget (pc w : Word) : Word := pc + (immeDecoder w).imme

/-- The entry that D makes for a conditional branch or a `jal`. -/
def btbEntry (pc w : Word) : BitVec 33 := BitVec.ofBool (mulcuDecoder w).jal ++ directTarget pc w

/-- The code that a run executes: which addresses are on its path, and the word at each of them. -/
structure Code where
  path : Word → Prop
  word : Word → Word
  aligned : ∀ p, path p → Aligned p
  target : ∀ p, path p → isDirectJump (word p) = true → Aligned (directTarget p (word p))

/-- The front end follows the code. -/
structure FrontEnd (k : Code) (s : Datapath) : Prop where
  entry : ∀ p, k.path p → s.btb.hit p = true →
    isDirectJump (k.word p) = true ∧ s.btb.btbTargets (Btb.index p) = btbEntry p (k.word p)
  -- These four are about the word in D, which may be off the path while E flushes it.
  aligned : s.ctl.validDReg = true → Aligned s.fd.pcRegD
  word : s.ctl.validDReg = true → k.path s.fd.pcRegD → s.fd.instrD = k.word s.fd.pcRegD
  direct : s.ctl.validDReg = true → k.path s.fd.pcRegD → s.fd.predictD = true →
    isDirectJump (k.word s.fd.pcRegD) = true
  taken : s.ctl.validDReg = true → k.path s.fd.pcRegD → s.fd.predictD = true →
    s.pcRegF = directTarget s.fd.pcRegD (k.word s.fd.pcRegD)
  control : s.ctl.validE = true → s.de.toControlE = controlD (k.word s.de.pcRegE)
  directE : s.ctl.validE = true → s.de.predictE = true →
    isDirectJump (k.word s.de.pcRegE) = true
  takenE : s.ctl.validE = true → s.de.predictE = true → s.ctl.validDReg = true →
    s.fd.pcRegD = directTarget s.de.pcRegE (k.word s.de.pcRegE)
  restart : s.ctl.validDReg = false → s.preWrongValid = false → Aligned s.pcRegF

/-- A load, a `jalr`, or an `mret` is not a direct jump. -/
theorem other_of_isDirectJump {w : Word} (h : isDirectJump w = true) :
    (controlD w).memReadE = false ∧ (controlD w).memWriteE = false ∧
      (controlD w).jalrE = false := by
  simp only [isDirectJump, controlD, mulcuDecoder] at *
  generalize w.extractLsb' 0 7 = op at *
  generalize w.extractLsb' 12 3 = f3 at *
  revert op f3
  decide

/-- Only a load in E stalls D, and it redirects the fetch only where it was predicted taken. -/
theorem Datapath.Inv.redirectOk {s : Datapath} {i : DatapathIn} (h : s.Inv)
    (hp : s.ctl.validE = true → s.de.memReadE = true → s.de.predictE = false) :
    s.RedirectOk i := by
  intro hpw hr
  rw [Datapath.stallD_of_readyM hr]
  rw [Datapath.preWrongValid, Bool.and_eq_true] at hpw
  obtain ⟨hw, hv⟩ := hpw
  by_contra hst
  rw [Bool.not_eq_false, hv, Bool.true_and, Datapath.loadUse, Bool.and_eq_true] at hst
  have hpred := hp hv hst.1
  have hread : (controlD s.instrER).memReadE = true := by rw [← h.controlE hv]; exact hst.1
  obtain ⟨-, hjal, hjalr, hb, hmret, -⟩ := other_of_memReadE hread
  rw [← h.controlE hv] at hjal hjalr hb hmret
  simp [Datapath.preWrong, BufferDE.preWrong, BufferDE.jumpSign, hjal, hjalr, hb, hmret,
    hpred] at hw

namespace FrontEnd

variable {k : Code} {s : Datapath} {i : DatapathIn} {l : Lookup}

/-- The instruction in E is a direct jump where it is predicted taken, so its redirect is not
lost. -/
theorem redirectOk (h : FrontEnd k s) (hi : s.Inv) : s.RedirectOk i :=
  hi.redirectOk fun hv hl => by
    by_contra hp
    have hd := other_of_isDirectJump (h.directE hv (by simpa using hp))
    rw [← h.control hv, hl] at hd
    exact absurd hd.1 (by decide)

/-- Where E jumps as predicted, the word in D is the one at the target. -/
theorem targetOk (h : FrontEnd k s) (hi : s.Inv) : s.TargetOk := by
  intro hv hw hpred
  have hd := other_of_isDirectJump (h.directE hv hpred)
  rw [← h.control hv] at hd
  rw [h.takenE hv hpred (hi.full hv hw), BufferDE.jumpTarget, hd.2.2]
  simp only [Bool.false_eq_true, if_false, BufferDE.pcJump, directTarget, h.control hv]
  rfl

/-- The front end after reset: the buffer is empty. -/
theorem afterReset (h : s.AfterReset) : FrontEnd k s where
  entry p _ hp := by
    rw [h.btb] at hp
    simp [Btb.hit, Btb.empty] at hp
  aligned := by simp [h.ctl]
  word := by simp [h.ctl]
  direct := by simp [h.ctl]
  taken := by simp [h.ctl]
  control := by simp [h.ctl, ValidCtrl.validE]
  directE := by simp [h.ctl, ValidCtrl.validE]
  takenE := by simp [h.ctl, ValidCtrl.validE]
  restart _ _ := by rw [h.pcRegF]; decide

section Edge

variable (hrst : i.rst = false) (h : FrontEnd k s) (hi : s.Inv)
include hrst h

/-- An entry of the buffer for the path, after the edge. -/
theorem entry_edge {p : Word} (hp : k.path p) (hit : (s.edge i l).btb.hit p = true) :
    isDirectJump (k.word p) = true ∧
      (s.edge i l).btb.btbTargets (Btb.index p) = btbEntry p (k.word p) := by
  rw [Datapath.edge_btb hrst] at hit ⊢
  cases hu : s.btbUpdate i
  · rw [hu] at hit
    exact h.entry p hp hit
  · rw [hu] at hit
    simp only [if_true] at hit ⊢
    simp only [Datapath.btbUpdate, Datapath.validD, ValidCtrl.validD, Bool.and_eq_true] at hu
    obtain ⟨⟨hjump, hv, -⟩, -⟩ := hu
    rcases Btb.hit_update hit with ⟨hs, ht⟩ | ⟨ho, ht⟩
    · -- The new entry is that of the word in D.
      obtain rfl := hs.eq (k.aligned p hp) (h.aligned hv)
      rw [ht, ← h.word hv hp]
      exact ⟨hjump, rfl⟩
    · rw [ht]
      exact h.entry p hp ho

include hi

/-- When D takes a word, the address it is fetched from is aligned. -/
theorem aligned_pcRegF (hE' : (s.edge i l).ctl.validE = true → k.path (s.edge i l).de.pcRegE)
    (hready : s.readyD i = true) (hp : s.preWrongValid = false) : Aligned s.pcRegF := by
  rw [Datapath.readyD_eq, Bool.and_eq_true, Bool.not_eq_true'] at hready
  cases hv : s.ctl.validDReg
  · exact h.restart hv hp
  · have hvD : s.validD i = true := by rw [Datapath.validD, ValidCtrl.validD, hv, hready.1]; rfl
    have hpath : k.path s.fd.pcRegD := by
      have := hE' (by rw [Datapath.edge_validE_of_readyM hrst hready.2, hvD, hp]; rfl)
      rwa [Datapath.edge_de hrst, hvD, hready.2] at this
    cases hpred : s.fd.predictD
    · rw [hi.fetch hv hpred]
      exact (h.aligned hv).add_four
    · rw [h.taken hv hpath hpred]
      exact k.target _ hpath (h.direct hv hpath hpred)

variable (hE' : (s.edge i l).ctl.validE = true → k.path (s.edge i l).de.pcRegE)
  (hword : s.readyD i = true → k.path s.pcRegF → i.instAxiRdata = k.word s.pcRegF)
  (hl : l.btbHitF = true → l = s.lookup)
  (hcorrect : s.preWrongValid = true → Aligned s.pcCorrectionPath)

include hE' in
theorem aligned_edge (hvD : (s.edge i l).ctl.validDReg = true) :
    Aligned (s.edge i l).fd.pcRegD := by
  rw [Datapath.edge_fd hrst]
  cases hready : s.readyD i
  · exact h.aligned (Datapath.Inv.validDReg_of_not_readyD hrst hvD hready).2
  · exact h.aligned_pcRegF hrst hi hE' hready
      (Datapath.Inv.preWrongValid_of_readyD hrst hvD hready)

omit hi in
include hword in
theorem word_edge (hvD : (s.edge i l).ctl.validDReg = true)
    (hp : k.path (s.edge i l).fd.pcRegD) :
    (s.edge i l).fd.instrD = k.word (s.edge i l).fd.pcRegD := by
  rw [Datapath.edge_fd hrst] at hp ⊢
  cases hready : s.readyD i
  · rw [hready] at hp
    exact h.word (Datapath.Inv.validDReg_of_not_readyD hrst hvD hready).2 hp
  · rw [hready] at hp
    exact hword hready hp

omit hrst hi in
include hl in
/-- A hit that predicts a word on the path taken is the entry of that word. -/
theorem lookup_of_predictF (hp : k.path s.pcRegF) (hpred : Datapath.predictF i l = true) :
    isDirectJump (k.word s.pcRegF) = true ∧
      l.btbTargetAddr.setWidth 32 = directTarget s.pcRegF (k.word s.pcRegF) := by
  simp only [Datapath.predictF, Bool.and_eq_true] at hpred
  have heq := hl hpred.1
  have hit : s.btb.hit s.pcRegF = true := by
    rw [heq] at hpred
    exact hpred.1
  obtain ⟨hjump, htarget⟩ := h.entry _ hp hit
  refine ⟨hjump, ?_⟩
  rw [heq]
  simp only [Datapath.lookup, Btb.targetAddr, hit, if_true, htarget, btbEntry]
  exact BitVec.setWidth_append_eq_right

omit hi in
include hl in
theorem taken_edge (hvD : (s.edge i l).ctl.validDReg = true)
    (hp : k.path (s.edge i l).fd.pcRegD) (hpred : (s.edge i l).fd.predictD = true) :
    isDirectJump (k.word (s.edge i l).fd.pcRegD) = true ∧
      (s.edge i l).pcRegF =
        directTarget (s.edge i l).fd.pcRegD (k.word (s.edge i l).fd.pcRegD) := by
  rw [Datapath.edge_fd hrst] at hp hpred ⊢
  rw [Datapath.edge_pcRegF hrst]
  cases hready : s.readyD i
  · rw [hready] at hp hpred
    have hv := (Datapath.Inv.validDReg_of_not_readyD hrst hvD hready).2
    exact ⟨h.direct hv hp hpred, h.taken hv hp hpred⟩
  · rw [hready] at hp hpred
    have hpred' : Datapath.predictF i l = true := hpred
    obtain ⟨hjump, htarget⟩ := h.lookup_of_predictF hl hp hpred'
    refine ⟨hjump, ?_⟩
    have hpw := Datapath.Inv.preWrongValid_of_readyD hrst hvD hready
    simp only [if_true, Datapath.pcSrc, hpw, Datapath.pcPredictPath, hpred', htarget,
      Bool.false_eq_true, if_false]
    rfl

omit hi in
include hE' in
theorem control_edge (hv : (s.edge i l).ctl.validE = true) :
    (s.edge i l).de.toControlE = controlD (k.word (s.edge i l).de.pcRegE) := by
  have hp := hE' hv
  rw [Datapath.edge_de hrst] at hp ⊢
  cases hr : s.readyM i
  · rw [Datapath.edge_validE_of_not_readyM hrst hr] at hv
    simpa using h.control hv
  · rw [Datapath.edge_validE_of_readyM hrst hr, Bool.and_eq_true] at hv
    rw [hv.1, hr] at hp
    have hvD := hv.1
    rw [Datapath.validD, ValidCtrl.validD, Bool.and_eq_true] at hvD
    have hw := h.word hvD.1 hp
    rw [hv.1]
    simp only [Bool.and_self, if_true, Datapath.deIn, bufferDEIn, hw]

omit hi in
include hE' in
theorem takenE_edge (hv : (s.edge i l).ctl.validE = true)
    (hpred : (s.edge i l).de.predictE = true) :
    isDirectJump (k.word (s.edge i l).de.pcRegE) = true ∧
      ((s.edge i l).ctl.validDReg = true →
        (s.edge i l).fd.pcRegD =
          directTarget (s.edge i l).de.pcRegE (k.word (s.edge i l).de.pcRegE)) := by
  have hp := hE' hv
  rw [Datapath.edge_de hrst] at hp hpred ⊢
  cases hr : s.readyM i
  · rw [Datapath.edge_validE_of_not_readyM hrst hr] at hv
    simp only [hr, Bool.and_false, Bool.false_eq_true, if_false] at hpred ⊢
    refine ⟨h.directE hv hpred, fun hvD => ?_⟩
    have hready := Datapath.readyD_of_not_readyM hr
    rw [Datapath.edge_fd hrst, hready]
    exact h.takenE hv hpred (Datapath.Inv.validDReg_of_not_readyD hrst hvD hready).2
  · rw [Datapath.edge_validE_of_readyM hrst hr, Bool.and_eq_true] at hv
    rw [hv.1, hr] at hp hpred
    have hvD := hv.1
    rw [Datapath.validD, ValidCtrl.validD, Bool.and_eq_true, Bool.not_eq_true'] at hvD
    have hready : s.readyD i = true := by rw [Datapath.readyD_eq, hr, hvD.2]; rfl
    rw [hv.1, Datapath.edge_fd hrst, hready]
    exact ⟨h.direct hvD.1 hp hpred, fun _ => h.taken hvD.1 hp hpred⟩

include hcorrect in
theorem restart_edge (hvD : (s.edge i l).ctl.validDReg = false)
    (hp' : (s.edge i l).preWrongValid = false) : Aligned (s.edge i l).pcRegF := by
  cases hr : s.readyM i
  · have hp : s.preWrongValid = false := by
      rwa [Datapath.preWrongValid, Datapath.Inv.preWrong_edge_of_not_readyM hrst hr,
        Datapath.edge_validE_of_not_readyM hrst hr] at hp'
    have hready := Datapath.readyD_of_not_readyM hr
    rw [Datapath.edge_validDReg_of_not_readyM hrst hr, hp] at hvD
    rw [Datapath.edge_pcRegF hrst, hready]
    exact h.restart (by simpa using hvD) hp
  · have hp := hi.preWrongValid_of_flush hrst hr hvD
    have hready : s.readyD i = true := by
      rw [Datapath.readyD_eq, h.redirectOk hi hp hr, hr]; rfl
    rw [Datapath.edge_pcRegF hrst, hready, if_pos rfl, Datapath.pcSrc, hp, if_pos rfl]
    exact hcorrect hp

include hE' hword hl hcorrect in
/-- A clock edge preserves the front end: the instruction that enters E is on the path, the words
fetched from the path are those of the code, and a redirect goes to an aligned address. -/
theorem edge : FrontEnd k (s.edge i l) where
  entry _ := h.entry_edge hrst
  aligned := h.aligned_edge hrst hi hE'
  word := h.word_edge hrst hword
  direct hv hp hpred := (h.taken_edge hrst hl hv hp hpred).1
  taken hv hp hpred := (h.taken_edge hrst hl hv hp hpred).2
  control := h.control_edge hrst hE'
  directE hv hpred := (h.takenE_edge hrst hE' hv hpred).1
  takenE hv hpred := (h.takenE_edge hrst hE' hv hpred).2
  restart := h.restart_edge hrst hi hcorrect

end Edge

end FrontEnd

end RV32Pipeline
