import RV32Pipeline.Pipeline.Program

/-!
# Where the front end fetches

What the front end may fetch, from a program alone. Where E finds a misprediction, D holds what was
predicted to come next, and F what was predicted to come after that. So D never holds a word that is
more than one prediction away from the path of the program (`NearPath`), and F, unless it has just
been corrected, is one prediction further (`Predicted`). A prediction goes to the next word, or to
the target of a direct jump that has been in D and has left an entry in the branch target buffer.
The jump may itself be off the path, at an address that the buffer does not tell from the one that
is fetched (`Taken`). The instructions that count are the `live` ones: those up to the end of the
program, or all of them.
-/

namespace RV32Pipeline

section Path

variable (σ : ℕ → Arch) (live : ℕ → Prop)

/-- The program comes to the address, or a live instruction goes on to it. -/
def OnPath (p : Word) : Prop := ∃ n, live n ∧ ((σ n).pc = p ∨ (σ (n + 1)).pc = p)

/-- The word stands at the address at some time. -/
def HasWord (p w : Word) : Prop := ∃ n, live n ∧ (σ n).mem.fetch p = w

/-- The front end may follow, from `p`, the entry of the direct jump `w` at `q`: a hit is followed
for a `jal`, or where the top bit of the word at `p` is set, as in a branch backwards. -/
structure Taken (p q w : Word) : Prop where
  same : Btb.Same p q
  word : HasWord σ live q w
  jump : isDirectJump w = true
  predict : (mulcuDecoder w).jal = true ∨ ∃ v, HasWord σ live p v ∧ v.getLsbD 31 = true

/-- The address is on the path, or predicted from there. -/
inductive NearPath : Word → Prop
  | path {p} : OnPath σ live p → NearPath p
  | next {p} : OnPath σ live p → NearPath (p + 4#32)
  | taken {p q w} : OnPath σ live p → NearPath q → Taken σ live p q w → NearPath (directTarget q w)

/-- The front end may go from `p` to `r`: to the next word, or to the target of an entry. -/
def Predicts (p r : Word) : Prop :=
  r = p + 4#32 ∨ ∃ q w, NearPath σ live q ∧ Taken σ live p q w ∧ r = directTarget q w

/-- The address is predicted from one that is near the path. -/
def Predicted (r : Word) : Prop := ∃ p, NearPath σ live p ∧ Predicts σ live p r

/-- The front end may fetch from the address. -/
def Fetched (p : Word) : Prop := OnPath σ live p ∨ Predicted σ live p

end Path

variable {σ : SeqRun} {live : ℕ → Prop}

/-- What is predicted from the path is near it. -/
theorem OnPath.near {p r : Word} (hp : OnPath σ live p) (h : Predicts σ live p r) :
    NearPath σ live r := by
  rcases h with rfl | ⟨q, w, hq, ht, rfl⟩
  · exact .next hp
  · exact .taken hp hq ht

/-- A bound on what is near the path: it holds of the path and of the words behind it, and of the
targets of the direct jumps that it holds of. -/
theorem NearPath.of_closed {N : Word → Prop}
    (hpath : ∀ p, OnPath σ live p → N p ∧ N (p + 4#32))
    (htarget : ∀ q w, N q → HasWord σ live q w → isDirectJump w = true → N (directTarget q w))
    {p : Word} (hp : NearPath σ live p) : N p := by
  induction hp with
  | path hp => exact (hpath _ hp).1
  | next hp => exact (hpath _ hp).2
  | taken _ _ ht ih => exact htarget _ _ ih ht.word ht.jump

/-- What is predicted is within such a bound, or a word behind it. -/
theorem Predicted.of_closed {N : Word → Prop}
    (hpath : ∀ p, OnPath σ live p → N p ∧ N (p + 4#32))
    (htarget : ∀ q w, N q → HasWord σ live q w → isDirectJump w = true → N (directTarget q w))
    {r : Word} (hr : Predicted σ live r) : N r ∨ ∃ p, N p ∧ r = p + 4#32 := by
  obtain ⟨p, hp, rfl | ⟨q, w, hq, ht, rfl⟩⟩ := hr
  · exact .inr ⟨p, hp.of_closed hpath htarget, rfl⟩
  · exact .inl (htarget q w (hq.of_closed hpath htarget) ht.word ht.jump)

/-- Where a live instruction ends the program, what it goes on to is predicted. -/
theorem predicted_of_ending {n : ℕ} (hn : live n) (he : (controlD (σ n).instr).ebreakE = true) :
    Predicted σ live (σ (n + 1)).pc := by
  have hpath : NearPath σ live (σ n).pc := .path ⟨n, hn, .inl rfl⟩
  refine ⟨_, hpath, ?_⟩
  rcases eq_of_ebreakE he with hw | hw
  · left
    rw [σ.step, (σ n).pc_of_ebreak hw]
  · -- The entry of a `j 0` is its own address.
    refine .inr ⟨_, 0x6f#32, hpath, ⟨⟨rfl, rfl⟩, ⟨n, hn, hw⟩, by decide, .inl (by decide)⟩, ?_⟩
    rw [σ.step, ((σ n).next_of_j0 hw _).1]
    exact (BitVec.add_zero _).symm

/-- The front end stays near the path. -/
structure FrontNear (σ : SeqRun) (live : ℕ → Prop) (s : Datapath) : Prop where
  -- Every entry is that of a direct jump near the path.
  entry : ∀ p, s.btb.hit p = true → ∃ q w, NearPath σ live q ∧ HasWord σ live q w ∧
    Btb.Same p q ∧ isDirectJump w = true ∧ s.btb.btbTargets (Btb.index p) = btbEntry q w
  near : s.ctl.validDReg = true → NearPath σ live s.fd.pcRegD
  word : s.ctl.validDReg = true → HasWord σ live s.fd.pcRegD s.fd.instrD
  next : s.ctl.validDReg = true → Predicts σ live s.fd.pcRegD s.pcRegF
  -- After a correction F is on the path, and D and E are empty.
  fetched : Predicted σ live s.pcRegF ∨ s.ctl.validDReg = false ∧ s.ctl.validE = false

namespace FrontNear

variable {c : ℕ} {s : Datapath} {m : Memories} {i : DatapathIn} {l : Lookup}

/-- After reset the buffer, D, and E are empty. -/
theorem afterReset (h : s.AfterReset) : FrontNear σ live s where
  entry p hp := by
    rw [h.btb] at hp
    simp [Btb.hit, Btb.empty] at hp
  near := by simp [h.ctl]
  word := by simp [h.ctl]
  next := by simp [h.ctl]
  fetched := .inr (by simp [h.ctl, ValidCtrl.validE])

/-- An instruction in E or behind it is on the path. -/
theorem onPath_idxD (hE : live (s.idxE c)) : OnPath σ live (σ (s.idxD c)).pc := by
  refine ⟨s.idxE c, hE, ?_⟩
  rw [Datapath.idxD]
  cases s.ctl.validE
  · exact .inl rfl
  · exact .inr rfl

variable (h : FrontNear σ live s) (hsim : Sim σ c s m)
include h hsim

/-- F is on the path or predicted. -/
theorem fetched_pcRegF (hE : live (s.idxE c)) : Fetched σ live s.pcRegF := by
  rcases h.fetched with hF | ⟨hvD, hvE⟩
  · exact .inr hF
  · rw [hsim.restart hvD hvE]
    exact .inl (onPath_idxD hE)

/-- Unless E finds a misprediction, F is near the path. -/
theorem near_pcRegF (hE : live (s.idxE c)) (hp : s.preWrongValid = false) :
    NearPath σ live s.pcRegF := by
  cases hD : s.ctl.validDReg
  · have hvE : s.ctl.validE = false := Bool.eq_false_iff.mpr fun hvE => by
      rw [hsim.inv.validDReg_of_validE hp hvE] at hD
      contradiction
    rw [hsim.restart hD hvE]
    exact .path (onPath_idxD hE)
  · -- D holds the next instruction of the program.
    have hpath : OnPath σ live s.fd.pcRegD := by
      rw [(hsim.fd hD hp).1]
      exact onPath_idxD hE
    exact hpath.near (h.next hD)

section Edge

variable (hM : live (s.idxM c)) (hl : l.btbHitF = true → l = s.lookup)

include hM hl in
/-- The next word, or the target of the entry that hits. -/
theorem predicts_pcPredictPath (hfetch : i.instAxiRdata = m.fetch s.pcRegF) :
    Predicts σ live s.pcRegF (s.pcPredictPath i l) := by
  have hword : HasWord σ live s.pcRegF i.instAxiRdata := ⟨_, hM, by rw [hfetch, hsim.mem]⟩
  rw [Datapath.pcPredictPath]
  cases hpred : Datapath.predictF i l
  · exact .inl rfl
  · simp only [Datapath.predictF, Bool.and_eq_true, Bool.or_eq_true] at hpred
    have heq := hl hpred.1
    have hit : s.btb.hit s.pcRegF = true := by
      rw [heq] at hpred
      exact hpred.1
    obtain ⟨q, w, hq, hw, hsame, hjump, htarget⟩ := h.entry _ hit
    have htaddr : l.btbTargetAddr = btbEntry q w := by
      rw [heq, ← htarget]
      exact if_pos hit
    refine .inr ⟨q, w, hq, ⟨hsame, hw, hjump, ?_⟩, ?_⟩
    · refine hpred.2.imp (fun hj => ?_) fun hv => ⟨_, hword, hv⟩
      -- Bit 32 of the entry.
      rw [htaddr, btbEntry, BitVec.getLsbD_append] at hj
      simpa using hj
    · rw [if_pos rfl, htaddr, btbEntry]
      exact BitVec.setWidth_append_eq_right

variable (hrst : i.rst = false)
include hrst

omit hsim in
/-- The word in D may make an entry. -/
theorem entry_edge {p : Word} (hit : (s.edge i l).btb.hit p = true) :
    ∃ q w, NearPath σ live q ∧ HasWord σ live q w ∧ Btb.Same p q ∧ isDirectJump w = true ∧
      (s.edge i l).btb.btbTargets (Btb.index p) = btbEntry q w := by
  rw [Datapath.edge_btb hrst] at hit ⊢
  cases hu : s.btbUpdate i
  · rw [hu] at hit
    exact h.entry p hit
  · rw [hu] at hit
    simp only [if_true] at hit ⊢
    simp only [Datapath.btbUpdate, Datapath.validD, ValidCtrl.validD, Bool.and_eq_true] at hu
    obtain ⟨⟨hjump, hv, -⟩, -⟩ := hu
    rcases Btb.hit_update hit with ⟨hsame, ht⟩ | ⟨ho, ht⟩
    · exact ⟨_, _, h.near hv, h.word hv, hsame, hjump, ht⟩
    · rw [ht]
      exact h.entry p ho

variable (hE : s.readyM i = true → live (s.idxE c))
  (hfetch : s.readyD i = true → i.instAxiRdata = m.fetch s.pcRegF)
include hM hE hl hfetch

/-- The next fetch. -/
theorem fetched_edge : Predicted σ live (s.edge i l).pcRegF ∨
    (s.edge i l).ctl.validDReg = false ∧ (s.edge i l).ctl.validE = false := by
  cases hready : s.readyD i
  · rw [Datapath.edge_pcRegF hrst, hready]
    refine h.fetched.imp id fun ⟨hvD, hvE⟩ => ?_
    -- With D and E empty, only M makes F wait.
    have hr : s.readyM i = false := Bool.eq_false_iff.mpr fun hr => by
      rw [Datapath.readyD_eq, Datapath.stallD_of_not_validE hr hvE, hr] at hready
      contradiction
    rw [Datapath.edge_validDReg_of_not_readyM hrst hr, hvD, Bool.and_false,
      Datapath.edge_validE_of_not_readyM hrst hr]
    exact ⟨rfl, hvE⟩
  · have hr : s.readyM i = true := by
      rw [Datapath.readyD_eq, Bool.and_eq_true] at hready
      exact hready.2
    cases hp : s.preWrongValid
    · left
      rw [Datapath.edge_pcRegF hrst, hready, if_pos rfl, Datapath.pcSrc, hp,
        if_neg Bool.false_ne_true]
      exact ⟨_, h.near_pcRegF hsim (hE hr) hp, h.predicts_pcPredictPath hsim hM hl (hfetch hready)⟩
    · -- A correction flushes D and E.
      right
      rw [Datapath.edge_validDReg_of_readyM hrst hr, Datapath.edge_validE_of_readyM hrst hr, hp]
      exact ⟨rfl, Bool.and_false _⟩

/-- A clock edge keeps the front end near the path. -/
theorem edge : FrontNear σ live (s.edge i l) := by
  -- D keeps its word, or takes one that is near the path.
  have hfd (hvD : (s.edge i l).ctl.validDReg = true) :
      NearPath σ live (s.edge i l).fd.pcRegD ∧
        HasWord σ live (s.edge i l).fd.pcRegD (s.edge i l).fd.instrD ∧
        Predicts σ live (s.edge i l).fd.pcRegD (s.edge i l).pcRegF := by
    rw [Datapath.edge_fd hrst, Datapath.edge_pcRegF hrst]
    cases hready : s.readyD i
    · have hv := (Datapath.Inv.validDReg_of_not_readyD hrst hvD hready).2
      exact ⟨h.near hv, h.word hv, h.next hv⟩
    · have hp := Datapath.Inv.preWrongValid_of_readyD hrst hvD hready
      have hr : s.readyM i = true := by
        rw [Datapath.readyD_eq, Bool.and_eq_true] at hready
        exact hready.2
      rw [if_pos rfl, if_pos rfl, Datapath.pcSrc, hp, if_neg Bool.false_ne_true]
      refine ⟨h.near_pcRegF hsim (hE hr) hp, ⟨_, hM, ?_⟩,
        h.predicts_pcPredictPath hsim hM hl (hfetch hready)⟩
      change _ = i.instAxiRdata
      rw [hfetch hready, hsim.mem]
      rfl
  exact
    { entry := fun _ hit => h.entry_edge hrst hit
      near := fun hv => (hfd hv).1
      word := fun hv => (hfd hv).2.1
      next := fun hv => (hfd hv).2.2
      fetched := h.fetched_edge hsim hM hl hrst hE hfetch }

end Edge

end FrontNear

end RV32Pipeline
