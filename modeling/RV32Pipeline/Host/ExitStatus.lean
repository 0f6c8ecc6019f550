import RV32Pipeline.Host.Command
import RV32Pipeline.Host.Memory

/-!
# The exit status of the simulator

`cpu_exec`, the commands of the debugger that execute instructions or leave it, and `main`. The
variable `state` is written where the program ends (`stop`), where an access is out of bounds or the
registers differ from the reference (`ABORT`), and by `cpu_exec` and `cmd_q`; `main` returns 1 if it
is `ABORT` at last. The last write counts: an `ebreak` after an abort covers it, and the code of a
bad trap, `halt_ret`, is never looked at.
-/

namespace RV32Pipeline

/-- What an evaluation of the circuit does to `state`: an access out of bounds, or an `ebreak` with
the register `a0`. -/
inductive Event where
  | outOfBound
  | ebreak (a0 : Word)
  deriving DecidableEq

/-- A call of `exec_once`, the cycles up to the next one with `valid_W`: their events in order, and
whether `difftest_step` afterwards finds that the registers differ. -/
structure ExecOnce where
  events : List Event
  mismatch : Bool

/-- A run of the program: the calls of `exec_once`, and what `check_wp` returns after each. -/
structure Program where
  call : ℕ → ExecOnce
  checkWp : ℕ → Bool

/-- The variables `state` and `halt_ret`, and the number of calls of `exec_once` so far; the static
`first` of `execute` is up as long as there has been none. -/
structure Simulator where
  state : CpuState
  haltRet : Word
  calls : ℕ

namespace Simulator

variable (p : Program) (s : Simulator)

/-! ## Execution -/

/-- The function `stop`. -/
def stop (code : Word) : Simulator := { s with state := .ended, haltRet := code }

/-- An event: `pmem_read` and `pmem_write` abort, `ebreak` stops with `a0`. -/
def event (e : Event) : Simulator :=
  match e with
  | .outOfBound => { s with state := .abort }
  | .ebreak a0 => s.stop a0

/-- The function `exec_once`. -/
def execOnce : Simulator :=
  { (p.call s.calls).events.foldl event s with calls := s.calls + 1 }

/-- The function `trace_and_difftest`, after call `i` of `exec_once`. -/
def traceAndDifftest (i : ℕ) : Simulator :=
  if (p.call i).mismatch then { s with state := .abort } else s

/-- The body of the loop of `execute`. -/
def executeStep : Simulator :=
  let i := s.calls
  let s := s.execOnce p
  let s := if i = 0 then s else s.traceAndDifftest p i
  if s.state = .running ∧ p.checkWp i = true then { s with state := .stop } else s

/-- The function `execute`. -/
def execute : ℕ → Simulator → Simulator
  | 0, s => s
  | n + 1, s =>
    let s := s.executeStep p
    if s.state ≠ .running then s else execute n s

/-- The function `cpu_exec`. -/
def cpuExec (n : ℕ) : Simulator :=
  if s.state = .ended ∨ s.state = .abort ∨ s.state = .quit then s
  else
    let s := execute p n { s with state := .running }
    if s.state = .running then { s with state := .stop } else s

/-! ## Commands -/

/-- The function `cmd_c`: `cpu_exec(-1)`. -/
def cmdC : Simulator := s.cpuExec p (2 ^ 64 - 1)

/-- The function `cmd_si`. -/
def cmdSi (args : Option (List Char)) : Simulator :=
  match args with
  | none => s.cpuExec p 1
  | some args =>
    match safeAtoi args with
    | none => s
    | some n => s.cpuExec p n.toNat

/-- The function `cmd_q`. -/
def cmdQ : Simulator := if s.state ≠ .abort then { s with state := .quit } else s

/-- A command: whether its handler returns a negative number, and the variables after it. The
commands `help`, `info`, `x`, `p`, `w`, and `d` do not write them. -/
def command (cmd : List Char) (args : Option (List Char)) : Bool × Simulator :=
  if cmd = "c".toList then (false, s.cmdC p)
  else if cmd = "q".toList then (true, s.cmdQ)
  else if cmd = "si".toList then (false, s.cmdSi p args)
  else (false, s)

/-- The loop of `sdb_mainloop` over the lines of the user. -/
def sdbLoop : List (List Char) → Simulator → Simulator
  | [], s => s
  | line :: lines, s =>
    match splitLine line with
    | none => sdbLoop lines s
    | some (cmd, args) =>
      let r := s.command p cmd args
      if r.1 then r.2 else sdbLoop lines r.2

/-- The variables after `initialize`. -/
def init : Simulator := ⟨.running, 0#32, 0⟩

end Simulator

/-- How the simulator is used: with the option `--batch`, in which nobody sets a watchpoint, or with
the lines that the user enters until the end of the input. -/
inductive Session where
  | batch
  | interactive (lines : List (List Char))

/-- The variables after `sdb_mainloop`. -/
def Session.sdbMainloop (p : Program) : Session → Simulator
  | .batch => Simulator.init.cmdC { p with checkWp := fun _ => false }
  | .interactive lines => Simulator.sdbLoop p lines Simulator.init

/-- What `main` returns. -/
def Session.main (p : Program) (u : Session) : ℕ :=
  if (u.sdbMainloop p).state = .abort then 1 else 0

/-! ## What happens in a session -/

/-- How the execution of a program ends. -/
inductive Verdict where
  | aborted
  | trap (code : Word)
  deriving DecidableEq

/-- The end that an event is. -/
def Event.verdict : Event → Verdict
  | .outOfBound => .aborted
  | .ebreak a0 => .trap a0

namespace Program

variable (p : Program)

/-- The ends of the execution in call `i` of `exec_once` and the check after it, in order. The
registers are not compared after the first call. -/
def verdicts (i : ℕ) : List Verdict :=
  (p.call i).events.map Event.verdict ++
    if i ≠ 0 ∧ (p.call i).mismatch = true then [.aborted] else []

/-- The ends of the execution in the first `n` calls. -/
def history (n : ℕ) : List Verdict := (List.range n).flatMap p.verdicts

/-- How far `n` calls come from call `i` on: to an end or to a watchpoint that has changed. -/
def advance : ℕ → ℕ → ℕ
  | 0, i => i
  | n + 1, i => if p.verdicts i ≠ [] ∨ p.checkWp i = true then i + 1 else advance n (i + 1)

end Program

/-- The number of calls that a command asks for. -/
def requested (cmd : List Char) (args : Option (List Char)) : ℕ :=
  if cmd = "c".toList then 2 ^ 64 - 1
  else if cmd = "si".toList then
    match args with
    | none => 1
    | some args => ((safeAtoi args).map BitVec.toNat).getD 0
  else 0

/-- The number of calls after the lines of the user, if `i` have been made before them: nothing is
executed after an end. -/
def Program.callsOf (p : Program) : List (List Char) → ℕ → ℕ
  | [], i => i
  | line :: lines, i =>
    match splitLine line with
    | none => callsOf p lines i
    | some (cmd, args) =>
      if cmd = "q".toList then i
      else callsOf p lines (if p.history i = [] then p.advance (requested cmd args) i else i)

/-- The ends of the execution in a session. -/
def Session.history (p : Program) : Session → List Verdict
  | .batch => p.history (({ p with checkWp := fun _ => false } : Program).advance (2 ^ 64 - 1) 0)
  | .interactive lines => p.history (p.callsOf lines 0)

/-- The code that the simulator reports for a trap, that of the last one. -/
def haltRet : List Verdict → Option Word
  | [] => none
  | .aborted :: h => haltRet h
  | .trap code :: h => (haltRet h).or (some code)

/-- The execution was aborted. -/
def Aborted (h : List Verdict) : Prop := Verdict.aborted ∈ h

/-- `HIT BAD TRAP`. -/
def BadTrap (h : List Verdict) : Prop := ∃ code, haltRet h = some code ∧ code ≠ 0#32

/-- `HIT GOOD TRAP`. -/
def GoodTrap (h : List Verdict) : Prop := haltRet h = some 0#32

/-- The status tells how the execution ended: it is not zero after a bad trap or an abort, and zero
only after a good trap or if the user leaves before any end. -/
def Session.Truthful (p : Program) (u : Session) : Prop :=
  (BadTrap (u.history p) ∨ Aborted (u.history p) → u.main p ≠ 0) ∧
    (u.main p = 0 → GoodTrap (u.history p) ∨ (u.history p = [] ∧ u ≠ .batch))

/-! ## The state follows the execution -/

/-- The value of `state` that an end leaves. -/
def Verdict.state : Verdict → CpuState
  | .aborted => .abort
  | .trap _ => .ended

/-- The value of `state` after some ends, of which the last one counts. -/
def lastState (st : CpuState) (h : List Verdict) : CpuState := h.foldl (fun _ v => v.state) st

theorem lastState_append (st : CpuState) (h h' : List Verdict) :
    lastState st (h ++ h') = lastState (lastState st h) h' := List.foldl_append

theorem lastState_concat (st : CpuState) (h : List Verdict) (v : Verdict) :
    lastState st (h ++ [v]) = v.state := by rw [lastState_append]; rfl

/-- The state is `ABORT` if the last end is an abort. -/
theorem lastState_eq_abort (h : List Verdict) :
    lastState .running h = .abort ↔ h.getLast? = some .aborted := by
  rcases List.eq_nil_or_concat h with rfl | ⟨h, v, rfl⟩
  · simp [lastState]
  · rw [List.concat_eq_append, lastState_concat, List.getLast?_concat, Option.some_inj]
    cases v <;> simp [Verdict.state]

/-- After an end the simulator neither runs nor waits for a command to go on. -/
theorem lastState_of_ne_nil (st : CpuState) {h : List Verdict} (hne : h ≠ []) :
    lastState st h = lastState .running h ∧
      (lastState st h = .ended ∨ lastState st h = .abort) := by
  rcases List.eq_nil_or_concat h with rfl | ⟨h, v, rfl⟩
  · exact absurd rfl hne
  · rw [List.concat_eq_append, lastState_concat, lastState_concat]
    refine ⟨rfl, ?_⟩
    cases v
    · exact Or.inr rfl
    · exact Or.inl rfl

namespace Program

variable (p : Program)

theorem history_succ (n : ℕ) : p.history (n + 1) = p.history n ++ p.verdicts n := by
  rw [history, List.range_succ, List.flatMap_append, history]
  simp

end Program

namespace Simulator

variable (p : Program) (s : Simulator)

theorem event_state (e : Event) : (s.event e).state = e.verdict.state := by
  cases e <;> rfl

theorem events_state (es : List Event) (s : Simulator) :
    (es.foldl event s).state = lastState s.state (es.map Event.verdict) := by
  induction es generalizing s with
  | nil => rfl
  | cons e es ih =>
    rw [List.foldl_cons, ih, event_state]
    rfl

/-- A call of `exec_once` and the check after it leave the state of the last end in it, and then a
watchpoint can stop the execution. -/
theorem executeStep_eq :
    (s.executeStep p).calls = s.calls + 1 ∧
      (s.executeStep p).state =
        if lastState s.state (p.verdicts s.calls) = .running ∧ p.checkWp s.calls = true then .stop
        else lastState s.state (p.verdicts s.calls) := by
  -- The state and the number of calls before the watchpoints are checked.
  have hcheck : ∀ t : Simulator, t.calls = s.calls + 1 →
      t.state = lastState s.state (p.verdicts s.calls) →
      let u := if t.state = .running ∧ p.checkWp s.calls = true then { t with state := .stop } else t
      u.calls = s.calls + 1 ∧ u.state =
        if lastState s.state (p.verdicts s.calls) = .running ∧ p.checkWp s.calls = true then .stop
        else lastState s.state (p.verdicts s.calls) := by
    intro t hc hs
    rw [← hs]
    split_ifs
    · exact ⟨hc, rfl⟩
    · exact ⟨hc, rfl⟩
  apply hcheck
  · unfold traceAndDifftest
    split_ifs <;> rfl
  · have he : (s.execOnce p).state = _ := events_state (p.call s.calls).events s
    unfold Program.verdicts traceAndDifftest
    rw [lastState_append, ← he]
    by_cases h0 : s.calls = 0
    · simp [h0, lastState]
    · by_cases hm : (p.call s.calls).mismatch = true
      · simp [h0, hm, lastState, Verdict.state]
      · simp [h0, hm, lastState]

/-- The state says how the execution has ended, or that it has not. -/
def Tracks : Prop :=
  (p.history s.calls = [] ∧ (s.state = .running ∨ s.state = .stop)) ∨
    (p.history s.calls ≠ [] ∧ s.state = lastState .running (p.history s.calls))

/-- From a running state `execute` goes as far as `advance` does. -/
theorem execute_tracks (n : ℕ) (s : Simulator) (hs : s.state = .running)
    (hh : p.history s.calls = []) :
    (execute p n s).calls = p.advance n s.calls ∧ (execute p n s).Tracks p := by
  induction n generalizing s with
  | zero => exact ⟨rfl, Or.inl ⟨hh, Or.inl hs⟩⟩
  | succ n ih =>
    obtain ⟨hcalls, hstate⟩ := executeStep_eq p s
    have hhist : p.history (s.calls + 1) = p.verdicts s.calls := by
      rw [p.history_succ, hh, List.nil_append]
    rw [hs] at hstate
    rw [execute, Program.advance]
    by_cases hv : p.verdicts s.calls = []
    · rw [hv] at hstate hhist
      rcases Bool.eq_false_or_eq_true (p.checkWp s.calls) with hw | hw
      · -- A watchpoint stops the execution.
        have hst : (s.executeStep p).state = .stop := by simpa [lastState, hw] using hstate
        simp only [hst, hw, ne_eq, reduceCtorEq, not_false_eq_true, or_true, if_true]
        refine ⟨hcalls, Or.inl ⟨?_, Or.inr hst⟩⟩
        rw [hcalls, hhist]
      · -- Nothing happens, and the loop goes on.
        have hst : (s.executeStep p).state = .running := by simpa [lastState, hw] using hstate
        have hgo := ih (s.executeStep p) hst (by rw [hcalls, hhist])
        rw [hcalls] at hgo
        simpa [hst, hw, hv] using hgo
    · -- The execution ends in this call.
      obtain ⟨-, hend⟩ := lastState_of_ne_nil .running hv
      have hnr : lastState .running (p.verdicts s.calls) ≠ .running := by
        rcases hend with h | h <;> rw [h] <;> decide
      rw [if_neg fun h => hnr h.1] at hstate
      rw [if_pos (by rw [hstate]; exact hnr), if_pos (Or.inl hv)]
      refine ⟨hcalls, Or.inr ⟨?_, ?_⟩⟩
      · rw [hcalls, hhist]
        exact hv
      · rw [hcalls, hhist, hstate]

/-- `cpu_exec` executes nothing after an end. -/
theorem cpuExec_tracks (n : ℕ) (h : s.Tracks p) :
    (s.cpuExec p n).calls =
        (if p.history s.calls = [] then p.advance n s.calls else s.calls) ∧
      (s.cpuExec p n).Tracks p := by
  unfold cpuExec
  rcases h with ⟨hh, hs⟩ | ⟨hh, hs⟩
  · have hgo : ¬ (s.state = .ended ∨ s.state = .abort ∨ s.state = .quit) := by
      rcases hs with hs | hs <;> rw [hs] <;> decide
    -- `cpu_exec` puts the state on `RUNNING`.
    obtain ⟨hc, ht⟩ := execute_tracks p n { s with state := .running } rfl hh
    rw [if_neg hgo, if_pos hh]
    -- If it still is, all `n` instructions have been executed, and it becomes `STOP`.
    by_cases hr : (execute p n { s with state := .running }).state = .running
    · simp only [hr, if_true]
      refine ⟨hc, ?_⟩
      rcases ht with ⟨hh', -⟩ | ⟨hh', hs'⟩
      · exact Or.inl ⟨hh', Or.inr rfl⟩
      · obtain ⟨-, hend⟩ := lastState_of_ne_nil .running hh'
        rw [← hs', hr] at hend
        exact absurd hend (by decide)
    · simp only [hr, if_false]
      exact ⟨hc, ht⟩
  · -- The program has ended before.
    obtain ⟨-, hend⟩ := lastState_of_ne_nil .running hh
    rw [← hs] at hend
    rw [if_pos (hend.imp_right Or.inl), if_neg hh]
    exact ⟨rfl, Or.inr ⟨hh, hs⟩⟩

/-- The commands other than `q`. -/
theorem command_tracks (cmd : List Char) (args : Option (List Char)) (h : s.Tracks p)
    (hq : cmd ≠ "q".toList) :
    (s.command p cmd args).1 = false ∧
      (s.command p cmd args).2.calls =
        (if p.history s.calls = [] then p.advance (requested cmd args) s.calls else s.calls) ∧
      (s.command p cmd args).2.Tracks p := by
  have hnone : s.calls = if p.history s.calls = [] then p.advance 0 s.calls else s.calls := by
    rw [Program.advance, ite_self]
  unfold command requested
  by_cases hc : cmd = "c".toList
  · simp only [if_pos hc]
    exact ⟨trivial, s.cpuExec_tracks p _ h⟩
  · simp only [if_neg hc, if_neg hq]
    by_cases hsi : cmd = "si".toList
    · simp only [if_pos hsi, cmdSi]
      refine ⟨trivial, ?_⟩
      -- Without an argument one instruction is executed, and none if `safe_atoi` fails.
      rcases args with - | args
      · exact s.cpuExec_tracks p 1 h
      · rcases hn : safeAtoi args with - | n
        · simp only [hn]
          exact ⟨hnone, h⟩
        · simp only [hn]
          exact s.cpuExec_tracks p n.toNat h
    · simp only [if_neg hsi]
      exact ⟨trivial, hnone, h⟩

/-- The state is `ABORT` if the last end was an abort. -/
theorem Tracks.abort_iff {p : Program} {s : Simulator} (h : s.Tracks p) :
    s.state = .abort ↔ (p.history s.calls).getLast? = some .aborted := by
  rw [← lastState_eq_abort]
  rcases h with ⟨hh, hs⟩ | ⟨-, hs⟩
  · rw [hh]
    rcases hs with hs | hs <;> simp [hs, lastState]
  · rw [hs]

/-- The same after the lines of the user. -/
theorem sdbLoop_state (lines : List (List Char)) (s : Simulator) (h : s.Tracks p) :
    (sdbLoop p lines s).state = .abort ↔
      (p.history (p.callsOf lines s.calls)).getLast? = some .aborted := by
  induction lines generalizing s with
  | nil => exact h.abort_iff
  | cons line lines ih =>
    rw [sdbLoop, Program.callsOf]
    rcases hl : splitLine line with - | ⟨cmd, args⟩
    · exact ih s h
    · by_cases hq : cmd = "q".toList
      · -- `cmd_q` keeps an abort, and writes no other.
        subst hq
        show (s.cmdQ).state = .abort ↔ _
        simp only [if_true]
        rw [← h.abort_iff, cmdQ]
        split_ifs with ha
        · simp [ha]
        · rfl
      · obtain ⟨hr, hcalls, ht⟩ := s.command_tracks p cmd args h hq
        simp only [hr, if_neg hq, Bool.false_eq_true, if_false]
        rw [ih _ ht, hcalls]

theorem init_tracks : init.Tracks p := Or.inl ⟨rfl, Or.inl rfl⟩

end Simulator

/-- `main` returns 1 if the last end of the execution was an abort. -/
theorem Session.main_eq (p : Program) (u : Session) :
    u.main p = if (u.history p).getLast? = some .aborted then 1 else 0 := by
  have hstate : (u.sdbMainloop p).state = .abort ↔ (u.history p).getLast? = some .aborted := by
    rcases u with - | lines
    · obtain ⟨hcalls, ht⟩ := Simulator.init.cpuExec_tracks { p with checkWp := fun _ => false }
        (2 ^ 64 - 1) (Simulator.init_tracks _)
      rw [Session.sdbMainloop, Simulator.cmdC, ht.abort_iff, hcalls,
        if_pos (show Program.history _ Simulator.init.calls = [] from rfl)]
      rfl
    · exact Simulator.sdbLoop_state p lines Simulator.init (Simulator.init_tracks p)
  unfold Session.main
  simp only [hstate]

/-! ## The law -/

/-- Without an abort, every end is a trap. -/
theorem haltRet_isSome {h : List Verdict} (ha : ¬ Aborted h) (hne : h ≠ []) :
    ∃ code, haltRet h = some code := by
  rcases h with - | ⟨v, h⟩
  · exact absurd rfl hne
  · rcases v with - | code
    · exact absurd (List.mem_cons_self ..) ha
    · rcases hr : haltRet h with - | code'
      · exact ⟨code, by rw [haltRet, hr]; rfl⟩
      · exact ⟨code', by rw [haltRet, hr]; rfl⟩

/-- For every run of the program and every session: the exit status tells how the execution ended
if and only if the last end is an abort, or there is no abort and no bad trap, and with `--batch`
there is an end. -/
theorem Session.truthful_iff (p : Program) (u : Session) :
    u.Truthful p ↔ (u.history p).getLast? = some .aborted ∨
      (¬ Aborted (u.history p) ∧ ¬ BadTrap (u.history p) ∧ (u = .batch → u.history p ≠ [])) := by
  unfold Session.Truthful
  rw [u.main_eq p]
  by_cases hl : (u.history p).getLast? = some .aborted
  · simp [hl]
  · -- `main` returns 0.
    simp only [hl, if_false, false_or, ne_eq, not_true_eq_false, imp_false, true_implies]
    generalize u.history p = h
    constructor
    · -- An abort or a bad trap would have to show, and with `--batch` the user cannot quit.
      rintro ⟨hbad, hgood⟩
      refine ⟨fun ha => hbad (Or.inr ha), fun hb => hbad (Or.inl hb), ?_⟩
      rintro rfl rfl
      rcases hgood with hg | ⟨-, hu⟩
      · exact absurd hg (by simp [GoodTrap, haltRet])
      · exact hu rfl
    · rintro ⟨ha, hb, hbatch⟩
      refine ⟨fun h => h.elim hb ha, ?_⟩
      by_cases hne : h = []
      · exact Or.inr ⟨hne, fun hu => hbatch hu hne⟩
      · -- Without an abort there is a code, and no bad trap means that it is 0.
        obtain ⟨code, hcode⟩ := haltRet_isSome ha hne
        refine Or.inl ?_
        by_cases hz : code = 0#32
        · rw [GoodTrap, hcode, hz]
        · exact absurd ⟨code, hcode, hz⟩ hb

/-- The program `li a0, 1; ebreak`: two instructions are executed, and the `ebreak` in W calls
`ebreak` at the next edge. -/
def badTrapProgram : Program where
  call i := if i = 2 then ⟨[.ebreak 1#32], false⟩ else ⟨[], false⟩
  checkWp _ := false

/-- At least three calls come to the `ebreak`. -/
theorem badTrapProgram_advance (n : ℕ) : badTrapProgram.advance (n + 1 + 1 + 1) 0 = 3 := by
  unfold Program.advance
  rw [if_neg (by decide), Program.advance, if_neg (by decide), Program.advance, if_pos (by decide)]

/-- The program hits a bad trap with `--batch`, and `main` returns 0. -/
theorem badTrapProgram_untruthful : ¬ Session.batch.Truthful badTrapProgram := by
  intro h
  have hn : 2 ^ 64 - 1 = (2 ^ 64 - 4) + 1 + 1 + 1 := by decide
  have hh : Session.batch.history badTrapProgram = [.trap 1#32] := by
    show badTrapProgram.history (badTrapProgram.advance (2 ^ 64 - 1) 0) = _
    rw [hn, badTrapProgram_advance]
    rfl
  have h0 : Session.batch.main badTrapProgram = 0 := by
    rw [Session.main_eq, hh]
    rfl
  exact h.1 (Or.inl (by rw [hh]; exact ⟨1#32, rfl, by decide⟩)) h0

end RV32Pipeline
