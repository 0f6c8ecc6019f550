import Mathlib.Data.List.GetD
import RV32Pipeline.Host.Ftrace
import RV32Pipeline.Lib.Buffer

/-!
# The call trace

`ftrace_decode` and `display_call_stack` keep the depth of the calls in two counters, and indent
their lines by it, in arrays of a fixed size. `ftrace_decode` writes the name of the called function
into `call_stack` if the depth is below 32, also when it is negative, and goes on by what `snprintf`
returns, which is 3 even if there was no room. The writes stay in the arrays, and the remaining size
does not underflow, as long as the depth stays in the bounds that `TraceEvent.Fits` gives for each
event.
-/

namespace RV32Pipeline

/-- The `struct func_symbol`. -/
structure FuncSymbol where
  name : List (BitVec 8)
  addr : Word
  size : Word

/-- The function `where_am_I`, for an array of 128 bytes: the name without the NUL behind it. -/
def whereAmI (funcSymtab : List FuncSymbol) (addr : Word) : List (BitVec 8) :=
  match funcSymtab.find? fun f => decide (f.addr ≤ addr) && decide (addr < f.addr + f.size) with
  | some f => f.name.take 127
  | none => bytesOf "???"

/-! ## The local arrays `indent` -/

/-- The array `indent` of `ftrace_decode` and the pointer `p_indent`, as its index. The sizes handed
to `snprintf` are kept, as integers. -/
structure Indent where
  buffer : Buffer
  pIndent : ℤ
  sizes : List ℤ

/-- The array when it has been declared. -/
def Indent.empty : Indent := { buffer := .zeros, pIndent := 0, sizes := [] }

/-- The assignment `p_indent += snprintf(p_indent, sizeof(indent) - (p_indent - indent), s)`. The
size is a `size_t`, and no more characters are stored than fit into it with a NUL; the length of the
text is returned in any case. -/
def Indent.snprintf (s : List (BitVec 8)) (t : Indent) : Indent :=
  let size : BitVec 64 := BitVec.ofInt 64 (256 - t.pIndent)
  { buffer := if size = 0#64 then t.buffer
      else t.buffer.write t.pIndent (s.take (size.toNat - 1) ++ [0#8]),
    pIndent := t.pIndent + s.length,
    sizes := t.sizes ++ [256 - t.pIndent] }

/-- The indentation by `n` levels. -/
def Indent.bars : ℕ → Indent
  | 0 => .empty
  | n + 1 => (bars n).snprintf (bytesOf "|  ")

/-- The array as it is printed, with `num_of_func_calls` as the bound of the loop. -/
def Indent.ofDepth (numOfFuncCalls : Word) : Indent :=
  (bars numOfFuncCalls.toInt.toNat).snprintf (bytesOf "+- ")

/-- The array is not written outside, and no size underflows. -/
structure Indent.Safe (t : Indent) : Prop where
  within : t.buffer.Within 256
  sizes : ∀ z ∈ t.sizes, 0 ≤ z

/-- The array `indent` of `display_call_stack` after `j` calls of `strcat`: each writes from where
the text ends, that is behind three characters for each call before. -/
def displayBars : ℕ → Buffer
  | 0 => .zeros
  | j + 1 => (displayBars j).write (3 * j) (bytesOf "|  " ++ [0#8])

/-- The array as it is printed on the level `i`. -/
def displayIndent (i : ℕ) : Buffer := (displayBars i).write (3 * i) (bytesOf "+- " ++ [0#8])

/-! ## The functions -/

/-- A line that is logged. -/
inductive TraceLine
  | call (pc : Word) (indent : Indent) (funcName : List (BitVec 8)) (dnpc depth : Word)
  | ret (pc : Word) (indent : Indent) (funcName : List (BitVec 8)) (nameMatch : Bool) (depth : Word)
  | level (indent : Buffer) (name : List (BitVec 8)) (i : ℕ)

/-- The variables `num_of_func_calls`, `stack_depth`, and `call_stack`, an array of 32 rows with 128
bytes each, and the lines logged so far. -/
structure CallTrace where
  numOfFuncCalls : Word
  stackDepth : Word
  callStack : Buffer
  lines : List TraceLine

/-- The variables at first. -/
def CallTrace.reset : CallTrace :=
  { numOfFuncCalls := 0#32, stackDepth := 0#32, callStack := .zeros, lines := [] }

/-- The string in a row of `call_stack`. -/
def CallTrace.row (s : CallTrace) (i : ℤ) : List (BitVec 8) :=
  (s.callStack.read (128 * i) 128).takeWhile fun c => c ≠ 0#8

/-- The row `stack_depth` of `call_stack` is written: `strncpy` fills it up with zeros. -/
def CallTrace.saveName (funcName : List (BitVec 8)) (s : CallTrace) : Buffer :=
  let row := 128 * s.stackDepth.toInt
  (s.callStack.write row ((funcName ++ List.replicate 127 0#8).take 127)).write (row + 127) [0#8]

/-- The function `ftrace_decode`. -/
def ftraceDecode (funcSymtab : List FuncSymbol) (a : FtraceDecode) (s : CallTrace) : CallTrace :=
  if a.rd = 1#32 then
    let funcName := whereAmI funcSymtab a.dnpc
    { numOfFuncCalls := s.numOfFuncCalls + 1#32
      stackDepth := s.stackDepth + 1#32
      callStack := if s.stackDepth.toInt < 32 then s.saveName funcName else s.callStack
      lines := s.lines ++ [.call a.pc (.ofDepth s.numOfFuncCalls) funcName a.dnpc
        (s.numOfFuncCalls + 1#32)] }
  else if a.rd = 0#32 ∧ a.rs = 1#32 then
    let numOfFuncCalls := s.numOfFuncCalls - 1#32
    let stackDepth := s.stackDepth - 1#32
    let funcName := whereAmI funcSymtab a.pc
    let nameMatch := decide (0 ≤ stackDepth.toInt) && decide (stackDepth.toInt < 32) &&
      decide (s.row stackDepth.toInt = funcName)
    { s with
      numOfFuncCalls, stackDepth
      lines := s.lines ++ [.ret a.pc (.ofDepth numOfFuncCalls) funcName nameMatch numOfFuncCalls] }
  else s

/-- The function `display_call_stack`. -/
def displayCallStack (ftraceEnable : Bool) (s : CallTrace) : CallTrace :=
  if !ftraceEnable || decide (s.stackDepth.toInt ≤ 0) then s
  else
    { s with
      lines := s.lines ++ (List.range (min s.stackDepth.toInt.toNat 32)).map fun i =>
        .level (displayIndent i) (s.row i) i }

/-- A call of `ftrace_decode`, or of `display_call_stack` with the value of `ftrace_enable`. -/
inductive TraceEvent
  | decode (a : FtraceDecode)
  | display (ftraceEnable : Bool)

/-- One event. -/
def CallTrace.step (funcSymtab : List FuncSymbol) (s : CallTrace) : TraceEvent → CallTrace
  | .decode a => ftraceDecode funcSymtab a s
  | .display ftraceEnable => displayCallStack ftraceEnable s

/-- The variables after a sequence of events. -/
def traceRun (funcSymtab : List FuncSymbol) (es : List TraceEvent) : CallTrace :=
  es.foldl (CallTrace.step funcSymtab) .reset

/-- The arrays of a line are written within their bounds. -/
def TraceLine.Safe : TraceLine → Prop
  | call _ indent _ _ _ => indent.Safe
  | ret _ indent _ _ _ => indent.Safe
  | level indent _ _ => indent.Within 64

/-- So far, all arrays have been written within their bounds, and no size has underflowed. -/
structure CallTrace.Safe (s : CallTrace) : Prop where
  callStack : s.callStack.Within (32 * 128)
  lines : ∀ l ∈ s.lines, l.Safe

/-! ## The depth -/

/-- What an event adds to the depth. -/
def TraceEvent.delta : TraceEvent → ℤ
  | .decode a => if a.rd = 1#32 then 1 else if a.rd = 0#32 ∧ a.rs = 1#32 then -1 else 0
  | .display _ => 0

/-- The calls less the returns, as an `int`. -/
def traceDepth (es : List TraceEvent) : Word := BitVec.ofInt 32 (es.map TraceEvent.delta).sum

/-- What an event needs of the depth before it: a call is at a depth of 0 to 85, a return leads to
at most 85, and the stack is displayed with at most 21 calls. -/
def TraceEvent.Fits (depth : Word) : TraceEvent → Prop
  | .decode a =>
    if a.rd = 1#32 then 0 ≤ depth.toInt ∧ depth.toInt ≤ 85
    else if a.rd = 0#32 ∧ a.rs = 1#32 then (depth - 1#32).toInt ≤ 85
    else True
  | .display ftraceEnable => ftraceEnable = true → depth.toInt ≤ 21

/-! ## What the arrays hold -/

/-- The text of one level of indentation has three characters. -/
theorem length_bar : (bytesOf "|  ").length = 3 ∧ (bytesOf "+- ").length = 3 := by decide

namespace Indent

variable {t : Indent} {s : List (BitVec 8)}

/-- A call of `snprintf` is safe exactly if the pointer is not behind the end of the array. -/
theorem safe_snprintf_iff (hp : 0 ≤ t.pIndent) :
    (t.snprintf s).Safe ↔ t.Safe ∧ t.pIndent ≤ 256 := by
  have hsize : t.pIndent ≤ 256 → ((BitVec.ofInt 64 (256 - t.pIndent)).toNat : ℤ) =
      256 - t.pIndent := by
    intro hle
    rw [BitVec.toNat_ofInt]
    omega
  constructor
  · intro h
    -- Behind the end the size would be negative.
    have hle : t.pIndent ≤ 256 := by
      have hz := h.sizes (256 - t.pIndent) (by simp [snprintf])
      omega
    refine ⟨⟨?_, fun z hz => h.sizes z (by simp [snprintf, hz])⟩, hle⟩
    have hw := h.within
    unfold snprintf at hw
    dsimp only at hw
    split_ifs at hw
    · exact hw
    · exact (Buffer.within_write_iff.mp hw).1
  · rintro ⟨ht, hle⟩
    have hn := hsize hle
    constructor
    · unfold snprintf
      dsimp only
      split_ifs with h0
      · exact ht.within
      · refine Buffer.within_write_iff.mpr ⟨ht.within, fun k hk => ?_⟩
        have hpos : (BitVec.ofInt 64 (256 - t.pIndent)).toNat ≠ 0 := fun h =>
          h0 (BitVec.eq_of_toNat_eq h)
        rw [List.length_append, List.length_take, List.length_singleton] at hk
        omega
    · intro z hz
      unfold snprintf at hz
      dsimp only at hz
      rcases List.mem_append.mp hz with hz | hz
      · exact ht.sizes z hz
      · rw [List.mem_singleton.mp hz]
        omega

/-- The pointer moves by three with every level, whether there is room or not. -/
theorem pIndent_bars (n : ℕ) : (bars n).pIndent = 3 * n := by
  induction n with
  | zero => rfl
  | succ n ih =>
    rw [bars, snprintf, length_bar.1]
    dsimp only
    rw [ih]
    omega

/-- The indentation by `n` levels is safe exactly if each of its calls starts in the array or at its
end. -/
theorem safe_bars_iff (n : ℕ) : (bars n).Safe ↔ ∀ j < n, j ≤ 85 := by
  induction n with
  | zero =>
    refine ⟨fun _ j hj => absurd hj (by omega), fun _ => ⟨Buffer.within_zeros, ?_⟩⟩
    exact fun z hz => absurd hz (List.not_mem_nil (a := z))
  | succ n ih =>
    have hp := pIndent_bars n
    rw [bars, safe_snprintf_iff (by omega), ih, hp]
    constructor
    · rintro ⟨h, hle⟩ j hj
      rcases Nat.lt_succ_iff_lt_or_eq.mp hj with hj | rfl
      · exact h j hj
      · omega
    · intro h
      have hn := h n (by omega)
      exact ⟨fun j hj => h j (by omega), by omega⟩

/-- The indentation is safe exactly up to a depth of 85. -/
theorem safe_ofDepth_iff (depth : Word) : (ofDepth depth).Safe ↔ depth.toInt ≤ 85 := by
  have hp := pIndent_bars depth.toInt.toNat
  rw [ofDepth, safe_snprintf_iff (by omega), safe_bars_iff, hp]
  constructor
  · rintro ⟨-, hle⟩
    omega
  · intro h
    exact ⟨fun j hj => by omega, by omega⟩

end Indent

/-- The writes of `display_call_stack` for a level end behind the text and its NUL. -/
theorem within_displayIndent_iff (i : ℕ) : (displayIndent i).Within 64 ↔ i ≤ 20 := by
  have hlen : (bytesOf "|  " ++ [0#8]).length = 4 ∧ (bytesOf "+- " ++ [0#8]).length = 4 := by
    decide
  have hbars : ∀ j : ℕ, j ≤ 20 → (displayBars j).Within 64 := by
    intro j
    induction j with
    | zero => exact fun _ => Buffer.within_zeros
    | succ j ih =>
      intro hj
      refine Buffer.within_write_iff.mpr ⟨ih (by omega), fun k hk => ?_⟩
      rw [hlen.1] at hk
      omega
  constructor
  · intro h
    have hlast := (Buffer.within_write_iff.mp h).2 3 (by rw [hlen.2]; omega)
    omega
  · intro h
    refine Buffer.within_write_iff.mpr ⟨hbars i h, fun k hk => ?_⟩
    rw [hlen.2] at hk
    omega

/-- The row that is written for a call is one of `call_stack` exactly if the depth is not
negative. -/
theorem within_saveName_iff {s : CallTrace} (funcName : List (BitVec 8))
    (hd : s.stackDepth.toInt < 32) : (s.saveName funcName).Within (32 * 128) ↔
      s.callStack.Within (32 * 128) ∧ 0 ≤ s.stackDepth.toInt := by
  have hlen : ((funcName ++ List.replicate 127 0#8).take 127).length = 127 := by
    rw [List.length_take, List.length_append, List.length_replicate]
    omega
  rw [CallTrace.saveName, Buffer.within_write_iff, Buffer.within_write_iff, hlen, and_assoc,
    List.length_singleton]
  refine and_congr_right fun _ => ?_
  constructor
  · rintro ⟨hrow, -⟩
    have h0 := hrow 0 (by omega)
    omega
  · intro h
    exact ⟨fun k hk => by omega, fun k hk => by omega⟩

/-! ## Steps and runs -/

/-- A line is added to the lines logged. -/
theorem forall_line_append_iff {ls : List TraceLine} {l : TraceLine} :
    (∀ l' ∈ ls ++ [l], l'.Safe) ↔ (∀ l' ∈ ls, l'.Safe) ∧ l.Safe := by
  rw [List.forall_mem_append, List.forall_mem_singleton]

/-- The lines of `display_call_stack` are safe exactly up to a depth of 21. -/
theorem displayCallStack_safe_iff {s : CallTrace} (ftraceEnable : Bool) :
    (displayCallStack ftraceEnable s).Safe ↔
      s.Safe ∧ (ftraceEnable = true → s.stackDepth.toInt ≤ 21) := by
  unfold displayCallStack
  split_ifs with hret
  · refine ⟨fun h => ⟨h, fun hen => ?_⟩, fun h => h.1⟩
    rw [hen, Bool.not_true, Bool.false_or, decide_eq_true_eq] at hret
    omega
  · rw [Bool.or_eq_true, not_or, Bool.not_eq_true', decide_eq_true_eq] at hret
    obtain ⟨hen, hpos⟩ := hret
    constructor
    · rintro ⟨hstack, hlines⟩
      refine ⟨⟨hstack, fun l hl => hlines l (List.mem_append_left _ hl)⟩, fun _ => ?_⟩
      by_contra hdeep
      -- The loop would come to the level 21, which does not fit.
      have hlevel := hlines (.level (displayIndent 21) (s.row (21 : ℕ)) 21)
        (List.mem_append_right _ (List.mem_map.mpr ⟨21, List.mem_range.mpr (by omega), rfl⟩))
      have hle := (within_displayIndent_iff 21).mp hlevel
      omega
    · rintro ⟨h, hdepth⟩
      have hle := hdepth (by simpa using hen)
      refine ⟨h.callStack, fun l hl => ?_⟩
      rcases List.mem_append.mp hl with hl | hl
      · exact h.lines l hl
      · obtain ⟨i, hi, rfl⟩ := List.mem_map.mp hl
        rw [List.mem_range] at hi
        exact (within_displayIndent_iff i).mpr (by omega)

/-- A call is safe exactly at a depth from 0 to 85. -/
theorem ftraceDecode_call_safe_iff (funcSymtab : List FuncSymbol) {a : FtraceDecode} {s : CallTrace}
    (hs : s.numOfFuncCalls = s.stackDepth) (hcall : a.rd = 1#32) :
    (ftraceDecode funcSymtab a s).Safe ↔
      s.Safe ∧ 0 ≤ s.stackDepth.toInt ∧ s.stackDepth.toInt ≤ 85 := by
  rw [ftraceDecode, if_pos hcall]
  constructor
  · rintro ⟨hstack, hlines⟩
    obtain ⟨hold, hnew⟩ := forall_line_append_iff.mp hlines
    have hdeep := (Indent.safe_ofDepth_iff _).mp hnew
    rw [hs] at hdeep
    dsimp only at hstack
    -- The test of the depth against 32 lets negative ones pass.
    split_ifs at hstack with h32
    · obtain ⟨hstack, hneg⟩ := (within_saveName_iff _ h32).mp hstack
      exact ⟨⟨hstack, hold⟩, hneg, hdeep⟩
    · exact ⟨⟨hstack, hold⟩, by omega, hdeep⟩
  · rintro ⟨h, hneg, hdeep⟩
    constructor
    · dsimp only
      split_ifs with h32
      · exact (within_saveName_iff _ h32).mpr ⟨h.callStack, hneg⟩
      · exact h.callStack
    · refine forall_line_append_iff.mpr ⟨h.lines, (Indent.safe_ofDepth_iff _).mpr ?_⟩
      rw [hs]
      exact hdeep

/-- A return is safe exactly if it leads to a depth of at most 85, also if that is negative. -/
theorem ftraceDecode_ret_safe_iff (funcSymtab : List FuncSymbol) {a : FtraceDecode} {s : CallTrace}
    (hs : s.numOfFuncCalls = s.stackDepth) (hcall : a.rd ≠ 1#32)
    (hret : a.rd = 0#32 ∧ a.rs = 1#32) :
    (ftraceDecode funcSymtab a s).Safe ↔ s.Safe ∧ (s.stackDepth - 1#32).toInt ≤ 85 := by
  rw [ftraceDecode, if_neg hcall, if_pos hret, ← hs]
  constructor
  · rintro ⟨hstack, hlines⟩
    obtain ⟨hold, hnew⟩ := forall_line_append_iff.mp hlines
    exact ⟨⟨hstack, hold⟩, (Indent.safe_ofDepth_iff _).mp hnew⟩
  · rintro ⟨h, hdeep⟩
    exact ⟨h.callStack,
      forall_line_append_iff.mpr ⟨h.lines, (Indent.safe_ofDepth_iff _).mpr hdeep⟩⟩

/-- An event is safe exactly if the depth is in its bounds. -/
theorem step_safe_iff (funcSymtab : List FuncSymbol) {s : CallTrace} (e : TraceEvent)
    (hs : s.numOfFuncCalls = s.stackDepth) :
    (s.step funcSymtab e).Safe ↔ s.Safe ∧ e.Fits s.stackDepth := by
  cases e with
  | display ftraceEnable => exact displayCallStack_safe_iff ftraceEnable
  | decode a =>
    rw [CallTrace.step, TraceEvent.Fits]
    by_cases hcall : a.rd = 1#32
    · rw [if_pos hcall]
      exact ftraceDecode_call_safe_iff funcSymtab hs hcall
    · by_cases hret : a.rd = 0#32 ∧ a.rs = 1#32
      · rw [if_neg hcall, if_pos hret]
        exact ftraceDecode_ret_safe_iff funcSymtab hs hcall hret
      · rw [if_neg hcall, if_neg hret, ftraceDecode, if_neg hcall, if_neg hret]
        exact (and_iff_left trivial).symm

/-- One more event. -/
theorem traceRun_append (funcSymtab : List FuncSymbol) (es : List TraceEvent) (e : TraceEvent) :
    traceRun funcSymtab (es ++ [e]) = (traceRun funcSymtab es).step funcSymtab e := by
  rw [traceRun, List.foldl_append]
  rfl

theorem traceDepth_append (es : List TraceEvent) (e : TraceEvent) :
    traceDepth (es ++ [e]) = traceDepth es + BitVec.ofInt 32 e.delta := by
  rw [traceDepth, traceDepth, List.map_append, List.sum_append, BitVec.ofInt_add]
  simp

/-- An event changes both counters by what it adds to the depth. -/
theorem step_counters (funcSymtab : List FuncSymbol) (s : CallTrace) (e : TraceEvent) :
    (s.step funcSymtab e).numOfFuncCalls = s.numOfFuncCalls + BitVec.ofInt 32 e.delta ∧
      (s.step funcSymtab e).stackDepth = s.stackDepth + BitVec.ofInt 32 e.delta := by
  have h0 : BitVec.ofInt 32 0 = 0#32 := rfl
  cases e with
  | display ftraceEnable =>
    rw [CallTrace.step, displayCallStack, TraceEvent.delta, h0]
    split_ifs
    · exact ⟨(BitVec.add_zero _).symm, (BitVec.add_zero _).symm⟩
    · exact ⟨(BitVec.add_zero _).symm, (BitVec.add_zero _).symm⟩
  | decode a =>
    rw [CallTrace.step, ftraceDecode, TraceEvent.delta]
    by_cases hcall : a.rd = 1#32
    · rw [if_pos hcall, if_pos hcall]
      exact ⟨rfl, rfl⟩
    · by_cases hret : a.rd = 0#32 ∧ a.rs = 1#32
      · rw [if_neg hcall, if_neg hcall, if_pos hret, if_pos hret]
        exact ⟨BitVec.sub_eq_add_neg .., BitVec.sub_eq_add_neg ..⟩
      · rw [if_neg hcall, if_neg hcall, if_neg hret, if_neg hret, h0]
        exact ⟨(BitVec.add_zero _).symm, (BitVec.add_zero _).symm⟩

/-- Both counters are the depth. -/
theorem traceRun_counters (funcSymtab : List FuncSymbol) (es : List TraceEvent) :
    (traceRun funcSymtab es).numOfFuncCalls = traceDepth es ∧
      (traceRun funcSymtab es).stackDepth = traceDepth es := by
  induction es using List.reverseRecOn with
  | nil => exact ⟨rfl, rfl⟩
  | append_singleton es e ih =>
    obtain ⟨hnum, hdepth⟩ := step_counters funcSymtab (traceRun funcSymtab es) e
    rw [traceRun_append, traceDepth_append, hnum, hdepth, ih.1, ih.2]
    exact ⟨rfl, rfl⟩

/-- The arrays are written within their bounds, and no size underflows, exactly if at every event
the depth is in its bounds. -/
theorem trace_safe_iff (funcSymtab : List FuncSymbol) (es : List TraceEvent) :
    (traceRun funcSymtab es).Safe ↔
      ∀ before e, before ++ [e] <+: es → e.Fits (traceDepth before) := by
  induction es using List.reverseRecOn with
  | nil =>
    constructor
    · exact fun _ before e hp => absurd (List.prefix_nil.mp hp) (by simp)
    · exact fun _ => ⟨Buffer.within_zeros, fun l hl => absurd hl (List.not_mem_nil (a := l))⟩
  | append_singleton es e ih =>
    obtain ⟨hnum, hdepth⟩ := traceRun_counters funcSymtab es
    rw [traceRun_append, step_safe_iff funcSymtab e (hnum.trans hdepth.symm), ih, hdepth]
    constructor
    · rintro ⟨hes, he⟩ before e' hp
      rcases List.prefix_concat_iff.mp hp with heq | hp
      · obtain ⟨hbefore, he'⟩ := List.append_inj' heq rfl
        rw [hbefore, List.singleton_inj.mp he']
        exact he
      · exact hes before e' hp
    · intro h
      exact ⟨fun before e' hp => h before e' (hp.trans (List.prefix_append _ _)),
        h es e (List.prefix_refl _)⟩

/-- A return before the first call, and then a call: it is at depth -1, and its name is written
before the first row of `call_stack`. -/
theorem not_trace_safe : ¬ (traceRun []
    [.decode ⟨0#32, 1#32, 0x80000004#32, 0x80000000#32⟩,
      .decode ⟨1#32, 0#32, 0x80000000#32, 0x80000010#32⟩]).Safe := by
  intro h
  have hfits := (step_safe_iff [] (s := traceRun []
    [.decode ⟨0#32, 1#32, 0x80000004#32, 0x80000000#32⟩])
    (.decode ⟨1#32, 0#32, 0x80000000#32, 0x80000010#32⟩) rfl).mp h
  exact absurd hfits.2.1 (by decide)

end RV32Pipeline
