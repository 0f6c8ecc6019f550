import RV32Pipeline.Host.Memory

/-!
# The uptime

`__am_timer_uptime` of the platform jingyeda reads the microsecond counter of the simulator in two
halves, the high word first, while the counter goes on. The two words need not be of one value of
the counter: if the low word wraps around between the reads, the high word is the one from before.
Whether that is seen depends on the low words alone.
-/

namespace RV32Pipeline

namespace Am

/-- A call of `__am_timer_uptime`: the variables of the simulator, and what its devices return at
the first and at the second read. -/
structure UptimeCall where
  host : Host
  first : Devices
  second : Devices

namespace UptimeCall

variable (c : UptimeCall)

/-- The read `inl(RTC_ADDR + 4)`. -/
def inlHigh : Word × Host := c.host.pmemRead c.first (Host.rtcAddr + 4#32)

/-- The read `inl(RTC_ADDR)`. -/
def inlLow : Word × Host := c.inlHigh.2.pmemRead c.second Host.rtcAddr

/-- The field `uptime->us` before the division. -/
def us : BitVec 64 := c.inlHigh.1.setWidth 64 <<< 32 ||| c.inlLow.1.setWidth 64

/-- The function `__am_timer_uptime`. -/
def amTimerUptime : BitVec 64 := c.us / 2#64

/-- The low word of the counter is at the second read not below that of the first read. -/
def LowRises : Prop :=
  (c.first.getTime.setWidth 32 : Word) ≤ (c.second.getTime.setWidth 32 : Word)

/-- The value before the division lies between the counter at the first and at the second read. -/
def Between : Prop := c.first.getTime ≤ c.us ∧ c.us ≤ c.second.getTime

end UptimeCall

/-- Calls of `__am_timer_uptime` one after another, over a counter that never decreases. -/
structure UptimeRun where
  calls : List UptimeCall
  monotone : (calls.flatMap fun c => [c.first.getTime, c.second.getTime]).Pairwise (· ≤ ·)

/-- Every call of a run returns a time from between its reads, and no call an earlier time than the
call before. -/
structure UptimeRun.Consistent (r : UptimeRun) : Prop where
  between : ∀ c ∈ r.calls, c.Between
  nondecreasing : r.calls.IsChain fun c c' => c.amTimerUptime ≤ c'.amTimerUptime

namespace UptimeCall

variable (c : UptimeCall)

/-- The first read returns the high word of the counter. -/
theorem inlHigh_fst : c.inlHigh.1 = (c.first.getTime >>> 32).setWidth 32 := rfl

/-- The second read returns the low word of the counter. -/
theorem inlLow_fst : c.inlLow.1 = c.second.getTime.setWidth 32 := rfl

/-- The value put together from the two words. -/
theorem toNat_us :
    c.us.toNat = c.first.getTime.toNat / 2 ^ 32 * 2 ^ 32 + c.second.getTime.toNat % 2 ^ 32 := by
  have h1 := c.first.getTime.isLt
  have hhigh : c.inlHigh.1.toNat = c.first.getTime.toNat / 2 ^ 32 := by
    rw [inlHigh_fst, BitVec.toNat_setWidth, BitVec.toNat_ushiftRight, Nat.shiftRight_eq_div_pow]
    omega
  have hlow : c.inlLow.1.toNat = c.second.getTime.toNat % 2 ^ 32 := by
    rw [inlLow_fst, BitVec.toNat_setWidth]
  have hshift : (c.inlHigh.1.setWidth 64 <<< 32).toNat = c.inlHigh.1.toNat <<< 32 := by
    rw [BitVec.toNat_shiftLeft, BitVec.toNat_setWidth, hhigh, Nat.shiftLeft_eq, Nat.shiftLeft_eq]
    omega
  rw [us, BitVec.toNat_or, hshift, BitVec.toNat_setWidth, Nat.mod_eq_of_lt (by omega),
    ← Nat.shiftLeft_add_eq_or_of_lt c.inlLow.1.isLt, hlow, hhigh, Nat.shiftLeft_eq]

/-- The value lies between the reads exactly if the low word has not fallen. -/
theorem between_iff (hle : c.first.getTime ≤ c.second.getTime) : c.Between ↔ c.LowRises := by
  have hus := c.toNat_us
  rw [BitVec.le_def] at hle
  unfold Between LowRises
  rw [BitVec.le_def, BitVec.le_def, BitVec.le_def, BitVec.toNat_setWidth, BitVec.toNat_setWidth]
  omega

/-- The division keeps the order. -/
theorem amTimerUptime_le {c c' : UptimeCall} (h : c.us ≤ c'.us) :
    c.amTimerUptime ≤ c'.amTimerUptime := by
  rw [BitVec.le_def] at h ⊢
  unfold amTimerUptime
  rw [BitVec.toNat_udiv, BitVec.toNat_udiv]
  exact Nat.div_le_div_right h

end UptimeCall

/-- Calls that stay between their reads return times in order. -/
theorem nondecreasing_of_between {calls : List UptimeCall}
    (hm : (calls.flatMap fun c => [c.first.getTime, c.second.getTime]).Pairwise (· ≤ ·))
    (hb : ∀ c ∈ calls, c.Between) :
    calls.IsChain fun c c' => c.amTimerUptime ≤ c'.amTimerUptime := by
  induction calls with
  | nil => exact List.IsChain.nil
  | cons c cs ih =>
    rw [List.flatMap_cons, List.pairwise_append] at hm
    obtain ⟨-, hcs, hcross⟩ := hm
    have htail := ih hcs fun c' hc' => hb c' (List.mem_cons_of_mem _ hc')
    rcases cs with - | ⟨c', cs⟩
    · exact List.IsChain.singleton c
    · refine List.IsChain.cons_cons (UptimeCall.amTimerUptime_le ?_) htail
      calc c.us ≤ c.second.getTime := (hb c (by simp)).2
        _ ≤ c'.first.getTime := hcross _ (by simp) _ (by simp)
        _ ≤ c'.us := (hb c' (by simp)).1

/-- The two reads of a call are in order. -/
theorem UptimeRun.first_le_second (r : UptimeRun) {c : UptimeCall} (hc : c ∈ r.calls) :
    c.first.getTime ≤ c.second.getTime := by
  have h := List.pairwise_flatMap.mp r.monotone
  exact List.rel_of_pairwise_cons (h.1 c hc) (by simp)

/-- A run is consistent exactly if in no call the low word of the counter falls between the two
reads. -/
theorem uptime_consistent_iff (r : UptimeRun) :
    r.Consistent ↔ ∀ c ∈ r.calls, c.LowRises := by
  constructor
  · intro h c hc
    exact (c.between_iff (r.first_le_second hc)).mp (h.between c hc)
  · intro h
    have hb : ∀ c ∈ r.calls, c.Between := fun c hc =>
      (c.between_iff (r.first_le_second hc)).mpr (h c hc)
    exact ⟨hb, nondecreasing_of_between r.monotone hb⟩

/-- Two calls: the counter stands at `0xffffffff` in the first one, and wraps its low word between
the reads of the second one. -/
def tornRun : UptimeRun where
  calls :=
    let h : Host :=
      { pmem := fun _ => 0#8, state := .running, skipDifftest := false, simTime := 0,
        lastSimtime := 0, curTrace := false, mmioReads := [], uart := [], failed := false }
    let at' := fun t : BitVec 64 => { getchar := 0#32, getTime := t : Devices }
    [⟨h, at' 0xffffffff#64, at' 0xffffffff#64⟩, ⟨h, at' 0xffffffff#64, at' 0x100000000#64⟩]
  monotone := by decide

/-- The second call returns a time before its first read, and before the time of the first call. -/
theorem tornRun_inconsistent : ¬ tornRun.Consistent ∧
    tornRun.calls.map UptimeCall.amTimerUptime = [0x7fffffff#64, 0#64] := by
  refine ⟨fun h => ?_, by decide⟩
  have hlast := h.between _ (List.mem_cons_of_mem _ (List.mem_cons_self ..))
  unfold UptimeCall.Between at hlast
  exact absurd hlast.1 (by decide)

end Am

end RV32Pipeline
