import Mathlib.Data.Nat.Count
import RV32Pipeline.Lib.Clocked
import RV32Pipeline.Rtl.Uart

/-!
# The transmit FIFO

The bytes that `uart_tx_fifo` accepts from the CPU, takes from its FIFO, and loads into the
serializer. `fifo_cnt` counts the accepted bytes that have not been taken as long as no write falls
into the cycle of a decrement: there the decrement is lost (`fifoCnt_eq`), the count is one too high
from then on, and the read side can run ahead of the writes. Without such a cycle the serializer is
given the accepted bytes in order (`fifoIntegrity_iff`).
-/

namespace RV32Pipeline

/-! ## What the FIFO accepts, takes, and loads -/

namespace UartTxFifo

variable (i : UartTxIn) (u : UartTxFifo)

/-- The byte that is accepted from the CPU at this edge. -/
def accepts : Option (BitVec 8) := if u.cpuWriteValid i then some i.cpuWrData else none

/-- The byte that is loaded into `uart_data_reg` at this edge. -/
def loads : Option (BitVec 8) := if u.posUartEnTxd then some u.uartTxData else none

/-- A byte is accepted at an edge at which `fifo_cnt` should be decremented. -/
def collides : Bool := u.cpuWriteValid i && u.uartTxEn

end UartTxFifo

/-- The registers of `uart_tx_fifo` in each cycle from reset. -/
def uartTx (i : ℕ → UartTxIn) : ℕ → UartTxFifo := Clocked.run UartTxFifo.next UartTxFifo.reset i

section Run

variable (i : ℕ → UartTxIn)

/-- The bytes accepted before cycle `t`. -/
def accepted (t : ℕ) : List (BitVec 8) := Clocked.log (fun n => (uartTx i n).accepts (i n)) t

/-- The number of bytes taken from the FIFO before cycle `t`. -/
def taken (t : ℕ) : ℕ := Nat.count (fun n => (uartTx i n).takes = true) t

/-- The bytes loaded into `uart_data_reg` before cycle `t`. -/
def loaded (t : ℕ) : List (BitVec 8) := Clocked.log (fun n => (uartTx i n).loads) t

/-- The number of lost decrements before cycle `t`. -/
def collisions (t : ℕ) : ℕ := Nat.count (fun n => (uartTx i n).collides (i n) = true) t

/-- The FIFO is in order in cycle `t`. -/
structure FifoIntegrity (t : ℕ) : Prop where
  /-- `fifo_cnt` is the number of bytes accepted and not taken, and one more before its
  decrement. -/
  count : (uartTx i t).fifoCnt.toNat + taken i t =
    (accepted i t).length + (uartTx i t).uartTxEn.toNat
  /-- The pointers are as far apart as there are unread bytes. -/
  ptr : (((uartTx i t).fifoWrPtr - (uartTx i t).fifoRdPtr).toNat : ℤ) =
    ((accepted i t).length - taken i t : ℤ) % 16
  /-- The serializer has been given the accepted bytes in order. -/
  order : loaded i t <+: accepted i t

end Run

/-! ## The handshake with the serializer -/

/-- `uart_tx_en` is a pulse, which passes through the two registers behind it alone. -/
structure Handshake (u : UartTxFifo) : Prop where
  en : u.uartTxEn = true → u.uartTxEnD0 = false ∧ 0 < u.fifoCnt.toNat
  d0 : u.uartTxEnD0 = true → u.uartTxEn = false ∧ u.uartTxEnD1 = false
  cnt : u.fifoCnt.toNat ≤ 16

namespace Handshake

variable {u : UartTxFifo} (h : Handshake u) (i : UartTxIn)

/-- The read side takes a byte only when there are two and nothing is on its way. -/
theorem not_busy_of_takes (ht : u.takes = true) :
    u.txFlag = false ∧ u.uartTxEn = false ∧ u.uartTxEnD0 = false ∧ 1 < u.fifoCnt.toNat := by
  simp only [UartTxFifo.takes, UartTxFifo.uartTxBusy, Bool.and_eq_true, Bool.not_eq_true',
    Bool.or_eq_false_iff, decide_eq_true_eq] at ht
  obtain ⟨⟨⟨hf, he⟩, hd⟩, hc⟩ := ht
  exact ⟨hf, he, hd, by simpa [BitVec.lt_def] using hc⟩

/-- A byte is accepted only when there is room. -/
theorem lt_of_cpuWriteValid (hw : u.cpuWriteValid i = true) : u.fifoCnt.toNat < 16 := by
  simp only [UartTxFifo.cpuWriteValid, Bool.and_eq_true, decide_eq_true_eq] at hw
  simpa [BitVec.lt_def, UartTxFifo.fifoDepth] using hw.2

include h

/-- The count after an edge. -/
theorem fifoCnt_next : (u.next i).fifoCnt.toNat + (u.uartTxEn && !u.cpuWriteValid i).toNat =
    u.fifoCnt.toNat + (u.cpuWriteValid i).toNat := by
  unfold UartTxFifo.next
  rcases Bool.eq_false_or_eq_true (u.cpuWriteValid i) with hw | hw
  · have hlt := lt_of_cpuWriteValid i hw
    simp only [hw, if_true, Bool.not_true, Bool.and_false, Bool.toNat_false, Bool.toNat_true,
      BitVec.toNat_add, BitVec.toNat_ofNat]
    omega
  · rcases Bool.eq_false_or_eq_true u.uartTxEn with he | he
    · -- The decrement cannot wrap: two bytes were there when the pulse was raised.
      have hpos := (h.en he).2
      have hcnt := h.cnt
      have hp : decide (0#5 < u.fifoCnt) = true := by simpa [BitVec.lt_def] using hpos
      simp only [hw, he, hp, Bool.false_eq_true, if_false, Bool.and_self, if_true, Bool.not_false,
        Bool.toNat_true, Bool.toNat_false, BitVec.toNat_sub, BitVec.toNat_ofNat]
      omega
    · simp [hw, he]

/-- A clock edge preserves the handshake. -/
theorem next : Handshake (u.next i) where
  en ht := by
    obtain ⟨-, he, -, hc⟩ := not_busy_of_takes ht
    refine ⟨he, ?_⟩
    have hn := h.fifoCnt_next i
    rw [he, Bool.false_and, Bool.toNat_false] at hn
    omega
  d0 he := by
    have he' : u.uartTxEn = true := he
    refine ⟨?_, (h.en he').1⟩
    by_contra ht
    rw [Bool.not_eq_false] at ht
    rw [(not_busy_of_takes ht).2.1] at he'
    contradiction
  cnt := by
    have hn := h.fifoCnt_next i
    have hcnt := h.cnt
    rcases Bool.eq_false_or_eq_true (u.cpuWriteValid i) with hw | hw
    · -- A write is accepted only while there is room.
      have hlt := lt_of_cpuWriteValid i hw
      rw [hw] at hn
      simp only [Bool.not_true, Bool.and_false, Bool.toNat_false, Bool.toNat_true] at hn
      omega
    · rw [hw, Bool.toNat_false] at hn
      omega

/-- A byte is loaded two edges after it was taken. -/
theorem posUartEnTxd : u.posUartEnTxd = u.uartTxEnD0 := by
  unfold Serializer.posUartEnTxd
  rcases Bool.eq_false_or_eq_true u.uartTxEnD0 with hd | hd
  · rw [hd, (h.d0 hd).2]
    rfl
  · rw [hd]
    rfl

end Handshake

section Run

variable (i : ℕ → UartTxIn)

theorem uartTx_succ (t : ℕ) : uartTx i (t + 1) = (uartTx i t).next (i t) := rfl

/-- The handshake holds in every cycle. -/
theorem handshake (t : ℕ) : Handshake (uartTx i t) :=
  Clocked.run_invariant ⟨by decide, by decide, by decide⟩ (fun i _ h => h.next i) t

/-! ## The counters -/

theorem taken_succ (t : ℕ) : taken i (t + 1) = taken i t + (uartTx i t).takes.toNat := by
  unfold taken
  rw [Nat.count_succ]
  rcases Bool.eq_false_or_eq_true (uartTx i t).takes with h | h <;> simp [h]

theorem collisions_succ (t : ℕ) :
    collisions i (t + 1) = collisions i t + ((uartTx i t).collides (i t)).toNat := by
  unfold collisions
  rw [Nat.count_succ]
  rcases Bool.eq_false_or_eq_true ((uartTx i t).collides (i t)) with h | h <;> simp [h]

theorem accepted_succ (t : ℕ) :
    accepted i (t + 1) = accepted i t ++ ((uartTx i t).accepts (i t)).toList :=
  Clocked.log_succ _ t

theorem loaded_succ (t : ℕ) : loaded i (t + 1) = loaded i t ++ (uartTx i t).loads.toList :=
  Clocked.log_succ _ t

theorem length_accepted_succ (t : ℕ) : (accepted i (t + 1)).length =
    (accepted i t).length + ((uartTx i t).cpuWriteValid (i t)).toNat := by
  rw [accepted_succ, List.length_append, UartTxFifo.accepts]
  rcases Bool.eq_false_or_eq_true ((uartTx i t).cpuWriteValid (i t)) with h | h <;> simp [h]

/-- In every run `fifo_cnt` is too high by the number of lost decrements. -/
theorem fifoCnt_eq (t : ℕ) : (uartTx i t).fifoCnt.toNat + taken i t =
    (accepted i t).length + (uartTx i t).uartTxEn.toNat + collisions i t := by
  induction t with
  | zero => rfl
  | succ t ih =>
    have hn := (handshake i t).fifoCnt_next (i t)
    have he : (uartTx i (t + 1)).uartTxEn = (uartTx i t).takes := rfl
    rw [← uartTx_succ] at hn
    rw [taken_succ, length_accepted_succ, collisions_succ, he, UartTxFifo.collides]
    rcases Bool.eq_false_or_eq_true ((uartTx i t).cpuWriteValid (i t)) with hw | hw <;>
      rcases Bool.eq_false_or_eq_true (uartTx i t).uartTxEn with hen | hen <;>
      simp only [hw, hen, Bool.toNat_true, Bool.toNat_false, Bool.not_true, Bool.not_false,
        Bool.and_true, Bool.and_false] at hn ih ⊢ <;>
      omega

/-- In every run the pointers count the accepted and the taken bytes modulo 16. -/
theorem ptr_eq (t : ℕ) : (uartTx i t).fifoWrPtr = BitVec.ofNat 4 (accepted i t).length ∧
    (uartTx i t).fifoRdPtr = BitVec.ofNat 4 (taken i t) := by
  induction t with
  | zero => exact ⟨rfl, rfl⟩
  | succ t ih =>
    obtain ⟨hw, hr⟩ := ih
    rw [length_accepted_succ, taken_succ, uartTx_succ]
    unfold UartTxFifo.next
    simp only [hw, hr, BitVec.ofNat_add]
    constructor
    · rcases Bool.eq_false_or_eq_true ((uartTx i t).cpuWriteValid (i t)) with h | h <;> simp [h]
    · rcases Bool.eq_false_or_eq_true (uartTx i t).takes with h | h <;> simp [h]

/-! ## The bytes -/

/-- As long as no decrement is lost, the FIFO holds the accepted bytes that have not been taken, and
the serializer has been given the others except for one that is on its way. -/
structure FifoHolds (t : ℕ) : Prop where
  le : taken i t ≤ (accepted i t).length
  buffer : ∀ k, taken i t ≤ k → k < (accepted i t).length →
    (accepted i t)[k]? = some ((uartTx i t).fifoBuffer (BitVec.ofNat 4 k))
  pending : ((uartTx i t).uartTxEn || (uartTx i t).uartTxEnD0) = true →
    0 < taken i t ∧ (accepted i t)[taken i t - 1]? = some (uartTx i t).uartTxData
  loaded : loaded i t =
    (accepted i t).take (taken i t - ((uartTx i t).uartTxEn || (uartTx i t).uartTxEnD0).toNat)

variable {i} {t : ℕ}

/-- The next byte is taken from those in the FIFO. -/
theorem taken_lt (hc : collisions i t = 0) (ht : (uartTx i t).takes = true) :
    taken i t + 1 < (accepted i t).length := by
  obtain ⟨-, he, -, hlt⟩ := Handshake.not_busy_of_takes ht
  have hcnt := fifoCnt_eq i t
  rw [hc, he, Bool.toNat_false] at hcnt
  omega

namespace FifoHolds

variable (h : FifoHolds i t) (hc : collisions i t = 0)
include h hc

/-- The buffer after an edge: a new byte goes to a free place. -/
theorem buffer_succ (k : ℕ) (hk : taken i (t + 1) ≤ k) (hlt : k < (accepted i (t + 1)).length) :
    (accepted i (t + 1))[k]? = some ((uartTx i (t + 1)).fifoBuffer (BitVec.ofNat 4 k)) := by
  have hk' : taken i t ≤ k := by
    rw [taken_succ] at hk
    omega
  rw [length_accepted_succ] at hlt
  rw [accepted_succ, uartTx_succ]
  unfold UartTxFifo.accepts UartTxFifo.next
  rcases Bool.eq_false_or_eq_true ((uartTx i t).cpuWriteValid (i t)) with hw | hw
  · simp only [hw, if_true, Option.toList_some] at hlt ⊢
    rw [(ptr_eq i t).1]
    -- The new byte, or one that has been there.
    by_cases hkA : k = (accepted i t).length
    · rw [hkA, List.getElem?_concat_length, Function.update_self]
    · have hlt' : k < (accepted i t).length := by
        rw [Bool.toNat_true] at hlt
        omega
      -- Fewer than 16 bytes are in the FIFO, so the places of two of them differ.
      have hroom := Handshake.lt_of_cpuWriteValid _ hw
      have hcnt := fifoCnt_eq i t
      have hen := Bool.toNat_le (uartTx i t).uartTxEn
      have hne : BitVec.ofNat 4 k ≠ BitVec.ofNat 4 (accepted i t).length := fun he => by
        have := congrArg BitVec.toNat he
        simp only [BitVec.toNat_ofNat] at this
        omega
      rw [Function.update_of_ne hne, List.getElem?_append_left hlt']
      exact h.buffer k hk' hlt'
  · simp only [hw, Bool.false_eq_true, if_false, Option.toList_none, List.append_nil,
      Bool.toNat_false, Nat.add_zero] at hlt ⊢
    exact h.buffer k hk' hlt

/-- An edge at which a byte is loaded, is on its way, or can be taken. -/
theorem serializer_succ :
    (((uartTx i (t + 1)).uartTxEn || (uartTx i (t + 1)).uartTxEnD0) = true →
      0 < taken i (t + 1) ∧
        (accepted i t)[taken i (t + 1) - 1]? = some (uartTx i (t + 1)).uartTxData) ∧
      RV32Pipeline.loaded i (t + 1) = (accepted i t).take (taken i (t + 1) -
        ((uartTx i (t + 1)).uartTxEn || (uartTx i (t + 1)).uartTxEnD0).toNat) := by
  have hs := handshake i t
  have hen : (uartTx i (t + 1)).uartTxEn = (uartTx i t).takes := rfl
  have hd0 : (uartTx i (t + 1)).uartTxEnD0 = (uartTx i t).uartTxEn := rfl
  have hdata : (uartTx i (t + 1)).uartTxData = if (uartTx i t).takes then
      (uartTx i t).fifoBuffer (uartTx i t).fifoRdPtr else (uartTx i t).uartTxData := rfl
  have hload := h.loaded
  have hpend := h.pending
  rw [hen, hd0, hdata, taken_succ, loaded_succ, UartTxFifo.loads, hs.posUartEnTxd]
  rcases Bool.eq_false_or_eq_true (uartTx i t).takes with ht | ht
  · -- A byte is taken: nothing is on its way.
    obtain ⟨-, he, hd, -⟩ := Handshake.not_busy_of_takes ht
    have hlt := taken_lt hc ht
    simp only [ht, he, hd, Bool.or_false, Bool.toNat_true, Bool.toNat_false, Nat.sub_zero, if_true,
      Bool.false_eq_true, if_false, Option.toList_none, List.append_nil, Nat.add_sub_cancel,
      forall_const] at hload ⊢
    refine ⟨⟨Nat.succ_pos _, ?_⟩, hload⟩
    rw [(ptr_eq i t).2]
    exact h.buffer _ le_rfl (by omega)
  · rcases Bool.eq_false_or_eq_true (uartTx i t).uartTxEnD0 with hd | hd
    · -- The byte that was on its way is loaded.
      have he := (hs.d0 hd).1
      simp only [ht, he, hd, Bool.or_true, Bool.or_false, Bool.toNat_true, Bool.toNat_false,
        Nat.add_zero, Nat.sub_zero, if_true, Bool.false_eq_true, if_false, Option.toList_some,
        false_implies, true_and, forall_const] at hload hpend ⊢
      obtain ⟨hpos, hget⟩ := hpend
      obtain ⟨n, hn⟩ : ∃ n, taken i t = n + 1 := ⟨taken i t - 1, by omega⟩
      rw [hn, Nat.add_sub_cancel] at hget hload
      rw [hload, hn, List.take_add_one, hget]
      rfl
    · -- The byte stays on its way.
      simp only [ht, hd, Bool.or_false, Bool.false_or, Bool.toNat_false, Nat.add_zero,
        Bool.false_eq_true, if_false, Option.toList_none, List.append_nil] at hload hpend ⊢
      exact ⟨hpend, hload⟩

/-- A clock edge preserves what the FIFO holds. -/
theorem succ : FifoHolds i (t + 1) := by
  obtain ⟨hpend, hload⟩ := h.serializer_succ hc
  have hle : taken i (t + 1) ≤ (accepted i t).length := by
    rw [taken_succ]
    rcases Bool.eq_false_or_eq_true (uartTx i t).takes with ht | ht
    · have := taken_lt hc ht
      rw [ht, Bool.toNat_true]
      omega
    · rw [ht]
      exact h.le
  refine ⟨?_, h.buffer_succ hc, fun hp => ?_, ?_⟩
  · rw [length_accepted_succ]
    omega
  · obtain ⟨hpos, hget⟩ := hpend hp
    refine ⟨hpos, ?_⟩
    rw [accepted_succ, List.getElem?_append_left (by omega)]
    exact hget
  · rw [hload, accepted_succ, List.take_append_of_le_length (by omega)]

end FifoHolds

/-- As long as no decrement is lost, the FIFO holds the bytes that it should. -/
theorem fifoHolds (t : ℕ) (h : collisions i t = 0) : FifoHolds i t := by
  induction t with
  | zero =>
    exact ⟨le_rfl, fun k _ hk => absurd hk (Nat.not_lt_zero k),
      fun hp => absurd hp Bool.false_ne_true, rfl⟩
  | succ t ih =>
    have hc : collisions i t = 0 := by
      rw [collisions_succ] at h
      omega
    exact (ih hc).succ hc

/-- For every sequence of CPU writes: the count, the pointers, and the order of the bytes are right
in every cycle if and only if no byte is accepted in a cycle with `uart_tx_en = 1`. -/
theorem fifoIntegrity_iff (i : ℕ → UartTxIn) :
    (∀ t, FifoIntegrity i t) ↔ ∀ t, (uartTx i t).collides (i t) = false := by
  constructor
  · intro h t
    have hcnt := fifoCnt_eq i (t + 1)
    rw [(h (t + 1)).count, collisions_succ] at hcnt
    rcases Bool.eq_false_or_eq_true ((uartTx i t).collides (i t)) with hc | hc
    · rw [hc, Bool.toNat_true] at hcnt
      omega
    · exact hc
  · intro h t
    have hc : collisions i t = 0 := by
      induction t with
      | zero => rfl
      | succ t ih => rw [collisions_succ, ih, h t, Bool.toNat_false]
    have hcnt := fifoCnt_eq i t
    refine ⟨by rw [hcnt, hc, Nat.add_zero], ?_, ?_⟩
    · rw [(ptr_eq i t).1, (ptr_eq i t).2, BitVec.toNat_sub, BitVec.toNat_ofNat, BitVec.toNat_ofNat]
      push_cast
      omega
    · rw [(fifoHolds t hc).loaded]
      exact List.take_prefix _ _

/-- The CPU writes three bytes, the third of them in the cycle in which the first is on its way. -/
def collidingWrites (t : ℕ) : UartTxIn := ⟨uartDataAddr, t == 0 || t == 1 || t == 3, 0x41#8⟩

/-- After the third write `fifo_cnt` is 3, but two bytes are left. -/
theorem collidingWrites_count : ¬ ∀ t, FifoIntegrity collidingWrites t := by
  intro h
  have hcnt := (h 4).count
  revert hcnt
  decide +kernel

end Run

end RV32Pipeline
