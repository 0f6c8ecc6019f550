import RV32Pipeline.Uart.Drain

/-!
# Bytes that are written far enough apart

A CPU that leaves 100 cycles from one byte to the next never finds the FIFO full, and never writes
in the one cycle in which its count loses a decrement. So what it writes goes through the FIFO, the
serializer, and the receiver in order, but for the last byte, which stays in the FIFO
(`received_of_apart`). The argument follows the transmitter from one write to the next (`TxPhase`).
-/

namespace RV32Pipeline

/-- The bytes that the CPU writes before cycle `t`, whether there is room for them or not. -/
def written (i : ℕ → UartTxIn) (t : ℕ) : List (BitVec 8) :=
  Clocked.log (fun n => if (i n).writesData then some (i n).cpuWrData else none) t

theorem written_succ (i : ℕ → UartTxIn) (t : ℕ) : written i (t + 1) =
    written i t ++ (if (i t).writesData then some (i t).cpuWrData else none).toList :=
  Clocked.log_succ _ t

/-- From one byte that the CPU writes to the next it is at least `g` cycles. -/
def Apart (i : ℕ → UartTxIn) (g : ℕ) : Prop :=
  ∀ n n', n < n' → (i n).writesData = true → (i n').writesData = true → n + g ≤ n'

/-- No byte is written before cycle `t` to a full FIFO, or while `uart_tx_en` is up. -/
def NoneLost (i : ℕ → UartTxIn) (t : ℕ) : Prop :=
  ∀ n < t, (i n).writesData = true → (uartTx i n).fifoFull = false ∧ (uartTx i n).uartTxEn = false

variable {i : ℕ → UartTxIn} {t : ℕ}

/-- Without a lost byte no decrement is lost. -/
theorem NoneLost.collisions (h : NoneLost i t) : collisions i t = 0 := by
  induction t with
  | zero => rfl
  | succ t ih =>
    rw [collisions_succ, ih fun n hn => h n (Nat.lt_succ_of_lt hn), UartTxFifo.collides,
      cpuWriteValid_eq]
    cases hw : (i t).writesData
    · rfl
    · rw [(h t (Nat.lt_succ_self t) hw).2, Bool.and_false]
      rfl

/-- Without a lost byte the FIFO accepts what is written. -/
theorem NoneLost.accepted (h : NoneLost i t) : accepted i t = written i t := by
  induction t with
  | zero => rfl
  | succ t ih =>
    rw [accepted_succ, written_succ, ih fun n hn => h n (Nat.lt_succ_of_lt hn),
      UartTxFifo.accepts, cpuWriteValid_eq]
    cases hw : (i t).writesData
    · rfl
    · have hroom := (h t (Nat.lt_succ_self t) hw).1
      rw [UartTxFifo.fifoFull, decide_eq_false_iff_not, BitVec.not_le] at hroom
      rw [Bool.true_and, decide_eq_true hroom]

/-- One accepted byte at least is still in the FIFO or on its way. -/
theorem loaded_prefix_dropLast (hc : collisions i t = 0) :
    loaded i t <+: (accepted i t).dropLast := by
  have hcnt := fifoCnt_eq i t
  rw [(fifoHolds t hc).loaded, List.dropLast_eq_take]
  refine List.take_prefix_take_left ?_
  by_cases hacc : accepted i t = []
  · rw [hc, hacc] at hcnt
    have hzero := (fifoCnt_eq_zero_iff i t).mpr hacc
    have hidle := untouched i t hacc
    rw [hzero, hidle.en] at hcnt
    rw [hacc, hidle.en, hidle.d0]
    simpa using hcnt
  · have hpos := (keepsByte i t).pos hacc
    rw [hc] at hcnt
    cases he : (uartTx i t).uartTxEn
    · rw [he, Bool.toNat_false] at hcnt
      omega
    · have hone := (keepsByte i t).en he
      rw [he, Bool.toNat_true] at hcnt
      omega

/-- When the transmitter has come to rest, all bytes but the last are out. -/
theorem loaded_of_quiescent (hc : collisions i t = 0) (hq : (uartTx i t).Quiescent (i t)) :
    loaded i t = (accepted i t).dropLast := by
  by_cases hacc : accepted i t = []
  · rw [hacc, (untouched i t hacc).loaded]
    rfl
  · have hcnt := fifoCnt_eq i t
    have hbusy := hq.notBusy
    rw [UartTxFifo.uartTxBusy, Bool.or_eq_false_iff, Bool.or_eq_false_iff] at hbusy
    rw [hc, fifoCnt_of_quiescent hq hacc, hbusy.1.2, Bool.toNat_false] at hcnt
    rw [(fifoHolds t hc).loaded, hbusy.1.2, hbusy.2, List.dropLast_eq_take]
    congr 1
    simp only [Bool.or_self, Bool.toNat_false]
    omega

/-! ## The phases of the transmitter -/

/-- What is left to do in cycle `t` when the last byte has been written `r + 1` cycles ago. -/
inductive TxPhase (i : ℕ → UartTxIn) (t r : ℕ) : Prop
  | rests (en : (uartTx i t).uartTxEn = false) (d0 : (uartTx i t).uartTxEnD0 = false)
    (cnt : (uartTx i t).fifoCnt.toNat ≤ 1) (age : 97 ≤ txAge i t)
  | written (en : (uartTx i t).uartTxEn = false) (d0 : (uartTx i t).uartTxEnD0 = false)
    (cnt : (uartTx i t).fifoCnt.toNat = 2) (age : 97 ≤ txAge i t) (hr : r = 0)
  | taken (en : (uartTx i t).uartTxEn = true) (cnt : (uartTx i t).fifoCnt.toNat = 2) (hr : r = 1)
  | loads (en : (uartTx i t).uartTxEn = false) (d0 : (uartTx i t).uartTxEnD0 = true)
    (cnt : (uartTx i t).fifoCnt.toNat = 1) (hr : r = 2)
  | sends (en : (uartTx i t).uartTxEn = false) (d0 : (uartTx i t).uartTxEnD0 = false)
    (cnt : (uartTx i t).fifoCnt.toNat = 1) (age : txAge i t ≤ 96) (hr : r = txAge i t + 2)

/-- After 99 cycles nothing is left to do. -/
theorem TxPhase.rests_of_le {r : ℕ} (h : TxPhase i t r) (hr : 99 ≤ r) :
    (uartTx i t).uartTxEn = false ∧ (uartTx i t).uartTxEnD0 = false ∧
      (uartTx i t).fifoCnt.toNat ≤ 1 ∧ 97 ≤ txAge i t := by
  cases h with
  | rests en d0 cnt age => exact ⟨en, d0, cnt, age⟩
  | written _ _ _ _ h0 => omega
  | taken _ _ h1 => omega
  | loads _ _ _ h2 => omega
  | sends _ _ _ age ha => omega

/-- A byte is written to a transmitter that rests. -/
theorem TxPhase.write (en : (uartTx i t).uartTxEn = false) (d0 : (uartTx i t).uartTxEnD0 = false)
    (cnt : (uartTx i t).fifoCnt.toNat ≤ 1) (age : 97 ≤ txAge i t) : TxPhase i (t + 1) 0 := by
  have hcnt := (handshake i t).fifoCnt_next (i t)
  rw [← uartTx_succ, en, Bool.false_and, Bool.toNat_false] at hcnt
  have hle := Bool.toNat_le ((uartTx i t).cpuWriteValid (i t))
  have hage := txAge_idle d0
  have hen : (uartTx i (t + 1)).uartTxEn = false := takes_of_le cnt
  have hd0 : (uartTx i (t + 1)).uartTxEnD0 = false := en
  by_cases h2 : (uartTx i (t + 1)).fifoCnt.toNat = 2
  · exact .written hen hd0 h2 (by omega) rfl
  · exact .rests hen hd0 (by omega) (by omega)

/-- A cycle without a write. -/
theorem TxPhase.succ {r : ℕ} (h : TxPhase i t r) (hw : (i t).writesData = false) :
    TxPhase i (t + 1) (r + 1) := by
  have hcnt := (handshake i t).fifoCnt_next (i t)
  rw [← uartTx_succ, cpuWriteValid_eq, hw, Bool.false_and, Bool.not_false, Bool.and_true,
    Bool.toNat_false] at hcnt
  have hnext : (uartTx i (t + 1)).uartTxEnD0 = (uartTx i t).uartTxEn := rfl
  have htakes : (uartTx i (t + 1)).uartTxEn = (uartTx i t).takes := rfl
  cases h with
  | rests en d0 cnt age =>
    have hage := txAge_idle d0
    rw [en, Bool.toNat_false] at hcnt
    exact .rests (takes_of_le cnt) en (by omega) (by omega)
  | written en d0 cnt age hr =>
    -- With two bytes in an idle FIFO, `uart_tx_en` comes up.
    have hflag := (linkInv i t).tx.flag
    rw [decide_eq_false (by omega)] at hflag
    rw [en, Bool.toNat_false] at hcnt
    refine .taken ?_ (by omega) (by omega)
    rw [htakes, takes_eq (by rw [UartTxFifo.uartTxBusy, hflag, en, d0]; rfl), cnt]
    rfl
  | taken en cnt hr =>
    -- The count falls, and the byte is given to the serializer.
    rw [en, Bool.toNat_true] at hcnt
    refine .loads ?_ en (by omega) (by omega)
    rw [htakes, UartTxFifo.takes, UartTxFifo.uartTxBusy, en]
    simp
  | loads en d0 cnt hr =>
    -- The frame begins.
    have hage : txAge i (t + 1) = 1 := by
      rw [txAge, (handshake i t).posUartEnTxd, d0]
      rfl
    rw [en, Bool.toNat_false] at hcnt
    exact .sends (takes_of_le cnt.le) en (by omega) (by omega) (by omega)
  | sends en d0 cnt age hr =>
    have hage := txAge_idle d0
    rw [en, Bool.toNat_false] at hcnt
    by_cases h97 : txAge i t = 96
    · exact .rests (takes_of_le cnt.le) en (by omega) (by omega)
    · exact .sends (takes_of_le cnt.le) en (by omega) (by omega) (by omega)

/-- Bytes that are written at least 100 cycles apart find the transmitter at rest. -/
theorem Apart.noneLost (h : Apart i 100) (t : ℕ) : NoneLost i t := by
  have h99 {t r : ℕ} (hlast : 99 ≤ r ∨ ∃ n, t = n + 1 + r ∧ (i n).writesData = true)
      (hw : (i t).writesData = true) : 99 ≤ r := by
    rcases hlast with hr | ⟨n, rfl, hn⟩
    · exact hr
    · have := h n _ (by omega) hn hw
      omega
  -- The phase since the last byte; before the first one, the transmitter rests.
  have hphase (t : ℕ) : ∃ r, TxPhase i t r ∧
      (99 ≤ r ∨ ∃ n, t = n + 1 + r ∧ (i n).writesData = true) := by
    induction t with
    | zero => exact ⟨99, .rests rfl rfl (Nat.zero_le 1) (by decide : 97 ≤ 98), .inl le_rfl⟩
    | succ t ih =>
      obtain ⟨r, hr, hlast⟩ := ih
      cases hw : (i t).writesData
      · refine ⟨r + 1, hr.succ hw, hlast.imp (by omega) ?_⟩
        rintro ⟨n, rfl, hn⟩
        exact ⟨n, rfl, hn⟩
      · obtain ⟨en, d0, cnt, age⟩ := hr.rests_of_le (h99 hlast hw)
        exact ⟨0, .write en d0 cnt age, .inr ⟨t, rfl, hw⟩⟩
  intro n _ hw
  obtain ⟨r, hr, hlast⟩ := hphase n
  obtain ⟨en, -, cnt, -⟩ := hr.rests_of_le (h99 hlast hw)
  refine ⟨?_, en⟩
  rw [UartTxFifo.fifoFull, decide_eq_false_iff_not, BitVec.le_def]
  simp only [UartTxFifo.fifoDepth, BitVec.toNat_ofNat]
  omega

/-! ## From the CPU to the receiver -/

/-- When the CPU has written its last byte, the transmitter comes to rest, and the receiver has
shown all but that one. -/
theorem received_all (hlost : ∀ t, NoneLost i t) {T : ℕ}
    (hT : ∀ n, T ≤ n → (i n).writesData = false) :
    ∃ t₀, ∀ t ≥ t₀, Clocked.log (receives i) t = (written i T).dropLast := by
  have hwritten (k : ℕ) : written i (T + k) = written i T := by
    induction k with
    | zero => rfl
    | succ k ih =>
      rw [← ih, ← Nat.add_assoc, written_succ, hT _ (Nat.le_add_right T k)]
      exact List.append_nil _
  have hacc (k : ℕ) : accepted i (T + k) = written i T := by rw [(hlost _).accepted, hwritten]
  obtain ⟨t₁, ht₁, hq⟩ := exists_quiescent hT
  obtain ⟨k, rfl⟩ := Nat.exists_eq_add_of_le ht₁
  have hrest := loaded_of_quiescent (hlost (T + k)).collisions hq
  rw [hacc] at hrest
  refine ⟨T + k + 94, fun t ht => ?_⟩
  obtain ⟨u, rfl⟩ := Nat.exists_eq_add_of_le ht
  rw [show T + k + 94 + u = T + (k + u) + 94 by omega, receives_log, ← hrest]
  -- Later no more is given to the serializer, and not less either.
  have hle := loaded_prefix_dropLast (hlost (T + (k + u))).collisions
  rw [hacc, ← hrest] at hle
  have hge : loaded i (T + k) <+: loaded i (T + (k + u)) := Clocked.log_prefix _ (by omega)
  exact hle.eq_of_length_le hge.length_le

/-- For every sequence of CPU writes with at least 100 cycles from one byte to the next: what the
receiver has shown is in every cycle a prefix of what had been written 94 cycles before, without the
last byte, so no byte is lost, doubled, reordered, or altered on the way. If the CPU stops writing,
the receiver ends with all bytes but the last. -/
theorem received_of_apart (h : Apart i 100) :
    (∀ t, Clocked.log (receives i) (t + 94) <+: (written i t).dropLast) ∧
      ∀ T, (∀ n, T ≤ n → (i n).writesData = false) →
        ∃ t₀, ∀ t ≥ t₀, Clocked.log (receives i) t = (written i T).dropLast := by
  refine ⟨fun t => ?_, fun T hT => received_all h.noneLost hT⟩
  rw [receives_log, ← (h.noneLost t).accepted]
  exact loaded_prefix_dropLast (h.noneLost t).collisions

/-- A CPU that writes the bytes 0x41 and 0x42, 100 cycles apart. -/
def twoWrites (t : ℕ) : UartTxIn :=
  ⟨uartDataAddr, t == 0 || t == 100, if t = 0 then 0x41#8 else 0x42#8⟩

theorem writesData_twoWrites {t : ℕ} : (twoWrites t).writesData = true ↔ t = 0 ∨ t = 100 := by
  rw [UartTxIn.writesData, twoWrites, beq_self_eq_true, Bool.and_true, Bool.or_eq_true, beq_iff_eq,
    beq_iff_eq]

/-- The receiver ends with the first of the two bytes. -/
theorem received_of_apart_twoWrites :
    ∃ t₀, ∀ t ≥ t₀, Clocked.log (receives twoWrites) t = [0x41#8] := by
  have happart : Apart twoWrites 100 := by
    intro n n' hlt hn hn'
    rw [writesData_twoWrites] at hn hn'
    omega
  have hstops : ∀ n, 101 ≤ n → (twoWrites n).writesData = false := fun n hn =>
    Bool.eq_false_iff.mpr fun hw => by
      rw [writesData_twoWrites] at hw
      omega
  exact (received_of_apart happart).2 101 hstops

end RV32Pipeline
