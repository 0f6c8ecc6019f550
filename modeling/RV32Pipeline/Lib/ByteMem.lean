import Mathlib.Data.BitVec
import Mathlib.Tactic.Common

/-!
# Byte-addressed memories

A memory with `n`-bit addresses, read and written four bytes at a time at any address, the lowest
byte first. Addresses wrap around at `2^n`. A write carries a mask that selects the bytes it
replaces.
-/

/-- A byte at every address. -/
abbrev ByteMem (n : ℕ) := BitVec n → BitVec 8

namespace ByteMem

variable {n : ℕ} (m : ByteMem n) (a p : BitVec n) (data : BitVec 32) (mask : BitVec 4)

/-- The four bytes from `a` on. -/
def load (m : ByteMem n) (a : BitVec n) : BitVec 32 := m (a + 3) ++ m (a + 2) ++ m (a + 1) ++ m a

/-- The memory that holds the words `ws` from `base` on, and zeros elsewhere. -/
def ofWords (base : BitVec n) (ws : List (BitVec 32)) : ByteMem n := fun x =>
  (ws.getD ((x - base).toNat / 4) 0#32).extractLsb' (8 * ((x - base).toNat % 4)) 8

/-- Byte `k` of the four that start at `a` is selected by the mask and lies at `x`. -/
def selects (a : BitVec n) (mask : BitVec 4) (x : BitVec n) (k : ℕ) : Bool :=
  mask.getLsbD k && x == a + BitVec.ofNat n k

/-- The memory with the selected bytes from `a` on replaced. -/
def store (m : ByteMem n) (a : BitVec n) (data : BitVec 32) (mask : BitVec 4) : ByteMem n :=
  fun x =>
    if selects a mask x 0 then data.extractLsb' 0 8
    else if selects a mask x 1 then data.extractLsb' 8 8
    else if selects a mask x 2 then data.extractLsb' 16 8
    else if selects a mask x 3 then data.extractLsb' 24 8
    else m x

/-- The write at `a` with the mask replaces the byte at `x`. -/
def Writes (a : BitVec n) (mask : BitVec 4) (x : BitVec n) : Prop :=
  ∃ k < 4, selects a mask x k = true

/-- The write at `a` with the mask replaces one of the four bytes from `p` on. -/
def Overlaps (a : BitVec n) (mask : BitVec 4) (p : BitVec n) : Prop :=
  ∃ k < 4, Writes a mask (p + BitVec.ofNat n k)

instance (x : BitVec n) : Decidable (Writes a mask x) :=
  inferInstanceAs (Decidable (∃ k < 4, selects a mask x k = true))

instance : Decidable (Overlaps a mask p) :=
  inferInstanceAs (Decidable (∃ k < 4, Writes a mask (p + BitVec.ofNat n k)))

variable {m a p data mask}

/-- A write leaves the bytes that it does not select as they are. -/
theorem store_of_not_writes {x : BitVec n} (h : ¬ Writes a mask x) : m.store a data mask x = m x := by
  have hk : ∀ k < 4, selects a mask x k = false := fun k hk =>
    Bool.eq_false_iff.mpr fun hs => h ⟨k, hk, hs⟩
  simp [store, hk 0 (by decide), hk 1 (by decide), hk 2 (by decide), hk 3 (by decide)]

/-- A read is not changed by a write that misses its four bytes. -/
theorem load_store_of_not_overlaps (h : ¬ Overlaps a mask p) :
    (m.store a data mask).load p = m.load p := by
  have hb : ∀ k < 4, m.store a data mask (p + BitVec.ofNat n k) = m (p + BitVec.ofNat n k) :=
    fun k hk => store_of_not_writes fun hw => h ⟨k, hk, hw⟩
  have h0 : m.store a data mask p = m p := by simpa using hb 0 (by decide)
  simp only [load]
  rw [h0, show (1 : BitVec n) = BitVec.ofNat n 1 from rfl,
    show (2 : BitVec n) = BitVec.ofNat n 2 from rfl,
    show (3 : BitVec n) = BitVec.ofNat n 3 from rfl, hb 1 (by decide), hb 2 (by decide),
    hb 3 (by decide)]

/-- The same write made twice has the effect of one. -/
theorem store_store (m : ByteMem n) (a : BitVec n) (data : BitVec 32) (mask : BitVec 4) :
    (m.store a data mask).store a data mask = m.store a data mask := by
  funext x
  simp only [store]
  split_ifs <;> rfl

/-! ## Bytes of words -/

/-- The bytes of a word. -/
theorem extractLsb'_append (b3 b2 b1 b0 : BitVec 8) :
    (b3 ++ b2 ++ b1 ++ b0).extractLsb' 0 8 = b0 ∧ (b3 ++ b2 ++ b1 ++ b0).extractLsb' 8 8 = b1 ∧
      (b3 ++ b2 ++ b1 ++ b0).extractLsb' 16 8 = b2 ∧
      (b3 ++ b2 ++ b1 ++ b0).extractLsb' 24 8 = b3 := by
  refine ⟨?_, ?_, ?_, ?_⟩ <;> ext i hi <;> simp <;> grind

/-- The bytes of a word in memory. -/
theorem extractLsb'_load (m : ByteMem n) (a : BitVec n) {k : ℕ} (hk : k < 4) :
    (m.load a).extractLsb' (8 * k) 8 = m (a + BitVec.ofNat n k) := by
  obtain ⟨h0, h1, h2, h3⟩ := extractLsb'_append (m (a + 3)) (m (a + 2)) (m (a + 1)) (m a)
  have hk' : k = 0 ∨ k = 1 ∨ k = 2 ∨ k = 3 := by omega
  rcases hk' with rfl | rfl | rfl | rfl
  · simpa [load] using h0
  · exact h1
  · exact h2
  · exact h3

/-- Memories that agree on the four bytes of a word have the same word there. -/
theorem load_congr {m m' : ByteMem n} {a : BitVec n}
    (h : ∀ k < 4, m (a + BitVec.ofNat n k) = m' (a + BitVec.ofNat n k)) : m.load a = m'.load a := by
  have h0 : m a = m' a := by simpa using h 0 (by decide)
  have h1 : m (a + 1) = m' (a + 1) := h 1 (by decide)
  have h2 : m (a + 2) = m' (a + 2) := h 2 (by decide)
  have h3 : m (a + 3) = m' (a + 3) := h 3 (by decide)
  rw [load, load, h0, h1, h2, h3]

/-- The same write leaves memories that agree on a byte in agreement on it. -/
theorem store_congr {m m' : ByteMem n} {x : BitVec n} (h : m x = m' x) (a : BitVec n)
    (data : BitVec 32) (mask : BitVec 4) : m.store a data mask x = m'.store a data mask x := by
  simp only [store, h]

/-- The four addresses of a word are different. -/
theorem add_ofNat_inj (hn : 2 ≤ n) {j k : ℕ} (hj : j < 4) (hk : k < 4) :
    a + BitVec.ofNat n j = a + BitVec.ofNat n k ↔ j = k := by
  have h4 : 4 ≤ 2 ^ n := by
    calc 4 = 2 ^ 2 := rfl
      _ ≤ 2 ^ n := Nat.pow_le_pow_right (by decide) hn
  rw [BitVec.add_right_inj, ← BitVec.toNat_inj, BitVec.toNat_ofNat, BitVec.toNat_ofNat,
    Nat.mod_eq_of_lt (by omega), Nat.mod_eq_of_lt (by omega)]

/-- What a write leaves in the byte `k` of its word. -/
theorem store_byte (hn : 2 ≤ n) {k : ℕ} (hk : k < 4) :
    m.store a data mask (a + BitVec.ofNat n k) =
      if mask.getLsbD k then data.extractLsb' (8 * k) 8 else m (a + BitVec.ofNat n k) := by
  have hs : ∀ j < 4, selects a mask (a + BitVec.ofNat n k) j =
      (mask.getLsbD j && decide (j = k)) := by
    intro j hj
    rw [selects]
    congr 1
    by_cases hjk : j = k
    · rw [hjk, beq_self_eq_true, decide_eq_true rfl]
    · rw [decide_eq_false hjk, beq_eq_false_iff_ne]
      exact fun h => hjk ((add_ofNat_inj hn hk hj).mp h).symm
  have hk' : k = 0 ∨ k = 1 ∨ k = 2 ∨ k = 3 := by omega
  simp only [store, hs 0 (by decide), hs 1 (by decide), hs 2 (by decide), hs 3 (by decide)]
  rcases hk' with rfl | rfl | rfl | rfl <;> simp

/-- A word may be written whole, if it holds the data in the selected bytes and what is in memory in
the others. -/
theorem store_whole (hn : 2 ≤ n) {word : BitVec 32}
    (h : ∀ k < 4, word.extractLsb' (8 * k) 8 =
      if mask.getLsbD k then data.extractLsb' (8 * k) 8 else m (a + BitVec.ofNat n k)) :
    m.store a word 0b1111#4 = m.store a data mask := by
  funext x
  by_cases hx : ∃ k < 4, x = a + BitVec.ofNat n k
  · obtain ⟨k, hk, rfl⟩ := hx
    have h1 : (0b1111#4).getLsbD k = true := by
      revert k
      decide
    rw [store_byte hn hk, store_byte hn hk, h1, if_pos rfl, h k hk]
  · have hw : ∀ w, ¬ Writes a w x := by
      rintro w ⟨k, hk, hs⟩
      rw [selects, Bool.and_eq_true, beq_iff_eq] at hs
      exact hx ⟨k, hk, hs.2⟩
    rw [store_of_not_writes (hw _), store_of_not_writes (hw _)]

/-! ## Words at different places -/

/-- A whole word is read back. -/
theorem load_store_self (hn : 2 ≤ n) : (m.store a data 0b1111#4).load a = data := by
  apply BitVec.eq_of_getLsbD_eq
  intro i hi
  have hk : i / 8 < 4 := by omega
  have hb := extractLsb'_load (m.store a data 0b1111#4) a hk
  have h1 : ∀ k < 4, (0b1111#4).getLsbD k = true := by decide
  rw [store_byte hn hk, h1 _ hk, if_pos rfl] at hb
  have hbit := congrArg (fun b => b.getLsbD (i % 8)) hb
  simp only [BitVec.getLsbD_extractLsb', Nat.mod_lt i (by decide : 8 > 0), decide_true,
    Bool.true_and, Nat.div_add_mod] at hbit
  exact hbit

/-- A write four bytes or more away from a word misses it. -/
theorem not_overlaps_of_apart {x : BitVec 32} {y : BitVec 32} (h : 4 ≤ (y - x).toNat)
    (h' : 4 ≤ (x - y).toNat) : ¬ Overlaps x mask y := by
  rintro ⟨k, hk, j, hj, hs⟩
  unfold selects at hs
  rw [Bool.and_eq_true, beq_iff_eq] at hs
  have hs := congrArg BitVec.toNat hs.2
  have hx := x.isLt
  have hy := y.isLt
  rw [BitVec.toNat_sub] at h h'
  simp only [BitVec.toNat_add, BitVec.toNat_ofNat] at hs
  omega

/-- Words at offsets that are multiples of four below `2^31`: a write to one changes no other. -/
theorem load_store_offset {m : ByteMem 32} {c : BitVec 32} {j k : ℕ} (hj : j * 4 < 2^31)
    (hk : k * 4 < 2^31) :
    (m.store (c + BitVec.ofNat 32 (j * 4)) data 0b1111#4).load (c + BitVec.ofNat 32 (k * 4)) =
      if j = k then data else m.load (c + BitVec.ofNat 32 (k * 4)) := by
  split_ifs with hjk
  · rw [hjk]
    exact load_store_self (by decide)
  · apply load_store_of_not_overlaps
    apply not_overlaps_of_apart
    · have hc := c.isLt
      simp only [BitVec.toNat_sub, BitVec.toNat_add, BitVec.toNat_ofNat]
      omega
    · have hc := c.isLt
      simp only [BitVec.toNat_sub, BitVec.toNat_add, BitVec.toNat_ofNat]
      omega

/-! ## The memory of a list of words -/

/-- A word with the bytes that are in memory is the word in memory. -/
theorem load_eq_of_bytes {word : BitVec 32}
    (h : ∀ k < 4, m (a + BitVec.ofNat n k) = word.extractLsb' (8 * k) 8) : m.load a = word := by
  apply BitVec.eq_of_getLsbD_eq
  intro i hi
  have hk : i / 8 < 4 := by omega
  have hbit := congrArg (fun b => b.getLsbD (i % 8)) ((extractLsb'_load m a hk).trans (h _ hk))
  simp only [BitVec.getLsbD_extractLsb', Nat.mod_lt i (by decide : 8 > 0), decide_true,
    Bool.true_and, Nat.div_add_mod] at hbit
  exact hbit

/-- The words of the list are in memory. -/
theorem load_ofWords (base : BitVec 32) {ws : List (BitVec 32)} {k : ℕ} (hlen : ws.length ≤ 2 ^ 30)
    (hk : k < ws.length) : (ofWords base ws).load (base + BitVec.ofNat 32 (4 * k)) = ws[k] := by
  refine load_eq_of_bytes fun j hj => ?_
  have hoff : (base + BitVec.ofNat 32 (4 * k) + BitVec.ofNat 32 j - base).toNat = 4 * k + j := by
    simp only [BitVec.toNat_sub, BitVec.toNat_add, BitVec.toNat_ofNat]
    have hb := base.isLt
    omega
  rw [ofWords, hoff, show (4 * k + j) / 4 = k by omega, show (4 * k + j) % 4 = j by omega,
    List.getD_eq_getElem?_getD, List.getElem?_eq_getElem hk, Option.getD_some]

end ByteMem
