import ApproxSet.Proofs.Word
import ApproxSet.Tail
import Mathlib.Data.LawfulXor.Basic

/-!
# Tails as bit strings

A tail field is a number `bits` written in `length` binary digits. Prefixes, dropping and the
payload are said in these two numbers, so nothing above has to look at the six-bit code again.
-/

namespace ApproxSet.Tail

/-- The field has six bits and is not zero, so the string has an end. -/
structure Ended (t : Tail) : Prop where
  code_ne : t.code ≠ 0
  code_lt : t.code.toNat < 64

/-- The string as a number, its first bit on top. -/
def bits (t : Tail) : Nat :=
  t.code.toNat / 2 ^ (t.terminator + 1)

/- Six bits are few enough to look at every field. -/
private theorem fields : ∀ c : Fin 64, c ≠ 0 →
    (mk (UInt16.ofNat c)).terminator ≤ 5 ∧
      (mk (UInt16.ofNat c)).code.toNat =
        (2 * (mk (UInt16.ofNat c)).bits + 1) * 2 ^ (mk (UInt16.ofNat c)).terminator ∧
      (mk (UInt16.ofNat c)).payload.toNat =
        (mk (UInt16.ofNat c)).bits * 2 ^ ((mk (UInt16.ofNat c)).terminator + 1) := by
  decide +kernel

private theorem dropped_fields : ∀ c : Fin 64, c ≠ 0 → ∀ n : Fin 6,
    n ≤ (mk (UInt16.ofNat c)).length →
      ((mk (UInt16.ofNat c)).drop n).code ≠ 0 ∧
      ((mk (UInt16.ofNat c)).drop n).code.toNat < 64 ∧
      ((mk (UInt16.ofNat c)).drop n).terminator = (mk (UInt16.ofNat c)).terminator + n ∧
      ((mk (UInt16.ofNat c)).drop n).bits =
        (mk (UInt16.ofNat c)).bits % 2 ^ ((mk (UInt16.ofNat c)).length - n) := by
  decide +kernel

private theorem Ended.exists_field {t : Tail} (ht : t.Ended) :
    ∃ c : Fin 64, c ≠ 0 ∧ t = Tail.mk (UInt16.ofNat c) := by
  refine ⟨⟨t.code.toNat, ht.code_lt⟩, ?_, ?_⟩
  · intro h
    have hval : t.code.toNat = 0 := congrArg Fin.val h
    exact ht.code_ne (UInt16.toNat_inj.mp hval)
  · cases t
    simp

theorem terminator_le {t : Tail} (ht : t.Ended) : t.terminator ≤ 5 := by
  obtain ⟨c, hc, rfl⟩ := ht.exists_field
  exact (fields c hc).1

theorem length_add_terminator {t : Tail} (ht : t.Ended) : t.length + t.terminator = 5 := by
  have h := terminator_le ht
  unfold length maxLength
  omega

theorem length_le (t : Tail) : t.length ≤ 5 :=
  Nat.sub_le _ _

theorem payload_eq {t : Tail} (ht : t.Ended) :
    t.payload.toNat = t.bits * 2 ^ (t.terminator + 1) := by
  obtain ⟨c, hc, rfl⟩ := ht.exists_field
  exact (fields c hc).2.2

theorem code_eq {t : Tail} (ht : t.Ended) :
    t.code.toNat = (2 * t.bits + 1) * 2 ^ t.terminator := by
  obtain ⟨c, hc, rfl⟩ := ht.exists_field
  exact (fields c hc).2.1

/-- The two numbers make the string. -/
theorem eq_of_bits {t u : Tail} (ht : t.Ended) (hu : u.Ended) (hlength : t.length = u.length)
    (hbits : t.bits = u.bits) : t = u := by
  have htsum := length_add_terminator ht
  have husum := length_add_terminator hu
  have hterminator : t.terminator = u.terminator := by omega
  have hcode : t.code = u.code := by
    apply UInt16.toNat_inj.mp
    rw [code_eq ht, code_eq hu, hbits, hterminator]
  cases t
  exact congrArg mk hcode

theorem bits_lt {t : Tail} (ht : t.Ended) : t.bits < 2 ^ t.length := by
  have hsum := length_add_terminator ht
  apply Nat.div_lt_of_lt_mul
  rw [← Nat.pow_add, show t.terminator + 1 + t.length = 6 by omega]
  exact ht.code_lt

/-! ## Dropping bits -/

theorem ended_drop {t : Tail} (ht : t.Ended) {n : Nat} (hn : n ≤ t.length) :
    (t.drop n).Ended := by
  obtain ⟨c, hc, rfl⟩ := ht.exists_field
  have hlen := length_le (mk (UInt16.ofNat c))
  have h := dropped_fields c hc ⟨n, by omega⟩ hn
  exact ⟨h.1, h.2.1⟩

theorem length_drop {t : Tail} (ht : t.Ended) {n : Nat} (hn : n ≤ t.length) :
    (t.drop n).length = t.length - n := by
  have hsum := length_add_terminator ht
  have hsum' := length_add_terminator (ended_drop ht hn)
  have hterm : (t.drop n).terminator = t.terminator + n := by
    obtain ⟨c, hc, rfl⟩ := ht.exists_field
    exact (dropped_fields c hc ⟨n, by omega⟩ hn).2.2.1
  omega

theorem bits_drop {t : Tail} (ht : t.Ended) {n : Nat} (hn : n ≤ t.length) :
    (t.drop n).bits = t.bits % 2 ^ (t.length - n) := by
  obtain ⟨c, hc, rfl⟩ := ht.exists_field
  have hlen := length_le (mk (UInt16.ofNat c))
  exact (dropped_fields c hc ⟨n, by omega⟩ hn).2.2.2

theorem drop_zero {t : Tail} (ht : t.Ended) : t.drop 0 = t := by
  have h := Nat.zero_le t.length
  apply eq_of_bits (ended_drop ht h) ht (length_drop ht h)
  rw [bits_drop ht h]
  exact Nat.mod_eq_of_lt (bits_lt ht)

theorem drop_drop {t : Tail} (ht : t.Ended) {m n : Nat} (h : m + n ≤ t.length) :
    (t.drop m).drop n = t.drop (m + n) := by
  have hm : m ≤ t.length := Nat.le_trans (Nat.le_add_right m n) h
  have hdropped := ended_drop ht hm
  have hlength := length_drop ht hm
  have hn : n ≤ (t.drop m).length := by omega
  apply eq_of_bits (ended_drop hdropped hn) (ended_drop ht h)
  · rw [length_drop hdropped hn, length_drop ht h]
    omega
  · have hdvd : 2 ^ (t.length - (m + n)) ∣ 2 ^ (t.length - m) :=
      Nat.pow_dvd_pow 2 (by omega)
    rw [bits_drop hdropped hn, hlength, bits_drop ht hm, bits_drop ht h,
      show t.length - m - n = t.length - (m + n) by omega, Nat.mod_mod_of_dvd _ hdvd]

/-! ## Empty and full tails -/

theorem ended_empty : empty.Ended := ⟨by decide, by decide⟩

theorem length_empty : empty.length = 0 := by decide

theorem bits_empty : empty.bits = 0 := by decide

theorem drop_length {t : Tail} (ht : t.Ended) : t.drop t.length = empty := by
  have h := Nat.le_refl t.length
  have hlength : (t.drop t.length).length = 0 := by
    rw [length_drop ht h, Nat.sub_self]
  apply eq_of_bits (ended_drop ht h) ended_empty (hlength.trans length_empty.symm)
  rw [bits_drop ht h, Nat.sub_self, Nat.pow_zero, Nat.mod_one, bits_empty]

private theorem full_fields : ∀ n : Fin 32,
    (full (UInt16.ofNat n)).code ≠ 0 ∧ (full (UInt16.ofNat n)).code.toNat < 64 ∧
      (full (UInt16.ofNat n)).length = 5 ∧ (full (UInt16.ofNat n)).bits = n := by
  decide +kernel

private theorem full_spec {n : UInt16} (hn : n.toNat < 32) :
    (full n).code ≠ 0 ∧ (full n).code.toNat < 64 ∧ (full n).length = 5 ∧
      (full n).bits = n.toNat := by
  have h := full_fields ⟨n.toNat, hn⟩
  simpa using h

theorem ended_full {n : UInt16} (hn : n.toNat < 32) : (full n).Ended :=
  ⟨(full_spec hn).1, (full_spec hn).2.1⟩

theorem length_full {n : UInt16} (hn : n.toNat < 32) : (full n).length = 5 :=
  (full_spec hn).2.2.1

theorem bits_full {n : UInt16} (hn : n.toNat < 32) : (full n).bits = n.toNat :=
  (full_spec hn).2.2.2

/-! ## Prefixes -/

private theorem xor_lt_two_pow_iff (x y k : Nat) :
    x ^^^ y < 2 ^ k ↔ x / 2 ^ k = y / 2 ^ k := by
  rw [← Nat.div_eq_zero_iff_lt (Nat.two_pow_pos k), Nat.xor_div_two_pow, xor_eq_zero_iff]

theorem isPrefixOf_iff {t u : Tail} (ht : t.Ended) (hu : u.Ended) :
    t.isPrefixOf u = true ↔ t.length ≤ u.length ∧ u.bits / 2 ^ (u.length - t.length) = t.bits := by
  have htsum := length_add_terminator ht
  have husum := length_add_terminator hu
  simp only [isPrefixOf, Bool.and_eq_true, decide_eq_true_eq, UInt16.toNat_xor, xor_lt_two_pow_iff]
  have hlen : u.terminator ≤ t.terminator ↔ t.length ≤ u.length := by omega
  rw [hlen]
  apply and_congr_right
  intro hle
  have hcut : u.code.toNat / 2 ^ (t.terminator + 1) = u.bits / 2 ^ (u.length - t.length) :=
    (Word.div_two_pow_div _ (by omega)).symm
  rw [hcut]
  exact eq_comm

theorem isPrefixOf_trans {t u v : Tail} (ht : t.Ended) (hu : u.Ended) (hv : v.Ended)
    (htu : t.isPrefixOf u = true) (huv : u.isPrefixOf v = true) : t.isPrefixOf v = true := by
  rw [isPrefixOf_iff ht hu] at htu
  rw [isPrefixOf_iff hu hv] at huv
  rw [isPrefixOf_iff ht hv]
  refine ⟨Nat.le_trans htu.1 huv.1, ?_⟩
  rw [← htu.2, ← huv.2]
  exact (Word.div_two_pow_div _ (by omega)).symm

/-! ## Strings -/

/-- The bits of the string, first to last. -/
def string (t : Tail) : List Bool :=
  (List.range t.length).map fun i => t.code.toNat.testBit (maxLength - i)

theorem length_string (t : Tail) : t.string.length = t.length := by
  simp [string]

theorem getElem_string {t : Tail} (ht : t.Ended) {i : Nat} (hi : i < t.string.length) :
    t.string[i] = t.bits.testBit (t.length - 1 - i) := by
  have hsum := length_add_terminator ht
  have hlen : i < t.length := by rwa [length_string] at hi
  have hplace : maxLength - i = t.length - 1 - i + (t.terminator + 1) := by
    unfold maxLength
    omega
  unfold bits
  rw [Nat.testBit_div_two_pow, ← hplace]
  simp [string]

/-- A tail is a prefix of another exactly if its string is. -/
theorem isPrefixOf_iff_string {t u : Tail} (ht : t.Ended) (hu : u.Ended) :
    t.isPrefixOf u = true ↔ t.string <+: u.string := by
  rw [isPrefixOf_iff ht hu, List.prefix_iff_getElem]
  simp only [getElem_string ht, getElem_string hu, length_string, exists_prop]
  apply and_congr_right
  intro hle
  have hcut (i : Nat) (hi : i < t.length) :
      (u.bits / 2 ^ (u.length - t.length)).testBit (t.length - 1 - i) =
        u.bits.testBit (u.length - 1 - i) := by
    rw [Nat.testBit_div_two_pow]
    congr 1
    omega
  constructor
  · intro h i hi
    rw [← h, hcut i hi]
  · intro h
    have hlt : u.bits / 2 ^ (u.length - t.length) < 2 ^ t.length := by
      apply Nat.div_lt_of_lt_mul
      rw [← Nat.pow_add, Nat.sub_add_cancel hle]
      exact bits_lt hu
    apply Nat.eq_of_testBit_eq
    intro k
    by_cases hk : k < t.length
    · have hbit := h (t.length - 1 - k) (by omega)
      rw [← hcut _ (by omega), show t.length - 1 - (t.length - 1 - k) = k by omega] at hbit
      exact hbit.symm
    · have hpow : 2 ^ t.length ≤ 2 ^ k := Nat.pow_le_pow_right Nat.two_pos (Nat.not_lt.mp hk)
      rw [Nat.testBit_lt_two_pow (Nat.lt_of_lt_of_le hlt hpow),
        Nat.testBit_lt_two_pow (Nat.lt_of_lt_of_le (bits_lt ht) hpow)]

end ApproxSet.Tail
