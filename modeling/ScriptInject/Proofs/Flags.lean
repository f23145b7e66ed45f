import Mathlib.Algebra.Order.Field.Power
import Mathlib.Data.Rat.Cast.Order
import Mathlib.Tactic.NormNum
import Mathlib.Tactic.Positivity
import ScriptInject.Target.Argument
/-! Numbers that stand for flags: a number in plain decimal notation stands for a flag that is not
set if double precision rounds it to zero, and any other number for one that is. -/
namespace ScriptInject

namespace Decimal

variable {c : Char} {cs ds : List Char} {d : Decimal}

theorem natOfDigits_append_singleton (cs : List Char) (c : Char) :
    natOfDigits (cs ++ [c]) = 10 * natOfDigits cs + (c.toNat - '0'.toNat) := by
  simp [natOfDigits]

theorem toNat_sub_le_of_isDigit (hc : c.isDigit = true) : c.toNat - '0'.toNat ≤ 9 := by
  simp only [Char.isDigit, Bool.and_eq_true, decide_eq_true_eq, UInt32.le_iff_toNat_le] at hc
  have hle : c.toNat ≤ 57 := hc.2
  have hzero : '0'.toNat = 48 := rfl
  omega

theorem toNat_sub_eq_zero_iff (hc : c.isDigit = true) : c.toNat - '0'.toNat = 0 ↔ c = '0' := by
  simp only [Char.isDigit, Bool.and_eq_true, decide_eq_true_eq, UInt32.le_iff_toNat_le] at hc
  have hle : 48 ≤ c.toNat := hc.1
  have hzero : '0'.toNat = 48 := rfl
  rw [← Char.toNat_inj]
  omega

theorem natOfDigits_lt (h : ∀ c ∈ cs, c.isDigit = true) : natOfDigits cs < 10 ^ cs.length := by
  induction cs using List.reverseRecOn with
  | nil => exact Nat.one_pos
  | append_singleton cs c ih =>
    have hcs := ih fun e he => h e (by simp [he])
    have hc := toNat_sub_le_of_isDigit (h c (by simp))
    rw [natOfDigits_append_singleton, List.length_append, List.length_singleton, pow_succ]
    omega

theorem natOfDigits_eq_zero_iff (h : ∀ c ∈ cs, c.isDigit = true) :
    natOfDigits cs = 0 ↔ ∀ c ∈ cs, c = '0' := by
  induction cs using List.reverseRecOn with
  | nil => simp [natOfDigits]
  | append_singleton cs c ih =>
    have hcs := ih fun e he => h e (by simp [he])
    have hc := toNat_sub_eq_zero_iff (h c (by simp))
    rw [natOfDigits_append_singleton, List.forall_mem_append, List.forall_mem_singleton, ← hcs,
      ← hc]
    omega

/-- The number that is written. -/
def value (d : Decimal) : ℚ := natOfDigits d.digits * 10 ^ d.exponent

/-- What is read is a mantissa, perhaps with a point, and perhaps an exponent. -/
theorem ofText?_eq_some (h : ofText? cs = some d) : ∃ whole point fraction scale,
    cs = whole ++ point ++ fraction ++ scale ∧ d.digits = whole ++ fraction ∧
    (∀ c ∈ whole ++ fraction, c.isDigit = true) ∧ (point = [] ∨ point = ['.']) ∧
    (scale = [] ∨ ∃ e es n, scale = e :: es ∧ (e = 'e' ∨ e = 'E') ∧ exponent? es = some n) := by
  have hrun (ds : List Char) : ∀ c ∈ ds.takeWhile Char.isDigit, c.isDigit = true :=
    fun c hc => List.all_eq_true.mp List.all_takeWhile c hc
  have hwhole := hrun cs
  obtain ⟨rest, hcs⟩ := List.takeWhile_prefix Char.isDigit (l := cs)
  unfold ofText? at h
  generalize cs.takeWhile Char.isDigit = whole at h hwhole hcs
  subst hcs
  simp only [List.drop_left] at h
  split at h
  · rename_i rest
    have hmantissa := List.forall_mem_append.mpr ⟨hwhole, hrun rest⟩
    have hrest : rest = rest.takeWhile Char.isDigit ++ rest.dropWhile Char.isDigit := by simp
    dsimp only at h
    generalize rest.takeWhile Char.isDigit = fraction at h hmantissa hrest
    generalize rest.dropWhile Char.isDigit = scale at h hrest
    subst hrest
    split at h
    · cases h
    split at h
    · obtain rfl := Option.some.inj h
      exact ⟨whole, ['.'], fraction, [], by simp, rfl, hmantissa, .inr rfl, .inl rfl⟩
    · rename_i e es
      split at h
      · rename_i he
        obtain ⟨n, hn, rfl⟩ := Option.map_eq_some_iff.mp h
        exact ⟨whole, ['.'], fraction, e :: es, by simp, rfl, hmantissa, .inr rfl,
          .inr ⟨e, es, n, rfl, by simpa using he, hn⟩⟩
      · cases h
  · have hmantissa : ∀ c ∈ whole ++ [], c.isDigit = true := by simpa using hwhole
    dsimp only at h
    split at h
    · cases h
    split at h
    · obtain rfl := Option.some.inj h
      exact ⟨whole, [], [], [], by simp, rfl, hmantissa, .inl rfl, .inl rfl⟩
    · rename_i e es _
      split at h
      · rename_i he
        obtain ⟨n, hn, rfl⟩ := Option.map_eq_some_iff.mp h
        exact ⟨whole, [], [], e :: es, by simp, rfl, hmantissa, .inl rfl,
          .inr ⟨e, es, n, rfl, by simpa using he, hn⟩⟩
      · cases h

/-- The mantissa is written in digits. -/
theorem isDigit_of_ofText? (h : ofText? cs = some d) : ∀ c ∈ d.digits, c.isDigit = true := by
  obtain ⟨whole, point, fraction, scale, -, hdigits, hmantissa, -⟩ := ofText?_eq_some h
  rwa [hdigits]

/-- The characters of a number in plain decimal notation. -/
def isPart (c : Char) : Bool := c.isDigit || ".eE+-".toList.contains c

theorem isPart_of_isDigit (h : c.isDigit = true) : isPart c = true := by simp [isPart, h]

theorem isPart_of_exponent? {n : Int} (h : exponent? cs = some n) : ∀ c ∈ cs, isPart c = true := by
  have hsigned {ds : List Char} {b : Bool}
      (h : (if (!ds.isEmpty && ds.all Char.isDigit) = true then
        some (if b = true then -(natOfDigits ds : Int) else natOfDigits ds) else none) = some n) :
      ∀ c ∈ ds, isPart c = true := by
    split at h
    · rename_i hall
      rw [Bool.and_eq_true] at hall
      exact fun c hc => isPart_of_isDigit (List.all_eq_true.mp hall.2 c hc)
    · cases h
  cases cs with
  | nil => simp
  | cons c cs =>
    rw [exponent?] at h
    by_cases hminus : c = '-'
    · subst hminus
      exact List.forall_mem_cons.mpr ⟨by decide, hsigned h⟩
    by_cases hplus : c = '+'
    · subst hplus
      exact List.forall_mem_cons.mpr ⟨by decide, hsigned h⟩
    · simp only [beq_iff_eq, hminus, hplus, if_false] at h
      exact hsigned h

/-- Nothing but a number in plain decimal notation is read. -/
theorem isPart_of_ofText? (h : ofText? cs = some d) : ∀ c ∈ cs, isPart c = true := by
  obtain ⟨whole, point, fraction, scale, rfl, -, hmantissa, hpoint, hscale⟩ := ofText?_eq_some h
  simp only [List.mem_append]
  rintro c (((hc | hc) | hc) | hc)
  · exact isPart_of_isDigit (hmantissa c (by simp [hc]))
  · rcases hpoint with rfl | rfl
    · simp at hc
    · rw [List.mem_singleton.mp hc]
      decide
  · exact isPart_of_isDigit (hmantissa c (by simp [hc]))
  · rcases hscale with rfl | ⟨e, es, n, rfl, he, hes⟩
    · simp at hc
    · rcases List.mem_cons.mp hc with rfl | hc
      · rcases he with rfl | rfl <;> decide
      · exact isPart_of_exponent? hes c hc

/-- With a negative exponent, the comparison is one of natural numbers. -/
theorem value_le_iff {k : Nat} (hk : d.exponent = -(k : Int)) :
    d.value ≤ (2 ^ 1075 : ℚ)⁻¹ ↔ natOfDigits d.digits * 2 ^ 1075 ≤ 10 ^ k := by
  rw [value, hk, zpow_neg, zpow_natCast, ← div_eq_mul_inv, div_le_iff₀ (by positivity),
    inv_mul_eq_div, le_div_iff₀ (by positivity)]
  exact_mod_cast Iff.rfl

/-- What is left out of the calculation is too small for it to matter. -/
theorem isZero_iff (h : ∀ c ∈ d.digits, c.isDigit = true) :
    d.isZero = true ↔ d.value ≤ (2 ^ 1075 : ℚ)⁻¹ := by
  have hlimit : (0 : ℚ) ≤ (2 ^ 1075 : ℚ)⁻¹ := by positivity
  unfold isZero
  dsimp only
  by_cases hm : natOfDigits d.digits = 0
  · have hvalue : d.value = 0 := by simp [value, hm]
    simp only [hm, if_true, hvalue, hlimit]
  rw [if_neg hm]
  by_cases hexp : 0 ≤ d.exponent
  · -- At least one, and so no rounding takes it to zero.
    have hone : 1 ≤ d.value := by
      have hpow : (1 : ℚ) ≤ 10 ^ d.exponent := one_le_zpow₀ (by norm_num) hexp
      have hnat : (1 : ℚ) ≤ natOfDigits d.digits := by exact_mod_cast Nat.one_le_iff_ne_zero.mpr hm
      exact one_le_mul_of_one_le_of_one_le hnat hpow
    have hlt : (2 ^ 1075 : ℚ)⁻¹ < 1 :=
      inv_lt_one_of_one_lt₀ (one_lt_pow₀ (by norm_num) (by norm_num))
    simp only [hexp, if_true, Bool.false_eq_true, false_iff, not_le]
    exact hlt.trans_le hone
  · rw [if_neg hexp]
    generalize hk : (-d.exponent).toNat = k
    rw [value_le_iff (k := k) (by omega)]
    split
    · have hlt := natOfDigits_lt h
      have hpow : 2 ^ 1075 ≤ 10 ^ 400 := by decide +kernel
      have hle : natOfDigits d.digits * 2 ^ 1075 ≤ 10 ^ k :=
        calc natOfDigits d.digits * 2 ^ 1075
            ≤ 10 ^ d.digits.length * 10 ^ 400 := Nat.mul_le_mul hlt.le hpow
          _ = 10 ^ (d.digits.length + 400) := (pow_add ..).symm
          _ ≤ 10 ^ k := Nat.pow_le_pow_right (by norm_num) (by omega)
      exact iff_of_true rfl hle
    · generalize 1075 = e
      exact decide_eq_true_iff

end Decimal

namespace Target

variable {text : String} {d : Decimal}

/-- A flag that a number does not set is written in plain decimal notation, and is no more than half
of the smallest number of double precision. -/
theorem isSet_eq_false_iff : isSet text = false ↔
    ∃ d, Decimal.ofText? text.toList = some d ∧ d.value ≤ (2 ^ 1075 : ℚ)⁻¹ := by
  unfold isSet
  cases hd : Decimal.ofText? text.toList with
  | none => simp
  | some d => simp [← Decimal.isZero_iff (Decimal.isDigit_of_ofText? hd)]

/-- Where the exponent is not extreme, the digits of the mantissa tell. -/
theorem isSet_eq_false_iff_digits (hd : Decimal.ofText? text.toList = some d)
    (hexp : -323 ≤ d.exponent) : isSet text = false ↔ ∀ c ∈ d.digits, c = '0' := by
  rw [isSet_eq_false_iff, ← Decimal.natOfDigits_eq_zero_iff (Decimal.isDigit_of_ofText? hd)]
  constructor
  · rintro ⟨e, he, hle⟩
    obtain rfl := Option.some.inj (hd.symm.trans he)
    by_contra hm
    have hpow : (10 ^ 323 : ℚ) < 2 ^ 1075 := by
      exact_mod_cast (by decide +kernel : 10 ^ 323 < 2 ^ 1075)
    have hone : (1 : ℚ) ≤ Decimal.natOfDigits d.digits := by
      exact_mod_cast Nat.one_le_iff_ne_zero.mpr hm
    have hlt : (2 ^ 1075 : ℚ)⁻¹ < d.value :=
      calc (2 ^ 1075 : ℚ)⁻¹ < (10 ^ 323 : ℚ)⁻¹ := inv_strictAnti₀ (by positivity) hpow
        _ = 10 ^ (-323 : Int) := by rw [zpow_neg]; rfl
        _ ≤ 10 ^ d.exponent := zpow_le_zpow_right₀ (by norm_num) hexp
        _ ≤ d.value := le_mul_of_one_le_left (by positivity) hone
    exact absurd hle hlt.not_ge
  · intro hm
    refine ⟨d, hd, ?_⟩
    rw [Decimal.value, hm, Nat.cast_zero, zero_mul]
    positivity

/-- What has a character of another notation in it sets the flag, whatever its digits are. -/
theorem isSet_of_mem {c : Char} (hc : c ∈ text.toList) (hpart : Decimal.isPart c = false) :
    isSet text = true := by
  cases hset : isSet text with
  | true => rfl
  | false =>
    obtain ⟨d, hd, -⟩ := isSet_eq_false_iff.mp hset
    have := Decimal.isPart_of_ofText? hd c hc
    simp [hpart] at this

example : isSet "0.00" = false ∧ isSet "0x0" = true ∧ isSet "0kb" = true := by decide

end Target

end ScriptInject
