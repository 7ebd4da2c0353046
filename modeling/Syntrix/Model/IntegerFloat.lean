import Syntrix.Model.NumberOrder

/-! # Integers as floats

An integer token parsed as a float gives the integer rounded to 53 significant bits. The integer itself is
kept exactly when the bits that are rounded away are zero.
-/
namespace Syntrix.Model

open Lib

def droppedBits (n : Nat) : Nat := Nat.log2 n - 52

def roundedInteger (n : Nat) : Nat := roundHalfEven n (2 ^ droppedBits n) * 2 ^ droppedBits n

def FitsBinary64 (v : Int) : Prop := 2 ^ droppedBits v.natAbs ∣ v.natAbs

instance decidableFits (v : Int) : Decidable (FitsBinary64 v) := inferInstanceAs (Decidable (_ ∣ _))

theorem roundHalfEven_of_dvd {n d : Nat} (h : d ∣ n) (hd : 0 < d) : roundHalfEven n d = n / d := by
  have hRest : n % d = 0 := Nat.mod_eq_zero_of_dvd h
  simp only [roundHalfEven, hRest]
  rw [if_neg]
  omega

theorem roundHalfEven_bounds (n d : Nat) : n / d ≤ roundHalfEven n d ∧ roundHalfEven n d ≤ n / d + 1 := by
  simp only [roundHalfEven]
  split <;> omega

theorem roundedInteger_eq_self_iff (n : Nat) : roundedInteger n = n ↔ 2 ^ droppedBits n ∣ n := by
  constructor
  · intro h
    exact ⟨roundHalfEven n (2 ^ droppedBits n), by rw [Nat.mul_comm]; exact h.symm⟩
  · intro h
    rw [roundedInteger, roundHalfEven_of_dvd h (by positivity), Nat.div_mul_cancel h]

theorem toRat_normal (negative : Bool) {leading m : Nat} (hLow : 2 ^ 52 ≤ m) (hHigh : m < 2 ^ 53) (hLeading : leading ≤ 1023) :
    let f : Binary64 := ⟨negative, Fin.ofNat _ (leading + 1023), Fin.ofNat _ (m - 2 ^ 52)⟩
    f.isSpecial = false ∧ f.toRat = (if negative then -1 else 1) * (m * (2 : ℚ) ^ ((leading : ℤ) - 52)) := by
  intro f
  have hExponent : f.exponent.val = leading + 1023 := Nat.mod_eq_of_lt (by omega)
  have hFraction : f.fraction.val = m - 2 ^ 52 := Nat.mod_eq_of_lt (by omega)
  have hNormal : f.exponent ≠ 0 := by
    omega
  refine ⟨?_, ?_⟩
  · refine decide_eq_false fun h => ?_
    omega
  · have hMantissa : (2 : ℚ) ^ 52 + ((m : ℚ) - ((2 ^ 52 : ℕ) : ℚ)) = m := by push_cast; ring
    have hPosition : ((leading + 1023 : ℕ) : ℤ) - 1075 = (leading : ℤ) - 52 := by omega
    rw [Binary64.toRat, if_neg hNormal, hExponent, hFraction, Nat.cast_sub hLow, hMantissa, hPosition]

theorem nearestBinary64_integer {n : Nat} (hPos : 0 < n) (hBound : n ≤ 2 ^ 63) :
    ∃ leading m : Nat, nearestBinary64 n 1 = some (leading + 1023, m - 2 ^ 52) ∧ 2 ^ 52 ≤ m ∧ m < 2 ^ 53 ∧ leading ≤ 1023 ∧
      (m * (2 : ℚ) ^ ((leading : ℤ) - 52)) = roundedInteger n := by
  have hLow : 2 ^ Nat.log2 n ≤ n := Nat.log2_self_le hPos.ne'
  have hHigh : n < 2 ^ (Nat.log2 n + 1) := Nat.lt_log2_self
  have hTop : Nat.log2 n ≤ 63 := (Nat.pow_le_pow_iff_right (by omega)).mp (hLow.trans hBound)
  have hEq : nearestBinary64 n 1 =
      let quantum : Int := Nat.log2 n - 52
      let mantissa := if quantum < 0 then roundHalfEven (n * 2 ^ (-quantum).toNat) 1 else roundHalfEven n (1 * 2 ^ quantum.toNat)
      let rounded := if mantissa = 2 ^ 53 then ((Nat.log2 n : Int) + 1, 2 ^ 52) else ((Nat.log2 n : Int), mantissa)
      if rounded.2 < 2 ^ 52 then some (0, rounded.2)
      else if 1023 < rounded.1 then none
      else some ((rounded.1 + 1023).toNat, rounded.2 - 2 ^ 52) := by
    have hOne : Nat.log2 1 = 0 := by decide
    have hGuess : (Nat.log2 n : Int) - Nat.log2 1 = Nat.log2 n := by omega
    have hLeading : max (Nat.log2 n : Int) (-1022) = Nat.log2 n := by omega
    have hBelow : ¬ n < 1 * 2 ^ Nat.log2 n := by omega
    simp only [nearestBinary64, if_neg hPos.ne', hGuess, if_neg (show ¬ (Nat.log2 n : Int) < 0 by omega), Int.toNat_natCast,
      if_neg hBelow, hLeading]
  by_cases hSmall : Nat.log2 n < 52
  · -- all bits fit: the mantissa is the integer shifted up
    have hShift : 2 ^ Nat.log2 n * 2 ^ (52 - Nat.log2 n) = 2 ^ 52 := by
      rw [← Nat.pow_add]
      congr 1
      omega
    have hLow' : 2 ^ 52 ≤ n * 2 ^ (52 - Nat.log2 n) := by
      rw [← hShift]
      exact Nat.mul_le_mul_right _ hLow
    have hHigh' : n * 2 ^ (52 - Nat.log2 n) < 2 ^ 53 := by
      have hMul := Nat.mul_lt_mul_of_pos_right hHigh (Nat.two_pow_pos (52 - Nat.log2 n))
      rw [Nat.pow_succ] at hMul
      calc n * 2 ^ (52 - Nat.log2 n) < 2 ^ Nat.log2 n * 2 * 2 ^ (52 - Nat.log2 n) := hMul
        _ = 2 * (2 ^ Nat.log2 n * 2 ^ (52 - Nat.log2 n)) := by ring
        _ = 2 ^ 53 := by rw [hShift]; rfl
    refine ⟨Nat.log2 n, n * 2 ^ (52 - Nat.log2 n), ?_, hLow', hHigh', by omega, ?_⟩
    · have hExponent : (-((Nat.log2 n : Int) - 52)).toNat = 52 - Nat.log2 n := by omega
      have hNegative : (Nat.log2 n : Int) - 52 < 0 := by omega
      have hLeading : ¬ 1023 < (Nat.log2 n : Int) := by omega
      have hField : ((Nat.log2 n : Int) + 1023).toNat = Nat.log2 n + 1023 := by omega
      simp only [hEq, if_pos hNegative, hExponent, roundHalfEven_of_dvd (one_dvd _) one_pos, Nat.div_one, if_neg hHigh'.ne,
        if_neg (Nat.not_lt.mpr hLow'), if_neg hLeading, hField]
    · have hNone : droppedBits n = 0 := by unfold droppedBits; omega
      have hPower : (2 : ℚ) ^ (52 - Nat.log2 n) * (2 : ℚ) ^ ((Nat.log2 n : ℤ) - 52) = 1 := by
        rw [← zpow_natCast, ← zpow_add₀ two_ne_zero, Nat.cast_sub hSmall.le]
        simp
      rw [roundedInteger, hNone, pow_zero, roundHalfEven_of_dvd (one_dvd _) one_pos, Nat.div_one, mul_one]
      push_cast
      rw [mul_assoc, hPower, mul_one]
  · -- the low bits are rounded away, which may carry into a new leading bit
    have hDropped : Nat.log2 n = 52 + droppedBits n := by unfold droppedBits; omega
    have hPositive : ¬ (Nat.log2 n : Int) - 52 < 0 := by omega
    have hQuantum : ((Nat.log2 n : Int) - 52).toNat = droppedBits n := by omega
    have hFloor : 2 ^ 52 ≤ n / 2 ^ droppedBits n ∧ n / 2 ^ droppedBits n < 2 ^ 53 := by
      rw [Nat.le_div_iff_mul_le (Nat.two_pow_pos _), Nat.div_lt_iff_lt_mul (Nat.two_pow_pos _), ← Nat.pow_add, ← Nat.pow_add]
      rw [hDropped] at hLow hHigh
      refine ⟨hLow, ?_⟩
      rwa [show 53 + droppedBits n = 52 + droppedBits n + 1 by omega]
    obtain ⟨hRoundLow, hRoundHigh⟩ := roundHalfEven_bounds n (2 ^ droppedBits n)
    have hPower : ∀ k : Nat, (2 : ℚ) ^ (((52 + droppedBits n + k : ℕ) : ℤ) - 52) = 2 ^ droppedBits n * 2 ^ k := by
      intro k
      rw [← pow_add, ← zpow_natCast]
      congr 1
      push_cast
      ring
    by_cases hCarry : roundHalfEven n (2 ^ droppedBits n) = 2 ^ 53
    · refine ⟨Nat.log2 n + 1, 2 ^ 52, ?_, le_refl _, by omega, by omega, ?_⟩
      · have hLeading : ¬ 1023 < (Nat.log2 n : Int) + 1 := by omega
        have hField : ((Nat.log2 n : Int) + 1 + 1023).toNat = Nat.log2 n + 1 + 1023 := by omega
        simp only [hEq, if_neg hPositive, hQuantum, Nat.one_mul, if_pos hCarry, if_neg (lt_irrefl _), if_neg hLeading, hField]
      · rw [roundedInteger, hCarry, hDropped, hPower 1]
        push_cast
        ring
    · refine ⟨Nat.log2 n, roundHalfEven n (2 ^ droppedBits n), ?_, by omega, by omega, by omega, ?_⟩
      · have hLeading : ¬ 1023 < (Nat.log2 n : Int) := by omega
        have hField : ((Nat.log2 n : Int) + 1023).toNat = Nat.log2 n + 1023 := by omega
        have hNormal : ¬ roundHalfEven n (2 ^ droppedBits n) < 2 ^ 52 := by omega
        simp only [hEq, if_neg hPositive, hQuantum, Nat.one_mul, if_neg hCarry, if_neg hNormal, if_neg hLeading, hField]
      · have hValue := hPower 0
        rw [Nat.add_zero, pow_zero, mul_one] at hValue
        rw [roundedInteger, hDropped, hValue]
        push_cast
        rfl

namespace JSONNumber

def isInteger (n : JSONNumber) : Bool := n.fraction.isNone && n.exponent.isNone

variable {n : JSONNumber}

theorem int64_eq_ok {v : Int64} (h : n.int64 = .ok v) :
    v.toInt = (if n.negative then -1 else 1) * (digitsValue n.whole : Int) ∧ digitsValue n.whole ≤ 2 ^ 63 := by
  unfold int64 at h
  have hSigned : (if n.negative = true then -(digitsValue n.whole : Int) else (digitsValue n.whole : Int)) =
      (if n.negative then -1 else 1) * (digitsValue n.whole : Int) := by
    split <;> ring
  rw [hSigned] at h
  obtain ⟨hRange, h⟩ := guard_eq_ok h
  obtain rfl := Except.ok.inj h
  exact ⟨Int64.toInt_ofInt_of_le (by omega) (by omega), by omega⟩

theorem float64_integer (hInteger : n.isInteger = true) (hBound : digitsValue n.whole ≤ 2 ^ 63) :
    ∃ f, n.float64 = .ok f ∧ f.isSpecial = false ∧ f.toRat = (if n.negative then -1 else 1) * (roundedInteger (digitsValue n.whole) : ℚ) := by
  obtain ⟨hFraction, hExponent⟩ := Bool.and_eq_true_iff.mp hInteger
  rw [Option.isNone_iff_eq_none] at hFraction hExponent
  have hFloat : ∀ e f, nearestBinary64 (digitsValue n.whole) 1 = some (e, f) →
      n.float64 = .ok ⟨n.negative, Fin.ofNat _ e, Fin.ofNat _ f⟩ := by
    intro e f hNearest
    simp only [float64, hFraction, hExponent, Option.getD_none, List.append_nil, List.length_nil, Nat.cast_zero, sub_zero,
      if_neg (lt_irrefl (0 : Int)), Int.toNat_zero, pow_zero, Nat.mul_one, hNearest]
  rcases Nat.eq_zero_or_pos (digitsValue n.whole) with hZero | hPos
  · refine ⟨⟨n.negative, 0, 0⟩, ?_, rfl, ?_⟩
    · exact hFloat 0 0 (by rw [hZero]; rfl)
    · rw [hZero]
      simp [Binary64.toRat, roundedInteger, roundHalfEven]
  · obtain ⟨leading, m, hNearest, hLow, hHigh, hLeading, hValue⟩ := nearestBinary64_integer hPos hBound
    obtain ⟨hFinite, hRat⟩ := toRat_normal n.negative hLow hHigh hLeading
    refine ⟨_, hFloat _ _ hNearest, hFinite, ?_⟩
    rw [hRat, hValue]

theorem float64_exact_iff {v : Int64} (hInteger : n.isInteger = true) (h : n.int64 = .ok v) :
    ∃ f, n.float64 = .ok f ∧ f.isSpecial = false ∧ (f.toRat = v.toInt ↔ FitsBinary64 v.toInt) := by
  obtain ⟨hValue, hBound⟩ := int64_eq_ok h
  obtain ⟨f, hFloat, hFinite, hRat⟩ := float64_integer hInteger hBound
  refine ⟨f, hFloat, hFinite, ?_⟩
  have hAbs : v.toInt.natAbs = digitsValue n.whole := by
    rw [hValue]
    split <;> omega
  have hSigned : (v.toInt : ℚ) = (if n.negative then -1 else 1) * (digitsValue n.whole : ℚ) := by
    rw [hValue]
    split <;> push_cast <;> ring
  rw [FitsBinary64, hAbs, ← roundedInteger_eq_self_iff, hRat, hSigned]
  cases n.negative with
  | true => simp
  | false => simp

end JSONNumber

end Syntrix.Model
