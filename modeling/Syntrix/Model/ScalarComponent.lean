import Syntrix.Model.ScalarOrder

/-! # Scalar keys encode the values of scalars

Every representation of a number reaches the key through a significand and an exponent that keep
its exact value, so the key of an admitted scalar encodes the component the scalar stands for.
-/
namespace Syntrix.Model

open Lib OrderCode Nat Fin

inductive Component.Encodes : Component → Bytes → Prop
  | missing : Encodes .missing [0x01]
  | null : Encodes .null [0x10]
  | false : Encodes (.bool false) [0x20]
  | true : Encodes (.bool true) [0x30]
  | number (p : NumberParts) : p.Valid → Encodes (.number p.toRat) (numberKey p)
  | text (s : Bytes) : Encodes (.text s) (0x50 :: s)

theorem Component.Encodes.wordCmp_eq {a b : Component} {x y : Bytes} (hx : a.Encodes x)
    (hy : b.Encodes y) : wordCmp x y = a.compare b := by
  cases hx with
  | number p hp =>
    obtain ⟨rest, hp'⟩ := numberKey_cons p
    cases hy with
    | number q hq => exact wordCmp_numberKey hp hq
    | missing | null | false | true | text => rw [hp']; rfl
  | missing | null | false | true =>
    cases hy with
    | number q hq => obtain ⟨rest, hq'⟩ := numberKey_cons q; rw [hq']; rfl
    | missing | null | false | true | text => rfl
  | text s =>
    cases hy with
    | number q hq => obtain ⟨rest, hq'⟩ := numberKey_cons q; rw [hq']; rfl
    | text t => rw [wordCmp_cons_cons, cmp_self_eq_eq]; rfl
    | missing | null | false | true => rfl

variable {n : Nat}

theorem pow_bitLen_le (h : n ≠ 0) : 2 ^ (bitLen n - 1) ≤ n := by
  rw [bitLen, if_neg h]
  exact log2_self_le h

theorem lt_pow_bitLen (n : Nat) : n < 2 ^ bitLen n := by
  by_cases h : n = 0
  · subst h; decide
  · rw [bitLen, if_neg h]
    exact lt_log2_self

theorem bitLen_pos (h : n ≠ 0) : 1 ≤ bitLen n := by
  rw [bitLen, if_neg h]
  omega

theorem bitLen_le {n k : Nat} (h : n < 2 ^ k) : bitLen n ≤ k := by
  by_cases hn : n = 0
  · subst hn; exact zero_le k
  · rw [bitLen, if_neg hn]
    exact (log2_lt hn).mpr h

theorem bitLen_of_bounds {n k : Nat} (hLow : 2 ^ k ≤ n) (hHigh : n < 2 ^ (k + 1)) : bitLen n = k + 1 := by
  apply le_antisymm (bitLen_le hHigh)
  by_contra hLt
  have hStep : 2 ^ bitLen n ≤ 2 ^ k := Nat.pow_le_pow_right (by norm_num) (by omega)
  have := lt_pow_bitLen n
  omega

/-- The parts of `n · 2^scale` with the top bit of the significand set. -/
def scaledParts (negative : Bool) (n : Nat) (scale : Int) : NumberParts :=
  ⟨negative, n * 2 ^ (64 - bitLen n), scale + bitLen n - 1⟩

theorem scaledParts_magnitude (hn : n < 2 ^ 64) (negative : Bool) (scale : Int) :
    (scaledParts negative n scale).magnitude = n * (2 : ℚ) ^ scale := by
  have hLen := bitLen_le hn
  have hShift : (2 : ℚ) ^ (64 - bitLen n) = (2 : ℚ) ^ ((64 : ℤ) - bitLen n) := by
    rw [← zpow_natCast, cast_sub hLen]
    rfl
  rw [NumberParts.magnitude, scaledParts]
  push_cast
  rw [hShift, mul_assoc, ← zpow_add₀ (by norm_num)]
  congr 2
  ring

theorem scaledParts_valid (hn : n < 2 ^ 64) (negative : Bool) {scale : Int} (hMin : -1074 ≤ scale)
    (hMax : scale + bitLen n ≤ 1024) : (scaledParts negative n scale).Valid := by
  by_cases h0 : n = 0
  · exact .inl (by simp [scaledParts, h0])
  have hLen := bitLen_le hn
  have hPos := bitLen_pos h0
  refine .inr ⟨?_, ?_, ?_, ?_⟩
  · calc 2 ^ 63 = 2 ^ (bitLen n - 1) * 2 ^ (64 - bitLen n) := by
          rw [← pow_add]
          congr 1
          omega
      _ ≤ n * 2 ^ (64 - bitLen n) := mul_le_mul_right _ (pow_bitLen_le h0)
  · calc n * 2 ^ (64 - bitLen n) < 2 ^ bitLen n * 2 ^ (64 - bitLen n) :=
          Nat.mul_lt_mul_of_pos_right (lt_pow_bitLen n) (Nat.pow_pos (by norm_num))
      _ = 2 ^ 64 := by
          rw [← pow_add]
          congr 1
          omega
  all_goals
    simp only [scaledParts]
    omega

theorem integerParts_spec (v : Int64) : (integerParts v).Valid ∧ (integerParts v).toRat = (v.toInt : ℚ) := by
  have hMin := Int64.le_toInt v
  have hMax := Int64.toInt_lt v
  generalize hMag : v.toInt.natAbs = n
  have hn : n < 2 ^ 64 := by omega
  have hParts : integerParts v = if n ≠ 0 then scaledParts (decide (v.toInt < 0)) n 0
      else ⟨decide (v.toInt < 0), 0, 0⟩ := by
    have hMagnitude : (if decide (v.toInt < 0) = true then (-(v.toInt + 1)).toNat + 1
        else v.toInt.toNat) = n := by
      split
      · rename_i hNeg
        have := of_decide_eq_true hNeg
        omega
      · rename_i hNeg
        have : ¬ v.toInt < 0 := fun h => hNeg (decide_eq_true h)
        omega
    unfold integerParts
    simp only [hMagnitude, scaledParts, zero_add]
  rw [hParts]
  split
  · refine ⟨scaledParts_valid hn _ (by norm_num) (by have := bitLen_le hn; omega), ?_⟩
    rw [NumberParts.toRat, scaledParts_magnitude hn, zpow_zero, mul_one]
    by_cases hNeg : v.toInt < 0
    · have hCast : (v.toInt : ℚ) = -(n : ℚ) := by
        have : v.toInt = -(n : ℤ) := by omega
        rw [this]
        rfl
      simp [scaledParts, hNeg, hCast]
    · have hCast : (v.toInt : ℚ) = (n : ℚ) := by
        have : v.toInt = (n : ℤ) := by omega
        rw [this]
        rfl
      simp [scaledParts, hNeg, hCast]
  · have hZero : v.toInt = 0 := by omega
    exact ⟨.inl rfl, by simp [NumberParts.toRat, NumberParts.magnitude, hZero]⟩

theorem Binary64.absBits_mod (f : Binary64) : f.absBits % 2 ^ 52 = f.fraction.val := by
  rw [absBits]
  omega

theorem Binary64.absBits_div (f : Binary64) : f.absBits / 2 ^ 52 % 2 ^ 11 = f.exponent.val := by
  rw [absBits]
  omega

variable {f : Binary64}

theorem floatParts_of_nonzero (h : f.isZero = false) :
    floatParts f = if f.exponent = 0 then scaledParts f.negative f.fraction.val (-1074)
      else scaledParts f.negative (2 ^ 52 + f.fraction.val) (f.exponent.val - 1075) := by
  simp only [floatParts, f.absBits_mod, f.absBits_div, h, Bool.not_false, Bool.and_true]
  by_cases he : f.exponent = 0
  · have hf : f.fraction.val ≠ 0 := by
      intro hf
      have : f.fraction = 0 := Fin.ext hf
      simp [Binary64.isZero, he, this] at h
    simp [he, hf, scaledParts]
  · have he' : f.exponent.val ≠ 0 := fun hv => he (Fin.ext hv)
    have hLen : bitLen (2 ^ 52 + f.fraction.val) = 53 := bitLen_of_bounds (by omega) (by omega)
    simp only [he, he', if_false, scaledParts, hLen, NumberParts.mk.injEq, true_and]
    ring

theorem floatParts_spec (h : f.isSpecial = false) : (floatParts f).Valid ∧ (floatParts f).toRat = f.toRat := by
  have hFraction := f.fraction.isLt
  cases hZero : f.isZero with
  | true =>
    obtain ⟨he, hf⟩ : f.exponent = 0 ∧ f.fraction = 0 := by
      simpa [Binary64.isZero] using hZero
    have hParts : floatParts f = ⟨false, 0, 0⟩ := by
      simp only [floatParts, f.absBits_mod, f.absBits_div, hZero]
      simp [he, hf]
    rw [hParts]
    exact ⟨.inl rfl, by simp [NumberParts.toRat, NumberParts.magnitude, Binary64.toRat, he, hf]⟩
  | false =>
    have hMax : f.exponent.val ≤ 2046 := by
      have hNe : f.exponent.val ≠ 2047 := by
        intro hv
        have : f.exponent = 2047 := Fin.ext hv
        simp [Binary64.isSpecial, this] at h
      omega
    rw [floatParts_of_nonzero hZero]
    split
    · rename_i he
      have hLen := bitLen_le hFraction
      refine ⟨scaledParts_valid (by omega) _ (by omega) (by omega), ?_⟩
      rw [NumberParts.toRat, scaledParts_magnitude (by omega), Binary64.toRat, if_pos he]
      cases f.negative <;> simp [scaledParts]
    · rename_i he
      have hLen : bitLen (2 ^ 52 + f.fraction.val) ≤ 53 := bitLen_le (by omega)
      refine ⟨scaledParts_valid (by omega) _ (by omega) (by omega), ?_⟩
      rw [NumberParts.toRat, scaledParts_magnitude (by omega), Binary64.toRat, if_neg he]
      cases f.negative <;> norm_num [scaledParts]

theorem Binary32.toBinary64_isSpecial (f : Binary32) : f.toBinary64.isSpecial = decide (f.exponent = 255) := by
  have hFraction := f.fraction.isLt
  unfold toBinary64
  split
  · rename_i h
    simp [Binary64.isSpecial, h]
  rename_i h
  split
  · split
    · simp [Binary64.isSpecial, h]
    rename_i hf
    have hLog : log2 f.fraction.val < 23 :=
      (log2_lt (fun hv => hf (Fin.ext hv))).mpr hFraction
    simp only [Binary64.isSpecial, h, decide_false, decide_eq_false_iff_not]
    intro hEq
    have := congrArg val hEq
    simp only [Fin.ofNat] at this
    omega
  · simp only [Binary64.isSpecial, h, decide_false, decide_eq_false_iff_not]
    intro hEq
    have := congrArg val hEq
    simp only [Fin.ofNat] at this
    omega

theorem subnormal_mantissa_lt (h : n ≠ 0) (hn : n < 2 ^ 23) : (n - 2 ^ log2 n) * 2 ^ (52 - log2 n) < 2 ^ 52 := by
  have hLog : log2 n < 23 := (log2_lt h).mpr hn
  have hHigh : n < 2 ^ log2 n * 2 := lt_log2_self.trans_eq (pow_succ 2 _)
  calc (n - 2 ^ log2 n) * 2 ^ (52 - log2 n) < 2 ^ log2 n * 2 ^ (52 - log2 n) :=
        Nat.mul_lt_mul_of_pos_right (by omega) (Nat.pow_pos (by norm_num))
    _ = 2 ^ 52 := by
        rw [← pow_add]
        congr 1
        omega

theorem subnormal_widening (h : n ≠ 0) (hn : n < 2 ^ 23) :
    ((2 ^ 52 + ((n - 2 ^ log2 n) * 2 ^ (52 - log2 n) : Nat) : ℚ)) * 2 ^ ((874 + log2 n : ℤ) - 1075) = n * 2 ^ (-149 : ℤ) := by
  have hLow := log2_self_le h
  have hLog : log2 n < 23 := (log2_lt h).mpr hn
  generalize log2 n = k at hLow hLog
  have hShift : (2 : ℚ) ^ (52 - k) = (2 : ℚ) ^ ((52 : ℤ) - k) := by
    rw [← zpow_natCast, cast_sub (by omega)]
    rfl
  have hTop : (2 : ℚ) ^ 52 = 2 ^ k * 2 ^ (52 - k) := by
    rw [← pow_add]
    congr 1
    omega
  rw [cast_mul, cast_sub hLow]
  push_cast
  rw [hTop, ← add_mul, add_sub_cancel, hShift, mul_assoc, ← zpow_add₀ (by norm_num)]
  congr 2
  ring

theorem normal_widening (n e : Nat) :
    (2 ^ 52 + (n * 2 ^ 29 : Nat) : ℚ) * 2 ^ (((e + 896 : Nat) : ℤ) - 1075) = (2 ^ 23 + n) * 2 ^ ((e : ℤ) - 150) := by
  have hMantissa : (2 ^ 52 + (n * 2 ^ 29 : Nat) : ℚ) = (2 ^ 23 + n) * 2 ^ (29 : ℤ) := by
    push_cast
    ring
  have hExponent : ((e : ℤ) - 150) = 29 + (((e + 896 : Nat) : ℤ) - 1075) := by
    push_cast
    ring
  rw [hMantissa, hExponent, zpow_add₀ (by norm_num), mul_assoc]

theorem Binary32.toBinary64_toRat {f : Binary32} (h : f.exponent ≠ 255) : f.toBinary64.toRat = f.toRat := by
  have hFraction := f.fraction.isLt
  rw [toRat, toBinary64, if_neg h]
  split
  · split
    · rename_i hf
      simp [Binary64.toRat, hf]
    rename_i hf
    have hf' : f.fraction.val ≠ 0 := fun hv => hf (Fin.ext hv)
    have hLog : log2 f.fraction.val < 23 := (log2_lt hf').mpr hFraction
    have hField : (874 + log2 f.fraction.val) % 2048 = 874 + log2 f.fraction.val :=
      mod_eq_of_lt (by omega)
    have hNe : (Fin.ofNat 2048 (874 + log2 f.fraction.val)) ≠ 0 := by
      intro hv
      have := congrArg val hv
      simp only [Fin.ofNat, hField] at this
      omega
    rw [Binary64.toRat, if_neg hNe]
    simp only [Fin.ofNat, hField, mod_eq_of_lt (subnormal_mantissa_lt hf' hFraction)]
    congr 1
    have hWiden := subnormal_widening hf' hFraction
    exact hWiden
  · have hField : (f.exponent.val + 896) % 2048 = f.exponent.val + 896 := mod_eq_of_lt (by omega)
    have hMantissa : f.fraction.val * 2 ^ 29 % 2 ^ 52 = f.fraction.val * 2 ^ 29 :=
      mod_eq_of_lt (by omega)
    have hNe : (Fin.ofNat 2048 (f.exponent.val + 896)) ≠ 0 := by
      intro hv
      have := congrArg Fin.val hv
      simp only [Fin.ofNat, hField] at this
      omega
    rw [Binary64.toRat, if_neg hNe]
    simp only [Fin.ofNat, hField, hMantissa]
    rw [normal_widening]

/-- The component a scalar stands for; containers and values of no family stand for none. -/
def component : Value → Option Component
  | .null => some .null
  | .bool b => some (.bool b)
  | .string s => some (.text s)
  | .int v => some (.number v.toInt)
  | .float32 f => some (.number f.toRat)
  | .float64 f => some (.number f.toRat)
  | .jsonNumber n =>
    if n.fraction.isNone && n.exponent.isNone then n.int64.toOption.map fun v => .number v.toInt
    else n.float64.toOption.map fun f => .number f.toRat
  | .array _ | .object _ | .unsupported => none

theorem integer_encodes (v : Int64) : (Component.number v.toInt).Encodes (numberKey (integerParts v)) := by
  obtain ⟨hValid, hRat⟩ := integerParts_spec v
  rw [← hRat]
  exact .number _ hValid

theorem normalizeFloat_key {key : Bytes}
    (h : (normalizeFloat f).bind normalizedKey = .ok key) : (Component.number f.toRat).Encodes key := by
  unfold normalizeFloat at h
  split at h
  · cases h
  rename_i hSpecial
  have hFinite : f.isSpecial = false := by simpa using hSpecial
  obtain ⟨hValid, hRat⟩ := floatParts_spec hFinite
  split at h
  · rename_i hZero
    obtain ⟨he, hf⟩ : f.exponent = 0 ∧ f.fraction = 0 := by
      simpa [Binary64.isZero] using hZero
    obtain ⟨hValid0, hRat0⟩ := floatParts_spec (f := .zero) (by decide)
    have hEq : f.toRat = (floatParts .zero).toRat := by
      rw [hRat0]
      simp [Binary64.toRat, Binary64.zero, he, hf]
    have hKey : numberKey (floatParts .zero) = key := Except.ok.inj h
    rw [hEq, ← hKey]
    exact .number _ hValid0
  · cases h
    rw [← hRat]
    exact .number _ hValid

theorem scalarKey_encodes {v : Value} {key : Bytes} (h : scalarKey v = .ok key) :
    ∃ c, component v = some c ∧ c.Encodes key := by
  cases v with
  | null => cases h; exact ⟨_, rfl, .null⟩
  | bool b => cases b <;> cases h; exacts [⟨_, rfl, .false⟩, ⟨_, rfl, .true⟩]
  | string s =>
    simp only [scalarKey, normalizeValue] at h
    split at h
    · cases h; exact ⟨_, rfl, .text s⟩
    · cases h
  | int v => cases h; exact ⟨_, rfl, integer_encodes v⟩
  | float32 f =>
    have hFinite : f.exponent ≠ 255 := by
      intro he
      have hSpecial : f.toBinary64.isSpecial = true := by rw [f.toBinary64_isSpecial, he]; rfl
      simp [scalarKey, normalizeValue, normalizeFloat, hSpecial, Except.bind] at h
    have hKey := normalizeFloat_key (f := f.toBinary64) h
    rw [Binary32.toBinary64_toRat hFinite] at hKey
    exact ⟨_, rfl, hKey⟩
  | float64 f => exact ⟨_, rfl, normalizeFloat_key h⟩
  | jsonNumber n =>
    simp only [scalarKey, normalizeValue] at h
    simp only [component]
    split at h
    · rename_i hPlain
      rw [if_pos hPlain]
      cases hInt : n.int64 with
      | error e => rw [hInt] at h; cases h
      | ok v => rw [hInt] at h; cases h; exact ⟨_, rfl, integer_encodes v⟩
    · rename_i hPlain
      rw [if_neg hPlain]
      cases hFloat : n.float64 with
      | error e => rw [hFloat] at h; cases h
      | ok f => rw [hFloat] at h; exact ⟨_, rfl, normalizeFloat_key h⟩
  | array items =>
    simp only [scalarKey, normalizeValue] at h
    cases hItems : normalizeItems 0 items <;> rw [hItems] at h <;> cases h
  | object fields =>
    simp only [scalarKey, normalizeValue] at h
    cases hFields : normalizeFields fields <;> rw [hFields] at h <;> cases h
  | unsupported => cases h

end Syntrix.Model
