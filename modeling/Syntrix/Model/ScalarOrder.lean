import Syntrix.Model.Value

/-! # The order of scalars

Scalar keys compare as the values they encode: null, false, true, numbers by their exact value in
the rationals, strings by bytes. The values are read off the representations, not off the keys.
-/
namespace Syntrix.Model

open Lib OrderCode

/-- What one index component stands for. A missing field sorts before every value. -/
inductive Component where
  | missing
  | null
  | bool (b : Bool)
  | number (q : ℚ)
  | text (s : Bytes)
deriving DecidableEq

def Component.rank : Component → Nat
  | .missing => 0
  | .null => 1
  | .bool false => 2
  | .bool true => 3
  | .number _ => 4
  | .text _ => 5

def Component.compare : Component → Component → Ordering
  | .number q, .number r => cmp q r
  | .text s, .text t => wordCmp s t
  | a, b => cmp a.rank b.rank

theorem Component.rank_eq_of_compare {a b : Component} (h : a.compare b = .eq) : a.rank = b.rank := by
  cases a <;> cases b <;> first | rfl | exact (cmp_eq_eq_iff _ _).mp h

theorem Component.compare_eq_iff {a b : Component} : a.compare b = .eq ↔ a = b := by
  constructor
  · intro h
    have hRank := rank_eq_of_compare h
    obtain _ | _ | (_ | _) | q | s := a <;> obtain _ | _ | (_ | _) | r | t := b <;>
      first | rfl | cases hRank
    · exact congrArg Component.number ((cmp_eq_eq_iff _ _).mp h)
    · exact congrArg Component.text (wordCmp_eq_eq_iff.mp h)
  · rintro rfl
    cases a with
    | number q => exact cmp_self_eq_eq q
    | text s => exact wordCmp_self s
    | missing => rfl
    | null => rfl
    | bool b => cases b <;> rfl

namespace Binary64

def toRat (f : Binary64) : ℚ :=
  (if f.negative then -1 else 1) *
    if f.exponent = 0 then f.fraction.val * (2 : ℚ) ^ (-1074 : ℤ)
    else (2 ^ 52 + f.fraction.val) * (2 : ℚ) ^ ((f.exponent.val : ℤ) - 1075)

end Binary64

def Binary32.toRat (f : Binary32) : ℚ :=
  (if f.negative then -1 else 1) *
    if f.exponent = 0 then f.fraction.val * (2 : ℚ) ^ (-149 : ℤ)
    else (2 ^ 23 + f.fraction.val) * (2 : ℚ) ^ ((f.exponent.val : ℤ) - 150)

namespace NumberParts

def magnitude (p : NumberParts) : ℚ := p.significand * (2 : ℚ) ^ (p.exponent - 63)

def toRat (p : NumberParts) : ℚ := if p.negative then -p.magnitude else p.magnitude

/-- The significand is zero or has its top bit set, and the exponent fits its two bytes. -/
def Valid (p : NumberParts) : Prop :=
  p.significand = 0 ∨
    2 ^ 63 ≤ p.significand ∧ p.significand < 2 ^ 64 ∧ -1074 ≤ p.exponent ∧ p.exponent ≤ 1023

variable {p : NumberParts}

theorem magnitude_pos (h : p.significand ≠ 0) : 0 < p.magnitude := by
  have hSig : (0 : ℚ) < p.significand := by exact_mod_cast Nat.pos_of_ne_zero h
  exact mul_pos hSig (by positivity)

theorem magnitude_lt (h : p.significand < 2 ^ 64) : p.magnitude < (2 : ℚ) ^ (p.exponent + 1) := by
  have hSig : (p.significand : ℚ) < 2 ^ (64 : ℤ) := by exact_mod_cast h
  calc p.magnitude < 2 ^ (64 : ℤ) * (2 : ℚ) ^ (p.exponent - 63) :=
        mul_lt_mul_of_pos_right hSig (by positivity)
    _ = (2 : ℚ) ^ (p.exponent + 1) := by
        rw [← zpow_add₀ (by norm_num)]
        congr 1
        ring

theorem le_magnitude (h : 2 ^ 63 ≤ p.significand) : (2 : ℚ) ^ p.exponent ≤ p.magnitude := by
  have hSig : (2 : ℚ) ^ (63 : ℤ) ≤ p.significand := by exact_mod_cast h
  calc (2 : ℚ) ^ p.exponent = 2 ^ (63 : ℤ) * (2 : ℚ) ^ (p.exponent - 63) := by
        rw [← zpow_add₀ (by norm_num)]
        congr 1
        ring
    _ ≤ p.magnitude := mul_le_mul_of_nonneg_right hSig (by positivity)

theorem magnitude_lt_of_exponent_lt {p q : NumberParts} (hp : p.significand < 2 ^ 64)
    (hq : 2 ^ 63 ≤ q.significand) (h : p.exponent < q.exponent) : p.magnitude < q.magnitude :=
  calc p.magnitude < (2 : ℚ) ^ (p.exponent + 1) := magnitude_lt hp
    _ ≤ (2 : ℚ) ^ q.exponent := zpow_le_zpow_right₀ (by norm_num) h
    _ ≤ q.magnitude := le_magnitude hq

theorem cmp_magnitude {p q : NumberParts} (hp : p.Valid) (hq : q.Valid) (hp0 : p.significand ≠ 0) (hq0 : q.significand ≠ 0) :
    cmp p.magnitude q.magnitude = (cmp p.exponent q.exponent).then (cmp p.significand q.significand) := by
  obtain ⟨hpLow, hpHigh, -, -⟩ := hp.resolve_left hp0
  obtain ⟨hqLow, hqHigh, -, -⟩ := hq.resolve_left hq0
  rcases lt_trichotomy p.exponent q.exponent with h | h | h
  · rw [(cmp_eq_lt_iff _ _).mpr h]
    exact (cmp_eq_lt_iff _ _).mpr (magnitude_lt_of_exponent_lt hpHigh hqLow h)
  · have hPos : (0 : ℚ) < 2 ^ (q.exponent - 63) := by positivity
    rw [h, cmp_self_eq_eq, magnitude, magnitude, h, cmp_mul_pos_right hPos]
    exact (Nat.strictMono_cast (α := ℚ)).cmp_map_eq p.significand q.significand
  · rw [(cmp_eq_gt_iff _ _).mpr h]
    exact (cmp_eq_gt_iff _ _).mpr (magnitude_lt_of_exponent_lt hqHigh hpLow h)

end NumberParts

theorem numberKey_cons (p : NumberParts) : ∃ rest, numberKey p = 0x40 :: rest := by
  unfold numberKey
  split
  · exact ⟨_, rfl⟩
  · split
    all_goals exact ⟨_, rfl⟩

def numberBody (p : NumberParts) : Bytes :=
  bigEndian 2 (p.exponent + 1074).toNat ++ bigEndian 8 p.significand

@[simp] theorem numberBody_length (p : NumberParts) : (numberBody p).length = 10 := by
  simp [numberBody]

theorem wordCmp_numberBody {p q : NumberParts} (hp : p.Valid) (hq : q.Valid) (hp0 : p.significand ≠ 0)
    (hq0 : q.significand ≠ 0) : wordCmp (numberBody p) (numberBody q) = cmp p.magnitude q.magnitude := by
  rw [NumberParts.cmp_magnitude hp hq hp0 hq0]
  obtain ⟨-, hpHigh, hpMin, hpMax⟩ := hp.resolve_left hp0
  obtain ⟨-, hqHigh, hqMin, hqMax⟩ := hq.resolve_left hq0
  have hExponent : cmp (p.exponent + 1074).toNat (q.exponent + 1074).toNat =
      cmp p.exponent q.exponent := by
    have hLt : ∀ i j : ℤ, -1074 ≤ i → -1074 ≤ j → i < j → (i + 1074).toNat < (j + 1074).toNat := by
      omega
    rcases lt_trichotomy p.exponent q.exponent with h | h | h
    · rw [(cmp_eq_lt_iff _ _).mpr h, (cmp_eq_lt_iff _ _).mpr (hLt _ _ hpMin hqMin h)]
    · rw [h, cmp_self_eq_eq, cmp_self_eq_eq]
    · rw [(cmp_eq_gt_iff _ _).mpr h, (cmp_eq_gt_iff _ _).mpr (hLt _ _ hqMin hpMin h)]
  rw [numberBody, numberBody, wordCmp_append_of_length_eq (by simp),
    wordCmp_bigEndian (by omega) (by omega), wordCmp_bigEndian (by omega) (by omega), hExponent]

variable {p : NumberParts}

theorem numberKey_of_zero (h : p.significand = 0) :
    numberKey p = 0x40 :: 1 :: List.replicate 10 0 := by rw [numberKey, if_pos h]

theorem numberKey_of_negative (h : p.significand ≠ 0) (hNeg : p.negative = true) :
    numberKey p = 0x40 :: 0 :: (numberBody p).map complement := by
  simp [numberKey, h, hNeg, numberBody]

theorem numberKey_of_positive (h : p.significand ≠ 0) (hPos : p.negative = false) :
    numberKey p = 0x40 :: 2 :: numberBody p := by
  simp [numberKey, h, hPos, numberBody]

theorem numberKey_cases (p : NumberParts) :
    (p.toRat = 0 ∧ numberKey p = 0x40 :: 1 :: List.replicate 10 0) ∨
    (p.significand ≠ 0 ∧ p.toRat = -p.magnitude ∧
      numberKey p = 0x40 :: 0 :: (numberBody p).map complement) ∨
    (p.significand ≠ 0 ∧ p.toRat = p.magnitude ∧ numberKey p = 0x40 :: 2 :: numberBody p) := by
  by_cases h : p.significand = 0
  · refine .inl ⟨?_, numberKey_of_zero h⟩
    simp [NumberParts.toRat, NumberParts.magnitude, h]
  cases hSign : p.negative with
  | true => exact .inr (.inl ⟨h, by simp [NumberParts.toRat, hSign], numberKey_of_negative h hSign⟩)
  | false => exact .inr (.inr ⟨h, by simp [NumberParts.toRat, hSign], numberKey_of_positive h hSign⟩)

theorem wordCmp_numberKey {p q : NumberParts} (hp : p.Valid) (hq : q.Valid) :
    wordCmp (numberKey p) (numberKey q) = cmp p.toRat q.toRat := by
  have hOrder : ∀ {a b : Byte} {s t : Bytes}, a < b → wordCmp (0x40 :: a :: s) (0x40 :: b :: t) = .lt := by
    intro a b s t h
    simp [(cmp_eq_lt_iff a b).mpr h]
  have hOrder' : ∀ {a b : Byte} {s t : Bytes}, b < a → wordCmp (0x40 :: a :: s) (0x40 :: b :: t) = .gt := by
    intro a b s t h
    simp [(cmp_eq_gt_iff a b).mpr h]
  obtain ⟨hpZero, hpKey⟩ | ⟨hp0, hpRat, hpKey⟩ | ⟨hp0, hpRat, hpKey⟩ := numberKey_cases p <;>
  obtain ⟨hqZero, hqKey⟩ | ⟨hq0, hqRat, hqKey⟩ | ⟨hq0, hqRat, hqKey⟩ := numberKey_cases q
  · rw [hpKey, hqKey, hpZero, hqZero, wordCmp_self, cmp_self_eq_eq]
  · rw [hpKey, hqKey, hOrder' (by decide), hpZero, hqRat]
    exact ((cmp_eq_gt_iff _ _).mpr (neg_lt_zero.mpr (NumberParts.magnitude_pos hq0))).symm
  · rw [hpKey, hqKey, hOrder (by decide), hpZero, hqRat]
    exact ((cmp_eq_lt_iff _ _).mpr (NumberParts.magnitude_pos hq0)).symm
  · rw [hpKey, hqKey, hOrder (by decide), hqZero, hpRat]
    exact ((cmp_eq_lt_iff _ _).mpr (neg_lt_zero.mpr (NumberParts.magnitude_pos hp0))).symm
  · -- Complementing the bytes reverses the order of the magnitudes, as negation does.
    rw [hpKey, hqKey, hpRat, hqRat, wordCmp_cons_cons, wordCmp_cons_cons, cmp_self_eq_eq, cmp_self_eq_eq]
    rw [wordCmp_map_of_strictAnti complement_strictAnti (by simp), wordCmp_numberBody hq hp hq0 hp0]
    exact (StrictAnti.cmp_map_eq (fun _ _ h => neg_lt_neg h) _ _).symm
  · rw [hpKey, hqKey, hOrder (by decide), hpRat, hqRat]
    have hNeg := neg_lt_zero.mpr (NumberParts.magnitude_pos hp0)
    exact ((cmp_eq_lt_iff _ _).mpr (hNeg.trans (NumberParts.magnitude_pos hq0))).symm
  · rw [hpKey, hqKey, hOrder' (by decide), hqZero, hpRat]
    exact ((cmp_eq_gt_iff _ _).mpr (NumberParts.magnitude_pos hp0)).symm
  · rw [hpKey, hqKey, hOrder' (by decide), hpRat, hqRat]
    have hNeg := neg_lt_zero.mpr (NumberParts.magnitude_pos hq0)
    exact ((cmp_eq_gt_iff _ _).mpr (hNeg.trans (NumberParts.magnitude_pos hp0))).symm
  · rw [hpKey, hqKey, hpRat, hqRat, wordCmp_cons_cons, wordCmp_cons_cons, cmp_self_eq_eq, cmp_self_eq_eq]
    exact wordCmp_numberBody hp hq hp0 hq0

end Syntrix.Model
