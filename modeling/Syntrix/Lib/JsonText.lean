import Syntrix.Lib.Bytes

/-! # JSON texts

A JSON text is a sequence of string tokens and of bytes outside them. A string token is written in units:
a byte as it stands, an escape of two bytes, or an escape of a UTF-16 code unit by four hexadecimal digits.
-/
namespace Syntrix.Lib.Json

open List

def quote : Byte := 0x22
def backslash : Byte := 0x5C
def letterU : Byte := 0x75

def hexDigit (c : Byte) : Option Nat :=
  if 0x30 ≤ c ∧ c ≤ 0x39 then some (c.val - 0x30)
  else if 0x61 ≤ c ∧ c ≤ 0x66 then some (c.val - 0x61 + 10)
  else if 0x41 ≤ c ∧ c ≤ 0x46 then some (c.val - 0x41 + 10)
  else none

def hexUnit (a b c d : Byte) : Option Nat :=
  (hexDigit a).bind fun w => (hexDigit b).bind fun x => (hexDigit c).bind fun y => (hexDigit d).map fun z =>
    ((w * 16 + x) * 16 + y) * 16 + z

def isHigh (u : Nat) : Bool := decide (0xD800 ≤ u ∧ u ≤ 0xDBFF)
def isLow (u : Nat) : Bool := decide (0xDC00 ≤ u ∧ u ≤ 0xDFFF)

theorem not_high_of_low {u : Nat} (h : isLow u = true) : isHigh u = false := by
  simp only [isLow, isHigh, decide_eq_true_eq, decide_eq_false_iff_not] at *
  omega

theorem not_low_of_high {u : Nat} (h : isHigh u = true) : isLow u = false := by
  simp only [isLow, isHigh, decide_eq_true_eq, decide_eq_false_iff_not] at *
  omega

def escapeLetters : Bytes := [0x22, 0x5C, 0x2F, 0x62, 0x66, 0x6E, 0x72, 0x74]

inductive StringUnit where
  | plain (b : Byte)
  | escape (b : Byte)
  | unicode (a b c d : Byte)
deriving DecidableEq

namespace StringUnit

def bytes : StringUnit → Bytes
  | .plain b => [b]
  | .escape b => [backslash, b]
  | .unicode a b c d => [backslash, letterU, a, b, c, d]

/-- Control bytes, quotes and backslashes do not stand for themselves. -/
def valid : StringUnit → Bool
  | .plain b => decide (0x20 ≤ b ∧ b ≠ quote ∧ b ≠ backslash)
  | .escape b => decide (b ∈ escapeLetters)
  | .unicode a b c d => (hexUnit a b c d).isSome

def codeUnit : StringUnit → Option Nat
  | .unicode a b c d => hexUnit a b c d
  | _ => none

def high (u : StringUnit) : Bool := u.codeUnit.any isHigh
def low (u : StringUnit) : Bool := u.codeUnit.any isLow

theorem not_high_of_low {u : StringUnit} (h : u.low = true) : u.high = false := by
  obtain ⟨c, hc, hLow⟩ := (Option.any_eq_true _ _).mp h
  rw [high, hc, Option.any_some]
  exact Json.not_high_of_low hLow

end StringUnit

/-- Each high surrogate is followed by a low one, and each low surrogate follows a high one. -/
def WellPaired (units : List StringUnit) : Prop :=
  (∀ (i : Nat) u, units[i]? = some u → u.high = true → ∃ v, units[i + 1]? = some v ∧ v.low = true) ∧
    ∀ (i : Nat) u, units[i]? = some u → u.low = true →
      ∃ (j : Nat) (v : StringUnit), i = j + 1 ∧ units[j]? = some v ∧ v.high = true

def paired : List StringUnit → Bool
  | [] => true
  | [u] => !u.low && !u.high
  | u :: v :: rest => !u.low && if u.high then v.low && paired rest else paired (v :: rest)

theorem wellPaired_nil : WellPaired [] := ⟨by simp, by simp⟩

variable {rest : List StringUnit} {u : StringUnit}

theorem wellPaired_cons (hHigh : u.high = false) : WellPaired (u :: rest) ↔ u.low = false ∧ WellPaired rest := by
  constructor
  · rintro ⟨hFollowed, hFollows⟩
    refine ⟨?_, fun i v hv hvHigh => hFollowed (i + 1) v hv hvHigh, fun i v hv hvLow => ?_⟩
    · cases hLow : u.low with
      | false => rfl
      | true =>
        obtain ⟨j, v, hj, -⟩ := hFollows 0 u rfl hLow
        omega
    · obtain ⟨j, w, hj, hw, hwHigh⟩ := hFollows (i + 1) v hv hvLow
      obtain rfl : i = j := by omega
      cases i with
      | zero =>
        cases hw
        rw [hHigh] at hwHigh
        cases hwHigh
      | succ i => exact ⟨i, w, rfl, hw, hwHigh⟩
  · rintro ⟨hLow, hFollowed, hFollows⟩
    constructor
    · intro i v hv hvHigh
      cases i with
      | zero =>
        cases hv
        rw [hHigh] at hvHigh
        cases hvHigh
      | succ i => exact hFollowed i v hv hvHigh
    · intro i v hv hvLow
      cases i with
      | zero =>
        cases hv
        rw [hLow] at hvLow
        cases hvLow
      | succ i =>
        obtain ⟨j, w, rfl, hw, hwHigh⟩ := hFollows i v hv hvLow
        exact ⟨j + 1, w, rfl, hw, hwHigh⟩

theorem wellPaired_pair {v : StringUnit} (hHigh : u.high = true) (hLow : v.low = true) :
    WellPaired (u :: v :: rest) ↔ u.low = false ∧ WellPaired rest := by
  have hvHigh := StringUnit.not_high_of_low hLow
  constructor
  · rintro ⟨hFollowed, hFollows⟩
    refine ⟨?_, fun i w hw hwHigh => hFollowed (i + 2) w hw hwHigh, fun i w hw hwLow => ?_⟩
    · cases huLow : u.low with
      | false => rfl
      | true =>
        rw [StringUnit.not_high_of_low huLow] at hHigh
        cases hHigh
    · obtain ⟨j, x, hj, hx, hxHigh⟩ := hFollows (i + 2) w hw hwLow
      obtain rfl : j = i + 1 := by omega
      cases i with
      | zero =>
        cases hx
        rw [hvHigh] at hxHigh
        cases hxHigh
      | succ i => exact ⟨i, x, rfl, hx, hxHigh⟩
  · rintro ⟨huLow, hFollowed, hFollows⟩
    constructor
    · intro i w hw hwHigh
      match i, hw with
      | 0, hw => exact ⟨v, rfl, hLow⟩
      | 1, hw =>
        cases hw
        rw [hvHigh] at hwHigh
        cases hwHigh
      | i + 2, hw => exact hFollowed i w hw hwHigh
    · intro i w hw hwLow
      match i, hw with
      | 0, hw =>
        cases hw
        rw [huLow] at hwLow
        cases hwLow
      | 1, hw => exact ⟨0, u, rfl, rfl, hHigh⟩
      | i + 2, hw =>
        obtain ⟨j, x, rfl, hx, hxHigh⟩ := hFollows i w hw hwLow
        exact ⟨j + 2, x, rfl, hx, hxHigh⟩

theorem paired_iff (units : List StringUnit) : paired units = true ↔ WellPaired units := by
  induction units using paired.induct with
  | case1 => exact iff_of_true rfl wellPaired_nil
  | case2 u =>
    cases hHigh : u.high with
    | false => simp [paired, hHigh, wellPaired_cons hHigh, wellPaired_nil]
    | true =>
      refine iff_of_false (by simp [paired, hHigh]) fun h => ?_
      obtain ⟨v, hv, -⟩ := h.1 0 u rfl hHigh
      cases hv
  | case3 u v rest ihRest ih =>
    cases hHigh : u.high with
    | false =>
      simp only [paired, hHigh, wellPaired_cons hHigh, ← ih]
      simp
    | true =>
      cases hLow : v.low with
      | true => simp [paired, hHigh, hLow, wellPaired_pair hHigh hLow, ihRest]
      | false =>
        refine iff_of_false (by simp [paired, hHigh, hLow]) fun h => ?_
        obtain ⟨w, hw, hwLow⟩ := h.1 0 u rfl hHigh
        cases hw
        rw [hLow] at hwLow
        cases hwLow

inductive Piece where
  | string (units : List StringUnit)
  | other (b : Byte)
deriving DecidableEq

namespace Piece

def bytes : Piece → Bytes
  | .string units => quote :: (units.flatMap StringUnit.bytes ++ [quote])
  | .other b => [b]

/-- No quote stands outside of strings, and strings are written in valid units. -/
def valid : Piece → Bool
  | .string units => units.all StringUnit.valid
  | .other b => decide (b ≠ quote)

end Piece

def textOf (pieces : List Piece) : Bytes := pieces.flatMap Piece.bytes

section Grammar

def outside (s : Bytes) : List Piece := s.map .other

def IsSpace (pieces : List Piece) : Prop := ∃ s : Bytes, (∀ b ∈ s, b ∈ [0x20, 0x09, 0x0A, 0x0D]) ∧ pieces = outside s

def IsDigits (s : Bytes) : Prop := s ≠ [] ∧ ∀ b ∈ s, 0x30 ≤ b ∧ b ≤ 0x39

/-- An integer without leading zeros, then perhaps a fraction and an exponent. -/
inductive IsNumber : Bytes → Prop
  | mk {sign whole fraction exponent : Bytes} : (sign = [] ∨ sign = [0x2D]) → IsDigits whole →
      (whole.head? = some 0x30 → whole = [0x30]) →
      (fraction = [] ∨ ∃ ds, IsDigits ds ∧ fraction = 0x2E :: ds) →
      (exponent = [] ∨ ∃ e sign ds, e ∈ [0x65, 0x45] ∧ sign ∈ [[], [0x2B], [0x2D]] ∧ IsDigits ds ∧ exponent = e :: (sign ++ ds)) →
      IsNumber (sign ++ whole ++ fraction ++ exponent)

mutual

inductive IsValue : List Piece → Prop
  | literal {s : Bytes} : s ∈ [text "null", text "true", text "false"] → IsValue (outside s)
  | number {s : Bytes} : IsNumber s → IsValue (outside s)
  | string {units : List StringUnit} : units.all StringUnit.valid = true → IsValue [.string units]
  | emptyArray {space : List Piece} : IsSpace space → IsValue (.other 0x5B :: (space ++ [.other 0x5D]))
  | array {items : List Piece} : IsItems items → IsValue (.other 0x5B :: (items ++ [.other 0x5D]))
  | emptyObject {space : List Piece} : IsSpace space → IsValue (.other 0x7B :: (space ++ [.other 0x7D]))
  | object {members : List Piece} : IsMembers members → IsValue (.other 0x7B :: (members ++ [.other 0x7D]))

inductive IsItems : List Piece → Prop
  | one {before value after : List Piece} : IsSpace before → IsValue value → IsSpace after →
      IsItems (before ++ value ++ after)
  | more {before value after rest : List Piece} : IsSpace before → IsValue value → IsSpace after → IsItems rest →
      IsItems (before ++ value ++ after ++ .other 0x2C :: rest)

inductive IsMembers : List Piece → Prop
  | one {before after gap value last : List Piece} {units : List StringUnit} : IsSpace before →
      units.all StringUnit.valid = true → IsSpace after → IsSpace gap → IsValue value → IsSpace last →
      IsMembers (before ++ .string units :: (after ++ .other 0x3A :: (gap ++ value ++ last)))
  | more {before after gap value last rest : List Piece} {units : List StringUnit} : IsSpace before →
      units.all StringUnit.valid = true → IsSpace after → IsSpace gap → IsValue value → IsSpace last → IsMembers rest →
      IsMembers (before ++ .string units :: (after ++ .other 0x3A :: (gap ++ value ++ last ++ .other 0x2C :: rest)))

end

def IsText (pieces : List Piece) : Prop :=
  ∃ before value after, IsSpace before ∧ IsValue value ∧ IsSpace after ∧ pieces = before ++ value ++ after

def AllValid (pieces : List Piece) : Prop := ∀ p ∈ pieces, p.valid = true

variable {s : Bytes}

theorem allValid_outside (h : ∀ b ∈ s, b ≠ quote) : AllValid (outside s) := by
  intro p hp
  obtain ⟨b, hb, rfl⟩ := List.mem_map.mp hp
  exact decide_eq_true (h b hb)

theorem allValid_append {ps qs : List Piece} (hp : AllValid ps) (hq : AllValid qs) : AllValid (ps ++ qs) :=
  forall_mem_append.mpr ⟨hp, hq⟩

theorem allValid_cons {p : Piece} {ps : List Piece} (hp : p.valid = true) (hps : AllValid ps) : AllValid (p :: ps) :=
  forall_mem_cons.mpr ⟨hp, hps⟩

theorem IsSpace.allValid {pieces : List Piece} (h : IsSpace pieces) : AllValid pieces := by
  obtain ⟨s, hs, rfl⟩ := h
  refine allValid_outside ?_
  rintro b hb rfl
  exact absurd (hs _ hb) (by decide)

theorem IsNumber.mem (h : IsNumber s) : ∀ b ∈ s, (0x30 ≤ b ∧ b ≤ 0x39) ∨ b ∈ [0x2D, 0x2E, 0x65, 0x45, 0x2B] := by
  obtain ⟨hSign, hWhole, -, hFraction, hExponent⟩ := h
  intro b hb
  simp only [mem_append] at hb
  obtain ((hb | hb) | hb) | hb := hb
  · obtain rfl | rfl := hSign
    · cases hb
    · rw [mem_singleton.mp hb]
      decide
  · exact .inl (hWhole.2 b hb)
  · obtain rfl | ⟨ds, hds, rfl⟩ := hFraction
    · cases hb
    obtain rfl | hb := mem_cons.mp hb
    · exact .inr (by decide)
    · exact .inl (hds.2 b hb)
  · obtain rfl | ⟨e, sign, ds, he, hSign, hds, rfl⟩ := hExponent
    · cases hb
    simp only [mem_cons, not_mem_nil, or_false] at he hSign
    obtain rfl | hb := mem_cons.mp hb
    · obtain rfl | rfl := he <;> decide
    obtain hb | hb := mem_append.mp hb
    · obtain rfl | rfl | rfl := hSign
      · cases hb
      all_goals
        rw [mem_singleton.mp hb]
        decide
    · exact .inl (hds.2 b hb)

theorem IsNumber.ascii (h : IsNumber s) : ∀ b ∈ s, b ≠ quote ∧ b < 0x80 := by
  have hByte : ∀ b : Byte, (0x30 ≤ b ∧ b ≤ 0x39) ∨ b ∈ [0x2D, 0x2E, 0x65, 0x45, 0x2B] → b ≠ quote ∧ b < 0x80 := by
    decide +kernel
  exact fun b hb => hByte b (h.mem b hb)

mutual

theorem IsValue.allValid {pieces : List Piece} : IsValue pieces → AllValid pieces
  | .literal hs => allValid_outside (by
      intro b hb
      simp only [mem_cons, not_mem_nil, or_false] at hs
      rintro rfl
      obtain rfl | rfl | rfl := hs <;> exact absurd hb (by decide))
  | .number hs => allValid_outside fun b hb => (hs.ascii b hb).1
  | .string hUnits => allValid_cons hUnits (by simp [AllValid])
  | .emptyArray hSpace => allValid_cons (by decide) (allValid_append hSpace.allValid (allValid_cons (by decide) (by simp [AllValid])))
  | .array hItems => allValid_cons (by decide) (allValid_append hItems.allValid (allValid_cons (by decide) (by simp [AllValid])))
  | .emptyObject hSpace => allValid_cons (by decide) (allValid_append hSpace.allValid (allValid_cons (by decide) (by simp [AllValid])))
  | .object hMembers => allValid_cons (by decide) (allValid_append hMembers.allValid (allValid_cons (by decide) (by simp [AllValid])))

theorem IsItems.allValid {pieces : List Piece} : IsItems pieces → AllValid pieces
  | .one hBefore hValue hAfter => allValid_append (allValid_append hBefore.allValid hValue.allValid) hAfter.allValid
  | .more hBefore hValue hAfter hRest =>
    allValid_append (allValid_append (allValid_append hBefore.allValid hValue.allValid) hAfter.allValid)
      (allValid_cons (by decide) hRest.allValid)

theorem IsMembers.allValid {pieces : List Piece} : IsMembers pieces → AllValid pieces
  | .one hBefore hUnits hAfter hGap hValue hLast =>
    allValid_append hBefore.allValid (allValid_cons hUnits (allValid_append hAfter.allValid (allValid_cons (by decide)
      (allValid_append (allValid_append hGap.allValid hValue.allValid) hLast.allValid))))
  | .more hBefore hUnits hAfter hGap hValue hLast hRest =>
    allValid_append hBefore.allValid (allValid_cons hUnits (allValid_append hAfter.allValid (allValid_cons (by decide)
      (allValid_append (allValid_append (allValid_append hGap.allValid hValue.allValid) hLast.allValid)
        (allValid_cons (by decide) hRest.allValid)))))

end

theorem IsText.allValid {pieces : List Piece} (h : IsText pieces) : AllValid pieces := by
  obtain ⟨before, value, after, hBefore, hValue, hAfter, rfl⟩ := h
  exact allValid_append (allValid_append hBefore.allValid hValue.allValid) hAfter.allValid

end Grammar

end Syntrix.Lib.Json
