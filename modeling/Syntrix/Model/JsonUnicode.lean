import Syntrix.Lib.JsonText
import Syntrix.Lib.Result

/-! # Unicode of JSON texts

`ValidateJSONUnicode` walks the bytes of a text once and keeps whether it is inside of a string. Reads of the
slice are checked as the runtime checks them, so a read past the end is a result of its own.
-/
namespace Syntrix.Model

open Lib Json List Option Nat

inductive UnicodeError where
  | notUtf8
  | invalidEscape (i : Nat)
  | lowSurrogate (i : Nat)
  | highSurrogate (i : Nat)
deriving DecidableEq

def UnicodeError.message : UnicodeError → String
  | .notUtf8 => "JSON value is not valid UTF-8"
  | .invalidEscape i => s!"invalid JSON Unicode escape at byte {i}"
  | .lowSurrogate i => s!"unpaired JSON low surrogate at byte {i}"
  | .highSurrogate i => s!"unpaired JSON high surrogate at byte {i}"

/-- A refusal with its error, or a panic of the runtime. -/
inductive Stop where
  | invalid (e : UnicodeError)
  | outOfRange
deriving DecidableEq

def byteAt (data : Bytes) (i : Nat) : Except Stop Byte :=
  match data[i]? with
  | some b => .ok b
  | none => .error .outOfRange

def sliceFrom (data : Bytes) (i : Nat) : Except Stop Bytes :=
  if i ≤ data.length then .ok (data.drop i) else .error .outOfRange

/-- The operator `||`: its right side is evaluated only if its left side is false. -/
def orElse (left : Bool) (right : Except Stop Bool) : Except Stop Bool :=
  if left then .ok true else right

def hexLoop (value : Nat) : Bytes → Option Nat
  | [] => some value
  | c :: rest => (hexDigit c).bind fun digit => hexLoop (value <<< 4 % 2 ^ 16 ||| digit) rest

def jsonHexCodeUnit (data : Bytes) : Option Nat :=
  if data.length < 4 then none else hexLoop 0 (data.take 4)

def scan (data : Bytes) (i : Nat) (inString : Bool) : Except Stop Unit :=
  if _h : i < data.length then
    (byteAt data i).bind fun here =>
      if here = quote then scan data (i + 1) (!inString)
      else if inString = true ∧ here = backslash then
        (orElse (decide (i + 1 ≥ data.length)) ((byteAt data (i + 1)).map (· != letterU))).bind fun short =>
          if short then scan data (i + 2) inString
          else (sliceFrom data (i + 2)).bind fun digits =>
            match jsonHexCodeUnit digits with
            | none => .error (.invalid (.invalidEscape i))
            | some first =>
              if isLow first then .error (.invalid (.lowSurrogate i))
              else if isHigh first then
                (orElse (decide (i + 12 > data.length)) ((byteAt data (i + 6)).bind fun next =>
                  orElse (next != backslash) ((byteAt data (i + 7)).map (· != letterU)))).bind fun alone =>
                  if alone then .error (.invalid (.highSurrogate i))
                  else (sliceFrom data (i + 8)).bind fun digits =>
                    match jsonHexCodeUnit digits with
                    | none => .error (.invalid (.highSurrogate i))
                    | some second =>
                      if isLow second then scan data (i + 12) inString
                      else .error (.invalid (.highSurrogate i))
              else scan data (i + 6) inString
      else scan data (i + 1) inString
  else .ok ()
termination_by data.length - i

def validateJSONUnicode (data : Bytes) : Except Stop Unit :=
  if utf8Valid data then scan data 0 false else .error (.invalid .notUtf8)

section Digits

theorem hexDigit_lt {c : Byte} {d : Nat} (h : hexDigit c = some d) : d < 16 := by
  rw [hexDigit] at h
  split at h
  · rename_i hc
    have := Fin.le_def.mp hc.2
    cases h
    omega
  split at h
  · rename_i hc
    have := Fin.le_def.mp hc.2
    cases h
    omega
  split at h
  · rename_i hc
    have := Fin.le_def.mp hc.2
    cases h
    omega
  · cases h

theorem shift_or {value d : Nat} (hValue : value < 2 ^ 12) (hd : d < 16) : value <<< 4 % 2 ^ 16 ||| d = value * 16 + d := by
  have hShift : value <<< 4 = value * 16 := shiftLeft_eq value 4
  rw [mod_eq_of_lt (by omega), ← shiftLeft_add_eq_or_of_lt (by omega : d < 2 ^ 4), hShift]

theorem hexLoop_four (a b c d : Byte) : hexLoop 0 [a, b, c, d] = hexUnit a b c d := by
  simp only [hexLoop, hexUnit]
  cases ha : hexDigit a with
  | none => rfl
  | some w =>
    have hw := hexDigit_lt ha
    cases hb : hexDigit b with
    | none => rfl
    | some x =>
      have hx := hexDigit_lt hb
      cases hc : hexDigit c with
      | none => rfl
      | some y =>
        have hy := hexDigit_lt hc
        cases hd : hexDigit d with
        | none => rfl
        | some z =>
          have hz := hexDigit_lt hd
          simp only [bind_some, map_some]
          rw [shift_or (by decide) hw, shift_or (by omega) hx, shift_or (by omega) hy, shift_or (by omega) hz,
            zero_mul, zero_add]

theorem jsonHexCodeUnit_digits (a b c d : Byte) (rest : Bytes) :
    jsonHexCodeUnit (a :: b :: c :: d :: rest) = hexUnit a b c d := by
  exact hexLoop_four a b c d

end Digits

section Range

variable {data : Bytes} {i : Nat}

theorem byteAt_of_lt (h : i < data.length) : byteAt data i = .ok data[i] := by
  rw [byteAt, getElem?_eq_getElem h]

theorem sliceFrom_of_le (h : i ≤ data.length) : sliceFrom data i = .ok (data.drop i) := if_pos h

theorem scan_in_range (data : Bytes) (i : Nat) (inString : Bool) : scan data i inString ≠ .error .outOfRange := by
  induction hn : data.length - i using Nat.strong_induction_on generalizing i inString with
  | _ n ih =>
    have later : ∀ k, i < data.length → 0 < k → ∀ s, scan data (i + k) s ≠ .error .outOfRange :=
      fun k hi hk s => ih (data.length - (i + k)) (by omega) (i + k) s rfl
    rw [scan]
    split
    · rename_i hi
      rw [byteAt_of_lt hi]
      simp only [Except.bind]
      split
      · exact later 1 hi (by omega) _
      split
      · by_cases hEnd : i + 1 ≥ data.length
        · simp only [orElse, hEnd, decide_true, if_true]
          exact later 2 hi (by omega) _
        rw [byteAt_of_lt (by omega)]
        simp only [orElse, hEnd, decide_false, Bool.false_eq_true, if_false, Except.map]
        split
        · exact later 2 hi (by omega) _
        rw [sliceFrom_of_le (by omega)]
        simp only
        split
        · exact fun h => nomatch h
        split
        · exact fun h => nomatch h
        split
        · by_cases hShort : i + 12 > data.length
          · simp only [hShort, decide_true, if_true]
            exact fun h => nomatch h
          rw [byteAt_of_lt (by omega), byteAt_of_lt (by omega), sliceFrom_of_le (by omega)]
          simp only [hShort, decide_false, Bool.false_eq_true, if_false]
          cases hNext : (data[i + 6] != backslash) with
          | true => exact fun h => nomatch h
          | false =>
            simp only [Bool.false_eq_true, if_false]
            split
            · exact fun h => nomatch h
            split
            · exact fun h => nomatch h
            split
            · exact later 12 hi (by omega) _
            · exact fun h => nomatch h
        · exact later 6 hi (by omega) _
      · exact later 1 hi (by omega) _
    · exact fun h => nomatch h

end Range

section Steps

variable {data rest : Bytes} {i : Nat}

variable {b : Byte}

theorem lt_length (h : data.drop i = b :: rest) : i < data.length := by
  have hLength := congrArg List.length h
  rw [length_drop, length_cons] at hLength
  omega

theorem byteAt_drop (k : Nat) (h : data.drop i = rest) (hb : rest[k]? = some b) : byteAt data (i + k) = .ok b := by
  rw [byteAt, ← getElem?_drop, h, hb]

theorem byteAt_head (h : data.drop i = b :: rest) : byteAt data i = .ok b := byteAt_drop 0 h rfl

theorem drop_add {head tail : Bytes} (h : data.drop i = head ++ tail) : data.drop (i + head.length) = tail := by
  rw [← drop_drop, h, drop_left]

theorem scan_end (inString : Bool) (h : data.drop i = []) : scan data i inString = .ok () := by
  rw [drop_eq_nil_iff] at h
  rw [scan, dif_neg (by omega)]

theorem scan_quote (inString : Bool) (h : data.drop i = quote :: rest) :
    scan data i inString = scan data (i + 1) (!inString) := by
  rw [scan, dif_pos (lt_length h), byteAt_head h]
  simp only [Except.bind, if_true]

theorem scan_other {inString : Bool} (h : data.drop i = b :: rest) (hb : b ≠ quote)
    (hOut : inString = true → b ≠ backslash) : scan data i inString = scan data (i + 1) inString := by
  rw [scan, dif_pos (lt_length h), byteAt_head h]
  exact (if_neg hb).trans (if_neg fun hBoth => hOut hBoth.1 hBoth.2)

theorem scan_escape {c : Byte} (h : data.drop i = backslash :: c :: rest) (hc : c ≠ letterU) :
    scan data i true = scan data (i + 2) true := by
  have hNext : (byteAt data (i + 1)).map (· != letterU) = .ok true := by
    rw [byteAt_drop 1 h rfl, Except.map, bne_iff_ne.mpr hc]
  have hShort : ∀ left, orElse left (.ok true) = .ok true := by
    intro left
    cases left <;> rfl
  rw [scan, dif_pos (lt_length h), byteAt_head h, hNext, hShort]
  rfl

/-- What follows an escape of a code unit that is read off its digits. -/
def afterUnit (data : Bytes) (i first : Nat) : Except Stop Unit :=
  if isLow first then .error (.invalid (.lowSurrogate i))
  else if isHigh first then
    (orElse (decide (i + 12 > data.length)) ((byteAt data (i + 6)).bind fun next =>
      orElse (next != backslash) ((byteAt data (i + 7)).map (· != letterU)))).bind fun alone =>
      if alone then .error (.invalid (.highSurrogate i))
      else (sliceFrom data (i + 8)).bind fun digits =>
        match jsonHexCodeUnit digits with
        | none => .error (.invalid (.highSurrogate i))
        | some second =>
          if isLow second then scan data (i + 12) true else .error (.invalid (.highSurrogate i))
  else scan data (i + 6) true

theorem scan_unicode {a b c d : Byte} {first : Nat} (h : data.drop i = (StringUnit.unicode a b c d).bytes ++ rest)
    (hUnit : hexUnit a b c d = some first) : scan data i true = afterUnit data i first := by
  have hNext : (byteAt data (i + 1)).map (· != letterU) = .ok false := by
    rw [byteAt_drop 1 h rfl]
    rfl
  have hLength := congrArg List.length h
  simp only [length_drop, length_append, StringUnit.bytes, length_cons, length_nil] at hLength
  have hDigits : data.drop (i + 2) = a :: b :: c :: d :: rest := by
    rw [← drop_drop, h]
    rfl
  rw [scan, dif_pos (by omega), byteAt_head h, hNext, sliceFrom_of_le (by omega), hDigits,
    decide_eq_false (by omega : ¬ i + 1 ≥ data.length)]
  simp only [Except.bind, orElse, Bool.false_eq_true, if_false, jsonHexCodeUnit_digits, hUnit]
  rfl

variable {u : StringUnit}

theorem scan_low (hLow : u.low = true) (h : data.drop i = u.bytes ++ rest) :
    scan data i true = .error (.invalid (.lowSurrogate i)) := by
  obtain ⟨first, hFirst, hFirstLow⟩ := (Option.any_eq_true _ _).mp hLow
  cases u with
  | plain b | escape b => cases hFirst
  | unicode a b c d =>
    rw [scan_unicode h hFirst]
    exact if_pos hFirstLow

theorem scan_unit (hu : u.valid = true) (hHigh : u.high = false) (hLow : u.low = false)
    (h : data.drop i = u.bytes ++ rest) : scan data i true = scan data (i + u.bytes.length) true := by
  cases u with
  | plain b =>
    obtain ⟨-, hQuote, hBackslash⟩ := of_decide_eq_true hu
    exact scan_other h hQuote fun _ => hBackslash
  | escape b =>
    refine scan_escape h ?_
    rintro rfl
    exact absurd hu (by decide)
  | unicode a b c d =>
    obtain ⟨first, hFirst⟩ := isSome_iff_exists.mp hu
    simp only [StringUnit.high, StringUnit.low, StringUnit.codeUnit, hFirst, any_some] at hHigh hLow
    rw [scan_unicode h hFirst, afterUnit, hHigh, hLow]
    rfl

theorem scan_pair {u v : StringUnit} (hHigh : u.high = true) (hLow : v.low = true)
    (h : data.drop i = u.bytes ++ (v.bytes ++ rest)) : scan data i true = scan data (i + (u.bytes ++ v.bytes).length) true := by
  obtain ⟨first, hFirst, hFirstHigh⟩ := (Option.any_eq_true _ _).mp hHigh
  obtain ⟨second, hSecond, hSecondLow⟩ := (Option.any_eq_true _ _).mp hLow
  have hFirstLow := not_low_of_high hFirstHigh
  cases u with
  | plain b | escape b => cases hFirst
  | unicode a b c d =>
    cases v with
    | plain b | escape b => cases hSecond
    | unicode a' b' c' d' =>
      have hLength := congrArg List.length h
      simp only [length_drop, length_append, StringUnit.bytes, length_cons, length_nil] at hLength
      have hDigits : data.drop (i + 8) = a' :: b' :: c' :: d' :: rest := by
        rw [← drop_drop, h]
        rfl
      have hSecond : hexUnit a' b' c' d' = some second := hSecond
      rw [scan_unicode h hFirst, afterUnit, byteAt_drop 6 h rfl, byteAt_drop 7 h rfl, sliceFrom_of_le (by omega), hDigits,
        decide_eq_false (by omega : ¬ i + 12 > data.length), hFirstHigh, hFirstLow]
      simp only [Except.bind, Except.map, orElse, jsonHexCodeUnit_digits, hSecond, hSecondLow, if_true, bne_self_eq_false,
        Bool.false_eq_true, if_false]
      rfl

theorem scan_high (hHigh : u.high = true) (h : data.drop i = u.bytes ++ rest)
    (hRest : ∀ (v : StringUnit) tail, rest = v.bytes ++ tail → v.low = false) :
    scan data i true = .error (.invalid (.highSurrogate i)) := by
  obtain ⟨first, hFirst, hFirstHigh⟩ := (Option.any_eq_true _ _).mp hHigh
  have hFirstLow := not_low_of_high hFirstHigh
  cases u with
  | plain b | escape b => cases hFirst
  | unicode a b c d =>
    have hLength := congrArg List.length h
    simp only [length_drop, length_append, StringUnit.bytes, length_cons, length_nil] at hLength
    have hTail : data.drop (i + 6) = rest := drop_add h
    rw [scan_unicode h hFirst, afterUnit, hFirstHigh, hFirstLow]
    simp only [Bool.false_eq_true, if_false, if_true]
    by_cases hShort : i + 12 > data.length
    · rw [decide_eq_true hShort]
      rfl
    rw [decide_eq_false hShort]
    match rest, hTail, hRest, hLength with
    | x :: y :: a' :: b' :: c' :: d' :: tail, hTail, hRest, _ =>
      have hDigits : data.drop (i + 8) = a' :: b' :: c' :: d' :: tail := by
        rw [show i + 8 = i + 6 + 2 from rfl, ← drop_drop, hTail]
        rfl
      rw [byteAt_head hTail, byteAt_drop 1 hTail rfl, sliceFrom_of_le (by omega), hDigits]
      by_cases hx : x = backslash
      · by_cases hy : y = letterU
        · subst hx hy
          have hSecond := hRest (.unicode a' b' c' d') tail rfl
          simp only [Except.bind, Except.map, orElse, bne_self_eq_false, Bool.false_eq_true, if_false,
            jsonHexCodeUnit_digits]
          cases hUnit : hexUnit a' b' c' d' with
          | none => rfl
          | some second =>
            simp only [StringUnit.low, StringUnit.codeUnit, hUnit, any_some] at hSecond
            simp only [hSecond, Bool.false_eq_true, if_false]
        · simp [Except.bind, Except.map, orElse, bne_iff_ne.mpr hy]
      · simp [Except.bind, orElse, bne_iff_ne.mpr hx]
    | [], _, _, hLength | [_], _, _, hLength | [_, _], _, _, hLength | [_, _, _], _, _, hLength
    | [_, _, _, _], _, _, hLength | [_, _, _, _, _], _, _, hLength =>
      simp only [length_cons, length_nil] at hLength
      omega

end Steps

section Strings

variable {data rest : Bytes} {i : Nat}

theorem bytes_append_eq {u v : StringUnit} {s t : Bytes} (hv : v.low = true) (hu : u.valid = true)
    (h : u.bytes ++ s = v.bytes ++ t) : u = v := by
  cases v with
  | plain b | escape b => cases hv
  | unicode a b c d =>
    cases u with
    | plain x =>
      obtain ⟨-, -, hx⟩ := of_decide_eq_true hu
      exact absurd (List.cons.inj h).1 hx
    | escape x =>
      obtain rfl := (List.cons.inj (List.cons.inj h).2).1
      exact absurd hu (by decide)
    | unicode a' b' c' d' =>
      obtain ⟨rfl, rfl, rfl, rfl, -⟩ := h
      rfl

/-- The rest of a string token is accepted exactly if its units are paired and the text after it is accepted. -/
theorem scan_units {units : List StringUnit} (hUnits : units.all StringUnit.valid = true)
    (h : data.drop i = units.flatMap StringUnit.bytes ++ quote :: rest) :
    scan data i true = .ok () ↔
      paired units = true ∧ scan data (i + (units.flatMap StringUnit.bytes ++ [quote]).length) false = .ok () := by
  induction units using paired.induct generalizing i with
  | case1 =>
    rw [scan_quote true h]
    simp [paired]
  | case2 u =>
    have hu : u.valid = true := by simpa using hUnits
    rw [flatMap_singleton] at h
    cases hLow : u.low with
    | true =>
      rw [scan_low hLow h]
      simp [paired, hLow]
    | false =>
      cases hHigh : u.high with
      | true =>
        rw [scan_high hHigh h]
        · simp [paired, hHigh]
        · intro v tail hv
          cases hvLow : v.low with
          | false => rfl
          | true =>
            cases v with
            | plain b | escape b => cases hvLow
            | unicode a b c d => cases (List.cons.inj hv).1
      | false =>
        rw [scan_unit hu hHigh hLow h, scan_quote true (drop_add h)]
        simp [paired, hHigh, hLow, add_assoc]
  | case3 u v units ihRest ih =>
    rw [all_cons, Bool.and_eq_true] at hUnits
    obtain ⟨hu, hRest⟩ := hUnits
    rw [flatMap_cons, append_assoc] at h
    cases hLow : u.low with
    | true =>
      rw [scan_low hLow h]
      simp [paired, hLow]
    | false =>
      cases hHigh : u.high with
      | false =>
        rw [scan_unit hu hHigh hLow h, ih hRest (drop_add h), add_assoc, ← length_append, flatMap_cons,
          append_assoc]
        simp [paired, hLow, hHigh]
      | true =>
        rw [all_cons, Bool.and_eq_true] at hRest
        rw [flatMap_cons, append_assoc] at h
        cases hvLow : v.low with
        | true =>
          have hAfter : data.drop (i + (u.bytes ++ v.bytes).length) = units.flatMap StringUnit.bytes ++ quote :: rest :=
            drop_add (by rw [h, append_assoc])
          rw [scan_pair hHigh hvLow h, ihRest hRest.2 hAfter, add_assoc, ← length_append, flatMap_cons,
            flatMap_cons]
          simp [paired, hLow, hHigh, hvLow]
        | false =>
          rw [scan_high hHigh h]
          · simp [paired, hHigh, hvLow]
          · intro w tail hw
            cases hwLow : w.low with
            | false => rfl
            | true =>
              obtain rfl := bytes_append_eq hwLow hRest.1 hw
              rw [hvLow] at hwLow
              cases hwLow

theorem scan_pieces {pieces : List Piece} (hPieces : AllValid pieces) (h : data.drop i = textOf pieces) :
    scan data i false = .ok () ↔ ∀ units, Piece.string units ∈ pieces → WellPaired units := by
  induction pieces generalizing i with
  | nil =>
    rw [scan_end false h]
    simp
  | cons p pieces ih =>
    obtain ⟨hp, hRest⟩ := forall_mem_cons.mp hPieces
    have hAfter : data.drop (i + p.bytes.length) = textOf pieces := drop_add h
    cases p with
    | other b =>
      have hOut : (false : Bool) = true → b ≠ backslash := fun hIn => nomatch hIn
      have hStep : scan data i false = scan data (i + (Piece.other b).bytes.length) false :=
        scan_other h (of_decide_eq_true hp) hOut
      rw [hStep, ih hRest hAfter]
      simp
    | string units =>
      have hInside : data.drop (i + 1) = units.flatMap StringUnit.bytes ++ quote :: textOf pieces := by
        rw [← drop_drop, h]
        simp [Piece.bytes, textOf]
      have hLength : i + 1 + (units.flatMap StringUnit.bytes ++ [quote]).length = i + (Piece.string units).bytes.length := by
        simp only [Piece.bytes, length_cons]
        omega
      rw [scan_quote false h, Bool.not_false, scan_units hp hInside, hLength, ih hRest hAfter, paired_iff]
      simp

end Strings

theorem validateJSONUnicode_pieces {pieces : List Piece} (hPieces : AllValid pieces) :
    validateJSONUnicode (textOf pieces) = .ok () ↔
      utf8Valid (textOf pieces) = true ∧ ∀ units, Piece.string units ∈ pieces → WellPaired units := by
  have hScan := @scan_pieces (textOf pieces) 0 pieces hPieces rfl
  rw [validateJSONUnicode]
  split
  · rename_i hValid
    rw [hScan]
    exact (and_iff_right hValid).symm
  · rename_i hValid
    exact iff_of_false (fun h => nomatch h) fun h => hValid h.1

/-- A text of JSON is accepted exactly if it is UTF-8 and the surrogates of every string token are paired;
on no bytes at all is the slice read out of its range. -/
theorem validateJSONUnicode_exact :
    (∀ pieces, IsText pieces → (validateJSONUnicode (textOf pieces) = .ok () ↔
      utf8Valid (textOf pieces) = true ∧ ∀ units, Piece.string units ∈ pieces → WellPaired units)) ∧
    ∀ data, validateJSONUnicode data ≠ .error .outOfRange := by
  constructor
  · intro pieces hText
    exact validateJSONUnicode_pieces hText.allValid
  · intro data
    rw [validateJSONUnicode]
    split
    · exact scan_in_range data 0 false
    · exact fun h => nomatch h

/-- The text `{"k":"\\ud83d\\ude00"}`, its member a surrogate pair. -/
def pairedText : List Piece :=
  [.other 0x7B, .string [.plain 0x6B], .other 0x3A,
    .string [.unicode 0x64 0x38 0x33 0x64, .unicode 0x64 0x65 0x30 0x30], .other 0x7D]

theorem pairedText_isText : IsText pairedText := by
  have hSpace : IsSpace [] := ⟨[], by simp, rfl⟩
  refine ⟨[], pairedText, [], hSpace, ?_, hSpace, rfl⟩
  exact .object (.one hSpace (by decide) hSpace hSpace (.string (by decide)) hSpace)

theorem validateJSONUnicode_exact_pair :
    IsText pairedText ∧ validateJSONUnicode (textOf pairedText) = .ok () := by
  refine ⟨pairedText_isText, (validateJSONUnicode_exact.1 pairedText pairedText_isText).mpr ⟨by decide +kernel, ?_⟩⟩
  intro units hUnits
  rw [← paired_iff]
  simp only [pairedText, List.mem_cons, Piece.string.injEq, reduceCtorEq, List.not_mem_nil, or_false, false_or] at hUnits
  obtain rfl | rfl := hUnits <;> decide

end Syntrix.Model
