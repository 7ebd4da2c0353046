import Syntrix.Lib.JsonCodec
import Syntrix.Model.JsonUnicode
import Syntrix.Model.Value

/-! # Typed values

Every node of a value is written as an object that names its type, so that values which JSON does not tell apart
are read back as they were. What `NormalizeValue` makes of a value survives the way to text and back.
-/
namespace Syntrix.Model

open Lib List Option Fields Json Int64

/-- Texts of binary64 values as encoding/json writes and reads them: a finite value is read back from its text. -/
structure FloatText where
  format : Binary64 → Bytes
  parse : Bytes → Option Binary64
  number : ∀ f, f.isSpecial = false → Json.IsNumber (format f)
  roundTrip : ∀ f, f.isSpecial = false → parse (format f) = some f

def maxNestingDepth : Nat := 10000

section Integers

def formatNat (n : Nat) : Bytes := if n = 0 then text "0" else decimalLoop 20 n []

/-- `strconv.FormatInt(v, 10)`. -/
def formatInt (v : Int64) : Bytes :=
  if v.toInt < 0 then 0x2D :: formatNat v.toInt.natAbs else formatNat v.toInt.natAbs

/-- `strconv.ParseInt(s, 10, 64)`. -/
def parseInt (s : Bytes) : Option Int64 :=
  let negative := s.head? == some 0x2D
  let digits := if negative || s.head? == some 0x2B then s.tail else s
  if digits = [] then none
  else (parseDigits 0 digits).bind fun n =>
    if negative then if 2 ^ 63 < n then none else some (ofInt (-n))
    else if 2 ^ 63 ≤ n then none else some (ofInt n)

variable {n : Nat}

theorem formatNat_spec (hn : n < 10 ^ 20) :
    ∃ b rest, formatNat n = b :: rest ∧ isDigit b = true ∧ parseDigits 0 (formatNat n) = some n := by
  rw [formatNat]
  split
  · rename_i hZero
    subst hZero
    exact ⟨_, _, rfl, by decide, by decide⟩
  · rename_i hn0
    have hParse := parseDigits_decimalLoop hn
    cases hText : decimalLoop 20 n [] with
    | nil =>
      rw [hText] at hParse
      exact absurd (some.inj hParse).symm hn0
    | cons b rest =>
      refine ⟨b, rest, rfl, decimalLoop_isDigit b (hText ▸ mem_cons_self), ?_⟩
      rw [← hText, hParse]

theorem digit_unsigned {b : Byte} (h : isDigit b = true) : b ≠ 0x2D ∧ b ≠ 0x2B := by
  constructor <;> rintro rfl <;> exact absurd h (by decide)

theorem parseInt_formatInt (v : Int64) : parseInt (formatInt v) = some v := by
  have hLow := v.le_toInt
  have hHigh := v.toInt_lt
  obtain ⟨b, rest, hText, hDigit, hParse⟩ := @formatNat_spec v.toInt.natAbs (by omega)
  obtain ⟨hMinus, hPlus⟩ := digit_unsigned hDigit
  rw [hText] at hParse
  rw [formatInt, hText]
  split
  · have hValue : ofInt (-(v.toInt.natAbs : Int)) = v := by
      rw [show -(v.toInt.natAbs : Int) = v.toInt by omega, ofInt_toInt]
    simp only [parseInt, head?_cons, tail_cons, beq_self_eq_true, Bool.true_or, if_true, reduceCtorEq, if_false,
      hParse, bind_some]
    rw [if_neg (by omega), hValue]
  · have hValue : ofInt (v.toInt.natAbs : Int) = v := by
      rw [show (v.toInt.natAbs : Int) = v.toInt by omega, ofInt_toInt]
    have hHead : (some b == some (0x2D : Byte)) = false ∧ (some b == some (0x2B : Byte)) = false := by
      simp [hMinus, hPlus]
    simp only [parseInt, head?_cons, hHead, Bool.or_self, Bool.false_eq_true, if_false, reduceCtorEq, hParse,
      bind_some]
    rw [if_neg (by omega), hValue]

theorem formatNat_ascii (n : Nat) : ∀ b ∈ formatNat n, b < 0x80 := by
  have hByte : ∀ b : Byte, isDigit b = true → b < 0x80 := by decide +kernel
  rw [formatNat]
  split
  · decide +kernel
  · exact fun b hb => hByte b (decimalLoop_isDigit b hb)

theorem formatInt_utf8 (v : Int64) : utf8Valid (formatInt v) = true := by
  apply utf8Valid_of_ascii
  rw [formatInt]
  split
  · intro b hb
    obtain rfl | hb := mem_cons.mp hb
    · decide
    · exact formatNat_ascii _ b hb
  · exact formatNat_ascii _

theorem formatNat_digits (hn : n < 10 ^ 20) :
    Json.IsDigits (formatNat n) ∧ ((formatNat n).head? = some 0x30 → formatNat n = [0x30]) := by
  rw [formatNat]
  split
  · refine ⟨⟨by decide, ?_⟩, fun _ => rfl⟩
    intro b hb
    obtain rfl := mem_singleton.mp hb
    decide
  · rename_i hPos
    obtain ⟨b, rest, hText, hb⟩ := decimalLoop_head hn hPos
    refine ⟨⟨by rw [hText]; simp, ?_⟩, ?_⟩
    · intro d hd
      simpa [isDigit] using decimalLoop_isDigit d hd
    · intro hHead
      rw [hText] at hHead
      exact absurd (some.inj hHead) hb

theorem formatNat_isNumber (hn : n < 10 ^ 20) : Json.IsNumber (formatNat n) := by
  obtain ⟨hDigits, hZero⟩ := formatNat_digits hn
  simpa using Json.IsNumber.mk (.inl rfl) hDigits hZero (.inl rfl) (.inl rfl)

theorem formatInt_isNumber (v : Int64) : Json.IsNumber (formatInt v) := by
  have hLow := v.le_toInt
  have hHigh := v.toInt_lt
  obtain ⟨hDigits, hZero⟩ := @formatNat_digits v.toInt.natAbs (by omega)
  rw [formatInt]
  split
  · simpa using Json.IsNumber.mk (.inr rfl) hDigits hZero (.inl rfl) (.inl rfl)
  · exact formatNat_isNumber (by omega)

end Integers

section Encoding

/-- The struct as it is marshalled: a missing value is omitted. -/
def typedValue (type : Bytes) (value : Option Json.Tree) : Json.Tree :=
  .object ((text "type", .string type) :: (value.map fun v => (text "value", v)).toList)

variable (floats : FloatText)

mutual

/-- The function panics on values that `NormalizeValue` does not return. -/
def typedValueTree : Value → Option Json.Tree
  | .null => some (typedValue (text "null") none)
  | .bool b => some (typedValue (text "bool") (some (.bool b)))
  | .string s => some (typedValue (text "string") (some (.string s)))
  | .int v => some (typedValue (text "int64") (some (.string (formatInt v))))
  | .float64 f => some (typedValue (text "float64") (some (.number (floats.format f))))
  | .array items => (typedItems items).map fun trees => typedValue (text "array") (some (.array trees))
  | .object fields => (typedFields fields).map fun trees => typedValue (text "object") (some (.object trees))
  | .float32 _ | .jsonNumber _ | .unsupported => none

def typedItems : List Value → Option (List Json.Tree)
  | [] => some []
  | v :: items => (typedValueTree v).bind fun t => (typedItems items).map (t :: ·)

def typedFields : List (Bytes × Value) → Option (List (Bytes × Json.Tree))
  | [] => some []
  | (key, v) :: fields => (typedValueTree v).bind fun t => (typedFields fields).map ((key, t) :: ·)

end

inductive EncodeError where
  | value (e : ValueError)
  | panicked
deriving DecidableEq

def encodeTypedValue (value : Value) : Except EncodeError Bytes :=
  match normalizeValue value with
  | .error e => .error (.value e)
  | .ok normalized =>
    match typedValueTree floats normalized with
    | none => .error .panicked
    | some tree => .ok (marshal tree)

end Encoding

section Decoding

inductive TypedError where
  | unicode (stop : Stop)
  | malformed
  | notAnObject
  | unknownField (key : Bytes)
  | invalidType
  | nullWithValue
  | missingValue (kind : Bytes)
  | mismatched (kind : Bytes)
  | invalidInt64 (v : Bytes)
  | noncanonicalInt64 (v : Bytes)
  | value (e : ValueError)
  | arrayElement (index : Nat) (cause : TypedError)
  | objectField (key : Bytes) (cause : TypedError)
  | unknownType (kind : Bytes)
deriving DecidableEq

/-- A map of raw messages. An empty map is left where the text is null. -/
def unmarshalFields : Json.Tree → Except TypedError (List (Bytes × Json.Tree))
  | .object members => .ok (ofMembers members)
  | .null => .error .notAnObject
  | _ => .error .malformed

def unmarshalType : Option Json.Tree → Except TypedError Bytes
  | some (.string kind) => .ok kind
  | some .null => .ok []
  | _ => .error .invalidType

variable (floats : FloatText) (decode : Json.Tree → Except TypedError Value)

def decodeItems : Nat → List Json.Tree → Except TypedError (List Value)
  | _, [] => .ok []
  | i, t :: items =>
    match decode t with
    | .error e => .error (.arrayElement i e)
    | .ok v => (decodeItems (i + 1) items).map (v :: ·)

def decodeFields : List (Bytes × Json.Tree) → Except TypedError (List (Bytes × Value))
  | [] => .ok []
  | (key, t) :: fields =>
    match decode t with
    | .error e => .error (.objectField key e)
    | .ok v => (decodeFields fields).map ((key, v) :: ·)

def decodeInt64 (v : Bytes) : Except TypedError Value :=
  match parseInt v with
  | none => .error (.invalidInt64 v)
  | some i => if formatInt i ≠ v then .error (.noncanonicalInt64 v) else .ok (.int i)

def decodePayload (kind : Bytes) (raw : Json.Tree) : Except TypedError Value :=
  if kind = text "bool" then
    match raw with
    | .bool b => .ok (.bool b)
    | _ => .error (.mismatched kind)
  else if kind = text "string" then
    match raw with
    | .string s => .ok (.string s)
    | _ => .error (.mismatched kind)
  else if kind = text "int64" then
    match raw with
    | .string v => decodeInt64 v
    | _ => .error (.mismatched kind)
  else if kind = text "float64" then
    match raw with
    | .number token =>
      match floats.parse token with
      | none => .error (.mismatched kind)
      | some f => (normalizeFloat f).mapError .value
    | _ => .error (.mismatched kind)
  else if kind = text "array" then
    match raw with
    | .array items => (decodeItems decode 0 items).map .array
    | _ => .error (.mismatched kind)
  else if kind = text "object" then
    match raw with
    | .object members => (decodeFields decode (ofMembers members)).map .object
    | _ => .error (.mismatched kind)
  else .error (.unknownType kind)

/-- The messages of a node are nested one deeper, so that the limit of the reader bounds the recursion. -/
def decodeTypedTree : Nat → Json.Tree → Except TypedError Value
  | 0, _ => .error .malformed
  | depth + 1, t =>
    (unmarshalFields t).bind fun fields =>
      match fields.find? fun f => f.1 ≠ text "type" ∧ f.1 ≠ text "value" with
      | some f => .error (.unknownField f.1)
      | none =>
        (unmarshalType (fields.lookup (text "type"))).bind fun kind =>
          let raw := fields.lookup (text "value")
          if kind = text "null" then if raw.isSome then .error .nullWithValue else .ok .null
          else match raw with
            | none | some .null => .error (.missingValue kind)
            | some raw => decodePayload floats (decodeTypedTree depth) kind raw

def decodeTypedValue (data : Bytes) : Except TypedError Value :=
  match validateJSONUnicode data with
  | .error stop => .error (.unicode stop)
  | .ok () =>
    match read maxNestingDepth data with
    | none => .error .malformed
    | some t => decodeTypedTree floats maxNestingDepth t

end Decoding

section Equality

inductive Same : Value → Value → Prop
  | refl (v : Value) : Same v v
  | array {xs ys : List Value} : xs.length = ys.length →
      (∀ (i : Nat) x y, xs[i]? = some x → ys[i]? = some y → Same x y) → Same (.array xs) (.array ys)
  | object {xs ys : List (Bytes × Value)} : (∀ key, (xs.lookup key).isSome = (ys.lookup key).isSome) →
      (∀ key x y, xs.lookup key = some x → ys.lookup key = some y → Same x y) → Same (.object xs) (.object ys)

mutual

/-- The fields of every object have different keys, as those of a map do. -/
def Value.Distinct : Value → Prop
  | .array items => itemsDistinct items
  | .object fields => (keys fields).Nodup ∧ fieldsDistinct fields
  | _ => True

def itemsDistinct : List Value → Prop
  | [] => True
  | v :: items => v.Distinct ∧ itemsDistinct items

def fieldsDistinct : List (Bytes × Value) → Prop
  | [] => True
  | (_, v) :: fields => v.Distinct ∧ fieldsDistinct fields

end

end Equality

section RoundTrip

variable {floats : FloatText}

structure Coded (floats : FloatText) (c : Value) (t : Json.Tree) : Prop where
  tree : typedValueTree floats c = some t
  valid : t.Valid
  sorted : t.sortKeys = t
  decodes : ∀ depth, t.depth ≤ depth → decodeTypedTree floats depth t = .ok c
  normal : normalizeValue c = .ok c

variable {raw : Json.Tree} {kind : Bytes}

theorem typedValue_valid (hKind : utf8Valid kind = true) (hRaw : raw.Valid) : (typedValue kind (some raw)).Valid :=
  .object (.cons (by decide +kernel) (.string hKind) (.cons (by decide +kernel) hRaw .nil))

theorem typedValue_sortKeys (kind : Bytes) (raw : Json.Tree) :
    (typedValue kind (some raw)).sortKeys = typedValue kind (some raw.sortKeys) := by
  have hOrder : text "type" ≤ text "value" := by decide +kernel
  have hSorted : ([(text "type", .string kind), (text "value", raw.sortKeys)] : List (Bytes × Json.Tree)).Pairwise
      fun a b => a.1 ≤ b.1 := by
    simpa using hOrder
  exact congrArg Json.Tree.object (sort_of_sorted hSorted)

theorem typedValue_depth (kind : Bytes) (raw : Json.Tree) : (typedValue kind (some raw)).depth = raw.depth + 1 := by
  simp [typedValue, Json.Tree.depth, membersDepth]

theorem decode_typedValue (hKind : kind ≠ text "null") (hRaw : raw ≠ .null) (depth : Nat) :
    decodeTypedTree floats (depth + 1) (typedValue kind (some raw)) =
      decodePayload floats (decodeTypedTree floats depth) kind raw := by
  have hFields : ofMembers [(text "type", Json.Tree.string kind), (text "value", raw)] =
      [(text "type", .string kind), (text "value", raw)] :=
    ofMembers_of_nodup (show [text "type", text "value"].Nodup by decide)
  have hKnown : ([(text "type", Json.Tree.string kind), (text "value", raw)].find? fun f =>
      f.1 ≠ text "type" ∧ f.1 ≠ text "value") = none := rfl
  have hType : [(text "type", Json.Tree.string kind), (text "value", raw)].lookup (text "type") = some (.string kind) := rfl
  have hValue : [(text "type", Json.Tree.string kind), (text "value", raw)].lookup (text "value") = some raw := rfl
  change (Except.ok (ofMembers [(text "type", Json.Tree.string kind), (text "value", raw)])).bind _ = _
  rw [hFields]
  simp only [Except.bind, hKnown, hType, hValue, unmarshalType]
  rw [if_neg hKind]

variable {c : Value}

theorem coded_leaf (hTree : typedValueTree floats c = some (typedValue kind (some raw))) (hNormal : normalizeValue c = .ok c)
    (hText : utf8Valid kind = true) (hKind : kind ≠ text "null") (hRaw : raw ≠ .null) (hValid : raw.Valid)
    (hSorted : raw.sortKeys = raw) (hDecode : ∀ decode, decodePayload floats decode kind raw = .ok c) :
    Coded floats c (typedValue kind (some raw)) where
  tree := hTree
  valid := typedValue_valid hText hValid
  sorted := by rw [typedValue_sortKeys, hSorted]
  decodes := by
    intro depth hDepth
    obtain ⟨depth, rfl⟩ := Nat.exists_eq_add_of_le' (Nat.le_of_add_left_le hDepth)
    rw [decode_typedValue hKind hRaw, hDecode]
  normal := hNormal

theorem coded_null : Coded floats .null (typedValue (text "null") none) where
  tree := by rw [typedValueTree]
  valid := .object (.cons (by decide +kernel) (.string (by decide +kernel)) .nil)
  sorted := rfl
  decodes := by
    intro depth hDepth
    cases depth with
    | zero => cases hDepth
    | succ depth => rfl
  normal := by rw [normalizeValue]

theorem coded_bool (b : Bool) : Coded floats (.bool b) (typedValue (text "bool") (some (.bool b))) :=
  coded_leaf (by rw [typedValueTree]) (by rw [normalizeValue]) (by decide +kernel) (by decide +kernel) (by simp) .bool rfl fun _ => rfl

theorem coded_string {s : Bytes} (hs : utf8Valid s = true) :
    Coded floats (.string s) (typedValue (text "string") (some (.string s))) :=
  coded_leaf (by rw [typedValueTree]) (by rw [normalizeValue, if_pos hs]) (by decide +kernel) (by decide +kernel) (by simp) (.string hs) rfl
    fun _ => rfl

theorem coded_int (v : Int64) : Coded floats (.int v) (typedValue (text "int64") (some (.string (formatInt v)))) := by
  have hDecode : ∀ decode, decodePayload floats decode (text "int64") (.string (formatInt v)) = .ok (.int v) := by
    intro decode
    rw [decodePayload, if_neg (by decide), if_neg (by decide), if_pos rfl]
    simp only [decodeInt64, parseInt_formatInt, ne_eq, not_true, if_false]
  exact coded_leaf (by rw [typedValueTree]) (by rw [normalizeValue]) (by decide +kernel) (by decide +kernel) (by simp)
    (.string (formatInt_utf8 v)) rfl hDecode

variable {f : Binary64}

theorem normalizeFloat_finite (h : normalizeFloat f = .ok c) :
    ∃ g, c = .float64 g ∧ g.isSpecial = false ∧ normalizeFloat g = .ok (.float64 g) := by
  rw [normalizeFloat] at h
  split at h
  · cases h
  rename_i hSpecial
  split at h
  · cases Except.ok.inj h
    refine ⟨.zero, rfl, by simp [Binary64.isSpecial, Binary64.zero], ?_⟩
    rw [normalizeFloat, if_neg (by simp [Binary64.isSpecial, Binary64.zero]), if_pos (by simp [Binary64.isZero, Binary64.zero])]
  · rename_i hZero
    cases Except.ok.inj h
    refine ⟨f, rfl, by simpa using hSpecial, ?_⟩
    rw [normalizeFloat, if_neg hSpecial, if_neg hZero]

theorem coded_float {g : Binary64} (hFinite : g.isSpecial = false) (hNormal : normalizeFloat g = .ok (.float64 g)) :
    Coded floats (.float64 g) (typedValue (text "float64") (some (.number (floats.format g)))) := by
  have hDecode : ∀ decode, decodePayload floats decode (text "float64") (.number (floats.format g)) = .ok (.float64 g) := by
    intro decode
    rw [decodePayload, if_neg (by decide), if_neg (by decide), if_neg (by decide), if_pos rfl]
    simp only [floats.roundTrip g hFinite, hNormal, Except.mapError]
  have hTree : typedValueTree floats (.float64 g) = some (typedValue (text "float64") (some (.number (floats.format g)))) := by
    rw [typedValueTree]
  have hSame : normalizeValue (.float64 g) = .ok (.float64 g) := by rw [normalizeValue, hNormal]
  exact coded_leaf hTree hSame (by decide +kernel) (by decide +kernel) (by simp) (.number (floats.number g hFinite)) rfl hDecode

theorem coded_of_float {n : Value} (h : normalizeFloat f = .ok n) :
    ∃ c t, typedValueTree floats n = some t ∧ Coded floats c t.sortKeys ∧ Same n c := by
  obtain ⟨g, rfl, hFinite, hNormal⟩ := normalizeFloat_finite h
  exact ⟨_, _, by rw [typedValueTree], coded_float hFinite hNormal, .refl _⟩

variable {ts : List Json.Tree} {cs : List Value}

theorem coded_items (h : Forall₂ (Coded floats) cs ts) :
    typedItems floats cs = some ts ∧ Json.ItemsValid ts ∧ sortItems ts = ts ∧
      (∀ depth i, itemsDepth ts ≤ depth → decodeItems (decodeTypedTree floats depth) i ts = .ok cs) ∧
      ∀ i, normalizeItems i cs = .ok cs := by
  induction h with
  | nil =>
    refine ⟨by rw [typedItems], .nil, rfl, fun _ _ _ => rfl, ?_⟩
    intro i
    rw [normalizeItems]
  | cons hHead hTail ih =>
    obtain ⟨hTrees, hValid, hSorted, hDecodes, hNormal⟩ := ih
    refine ⟨?_, .cons hHead.valid hValid, ?_, ?_, ?_⟩
    · rw [typedItems, hHead.tree, hTrees]
      rfl
    · rw [sortItems, hHead.sorted, hSorted]
    · intro depth i hDepth
      rw [itemsDepth] at hDepth
      rw [decodeItems, hHead.decodes depth (by omega), hDecodes depth (i + 1) (by omega)]
      rfl
    · intro i
      rw [normalizeItems, hHead.normal, hNormal]
      rfl

theorem coded_array (h : Forall₂ (Coded floats) cs ts) :
    Coded floats (.array cs) (typedValue (text "array") (some (.array ts))) := by
  obtain ⟨hTrees, hValid, hSorted, hDecodes, hNormal⟩ := coded_items h
  refine ⟨?_, typedValue_valid (by decide +kernel) (.array hValid), ?_, ?_, ?_⟩
  · rw [typedValueTree, hTrees]
    rfl
  · rw [typedValue_sortKeys, Json.Tree.sortKeys, hSorted]
  · intro depth hDepth
    rw [typedValue_depth, Json.Tree.depth] at hDepth
    obtain ⟨depth, rfl⟩ := Nat.exists_eq_add_of_le' (Nat.le_of_add_left_le hDepth)
    rw [decode_typedValue (by decide +kernel) (by simp), decodePayload, if_neg (by decide), if_neg (by decide),
      if_neg (by decide), if_neg (by decide), if_pos rfl]
    simp only [hDecodes depth 0 (by omega), Except.map]
  · rw [normalizeValue, hNormal]
    rfl

variable {ts : List (Bytes × Json.Tree)} {cs : List (Bytes × Value)}

theorem coded_fields (h : Forall₂ (fun c t => c.1 = t.1 ∧ Coded floats c.2 t.2) cs ts)
    (hKeys : ∀ c ∈ cs, utf8Valid c.1 = true) :
    typedFields floats cs = some ts ∧ Json.MembersValid ts ∧ sortMembers ts = ts ∧
      (∀ depth, membersDepth ts ≤ depth → decodeFields (decodeTypedTree floats depth) ts = .ok cs) ∧
      normalizeFields cs = .ok cs := by
  induction h with
  | nil =>
    refine ⟨by rw [typedFields], .nil, rfl, fun _ _ => rfl, ?_⟩
    rw [normalizeFields]
  | @cons c t cs ts hHead hTail ih =>
    obtain ⟨key, c⟩ := c
    obtain ⟨key', t⟩ := t
    obtain ⟨hSame, hCoded⟩ := hHead
    obtain rfl : key = key' := hSame
    have hCoded : Coded floats c t := hCoded
    obtain ⟨hKey, hRest⟩ := forall_mem_cons.mp hKeys
    obtain ⟨hTrees, hValid, hSorted, hDecodes, hNormal⟩ := ih hRest
    refine ⟨?_, .cons hKey hCoded.valid hValid, ?_, ?_, ?_⟩
    · rw [typedFields, hCoded.tree, hTrees]
      rfl
    · rw [sortMembers, hCoded.sorted, hSorted]
    · intro depth hDepth
      rw [membersDepth] at hDepth
      rw [decodeFields, hCoded.decodes depth (by omega), hDecodes depth (by omega)]
      rfl
    · rw [normalizeFields, if_pos hKey, hCoded.normal, hNormal]
      rfl

theorem coded_object (h : Forall₂ (fun c t => c.1 = t.1 ∧ Coded floats c.2 t.2) cs ts)
    (hKeys : ∀ c ∈ cs, utf8Valid c.1 = true) (hNodup : (keys cs).Nodup) :
    Coded floats (.object (sort cs)) (typedValue (text "object") (some (.object (sort ts)))) := by
  have hSortedKeys : ∀ c ∈ sort cs, utf8Valid c.1 = true := fun c hc => hKeys c ((sort_perm cs).mem_iff.mp hc)
  obtain ⟨hTrees, hValid, hSorted, hDecodes, hNormal⟩ := coded_fields (forall₂_sort h) hSortedKeys
  have hMembers : ofMembers (sort ts) = sort ts := by
    apply ofMembers_of_nodup
    rw [keys_nodup_sort, ← keys_forall₂ h]
    exact hNodup
  refine ⟨?_, typedValue_valid (by decide +kernel) (.object hValid), ?_, ?_, ?_⟩
  · rw [typedValueTree, hTrees]
    rfl
  · rw [typedValue_sortKeys, Json.Tree.sortKeys, hSorted, sort_sort]
  · intro depth hDepth
    rw [typedValue_depth, Json.Tree.depth] at hDepth
    obtain ⟨depth, rfl⟩ := Nat.exists_eq_add_of_le' (Nat.le_of_add_left_le hDepth)
    rw [decode_typedValue (by decide +kernel) (by simp), decodePayload, if_neg (by decide), if_neg (by decide),
      if_neg (by decide), if_neg (by decide), if_neg (by decide), if_pos rfl]
    simp only [hMembers, hDecodes depth (by omega), Except.map]
  · rw [normalizeValue, hNormal]
    rfl

theorem same_array {xs ys : List Value} (h : Forall₂ Same xs ys) : Same (.array xs) (.array ys) := by
  refine .array h.length_eq ?_
  intro i x y hx hy
  obtain ⟨y', hy', hSame⟩ := forall₂_getElem? h hx
  rw [hy] at hy'
  cases hy'
  exact hSame

theorem same_object {xs ys : List (Bytes × Value)} (h : Forall₂ (fun x y => x.1 = y.1 ∧ Same x.2 y.2) xs ys)
    (hNodup : (keys ys).Nodup) : Same (.object xs) (.object (sort ys)) := by
  have hRel := lookup_forall₂ h
  refine .object ?_ ?_
  · intro key
    have hKey := hRel key
    rw [lookup_sort hNodup]
    generalize xs.lookup key = x at hKey
    generalize ys.lookup key = y at hKey
    cases hKey <;> rfl
  · intro key x y hx hy
    have hKey := hRel key
    rw [lookup_sort hNodup] at hy
    rw [hx, hy] at hKey
    cases hKey with
    | some hSame => exact hSame

mutual

theorem coded_of_normalize : ∀ (v : Value) {n : Value}, normalizeValue v = .ok n → v.Distinct →
    ∃ c t, typedValueTree floats n = some t ∧ Coded floats c t.sortKeys ∧ Same n c
  | .null, n, h, _ => by
    rw [normalizeValue] at h
    cases Except.ok.inj h
    exact ⟨_, _, by rw [typedValueTree], coded_null, .refl _⟩
  | .bool b, n, h, _ => by
    rw [normalizeValue] at h
    cases Except.ok.inj h
    exact ⟨_, _, by rw [typedValueTree], coded_bool b, .refl _⟩
  | .string s, n, h, _ => by
    rw [normalizeValue] at h
    split at h
    · rename_i hs
      cases Except.ok.inj h
      exact ⟨_, _, by rw [typedValueTree], coded_string hs, .refl _⟩
    · cases h
  | .int v, n, h, _ => by
    rw [normalizeValue] at h
    cases Except.ok.inj h
    exact ⟨_, _, by rw [typedValueTree], coded_int v, .refl _⟩
  | .float32 f, n, h, _ => by
    rw [normalizeValue] at h
    exact coded_of_float h
  | .float64 f, n, h, _ => by
    rw [normalizeValue] at h
    exact coded_of_float h
  | .jsonNumber number, n, h, _ => by
    rw [normalizeValue] at h
    split at h
    · obtain ⟨v, -, rfl⟩ := map_eq_ok h
      exact ⟨_, _, by rw [typedValueTree], coded_int v, .refl _⟩
    · obtain ⟨f, -, hf⟩ := bind_eq_ok h
      exact coded_of_float hf
  | .array items, n, h, hDistinct => by
    rw [normalizeValue] at h
    obtain ⟨ns, hItems, rfl⟩ := map_eq_ok h
    rw [Value.Distinct] at hDistinct
    obtain ⟨cs, ts, hTrees, hCoded, hSame⟩ := coded_of_items items hItems hDistinct
    refine ⟨_, _, by rw [typedValueTree, hTrees]; rfl, ?_, same_array hSame⟩
    rw [typedValue_sortKeys, Json.Tree.sortKeys]
    exact coded_array hCoded
  | .object fields, n, h, hDistinct => by
    rw [normalizeValue] at h
    obtain ⟨ns, hFields, rfl⟩ := map_eq_ok h
    rw [Value.Distinct] at hDistinct
    obtain ⟨cs, ts, hTrees, hCoded, hSame, hKeys, hText⟩ := coded_of_fields fields hFields hDistinct.2
    have hNodup : (keys cs).Nodup := by
      rw [← keys_forall₂ hSame, hKeys]
      exact hDistinct.1
    refine ⟨_, _, by rw [typedValueTree, hTrees]; rfl, ?_, same_object hSame hNodup⟩
    rw [typedValue_sortKeys, Json.Tree.sortKeys]
    exact coded_object hCoded hText hNodup
  | .unsupported, n, h, _ => by
    rw [normalizeValue] at h
    cases h

theorem coded_of_items : ∀ (items : List Value) {i : Nat} {ns : List Value}, normalizeItems i items = .ok ns →
    itemsDistinct items → ∃ cs ts, typedItems floats ns = some ts ∧ Forall₂ (Coded floats) cs (sortItems ts) ∧
      Forall₂ Same ns cs
  | [], i, ns, h, _ => by
    rw [normalizeItems] at h
    cases Except.ok.inj h
    exact ⟨[], [], by rw [typedItems], .nil, .nil⟩
  | v :: items, i, ns, h, hDistinct => by
    rw [itemsDistinct] at hDistinct
    rw [normalizeItems] at h
    split at h
    · cases h
    rename_i item hItem
    obtain ⟨rest, hRest, rfl⟩ := map_eq_ok h
    obtain ⟨c, t, hTree, hCoded, hSame⟩ := coded_of_normalize v hItem hDistinct.1
    obtain ⟨cs, ts, hTrees, hCodedRest, hSameRest⟩ := coded_of_items items hRest hDistinct.2
    refine ⟨c :: cs, t :: ts, by rw [typedItems, hTree, hTrees]; rfl, ?_, .cons hSame hSameRest⟩
    rw [sortItems]
    exact .cons hCoded hCodedRest

theorem coded_of_fields : ∀ (fields : List (Bytes × Value)) {ns : List (Bytes × Value)}, normalizeFields fields = .ok ns →
    fieldsDistinct fields → ∃ (cs : List (Bytes × Value)) (ts : List (Bytes × Json.Tree)), typedFields floats ns = some ts ∧
      Forall₂ (fun c t => c.1 = t.1 ∧ Coded floats c.2 t.2) cs (sortMembers ts) ∧
      Forall₂ (fun n c => n.1 = c.1 ∧ Same n.2 c.2) ns cs ∧ keys ns = keys fields ∧
      ∀ c ∈ cs, utf8Valid c.1 = true
  | [], ns, h, _ => by
    rw [normalizeFields] at h
    cases Except.ok.inj h
    exact ⟨[], [], by rw [typedFields], .nil, .nil, rfl, by simp⟩
  | (key, v) :: fields, ns, h, hDistinct => by
    rw [fieldsDistinct] at hDistinct
    rw [normalizeFields] at h
    split at h
    · rename_i hKey
      split at h
      · cases h
      rename_i item hItem
      obtain ⟨rest, hRest, rfl⟩ := map_eq_ok h
      obtain ⟨c, t, hTree, hCoded, hSame⟩ := coded_of_normalize v hItem hDistinct.1
      obtain ⟨cs, ts, hTrees, hCodedRest, hSameRest, hKeys, hText⟩ := coded_of_fields fields hRest hDistinct.2
      refine ⟨(key, c) :: cs, (key, t) :: ts, by rw [typedFields, hTree, hTrees]; rfl, ?_, .cons ⟨rfl, hSame⟩ hSameRest,
        congrArg (key :: ·) hKeys, forall_mem_cons.mpr ⟨hKey, hText⟩⟩
      rw [sortMembers]
      exact .cons ⟨rfl, hCoded⟩ hCodedRest
    · cases h

end

theorem Coded.decodeTypedValue {c : Value} {t : Json.Tree} (h : Coded floats c t) (hLimit : t.depth ≤ maxNestingDepth) :
    decodeTypedValue floats (render t) = .ok c := by
  have hText : validateJSONUnicode (render t) = .ok () := by
    have hClean := clean_pieces h.valid
    exact (validateJSONUnicode_pieces hClean.valid).mpr ⟨hClean.text, hClean.paired⟩
  rw [Model.decodeTypedValue, hText, read_render h.valid hLimit]
  exact h.decodes maxNestingDepth hLimit

/-- A value that can be normalized and whose text keeps to the nesting limit is encoded, the text is decoded to the
normalized value, and that is encoded to the same text. -/
theorem typedValue_round_trip {v n : Value} (hNormalize : normalizeValue v = .ok n) (hDistinct : v.Distinct)
    (hDepth : ∀ t, typedValueTree floats n = some t → t.depth ≤ maxNestingDepth) :
    ∃ data w, encodeTypedValue floats v = .ok data ∧ decodeTypedValue floats data = .ok w ∧ Same n w ∧
      encodeTypedValue floats w = .ok data := by
  obtain ⟨c, t, hTree, hCoded, hSame⟩ := coded_of_normalize v hNormalize hDistinct
  have hLimit : t.sortKeys.depth ≤ maxNestingDepth := by
    rw [depth_sortKeys]
    exact hDepth t hTree
  refine ⟨marshal t, c, ?_, ?_, hSame, ?_⟩
  · rw [encodeTypedValue, hNormalize]
    simp only [hTree]
  · exact hCoded.decodeTypedValue hLimit
  · rw [encodeTypedValue, hCoded.normal]
    simp only [hCoded.tree, marshal, hCoded.sorted]

section BitPatterns

def Binary64.bits (f : Binary64) : Nat := ((if f.negative then 2048 else 0) + f.exponent.val) * 2 ^ 52 + f.fraction.val

def Binary64.ofBits (n : Nat) : Binary64 :=
  ⟨decide (2048 ≤ n / 2 ^ 52), Fin.ofNat 2048 (n / 2 ^ 52), Fin.ofNat (2 ^ 52) n⟩

theorem ofBits_bits (f : Binary64) : Binary64.ofBits f.bits = f := by
  obtain ⟨negative, exponent, fraction⟩ := f
  have hDiv : Binary64.bits ⟨negative, exponent, fraction⟩ / 2 ^ 52 = (if negative then 2048 else 0) + exponent.val := by
    change (((if negative then 2048 else 0) + exponent.val) * 4503599627370496 + fraction.val) / 4503599627370496 = _
    omega
  have hMod : Binary64.bits ⟨negative, exponent, fraction⟩ % 2 ^ 52 = fraction.val := by
    change (((if negative then 2048 else 0) + exponent.val) * 4503599627370496 + fraction.val) % 4503599627370496 = _
    omega
  rw [Binary64.ofBits, hDiv]
  congr 1
  · cases negative <;> simp
  · apply Fin.ext
    cases negative <;> simp
  · apply Fin.ext
    exact hMod

theorem isNumber_bits (f : Binary64) : Json.IsNumber (0x31 :: fixedDecimal 20 f.bits) := by
  have hDigits : Json.IsDigits (0x31 :: fixedDecimal 20 f.bits) := by
    refine ⟨by simp, ?_⟩
    intro b hb
    obtain rfl | hb := List.mem_cons.mp hb
    · decide
    · have hDigit := fixedDecimal_isDigit b hb
      simpa [isDigit] using hDigit
  have hToken := Json.IsNumber.mk (.inl rfl) hDigits (by simp) (.inl rfl) (.inl rfl)
  simpa using hToken

/-- Floats written as their bit patterns: the assumption on texts can be met. -/
def bitPatterns : FloatText where
  format f := 0x31 :: fixedDecimal 20 f.bits
  parse token := (parseDigits 0 token.tail).map Binary64.ofBits
  number f _ := isNumber_bits f
  roundTrip := by
    intro f _
    have hExponent := f.exponent.isLt
    have hFraction : f.fraction.val < 4503599627370496 := f.fraction.isLt
    have hBits : f.bits < 10 ^ 20 := by
      change ((if f.negative then 2048 else 0) + f.exponent.val) * 4503599627370496 + f.fraction.val < _
      split <;> omega
    rw [List.tail_cons, parseDigits_fixedDecimal hBits, Option.map_some, ofBits_bits]

end BitPatterns

def taggedObject : Value := .object [(text "value", .array []), (text "type", .int (-5))]

theorem typedValue_round_trip_tags : ∃ data w, encodeTypedValue bitPatterns taggedObject = .ok data ∧
    decodeTypedValue bitPatterns data = .ok w ∧ Same taggedObject w ∧ encodeTypedValue bitPatterns w = .ok data := by
  refine typedValue_round_trip (n := taggedObject) rfl ?_ ?_
  · simp [taggedObject, Value.Distinct, itemsDistinct, fieldsDistinct, Fields.keys]
    decide
  · intro t ht
    cases ht
    decide

end RoundTrip

end Syntrix.Model
