import Syntrix.Lib.Bytes

/-! # Values and their scalar keys

The dynamic values that documents, filters and index tuples hold, their normalization to the
exact int64 and finite binary64 domains, and the byte key that orders scalars. Strings are byte
strings: Go text need not be valid UTF-8 until normalization has checked it.
-/
namespace Syntrix.Model

open Lib

-- named here once, as every literal of the fields refers to them
instance neZero_exponent : NeZero 2048 := ⟨by decide⟩

instance neZero_fraction32 : NeZero (2 ^ 23) := ⟨by decide⟩

instance neZero_fraction64 : NeZero (2 ^ 52) := ⟨by decide⟩

/-- A binary64 value by its sign, biased exponent and fraction fields. -/
structure Binary64 where
  negative : Bool
  exponent : Fin 2048
  fraction : Fin (2 ^ 52)
deriving DecidableEq

/-- A binary32 value by its sign, biased exponent and fraction fields. -/
structure Binary32 where
  negative : Bool
  exponent : Fin 256
  fraction : Fin (2 ^ 23)
deriving DecidableEq

structure JSONNumber where
  negative : Bool
  whole : List (Fin 10)
  fraction : Option (List (Fin 10))
  exponent : Option (Bool × List (Fin 10))
deriving DecidableEq

inductive Value where
  | null
  | bool (b : Bool)
  | string (s : Bytes)
  | int (v : Int64)
  | float32 (f : Binary32)
  | float64 (f : Binary64)
  | jsonNumber (n : JSONNumber)
  | array (items : List Value)
  | object (fields : List (Bytes × Value))
  | unsupported

inductive ValueError where
  | invalidUTF8
  | nonFinite
  | integerOutsideInt64
  | invalidNumber
  | arrayElement (index : Nat) (cause : ValueError)
  | objectKeyNotUTF8
  | objectField (key : Bytes) (cause : ValueError)
  | unsupportedType
  | expectedScalar
deriving DecidableEq

namespace Binary64

/-- `math.IsNaN` or `math.IsInf`. -/
def isSpecial (f : Binary64) : Bool := decide (f.exponent = 2047)

def isZero (f : Binary64) : Bool := decide (f.exponent = 0) && decide (f.fraction = 0)

def zero : Binary64 := ⟨false, 0, 0⟩

/-- `math.Float64bits(math.Abs(f))`. -/
def absBits (f : Binary64) : Nat := f.exponent.val * 2 ^ 52 + f.fraction.val

end Binary64

/-- The widening conversion `float64(v)`, which keeps the value. -/
def Binary32.toBinary64 (f : Binary32) : Binary64 :=
  if f.exponent = 255 then ⟨f.negative, 2047, Fin.ofNat _ (f.fraction.val * 2 ^ 29)⟩
  else if f.exponent = 0 then
    if f.fraction = 0 then ⟨f.negative, 0, 0⟩
    else
      -- A subnormal binary32 is a normal binary64 once its leading bit is made implicit.
      let top := Nat.log2 f.fraction.val
      ⟨f.negative, Fin.ofNat _ (874 + top),
        Fin.ofNat _ ((f.fraction.val - 2 ^ top) * 2 ^ (52 - top))⟩
  else ⟨f.negative, Fin.ofNat _ (f.exponent.val + 896), Fin.ofNat _ (f.fraction.val * 2 ^ 29)⟩

def digitsValue (digits : List (Fin 10)) : Nat := digits.foldl (fun n d => 10 * n + d.val) 0

def roundHalfEven (n d : Nat) : Nat :=
  let q := n / d
  let r := n % d
  if d < 2 * r ∨ (2 * r = d ∧ q % 2 = 1) then q + 1 else q

/-- The exponent and fraction fields of the binary64 nearest to `num / den`; none on overflow. -/
def nearestBinary64 (num den : Nat) : Option (Nat × Nat) :=
  if num = 0 then some (0, 0)
  else
    let guess : Int := Nat.log2 num - Nat.log2 den
    let below := if guess < 0 then num * 2 ^ (-guess).toNat < den else num < den * 2 ^ guess.toNat
    let leading : Int := max (if below then guess - 1 else guess) (-1022)
    let quantum := leading - 52
    let mantissa :=
      if quantum < 0 then roundHalfEven (num * 2 ^ (-quantum).toNat) den
      else roundHalfEven num (den * 2 ^ quantum.toNat)
    let (leading, mantissa) := if mantissa = 2 ^ 53 then (leading + 1, 2 ^ 52) else (leading, mantissa)
    if mantissa < 2 ^ 52 then some (0, mantissa)
    else if 1023 < leading then none
    else some ((leading + 1023).toNat, mantissa - 2 ^ 52)

namespace JSONNumber

/-- `strconv.ParseInt(s, 10, 64)` on a token without fraction and exponent. -/
def int64 (n : JSONNumber) : Except ValueError Int64 :=
  let v : Int := if n.negative then -(digitsValue n.whole : Int) else digitsValue n.whole
  if v < -2 ^ 63 ∨ 2 ^ 63 ≤ v then .error .integerOutsideInt64 else .ok (Int64.ofInt v)

/-- `strconv.ParseFloat(s, 64)`. -/
def float64 (n : JSONNumber) : Except ValueError Binary64 :=
  let places := n.fraction.getD []
  let digits := digitsValue (n.whole ++ places)
  let scale : Int := match n.exponent with
    | none => 0
    | some (true, ds) => -(digitsValue ds : Int)
    | some (false, ds) => digitsValue ds
  let power := scale - places.length
  let parts := if power < 0 then nearestBinary64 digits (10 ^ (-power).toNat)
    else nearestBinary64 (digits * 10 ^ power.toNat) 1
  match parts with
  | none => .error .invalidNumber
  | some (e, f) => .ok ⟨n.negative, Fin.ofNat _ e, Fin.ofNat _ f⟩

end JSONNumber

def normalizeFloat (f : Binary64) : Except ValueError Value :=
  if f.isSpecial then .error .nonFinite
  else if f.isZero then .ok (.float64 .zero)
  else .ok (.float64 f)

mutual
/-- Every representation of a number becomes int64 or finite binary64; containers are copied. -/
def normalizeValue : Value → Except ValueError Value
  | .null => .ok .null
  | .bool b => .ok (.bool b)
  | .string s => if utf8Valid s then .ok (.string s) else .error .invalidUTF8
  | .int v => .ok (.int v)
  | .float32 f => normalizeFloat f.toBinary64
  | .float64 f => normalizeFloat f
  | .jsonNumber n =>
    if n.fraction.isNone && n.exponent.isNone then n.int64.map .int
    else n.float64.bind normalizeFloat
  | .array items => (normalizeItems 0 items).map .array
  | .object fields => (normalizeFields fields).map .object
  | .unsupported => .error .unsupportedType

def normalizeItems : Nat → List Value → Except ValueError (List Value)
  | _, [] => .ok []
  | i, v :: rest =>
    match normalizeValue v with
    | .error e => .error (.arrayElement i e)
    | .ok item => (normalizeItems (i + 1) rest).map (item :: ·)

def normalizeFields : List (Bytes × Value) → Except ValueError (List (Bytes × Value))
  | [] => .ok []
  | (key, v) :: rest =>
    if utf8Valid key then
      match normalizeValue v with
      | .error e => .error (.objectField key e)
      | .ok item => (normalizeFields rest).map ((key, item) :: ·)
    else .error .objectKeyNotUTF8
end

/-- `bits.Len64`. -/
def bitLen (n : Nat) : Nat := if n = 0 then 0 else Nat.log2 n + 1

/-- A number as the key sees it: sign, 64-bit significand with its top bit set, and exponent. -/
structure NumberParts where
  negative : Bool
  significand : Nat
  exponent : Int

def integerParts (v : Int64) : NumberParts :=
  let negative := decide (v.toInt < 0)
  let magnitude := if negative then (-(v.toInt + 1)).toNat + 1 else v.toInt.toNat
  if magnitude ≠ 0 then
    let length := bitLen magnitude
    ⟨negative, magnitude * 2 ^ (64 - length), length - 1⟩
  else ⟨negative, 0, 0⟩

def floatParts (f : Binary64) : NumberParts :=
  let negative := f.negative && !f.isZero
  let fraction : Nat := f.absBits % 2 ^ 52
  let encodedExponent : Nat := f.absBits / 2 ^ 52 % 2 ^ 11
  if encodedExponent = 0 then
    if fraction ≠ 0 then
      let length := bitLen fraction
      ⟨negative, fraction * 2 ^ (64 - length), -1074 + length - 1⟩
    else ⟨negative, 0, 0⟩
  else ⟨negative, (2 ^ 52 + fraction) * 2 ^ 11, (encodedExponent : Int) - 1023⟩

def numberKey (parts : NumberParts) : Bytes :=
  if parts.significand = 0 then 0x40 :: 1 :: List.replicate 10 0
  else
    let body := bigEndian 2 (parts.exponent + 1074).toNat ++ bigEndian 8 parts.significand
    if parts.negative then 0x40 :: 0 :: body.map complement else 0x40 :: 2 :: body

def normalizedKey : Value → Except ValueError Bytes
  | .null => .ok [0x10]
  | .bool b => .ok [if b then 0x30 else 0x20]
  | .string s => .ok (0x50 :: s)
  | .int v => .ok (numberKey (integerParts v))
  | .float64 f => .ok (numberKey (floatParts f))
  | _ => .error .expectedScalar

/-- Null, false, true, numbers and strings sort in that order; equal numbers share a key. -/
def scalarKey (value : Value) : Except ValueError Bytes := (normalizeValue value).bind normalizedKey

def compareValues (a b : Value) : Except ValueError Ordering :=
  (scalarKey a).bind fun left => (scalarKey b).bind fun right => .ok (OrderCode.wordCmp left right)

def equalValues (a b : Value) : Bool :=
  match compareValues a b with
  | .ok .eq => true
  | _ => false

end Syntrix.Model
