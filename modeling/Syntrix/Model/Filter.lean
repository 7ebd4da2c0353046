import Syntrix.Model.ScalarComponent

/-! # Filters

Validation and normalization of query filters and their evaluation on a field value. A filter on a
scalar is decided by the scalar's key alone, which is what lets an index answer it.
-/
namespace Syntrix.Model

open Lib OrderCode

inductive FilterOp where
  | opEq
  | opNe
  | opGt
  | opGte
  | opLt
  | opLte
  | opIn
  | opContains
  | other (text : Bytes)
deriving DecidableEq

def FilterOp.isValid : FilterOp → Bool
  | .other _ => false
  | _ => true

structure Filter where
  field : Bytes
  op : FilterOp
  value : Value

inductive FilterError where
  | invalidField (field : Bytes)
  | invalidOperator (op : FilterOp)
  | value (cause : ValueError)
  | inRequiresArray
  | inMember (cause : ValueError)
  | rangeRequiresNumberOrString (op : FilterOp)
deriving DecidableEq

/-- The UTF-8 form of a control character stands somewhere in the text. -/
def hasControl : Bytes → Bool
  | [] => false
  | [b] => decide (b < 0x20) || decide (b = 0x7F)
  | b :: c :: rest =>
    decide (b < 0x20) || decide (b = 0x7F) ||
      (decide (b = 0xC2) && decide (0x80 ≤ c) && decide (c ≤ 0x9F)) || hasControl (c :: rest)

def validateQueryField (field : Bytes) : Except FilterError Unit :=
  if field = [] || !utf8Valid field || field.contains 0x2E || hasControl field then
    .error (.invalidField field)
  else .ok ()

def uniqueItems : List Bytes → List Value → Except FilterError (List Value)
  | _, [] => .ok []
  | seen, item :: rest =>
    match scalarKey item with
    | .error e => .error (.inMember e)
    | .ok key =>
      if seen.contains key then uniqueItems seen rest
      else (uniqueItems (key :: seen) rest).map (item :: ·)

def isRangeValue : Value → Bool
  | .int _ | .float64 _ | .string _ => true
  | _ => false

def normalizeOperand (op : FilterOp) (value : Value) : Except FilterError Value :=
  match op with
  | .opIn =>
    match value with
    | .array items => (uniqueItems [] items).map .array
    | _ => .error .inRequiresArray
  | .opGt | .opGte | .opLt | .opLte =>
    if isRangeValue value then .ok value else .error (.rangeRequiresNumberOrString op)
  | _ =>
    match scalarKey value with
    | .error e => .error (.value e)
    | .ok _ => .ok value

def normalizeFilter (filter : Filter) : Except FilterError Filter :=
  (validateQueryField filter.field).bind fun _ =>
    if !filter.op.isValid then .error (.invalidOperator filter.op)
    else match normalizeValue filter.value with
    | .error e => .error (.value e)
    | .ok value => (normalizeOperand filter.op value).map fun v => ⟨filter.field, filter.op, v⟩

def normalizeFiltersFrom : Nat → List Filter → Except (Nat × FilterError) (List Filter)
  | _, [] => .ok []
  | i, filter :: rest =>
    match normalizeFilter filter with
    | .error e => .error (i, e)
    | .ok f => (normalizeFiltersFrom (i + 1) rest).map (f :: ·)

def normalizeFilters (filters : List Filter) : Except (Nat × FilterError) (List Filter) :=
  normalizeFiltersFrom 0 filters

def sameRangeFamily : Value → Value → Bool
  | .string _, .string _ => true
  | .int _, .int _ | .int _, .float64 _ | .float64 _, .int _ | .float64 _, .float64 _ => true
  | _, _ => false

def FilterOp.accepts : FilterOp → Ordering → Bool
  | .opGt, c => c == .gt
  | .opGte, c => c != .lt
  | .opLt, c => c == .lt
  | .opLte, c => c != .gt
  | _, _ => false

inductive EvaluationError where
  | filter (index : Nat) (cause : FilterError)
  | value (cause : ValueError)
  | invalidOperator (op : FilterOp)
  | field (field : Bytes) (cause : EvaluationError)
deriving DecidableEq

def evaluateNormalizedFilter (filter : Filter) (value : Value) (present : Bool) :
    Except EvaluationError Bool :=
  if !present then .ok false
  else match normalizeValue value with
  | .error e => .error (.value e)
  | .ok normalized =>
    match filter.op with
    | .opEq => .ok (equalValues normalized filter.value)
    | .opNe => .ok (!equalValues normalized filter.value)
    | .opIn =>
      match filter.value with
      | .array candidates => .ok (candidates.any fun candidate => equalValues normalized candidate)
      | _ => .ok false
    | .opContains =>
      match normalized with
      | .array items => .ok (items.any fun item => equalValues item filter.value)
      | _ => .ok false
    | .opGt | .opGte | .opLt | .opLte =>
      if !sameRangeFamily normalized filter.value then .ok false
      else match compareValues normalized filter.value with
      | .error e => .error (.value e)
      | .ok comparison => .ok (filter.op.accepts comparison)
    | .other _ => .error (.invalidOperator filter.op)

def evaluateFilter (filter : Filter) (value : Value) (present : Bool) : Except EvaluationError Bool :=
  match normalizeFilter filter with
  | .error e => .error (.filter 0 e)
  | .ok f => evaluateNormalizedFilter f value present

/-- Every filter is evaluated, so an error is reported even past a mismatch. -/
def evaluateNormalizedFilters (field : Bytes → Option Value) : List Filter → Except EvaluationError Bool
  | [] => .ok true
  | filter :: rest =>
    let value := field filter.field
    match evaluateNormalizedFilter filter (value.getD .null) value.isSome with
    | .error e => .error (.field filter.field e)
    | .ok result => (evaluateNormalizedFilters field rest).map (result && ·)

/-- The whole conjunction is validated before any field is evaluated. -/
def evaluateFilters (filters : List Filter) (field : Bytes → Option Value) :
    Except EvaluationError Bool :=
  match normalizeFilters filters with
  | .error (i, e) => .error (.filter i e)
  | .ok normalized => evaluateNormalizedFilters field normalized

end Syntrix.Model
