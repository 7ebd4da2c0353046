import Syntrix.Index.FilterInterval

/-! # Candidate plans

A query's filters and order compiled against a template: equality and membership filters fix leading
fields and multiply into branches, the filters on the next field cut each branch into key ranges, and
the order must be the one the remaining fields give.
-/
namespace Syntrix.Index

open Lib OrderCode Model

def maxCandidateBranches : Nat := 128
def maxCandidatePositionBytes : Nat := 4096
def maxManifestBytes : Nat := 1048576

def idField : Bytes := text "id"

structure OrderField where
  field : Bytes
  direction : Direction
deriving DecidableEq

structure CandidateBranch where
  fixedPrefix : Bytes
  fixedFields : Nat
  lower : Bytes
  upper : Option Bytes
deriving DecidableEq

structure PredicateAssignment where
  predicate : Nat
  access : Bool
  residual : Bool
deriving DecidableEq

/-- The digests of the plan: a template's fingerprint and the hash of branches and order. -/
structure Digests where
  fingerprint : Template → Bytes
  branchHash : List CandidateBranch → List OrderField → Bytes

structure CandidateMetadata where
  template : Template
  templateFingerprint : Bytes
  generation : Bytes
  branchHash : Bytes
  effectiveOrder : List OrderField
  branches : List CandidateBranch
  assignments : List PredicateAssignment

/-- An order ends in the ascending document ID, which every tuple has anyway. -/
def orderComponents (order : List OrderField) : List OrderField :=
  if order.getLast? = some ⟨idField, .asc⟩ then order.dropLast else order

def isPoint (field : Bytes) (f : Filter) : Bool :=
  decide (f.field = field) && (decide (f.op = .opEq) || decide (f.op = .opIn))

def isContains (field : Bytes) (f : Filter) : Bool := decide (f.field = field) && decide (f.op = .opContains)

def pointValues (f : Filter) : List Value :=
  if f.op = .opEq then [f.value]
  else match f.value with
  | .array items => items
  | _ => []

def admits (field : Bytes) (value : Value) : List Filter → Except CandidateError Bool
  | [] => .ok true
  | f :: rest =>
    if f.field = field then
      ((evaluateFilter f value true).mapError .evaluation).bind fun ok => (admits field value rest).map (ok && ·)
    else admits field value rest

def admittedPoints (filters : List Filter) (field : Bytes) : List Value → Except CandidateError (List Value)
  | [] => .ok []
  | value :: rest =>
    (admits field value filters).bind fun ok =>
      (admittedPoints filters field rest).map fun admitted => if ok then value :: admitted else admitted

/-- The points that fix a field; none when no filter constrains it to points. -/
def fieldPoints (filters : List Filter) (f : TemplateField) : Except CandidateError (Option (List Value)) :=
  if f.mode = .membership then
    match filters.find? (isContains f.field) with
    | some g => .ok (some [g.value])
    | none => .error .noMatchingIndex
  else match filters.find? (isPoint f.field) with
  | none => .ok none
  | some g => (admittedPoints filters f.field (pointValues g)).map some

def markAccess (hit : Filter → Bool) (filters : List Filter) (assignments : List PredicateAssignment) :
    List PredicateAssignment :=
  List.zipWith (fun f a => if hit f then { a with access := true } else a) filters assignments

/-- A membership field uses the first filter that constrains it, a scalar field all of them. -/
def markField (filters : List Filter) (f : TemplateField) (assignments : List PredicateAssignment) :
    List PredicateAssignment :=
  if f.mode = .membership then
    assignments.modify (filters.findIdx (isContains f.field)) fun a => { a with access := true }
  else markAccess (fun g => g.field = f.field) filters assignments

def fieldAccess (filters : List Filter) (f : TemplateField) : Nat :=
  if f.mode = .membership then 1 else filters.countP fun g => g.field = f.field

def pointKey (value : Value) : Bytes := (scalarKey value).toOption.getD []

def sortPoints (points : List Value) : List Value :=
  points.insertionSort fun a b => wordCmp (pointKey a) (pointKey b) ≠ .gt

def extendBranch (f : TemplateField) (fixed : Nat) (branch : CandidateBranch) :
    List Value → Except CandidateError (List CandidateBranch)
  | [] => .ok []
  | value :: rest =>
    ((fieldBytes value (fieldDirection f)).mapError .encoding).bind fun part =>
      (extendBranch f fixed branch rest).map (⟨branch.fixedPrefix ++ part, fixed, [], none⟩ :: ·)

def extendBranches (f : TemplateField) (fixed : Nat) (points : List Value) :
    List CandidateBranch → Except CandidateError (List CandidateBranch)
  | [] => .ok []
  | branch :: rest =>
    (extendBranch f fixed branch points).bind fun extended =>
      (extendBranches f fixed points rest).map (extended ++ ·)

structure CompileState where
  branches : List CandidateBranch
  fixed : Nat
  access : Nat
  empty : Bool
  expansionExceeded : Bool
  assignments : List PredicateAssignment

def initialState (filters : List Filter) : CompileState :=
  ⟨[⟨[version], 0, [], none⟩], 0, 0, false, false, (List.range filters.length).map fun i => ⟨i, false, true⟩⟩

/-- One leading field with its points; an expansion past the limit keeps a single branch. -/
def fixField (filters : List Filter) (f : TemplateField) (points : List Value) (s : CompileState) :
    Except CandidateError CompileState :=
  let fixed := s.fixed + 1
  let empty := s.empty || points.isEmpty
  let points := sortPoints (if points.isEmpty then [.null] else points)
  let exceeded := decide (maxCandidateBranches < s.branches.length * points.length)
  let branches := if exceeded then s.branches.take 1 else s.branches
  let points := if exceeded then points.take 1 else points
  (extendBranches f fixed points branches).map fun next =>
    ⟨next, fixed, s.access + fieldAccess filters f, empty, s.expansionExceeded || exceeded,
      markField filters f s.assignments⟩

def fixFields (filters : List Filter) : List TemplateField → CompileState → Except CandidateError CompileState
  | [], s => .ok s
  | f :: rest, s =>
    (fieldPoints filters f).bind fun points =>
      match points with
      | none => .ok s
      | some points => (fixField filters f points s).bind (fixFields filters rest)

def templateOrder (fields : List TemplateField) : List OrderField :=
  (fields.filter fun f => f.mode ≠ .membership).map fun f => ⟨f.field, fieldDirection f⟩

def effectiveOrder (fields : List TemplateField) (orderBy : List OrderField) : List OrderField :=
  let order := if orderBy = [] then templateOrder fields else orderBy
  if order.any fun f => f.field = idField then order else order ++ [⟨idField, .asc⟩]

/-- An order field must be a scalar field of the template in its direction, or the ascending ID. -/
def orderFieldFound (fields : List TemplateField) (f : OrderField) : Bool :=
  match fields.find? fun tf => tf.field = f.field with
  | some tf => decide (tf.mode ≠ .membership) && decide (fieldDirection tf = f.direction)
  | none => decide (f = ⟨idField, .asc⟩)

/-- The fields after the fixed ones, without an ascending ID at the end. -/
def remainingFields (fields : List TemplateField) : List OrderField :=
  let rest := fields.map fun f => ⟨f.field, fieldDirection f⟩
  if rest.getLast? = some ⟨idField, .asc⟩ then rest.dropLast else rest

def intervalsOf (start : Bytes) (f : TemplateField) :
    List Filter → List KeyInterval → Except CandidateError (List KeyInterval)
  | [], intervals => .ok intervals
  | g :: rest, intervals =>
    if g.field ≠ f.field ∨ g.op = .opContains then intervalsOf start f rest intervals
    else (filterIntervals start (fieldDirection f) g).bind fun constraint =>
      intervalsOf start f rest (intersectIntervals intervals constraint)

def rangeFilter (f : TemplateField) (g : Filter) : Bool :=
  decide (g.field = f.field) && decide (g.op ≠ .opContains)

/-- The ranges of one branch under the filters on the first field that is not fixed. -/
def boundBranch (filters : List Filter) (rest : List TemplateField) (branch : CandidateBranch) :
    Except CandidateError (List CandidateBranch) :=
  let whole : KeyInterval := ⟨branch.fixedPrefix, prefixSuccessor branch.fixedPrefix⟩
  let intervals : Except CandidateError (List KeyInterval) := match rest with
    | [] => .ok [whole]
    | f :: _ => intervalsOf branch.fixedPrefix f filters [whole]
  intervals.map fun is => is.map fun i => { branch with lower := i.lower, upper := i.upper }

def boundBranches (filters : List Filter) (rest : List TemplateField) :
    List CandidateBranch → Except CandidateError (List CandidateBranch)
  | [] => .ok []
  | branch :: branches =>
    (boundBranch filters rest branch).bind fun bounded =>
      (boundBranches filters rest branches).map (bounded ++ ·)

def branchBytes (branch : CandidateBranch) : Nat :=
  branch.fixedPrefix.length + branch.lower.length + (branch.upper.getD []).length

def rangeAccess (filters : List Filter) (rest : List TemplateField) (branches : Nat) : Nat :=
  match rest with
  | [] => 0
  | f :: _ => branches * filters.countP (rangeFilter f)

def markRange (filters : List Filter) (rest : List TemplateField) (branches : List CandidateBranch)
    (assignments : List PredicateAssignment) : List PredicateAssignment :=
  match rest with
  | [] => assignments
  | f :: _ => if branches = [] then assignments else markAccess (rangeFilter f) filters assignments

variable (digests : Digests)

/-- The plan of a query over a template, and the number of filters the index answers. -/
def compileCandidate (t : Template) (filters : List Filter) (orderBy : List OrderField) :
    Except CandidateError (CandidateMetadata × Nat) :=
  (fixFields filters t.fields (initialState filters)).bind fun s =>
    if s.expansionExceeded && !s.empty then .error .tooManyBranches
    else
      let rest := t.fields.drop s.fixed
      if hasMembership rest then .error .noMatchingIndex
      else
        let order := effectiveOrder t.fields orderBy
        let components := orderComponents order
        if !components.all (orderFieldFound t.fields) then .error .noMatchingIndex
        else
          let fixedNames := (t.fields.take s.fixed).map TemplateField.field
          let variableOrder := components.filter fun f => f.field ∉ fixedNames
          if variableOrder ≠ remainingFields rest then .error .noMatchingIndex
          else (boundBranches filters rest s.branches).bind fun bounded =>
            let access := s.access + rangeAccess filters rest s.branches.length
            if access = 0 ∧ orderBy = [] then .error .noMatchingIndex
            else if maxCandidateBranches < bounded.length then .error .tooManyBranches
            else
              let branches := if s.empty then [] else bounded
              if maxManifestBytes < (branches.map branchBytes).sum then .error .manifestTooLarge
              else .ok (⟨t, digests.fingerprint t, [], digests.branchHash branches order, order, branches,
                markRange filters rest s.branches s.assignments⟩, access)

end Syntrix.Index
