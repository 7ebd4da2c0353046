import Syntrix.Authorization.Pattern
import Syntrix.Model.Document

/-! # Evaluation of security rules

A rule set is a tree of match blocks. At every level the patterns are sorted by their text and the first
one that matches decides, either by its conditions or by its nested blocks. Conditions are compiled and
run by the expression language, which may look documents up while it runs.
-/
namespace Syntrix.Authorization

open Lib OrderCode Strings Model

inductive MatchBlock where
  | mk (allow : List (Bytes × Bytes)) (blocks : List (Bytes × MatchBlock))

def MatchBlock.allow : MatchBlock → List (Bytes × Bytes)
  | .mk allow _ => allow

def MatchBlock.blocks : MatchBlock → List (Bytes × MatchBlock)
  | .mk _ blocks => blocks

structure RuleSet where
  database : Bytes
  blocks : List (Bytes × MatchBlock)

structure Resource where
  data : Document
  id : Bytes

structure Authenticated where
  uid : Option Bytes
  username : Bytes
  roles : List Bytes
  dbAdmin : List Bytes
  claims : List (Bytes × Value)

structure Request where
  auth : Authenticated
  resource : Option Resource
  time : Int

section Language

inductive GetError where
  | notFound
  | other
deriving DecidableEq

inductive EvaluateError where
  | compile
  | runtime
deriving DecidableEq

/-- A run of a compiled condition, by the documents it looks up on the way. -/
inductive Program where
  | done (result : Except EvaluateError Bool)
  | existsCall (path : Bytes) (next : Except GetError Bool → Program)
  | getCall (path : Bytes) (next : Except GetError Resource → Program)

structure Input where
  request : Request
  resource : Option Resource
  vars : Vars

/-- The expression language: variables are declared, then conditions are compiled against them. -/
structure Cel where
  declares : List Bytes → Bool
  compile : List Bytes → Bytes → Option (Input → Program)

/-- The part between the first two occurrences of `/documents/`, or the whole path. -/
def stripDatabasePrefix (path : Bytes) : Bytes := (split path (text "/documents/")).getD 1 path

abbrev Store := Bytes → Bytes → Except GetError Document

/-- Both functions read the database `default`. -/
def lookupDatabase : Bytes := text "default"

def Store.existsDocument (store : Store) (path : Bytes) : Except GetError Bool :=
  match store lookupDatabase (stripDatabasePrefix path) with
  | .error .notFound => .ok false
  | .error e => .error e
  | .ok _ => .ok true

def Store.getDocument (store : Store) (path : Bytes) : Except GetError Resource :=
  (store lookupDatabase (stripDatabasePrefix path)).map fun doc => ⟨doc.stripProtectedFields, doc.getID⟩

def Program.run (store : Store) : Program → Except EvaluateError Bool
  | .done result => result
  | .existsCall path next => (next (store.existsDocument path)).run store
  | .getCall path next => (next (store.getDocument path)).run store

end Language

structure Iteration where
  allow : List (Bytes × Bytes) → List (Bytes × Bytes)
  allow_perm : ∀ m, (allow m).Perm m
  vars : Nat → Vars → List (Bytes × Bytes)
  vars_perm : ∀ n m, (vars n m).Perm m.toList

section Evaluate

variable (cel : Cel) (order : Iteration) (store : Store)

def placeholder (name : Bytes) : Bytes := text "$(" ++ name ++ text ")"

/-- Evaluate a condition, the `n`th one of a request, with the variables replaced in its text. -/
def evalCondition (n : Nat) (condition : Bytes) (vars : Vars) (req : Request) (existingRes : Option Resource) :
    Except EvaluateError Bool :=
  let expression := (order.vars n vars).foldl (fun condition x => replaceAll condition (placeholder x.1) x.2) condition
  let names := vars.toList.map Prod.fst
  if !cel.declares names then .error .compile
  else match cel.compile names expression with
  | none => .error .compile
  | some prg => (prg ⟨req, existingRes, vars⟩).run store

def matchesAction (ruleAction reqAction : Bytes) : Bool :=
  decide (ruleAction = reqAction) ||
    decide (ruleAction = text "read") && (decide (reqAction = text "get") || decide (reqAction = text "list")) ||
    decide (ruleAction = text "write") &&
      (decide (reqAction = text "create") || decide (reqAction = text "update") || decide (reqAction = text "delete"))

/-- The conditions to try for an action, one for every listed action that matches. -/
def conditions (allow : List (Bytes × Bytes)) (action : Bytes) : List Bytes :=
  allow.flatMap fun x => ((split x.1 (text ",")).filter fun a => matchesAction (trimSpace a) action).map fun _ => x.2

def evalConditions (vars : Vars) (req : Request) (existingRes : Option Resource) :
    Nat → List Bytes → Except EvaluateError Bool
  | _, [] => .ok false
  | n, condition :: rest =>
    match evalCondition cel order store n condition vars req existingRes with
    | .error e => .error e
    | .ok true => .ok true
    | .ok false => evalConditions vars req existingRes (n + 1) rest

def evaluateAllow (allow : List (Bytes × Bytes)) (action : Bytes) (vars : Vars) (req : Request) (existingRes : Option Resource) :
    Except EvaluateError Bool :=
  evalConditions cel order store vars req existingRes 0 (conditions (order.allow allow) action)

/-- The order of patterns: without a variable first, then the longer text, then alphabetical. -/
def before (p q : Bytes) : Bool :=
  if !p.contains 0x7B && q.contains 0x7B then true
  else if p.contains 0x7B && !q.contains 0x7B then false
  else if p.length ≠ q.length then decide (q.length < p.length)
  else decide (p < q)

structure Choice where
  pattern : Bytes
  remaining : Bytes
  vars : Vars

def firstMatch (patterns : List Bytes) (path : Bytes) : Option Choice :=
  (patterns.insertionSort fun p q => ¬ before q p).findSome? fun p =>
    (matchPattern p path).map fun x => ⟨p, x.1, x.2⟩

theorem sizeOf_blocks_lt {blocks : List (Bytes × MatchBlock)} {pattern : Bytes} {block : MatchBlock}
    (h : blocks.lookup pattern = some block) : sizeOf block.blocks < sizeOf blocks := by
  have hMem : ∃ x ∈ blocks, x.2 = block := by
    induction blocks with
    | nil => cases h
    | cons x blocks ih =>
      rw [List.lookup_cons] at h
      split at h
      · exact ⟨x, List.mem_cons_self, Option.some.inj h⟩
      · obtain ⟨y, hy, hEq⟩ := ih h
        exact ⟨y, List.mem_cons_of_mem _ hy, hEq⟩
  obtain ⟨⟨p, b⟩, hx, rfl⟩ := hMem
  have hSize := List.sizeOf_lt_of_mem hx
  cases b with
  | mk allow nested =>
    simp only [MatchBlock.blocks]
    simp only [Prod.mk.sizeOf_spec, MatchBlock.mk.sizeOf_spec] at hSize
    omega

def matchPath (blocks : List (Bytes × MatchBlock)) (path action : Bytes) (vars : Vars) (req : Request)
    (existingRes : Option Resource) : Except EvaluateError Bool :=
  match firstMatch (blocks.map Prod.fst) path with
  | none => .ok false
  | some choice =>
    match h : blocks.lookup choice.pattern with
    | none => .ok false
    | some block =>
      have := sizeOf_blocks_lt h
      let childVars := KeyValue.setAll vars choice.vars.toList
      if choice.remaining = [] ∨ choice.remaining = [slash] then
        evaluateAllow cel order store block.allow action childVars req existingRes
      else matchPath block.blocks choice.remaining action childVars req existingRes
termination_by sizeOf blocks

def fullPath (database path : Bytes) : Bytes := text "/databases/" ++ database ++ text "/documents/" ++ trimPrefix path [slash]

abbrev Engine := Bytes → Option RuleSet

def evaluate (engine : Engine) (database path action : Bytes) (req : Request) (existingRes : Option Resource) :
    Except EvaluateError Bool :=
  if database ∈ req.auth.dbAdmin then .ok true
  else match engine database with
  | none => .ok false
  | some rules => matchPath cel order store rules.blocks (fullPath database path) action ∅ req existingRes

end Evaluate

section Update

inductive RuleError where
  | databaseMismatch
  | invalidCondition
deriving DecidableEq

def databasePlaceholder : Bytes := text "\x7bdatabase\x7d"

/-- The pattern with the database in place of its placeholder; a pattern that names another one is rejected. -/
def processPattern (database pattern : Bytes) : Except RuleError Bytes :=
  if Strings.contains pattern databasePlaceholder then .ok (replaceAll pattern databasePlaceholder database)
  else if (text "/databases/").isPrefixOf pattern && decide ((pattern.splitOn slash).getD 2 [] ≠ database) then
    .error .databaseMismatch
  else .ok pattern

/-- Set the block of a pattern; one that was there before is replaced. -/
def setBlock (blocks : List (Bytes × MatchBlock)) (pattern : Bytes) (block : MatchBlock) : List (Bytes × MatchBlock) :=
  blocks.filter (fun x => decide (x.1 ≠ pattern)) ++ [(pattern, block)]

/-- The blocks are processed in the order in which the map is ranged over. -/
def processMatchPaths (database : Bytes) (done : List (Bytes × MatchBlock)) :
    List (Bytes × MatchBlock) → Except RuleError (List (Bytes × MatchBlock))
  | [] => .ok done
  | (pattern, .mk allow nested) :: rest =>
    match processPattern database pattern with
    | .error e => .error e
    | .ok newPattern =>
      match processMatchPaths database [] nested with
      | .error e => .error e
      | .ok blocks => processMatchPaths database (setBlock done newPattern (.mk allow blocks)) rest

def extractVars (pattern : Bytes) : List Bytes :=
  ((pattern.splitOn slash).filter isVariable).map fun part => trimSuffix (variableName part) recursiveSuffix

def dummyVar : Bytes := text "dummy_var"

def validCondition (cel : Cel) (vars : List Bytes) (condition : Bytes) : Bool :=
  (cel.compile (vars ++ [dummyVar]) (vars.foldl (fun c v => replaceAll c (placeholder v) dummyVar) condition)).isSome

def validateMatchBlocks (cel : Cel) (parentVars : List Bytes) : List (Bytes × MatchBlock) → Bool
  | [] => true
  | (pattern, .mk allow nested) :: rest =>
    let currentVars := parentVars ++ extractVars pattern
    cel.declares (currentVars ++ [dummyVar]) && allow.all (fun x => validCondition cel currentVars x.2) &&
      validateMatchBlocks cel currentVars nested && validateMatchBlocks cel parentVars rest

def updateRules (cel : Cel) (engine : Engine) (database : Bytes) (content : RuleSet) : Except RuleError Engine :=
  if content.database ≠ [] ∧ content.database ≠ database then .error .databaseMismatch
  else match processMatchPaths database [] content.blocks with
  | .error e => .error e
  | .ok blocks =>
    if validateMatchBlocks cel [] blocks then .ok (Function.update engine database (some ⟨database, blocks⟩))
    else .error .invalidCondition

end Update

end Syntrix.Authorization
