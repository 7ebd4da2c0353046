import Syntrix.Authorization.Specificity

/-! # Orders of maps

Rule sets, conditions and variables are kept in maps, which are ranged over in any order: when the rules
are loaded, when the patterns of a level are collected, when the conditions of a block are tried and when
variables are replaced in a condition. Patterns are sorted, so their order does not matter; the other
orders may decide.
-/
namespace Syntrix.Authorization

open Lib OrderCode Strings List Function

/-- The orders of an evaluation, with those in which the patterns of a level are collected. -/
structure MapOrder extends Iteration where
  patterns : List (Bytes × MatchBlock) → List Bytes
  patterns_perm : ∀ blocks, (patterns blocks).Perm (blocks.map Prod.fst)

section Collected

variable (cel : Cel) (order : MapOrder) (store : Store)

/-- Evaluate with the patterns of every level collected in some order before they are sorted. -/
def matchPathIn (blocks : List (Bytes × MatchBlock)) (path action : Bytes) (vars : Vars) (req : Request)
    (existingRes : Option Resource) : Except EvaluateError Bool :=
  match firstMatch (order.patterns blocks) path with
  | none => .ok false
  | some choice =>
    match h : blocks.lookup choice.pattern with
    | none => .ok false
    | some block =>
      have := sizeOf_blocks_lt h
      let childVars := KeyValue.setAll vars choice.vars.toList
      if choice.remaining = [] ∨ choice.remaining = [slash] then
        evaluateAllow cel order.toIteration store block.allow action childVars req existingRes
      else matchPathIn block.blocks choice.remaining action childVars req existingRes
termination_by sizeOf blocks

def evaluateIn (engine : Engine) (database path action : Bytes) (req : Request) (existingRes : Option Resource) :
    Except EvaluateError Bool :=
  if database ∈ req.auth.dbAdmin then .ok true
  else match engine database with
  | none => .ok false
  | some rules => matchPathIn cel order store rules.blocks (fullPath database path) action ∅ req existingRes

theorem firstMatch_patterns (blocks : List (Bytes × MatchBlock)) (path : Bytes) :
    firstMatch (order.patterns blocks) path = firstMatch (blocks.map Prod.fst) path := by
  refine firstMatch_congr fun q => ?_
  simp only [First, (order.patterns_perm blocks).mem_iff]

theorem matchPathIn_eq (blocks : List (Bytes × MatchBlock)) (path action : Bytes) (vars : Vars) (req : Request)
    (res : Option Resource) :
    matchPathIn cel order store blocks path action vars req res =
      matchPath cel order.toIteration store blocks path action vars req res := by
  induction hSize : sizeOf blocks using Nat.strong_induction_on generalizing blocks path vars with
  | _ size ih =>
    rw [matchPathIn, firstMatch_patterns]
    cases hChoice : firstMatch (blocks.map Prod.fst) path with
    | none => rw [matchPath_none cel order.toIteration store hChoice]
    | some choice =>
      obtain ⟨block, hBlock⟩ := lookup_choice hChoice
      rw [matchPath_some cel order.toIteration store hChoice hBlock]
      simp only
      split
      · rename_i hNone
        cases hNone.symm.trans hBlock
      rename_i found hFound
      cases hFound.symm.trans hBlock
      rw [ih _ (hSize ▸ sizeOf_blocks_lt hBlock) _ _ _ rfl]

theorem evaluateIn_eq (engine : Engine) (database path action : Bytes) (req : Request) (res : Option Resource) :
    evaluateIn cel order store engine database path action req res =
      evaluate cel order.toIteration store engine database path action req res := by
  rw [evaluateIn, evaluate]
  split
  · rfl
  cases engine database with
  | none => rfl
  | some rules => exact matchPathIn_eq cel order store _ _ _ _ _ _

end Collected

inductive Outcome where
  | allowed
  | denied
  | failed
deriving DecidableEq

def outcome : Except EvaluateError Bool → Outcome
  | .ok true => .allowed
  | .ok false => .denied
  | .error _ => .failed

section Block

variable (cel : Cel) (store : Store)

/-- A condition with its variables replaced in the order of the entries. -/
def conditionIn (entries : List (Bytes × Bytes)) (condition : Bytes) (vars : Vars) (req : Request)
    (existingRes : Option Resource) : Except EvaluateError Bool :=
  let expression := entries.foldl (fun condition x => replaceAll condition (placeholder x.1) x.2) condition
  let names := vars.toList.map Prod.fst
  if !cel.declares names then .error .compile
  else match cel.compile names expression with
  | none => .error .compile
  | some prg => (prg ⟨req, existingRes, vars⟩).run store

/-- The conditions of a block that are tried for an action settle on an outcome: none of them, with the
variables replaced in any order, has another one than that or a denial, and one of them always has it. -/
def Settles (allow : List (Bytes × Bytes)) (action : Bytes) (vars : Vars) (req : Request) (res : Option Resource)
    (o : Outcome) : Prop :=
  (∀ c ∈ conditions allow action, ∀ entries : List (Bytes × Bytes), entries.Perm vars.toList →
    outcome (conditionIn cel store entries c vars req res) = o ∨
      outcome (conditionIn cel store entries c vars req res) = .denied) ∧
  (o ≠ .denied → ∃ c ∈ conditions allow action, ∀ entries : List (Bytes × Bytes), entries.Perm vars.toList →
    outcome (conditionIn cel store entries c vars req res) = o)

variable {cel store} {vars : Vars} {req : Request} {res : Option Resource}

theorem evalCondition_eq (order : Iteration) (n : Nat) (condition : Bytes) :
    evalCondition cel order store n condition vars req res =
      conditionIn cel store (order.vars n vars) condition vars req res := rfl

theorem outcome_evalConditions_cons (order : Iteration) (n : Nat) (c : Bytes) (rest : List Bytes) :
    outcome (evalConditions cel order store vars req res n (c :: rest)) =
      if outcome (conditionIn cel store (order.vars n vars) c vars req res) = .denied then
        outcome (evalConditions cel order store vars req res (n + 1) rest)
      else outcome (conditionIn cel store (order.vars n vars) c vars req res) := by
  rw [evalConditions, evalCondition_eq]
  cases conditionIn cel store (order.vars n vars) c vars req res with
  | error e => rfl
  | ok result => cases result <;> rfl

variable {o : Outcome} {cs : List Bytes}

theorem evalConditions_settled (order : Iteration) (n : Nat)
    (hOnly : ∀ c ∈ cs, ∀ entries : List (Bytes × Bytes), entries.Perm vars.toList → outcome (conditionIn cel store entries c vars req res) = o ∨ outcome (conditionIn cel store entries c vars req res) = .denied)
    (hSome : o ≠ .denied → ∃ c ∈ cs, ∀ entries : List (Bytes × Bytes), entries.Perm vars.toList → outcome (conditionIn cel store entries c vars req res) = o) :
    outcome (evalConditions cel order store vars req res n cs) = o := by
  induction cs generalizing n with
  | nil =>
    by_contra hNe
    obtain ⟨c, hc, -⟩ := hSome (Ne.symm hNe)
    cases hc
  | cons c rest ih =>
    obtain ⟨hHead, hTail⟩ := forall_mem_cons.mp hOnly
    have hHere := hHead _ (order.vars_perm n vars)
    rw [outcome_evalConditions_cons]
    split
    · rename_i hDenied
      refine ih (n + 1) hTail fun hNe => ?_
      obtain ⟨c', hc', hAlways⟩ := hSome hNe
      obtain rfl | hc' := mem_cons.mp hc'
      · exact absurd ((hAlways _ (order.vars_perm n vars)).symm.trans hDenied) hNe
      · exact ⟨c', hc', hAlways⟩
    · rename_i hDenied
      exact hHere.resolve_right hDenied

theorem evalConditions_denied (order : Iteration) (n : Nat)
    (h : ∀ (i : Nat) c, cs[i]? = some c → outcome (conditionIn cel store (order.vars (n + i) vars) c vars req res) = .denied) :
    outcome (evalConditions cel order store vars req res n cs) = .denied := by
  induction cs generalizing n with
  | nil => rfl
  | cons c rest ih =>
    have hHead : outcome (conditionIn cel store (order.vars n vars) c vars req res) = .denied := h 0 c rfl
    rw [outcome_evalConditions_cons, if_pos hHead]
    refine ih (n + 1) fun i c' hc' => ?_
    rw [Nat.add_right_comm]
    exact h (i + 1) c' hc'

variable {allow : List (Bytes × Bytes)}

variable {action c : Bytes}

theorem mem_conditions :
    c ∈ conditions allow action ↔
      ∃ x ∈ allow, x.2 = c ∧ ∃ a ∈ split x.1 (text ","), matchesAction (trimSpace a) action = true := by
  simp only [conditions, mem_flatMap, List.mem_map, mem_filter]
  constructor
  · rintro ⟨x, hx, a, ha, rfl⟩
    exact ⟨x, hx, rfl, a, ha⟩
  · rintro ⟨x, hx, rfl, a, ha⟩
    exact ⟨x, hx, a, ha, rfl⟩

def entryFirst (x : Bytes × Bytes) (m : List (Bytes × Bytes)) : List (Bytes × Bytes) :=
  if x ∈ m then x :: m.erase x else m

theorem entryFirst_perm (x : Bytes × Bytes) (m : List (Bytes × Bytes)) : (entryFirst x m).Perm m := by
  unfold entryFirst
  split
  · rename_i hMem
    exact (perm_cons_erase hMem).symm
  · exact .refl m

open Classical in
/-- Orders that replace the variables of one map as given for each evaluation. -/
noncomputable def replacing (allow : List (Bytes × Bytes) → List (Bytes × Bytes)) (hAllow : ∀ m, (allow m).Perm m) (vars : Vars)
    (entries : Nat → List (Bytes × Bytes)) (hEntries : ∀ n, (entries n).Perm vars.toList) : Iteration where
  allow := allow
  allow_perm := hAllow
  vars n m := if m = vars then entries n else m.toList
  vars_perm n m := by
    split
    · rename_i hSame
      rw [hSame]
      exact hEntries n
    · exact .refl _

theorem replacing_vars {allow : List (Bytes × Bytes) → List (Bytes × Bytes)} {hAllow : ∀ m, (allow m).Perm m}
    {entries : Nat → List (Bytes × Bytes)} {hEntries : ∀ n, (entries n).Perm vars.toList} (n : Nat) :
    (replacing allow hAllow vars entries hEntries).vars n vars = entries n := by simp [replacing]

theorem exists_first (hc : c ∈ conditions allow action) {entries : List (Bytes × Bytes)} (hEntries : entries.Perm vars.toList)
    (hEnds : outcome (conditionIn cel store entries c vars req res) ≠ .denied) :
    ∃ order : Iteration, outcome (evaluateAllow cel order store allow action vars req res) =
      outcome (conditionIn cel store entries c vars req res) := by
  obtain ⟨x, hx, rfl, a, ha, hAction⟩ := mem_conditions.mp hc
  refine ⟨replacing (entryFirst x) (entryFirst_perm x) vars (fun _ => entries) (fun _ => hEntries), ?_⟩
  obtain ⟨rest, hRest⟩ : ∃ rest, conditions (entryFirst x allow) action = x.2 :: rest := by
    have hFilter : a ∈ (split x.1 (text ",")).filter fun a => matchesAction (trimSpace a) action :=
      mem_filter.mpr ⟨ha, hAction⟩
    obtain ⟨b, others, hCons⟩ := exists_cons_of_ne_nil (ne_nil_of_mem hFilter)
    rw [entryFirst, if_pos hx, conditions, flatMap_cons, hCons]
    exact ⟨_, rfl⟩
  have hConditions : conditions ((replacing (entryFirst x) (entryFirst_perm x) vars (fun _ => entries)
      (fun _ => hEntries)).allow allow) action = x.2 :: rest := hRest
  rw [evaluateAllow, hConditions, outcome_evalConditions_cons, replacing_vars, if_neg hEnds]

theorem exists_denied
    (h : ∀ c ∈ conditions allow action, ∃ entries : List (Bytes × Bytes), entries.Perm vars.toList ∧ outcome (conditionIn cel store entries c vars req res) = .denied) :
    ∃ order : Iteration, outcome (evaluateAllow cel order store allow action vars req res) = .denied := by
  have hNth : ∀ i : Nat, ∃ entries : List (Bytes × Bytes), entries.Perm vars.toList ∧ ∀ c, (conditions allow action)[i]? = some c →
      outcome (conditionIn cel store entries c vars req res) = .denied := by
    intro i
    cases hc : (conditions allow action)[i]? with
    | none => exact ⟨vars.toList, .refl _, nofun⟩
    | some c =>
      obtain ⟨entries, hPerm, hDenied⟩ := h c (mem_of_getElem? hc)
      refine ⟨entries, hPerm, ?_⟩
      rintro _ ⟨⟩
      exact hDenied
  choose entries hPerm hDenied using hNth
  refine ⟨replacing id (fun _ => .refl _) vars entries hPerm, ?_⟩
  refine evalConditions_denied _ 0 fun i c hc => ?_
  rw [replacing_vars, Nat.zero_add]
  exact hDenied i c hc

theorem evaluateAllow_settles_iff :
    (∀ order : Iteration, outcome (evaluateAllow cel order store allow action vars req res) = o) ↔
      Settles cel store allow action vars req res o := by
  constructor
  · intro hAll
    have hOnly : ∀ c ∈ conditions allow action, ∀ entries : List (Bytes × Bytes), entries.Perm vars.toList →
        outcome (conditionIn cel store entries c vars req res) = o ∨
          outcome (conditionIn cel store entries c vars req res) = .denied := by
      intro c hc entries hEntries
      by_cases hEnds : outcome (conditionIn cel store entries c vars req res) = .denied
      · exact .inr hEnds
      · obtain ⟨order, hOrder⟩ := exists_first hc hEntries hEnds
        exact .inl (hOrder.symm.trans (hAll order))
    refine ⟨hOnly, fun hNe => ?_⟩
    by_contra hNone
    push Not at hNone
    have hMay : ∀ c ∈ conditions allow action, ∃ entries : List (Bytes × Bytes), entries.Perm vars.toList ∧
        outcome (conditionIn cel store entries c vars req res) = .denied := by
      intro c hc
      obtain ⟨entries, hEntries, hOther⟩ := hNone c hc
      exact ⟨entries, hEntries, (hOnly c hc entries hEntries).resolve_left hOther⟩
    obtain ⟨order, hOrder⟩ := exists_denied hMay
    exact hNe ((hAll order).symm.trans hOrder)
  · rintro ⟨hOnly, hSome⟩ order
    have hMem : ∀ c, c ∈ conditions (order.allow allow) action ↔ c ∈ conditions allow action := by
      intro c
      simp only [mem_conditions, (order.allow_perm allow).mem_iff]
    refine evalConditions_settled order 0 (fun c hc => hOnly c ((hMem c).mp hc)) fun hNe => ?_
    obtain ⟨c, hc, hAlways⟩ := hSome hNe
    exact ⟨c, (hMem c).mpr hc, hAlways⟩

end Block

section Tree

/-- The conditions that a path leads to, with the variables bound on the way. -/
def reached (blocks : List (Bytes × MatchBlock)) (path : Bytes) (vars : Vars) : Option (List (Bytes × Bytes) × Vars) :=
  match firstMatch (blocks.map Prod.fst) path with
  | none => none
  | some choice =>
    match h : blocks.lookup choice.pattern with
    | none => none
    | some block =>
      have := sizeOf_blocks_lt h
      let childVars := KeyValue.setAll vars choice.vars.toList
      if choice.remaining = [] ∨ choice.remaining = [slash] then some (block.allow, childVars)
      else reached block.blocks choice.remaining childVars
termination_by sizeOf blocks

variable {path : Bytes} {blocks : List (Bytes × MatchBlock)}

theorem reached_some {choice : Choice} {block : MatchBlock} (hChoice : firstMatch (blocks.map Prod.fst) path = some choice)
    (hBlock : blocks.lookup choice.pattern = some block) (vars : Vars) : reached blocks path vars =
      if choice.remaining = [] ∨ choice.remaining = [slash] then some (block.allow, KeyValue.setAll vars choice.vars.toList)
      else reached block.blocks choice.remaining (KeyValue.setAll vars choice.vars.toList) := by
  rw [reached, hChoice]
  simp only
  split
  · rename_i hNone
    cases hNone.symm.trans hBlock
  rename_i found hFound
  cases hFound.symm.trans hBlock
  rfl

theorem matchPath_reached (cel : Cel) (order : Iteration) (store : Store) (blocks : List (Bytes × MatchBlock))
    (path action : Bytes) (vars : Vars) (req : Request) (res : Option Resource) :
    matchPath cel order store blocks path action vars req res =
      match reached blocks path vars with
      | none => .ok false
      | some (allow, vars) => evaluateAllow cel order store allow action vars req res := by
  induction hSize : sizeOf blocks using Nat.strong_induction_on generalizing blocks path vars with
  | _ size ih =>
    cases hChoice : firstMatch (blocks.map Prod.fst) path with
    | none => rw [matchPath_none cel order store hChoice, reached, hChoice]
    | some choice =>
      obtain ⟨block, hBlock⟩ := lookup_choice hChoice
      rw [matchPath_some cel order store hChoice hBlock, reached_some hChoice hBlock]
      split
      · rfl
      · exact ih _ (hSize ▸ sizeOf_blocks_lt hBlock) _ _ _ rfl

/-- What a path leads to settles on an outcome; a path that leads nowhere is denied. -/
def PathSettles (cel : Cel) (store : Store) (blocks : List (Bytes × MatchBlock)) (path action : Bytes) (req : Request)
    (res : Option Resource) (o : Outcome) : Prop :=
  match reached blocks path ∅ with
  | none => o = .denied
  | some (allow, vars) => Settles cel store allow action vars req res o

theorem matchPath_settles_iff {cel : Cel} {store : Store} {action : Bytes} {req : Request} {res : Option Resource}
    {o : Outcome} :
    (∀ order : Iteration, outcome (matchPath cel order store blocks path action ∅ req res) = o) ↔
      PathSettles cel store blocks path action req res o := by
  unfold PathSettles
  simp only [matchPath_reached]
  cases reached blocks path ∅ with
  | none => exact ⟨fun h => (h sortedIteration).symm, fun h _ => h.symm⟩
  | some leaf => exact evaluateAllow_settles_iff

end Tree

inductive Reordered : List (Bytes × MatchBlock) → List (Bytes × MatchBlock) → Prop
  | nil : Reordered [] []
  | cons {pattern : Bytes} {allow : List (Bytes × Bytes)} {nested nested' rest rest' : List (Bytes × MatchBlock)} :
      Reordered nested nested' → Reordered rest rest' →
      Reordered ((pattern, .mk allow nested) :: rest) ((pattern, .mk allow nested') :: rest')
  | perm {blocks blocks' blocks'' : List (Bytes × MatchBlock)} :
      Reordered blocks blocks' → blocks'.Perm blocks'' → Reordered blocks blocks''

section Load

variable (cel : Cel) (store : Store) (engine : Engine) (content : RuleSet) (database path action : Bytes) (req : Request)
  (res : Option Resource)

def Loads (loaded : Engine) : Prop :=
  ∃ blocks, Reordered content.blocks blocks ∧ updateRules cel engine database ⟨content.database, blocks⟩ = .ok loaded

/-- A request has the same outcome in all orders in which the rules are loaded and evaluated. -/
def Deterministic : Prop :=
  ∀ loaded loaded', Loads cel engine content database loaded → Loads cel engine content database loaded' →
    ∀ order order' : MapOrder, outcome (evaluateIn cel order store loaded database path action req res) =
      outcome (evaluateIn cel order' store loaded' database path action req res)

variable {cel engine content database}

variable {loaded : Engine}

theorem Loads.rules (h : Loads cel engine content database loaded) : ∃ rules, loaded database = some rules := by
  obtain ⟨blocks, -, hUpdate⟩ := h
  unfold updateRules at hUpdate
  split at hUpdate
  · cases hUpdate
  split at hUpdate
  · cases hUpdate
  split at hUpdate
  · cases hUpdate
    exact ⟨_, update_self _ _ _⟩
  · cases hUpdate

variable (cel engine content database)

def listedPatterns (order : Iteration) : MapOrder :=
  { order with patterns := fun blocks => blocks.map Prod.fst, patterns_perm := fun _ => .refl _ }

variable {cel store engine content database path action req res}

theorem evaluate_rules (hAdmin : database ∉ req.auth.dbAdmin) (order : Iteration) {rules : RuleSet}
    (hRules : loaded database = some rules) : evaluate cel order store loaded database path action req res =
      matchPath cel order store rules.blocks (fullPath database path) action ∅ req res := by
  rw [evaluate, if_neg hAdmin, hRules]

/-- The outcome of a deterministic request is the one that every rule set the load may give settles on. -/
theorem Deterministic.settles (h : Deterministic cel store engine content database path action req res)
    (hAdmin : database ∉ req.auth.dbAdmin) : ∃ o, ∀ loaded rules, Loads cel engine content database loaded →
      loaded database = some rules → PathSettles cel store rules.blocks (fullPath database path) action req res o := by
  by_cases hSome : ∃ loaded, Loads cel engine content database loaded
  · obtain ⟨first, hFirst⟩ := hSome
    refine ⟨outcome (evaluateIn cel (listedPatterns sortedIteration) store first database path action req res), ?_⟩
    intro loaded rules hLoads hRules
    refine matchPath_settles_iff.mp fun order => ?_
    rw [← evaluate_rules hAdmin order hRules, ← h loaded first hLoads hFirst (listedPatterns order), evaluateIn_eq]
    rfl
  · exact ⟨.denied, fun loaded rules hLoads => absurd ⟨loaded, hLoads⟩ hSome⟩

variable (cel store engine content database path action req res)

end Load

section Races

/-- An expression language with the two literals and a condition that fails. -/
def faultyCel : Cel where
  declares _ := true
  compile _ e :=
    if e = text "true" then some fun _ => .done (.ok true)
    else if e = text "false" then some fun _ => .done (.ok false)
    else some fun _ => .done (.error .runtime)

def faultyRules : RuleSet :=
  ⟨text "db", [(catchAllPattern, .mk [(text "get", text "fail"), (text "read", text "true")] [])]⟩

def placeholderPattern : Bytes := text "/databases/\x7bdatabase\x7d/documents/\x7bdocument=**\x7d"

/-- Two patterns that are the same one when the placeholder is replaced. -/
def mergedRules : RuleSet :=
  ⟨text "db", [(placeholderPattern, .mk [(text "get", text "true")] []), (catchAllPattern, .mk [(text "get", text "false")] [])]⟩

def noDocuments : Store := fun _ _ => .error .notFound

theorem reordered_refl : (blocks : List (Bytes × MatchBlock)) → Reordered blocks blocks
  | [] => .nil
  | (_, .mk _ nested) :: rest => .cons (reordered_refl nested) (reordered_refl rest)

def catchAllVars : Vars := KeyValue.setAll ∅ [(text "document", text "users/1")]

theorem catchAll_settles {allow : List (Bytes × Bytes)} {o : Outcome}
    (h : PathSettles faultyCel noDocuments [(catchAllPattern, .mk allow [])] (fullPath (text "db") (text "users/1"))
      (text "get") anonymous none o) : Settles faultyCel noDocuments allow (text "get") catchAllVars anonymous none o := by
  have hChoice : firstMatch ([(catchAllPattern, MatchBlock.mk allow [])].map Prod.fst) (fullPath (text "db") (text "users/1")) =
      some ⟨catchAllPattern, [], (∅ : Vars).insert (text "document") (text "users/1")⟩ := by rfl
  have hBlock : [(catchAllPattern, MatchBlock.mk allow [])].lookup catchAllPattern = some (.mk allow []) := by rfl
  have hVars : ((∅ : Vars).insert (text "document") (text "users/1")).toList = [(text "document", text "users/1")] := by rfl
  rw [PathSettles, reached_some hChoice hBlock, if_pos (.inl rfl), hVars] at h
  exact h

theorem faultyRules_loads : Loads faultyCel (fun _ => none) faultyRules (text "db")
    (update (fun _ => none) (text "db") (some faultyRules)) := by
  refine ⟨faultyRules.blocks, reordered_refl _, ?_⟩
  have hPattern : processPattern (text "db") catchAllPattern = .ok catchAllPattern := by rfl
  have hProcessed : processMatchPaths (text "db") [] faultyRules.blocks = .ok faultyRules.blocks := by
    simp only [faultyRules, processMatchPaths, hPattern]
    rfl
  have hValid : validateMatchBlocks faultyCel [] faultyRules.blocks = true := by
    simp only [faultyRules, validateMatchBlocks]
    decide +kernel
  rw [updateRules, if_neg (by decide), hProcessed]
  simp only [hValid, if_true]
  rfl

theorem mergedRules_loads {first second : Bytes × MatchBlock} (hPerm : mergedRules.blocks.Perm [first, second])
    (hFirst : processPattern (text "db") first.1 = .ok catchAllPattern)
    (hSecond : processPattern (text "db") second.1 = .ok catchAllPattern) {condition condition' : Bytes}
    (hBlock : first.2 = .mk [(text "get", condition)] []) (hBlock' : second.2 = .mk [(text "get", condition')] []) :
    Loads faultyCel (fun _ => none) mergedRules (text "db") (update (fun _ => none) (text "db")
      (some ⟨text "db", [(catchAllPattern, .mk [(text "get", condition')] [])]⟩)) := by
  obtain ⟨p, _⟩ := first
  obtain ⟨q, _⟩ := second
  cases hBlock
  cases hBlock'
  refine ⟨_, (reordered_refl _).perm hPerm, ?_⟩
  have hProcessed : processMatchPaths (text "db") [] [(p, .mk [(text "get", condition)] []), (q, .mk [(text "get", condition')] [])] =
      .ok [(catchAllPattern, .mk [(text "get", condition')] [])] := by
    simp only [processMatchPaths, hFirst, hSecond]
    simp [setBlock]
  have hCompiles : ∀ names e, (faultyCel.compile names e).isSome = true := by
    intro names e
    simp only [faultyCel]
    split
    · rfl
    · split <;> rfl
  have hValid : validateMatchBlocks faultyCel [] [(catchAllPattern, .mk [(text "get", condition')] [])] = true := by
    simp [validateMatchBlocks, validCondition, hCompiles]
    rfl
  rw [updateRules, if_neg (fun h => h.2 rfl), hProcessed]
  simp only [hValid, if_true]

end Races

end Syntrix.Authorization
