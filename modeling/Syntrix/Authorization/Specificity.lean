import Syntrix.Authorization.Rules

/-! # Which rule decides

The sorted patterns are compared by their texts only, so the pattern that decides need not be the most
specific one that matches. It is exactly when, at every level on the way, the pattern that comes first by
its text is not strictly more general than another one that matches; then more general patterns have no
influence on the decision.
-/
namespace Syntrix.Authorization

open Lib OrderCode Strings List Option

section Order

def rank (p : Bytes) : Bool ×ₗ (ℕᵒᵈ ×ₗ Bytes) := toLex (p.contains 0x7B, toLex (OrderDual.toDual p.length, p))

variable {p q : Bytes}

theorem before_iff : before p q = true ↔ rank p < rank q := by
  rw [rank, rank, Prod.Lex.toLex_lt_toLex, Prod.Lex.toLex_lt_toLex, before]
  cases p.contains 0x7B <;> cases q.contains 0x7B <;> simp
  all_goals
    rcases lt_trichotomy p.length q.length with hLt | hEq | hGt
    · simp [hLt.ne, hLt.not_gt]
    · simp [hEq]
    · simp [hGt, hGt.ne']

theorem rank_injective : Function.Injective rank := by
  intro p q h
  have hPair := congrArg (fun x => (ofLex (ofLex x).2).2) h
  exact hPair

theorem before_of_ne (hNe : p ≠ q) (hNot : before q p = false) : before p q = true := by
  rw [before_iff]
  rw [← Bool.not_eq_true, before_iff, not_lt] at hNot
  exact lt_of_le_of_ne hNot fun h => hNe (rank_injective h)

end Order

section First

variable {patterns : List Bytes} {path : Bytes}

/-- The pattern that comes first by its text among those that match. -/
def First (patterns : List Bytes) (path q : Bytes) : Prop :=
  q ∈ patterns ∧ Matches q path ∧ ∀ g ∈ patterns, Matches g path → g = q ∨ before q g = true

theorem First.unique {p q : Bytes} (hp : First patterns path p) (hq : First patterns path q) : p = q := by
  obtain rfl | hLess := hp.2.2 q hq.1 hq.2.1
  · rfl
  obtain hEq | hLess' := hq.2.2 p hp.1 hp.2.1
  · exact hEq
  · rw [before_iff] at hLess hLess'
    exact absurd hLess hLess'.asymm

theorem sorted_insertionSort (patterns : List Bytes) :
    (patterns.insertionSort fun p q => ¬ before q p).Pairwise fun p q => ¬ before q p := by
  have : Std.Total fun p q : Bytes => ¬ before q p := ⟨fun p q => by
    simp only [before_iff, not_lt]
    exact le_total _ _⟩
  have : IsTrans Bytes fun p q => ¬ before q p := ⟨fun p q r => by
    simp only [before_iff, not_lt]
    exact le_trans⟩
  exact pairwise_insertionSort _ _

theorem firstMatch_some {choice : Choice} (h : firstMatch patterns path = some choice) :
    First patterns path choice.pattern ∧ matchPattern choice.pattern path = some (choice.remaining, choice.vars) := by
  obtain ⟨earlier, p, later, hSplit, hp, hEarlier⟩ := findSome?_eq_some_iff.mp h
  obtain ⟨x, hMatch, rfl⟩ := map_eq_some_iff.mp hp
  have hMem : ∀ g, g ∈ patterns ↔ g ∈ earlier ++ p :: later := by
    intro g
    rw [← hSplit, mem_insertionSort]
  have hSorted := sorted_insertionSort patterns
  rw [hSplit, pairwise_append] at hSorted
  refine ⟨⟨(hMem p).mpr (by simp), by simp [Matches, hMatch], fun g hg hMatches => ?_⟩, hMatch⟩
  obtain hg | hg := mem_append.mp ((hMem g).mp hg)
  · have hNone := map_eq_none_iff.mp (hEarlier g hg)
    simp [Matches, hNone] at hMatches
  obtain rfl | hg := mem_cons.mp hg
  · exact .inl rfl
  rcases eq_or_ne g p with rfl | hNe
  · exact .inl rfl
  · have hNot := (pairwise_cons.mp hSorted.2.1).1 g hg
    exact .inr (before_of_ne hNe.symm (by simpa using hNot))

theorem firstMatch_none (h : firstMatch patterns path = none) {g : Bytes} (hg : g ∈ patterns) : ¬ Matches g path := by
  have hNone := findSome?_eq_none_iff.mp h g ((mem_insertionSort _).mpr hg)
  rw [Matches, map_eq_none_iff.mp hNone]
  simp

theorem firstMatch_of_first {q : Bytes} (hFirst : First patterns path q) :
    ∃ choice, firstMatch patterns path = some choice ∧ choice.pattern = q := by
  cases hChoice : firstMatch patterns path with
  | none => exact absurd hFirst.2.1 (firstMatch_none hChoice hFirst.1)
  | some choice => exact ⟨choice, rfl, (firstMatch_some hChoice).1.unique hFirst⟩

theorem firstMatch_congr {patterns' : List Bytes} (h : ∀ q, First patterns path q ↔ First patterns' path q) :
    firstMatch patterns path = firstMatch patterns' path := by
  cases hChoice : firstMatch patterns path with
  | none =>
    cases hChoice' : firstMatch patterns' path with
    | none => rfl
    | some choice' =>
      obtain ⟨choice, hSome, -⟩ := firstMatch_of_first ((h _).mpr (firstMatch_some hChoice').1)
      cases hChoice.symm.trans hSome
  | some choice =>
    obtain ⟨hFirst, hMatch⟩ := firstMatch_some hChoice
    obtain ⟨choice', hSome, hPattern⟩ := firstMatch_of_first ((h _).mp hFirst)
    have hMatch' := (firstMatch_some hSome).2
    cases choice
    cases choice'
    simp_all

end First

section Levels

variable (cel : Cel) (order : Iteration) (store : Store)

/-- The levels of the tree that a path goes through, with what remains of it. -/
inductive Visits : List (Bytes × MatchBlock) → Bytes → List (Bytes × MatchBlock) → Bytes → Prop
  | here {blocks : List (Bytes × MatchBlock)} {path : Bytes} : Visits blocks path blocks path
  | nested {blocks node : List (Bytes × MatchBlock)} {path rest : Bytes} {choice : Choice} {block : MatchBlock} :
      firstMatch (blocks.map Prod.fst) path = some choice → blocks.lookup choice.pattern = some block →
      choice.remaining ≠ [] → choice.remaining ≠ [slash] → Visits block.blocks choice.remaining node rest →
      Visits blocks path node rest

/-- The decision is not taken from a pattern when a strictly more specific one matches as well. -/
def SpecificDecides (patterns : List Bytes) (path : Bytes) : Prop :=
  ∀ p ∈ patterns, ∀ q ∈ patterns, Matches p path → Matches q path → language p ⊂ language q →
    (firstMatch patterns path).map Choice.pattern ≠ some q

/-- The first pattern by its text is not strictly more general than another one that matches. -/
def TextAgrees (patterns : List Bytes) (path : Bytes) : Prop :=
  ∀ q, First patterns path q → ∀ p ∈ patterns, Matches p path → narrower p q = false

variable {path : Bytes} {patterns : List Bytes}

theorem TextAgrees.not_first (h : TextAgrees patterns path) {p q : Bytes} (hp : p ∈ patterns) (hMatches : Matches p path)
    (hNarrower : language p ⊂ language q) : ¬ First patterns path q := by
  intro hFirst
  have hNot := h q hFirst p hp hMatches
  rw [narrower_iff.mpr hNarrower] at hNot
  cases hNot

theorem specificDecides_iff : SpecificDecides patterns path ↔ TextAgrees patterns path := by
  constructor
  · intro hSpecific q hFirst p hp hMatches
    rw [← Bool.not_eq_true, narrower_iff]
    intro hNarrower
    obtain ⟨choice, hChoice, rfl⟩ := firstMatch_of_first hFirst
    refine hSpecific p hp _ hFirst.1 hMatches hFirst.2.1 hNarrower ?_
    rw [hChoice]
    rfl
  · intro hText p hp q _ hMatches _ hNarrower hChosen
    obtain ⟨choice, hChoice, rfl⟩ := map_eq_some_iff.mp hChosen
    exact hText.not_first hp hMatches hNarrower (firstMatch_some hChoice).1

/-- Two trees that differ, at a level the path goes through, in the block of a pattern that is strictly
more general than another one that matches there. The pattern may be missing in either. -/
inductive Altered : List (Bytes × MatchBlock) → List (Bytes × MatchBlock) → Bytes → Prop
  | here {blocks blocks' : List (Bytes × MatchBlock)} {path p q : Bytes} :
      (∀ g, g ≠ q → blocks.lookup g = blocks'.lookup g) → p ∈ blocks.map Prod.fst → Matches p path →
      language p ⊂ language q → Altered blocks blocks' path
  | nested {blocks blocks' : List (Bytes × MatchBlock)} {path : Bytes} {choice : Choice} {block block' : MatchBlock} :
      firstMatch (blocks.map Prod.fst) path = some choice → blocks.lookup choice.pattern = some block →
      blocks'.lookup choice.pattern = some block' → (∀ g, g ≠ choice.pattern → blocks.lookup g = blocks'.lookup g) →
      block.allow = block'.allow → choice.remaining ≠ [] → choice.remaining ≠ [slash] →
      Altered block.blocks block'.blocks choice.remaining → Altered blocks blocks' path

variable {blocks : List (Bytes × MatchBlock)}

theorem mem_patterns {g : Bytes} : g ∈ blocks.map Prod.fst ↔ blocks.lookup g ≠ none := by
  simp [lookup_eq_none_iff]

theorem matchPath_none (hChoice : firstMatch (blocks.map Prod.fst) path = none) (action : Bytes) (vars : Vars) (req : Request)
    (res : Option Resource) : matchPath cel order store blocks path action vars req res = .ok false := by
  rw [matchPath, hChoice]

variable {choice : Choice}

theorem matchPath_some {block : MatchBlock} (hChoice : firstMatch (blocks.map Prod.fst) path = some choice)
    (hBlock : blocks.lookup choice.pattern = some block) (action : Bytes) (vars : Vars) (req : Request)
    (res : Option Resource) :
    matchPath cel order store blocks path action vars req res =
      if choice.remaining = [] ∨ choice.remaining = [slash] then
        evaluateAllow cel order store block.allow action (KeyValue.setAll vars choice.vars.toList) req res
      else matchPath cel order store block.blocks choice.remaining action (KeyValue.setAll vars choice.vars.toList) req res := by
  rw [matchPath, hChoice]
  simp only
  split
  · rename_i hNone
    cases hNone.symm.trans hBlock
  rename_i found hFound
  cases hFound.symm.trans hBlock
  rfl

theorem lookup_choice (hChoice : firstMatch (blocks.map Prod.fst) path = some choice) :
    ∃ block, blocks.lookup choice.pattern = some block :=
  ne_none_iff_exists'.mp (mem_patterns.mp (firstMatch_some hChoice).1.1)

variable {blocks' : List (Bytes × MatchBlock)}

theorem First.transfer {q f : Bytes} (hSame : ∀ g, g ≠ q → blocks.lookup g = blocks'.lookup g)
    (hq : ¬ First (blocks'.map Prod.fst) path q) (hNe : f ≠ q) (hFirst : First (blocks.map Prod.fst) path f) :
    First (blocks'.map Prod.fst) path f := by
  have hMem : ∀ g, g ≠ q → (g ∈ blocks.map Prod.fst ↔ g ∈ blocks'.map Prod.fst) := by
    intro g hg
    rw [mem_patterns, mem_patterns, hSame g hg]
  refine ⟨(hMem f hNe).mp hFirst.1, hFirst.2.1, fun g hg hMatches => ?_⟩
  rcases eq_or_ne g q with rfl | hOther
  · -- were it not before the pattern that differs, that one would come first
    by_contra hContra
    rw [not_or] at hContra
    have hLess := before_of_ne hContra.1 (by simpa using hContra.2)
    refine hq ⟨hg, hMatches, fun g' hg' hMatches' => ?_⟩
    rcases eq_or_ne g' g with rfl | hOther
    · exact .inl rfl
    obtain rfl | hLess' := hFirst.2.2 g' ((hMem g' hOther).mpr hg') hMatches'
    · exact .inr hLess
    · rw [before_iff] at hLess hLess' ⊢
      exact .inr (hLess.trans hLess')
  · exact hFirst.2.2 g ((hMem g hOther).mpr hg) hMatches

theorem Altered.matchPath_eq (h : Altered blocks blocks' path)
    (hText : ∀ node rest, Visits blocks path node rest → TextAgrees (node.map Prod.fst) rest)
    (hText' : ∀ node rest, Visits blocks' path node rest → TextAgrees (node.map Prod.fst) rest) (action : Bytes) (vars : Vars)
    (req : Request) (res : Option Resource) :
    matchPath cel order store blocks path action vars req res = matchPath cel order store blocks' path action vars req res := by
  induction h generalizing vars with
  | @here blocks blocks' path p q hSame hp hMatches hNarrower =>
    have hpq : p ≠ q := fun hEq => hNarrower.ne (congrArg language hEq)
    have hp' : p ∈ blocks'.map Prod.fst := by
      rw [mem_patterns] at hp ⊢
      rwa [← hSame p hpq]
    have hq := (hText _ _ .here).not_first hp hMatches hNarrower
    have hq' := (hText' _ _ .here).not_first hp' hMatches hNarrower
    have hFirst : ∀ f, First (blocks.map Prod.fst) path f ↔ First (blocks'.map Prod.fst) path f := by
      intro f
      constructor
      · intro hFirst
        exact hFirst.transfer hSame hq' fun hEq => hq (hEq ▸ hFirst)
      · intro hFirst
        exact hFirst.transfer (fun g hg => (hSame g hg).symm) hq fun hEq => hq' (hEq ▸ hFirst)
    have hCongr := firstMatch_congr hFirst
    cases hChoice : firstMatch (blocks.map Prod.fst) path with
    | none => rw [matchPath_none cel order store hChoice, matchPath_none cel order store (hCongr.symm.trans hChoice)]
    | some choice =>
      obtain ⟨block, hBlock⟩ := lookup_choice hChoice
      have hOther : choice.pattern ≠ q := fun hEq => hq (hEq ▸ (firstMatch_some hChoice).1)
      rw [matchPath_some cel order store hChoice hBlock,
        matchPath_some cel order store (hCongr.symm.trans hChoice) ((hSame _ hOther).symm.trans hBlock)]
  | @nested blocks blocks' path choice block block' hChoice hBlock hBlock' hSame hAllow hEnd hSlash hBelow ih =>
    have hPatterns : ∀ g, g ∈ blocks.map Prod.fst ↔ g ∈ blocks'.map Prod.fst := by
      intro g
      rw [mem_patterns, mem_patterns]
      rcases eq_or_ne g choice.pattern with rfl | hOther
      · simp [hBlock, hBlock']
      · rw [hSame g hOther]
    have hCongr : firstMatch (blocks.map Prod.fst) path = firstMatch (blocks'.map Prod.fst) path := by
      refine firstMatch_congr fun f => ?_
      simp only [First, hPatterns]
    have hChoice' := hCongr.symm.trans hChoice
    rw [matchPath_some cel order store hChoice hBlock, matchPath_some cel order store hChoice' hBlock', hAllow]
    rw [ih (fun node rest hVisits => hText node rest (.nested hChoice hBlock hEnd hSlash hVisits))
      fun node rest hVisits => hText' node rest (.nested hChoice' hBlock' hEnd hSlash hVisits)]

end Levels

/-- Whether the first pattern by its text is never strictly more general than another that matches, at any
level the path goes through. -/
def Ordered (rules : RuleSet) (path : Bytes) : Prop :=
  ∀ node rest, Visits rules.blocks path node rest → TextAgrees (node.map Prod.fst) rest

section CatchAll

def literalCel : Cel where
  declares _ := true
  compile _ e :=
    if e = text "true" then some fun _ => .done (.ok true)
    else if e = text "false" then some fun _ => .done (.ok false)
    else none

def userPattern : Bytes := text "/databases/db/documents/users/\x7bid\x7d"
def catchAllPattern : Bytes := text "/databases/db/documents/\x7bdocument=**\x7d"

def catchAllRules (condition : Bytes) : RuleSet :=
  ⟨text "db", [(userPattern, .mk [(text "get", text "true")] []), (catchAllPattern, .mk [(text "get", condition)] [])]⟩

def sortedIteration : Iteration := ⟨id, fun _ => .refl _, fun _ m => m.toList, fun _ _ => .refl _⟩

def anonymous : Request := ⟨⟨none, [], [], [], []⟩, none, 0⟩

theorem catchAllRules_processed (condition : Bytes) :
    processMatchPaths (text "db") [] (catchAllRules condition).blocks = .ok (catchAllRules condition).blocks := by
  have hUser : processPattern (text "db") userPattern = .ok userPattern := by rfl
  have hCatchAll : processPattern (text "db") catchAllPattern = .ok catchAllPattern := by rfl
  simp only [catchAllRules, processMatchPaths, hUser, hCatchAll]
  rfl

variable {condition : Bytes}

theorem catchAllRules_accepted (h : condition = text "true" ∨ condition = text "false") :
    updateRules literalCel (fun _ => none) (text "db") (catchAllRules condition) =
      .ok (Function.update (fun _ => none) (text "db") (some (catchAllRules condition))) := by
  have hValid : validateMatchBlocks literalCel [] (catchAllRules condition).blocks = true := by
    simp only [catchAllRules, validateMatchBlocks]
    obtain rfl | rfl := h
    · decide +kernel
    · decide +kernel
  have hDatabase : (catchAllRules condition).database = text "db" := rfl
  rw [updateRules, hDatabase, if_neg (by simp), catchAllRules_processed]
  simp only [hValid, if_true]
  rfl

theorem catchAllRules_firstMatch (condition : Bytes) :
    firstMatch ((catchAllRules condition).blocks.map Prod.fst) (fullPath (text "db") (text "users/1")) =
      some ⟨catchAllPattern, [], (∅ : Vars).insert (text "document") (text "users/1")⟩ := by rfl

theorem catchAllRules_evaluate {allowed : Bool}
    (h : evalCondition literalCel sortedIteration (fun _ _ => .error .notFound) 0 condition (KeyValue.setAll ∅ [(text "document", text "users/1")]) anonymous none = .ok allowed) :
    evaluate literalCel sortedIteration (fun _ _ => .error .notFound)
      (Function.update (fun _ => none) (text "db") (some (catchAllRules condition))) (text "db") (text "users/1") (text "get")
      anonymous none = .ok allowed := by
  have hBlock : (catchAllRules condition).blocks.lookup catchAllPattern = some (.mk [(text "get", condition)] []) := by rfl
  rw [evaluate, if_neg (by decide), Function.update_self]
  simp only
  rw [matchPath_some _ _ _ (catchAllRules_firstMatch condition) hBlock, if_pos (.inl rfl)]
  have hConditions : conditions (sortedIteration.allow [(text "get", condition)]) (text "get") = [condition] := by rfl
  have hVars : ((∅ : Vars).insert (text "document") (text "users/1")).toList = [(text "document", text "users/1")] := by rfl
  simp only [evaluateAllow, MatchBlock.allow, hConditions, evalConditions, hVars, h]
  cases allowed <;> rfl

end CatchAll

end Syntrix.Authorization
