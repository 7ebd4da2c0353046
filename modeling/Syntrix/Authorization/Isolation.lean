import Syntrix.Authorization.Specificity

/-! # Documents a decision depends on

Conditions look documents up in one fixed database, whatever database is accessed. A decision for that
database depends on its documents only. For every other database there are rules whose decision changes
with documents outside it.
-/
namespace Syntrix.Authorization

open Lib OrderCode Strings

def AgreeOn (database : Bytes) (store store' : Store) : Prop := ∀ path, store database path = store' database path

section Agree

variable {cel : Cel} {order : Iteration} {store store' : Store} (hAgree : AgreeOn lookupDatabase store store')
include hAgree

theorem run_congr (program : Program) : program.run store = program.run store' := by
  induction program with
  | done result => rfl
  | existsCall path next ih =>
    have hReply : store.existsDocument path = store'.existsDocument path := by
      rw [Store.existsDocument, Store.existsDocument, hAgree]
    rw [Program.run, Program.run, hReply, ih]
  | getCall path next ih =>
    have hReply : store.getDocument path = store'.getDocument path := by
      rw [Store.getDocument, Store.getDocument, hAgree]
    rw [Program.run, Program.run, hReply, ih]

theorem evalConditions_congr (vars : Vars) (req : Request) (res : Option Resource) (n : Nat) (conditions : List Bytes) :
    evalConditions cel order store vars req res n conditions = evalConditions cel order store' vars req res n conditions := by
  have hCondition : ∀ n condition,
      evalCondition cel order store n condition vars req res = evalCondition cel order store' n condition vars req res := by
    intro n condition
    simp only [evalCondition, run_congr hAgree]
  induction conditions generalizing n with
  | nil => rfl
  | cons condition rest ih => rw [evalConditions, evalConditions, hCondition, ih]

theorem matchPath_congr (blocks : List (Bytes × MatchBlock)) (path action : Bytes) (vars : Vars) (req : Request)
    (res : Option Resource) :
    matchPath cel order store blocks path action vars req res = matchPath cel order store' blocks path action vars req res := by
  induction hSize : sizeOf blocks using Nat.strong_induction_on generalizing blocks path vars with
  | _ size ih =>
    cases hChoice : firstMatch (blocks.map Prod.fst) path with
    | none => rw [matchPath_none cel order store hChoice, matchPath_none cel order store' hChoice]
    | some choice =>
      obtain ⟨block, hBlock⟩ := lookup_choice hChoice
      rw [matchPath_some cel order store hChoice hBlock, matchPath_some cel order store' hChoice hBlock, evaluateAllow,
        evaluateAllow, evalConditions_congr hAgree, ih _ (hSize ▸ sizeOf_blocks_lt hBlock) _ _ _ rfl]

theorem evaluate_congr (engine : Engine) (database path action : Bytes) (req : Request) (res : Option Resource) :
    evaluate cel order store engine database path action req res =
      evaluate cel order store' engine database path action req res := by
  simp only [evaluate, matchPath_congr hAgree]

end Agree

section Leak

/-- A condition that asks for a document of the database `tenant`, and a language that does so. -/
def askedPath : Bytes := text "/databases/tenant/documents/c/1"

def askingCondition : Bytes := text "exists(\"" ++ askedPath ++ text "\")"

structure Cel.Asks (cel : Cel) : Prop where
  declares : ∀ names, cel.declares names = true
  compiles : ∀ names, cel.compile names askingCondition =
    some fun _ => .existsCall askedPath fun reply => .done (reply.mapError fun _ => .runtime)

def anyPath : Bytes := text "\x7brest=**\x7d"

def askingRules (database : Bytes) : RuleSet := ⟨database, [(anyPath, .mk [(text "get", askingCondition)] [])]⟩

theorem firstMatch_anyPath (path : Bytes) :
    firstMatch [anyPath] path = some ⟨anyPath, [], (∅ : Vars).insert (text "rest") (joinParts (parts path))⟩ := by
  have hMatch : matchPattern anyPath path = some ([], (∅ : Vars).insert (text "rest") (joinParts (parts path))) := by
    have hParts : parts anyPath = [anyPath] := by rfl
    cases hPath : parts path with
    | nil => exact absurd hPath (splitOn_ne_nil _ _)
    | cons part rest =>
      simp only [matchPattern, hParts, hPath, matchParts]
      rfl
  simp [firstMatch, hMatch]

theorem askingRules_evaluate {cel : Cel} (hAsks : cel.Asks) (store : Store) (database : Bytes) :
    evaluate cel sortedIteration store (fun _ => some (askingRules database)) database (text "c/1") (text "get") anonymous none =
      (store.existsDocument askedPath).mapError fun _ => .runtime := by
  have hBlock : (askingRules database).blocks.lookup anyPath = some (.mk [(text "get", askingCondition)] []) := by rfl
  have hChoice := firstMatch_anyPath (fullPath database (text "c/1"))
  have hConditions : conditions (sortedIteration.allow [(text "get", askingCondition)]) (text "get") = [askingCondition] := by rfl
  rw [evaluate, if_neg (by simp [anonymous])]
  simp only
  rw [matchPath_some _ _ _ (show firstMatch ((askingRules database).blocks.map Prod.fst) _ = _ from hChoice) hBlock, if_pos (.inl rfl)]
  generalize joinParts (parts (fullPath database (text "c/1"))) = rest
  have hVars : ((∅ : Vars).insert (text "rest") rest).toList = [(text "rest", rest)] := by rfl
  have hOrder : sortedIteration.vars 0 (KeyValue.setAll ∅ [(text "rest", rest)]) = [(text "rest", rest)] := by rfl
  -- the placeholder of the variable does not occur in the condition
  have hText : replaceAll askingCondition (placeholder (text "rest")) rest = askingCondition := by rfl
  simp only [evaluateAllow, MatchBlock.allow, hConditions, evalConditions, evalCondition, hVars, hOrder, List.foldl_cons,
    List.foldl_nil, hText, hAsks.declares, hAsks.compiles, Program.run, Bool.not_true, Bool.false_eq_true, if_false]
  cases store.existsDocument askedPath with
  | error e => rfl
  | ok found => cases found <;> rfl

def askingCel : Cel where
  declares _ := true
  compile _ e :=
    if e = askingCondition then
      some fun _ => .existsCall askedPath fun reply => .done (reply.mapError fun _ => .runtime)
    else none

theorem askingCel_asks : askingCel.Asks := ⟨fun _ => rfl, fun _ => by simp [askingCel]⟩

/-- A document of the database `default` alone. -/
def defaultDocument : Store := fun db path => if db = lookupDatabase ∧ path = text "c/1" then .ok [] else .error .notFound

end Leak

end Syntrix.Authorization
