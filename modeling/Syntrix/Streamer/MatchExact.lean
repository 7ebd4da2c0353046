import Syntrix.Streamer.Matching

/-! # What a match returns

A change reaches the subscriptions of its collection whose filters hold. The lists of the manager decide
that as the filters do, except for a filter on the document that names none: it is filed with the
subscriptions for the whole collection.
-/
namespace Syntrix.Streamer

open Lib List Bool

def Evaluates (compile : CELCompiler) (filters : List ProtoFilter) (doc : Model.Document) : Prop :=
  ∃ program, compile filters = .ok (some program) ∧ program doc = some (.bool true)

def FiltersHold (compile : CELCompiler) (docID : Bytes) (doc : Model.Document) : List ProtoFilter → Prop
  | [] => True
  | [f] => if f.field = text "_id" ∧ f.op = text "==" then f.value = .string docID else Evaluates compile [f] doc
  | filters => Evaluates compile filters doc

namespace Manager

/-! ## The subscriptions found -/

theorem getElem?_foldl_addMatch (subs : List Subscriber) (result : Matches) (gatewayID : Bytes) :
    (subs.foldl addMatch result)[gatewayID]?.getD [] =
      result[gatewayID]?.getD [] ++ (subs.filter fun s => decide (s.gatewayID = gatewayID)).map Subscriber.id := by
  induction subs generalizing result with
  | nil => simp
  | cons sub subs ih =>
    rw [foldl_cons, ih, addMatch, KeyValue.getElem?_insert]
    by_cases hGateway : sub.gatewayID = gatewayID
    · subst hGateway
      simp
    · simp [hGateway]

section Found

variable (m : Manager) (database collection docID : Bytes) (doc : Model.Document)

def found : List Subscriber :=
  m.exactBucket database collection docID ++ m.exactBucket database collection [] ++
    ((m.expressionBucket database collection).filter fun e => evaluateCEL e doc).map ExpressionSubscriber.subscriber

theorem matchEvent_eq : m.matchEvent database collection docID doc = (m.found database collection docID doc).foldl addMatch ∅ := by
  have hExact : m.matchExact database collection docID ∅ =
      (m.exactBucket database collection docID ++ m.exactBucket database collection []).foldl addMatch ∅ := by
    unfold matchExact exactBucket
    cases m.exactMatches[database]? with
    | none => rfl
    | some databaseMap =>
      dsimp only [Option.bind_some]
      cases databaseMap[collection]? with
      | none => rfl
      | some collMap => exact (foldl_append ..).symm
  have hExpressions : ∀ result, m.matchExpressions database collection doc result =
      (((m.expressionBucket database collection).filter fun e => evaluateCEL e doc).map ExpressionSubscriber.subscriber).foldl
        addMatch result := by
    intro result
    rw [foldl_map, foldl_filter]
    unfold matchExpressions expressionBucket
    cases m.expressions[database]? with
    | none => rfl
    | some databaseMap =>
      dsimp only [Option.bind_some]
      cases databaseMap[collection]? with
      | none | some subs => rfl
  rw [matchEvent, hExact, hExpressions, found]
  exact (foldl_append ..).symm

end Found

def evaluates (compile : CELCompiler) (doc : Model.Document) (s : Subscriber) : Bool :=
  match compile s.filters with
  | .ok program => evaluateCEL ⟨s, program⟩ doc
  | .error _ => false

theorem evaluates_iff (compile : CELCompiler) (doc : Model.Document) (s : Subscriber) :
    evaluates compile doc s = true ↔ Evaluates compile s.filters doc := by
  unfold evaluates Evaluates
  cases compile s.filters with
  | error err => simp
  | ok program =>
    cases program with
    | none => simp [evaluateCEL]
    | some program =>
      dsimp only [evaluateCEL]
      split
      · rename_i b hRun
        simp [hRun]
      rename_i hOther
      refine iff_of_false false_ne_true ?_
      rintro ⟨p, hp, hTrue⟩
      cases hp
      exact hOther true hTrue

section Registered

variable {m : Manager} {subs : List Subscriber} {database collection docID : Bytes} {doc : Model.Document}

theorem Indexed.found_eq (h : m.Indexed subs) : m.found database collection docID doc =
    (subs.filter fun s => s.inExact && s.under database collection && decide (s.getDocumentID = docID)) ++
      (subs.filter fun s => s.inExact && s.under database collection && decide (s.getDocumentID = [])) ++
      (subs.filter fun s => !s.inExact && s.under database collection && evaluates m.compileProtoFilters doc s) := by
  have hCompiled : ∀ e ∈ m.expressionBucket database collection,
      evaluateCEL e doc = (evaluates m.compileProtoFilters doc ∘ ExpressionSubscriber.subscriber) e := by
    intro e he
    rw [Function.comp_apply, evaluates, h.compiled database collection e he]
  have hExpressions : (subs.filter fun s => !s.inExact && s.under database collection && evaluates m.compileProtoFilters doc s) =
      (subs.filter fun s => !s.inExact && s.under database collection).filter (evaluates m.compileProtoFilters doc) := by
    rw [List.filter_filter]
    exact filter_congr fun s _ => and_comm _ _
  rw [found, h.exact, h.exact, hExpressions, ← h.expression, List.filter_map, filter_congr hCompiled]

def selects (compile : CELCompiler) (docID : Bytes) (doc : Model.Document) (s : Subscriber) : Bool :=
  s.inExact && (decide (s.getDocumentID = docID) || decide (s.getDocumentID = [])) || !s.inExact && evaluates compile doc s

variable {s : Subscriber}

theorem Indexed.mem_found (h : m.Indexed subs) : s ∈ m.found database collection docID doc ↔
    s ∈ subs ∧ s.under database collection = true ∧ selects m.compileProtoFilters docID doc s = true := by
  rw [h.found_eq, mem_append, mem_append, mem_filter, mem_filter, mem_filter, ← and_or_left, ← and_or_left]
  unfold selects
  cases s.inExact <;> cases s.under database collection <;> simp

theorem Indexed.found_nodup (h : m.Indexed subs) (hDoc : docID ≠ []) : ((m.found database collection docID doc).map Subscriber.id).Nodup := by
  have hPart : ∀ p : Subscriber → Bool, ((subs.filter p).map Subscriber.id).Nodup :=
    fun p => h.unique.sublist (filter_sublist.map _)
  have hApart : ∀ p q : Subscriber → Bool, (∀ s, p s = true → q s = false) →
      List.Disjoint ((subs.filter p).map Subscriber.id) ((subs.filter q).map Subscriber.id) := by
    intro p q hpq id hp hq
    obtain ⟨s, hs, rfl⟩ := List.mem_map.mp hp
    obtain ⟨s', hs', hSame⟩ := List.mem_map.mp hq
    obtain ⟨hs, hTrue⟩ := mem_filter.mp hs
    obtain ⟨hs', hTrue'⟩ := mem_filter.mp hs'
    rw [inj_on_of_nodup_map h.unique hs' hs hSame, hpq s hTrue] at hTrue'
    exact false_ne_true hTrue'
  rw [h.found_eq, map_append, map_append]
  refine ((hPart _).append (hPart _) (hApart _ _ fun s hs => ?_)).append (hPart _) ?_
  · simp only [and_eq_true, decide_eq_true_eq] at hs
    simp [hs.2, hDoc]
  · refine disjoint_append_left.mpr ⟨hApart _ _ fun s hs => ?_, hApart _ _ fun s hs => ?_⟩
    all_goals
      simp only [and_eq_true] at hs
      simp [hs.1.1]

/-! ## Filters and lists -/

def Misfiled (s : Subscriber) : Prop := s.isExactMatch = true ∧ s.getDocumentID = []

theorem isExactMatch_iff : s.isExactMatch = true ↔ ∃ f, s.filters = [f] ∧ f.field = text "_id" ∧ f.op = text "==" := by
  unfold Subscriber.isExactMatch
  split
  · rename_i f hFilters
    simp [hFilters]
  rename_i hOther
  refine iff_of_false Bool.false_ne_true ?_
  rintro ⟨f, hFilters, -⟩
  exact hOther f hFilters

theorem filtersHold_of_exact {compile : CELCompiler} (hExact : s.isExactMatch = true) (hDoc : docID ≠ []) :
    FiltersHold compile docID doc s.filters ↔ s.getDocumentID = docID := by
  obtain ⟨⟨field, op, value⟩, hFilters, rfl, rfl⟩ := isExactMatch_iff.mp hExact
  rw [Subscriber.getDocumentID, hExact, Bool.not_true, if_neg Bool.false_ne_true, hFilters, FiltersHold, if_pos ⟨rfl, rfl⟩]
  cases value with
  | string id => simp
  | missing | unset | int v | double f | bool b | list items => simpa using Ne.symm hDoc

theorem filtersHold_of_not_inExact {compile : CELCompiler} (hExact : s.inExact = false) :
    FiltersHold compile docID doc s.filters ↔ Evaluates compile s.filters doc := by
  obtain ⟨hMatch, hFilters⟩ := or_eq_false_iff.mp hExact
  unfold FiltersHold
  split
  · rename_i hNil
    rw [hNil] at hFilters
    cases hFilters
  · rename_i f hOne
    have hOther : ¬ (f.field = text "_id" ∧ f.op = text "==") := by
      rintro ⟨hField, hOp⟩
      rw [isExactMatch_iff.mpr ⟨f, hOne, hField, hOp⟩] at hMatch
      cases hMatch
    rw [if_neg hOther, hOne]
  · rfl

theorem selects_iff (compile : CELCompiler) (hDoc : docID ≠ []) (s : Subscriber) :
    selects compile docID doc s = true ↔ FiltersHold compile docID doc s.filters ∨ Misfiled s := by
  unfold selects Misfiled
  cases hExact : s.inExact with
  | false =>
    have hMatch : s.isExactMatch = false := (or_eq_false_iff.mp hExact).1
    rw [filtersHold_of_not_inExact hExact, ← evaluates_iff, hMatch]
    simp
  | true =>
    cases hMatch : s.isExactMatch with
    | true =>
      rw [filtersHold_of_exact hMatch hDoc]
      simp
    | false =>
      have hFilters : s.filters = [] := by
        rw [Subscriber.inExact, hMatch, Bool.false_or, List.isEmpty_iff] at hExact
        exact hExact
      have hNone : s.getDocumentID = [] := by rw [Subscriber.getDocumentID, hMatch]; rfl
      rw [hFilters, hNone]
      simp [FiltersHold]

end Registered

/-! ## Every run -/

/-- A match returns the registered subscriptions whose filters hold, each once and under its gateway. -/
structure MatchExact (m : Manager) (subs : List Subscriber) (database collection docID : Bytes) (doc : Model.Document) : Prop where
  once : ∀ s ∈ subs, s.database = database → s.collection = collection → FiltersHold m.compileProtoFilters docID doc s.filters →
    ((m.matchEvent database collection docID doc)[s.gatewayID]?.getD []).count s.id = 1
  only : ∀ gatewayID id, id ∈ (m.matchEvent database collection docID doc)[gatewayID]?.getD [] →
    ∃ s ∈ subs, s.id = id ∧ s.gatewayID = gatewayID ∧ s.database = database ∧ s.collection = collection ∧
      FiltersHold m.compileProtoFilters docID doc s.filters

section Runs

variable {m m' : Manager} {subs : List Subscriber} {database collection docID : Bytes} {doc : Model.Document}

theorem matched_eq (gatewayID : Bytes) : (m.matchEvent database collection docID doc)[gatewayID]?.getD [] =
    ((m.found database collection docID doc).filter fun s => decide (s.gatewayID = gatewayID)).map Subscriber.id := by
  rw [matchEvent_eq, getElem?_foldl_addMatch]
  simp

theorem Indexed.matchExact_iff (h : m.Indexed subs) (hDoc : docID ≠ []) : m.MatchExact subs database collection docID doc ↔
    ∀ s ∈ subs, s.database = database → s.collection = collection → ¬ Misfiled s := by
  constructor
  · intro hMatch s hs hDatabase hCollection hMisfiled
    have hFound : s ∈ m.found database collection docID doc :=
      h.mem_found.mpr ⟨hs, decide_eq_true ⟨hDatabase, hCollection⟩, (selects_iff _ hDoc s).mpr (.inr hMisfiled)⟩
    have hReturned : s.id ∈ (m.matchEvent database collection docID doc)[s.gatewayID]?.getD [] := by
      rw [matched_eq]
      exact List.mem_map_of_mem (mem_filter.mpr ⟨hFound, decide_eq_true rfl⟩)
    obtain ⟨s', hs', hSame, -, -, -, hHolds⟩ := hMatch.only s.gatewayID s.id hReturned
    rw [inj_on_of_nodup_map h.unique hs' hs hSame, filtersHold_of_exact hMisfiled.1 hDoc, hMisfiled.2] at hHolds
    exact hDoc hHolds.symm
  · intro hFiled
    refine ⟨fun s hs hDatabase hCollection hHolds => ?_, fun gatewayID id hId => ?_⟩
    · rw [matched_eq]
      refine count_eq_one_of_mem ((h.found_nodup hDoc).sublist (filter_sublist.map _)) (List.mem_map_of_mem ?_)
      refine mem_filter.mpr ⟨h.mem_found.mpr ⟨hs, decide_eq_true ⟨hDatabase, hCollection⟩, ?_⟩, decide_eq_true rfl⟩
      exact (selects_iff _ hDoc s).mpr (.inl hHolds)
    · rw [matched_eq] at hId
      obtain ⟨s, hs, rfl⟩ := List.mem_map.mp hId
      obtain ⟨hFound, hGateway⟩ := mem_filter.mp hs
      obtain ⟨hs, hUnder, hSelects⟩ := h.mem_found.mp hFound
      obtain ⟨hDatabase, hCollection⟩ := of_decide_eq_true hUnder
      refine ⟨s, hs, rfl, of_decide_eq_true hGateway, hDatabase, hCollection, ?_⟩
      exact ((selects_iff _ hDoc s).mp hSelects).resolve_right (hFiled s hs hDatabase hCollection)

theorem Sound.matchEvent_eq (h : m.Sound subs) (h' : m'.Sound subs) (hCompiler : m.celCompiler = m'.celCompiler) :
    m.matchEvent database collection docID doc = m'.matchEvent database collection docID doc := by
  have hCompile : m.compileProtoFilters = m'.compileProtoFilters := by
    funext filters
    rw [compileProtoFilters, hCompiler]
    rfl
  rw [Manager.matchEvent_eq, Manager.matchEvent_eq, h.found_eq, h'.found_eq, hCompile]

end Runs

theorem matchEvent_exact_iff (celCompiler : Option CELCompiler) (calls : List ManagerCall) (hCalls : (new celCompiler).PossibleAll calls) :
    let m := (new celCompiler).applyAll calls
    let subs := (new celCompiler).registeredAll [] calls
    (∀ database collection docID doc, docID ≠ [] → (m.MatchExact subs database collection docID doc ↔
      ∀ s ∈ subs, s.database = database → s.collection = collection → ¬ Misfiled s)) ∧
    ∀ call, m.Fails call → ∀ later, (m.apply call).PossibleAll later → m.PossibleAll later ∧
      ∀ database collection docID doc, ((m.apply call).applyAll later).matchEvent database collection docID doc =
        (m.applyAll later).matchEvent database collection docID doc := by
  intro m subs
  have hSound : m.Sound subs := (Sound.new celCompiler).applyAll hCalls
  refine ⟨fun database collection docID doc hDoc => hSound.matchExact_iff hDoc, fun call hFails later hLater => ?_⟩
  have hPossible : m.Possible call := by
    cases call with
    | subscribe gatewayID req | unsubscribe subscriptionID => trivial
    | unregisterGateway gatewayID listed => exact hFails.elim
  have hFailed := hSound.apply hPossible
  rw [hSound.registered_of_fails hFails] at hFailed
  obtain ⟨hSame, hRegistered⟩ := hFailed.registeredAll_eq hSound (celCompiler_apply call) hLater
  refine ⟨hSame, fun database collection docID doc => ?_⟩
  have hAfter := hFailed.applyAll hLater
  rw [hRegistered] at hAfter
  refine hAfter.matchEvent_eq (hSound.applyAll hSame) ?_
  rw [celCompiler_applyAll, celCompiler_applyAll, celCompiler_apply]

def documentRequest (value : ProtoValue) : SubscribeRequest :=
  ⟨text "s", text "db", text "notes", [⟨text "_id", text "==", value⟩]⟩

def documentCalls (value : ProtoValue) : List ManagerCall :=
  [.subscribe (text "gw") (documentRequest value), .unsubscribe (text "t")]

theorem matchEvent_exact_document : (new none).PossibleAll (documentCalls (.string (text "note"))) ∧
    ((new none).applyAll (documentCalls (.string (text "note")))).MatchExact
      ((new none).registeredAll [] (documentCalls (.string (text "note")))) (text "db") (text "notes") (text "note") [] := by
  have hPossible : (new none).PossibleAll (documentCalls (.string (text "note"))) := ⟨trivial, trivial, trivial⟩
  refine ⟨hPossible, ((matchEvent_exact_iff none _ hPossible).1 _ _ _ [] (by decide)).mpr ?_⟩
  intro s hs hDatabase hCollection hMisfiled
  have hFiled : s = newSubscriber (text "gw") (documentRequest (.string (text "note"))) := by
    have hMem : s ∈ [newSubscriber (text "gw") (documentRequest (.string (text "note")))] := hs
    exact List.mem_singleton.mp hMem
  rw [hFiled] at hMisfiled
  exact absurd hMisfiled.2 (by decide)

/-- A subscription for the document of number five receives every document of the collection. -/
theorem matchEvent_misfiled : (new none).PossibleAll (documentCalls (.int 5)) ∧
    ¬ ((new none).applyAll (documentCalls (.int 5))).MatchExact ((new none).registeredAll [] (documentCalls (.int 5)))
      (text "db") (text "notes") (text "note") [] := by
  refine ⟨⟨trivial, trivial, trivial⟩, fun h => ?_⟩
  obtain ⟨s, hs, -, -, -, -, hHolds⟩ := h.only (text "gw") (text "s") (by decide +kernel)
  have hFiled : s = newSubscriber (text "gw") (documentRequest (.int 5)) := by
    have hMem : s ∈ [newSubscriber (text "gw") (documentRequest (.int 5))] := hs
    exact List.mem_singleton.mp hMem
  rw [hFiled] at hHolds
  have hValue : ProtoValue.int 5 = .string (text "note") := hHolds
  cases hValue

/-- A match depends on the registered subscriptions only: those that came and went leave no trace in the indexes. -/
theorem matchEvent_of_registered (celCompiler : Option CELCompiler) (calls calls' : List ManagerCall) : let m := new celCompiler
    m.PossibleAll calls → m.PossibleAll calls' → m.registeredAll [] calls = m.registeredAll [] calls' →
      (m.applyAll calls).matchEvent = (m.applyAll calls').matchEvent := by
  intro m hCalls hCalls' hSame
  have hSound := (Sound.new celCompiler).applyAll hCalls
  rw [hSame] at hSound
  funext database collection docID doc
  apply hSound.matchEvent_eq ((Sound.new celCompiler).applyAll hCalls')
  rw [celCompiler_applyAll, celCompiler_applyAll]

theorem matchEvent_of_registered_left :
    ((new none).applyAll [.subscribe (text "gw") (documentRequest (.int 5)), .unsubscribe (text "s")]).matchEvent =
      ((new none).applyAll []).matchEvent :=
  matchEvent_of_registered none _ [] ⟨trivial, trivial, trivial⟩ trivial (by rfl)

end Manager

end Syntrix.Streamer
