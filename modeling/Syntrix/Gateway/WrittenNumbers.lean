import Syntrix.Gateway.DecisionEffect
import Syntrix.Model.IntegerFloat

/-! # Numbers of written documents

The document endpoints decode their body without asking for the text of its numbers, so every number becomes
a float. Replication keeps the tokens and makes integers of those without fraction and exponent. Both give
the same numbers exactly when the integers of the document are floats.
-/
namespace Syntrix.Gateway

open Lib Model Index Storage List Option

section Decode

/-- A token out of range fails the body as a whole, and no value of it is seen. -/
def decodedNumber (n : JSONNumber) : Value :=
  match n.float64 with
  | .ok f => .float64 f
  | .error _ => .unsupported

mutual
/-- A value as it is decoded when the text of numbers is not asked for. -/
def decodedValue : Value → Value
  | .jsonNumber n => decodedNumber n
  | .array items => .array (decodedItems items)
  | .object fields => .object (decodedFields fields)
  | v => v

def decodedItems : List Value → List Value
  | [] => []
  | v :: items => decodedValue v :: decodedItems items

def decodedFields : List (Bytes × Value) → List (Bytes × Value)
  | [] => []
  | (key, v) :: fields => (key, decodedValue v) :: decodedFields fields
end

mutual
def numbersInRange : Value → Bool
  | .jsonNumber n => n.float64.toOption.isSome
  | .array items => itemsInRange items
  | .object fields => fieldsInRange fields
  | _ => true

def itemsInRange : List Value → Bool
  | [] => true
  | v :: items => numbersInRange v && itemsInRange items

def fieldsInRange : List (Bytes × Value) → Bool
  | [] => true
  | (_, v) :: fields => numbersInRange v && fieldsInRange fields
end

def Json.decoded : Json → Option Json
  | .object fields => if fieldsInRange fields then some (.object (decodedFields fields)) else none
  | json => some json

/-- The body as the document endpoints see it, from one with the tokens of its numbers. -/
def Body.decoded (body : Body) : Body := ⟨body.first.bind Json.decoded, body.trailing⟩

def sentDocument (method : Method) (body : Body) : Option Document :=
  match method with
  | .post => (decodeBodyAsDocument body).join
  | .put => (decodeBody body).bind UpdateDocumentRequest.doc

end Decode

section Commute

def decodedField (x : Bytes × Value) : Bytes × Value := (x.1, decodedValue x.2)

theorem decodedItems_eq (items : List Value) : decodedItems items = items.map decodedValue := by
  induction items with
  | nil => rfl
  | cons v items ih => rw [decodedItems, ih, map_cons]

theorem decodedFields_eq (fields : List (Bytes × Value)) : decodedFields fields = fields.map decodedField := by
  induction fields with
  | nil => rfl
  | cons x fields ih => rw [decodedFields, ih, map_cons, decodedField]

theorem set_decoded (doc : Document) (key : Bytes) (v : Value) :
    Document.set (doc.map decodedField) key (decodedValue v) = (doc.set key v).map decodedField := by
  rw [Document.set, Document.set, map_append, List.filter_map]
  rfl

theorem toMap_decoded (fields : List (Bytes × Value)) (doc : Document) :
    toMap (fields.map decodedField) (doc.map decodedField) = (toMap fields doc).map decodedField := by
  induction fields generalizing doc with
  | nil => rfl
  | cons x fields ih =>
    rw [map_cons, toMap, foldl_cons, toMap, foldl_cons, ← toMap, ← toMap, ← ih, decodedField]
    rw [set_decoded]

theorem marshal_decoded (doc : Document) : marshal (doc.map decodedField) = (marshal doc).map decodedField :=
  (map_insertionSort _ _ decodedField doc fun _ _ _ _ => Iff.rfl).symm

def UpdateDocumentRequest.decoded (r : UpdateDocumentRequest) : UpdateDocumentRequest :=
  ⟨r.doc.map fun doc => doc.map decodedField, r.ifMatch.map decodedValue⟩

theorem decodeInto_decoded (doc : Option Document) (v : Value) :
    decodeInto (doc.map fun doc => doc.map decodedField) (decodedValue v) =
      (decodeInto doc v).map fun doc => doc.map fun doc => doc.map decodedField := by
  cases v with
  | object fields =>
    rw [decodedValue, decodedFields_eq, decodeInto, decodeInto]
    cases doc with
    | none => exact congrArg (fun doc => some (some doc)) (toMap_decoded fields [])
    | some doc => exact congrArg (fun doc => some (some doc)) (toMap_decoded fields doc)
  | jsonNumber n =>
    rw [decodedValue, decodedNumber]
    cases n.float64 <;> rfl
  | array items =>
    rfl
  | _ => rfl

theorem decodeUpdate_decoded (fields : List (Bytes × Value)) :
    decodeUpdate (fields.map decodedField) = (decodeUpdate fields).map UpdateDocumentRequest.decoded := by
  have hField : ∀ r x, decodeField (UpdateDocumentRequest.decoded r) (decodedField x) =
      (decodeField r x).map UpdateDocumentRequest.decoded := by
    rintro r ⟨key, v⟩
    show decodeField _ (key, decodedValue v) = _
    simp only [decodeField]
    split_ifs
    · rw [UpdateDocumentRequest.decoded, decodeInto_decoded, Option.map_map, Option.map_map]
      rfl
    · simp [UpdateDocumentRequest.decoded]
    · rfl
  have hFold : ∀ r, (fields.map decodedField).foldlM decodeField (UpdateDocumentRequest.decoded r) =
      (fields.foldlM decodeField r).map UpdateDocumentRequest.decoded := by
    induction fields with
    | nil => exact fun r => rfl
    | cons x fields ih =>
      intro r
      rw [map_cons, foldlM_cons, foldlM_cons, hField]
      cases decodeField r x with
      | none => rfl
      | some r' => exact ih r'
  exact hFold ⟨none, []⟩

theorem decodeUpdate_doc {fields : List (Bytes × Value)} {doc : Document}
    (h : (decodeUpdate (fields.map decodedField)).bind UpdateDocumentRequest.doc = some doc) :
    ∃ sent, (decodeUpdate fields).bind UpdateDocumentRequest.doc = some sent ∧ doc = sent.map decodedField := by
  rw [decodeUpdate_decoded] at h
  cases hUpdate : decodeUpdate fields with
  | none =>
    rw [hUpdate] at h
    cases h
  | some r =>
    rw [hUpdate] at h
    obtain ⟨sent, hSent, rfl⟩ := map_eq_some_iff.mp (show r.doc.map _ = some doc from h)
    exact ⟨sent, hSent, rfl⟩

theorem sentDocument_decoded {body : Body} {method : Method} {doc : Document} (h : sentDocument method body.decoded = some doc) :
    ∃ sent, sentDocument method body = some sent ∧ doc = sent.map decodedField := by
  obtain ⟨first, trailing⟩ := body
  cases first with
  | none => cases method <;> cases trailing <;> cases h
  | some json =>
    cases json with
    | null | other => cases method <;> cases trailing <;> cases h
    | object fields =>
      have hBody : Body.decoded ⟨some (.object fields), trailing⟩ = ⟨Json.decoded (.object fields), trailing⟩ := rfl
      rw [hBody, Json.decoded] at h
      split at h
      · rw [decodedFields_eq] at h
        have hMap := toMap_decoded fields []
        rw [map_nil] at hMap
        cases method with
        | post =>
          have hDoc : toMap (fields.map decodedField) [] = doc := by
            cases trailing <;> exact some.inj h
          refine ⟨toMap fields [], by cases trailing <;> rfl, ?_⟩
          rw [← hMap, hDoc]
        | put =>
          cases trailing with
          | true => exact decodeUpdate_doc h
          | false =>
            -- the parsed body is written out again, which sorts its fields
            have hDoc : (decodeUpdate (marshal (toMap (fields.map decodedField) []))).bind UpdateDocumentRequest.doc = some doc := h
            rw [hMap, marshal_decoded] at hDoc
            exact decodeUpdate_doc hDoc
      · cases method <;> cases trailing <;> cases h

end Commute

/-! ## Values by their place -/

section Places

inductive Step where
  | field (key : Bytes)
  | index (i : Nat)

def valueAt : List Step → Value → Option Value
  | [], v => some v
  | .field key :: path, .object fields => (fields.lookup key).bind (valueAt path)
  | .index i :: path, .array items => items[i]?.bind (valueAt path)
  | _ :: _, _ => none

def fieldAt (doc : Document) (key : Bytes) (path : List Step) : Option Value := (doc.lookup key).bind (valueAt path)

theorem lookup_decoded (fields : List (Bytes × Value)) (key : Bytes) :
    (fields.map decodedField).lookup key = (fields.lookup key).map decodedValue := by
  induction fields with
  | nil => rfl
  | cons x fields ih =>
    rw [map_cons, decodedField, lookup_cons, lookup_cons, ih]
    cases key == x.1 <;> rfl

theorem valueAt_decoded (path : List Step) (v : Value) : valueAt path (decodedValue v) = (valueAt path v).map decodedValue := by
  induction path generalizing v with
  | nil => rfl
  | cons step path ih =>
    cases v with
    | object fields =>
      cases step with
      | index i => rw [decodedValue]; rfl
      | field key =>
        rw [decodedValue, decodedFields_eq, valueAt, valueAt, lookup_decoded]
        cases fields.lookup key with
        | none => rfl
        | some v => exact ih v
    | array items =>
      cases step with
      | field key => rw [decodedValue]; rfl
      | index i =>
        rw [decodedValue, decodedItems_eq, valueAt, valueAt, getElem?_map]
        cases items[i]? with
        | none => rfl
        | some v => exact ih v
    | jsonNumber n =>
      rw [decodedValue, decodedNumber]
      cases n.float64 <;> cases step <;> rfl
    | _ => cases step <;> rfl

theorem fieldAt_decoded (doc : Document) (key : Bytes) (path : List Step) :
    fieldAt (doc.map decodedField) key path = (fieldAt doc key path).map decodedValue := by
  rw [fieldAt, fieldAt, lookup_decoded]
  cases doc.lookup key with
  | none => rfl
  | some v => exact valueAt_decoded path v

theorem lookup_normalized {fields out : List (Bytes × Value)} (h : normalizeFields fields = .ok out) {key : Bytes} {w : Value}
    (hw : out.lookup key = some w) : ∃ v, fields.lookup key = some v ∧ normalizeValue v = .ok w := by
  induction fields generalizing out with
  | nil =>
    cases h
    cases hw
  | cons x fields ih =>
    rw [normalizeFields] at h
    split at h
    · cases hNormal : normalizeValue x.2 with
      | error e =>
        rw [hNormal] at h
        cases h
      | ok item =>
        rw [hNormal] at h
        obtain ⟨rest, hRest, rfl⟩ := map_eq_ok h
        rw [lookup_cons] at hw ⊢
        cases hKey : key == x.1 with
        | true =>
          rw [hKey] at hw
          exact ⟨x.2, rfl, hNormal.trans (congrArg Except.ok (some.inj hw))⟩
        | false =>
          rw [hKey] at hw
          exact ih hRest hw
    · cases h

theorem normalizeValue_object {v : Value} {out : List (Bytes × Value)} (h : normalizeValue v = .ok (.object out)) :
    ∃ fields, v = .object fields ∧ normalizeFields fields = .ok out := by
  obtain ⟨_, _, _, ⟨⟩, _⟩ | ⟨fields, _, rfl, ⟨⟩, hOut⟩ | ⟨-, hOther⟩ := normalizeValue_compound h
  · exact ⟨fields, rfl, hOut⟩
  · exact absurd rfl (hOther out)

theorem valueAt_normalized {v w x : Value} (h : normalizeValue v = .ok w) {path : List Step} (hx : valueAt path w = some x) :
    ∃ v', valueAt path v = some v' ∧ normalizeValue v' = .ok x := by
  induction path generalizing v w with
  | nil =>
    cases hx
    exact ⟨v, rfl, h⟩
  | cons step path ih =>
    cases step with
    | field key =>
      cases w with
      | object out =>
        obtain ⟨fields, rfl, hFields⟩ := normalizeValue_object h
        obtain ⟨item, hItem, hAt⟩ := bind_eq_some_iff.mp hx
        obtain ⟨v, hv, hNormal⟩ := lookup_normalized hFields hItem
        rw [valueAt, hv]
        exact ih hNormal hAt
      | _ => cases hx
    | index i =>
      cases w with
      | array out =>
        obtain ⟨items, rfl, hItems⟩ := normalizeValue_array h
        obtain ⟨item, hItem, hAt⟩ := bind_eq_some_iff.mp hx
        obtain ⟨v, hv, hNormal⟩ := forall₂_getElem? (R := fun w v => normalizeValue v = .ok w) (normalizeItems_forall₂ hItems).flip hItem
        rw [valueAt, hv]
        exact ih hNormal hAt
      | _ => cases hx

end Places

/-! ## What is stored -/

section Stored

def Kept (key : Bytes) : Prop := key ≠ text "id" ∧ key ∉ protectedFields

def IntegerAt (sent : Document) (key : Bytes) (path : List Step) (v : Int64) : Prop :=
  ∃ n : JSONNumber, fieldAt sent key path = some (.jsonNumber n) ∧ n.isInteger = true ∧ n.int64 = .ok v

/-- Integers are stored as numbers that denote them, and all scalars equal what replication would store. -/
structure NumbersKept (sent stored : Document) : Prop where
  integers : ∀ key path v, Kept key → IntegerAt sent key path v →
    ∃ n : Number, fieldAt stored key path = some n.toValue ∧ n.toRat = v.toInt
  equal : ∀ pushed, normalizeValue (.object sent) = .ok (.object pushed) → ∀ key path w k, Kept key →
    fieldAt pushed key path = some w → scalarKey w = .ok k → ∃ x, fieldAt stored key path = some x ∧ equalValues x w = true

def IntegersFit (sent : Document) : Prop := ∀ key path v, Kept key → IntegerAt sent key path v → FitsBinary64 v.toInt

theorem equalValues_of_key {a b : Value} {k : Bytes} (ha : scalarKey a = .ok k) (hb : scalarKey b = .ok k) : equalValues a b = true := by
  have hCompare : compareValues a b = .ok .eq := by
    rw [compareValues, ha, hb]
    exact congrArg Except.ok (OrderCode.wordCmp_eq_eq_iff.mpr rfl)
  rw [equalValues, hCompare]

theorem equalValues_decoded {v w : Value} {k : Bytes} (hNormal : normalizeValue v = .ok w) (hKey : scalarKey w = .ok k)
    (hFits : ∀ n i, v = .jsonNumber n → n.isInteger = true → n.int64 = .ok i → FitsBinary64 i.toInt) :
    equalValues (decodedValue v) w = true := by
  have hSame : scalarKey v = .ok k := by
    rw [scalarKey, normalizeValue_idem v w hNormal] at hKey
    rw [scalarKey, hNormal]
    exact hKey
  cases v with
  | jsonNumber n =>
    rw [decodedValue, decodedNumber]
    rw [normalizeValue] at hNormal
    split at hNormal
    · rename_i hInteger
      obtain ⟨i, hi, rfl⟩ := map_eq_ok hNormal
      obtain ⟨f, hFloat, hFinite, hExact⟩ := JSONNumber.float64_exact_iff hInteger hi
      rw [hFloat]
      exact (Number.equalValues_toValue (.float f hFinite) (.int i)).mpr (hExact.mpr (hFits n i rfl hInteger hi))
    · obtain ⟨f, hFloat, hNormal⟩ := bind_eq_ok hNormal
      rw [hFloat]
      refine equalValues_of_key ?_ hKey
      rw [scalarKey, normalizeValue, hNormal]
      rw [scalarKey, normalizeFloat_idem hNormal] at hKey
      exact hKey
  | array items | object fields =>
    obtain ⟨out, -, rfl⟩ := map_eq_ok hNormal
    rw [scalarKey, normalizeValue_idem _ _ hNormal] at hKey
    cases hKey
  | _ => exact equalValues_of_key hSame hKey

theorem numbersKept_iff {sent stored : Document} (hStored : SameData (sent.map decodedField) stored) :
    NumbersKept sent stored ↔ IntegersFit sent := by
  have hPlace : ∀ key path, Kept key → fieldAt stored key path = (fieldAt sent key path).map decodedValue := by
    intro key path hKept
    rw [← fieldAt_decoded, fieldAt, fieldAt, hStored key hKept.1 hKept.2]
  constructor
  · intro h key path v hKept hAt
    obtain ⟨n, hNumber, hDenotes⟩ := h.integers key path v hKept hAt
    obtain ⟨token, hToken, hInteger, hValue⟩ := hAt
    obtain ⟨f, hFloat, hFinite, hExact⟩ := JSONNumber.float64_exact_iff hInteger hValue
    have hDecoded : decodedValue (.jsonNumber token) = .float64 f := by rw [decodedValue, decodedNumber, hFloat]
    rw [hPlace key path hKept, hToken, map_some, hDecoded] at hNumber
    cases n with
    | int i => cases hNumber
    | float g hg =>
      cases hNumber
      exact hExact.mp hDenotes
  · intro h
    refine ⟨fun key path v hKept hAt => ?_, fun pushed hPushed key path w k hKept hw hk => ?_⟩
    · have hFits := h key path v hKept hAt
      obtain ⟨token, hToken, hInteger, hValue⟩ := hAt
      obtain ⟨f, hFloat, hFinite, hExact⟩ := JSONNumber.float64_exact_iff hInteger hValue
      refine ⟨.float f hFinite, ?_, hExact.mpr hFits⟩
      rw [hPlace key path hKept, hToken, map_some, decodedValue, decodedNumber, hFloat]
      rfl
    · obtain ⟨fields, hFields, hNormalized⟩ := normalizeValue_object hPushed
      cases hFields
      obtain ⟨top, hTop, hAt⟩ := bind_eq_some_iff.mp hw
      obtain ⟨v, hv, hNormal⟩ := lookup_normalized hNormalized hTop
      obtain ⟨part, hPart, hNormalPart⟩ := valueAt_normalized hNormal hAt
      have hField : fieldAt sent key path = some part := by rw [fieldAt, hv]; exact hPart
      refine ⟨decodedValue part, by rw [hPlace key path hKept, hField]; rfl, ?_⟩
      refine equalValues_decoded hNormalPart hk fun n i hn hInteger hValue => ?_
      exact h key path i hKept ⟨n, by rw [hField, hn], hInteger, hValue⟩

variable {server : Server} {rules : Call → Except Authorization.EvaluateError Bool} {r : DocumentRequest} {call : Call} {row : Row}
  {doc : StoredDoc}

theorem Commits.stored (h : Commits server rules r call row doc) : ∃ data, sentDocument r.method r.body = some data ∧ SameData data doc.data := by
  have hWritten := h.written
  unfold handle at hWritten
  split at hWritten
  · rename_i hMethod
    obtain ⟨-, data, hData, hSame⟩ := handleCreateDocument_commits hWritten
    exact ⟨data, by rw [hMethod, sentDocument, hData]; rfl, hSame⟩
  · rename_i hMethod
    obtain ⟨data, inner, hData, hInner, hSame⟩ := handleReplaceDocument_commits hWritten
    exact ⟨inner, by rw [hMethod, sentDocument, hData]; exact hInner, hSame⟩

end Stored

theorem written_numbers_kept_iff (server : Server) (rules : Call → Except Authorization.EvaluateError Bool) (r : DocumentRequest)
    (body : Body) (hBody : r.body = body.decoded) (call : Call) (row : Row) (doc : StoredDoc) (hCommits : Commits server rules r call row doc) :
    ∃ sent, sentDocument r.method body = some sent ∧ (NumbersKept sent doc.data ↔ IntegersFit sent) := by
  obtain ⟨data, hData, hSame⟩ := hCommits.stored
  rw [hBody] at hData
  obtain ⟨sent, hSent, rfl⟩ := sentDocument_decoded hData
  exact ⟨sent, hSent, numbersKept_iff hSame⟩

def numberBody (n : JSONNumber) : Body := ⟨some (.object [(text "doc", .object [(text "n", .jsonNumber n)])]), false⟩

def numberRequest (body : Body) : DocumentRequest where
  method := .put
  database := text "db"
  path := text "c/1"
  body := body
  auth := Authorization.anonymous.auth
  time := 0

theorem handle_number (f : Binary64) :
    handle anyServer (numberRequest ⟨some (.object [(text "doc", .object [(text "n", .float64 f)])]), false⟩) =
      replaceDocument anyServer (text "db")
        [(text "n", .float64 f), (text "id", .string (text "1")), (text "collection", .string (text "c"))] ⟨none, fun _ => true⟩ := by
  have hPath : explodeFullpath anyServer.config (text "c/1") = some (text "c", text "1") := by rfl
  have hDecoded : decodeBody ⟨some (.object [(text "doc", .object [(text "n", .float64 f)])]), false⟩ =
      some ⟨some [(text "n", .float64 f)], []⟩ := by rfl
  have hValid : validateDocument anyServer.printed (some [(text "n", .float64 f)]) = some [(text "n", .float64 f)] := by rfl
  have hFilters : anyServer.decodeFilters [] = some ⟨none, fun _ => true⟩ := rfl
  have hData : Document.stripProtectedFields [(text "n", .float64 f)] = [(text "n", .float64 f)] := by rfl
  have hId : Document.getID [(text "n", .float64 f)] = [] := by rfl
  have hFull : (Document.setID [(text "n", .float64 f)] (text "1")).setCollection (text "c") =
      [(text "n", .float64 f), (text "id", .string (text "1")), (text "collection", .string (text "c"))] := by rfl
  simp only [handle, numberRequest, handleReplaceDocument, hPath, hDecoded, hFilters, hValid, hData, hId, hFull]
  rfl

theorem numberRequest_commits {n : JSONNumber} {f : Binary64} (h : n.float64 = .ok f) :
    ∃ call doc, Commits anyServer openDecision (numberRequest (numberBody n).decoded) call none doc ∧
      fieldAt doc.data (text "n") [] = some (.float64 f) := by
  have hBody : (numberBody n).decoded = ⟨some (.object [(text "doc", .object [(text "n", .float64 f)])]), false⟩ := by
    simp [numberBody, Body.decoded, Json.decoded, fieldsInRange, numbersInRange, decodedFields, decodedValue, decodedNumber, h,
      Except.toOption]
  rw [hBody]
  refine ⟨_, newStoredDoc (text "db") (text "c") (text "1") [(text "n", .float64 f), (text "id", .string (text "1"))] 0,
    ⟨.access none (.done _), openRules_evaluate _ _ _ rfl, ?_⟩, ?_⟩
  · rw [handle_number]
    exact .later none (.here rfl)
  · rfl

theorem numberBody_sent (n : JSONNumber) : sentDocument .put (numberBody n) = some [(text "n", .jsonNumber n)] := by rfl

def five : JSONNumber := ⟨false, [5], none, none⟩

def oddInteger : JSONNumber := ⟨false, [9, 0, 0, 7, 1, 9, 9, 2, 5, 4, 7, 4, 0, 9, 9, 3], none, none⟩

theorem integerAt_number {n : JSONNumber} {key : Bytes} {path : List Step} {v : Int64}
    (h : IntegerAt [(text "n", .jsonNumber n)] key path v) : n.int64 = .ok v := by
  obtain ⟨token, hPlace, -, hValue⟩ := h
  obtain ⟨top, hTop, hAt⟩ := bind_eq_some_iff.mp hPlace
  rw [lookup_cons] at hTop
  split at hTop
  · cases hTop
    cases path with
    | nil =>
      cases hAt
      exact hValue
    | cons step path => cases step <;> cases hAt
  · cases hTop

theorem written_numbers_kept_five : ∃ call doc, Commits anyServer openDecision (numberRequest (numberBody five).decoded) call none doc ∧
    NumbersKept [(text "n", .jsonNumber five)] doc.data := by
  have hFive : five.float64 = .ok ⟨false, 1025, Fin.ofNat _ (2 ^ 50)⟩ := by decide +kernel
  obtain ⟨call, doc, hCommits, -⟩ := numberRequest_commits hFive
  refine ⟨call, doc, hCommits, ?_⟩
  obtain ⟨sent, hSent, hKept⟩ := written_numbers_kept_iff anyServer openDecision (numberRequest (numberBody five).decoded) (numberBody five)
    rfl call none doc hCommits
  obtain rfl := Option.some.inj ((numberBody_sent five).symm.trans hSent)
  refine hKept.mpr fun key path v hKey hAt => ?_
  obtain rfl := Except.ok.inj ((show five.int64 = .ok 5 by decide +kernel).symm.trans (integerAt_number hAt))
  decide +kernel

/-- The integer is stored as the even one before it. -/
theorem written_number_rounded : ∃ call doc,
    Commits anyServer openDecision (numberRequest (numberBody oddInteger).decoded) call none doc ∧
      sentDocument .put (numberBody oddInteger) = some [(text "n", .jsonNumber oddInteger)] ∧
      ¬ NumbersKept [(text "n", .jsonNumber oddInteger)] doc.data := by
  have hRounded : oddInteger.float64 = .ok ⟨false, 1076, 0⟩ := by decide +kernel
  obtain ⟨call, doc, hCommits, hStored⟩ := numberRequest_commits hRounded
  refine ⟨call, doc, hCommits, numberBody_sent oddInteger, fun hKept => ?_⟩
  have hOdd : oddInteger.int64 = .ok 9007199254740993 := by decide +kernel
  obtain ⟨n, hNumber, hDenotes⟩ := hKept.integers (text "n") [] 9007199254740993 ⟨by decide, by decide⟩ ⟨oddInteger, rfl, rfl, hOdd⟩
  rw [hStored] at hNumber
  cases n with
  | int i => cases hNumber
  | float f hf =>
    cases hNumber
    have hApart : equalValues (.float64 ⟨false, 1076, 0⟩) (.int 9007199254740993) = false := by decide +kernel
    have hEqual := (Number.equalValues_toValue (.float _ hf) (.int 9007199254740993)).mpr hDenotes
    exact Bool.false_ne_true (hApart.symm.trans hEqual)

end Syntrix.Gateway
