import Syntrix.Authorization.Isolation
import Syntrix.Gateway.Documents
import Syntrix.Lib.Fields

/-! # What a decision is about

A creation is decided on the document that is stored, provided that the body is one JSON value. A
replacement is decided as an update on its whole body, which is never the document in it.
-/
namespace Syntrix.Gateway

open Lib Strings Model Index Storage List Option

/-- Documents with the same fields, up to the identifier and the protected ones. -/
def SameData (x y : Document) : Prop := ∀ k, k ≠ text "id" → k ∉ protectedFields → x.lookup k = y.lookup k

section SameData

variable {x y z : Document}

theorem SameData.refl (x : Document) : SameData x x := fun _ _ _ => rfl

theorem SameData.symm (h : SameData x y) : SameData y x := fun k hId hProtected => (h k hId hProtected).symm

theorem SameData.trans (hxy : SameData x y) (hyz : SameData y z) : SameData x z :=
  fun k hId hProtected => (hxy k hId hProtected).trans (hyz k hId hProtected)

theorem SameData.strip (h : SameData x y) : SameData x y.stripProtectedFields := by
  intro k hId hProtected
  rw [lookup_stripProtectedFields, if_neg hProtected]
  exact h k hId hProtected

theorem SameData.setID (h : SameData x y) (id : Bytes) : SameData x (y.setID id) := by
  intro k hId hProtected
  rw [Document.setID, lookup_set, if_neg hId]
  exact h k hId hProtected

theorem SameData.setCollection (h : SameData x y) (collection : Bytes) : SameData x (y.setCollection collection) := by
  intro k hId hProtected
  have hOther : k ≠ text "collection" := by
    rintro rfl
    exact hProtected (by decide)
  rw [Document.setCollection, lookup_set, if_neg hOther]
  exact h k hId hProtected

theorem SameData.generateIDIfEmpty (h : SameData x y) (fresh : Bytes) : SameData x (y.generateIDIfEmpty fresh) := by
  unfold Document.generateIDIfEmpty
  split
  · exact h
  · exact h.setID fresh

theorem validateDocument_same {printed : Int64 → Bytes} {given : Option Document}
    (h : validateDocument printed given = some y) : ∃ doc, given = some doc ∧ SameData doc y := by
  cases given with
  | none => cases h
  | some doc =>
    refine ⟨doc, rfl, ?_⟩
    simp only [validateDocument] at h
    split at h
    · cases h
      exact .refl _
    · split at h
      · cases h
        exact .refl _
      · cases h
    · cases h
      exact (SameData.refl doc).setID _
    · cases h

theorem newStoredDoc_same (h : SameData x y) (database collection docid : Bytes) (now : Int64) :
    SameData x (newStoredDoc database collection docid y now).data := (h.setID docid).strip

end SameData

section Wrapped

variable {doc : Document}

theorem set_nodup (h : (doc.map Prod.fst).Nodup) (k : Bytes) (v : Value) : ((doc.set k v).map Prod.fst).Nodup := by
  rw [Document.set, map_append, nodup_append]
  refine ⟨(filter_sublist.map _).nodup h, nodup_singleton _, ?_⟩
  rintro a ha b hb rfl
  obtain ⟨x, hx, rfl⟩ := List.mem_map.mp ha
  obtain rfl := mem_singleton.mp hb
  simpa using (mem_filter.mp hx).2

theorem toMap_nodup (fields : List (Bytes × Value)) (doc : Document) (h : (doc.map Prod.fst).Nodup) :
    ((toMap fields doc).map Prod.fst).Nodup := by
  induction fields generalizing doc with
  | nil => exact h
  | cons x fields ih => exact ih _ (set_nodup h x.1 x.2)

variable {fields : List (Bytes × Value)}

theorem lookup_toMap {k : Bytes} {v : Value}
    (h : (toMap fields doc).lookup k = some v) : (k, v) ∈ fields ∨ doc.lookup k = some v := by
  induction fields generalizing doc with
  | nil => exact .inr h
  | cons x fields ih =>
    obtain hMem | hLookup := ih h
    · exact .inl (mem_cons_of_mem _ hMem)
    rw [lookup_set] at hLookup
    split at hLookup
    · rename_i hKey
      cases hLookup
      rw [hKey]
      exact .inl mem_cons_self
    · exact .inr hLookup

def Wraps (fields : List (Bytes × Value)) (key : Bytes) (inner : List (Bytes × Value)) : Prop :=
  (key, Value.object inner) ∈ fields ∧ isField (text "doc") key = true

theorem decodeUpdate_wraps {r r' : UpdateDocumentRequest}
    (h : fields.foldlM decodeField r = some r') (hDoc : r'.doc = some doc) :
    (r.doc.isSome ∨ ∃ key inner, Wraps fields key inner) ∧
      ∀ k v, doc.lookup k = some v →
        (∃ doc, r.doc = some doc ∧ doc.lookup k = some v) ∨ ∃ key inner, Wraps fields key inner ∧ (k, v) ∈ inner := by
  induction fields generalizing r with
  | nil =>
    cases h
    exact ⟨.inl (by rw [hDoc]; rfl), fun k v hv => .inl ⟨doc, hDoc, hv⟩⟩
  | cons x fields ih =>
    obtain ⟨next, hNext, hRest⟩ := bind_eq_some_iff.mp h
    obtain ⟨hSome, hLookup⟩ := ih hRest
    have hLater : ∀ {key inner}, Wraps fields key inner → Wraps (x :: fields) key inner :=
      fun hw => ⟨mem_cons_of_mem _ hw.1, hw.2⟩
    -- what the first field did to the document
    have hFirst : next.doc = r.doc ∨ next.doc = none ∨
        ∃ inner, Wraps (x :: fields) x.1 inner ∧ next.doc = some (toMap inner (r.doc.getD [])) := by
      unfold decodeField at hNext
      split at hNext
      · rename_i hField
        obtain ⟨decoded, hDecoded, rfl⟩ := map_eq_some_iff.mp hNext
        unfold decodeInto at hDecoded
        split at hDecoded
        · rename_i inner hObject
          cases hDecoded
          exact .inr (.inr ⟨inner, ⟨hObject ▸ mem_cons_self, hField⟩, rfl⟩)
        · cases hDecoded
          exact .inr (.inl rfl)
        · cases hDecoded
      · split at hNext
        all_goals
          cases hNext
          exact .inl rfl
    refine ⟨?_, fun k v hv => ?_⟩
    · obtain hSome | ⟨key, inner, hw⟩ := hSome
      · obtain hSame | hNone | ⟨inner, hw, -⟩ := hFirst
        · exact .inl (hSame ▸ hSome)
        · rw [hNone] at hSome
          cases hSome
        · exact .inr ⟨_, inner, hw⟩
      · exact .inr ⟨key, inner, hLater hw⟩
    · obtain ⟨d, hd, hFound⟩ | ⟨key, inner, hw, hMem⟩ := hLookup k v hv
      · obtain hSame | hNone | ⟨inner, hw, hMap⟩ := hFirst
        · exact .inl ⟨d, hSame ▸ hd, hFound⟩
        · rw [hNone] at hd
          cases hd
        cases hMap.symm.trans hd
        obtain hMem | hOld := lookup_toMap hFound
        · exact .inr ⟨_, inner, hw, hMem⟩
        cases hBefore : r.doc with
        | none =>
          rw [hBefore] at hOld
          cases hOld
        | some old =>
          rw [hBefore] at hOld
          exact .inl ⟨old, rfl, hOld⟩
      · exact .inr ⟨key, inner, hLater hw, hMem⟩

theorem Wraps.sizeOf_lt {key : Bytes} {inner : List (Bytes × Value)}
    (h : (key, Value.object inner) ∈ fields) : sizeOf inner < sizeOf fields := by
  have hSize := sizeOf_lt_of_mem h
  simp only [Prod.mk.sizeOf_spec, Value.object.sizeOf_spec] at hSize
  omega

theorem wrapped_not_same {r : UpdateDocumentRequest}
    (h : decodeUpdate (marshal (toMap fields [])) = some r) (hDoc : r.doc = some doc) : ¬ SameData (toMap fields []) doc := by
  intro hSame
  obtain ⟨hStart, hLookup⟩ := decodeUpdate_wraps h hDoc
  have hPerm : ∀ {key inner}, Wraps (marshal (toMap fields [])) key inner → Wraps (toMap fields []) key inner :=
    fun hw => ⟨(perm_insertionSort _ _).mem_iff.mp hw.1, hw.2⟩
  have hLarge : ∀ n : Nat, ∃ key inner, Wraps (toMap fields []) key inner ∧ n ≤ sizeOf inner := by
    intro n
    induction n with
    | zero =>
      obtain hNone | ⟨key, inner, hw⟩ := hStart
      · cases hNone
      · exact ⟨key, inner, hPerm hw, Nat.zero_le _⟩
    | succ n ih =>
      obtain ⟨key, inner, hw, hn⟩ := ih
      have hId : key ≠ text "id" := by
        rintro rfl
        exact absurd hw.2 (by decide)
      have hProtected : key ∉ protectedFields := by
        intro hMem
        have hNone : ∀ k ∈ protectedFields, isField (text "doc") k = false := by decide
        exact absurd hw.2 (by simp [hNone key hMem])
      have hFound := (hSame key hId hProtected).symm.trans ((Fields.lookup_eq_some_iff (toMap_nodup fields [] nodup_nil)).mpr hw.1)
      obtain ⟨d, hd, -⟩ | ⟨key', inner', hw', hMem⟩ := hLookup _ _ hFound
      · cases hd
      · exact ⟨key', inner', hPerm hw', hn.trans_lt (Wraps.sizeOf_lt hMem)⟩
  obtain ⟨key, inner, hw, hn⟩ := hLarge (sizeOf (toMap fields []))
  exact absurd (Wraps.sizeOf_lt hw.1) (not_lt.mpr hn)

end Wrapped

section Effect

variable {server : Server} {r : DocumentRequest} {row : Row} {doc : StoredDoc}

variable {data : Document}

theorem createDocument_commits {database : Bytes} (h : (createDocument server database data).Commits row doc) :
    live row = none ∧ SameData data doc.data := by
  simp only [createDocument] at h
  split at h
  · exact absurd h not_commits_done
  obtain hCreate | ⟨_, -, h⟩ := h.of_bind
  · obtain ⟨hNone, rfl⟩ := create_commits hCreate
    exact ⟨hNone, newStoredDoc_same ((SameData.refl data).generateIDIfEmpty _).strip _ _ _ _⟩
  · exact absurd h not_commits_done

theorem handleCreateDocument_commits (h : (handleCreateDocument server r).Commits row doc) :
    live row = none ∧ ∃ data, decodeBodyAsDocument r.body = some (some data) ∧ SameData data doc.data := by
  unfold handleCreateDocument at h
  split at h
  · exact absurd h not_commits_done
  split at h
  · exact absurd h not_commits_done
  rename_i valid hValid
  obtain ⟨given, hDecoded, hValidated⟩ := bind_eq_some_iff.mp hValid
  obtain ⟨data, rfl, hData⟩ := validateDocument_same hValidated
  obtain hCreate | ⟨result, -, h⟩ := h.of_bind
  · obtain ⟨hNone, hStored⟩ := createDocument_commits hCreate
    exact ⟨hNone, data, hDecoded, ((hData.strip.generateIDIfEmpty _).setCollection _).trans hStored⟩
  split at h
  · exact absurd h not_commits_done
  · exact absurd h not_commits_read

theorem replaceDocument_commits {database : Bytes} {pred : Storage.Filter}
    (h : (replaceDocument server database data pred).Commits row doc) : SameData data doc.data := by
  simp only [replaceDocument] at h
  split at h
  · exact absurd h not_commits_done
  rcases h with hWrite | ⟨seen, h⟩
  · cases hWrite
  dsimp only at h
  split at h
  · obtain hCreate | ⟨_, -, h⟩ := h.of_bind
    · obtain ⟨-, rfl⟩ := create_commits hCreate
      exact newStoredDoc_same (SameData.refl data).strip _ _ _ _
    · exact absurd h not_commits_done
  · obtain hUpdate | ⟨_, -, h⟩ := h.of_bind
    · obtain ⟨-, old, rfl⟩ := updateMatching_commits hUpdate
      exact (SameData.refl data).strip
    split at h
    · exact absurd h not_commits_done
    · exact absurd h not_commits_read

theorem handleReplaceDocument_commits (h : (handleReplaceDocument server r).Commits row doc) :
    ∃ data inner, decodeBody r.body = some data ∧ data.doc = some inner ∧ SameData inner doc.data := by
  unfold handleReplaceDocument at h
  split at h
  · exact absurd h not_commits_done
  split at h
  · exact absurd h not_commits_done
  split at h
  · exact absurd h not_commits_done
  rename_i data hData
  split at h
  · rename_i pred valid hPred hValid
    obtain ⟨inner, hInner, hSame⟩ := validateDocument_same hValid
    dsimp only at h
    split at h
    · exact absurd h not_commits_done
    · exact ⟨data, inner, hData, hInner, ((hSame.strip.setID _).setCollection _).trans (replaceDocument_commits h)⟩
  · exact absurd h not_commits_done

theorem authorized_returns {call : Call} (h : (authorized r).Returns (some call)) :
    call.action = r.method.action ∧
      call.request.resource = r.body.unmarshal.map fun data => (⟨data.getD [], []⟩ : Authorization.Resource) := by
  unfold authorized at h
  split at h
  · cases h
  split at h
  · cases h with
    | access seen h =>
      cases h
      exact ⟨rfl, rfl⟩
  · cases h
    exact ⟨rfl, rfl⟩

def effect (row : Row) : Bytes := if (live row).isNone then text "create" else text "update"

/-- The rules were asked about the effect and about the data that is stored. -/
def Covers (call : Call) (row : Row) (doc : StoredDoc) : Prop :=
  call.action = effect row ∧ ∃ res, call.request.resource = some res ∧ SameData res.data doc.data

theorem unmarshal_of_decode {body : Body} (hWhole : body.trailing = false)
    (h : decodeBodyAsDocument body = some (some data)) : body.unmarshal = some (some data) := by
  have hSame : body.unmarshal = body.decode := by simp [Body.unmarshal, Body.decode, hWhole]
  unfold decodeBodyAsDocument at h
  split at h
  · rename_i cached hCached
    rwa [h] at hCached
  · rw [hSame, h]

theorem unmarshal_object {body : Body} (h : body.unmarshal = some (some data)) : ∃ fields, data = toMap fields [] := by
  unfold Body.unmarshal at h
  split at h
  · cases h
  obtain ⟨json, -, hJson⟩ := bind_eq_some_iff.mp h
  cases json with
  | object fields =>
    cases hJson
    exact ⟨fields, rfl⟩
  | null | other => cases hJson

theorem decodeBody_null {body : Body} (h : body.unmarshal = some none) : decodeBody body = some ⟨none, []⟩ := by
  have hFirst : body.first = some .null := by
    unfold Body.unmarshal at h
    split at h
    · cases h
    obtain ⟨json, hFirst, hJson⟩ := bind_eq_some_iff.mp h
    cases json with
    | object fields | other => cases hJson
    | null => exact hFirst
  rw [decodeBody, h, hFirst]
  rfl

end Effect

/-- A decision covers the committed write exactly when it is a creation whose body is one JSON value. -/
theorem decision_covers_effect_iff (cel : Authorization.Cel) (order : Authorization.Iteration) (store : Authorization.Store)
    (engine : Authorization.Engine) (server : Server) (r : DocumentRequest) (call : Call) (row : Row) (doc : StoredDoc)
    (h : Commits server (fun call => Authorization.evaluate cel order store engine call.database call.path call.action
      call.request call.existingRes) r call row doc) :
    Covers call row doc ↔ r.method = .post ∧ r.body.trailing = false := by
  obtain ⟨hAction, hResource⟩ := authorized_returns h.asked
  have hWritten := h.written
  unfold handle at hWritten
  split at hWritten
  · rename_i hPost
    obtain ⟨hNone, data, hDecoded, hSame⟩ := handleCreateDocument_commits hWritten
    constructor
    · rintro ⟨-, res, hRes, -⟩
      refine ⟨hPost, ?_⟩
      by_contra hTrailing
      rw [hResource, Body.unmarshal, if_pos (by simpa using hTrailing)] at hRes
      cases hRes
    · rintro ⟨-, hWhole⟩
      refine ⟨?_, _, hResource.trans (by rw [unmarshal_of_decode hWhole hDecoded]; rfl), hSame⟩
      rw [hAction, hPost, effect, hNone]
      rfl
  · rename_i hPut
    obtain ⟨data, inner, hData, hInner, hSame⟩ := handleReplaceDocument_commits hWritten
    constructor
    · rintro ⟨-, res, hRes, hCovered⟩
      exfalso
      obtain ⟨parsed, hParsed, hEq⟩ := Option.map_eq_some_iff.mp (hResource.symm.trans hRes)
      cases parsed with
      | none =>
        rw [decodeBody_null hParsed] at hData
        cases hData
        cases hInner
      | some body =>
        obtain ⟨fields, rfl⟩ := unmarshal_object hParsed
        rw [decodeBody, hParsed] at hData
        cases hEq
        exact wrapped_not_same hData hInner (SameData.trans hCovered hSame.symm)
    · rintro ⟨hPost, -⟩
      rw [hPut] at hPost
      cases hPost

section Upsert

open Authorization

def openRules : RuleSet := ⟨text "db", [(anyPath, .mk [(text "write", text "true")] [])]⟩

/-- A replacement of a document that is not there, by a caller without any role. -/
def upsertRequest : DocumentRequest where
  method := .put
  database := text "db"
  path := text "c/1"
  body := ⟨some (.object [(text "doc", .object [(text "a", .bool true)])]), false⟩
  auth := anonymous.auth
  time := 0

def anyServer : Server := ⟨⟨1024, 128⟩, 0, text "new", fun _ => [], fun _ => some ⟨none, fun _ => true⟩⟩

theorem openRules_evaluate (path : Bytes) (req : Request) (res : Option Resource) (hAuth : req.auth = anonymous.auth) :
    evaluate literalCel sortedIteration (fun _ _ => .error .notFound) (fun _ => some openRules) (text "db") path
      (text "update") req res = .ok true := by
  have hBlock : openRules.blocks.lookup anyPath = some (.mk [(text "write", text "true")] []) := by rfl
  have hChoice := firstMatch_anyPath (fullPath (text "db") path)
  rw [evaluate, if_neg (by simp [hAuth, anonymous])]
  simp only
  rw [matchPath_some _ _ _ (show firstMatch (openRules.blocks.map Prod.fst) _ = _ from hChoice) hBlock, if_pos (.inl rfl)]
  rfl

def openDecision (call : Call) : Except EvaluateError Bool :=
  evaluate literalCel sortedIteration (fun _ _ => .error .notFound) (fun _ => some openRules) call.database call.path
    call.action call.request call.existingRes

theorem upsert_commits : ∃ call doc, Commits anyServer openDecision upsertRequest call none doc :=
  ⟨_, _, .access none (.done _), openRules_evaluate _ _ _ rfl, .later none (.here rfl)⟩

theorem upsert_decided_as_update : text "db" ∉ upsertRequest.auth.dbAdmin ∧
    ∃ call doc, Commits anyServer openDecision upsertRequest call none doc ∧ ¬ Covers call none doc := by
  obtain ⟨call, doc, h⟩ := upsert_commits
  refine ⟨List.not_mem_nil, call, doc, h, fun hCovers => ?_⟩
  have hAction := (authorized_returns h.asked).1.symm.trans hCovers.1
  exact absurd hAction (by decide)

theorem decision_covers_effect_iff_upsert : ∃ call doc, Commits anyServer openDecision upsertRequest call none doc ∧
    (Covers call none doc ↔ upsertRequest.method = .post ∧ upsertRequest.body.trailing = false) := by
  obtain ⟨call, doc, h⟩ := upsert_commits
  exact ⟨call, doc, h, decision_covers_effect_iff literalCel sortedIteration (fun _ _ => .error .notFound)
    (fun _ => some openRules) anyServer upsertRequest call none doc h⟩

end Upsert

end Syntrix.Gateway
