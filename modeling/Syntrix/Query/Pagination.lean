import Syntrix.Query.PageFill

/-! # Following cursors

A client asks for a page, then for the page after its cursor, until a page carries none. Over a
source that does not change and an index of its postings the pages together hold every document the
query asks for exactly once, in the order of positions, whatever limits the client chooses.
-/
namespace Syntrix.Core

open Lib OrderCode Model Index CandidateStream List Option Except

/-- The partitions of a collection that are ready hold the postings of its documents. -/
structure Published {Token : Type} (e : Engine Token) (database collection : Bytes) : Prop where
  keyed : e.storage.Keyed
  templates : ((e.manager.templates database).map e.manager.digests.fingerprint).Nodup
  indexed : ∀ t ∈ e.manager.templates database, ∀ generation,
    e.manager.readGeneration database collection (e.manager.digests.fingerprint t) = some generation →
      generation.ready = true → generation.failure = [] →
        Indexed e.manager.digests.fingerprint t generation.id defaultProjectionLimits collection
          (collectionDocuments e.storage database collection)
          (e.manager.readView ⟨database, collection, e.manager.digests.fingerprint t, generation.id⟩)

def DocumentAt (order : List OrderField) (d : StoredDoc) (p : Bytes) : Prop :=
  ∃ id, logicalDocumentID d = .ok id ∧ documentPosition order d id = .ok p

variable {order : List OrderField}

theorem DocumentAt.unique {d : StoredDoc} {p p' : Bytes} (h : DocumentAt order d p) (h' : DocumentAt order d p') : p = p' := by
  obtain ⟨id, hId, hp⟩ := h
  obtain ⟨id', hId', hp'⟩ := h'
  cases ok.inj (hId.symm.trans hId')
  exact ok.inj (hp.symm.trans hp')

def Precedes (order : List OrderField) (d d' : StoredDoc) : Prop :=
  ∃ p p', DocumentAt order d p ∧ DocumentAt order d' p' ∧ p < p'

/-- The documents between two positions that a query asks for, in order. -/
structure Slice (docs : List StoredDoc) (accepts : StoredDoc → Bool) (order : List OrderField) (after : Bytes)
    (last : Option Bytes) (ds : List StoredDoc) : Prop where
  sorted : ds.Pairwise (Precedes order)
  mem : ∀ d, d ∈ ds ↔ d ∈ docs ∧ accepts d = true ∧
    ∃ p, DocumentAt order d p ∧ after < p ∧ ∀ bound ∈ last, ¬ bound < p

theorem Slice.append {docs ds ds' : List StoredDoc} {accepts : StoredDoc → Bool} {after bound : Bytes}
    (h : Slice docs accepts order after (some bound) ds) (h' : Slice docs accepts order bound none ds')
    (hLater : ∀ p, bound < p → after < p) : Slice docs accepts order after none (ds ++ ds') := by
  constructor
  · refine pairwise_append.mpr ⟨h.sorted, h'.sorted, fun d hd d' hd' => ?_⟩
    obtain ⟨-, -, p, hp, -, hBound⟩ := (h.mem d).mp hd
    obtain ⟨-, -, p', hp', hAfter, -⟩ := (h'.mem d').mp hd'
    exact ⟨p, p', hp, hp', lt_of_le_of_lt (not_lt.mp (hBound bound rfl)) hAfter⟩
  · intro d
    rw [mem_append, h.mem, h'.mem]
    constructor
    · rintro (⟨hDoc, hAccept, p, hp, hAfter, -⟩ | ⟨hDoc, hAccept, p, hp, hAfter, -⟩)
      · exact ⟨hDoc, hAccept, p, hp, hAfter, by simp⟩
      · exact ⟨hDoc, hAccept, p, hp, hLater p hAfter, by simp⟩
    · rintro ⟨hDoc, hAccept, p, hp, hAfter, -⟩
      by_cases hBound : bound < p
      · exact .inr ⟨hDoc, hAccept, p, hp, hBound, by simp⟩
      refine .inl ⟨hDoc, hAccept, p, hp, hAfter, ?_⟩
      rintro b hb
      cases hb
      exact hBound

section Fill

variable {Token : Type} {e : Engine Token} {database : Bytes} {q : Query Token} {m : CandidateMetadata}
variable {t : Template} {filters : List Filter} {orderBy : List OrderField} {k : Nat} {rows : List DocRef}

theorem serving_of_planned {collection : Bytes} {showDeleted : Bool} {generation : Generation}
    (hPublished : Published e database collection)
    (h : Planned e.manager database collection filters orderBy showDeleted m t generation) :
    ∃ k, Serving e database collection t filters orderBy m k
      (e.manager.readView ⟨database, collection, m.templateFingerprint, m.generation⟩) := by
  have hIndexed := hPublished.indexed t h.template generation h.current h.ready h.healthy
  rw [h.fingerprint]
  obtain ⟨compiled, score, hCompile, rfl⟩ := h.compiled
  obtain ⟨k, hCompiled⟩ := compileCandidate_spec hCompile
  exact ⟨k, { hCompiled with },
    hPublished.keyed, hIndexed⟩

variable {after : Bytes}

variable (h : Serving e database q.collection t filters orderBy m k rows)

include h

theorem Serving.within (hAfter : StartsAfter m after) : Within m rows (branchRows m after rows) := by
  refine ⟨branchRows_sublist m after rows, fun b r hr => ?_⟩
  obtain ⟨-, branch, hBranch, hIn, -⟩ := (mem_branchRows_after h.compiled h.indexed hAfter).mp hr
  exact ⟨branch, hBranch, hIn⟩

theorem Serving.past (hAfter : StartsAfter m after) :
    Past m (collectionDocuments e.storage database q.collection) after (branchRows m after rows) := by
  intro b r hr p hp
  obtain ⟨-, -, -, -, p', hp', hLt⟩ := (mem_branchRows_after h.compiled h.indexed hAfter).mp hr
  rwa [hp.unique h.indexed hp']

variable {groups : List CandidateGroup} {rest : Nat → List DocRef}

theorem Serving.group_startsAfter (hAfter : StartsAfter m after) (hPulled : Pulled m (branchRows m after rows) groups rest) :
    ∀ g ∈ groups, after < g.position ∧ StartsAfter m g.position := by
  intro g hg
  obtain ⟨⟨b, r, hr, hp, -⟩, -⟩ := hPulled.origin g hg
  have hRow := (branchRows_sublist m after rows b).subset hr
  refine ⟨h.past hAfter b r hr _ (rowPosition_of_position h.compiled h.indexed hRow hp), ?_⟩
  obtain ⟨doc, -, _, _, ws, hWordsRow, -, hWords, -, hPosition⟩ := rowPosition_of_mem h.compiled h.indexed hRow
  rw [hPosition] at hp
  split at hp
  · cases hp
  · exact .inr ⟨doc, r.id, ws, (ok.inj hp).symm, hWords, hWordsRow.encode_id⟩

theorem Serving.accepted_row
    (hFilters : normalizeFilters q.filters = .ok filters) (hDeleted : q.showDeleted = true → t.includeDeleted = true)
    {d : StoredDoc} (hd : d ∈ collectionDocuments e.storage database q.collection) (hAccept : acceptsDocument q d = true) :
    ∃ r ∈ rows, logicalDocumentID d = .ok r.id ∧
      ∃ (b : Nat) (branch : CandidateBranch), m.branches[b]? = some branch ∧ branch.Mem r.orderKey := by
  obtain ⟨p, hp⟩ := h.indexed.projected d hd
  obtain ⟨id, hDocumentID, hId, -⟩ := buildDocumentProjection_spec hp
  obtain ⟨hShown, hPass⟩ := (acceptsDocument_of_identity hId).mp hAccept
  obtain ⟨hNormal, hIdem⟩ := normalizeFiltersFrom_spec hFilters
  have hPass' : evaluateFilters filters (documentField d p.documentID) = .ok true := by
    rw [hDocumentID, ← hPass, evaluateFilters, evaluateFilters, hFilters, show normalizeFilters filters = _ from hIdem 0]
  have hLive : (d.deleted && !t.includeDeleted) = false := by
    cases hShow : q.showDeleted with
    | true => simp [hDeleted hShow]
    | false =>
      have : d.deleted = false := by simpa [hShow] using hShown
      simp [this]
  obtain ⟨r, hr, hRowId, hBranch⟩ := h.compiled.covered_row h.indexed hNormal (hIdem 0) hd hp hLive hPass'
  exact ⟨r, hr, by rw [hRowId, hDocumentID, hId], hBranch⟩

variable {ds : List StoredDoc} {ended : Bool} {state state' : PageState}

theorem Serving.filled_slice (hFilters : normalizeFilters q.filters = .ok filters)
    (hDeleted : q.showDeleted = true → t.includeDeleted = true) (hAfter : StartsAfter m after)
    (hFilled : Filled e database q m (branchRows m after rows) state state' ended groups ds rest) :
    Slice (collectionDocuments e.storage database q.collection) (acceptsDocument q) m.effectiveOrder after
      (if ended then none else some state'.position) (ds.filter (acceptsDocument q)) := by
  have hWithin := h.within hAfter
  have hOrdered := h.compiled.ordered h.indexed hWithin.sublist hWithin.branch
  have hSorted := hFilled.pulled.sorted hOrdered
  constructor
  · refine List.Pairwise.filter _ (forall₂_pairwise hFilled.resolved (fun g g' d d' hd hd' hLt => ?_) hSorted)
    exact ⟨g.position, g'.position, ⟨g.id, hd.identity, hd.position⟩, ⟨g'.id, hd'.identity, hd'.position⟩, hLt⟩
  · intro d
    rw [mem_filter]
    constructor
    · rintro ⟨hMem, hAccept⟩
      obtain ⟨g, hg, hd⟩ := forall₂_mem_right hFilled.resolved hMem
      refine ⟨hd.mem, hAccept, g.position, ⟨g.id, hd.identity, hd.position⟩,
        (h.group_startsAfter hAfter hFilled.pulled g hg).1, fun bound hBound => ?_⟩
      cases ended with
      | true => cases hBound
      | false =>
        obtain ⟨init, last, rfl⟩ : ∃ init last, groups = init ++ [last] :=
          (eq_nil_or_concat' groups).resolve_left (ne_nil_of_mem hg)
        obtain rfl : state'.position = bound := some.inj hBound
        rw [hFilled.position, getLast?_concat]
        rcases mem_push.mp hg with hInit | rfl
        · exact ((pairwise_append.mp hSorted).2.2 g hInit last mem_cons_self).asymm
        · exact lt_irrefl _
    · rintro ⟨hDoc, hAccept, p, hp, hLt, hBound⟩
      refine ⟨?_, hAccept⟩
      obtain ⟨r, hr, hId, b, branch, hBranch, hIn⟩ := h.accepted_row hFilters hDeleted hDoc hAccept
      have hRow : RowPosition m (collectionDocuments e.storage database q.collection) r p := by
        obtain ⟨id, hId', hPosition⟩ := hp
        cases ok.inj (hId.symm.trans hId')
        exact ⟨d, hDoc, hId, hPosition⟩
      have hPending : r ∈ branchRows m after rows b :=
        (mem_branchRows_after h.compiled h.indexed hAfter).mpr ⟨hr, branch, hBranch, hIn, p, hRow, hLt⟩
      obtain hRest | ⟨g, hg, hPosition⟩ := hFilled.pulled.complete hPending
      · -- a row that still waits lies past the end of the page
        cases ended with
        | true =>
          rw [hFilled.finished rfl b] at hRest
          cases hRest
        | false => exact absurd (hFilled.unfinished rfl b r hRest p hRow) (hBound _ rfl)
      · obtain ⟨d', hd', hResolved⟩ := forall₂_mem_left hFilled.resolved hg
        obtain ⟨⟨b', r', hr', hPosition', hSame⟩, -⟩ := hFilled.pulled.origin g hg
        have hIds := hOrdered.identity b b' r r' _ hPending hr' hPosition hPosition'
        rw [hIds, hSame] at hId
        rwa [h.indexed.unique hDoc hResolved.mem hId hResolved.identity]

theorem Serving.filled_startsAfter (hAfter : StartsAfter m after) (hStart : state.position = after)
    (hFilled : Filled e database q m (branchRows m after rows) state state' ended groups ds rest) :
    StartsAfter m state'.position ∧ ∀ p, state'.position < p → after < p := by
  rw [hFilled.position]
  cases hLast : groups.getLast? with
  | none =>
    rw [map_none, getD_none, hStart]
    exact ⟨hAfter, fun p hp => hp⟩
  | some g =>
    obtain ⟨hLt, hStarts⟩ := h.group_startsAfter hAfter hFilled.pulled g (mem_of_getLast? hLast)
    exact ⟨hStarts, fun p hp => hLt.trans hp⟩

omit h

def Issued (e : Engine Token) (m : CandidateMetadata) (after : Bytes) (token : Token) : Prop :=
  StartsAfter m after ∧
    ∀ c, e.codec.unmarshal token = .ok c → c.template = m.templateFingerprint ∧ c.position = after

def Answered (e : Engine Token) (m : CandidateMetadata) (answer : Option (QueryPage Token)) :
    Option (PageState × Bool) → Prop
  | none => answer = none
  | some (state, ended) => ∃ page, answer = some page ∧ page.documents = state.documents ∧
      page.effectiveOrder = m.effectiveOrder.map pageOrder ∧
      (ended = true → page.nextCursor = none) ∧
      (ended = false → ∃ token, page.nextCursor = some token ∧
        ∀ c, e.codec.unmarshal token = .ok c → c.template = m.templateFingerprint ∧ c.position = state.position)

def PageOf (e : Engine Token) (database : Bytes) (q : Query Token) (m : CandidateMetadata) (after : Bytes) (fuel : Nat)
    (answer : Option (QueryPage Token)) : Prop :=
  ∃ s filled,
    openStream m (e.manager.readView ⟨database, q.collection, m.templateFingerprint, m.generation⟩) maxQueryCandidates
      after = .ok s ∧
    fillPage e database q m q.limit.toNat fuel s ⟨[], after, [], 0⟩ = .ok filled ∧ Answered e m answer filled

theorem encodeCursor_spec {codec : CursorCodec Token} {c : QueryCursor} {token : Token} (h : encodeCursor codec c = .ok token) :
    ∀ c', codec.unmarshal token = .ok c' → c'.template = c.template ∧ c'.position = c.position := by
  intro c' hc'
  unfold encodeCursor at h
  split at h
  · cases h
  · exact codec.kept c token c' h hc'

theorem indexPage_spec {fuel : Nat} {cursor : QueryCursor} {answer : Option (QueryPage Token)}
    (hFirst : q.startAfter = none → cursor.position = []) (h : indexPage e fuel database q cursor = .ok answer) :
    ∃ filters m t generation, normalizeFilters q.filters = .ok filters ∧
      Planned e.manager database q.collection filters (q.orderBy.map planOrder) q.showDeleted m t generation ∧
      (q.startAfter.isSome → cursor.template = m.templateFingerprint) ∧
      PageOf e database q m cursor.position fuel answer := by
  unfold indexPage at h
  split at h
  · cases h
  obtain ⟨s, hOpen, h⟩ := bind_eq_ok h
  have hOpen := mapError_eq_ok hOpen
  obtain ⟨hCurrent, h⟩ := guard_eq_ok h
  obtain ⟨filled, hFill, h⟩ := bind_eq_ok h
  obtain ⟨filters, t, generation, hFilters, hPlanned, -, hStream⟩ := openCandidates_spec hOpen
  refine ⟨filters, s.metadata, t, generation, ?_, ?_, ?_, s, filled, ?_, hFill, ?_⟩
  · split at hFilters <;> exact hFilters
  · split at hPlanned <;> exact hPlanned
  · intro hSome
    by_contra hOther
    exact hCurrent ⟨hSome, .inl hOther⟩
  · split at hStream
    · exact hStream
    rename_i hNone
    rw [hFirst (by simpa using hNone)]
    exact hStream
  · match filled, h with
    | none, h =>
      cases h
      rfl
    | some (state, ended), h =>
      obtain ⟨token, hToken, h⟩ := bind_eq_ok h
      obtain ⟨-, -, rfl⟩ := map_eq_ok h
      refine ⟨_, rfl, rfl, rfl, fun hEnded => ?_, fun hOpen => ?_⟩
      · rw [if_pos hEnded] at hToken
        exact (ok.inj hToken).symm
      · rw [if_neg (by simp [hOpen])] at hToken
        obtain ⟨token, hEncode, rfl⟩ := map_eq_ok hToken
        exact ⟨token, rfl, encodeCursor_spec hEncode⟩

section Page

variable {after : Bytes} {fuel : Nat} {generation : Generation}
variable (hPublished : Published e database q.collection)
variable (hPlanned : Planned e.manager database q.collection filters orderBy q.showDeleted m t generation)
variable (hAfter : StartsAfter m after)

include hPublished hPlanned hAfter

theorem PageOf.slice (hFilters : normalizeFilters q.filters = .ok filters) {page : QueryPage Token}
    (h : PageOf e database q m after fuel (some page)) :
    page.effectiveOrder = m.effectiveOrder.map pageOrder ∧
      ∃ ds last, page.documents = ds.map shownDocument ∧
        Slice (collectionDocuments e.storage database q.collection) (acceptsDocument q) m.effectiveOrder after last ds ∧
        (page.nextCursor = none → last = none) ∧
        ∀ token, page.nextCursor = some token →
          ∃ next, last = some next ∧ Issued e m next token ∧ ∀ p, next < p → after < p := by
  obtain ⟨k, hServing⟩ := serving_of_planned hPublished hPlanned
  obtain ⟨s, filled, hOpen, hFill, hAnswered⟩ := h
  obtain ⟨hMeta, -, hReady⟩ := openStream_ready hOpen
  match filled, hAnswered with
  | some (state, ended), ⟨page', hPage, hDocuments, hOrder, hEnd, hMore⟩ =>
    cases hPage
    obtain ⟨groups, ds, rest, hFilled⟩ := hServing.fillPage_spec hMeta hReady (hServing.within hAfter)
      (hServing.past hAfter) (by simp) hFill
    obtain ⟨hStarts, hLater⟩ := hServing.filled_startsAfter hAfter rfl hFilled
    refine ⟨hOrder, _, _, ?_, hServing.filled_slice hFilters hPlanned.deleted hAfter hFilled, ?_, ?_⟩
    · rw [hDocuments, hFilled.documents]
      rfl
    · intro hNone
      cases ended with
      | true => rfl
      | false =>
        obtain ⟨token, hToken, -⟩ := hMore rfl
        cases hNone.symm.trans hToken
    · intro token hToken
      cases ended with
      | true => cases (hEnd rfl).symm.trans hToken
      | false =>
        obtain ⟨token', hToken', hKept⟩ := hMore rfl
        cases hToken.symm.trans hToken'
        exact ⟨state.position, rfl, ⟨hStarts, hKept⟩, hLater⟩

theorem PageOf.answers
    (hFuel : m.branches.length * (e.manager.readView ⟨database, q.collection, m.templateFingerprint, m.generation⟩).length < fuel) :
    ¬ PageOf e database q m after fuel none := by
  obtain ⟨k, hServing⟩ := serving_of_planned hPublished hPlanned
  rintro ⟨s, filled, hOpen, hFill, hAnswered⟩
  obtain ⟨hMeta, -, hReady⟩ := openStream_ready hOpen
  match filled, hAnswered with
  | none, _ =>
    have hRows := waitingRows_le m after
      (e.manager.readView ⟨database, q.collection, m.templateFingerprint, m.generation⟩) m.branches.length
    exact hServing.fillPage_answers hMeta hReady (hServing.within hAfter) (by omega) hFill
  | some (state, ended), ⟨_, hNone, _⟩ => cases hNone

end Page

end Fill

section Run

variable {Token : Type} {e : Engine Token} {database : Bytes} {q : Query Token} {filters : List Filter}

abbrev Query.asked (q : Query Token) (filters : List Filter) (limit : Int) (start : Option Token) : Query Token :=
  { q with filters := filters, limit := limit, startAfter := start }

theorem acceptsDocument_normalized (hFilters : normalizeFilters q.filters = .ok filters) (limit : Int) (start : Option Token) :
    acceptsDocument (q.asked filters limit start) = acceptsDocument q := by
  obtain ⟨-, hIdem⟩ := normalizeFiltersFrom_spec hFilters
  funext d
  simp only [acceptsDocument, evaluateFilters, hFilters, show normalizeFilters filters = _ from hIdem 0]

variable {start : Option Token}

variable {limit : Int}

theorem normalizeQuery_spec {checkCollection : Bytes → Bool} (hLow : 1 ≤ limit) {q' : Query Token}
    (h : normalizeQuery checkCollection { q with limit := limit, startAfter := start } = .ok q') :
    ∃ filters, normalizeFilters q.filters = .ok filters ∧
      q' = q.asked filters limit start := by
  simp only [normalizeQuery] at h
  split at h
  · cases h
  split at h
  · cases h
  split at h
  · cases h
  rename_i filters hFilters
  split at h
  · cases h
  obtain ⟨-, -, rfl⟩ := map_eq_ok h
  refine ⟨filters, hFilters, ?_⟩
  rw [if_neg (by omega)]

theorem startCursor_spec {scope : Bytes} {cursor : QueryCursor} (h : startCursor e scope start = .ok cursor) :
    (start = none → cursor.position = []) ∧ ∀ token, start = some token → e.codec.unmarshal token = .ok cursor := by
  cases start with
  | none =>
    cases h
    exact ⟨fun _ => rfl, fun token hToken => (by cases hToken)⟩
  | some token =>
    refine ⟨fun hNone => (by cases hNone), fun token' hToken => ?_⟩
    cases hToken
    obtain ⟨c, hDecode, h⟩ := bind_eq_ok h
    split at h
    · cases h
    cases h
    unfold decodeCursor at hDecode
    split at hDecode
    · cases hDecode
    rename_i hUnmarshal
    split at hDecode
    · cases hDecode
    · cases hDecode
      exact hUnmarshal

variable {fuel : Nat}

theorem executeQueryPage_spec (hFilters : normalizeFilters q.filters = .ok filters)
    (hRoute : sourceRouted { q with filters := filters } = false) (hLow : 1 ≤ limit) {answer : Option (QueryPage Token)}
    (h : executeQueryPage e fuel database { q with limit := limit, startAfter := start } = .ok answer) :
    ∃ m t generation after,
      Planned e.manager database q.collection filters (q.orderBy.map planOrder) q.showDeleted m t generation ∧
      (start = none → after = []) ∧
      (∀ token, start = some token → ∃ c, e.codec.unmarshal token = .ok c ∧ c.template = m.templateFingerprint ∧
        c.position = after) ∧
      PageOf e database (q.asked filters limit start) m after fuel answer := by
  unfold executeQueryPage at h
  split at h
  · cases h
  obtain ⟨q', hNormalize, h⟩ := bind_eq_ok h
  obtain ⟨filters', hFilters', rfl⟩ := normalizeQuery_spec hLow hNormalize
  cases ok.inj (hFilters.symm.trans hFilters')
  obtain ⟨scope, -, h⟩ := bind_eq_ok h
  obtain ⟨cursor, hCursor, h⟩ := bind_eq_ok h
  rw [show sourceRouted (q.asked filters limit start) = false from hRoute,
    if_neg Bool.false_ne_true] at h
  obtain ⟨hFirst, hResumed⟩ := startCursor_spec hCursor
  obtain ⟨-, hIdem⟩ := normalizeFiltersFrom_spec hFilters
  obtain ⟨filters'', m, t, generation, hFilters'', hPlanned, hTemplate, hPage⟩ := indexPage_spec hFirst h
  cases ok.inj ((hIdem 0).symm.trans hFilters'')
  refine ⟨m, t, generation, cursor.position, hPlanned, hFirst, fun token hToken => ?_, hPage⟩
  exact ⟨cursor, hResumed token hToken, hTemplate (by rw [hToken]; rfl), rfl⟩

/-- A client that follows cursors until a page carries none, with a limit of its choice for each page. -/
inductive Pages (e : Engine Token) (database : Bytes) (q : Query Token) : Option Token → List (QueryPage Token) → Prop
  | last {start : Option Token} {limit : Int} {fuel : Nat} {page : QueryPage Token} : 1 ≤ limit → limit ≤ 1000 →
      executeQueryPage e fuel database { q with limit := limit, startAfter := start } = .ok (some page) →
      page.nextCursor = none → Pages e database q start [page]
  | more {start : Option Token} {limit : Int} {fuel : Nat} {page : QueryPage Token} {token : Token}
      {rest : List (QueryPage Token)} : 1 ≤ limit → limit ≤ 1000 →
      executeQueryPage e fuel database { q with limit := limit, startAfter := start } = .ok (some page) →
      page.nextCursor = some token → Pages e database q (some token) rest → Pages e database q start (page :: rest)

inductive Reaches (e : Engine Token) (database : Bytes) (q : Query Token) : Option Token → Prop
  | first : Reaches e database q none
  | next {start : Option Token} {limit : Int} {fuel : Nat} {page : QueryPage Token} {token : Token} :
      Reaches e database q start → 1 ≤ limit → limit ≤ 1000 →
      executeQueryPage e fuel database { q with limit := limit, startAfter := start } = .ok (some page) →
      page.nextCursor = some token → Reaches e database q (some token)

def Delivers (e : Engine Token) (database : Bytes) (q : Query Token) (m : CandidateMetadata) (after : Bytes)
    (pages : List (QueryPage Token)) : Prop :=
  (∀ page ∈ pages, page.effectiveOrder = m.effectiveOrder.map pageOrder) ∧
    ∃ ds, Slice (collectionDocuments e.storage database q.collection) (acceptsDocument q) m.effectiveOrder after none ds ∧
      pages.flatMap QueryPage.documents = ds.map shownDocument

section Follow

variable (hPublished : Published e database q.collection) (hFilters : normalizeFilters q.filters = .ok filters)
variable (hRoute : sourceRouted { q with filters := filters } = false)
variable {generation : Generation} {m : CandidateMetadata} {after : Bytes} {t : Template}

include hPublished hFilters

section Plan

variable (hPlanned : Planned e.manager database q.collection filters (q.orderBy.map planOrder) q.showDeleted m t generation)

include hPlanned

variable {fuel : Nat} {limit : Int}

theorem PageOf.delivers (hAfter : StartsAfter m after) {page : QueryPage Token}
    (h : PageOf e database (q.asked filters limit start) m after fuel (some page)) :
    (page.nextCursor = none → Delivers e database q m after [page]) ∧
      ∀ token, page.nextCursor = some token → (∃ next, Issued e m next token) ∧
        ∀ rest, (∀ next, Issued e m next token → Delivers e database q m next rest) →
          Delivers e database q m after (page :: rest) := by
  obtain ⟨-, hIdem⟩ := normalizeFiltersFrom_spec hFilters
  obtain ⟨hOrder, ds, last, hDocuments, hSlice, hLast, hNext⟩ := PageOf.slice
    (q := q.asked filters limit start) hPublished hPlanned hAfter (hIdem 0) h
  rw [acceptsDocument_normalized hFilters] at hSlice
  constructor
  · intro hNone
    cases hLast hNone
    refine ⟨by simpa using hOrder, ds, hSlice, ?_⟩
    rw [flatMap_singleton, hDocuments]
  · intro token hToken
    obtain ⟨next, rfl, hIssued, hLater⟩ := hNext token hToken
    refine ⟨⟨next, hIssued⟩, fun rest hRest => ?_⟩
    obtain ⟨hOrders, ds', hSlice', hShown⟩ := hRest next hIssued
    refine ⟨forall_mem_cons.mpr ⟨hOrder, hOrders⟩, ds ++ ds', hSlice.append hSlice' hLater, ?_⟩
    rw [flatMap_cons, hDocuments, hShown, map_append]

theorem Slice.perm {ds : List StoredDoc}
    (h : Slice (collectionDocuments e.storage database q.collection) (acceptsDocument q) m.effectiveOrder [] none ds) :
    ds.Perm ((collectionDocuments e.storage database q.collection).filter (acceptsDocument q)) := by
  obtain ⟨k, hServing⟩ := serving_of_planned hPublished hPlanned
  have hDistinct : ds.Nodup := h.sorted.imp fun ⟨p, p', hp, hp', hLt⟩ hSame => by
    subst hSame
    exact absurd hLt (hp.unique hp' ▸ lt_irrefl _)
  refine (perm_ext_iff_of_nodup hDistinct ((hServing.indexed.paths.of_map _).filter _)).mpr fun d => ?_
  rw [h.mem, mem_filter]
  refine and_congr_right fun hDoc => ⟨And.left, fun hAccept => ⟨hAccept, ?_⟩⟩
  obtain ⟨r, hr, hId, -⟩ := hServing.accepted_row hFilters hPlanned.deleted hDoc hAccept
  obtain ⟨_, -, _, _, ws, -, -, -, ⟨d', hDoc', hId', hPosition⟩, -⟩ :=
    rowPosition_of_mem hServing.compiled hServing.indexed hr
  cases hServing.indexed.unique hDoc hDoc' hId hId'
  exact ⟨tupleKey ws r.id, ⟨r.id, hId, hPosition⟩, nil_lt_cons _ _, by simp⟩

include hRoute

variable {token : Token} (hIssued : Issued e m after token)

include hIssued

theorem executeQueryPage_issued (hLow : 1 ≤ limit) {answer : Option (QueryPage Token)}
    (h : executeQueryPage e fuel database { q with limit := limit, startAfter := some token } = .ok answer) :
    PageOf e database (q.asked filters limit (some token)) m after fuel answer := by
  obtain ⟨m', t', generation', after', hPlanned', -, hCursor, hPage⟩ := executeQueryPage_spec hFilters hRoute hLow h
  obtain ⟨c, hUnmarshal, hTemplate, rfl⟩ := hCursor token rfl
  obtain ⟨hTemplate', rfl⟩ := hIssued.2 c hUnmarshal
  rw [hPlanned.unique hPublished.templates hPlanned' (hTemplate'.symm.trans hTemplate)]
  exact hPage

theorem Pages.resumed {pages : List (QueryPage Token)} (h : Pages e database q (some token) pages) :
    Delivers e database q m after pages := by
  generalize hStart : some token = start at h
  induction h generalizing token after with
  | last hLow _ hExecute hNone =>
    cases hStart
    have hPage := executeQueryPage_issued hPublished hFilters hRoute hPlanned hIssued hLow hExecute
    exact (hPage.delivers hPublished hFilters hPlanned hIssued.1).1 hNone
  | more hLow _ hExecute hToken _ ih =>
    cases hStart
    have hPage := executeQueryPage_issued hPublished hFilters hRoute hPlanned hIssued hLow hExecute
    exact ((hPage.delivers hPublished hFilters hPlanned hIssued.1).2 _ hToken).2 _ fun next hNext => ih hNext rfl

end Plan

include hRoute

theorem Pages.delivers {pages : List (QueryPage Token)} (h : Pages e database q none pages) :
    ∃ m t generation,
      Planned e.manager database q.collection filters (q.orderBy.map planOrder) q.showDeleted m t generation ∧
        Delivers e database q m [] pages := by
  cases h with
  | last hLow _ hExecute hNone =>
    obtain ⟨m, t, generation, after, hPlanned, hFirst, -, hPage⟩ := executeQueryPage_spec hFilters hRoute hLow hExecute
    cases hFirst rfl
    exact ⟨m, t, generation, hPlanned, (hPage.delivers hPublished hFilters hPlanned (.inl rfl)).1 hNone⟩
  | more hLow _ hExecute hToken hRest =>
    obtain ⟨m, t, generation, after, hPlanned, hFirst, -, hPage⟩ := executeQueryPage_spec hFilters hRoute hLow hExecute
    cases hFirst rfl
    refine ⟨m, t, generation, hPlanned, ?_⟩
    exact ((hPage.delivers hPublished hFilters hPlanned (.inl rfl)).2 _ hToken).2 _ fun next hNext =>
      Pages.resumed hPublished hFilters hRoute hPlanned hNext hRest

/-- A request that a client comes to is answered by a page after the position its cursor stands for. -/
theorem Reaches.pageOf (h : Reaches e database q start) {limit : Int} (hLow : 1 ≤ limit) {fuel : Nat}
    {answer : Option (QueryPage Token)}
    (hExecute : executeQueryPage e fuel database { q with limit := limit, startAfter := start } = .ok answer) :
    ∃ m t generation after,
      Planned e.manager database q.collection filters (q.orderBy.map planOrder) q.showDeleted m t generation ∧
        StartsAfter m after ∧
        PageOf e database (q.asked filters limit start) m after fuel answer := by
  induction h generalizing limit fuel answer with
  | first =>
    obtain ⟨m, t, generation, after, hPlanned, hFirst, -, hPage⟩ := executeQueryPage_spec hFilters hRoute hLow hExecute
    exact ⟨m, t, generation, after, hPlanned, .inl (hFirst rfl), hPage⟩
  | next _ hLow' _ hExecute' hNext ih =>
    obtain ⟨m, t, generation, after, hPlanned, hAfter, hPage⟩ := ih hLow' hExecute'
    obtain ⟨⟨next, hIssued⟩, -⟩ := (hPage.delivers hPublished hFilters hPlanned hAfter).2 _ hNext
    exact ⟨m, t, generation, next, hPlanned, hIssued.1,
      executeQueryPage_issued hPublished hFilters hRoute hPlanned hIssued hLow hExecute⟩

end Follow

variable {orderBy : List OrderField} {generation : Generation} {m : CandidateMetadata} {t : Template}

/-- The rows a page may have to look at, over the plans of all templates. -/
def pageRounds (m : Manager) (database collection : Bytes) (filters : List Filter) (orderBy : List OrderField) : Nat :=
  ((m.templates database).map fun t =>
    match compileCandidate m.digests t filters orderBy,
      m.readGeneration database collection (m.digests.fingerprint t) with
    | .ok (metadata, _), some generation => metadata.branches.length *
        (m.readView ⟨database, collection, m.digests.fingerprint t, generation.id⟩).length
    | _, _ => 0).sum

theorem le_pageRounds {mgr : Manager} {collection : Bytes} {showDeleted : Bool}
    (h : Planned mgr database collection filters orderBy showDeleted m t generation) :
    m.branches.length * (mgr.readView ⟨database, collection, m.templateFingerprint, m.generation⟩).length ≤
      pageRounds mgr database collection filters orderBy := by
  rw [h.fingerprint]
  refine single_le_sum (by simp) _ (List.mem_map.mpr ⟨t, h.template, ?_⟩)
  obtain ⟨compiled, score, hCompile, rfl⟩ := h.compiled
  simp only [hCompile, h.current]

theorem PageOf.answered (hPublished : Published e database q.collection)
    (hPlanned : Planned e.manager database q.collection filters orderBy q.showDeleted m t generation) {after : Bytes}
    (hAfter : StartsAfter m after) (hFuel : pageRounds e.manager database q.collection filters orderBy < fuel) :
    ¬ PageOf e database (q.asked filters limit start) m after fuel none := by
  have hRounds := le_pageRounds hPlanned
  exact PageOf.answers (q := q.asked filters limit start) hPublished hPlanned
    hAfter (lt_of_le_of_lt hRounds hFuel)

/-- Following cursors loses and repeats nothing: the pages of a client that follows cursors to the end
show, in the order of positions, each document of the collection that passes the filters and is not
deleted, or may be shown deleted, exactly once. Every request of such a client is answered. -/
theorem pages_exactly_once (e : Engine Token) (database : Bytes) (q : Query Token)
    (hPublished : Published e database q.collection) (filters : List Filter)
    (hFilters : normalizeFilters q.filters = .ok filters) (hRoute : sourceRouted { q with filters := filters } = false) :
    (∃ enough, ∀ fuel, enough ≤ fuel → ∀ start, Reaches e database q start → ∀ limit : Int, 1 ≤ limit → limit ≤ 1000 →
      executeQueryPage e fuel database { q with limit := limit, startAfter := start } ≠ .ok none) ∧
    ∀ pages, Pages e database q none pages → ∃ (order : List OrderField) (documents : List StoredDoc),
      documents.Perm ((collectionDocuments e.storage database q.collection).filter (acceptsDocument q)) ∧
      documents.Pairwise (Precedes order) ∧
      (∀ page ∈ pages, page.effectiveOrder = order.map pageOrder) ∧
      pages.flatMap QueryPage.documents = documents.map shownDocument := by
  constructor
  · refine ⟨pageRounds e.manager database q.collection filters (q.orderBy.map planOrder) + 1, ?_⟩
    intro fuel hFuel start hReach limit hLow _ hNone
    obtain ⟨m, t, generation, after, hPlanned, hAfter, hPage⟩ := hReach.pageOf hPublished hFilters hRoute hLow hNone
    exact PageOf.answered hPublished hPlanned hAfter hFuel hPage
  · intro pages hPages
    obtain ⟨m, t, generation, hPlanned, hOrder, ds, hSlice, hShown⟩ :=
      Pages.delivers hPublished hFilters hRoute hPages
    exact ⟨m.effectiveOrder, ds, hSlice.perm hPublished hFilters hPlanned, hSlice.sorted, hOrder, hShown⟩

end Run

def taggedEngine : Engine QueryCursor where
  storage := ⟨taggedNotes, fun _ => none⟩
  manager := ⟨taggedDigests, fun _ => [taggedTemplate], fun _ _ _ => some ⟨text "g", true, [], []⟩,
    fun _ => postingRows taggedProjections⟩
  codec := ⟨.ok, .ok, fun c token c' hMarshal hUnmarshal => by
    cases hMarshal
    cases hUnmarshal
    exact ⟨rfl, rfl⟩⟩
  checkCollection := fun _ => true
  queryScope := fun _ _ _ _ _ => .ok (text "scope")
  encodedBytes := fun _ => .ok 1
  checkPageSize := fun _ _ => .ok ()
  sourcePage := fun _ _ _ => .error .source

def taggedQuery : Query QueryCursor := ⟨text "notes", [tagFilter], [], 0, none, false⟩

def taggedOrder : List OrderField := [⟨text "title", .asc⟩, ⟨idField, .asc⟩]

def taggedCursor : QueryCursor :=
  ⟨cursorVersion, text "scope", indexRoute, taggedOrder.map pageOrder, text "f", text "g", text "h",
    [2, 80, 111, 0, 0, 80, 50, 0, 0]⟩

theorem page_of_map {Token β : Type} {x : Except QueryError (Option (QueryPage Token))} {f : QueryPage Token → β} {b : β}
    (h : x.toOption.join.map f = some b) : ∃ page, x = .ok (some page) ∧ f page = b := by
  obtain ⟨page, hPage, rfl⟩ := map_eq_some_iff.mp h
  match x, hPage with
  | .ok (some _), rfl => exact ⟨page, rfl, rfl⟩

/-- Two notes with a tag, one on each of two pages. -/
theorem pages_exactly_once_tagged :
    ∃ pages, Pages taggedEngine (text "db") taggedQuery none pages ∧
      pages.map (fun page => page.documents.length) = [1, 1] ∧ ∃ documents : List StoredDoc,
        documents.Perm ((collectionDocuments taggedEngine.storage (text "db") (text "notes")).filter
          (acceptsDocument taggedQuery)) ∧
        pages.flatMap QueryPage.documents = documents.map shownDocument := by
  have hPublished : Published taggedEngine (text "db") (text "notes") := by
    refine ⟨by decide, by decide, fun t ht generation hGeneration _ _ => ?_⟩
    cases List.mem_singleton.mp ht
    cases hGeneration
    exact indexed_postingRows (by simp [collectionDocuments]) (by decide) (.cons rfl (.cons rfl .nil))
  have hFirst : ((executeQueryPage taggedEngine 5 (text "db")
      { taggedQuery with limit := 1, startAfter := none }).toOption.join.map
        fun page => (page.documents.length, page.nextCursor)) = some (1, some taggedCursor) := by decide +kernel
  have hSecond : ((executeQueryPage taggedEngine 5 (text "db")
      { taggedQuery with limit := 1000, startAfter := some taggedCursor }).toOption.join.map
        fun page => (page.documents.length, page.nextCursor)) = some (1, none) := by decide +kernel
  obtain ⟨page, hPage, hShape⟩ := page_of_map hFirst
  obtain ⟨page', hPage', hShape'⟩ := page_of_map hSecond
  obtain ⟨hLength, hCursor⟩ := Prod.mk.inj hShape
  obtain ⟨hLength', hCursor'⟩ := Prod.mk.inj hShape'
  have hPages : Pages taggedEngine (text "db") taggedQuery none [page, page'] :=
    .more (by decide) (by decide) hPage hCursor (.last (by decide) (by decide) hPage' hCursor')
  obtain ⟨-, hAll⟩ := pages_exactly_once taggedEngine (text "db") taggedQuery hPublished [tagFilter] rfl rfl
  obtain ⟨order, documents, hPerm, -, -, hShown⟩ := hAll _ hPages
  exact ⟨_, hPages, by simp [hLength, hLength'], documents, hPerm, hShown⟩

end Syntrix.Core
