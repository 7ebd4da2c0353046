import Syntrix.Query.PageStream

/-! # Filling a page

Over a source that does not change and an index of its postings every candidate is the document it
names, at the position it was found. A filled page holds the documents of the candidates it drew that
the query accepts, in order.
-/
namespace Syntrix.Core

open Lib OrderCode Model Index CandidateStream List Except

def collectionDocuments (s : Storage) (database collection : Bytes) : List StoredDoc :=
  s.documents.filter fun d => decide (d.database = database) && decide (d.collection = collection)

def acceptsDocument {Token : Type} (q : Query Token) (d : StoredDoc) : Bool :=
  match logicalDocumentID d with
  | .error _ => false
  | .ok id => (!d.deleted || q.showDeleted) && decide (evaluateFilters q.filters (documentField d id) = .ok true)

def shownDocument (d : StoredDoc) : Document := pageDocument d ((logicalDocumentID d).toOption.getD [])

def Storage.Keyed (s : Storage) : Prop :=
  s.documents.Pairwise fun d d' => ¬ (d.database = d'.database ∧ d.fullpath = d'.fullpath)

instance (s : Storage) : Decidable s.Keyed :=
  inferInstanceAs (Decidable (s.documents.Pairwise fun d d' => ¬ (d.database = d'.database ∧ d.fullpath = d'.fullpath)))

theorem Storage.Keyed.lookup {s : Storage} (h : s.Keyed) {d : StoredDoc} (hd : d ∈ s.documents) :
    s.lookup d.database d.fullpath = some d := by
  unfold Storage.lookup
  unfold Storage.Keyed at h
  generalize s.documents = docs at h hd
  induction docs with
  | nil => cases hd
  | cons x rest ih =>
    obtain ⟨hx, hRest⟩ := pairwise_cons.mp h
    obtain rfl | hd := mem_cons.mp hd
    · simp
    have hOther : ¬ (x.database = d.database ∧ x.fullpath = d.fullpath) := hx d hd
    rw [find?_cons_of_neg (by simpa using hOther)]
    exact ih hRest hd

section Fill

variable {Token : Type} {e : Engine Token} {database : Bytes} {q : Query Token} {m : CandidateMetadata}
variable {t : Template} {filters : List Filter} {orderBy : List OrderField} {k : Nat} {rows : List DocRef}

structure Serving (e : Engine Token) (database collection : Bytes) (t : Template) (filters : List Filter)
    (orderBy : List OrderField) (m : CandidateMetadata) (k : Nat) (rows : List DocRef) : Prop where
  compiled : Compiled t filters orderBy m k
  keyed : e.storage.Keyed
  indexed : Indexed e.manager.digests.fingerprint t m.generation defaultProjectionLimits collection
    (collectionDocuments e.storage database collection) rows

structure Resolves (e : Engine Token) (database : Bytes) (q : Query Token) (m : CandidateMetadata) (g : CandidateGroup)
    (d : StoredDoc) : Prop where
  mem : d ∈ collectionDocuments e.storage database q.collection
  identity : logicalDocumentID d = .ok g.id
  found : e.storage.lookup database (documentPath q.collection g.id) = some d
  position : documentPosition m.effectiveOrder d g.id = .ok g.position
  posting : ∃ p, buildDocumentProjection e.manager.digests.fingerprint d m.template m.generation
    defaultProjectionLimits = .ok p ∧ holdsPosting m g.position p.postingKeys g.branches = .ok true

theorem holdsPosting_true {position : Bytes} {keys : List Bytes} {branches : List Nat} (hNonempty : branches ≠ [])
    (h : ∀ b ∈ branches, ∃ key ∈ keys, m.postingKey position b = .ok key) :
    holdsPosting m position keys branches = .ok true := by
  induction branches with
  | nil => exact absurd rfl hNonempty
  | cons b rest ih =>
    rw [forall_mem_cons] at h
    obtain ⟨⟨key, hMem, hKey⟩, hRest⟩ := h
    simp only [holdsPosting, hKey, Except.mapError, Except.bind, hMem, decide_true, Bool.true_or]
    cases rest with
    | nil => rfl
    | cons b' rest =>
      rw [ih (by simp) hRest]
      rfl

variable {d : StoredDoc}

variable {groups : List CandidateGroup} {pend : Nat → List DocRef}

variable {id : Bytes}

theorem acceptsDocument_of_identity (hId : logicalDocumentID d = .ok id) :
    acceptsDocument q d = true ↔
      (d.deleted && !q.showDeleted) = false ∧ evaluateFilters q.filters (documentField d id) = .ok true := by
  simp only [acceptsDocument, hId, Bool.and_eq_true, decide_eq_true_eq]
  cases d.deleted <;> cases q.showDeleted <;> simp

theorem shownDocument_of_identity (hId : logicalDocumentID d = .ok id) : shownDocument d = pageDocument d id := by
  simp [shownDocument, hId, Except.toOption]

variable {state state' : PageState}

variable {g : CandidateGroup}

theorem Resolves.consume (h : Resolves e database q m g d) (hNew : g.id ∉ state.seen)
    (hConsume : consume e database q m g (some d) state = .ok state') :
    state'.position = g.position ∧ state'.documents = state.documents ++ ([d].filter (acceptsDocument q)).map shownDocument ∧
      ∀ id ∈ state'.seen, id = g.id ∨ id ∈ state.seen := by
  obtain ⟨-, hPlace⟩ := mem_filter.mp h.mem
  obtain ⟨hDatabase, hCollection⟩ : d.database = database ∧ d.collection = q.collection := by simpa using hPlace
  have hAccepts := acceptsDocument_of_identity (q := q) h.identity
  obtain ⟨p, hProjection, hPosting⟩ := h.posting
  simp only [Core.consume, validateSource, hDatabase, hCollection, ne_eq, not_true, or_self, if_false, h.identity,
    Except.mapError, Except.bind] at hConsume
  cases hDeleted : d.deleted && !q.showDeleted with
  | true =>
    have hNot : acceptsDocument q d = false := by
      rw [Bool.eq_false_iff]
      intro hTrue
      rw [hAccepts, hDeleted] at hTrue
      cases hTrue.1
    simp only [hDeleted, if_true] at hConsume
    cases hConsume
    exact ⟨rfl, by simp [hNot], fun id hId => .inr hId⟩
  | false =>
    simp only [hDeleted, Bool.false_eq_true, if_false] at hConsume
    cases hEval : evaluateFilters q.filters (documentField d g.id) with
    | error err =>
      simp [hEval, Except.map] at hConsume
    | ok accepted =>
      cases accepted with
      | false =>
        have hNot : acceptsDocument q d = false := by
          rw [Bool.eq_false_iff]
          intro hTrue
          rw [hAccepts, hEval] at hTrue
          cases hTrue.2
        simp only [hEval, Except.map, Bool.false_eq_true, if_false] at hConsume
        cases hConsume
        exact ⟨rfl, by simp [hNot], fun id hId => .inr hId⟩
      | true =>
        have hYes : acceptsDocument q d = true := hAccepts.mpr ⟨hDeleted, hEval⟩
        simp only [hEval, Except.map, if_true, hNew, if_false, h.position, not_true, hProjection, hPosting,
          Bool.not_true, Bool.false_eq_true] at hConsume
        obtain ⟨bytes, -, hAppend⟩ := bind_eq_ok hConsume
        split at hAppend
        · cases hAppend
        · cases hAppend
          simp [hYes, shownDocument_of_identity h.identity]

variable {ds : List StoredDoc}

theorem consumeAll_spec (h : Forall₂ (Resolves e database q m) groups ds) (hNodup : (groups.map CandidateGroup.id).Nodup)
    (hNew : ∀ g ∈ groups, g.id ∉ state.seen) (hConsume : consumeAll e database q m groups (ds.map some) state = .ok state') :
    state'.position = (groups.getLast?.map CandidateGroup.position).getD state.position ∧
      state'.documents = state.documents ++ (ds.filter (acceptsDocument q)).map shownDocument ∧
      ∀ id ∈ state'.seen, id ∈ groups.map CandidateGroup.id ∨ id ∈ state.seen := by
  induction h generalizing state with
  | nil =>
    cases hConsume
    exact ⟨rfl, by simp, fun id hId => .inr hId⟩
  | @cons g d groups ds hHead hTail ih =>
    rw [forall_mem_cons] at hNew
    obtain ⟨hFirst, hRest⟩ := nodup_cons.mp hNodup
    obtain ⟨state₁, hOne, hMore⟩ := bind_eq_ok hConsume
    obtain ⟨hPosition, hDocuments, hSeen⟩ := hHead.consume hNew.1 hOne
    have hNew₁ : ∀ g' ∈ groups, g'.id ∉ state₁.seen := by
      intro g' hg' hMem
      obtain hEq | hOld := hSeen _ hMem
      · exact hFirst (List.mem_map.mpr ⟨g', hg', hEq⟩)
      · exact hNew.2 g' hg' hOld
    obtain ⟨hPosition', hDocuments', hSeen'⟩ := ih hRest hNew₁ hMore
    refine ⟨?_, ?_, ?_⟩
    · rw [hPosition', hPosition, getLast?_cons]
      cases groups.getLast? <;> rfl
    · rw [hDocuments', hDocuments, append_assoc, ← map_append, ← filter_append]
      rfl
    · intro id hId
      obtain hMem | hMem := hSeen' id hId
      · exact .inl (mem_cons_of_mem _ hMem)
      obtain hEq | hOld := hSeen id hMem
      · exact .inl (hEq ▸ mem_cons_self)
      · exact .inr hOld

theorem consumeAll_append {groups' : List CandidateGroup} {docs docs' : List (Option StoredDoc)}
    (hLength : groups.length = docs.length) (state : PageState) :
    consumeAll e database q m (groups ++ groups') (docs ++ docs') state =
      (consumeAll e database q m groups docs state).bind (consumeAll e database q m groups' docs') := by
  induction groups generalizing docs state with
  | nil =>
    rw [length_eq_zero_iff.mp hLength.symm]
    rfl
  | cons g groups ih =>
    cases docs with
    | nil => simp at hLength
    | cons d docs =>
      simp only [cons_append, consumeAll]
      cases consume e database q m g d state with
      | error err => rfl
      | ok state₁ => exact ih (by simpa using hLength) state₁

variable {fuel : Nat}

theorem materialize_consumeAll {batchLimit : Nat} (h : materialize e database q m fuel batchLimit groups state = .ok state') :
    consumeAll e database q m groups
      (groups.map fun g => e.storage.lookup database (documentPath q.collection g.id)) state = .ok state' := by
  induction fuel generalizing batchLimit groups state with
  | zero =>
    cases groups with
    | nil => exact h
    | cons g groups => cases h
  | succ fuel ih =>
    cases groups with
    | nil => exact h
    | cons g groups =>
      simp only [materialize] at h
      generalize hAll : g :: groups = all at h ⊢
      cases hRead : e.storage.getMany database ((all.take batchLimit).map fun g => documentPath q.collection g.id) with
      | error r =>
        rw [hRead] at h
        cases r with
        | budget =>
          dsimp only at h
          split at h
          · exact ih h
          · cases h
        | other => cases h
      | ok docs =>
        rw [hRead] at h
        obtain ⟨state₁, hBatch, hRest⟩ := bind_eq_ok h
        have hDocs : docs = (all.take batchLimit).map fun g => e.storage.lookup database (documentPath q.collection g.id) := by
          unfold Storage.getMany at hRead
          split at hRead
          · cases hRead
          · rw [← ok.inj hRead, List.map_map]
            rfl
        rw [← take_append_drop batchLimit all, map_append, consumeAll_append (by simp), ← hDocs, hBatch]
        exact ih hRest

structure Within (m : CandidateMetadata) (rows : List DocRef) (pend : Nat → List DocRef) : Prop where
  sublist : ∀ b, (pend b).Sublist rows
  branch : ∀ b, ∀ r ∈ pend b, ∃ branch, m.branches[b]? = some branch ∧ branch.Mem r.orderKey

variable {rest : Nat → List DocRef}

theorem Within.suffix (h : Within m rows pend) (hSuffix : ∀ b, rest b <:+ pend b) : Within m rows rest :=
  ⟨fun b => (hSuffix b).sublist.trans (h.sublist b), fun b r hr => h.branch b r ((hSuffix b).subset hr)⟩

def Past (m : CandidateMetadata) (docs : List StoredDoc) (position : Bytes) (pend : Nat → List DocRef) : Prop :=
  ∀ b, ∀ r ∈ pend b, ∀ p, RowPosition m docs r p → position < p

variable {s : CandidateStream (MemView × List ViewIterator)}

theorem lookups_of_resolves (h : Forall₂ (Resolves e database q m) groups ds) :
    (groups.map fun g => e.storage.lookup database (documentPath q.collection g.id)) = ds.map some := by
  induction h with
  | nil => rfl
  | cons hHead _ ih => rw [map_cons, map_cons, hHead.found, ih]

variable {r : DocRef}

theorem Within.bound (h : Within m rows pend) {b : Nat} (hr : r ∈ pend b) : b < m.branches.length := by
  obtain ⟨branch, hBranch, -⟩ := h.branch b r hr
  exact (List.getElem?_eq_some_iff.mp hBranch).1

variable (h : Serving e database q.collection t filters orderBy m k rows)

include h

theorem Serving.postingKey {b : Nat} {branch : CandidateBranch} (hBranch : m.branches[b]? = some branch) (hr : r ∈ rows)
    (hIn : branch.Mem r.orderKey) {p : Bytes} (hp : m.position r.orderKey = .ok p) : m.postingKey p b = .ok r.orderKey := by
  obtain ⟨doc, -, member, words, ws, hRow, hKey, hWords, -, hPosition⟩ := rowPosition_of_mem h.compiled h.indexed hr
  rw [hPosition] at hp
  split at hp
  · cases hp
  cases hp
  obtain ⟨-, fixed, hFixed, hPrefix, hContains⟩ := h.compiled.branches branch (mem_of_getElem? hBranch)
  have hStarts := hContains _ hIn
  rw [hKey, hPrefix, prefix_tupleKey_iff (hRow.words.tupleWords hRow.fields) hFixed] at hStarts
  subst hStarts
  rw [h.compiled.postingKey_boundary hRow.fields hWords.boundary hBranch hRow.length_take, hPrefix, hKey, ← idTail_eq,
    ← h.compiled.key_split hRow hWords]

theorem Serving.document_at (hd : d ∈ collectionDocuments e.storage database q.collection)
    (hId : logicalDocumentID d = .ok id) : e.storage.lookup database (documentPath q.collection id) = some d := by
  obtain ⟨hMem, hPlace⟩ := mem_filter.mp hd
  obtain ⟨hDatabase, hCollection⟩ : d.database = database ∧ d.collection = q.collection := by simpa using hPlace
  have hPath : documentPath q.collection id = d.fullpath := by
    rw [fullpath_of_logicalDocumentID hId, hCollection, documentPath]
  rw [hPath, ← hDatabase]
  exact h.keyed.lookup hMem

theorem Serving.resolves (hSub : ∀ b, (pend b).Sublist rows)
    (hMem : ∀ b, ∀ r ∈ pend b, ∃ branch, m.branches[b]? = some branch ∧ branch.Mem r.orderKey)
    (hPulled : Pulled m pend groups rest) : ∀ g ∈ groups, ∃ d, Resolves e database q m g d := by
  intro g hg
  obtain ⟨⟨b, r, hr, hp, hId⟩, hNonempty, hAll⟩ := hPulled.origin g hg
  have hOrdered := h.compiled.ordered h.indexed hSub hMem
  obtain ⟨d, hd, hIdentity, hPosition⟩ := rowPosition_of_position h.compiled h.indexed ((hSub b).subset hr) hp
  rw [hId] at hIdentity hPosition
  obtain ⟨p, hProjection⟩ := h.indexed.projected d hd
  refine ⟨d, hd, hIdentity, h.document_at hd hIdentity, hPosition, p, by rw [h.compiled.template]; exact hProjection, ?_⟩
  refine holdsPosting_true hNonempty fun b' hb' => ?_
  obtain ⟨r', hr', hp'⟩ := hAll b' hb'
  obtain ⟨branch, hBranch, hIn⟩ := hMem b' r' hr'
  have hRow' := (hSub b').subset hr'
  refine ⟨r'.orderKey, ?_, h.postingKey hBranch hRow' hIn hp'⟩
  obtain ⟨d', hd', p', hProjection', hId', hKey'⟩ := (h.indexed.rows r').mp hRow'
  have hSame : r'.id = g.id := by
    rw [← hId]
    exact hOrdered.identity b' b r' r _ hr' hr hp' hp
  obtain ⟨id, hDocId, hIdentity', -⟩ := buildDocumentProjection_spec hProjection'
  rw [← hDocId, ← hId', hSame] at hIdentity'
  cases h.indexed.unique hd hd' hIdentity hIdentity'
  cases ok.inj (hProjection.symm.trans hProjection')
  exact hKey'

theorem Serving.past_rest (hWithin : Within m rows pend) (hPulled : Pulled m pend groups rest) (hMeta : s.metadata = m)
    (hStarted : s.started = true) (hReady : Ready (Viewing rows) (viewRemaining rows) s rest) :
    ∀ g ∈ groups, Past m (collectionDocuments e.storage database q.collection) g.position rest := by
  intro g hg b r hr p hp
  have hRest := hWithin.suffix hPulled.suffix
  have hOrdered := h.compiled.ordered h.indexed hWithin.sublist hWithin.branch
  obtain ⟨-, hWaiting⟩ := hReady
  rw [hStarted] at hWaiting
  obtain ⟨head, -, r₀, tail, hRows, hq⟩ := hWaiting.head_of_mem hr
  rw [hMeta] at hq
  have hr₀ : r₀ ∈ rest b := by rw [hRows]; exact mem_cons_self
  have hFirst : g.position < head.position := hPulled.later hOrdered hr₀ hq g hg
  have hp₀ := rowPosition_of_position h.compiled h.indexed ((hRest.sublist b).subset hr₀) hq
  have hSorted : SortedRows (rest b) := h.indexed.sorted.sublist (hRest.sublist b)
  rw [hRows] at hr hSorted
  obtain rfl | hTail := mem_cons.mp hr
  · rwa [hp.unique h.indexed hp₀]
  have hLess := (pairwise_cons.mp hSorted).1 r hTail
  have hrRest : r ∈ rest b := by rw [hRows]; exact hr
  obtain ⟨branch, hBranch, hIn⟩ := hRest.branch b r hrRest
  obtain ⟨branch', hBranch', hIn₀⟩ := hRest.branch b r₀ hr₀
  cases hBranch.symm.trans hBranch'
  exact hFirst.trans (rowPosition_lt h.compiled h.indexed hBranch ((hRest.sublist b).subset hr₀)
    ((hRest.sublist b).subset hrRest) hIn₀ hIn hLess hp₀ hp)

theorem Serving.ids_nodup (hWithin : Within m rows pend) (hPulled : Pulled m pend groups rest) :
    (groups.map CandidateGroup.id).Nodup := by
  have hOrdered := h.compiled.ordered h.indexed hWithin.sublist hWithin.branch
  have hResolves := h.resolves hWithin.sublist hWithin.branch hPulled
  refine pairwise_map.mpr (List.Pairwise.imp_of_mem ?_ (hPulled.sorted hOrdered))
  intro g g' hg hg' hLt hId
  obtain ⟨d, hd⟩ := hResolves g hg
  obtain ⟨d', hd'⟩ := hResolves g' hg'
  have hIdentity := hd.identity
  have hPosition := hd.position
  rw [hId] at hIdentity hPosition
  cases h.indexed.unique hd.mem hd'.mem hIdentity hd'.identity
  exact absurd hLt (ok.inj (hPosition.symm.trans hd'.position) ▸ lt_irrefl _)

/-- What a page has drawn and shown when it stops. -/
structure Filled (e : Engine Token) (database : Bytes) (q : Query Token) (m : CandidateMetadata) (pend : Nat → List DocRef)
    (state state' : PageState) (ended : Bool) (groups : List CandidateGroup) (ds : List StoredDoc)
    (rest : Nat → List DocRef) : Prop where
  pulled : Pulled m pend groups rest
  resolved : List.Forall₂ (Resolves e database q m) groups ds
  documents : state'.documents = state.documents ++ (ds.filter (acceptsDocument q)).map shownDocument
  position : state'.position = (groups.getLast?.map CandidateGroup.position).getD state.position
  finished : ended = true → ∀ b, rest b = []
  unfinished : ended = false → Past m (collectionDocuments e.storage database q.collection) state'.position rest

variable {limit : Nat}

theorem Serving.fillPage_spec {ended : Bool} (hMeta : s.metadata = m)
    (hReady : Ready (Viewing rows) (viewRemaining rows) s pend) (hWithin : Within m rows pend)
    (hPast : Past m (collectionDocuments e.storage database q.collection) state.position pend)
    (hSeen : ∀ id ∈ state.seen, ∀ b, ∀ r ∈ pend b, r.id ≠ id)
    (hFill : fillPage e database q m limit fuel s state = .ok (some (state', ended))) :
    ∃ groups ds rest, Filled e database q m pend state state' ended groups ds rest := by
  induction fuel generalizing s pend state with
  | zero => cases hFill
  | succ fuel ih =>
    simp only [fillPage] at hFill
    split at hFill
    · cases hFill
      exact ⟨[], [], pend, .nil pend, .nil, by simp, rfl, fun hFalse => (by cases hFalse), fun _ => hPast⟩
    obtain ⟨⟨groups, ended₁, s₁⟩, hCollect, hFill⟩ := bind_eq_ok hFill
    have hOrdered := h.compiled.ordered h.indexed hWithin.sublist hWithin.branch
    obtain ⟨rest, hPulled, hEnd, hMore⟩ := collectGroups_spec h.indexed.sorted hReady (hMeta ▸ hOrdered) hCollect
    rw [hMeta] at hPulled hMore
    have hSlots : 0 < min maxMaterializationDocuments (limit - state.documents.length) := by
      simp only [maxMaterializationDocuments]
      omega
    split at hFill
    · rename_i hNone
      cases hFill
      have hNil : groups = [] := List.isEmpty_iff.mp hNone
      subst hNil
      refine ⟨[], [], rest, hPulled, .nil, by simp, rfl, hEnd, fun hFalse => ?_⟩
      have hLength := (hMore hFalse).1
      simp at hLength
      omega
    · rename_i hSome
      obtain ⟨state₁, hMaterialize, hFill⟩ := bind_eq_ok hFill
      obtain ⟨ds, hResolved⟩ := forall₂_of_forall_exists (h.resolves hWithin.sublist hWithin.branch hPulled)
      have hNew : ∀ g ∈ groups, g.id ∉ state.seen := by
        intro g hg hMem
        obtain ⟨⟨b, r, hr, -, hId⟩, -⟩ := hPulled.origin g hg
        exact hSeen g.id hMem b r hr hId
      have hConsume := materialize_consumeAll hMaterialize
      rw [lookups_of_resolves hResolved] at hConsume
      obtain ⟨hPosition, hDocuments, hSeen₁⟩ := consumeAll_spec hResolved (h.ids_nodup hWithin hPulled) hNew hConsume
      split at hFill
      · rename_i hEnded
        cases hFill
        exact ⟨groups, ds, rest, hPulled, hResolved, hDocuments, hPosition, fun _ => hEnd hEnded,
          fun hFalse => (by cases hFalse)⟩
      · rename_i hOpen
        have hOpen : ended₁ = false := by simpa using hOpen
        obtain ⟨-, hMeta₁, hStarted, hReady₁⟩ := hMore hOpen
        have hAfter := h.past_rest hWithin hPulled hMeta₁ (hStarted hSlots) hReady₁
        have hPast₁ : Past m (collectionDocuments e.storage database q.collection) state₁.position rest := by
          obtain ⟨g, hg⟩ := Option.ne_none_iff_exists'.mp (mt getLast?_eq_none_iff.mp (by simpa using hSome))
          rw [hPosition, hg]
          exact hAfter g (mem_of_getLast? hg)
        have hSeenRest : ∀ id ∈ state₁.seen, ∀ b, ∀ r ∈ rest b, r.id ≠ id := by
          rintro id hMem b r hr rfl
          obtain hGroup | hOld := hSeen₁ r.id hMem
          · obtain ⟨g, hg, hId⟩ := List.mem_map.mp hGroup
            obtain ⟨d, hd⟩ := h.resolves hWithin.sublist hWithin.branch hPulled g hg
            exact lt_irrefl _ (hAfter g hg b r hr g.position ⟨d, hd.mem, hId ▸ hd.identity, hId ▸ hd.position⟩)
          · exact hSeen r.id hOld b r ((hPulled.suffix b).subset hr) rfl
        obtain ⟨groups₂, ds₂, rest₂, hFilled⟩ :=
          ih hMeta₁ hReady₁ (hWithin.suffix hPulled.suffix) hPast₁ hSeenRest hFill
        refine ⟨groups ++ groups₂, ds ++ ds₂, rest₂, hPulled.append hFilled.pulled,
          rel_append hResolved hFilled.resolved, ?_, ?_, hFilled.finished, hFilled.unfinished⟩
        · rw [hFilled.documents, hDocuments]
          simp
        · rw [hFilled.position, hPosition, getLast?_append]
          cases groups₂.getLast? <;> rfl

theorem Serving.fillPage_answers (hMeta : s.metadata = m) (hReady : Ready (Viewing rows) (viewRemaining rows) s pend)
    (hWithin : Within m rows pend) (hFuel : waitingRows m.branches.length pend < fuel) :
    fillPage e database q m limit fuel s state ≠ .ok none := by
  induction fuel generalizing s pend state with
  | zero => omega
  | succ fuel ih =>
    intro hFill
    simp only [fillPage] at hFill
    split at hFill
    · cases hFill
    obtain ⟨⟨groups, ended, s₁⟩, hCollect, hFill⟩ := bind_eq_ok hFill
    have hOrdered := h.compiled.ordered h.indexed hWithin.sublist hWithin.branch
    obtain ⟨rest, hPulled, -, hMore⟩ := collectGroups_spec h.indexed.sorted hReady (hMeta ▸ hOrdered) hCollect
    rw [hMeta] at hPulled hMore
    split at hFill
    · cases hFill
    rename_i hSome
    obtain ⟨state₁, -, hFill⟩ := bind_eq_ok hFill
    split at hFill
    · cases hFill
    rename_i hOpen
    obtain ⟨-, hMeta₁, -, hReady₁⟩ := hMore (by simpa using hOpen)
    have hLess := hPulled.length_le fun b r hr => hWithin.bound hr
    have hPos : 0 < groups.length := length_pos_iff.mpr (by simpa using hSome)
    exact ih hMeta₁ hReady₁ (hWithin.suffix hPulled.suffix) (by omega) hFill

end Fill

end Syntrix.Core
