import Syntrix.Index.CandidateDrain

/-! # Index access

A plan over the postings of a collection's documents: what its stream yields, in which order.
-/
namespace Syntrix.Index

open Lib OrderCode Model CandidateStream List Except

def memSource : Source (MemView × List ViewIterator) where
  next b state :=
    match state.2[b]? with
    | none => .ok (none, state)
    | some it => (it.next state.1).map fun (row, it, view) => (row, (view, state.2.set b it))
  examined state := (state.2.map ViewIterator.examined).sum

def openIterators (m : CandidateMetadata) (after : Bytes) : List Nat → Except CandidateError (List ViewIterator)
  | [] => .ok []
  | i :: rest =>
    match m.scanOptions i after with
    | .error _ => .error .invalidPlan
    | .ok options => (openIterators m after rest).map (⟨options, none, false, 0⟩ :: ·)

def defaultMaxExamined : Nat := 100000

def openStream (m : CandidateMetadata) (rows : List DocRef) (maxExamined : Nat) (after : Bytes) :
    Except CandidateError (CandidateStream (MemView × List ViewIterator)) :=
  let budget := if maxExamined = 0 then defaultMaxExamined else maxExamined
  (openIterators m after (List.range m.branches.length)).map fun iterators =>
    ⟨m, iterators.length, (⟨rows, budget, 0⟩, iterators), #[], false, false, budget⟩

def Viewing (rows : List DocRef) (state : MemView × List ViewIterator) : Prop :=
  state.1.rows = rows ∧ ∀ it ∈ state.2, it.Valid

noncomputable def viewRemaining (rows : List DocRef) (state : MemView × List ViewIterator) (b : Nat) : List DocRef :=
  match state.2[b]? with
  | none => []
  | some it => it.remaining rows

variable {rows : List DocRef}

theorem memSource_serves (hSorted : SortedRows rows) : Serves memSource (Viewing rows) (viewRemaining rows) where
  failed := by
    rintro ⟨view, its⟩ b e ⟨hRows, hValid⟩ h
    simp only [memSource] at h
    split at h
    · cases h
    rename_i it hIt
    have hNext := next_spec (hRows.symm ▸ hSorted) (hValid it (mem_of_getElem? hIt))
    rw [map_eq_error h] at hNext
    exact hNext
  stepped := by
    rintro ⟨view, its⟩ b row state' ⟨hRows, hValid⟩ h
    simp only [memSource] at h
    split at h
    · rename_i hNone
      cases h
      have hNil : viewRemaining rows (view, its) b = [] := by
        simp only [viewRemaining]
        rw [show its[b]? = none from hNone]
      exact ⟨⟨hRows, hValid⟩, rfl, fun _ => hNil, fun _ _ => rfl⟩
    · rename_i it hIt
      obtain ⟨⟨row', it', view'⟩, hAnswer, hEq⟩ := map_eq_ok h
      have hNext := next_spec (hRows.symm ▸ hSorted) (hValid it (mem_of_getElem? hIt))
      rw [hAnswer] at hNext
      obtain ⟨hTake, hNone, hValid', hRows'⟩ := hNext
      cases hEq
      have hBound : b < its.length := (List.getElem?_eq_some_iff.mp hIt).1
      rw [show view.rows = rows from hRows] at hTake hNone hRows'
      refine ⟨⟨hRows', ?_⟩, ?_, ?_, ?_⟩
      · intro x hx
        obtain hx | rfl := mem_or_eq_of_mem_set hx
        · exact hValid x hx
        · exact hValid'
      · simp only [viewRemaining, hIt, getElem?_set_self hBound]
        exact hTake
      · simp only [viewRemaining, hIt]
        exact hNone
      · intro b' hb'
        simp only [viewRemaining, getElem?_set_ne (Ne.symm hb')]

variable {after : Bytes} {m : CandidateMetadata}

theorem openIterators_spec {indices : List Nat} {its : List ViewIterator} (h : openIterators m after indices = .ok its) :
    Forall₂ (fun i it => ∃ options, m.scanOptions i after = .ok options ∧ it = ⟨options, none, false, 0⟩) indices its := by
  induction indices generalizing its with
  | nil =>
    cases h
    exact .nil
  | cons i indices ih =>
    simp only [openIterators] at h
    split at h
    · cases h
    rename_i options hOptions
    obtain ⟨rest, hRest, rfl⟩ := map_eq_ok h
    exact .cons ⟨options, hOptions, rfl⟩ (ih hRest)

open Classical in
noncomputable def branchRows (m : CandidateMetadata) (after : Bytes) (rows : List DocRef) (b : Nat) : List DocRef :=
  match m.scanOptions b after with
  | .error _ => []
  | .ok options => rows.filter fun row => options.Mem row.orderKey

theorem openStream_ready {maxExamined : Nat} {s : CandidateStream (MemView × List ViewIterator)}
    (h : openStream m rows maxExamined after = .ok s) :
    s.metadata = m ∧ s.iterators = m.branches.length ∧
      Ready (Viewing rows) (viewRemaining rows) s (branchRows m after rows) := by
  obtain ⟨its, hIts, rfl⟩ := map_eq_ok h
  have hEach := openIterators_spec hIts
  have hLength : its.length = m.branches.length := by
    rw [← Forall₂.length_eq hEach, length_range]
  refine ⟨rfl, hLength, rfl, ⟨⟨rfl, ?_⟩, ?_, by simp, by simp, ?_, ?_⟩⟩
  · intro it hIt last hLast
    obtain ⟨i, -, options, -, rfl⟩ := forall₂_mem_right hEach hIt
    cases hLast
  · intro c _ hc
    simp at hc
  · intro b hb _
    have hb : m.branches.length ≤ b := by simpa [hLength] using hb
    simp [branchRows, CandidateMetadata.scanOptions, getElem?_eq_none hb]
  · intro b hb
    have hb : b < its.length := by simpa using hb
    refine ⟨hb, ?_⟩
    have hIndex : (range m.branches.length)[b]? = some b := by
      rw [getElem?_range (hLength ▸ hb)]
    obtain ⟨it, hIt, options, hOptions, rfl⟩ := forall₂_getElem? hEach hIndex
    simp only [branchRows, hOptions, viewRemaining, hIt, ViewIterator.remaining]
    refine filter_congr fun r _ => ?_
    rw [decide_eq_decide]
    simp [ViewIterator.Awaits]

/-- The rows of a partition are the postings of a collection's documents, one document for each path. -/
structure Indexed (fingerprint : Template → Bytes) (t : Template) (generation : Bytes) (limits : ProjectionLimits)
    (collection : Bytes) (docs : List StoredDoc) (rows : List DocRef) : Prop where
  collection : ∀ doc ∈ docs, doc.collection = collection
  paths : (docs.map StoredDoc.fullpath).Nodup
  projected : ∀ doc ∈ docs, ∃ p, buildDocumentProjection fingerprint doc t generation limits = .ok p
  sorted : SortedRows rows
  rows : ∀ r, r ∈ rows ↔ ∃ doc ∈ docs, ∃ p, buildDocumentProjection fingerprint doc t generation limits = .ok p ∧
    r.id = p.documentID ∧ r.orderKey ∈ p.postingKeys

section Plan

variable {fingerprint : Template → Bytes} {t : Template} {generation collection : Bytes} {limits : ProjectionLimits}
variable {docs : List StoredDoc} {rows : List DocRef} {filters : List Filter} {orderBy : List OrderField}
variable {m : CandidateMetadata} {k : Nat}

variable {id : Bytes}

theorem Indexed.unique (h : Indexed fingerprint t generation limits collection docs rows) {doc doc' : StoredDoc}
    (hDoc : doc ∈ docs) (hDoc' : doc' ∈ docs) (hId : logicalDocumentID doc = .ok id) (hId' : logicalDocumentID doc' = .ok id) :
    doc = doc' := by
  refine inj_on_of_nodup_map h.paths hDoc hDoc' ?_
  rw [fullpath_of_logicalDocumentID hId, fullpath_of_logicalDocumentID hId', h.collection doc hDoc,
    h.collection doc' hDoc']

variable {r : DocRef}

theorem Indexed.row (h : Indexed fingerprint t generation limits collection docs rows) (hr : r ∈ rows) :
    ∃ doc ∈ docs, ∃ members, Projected t doc r.id members ∧ ∃ member ∈ members, ∃ words,
      Row t doc r.id member words ∧ r.orderKey = tupleKey words r.id := by
  obtain ⟨doc, hDoc, p, hp, hId, hKey⟩ := (h.rows r).mp hr
  obtain ⟨id, rfl, -, -, ⟨-, hNone⟩ | ⟨-, members, hProjected, hKeys⟩⟩ := buildDocumentProjection_spec hp
  · rw [hNone] at hKey
    cases hKey
  obtain ⟨member, hMember, hEncode⟩ := (hKeys _).mp hKey
  obtain ⟨words, hRow, hEq⟩ := row_of_encode hProjected.fields hEncode
  rw [← hId] at hProjected hRow hEq
  exact ⟨doc, hDoc, members, hProjected, member, hMember, words, hRow, hEq⟩

def postingRows (projections : List Projection) : List DocRef :=
  (projections.flatMap fun p => p.postingKeys.map fun key => ⟨p.documentID, key⟩).dedup.insertionSort
    fun a b => ¬ b.Less a

theorem DocRef.Less.total {a b : DocRef} (hNot : ¬ b.Less a) (hNe : a ≠ b) : a.Less b := by
  obtain hLt | hEq | hGt := lt_trichotomy a.orderKey b.orderKey
  · exact .inl hLt
  · obtain hIdLt | hIdEq | hIdGt := lt_trichotomy a.id b.id
    · exact .inr ⟨hEq, hIdLt⟩
    · exact absurd (by rw [DocRef.mk.injEq]; exact ⟨hIdEq, hEq⟩) hNe
    · exact absurd (.inr ⟨hEq.symm, hIdGt⟩) hNot
  · exact absurd (.inl hGt) hNot

theorem sortedRows_insertionSort (hNodup : rows.Nodup) : SortedRows (rows.insertionSort fun a b => ¬ b.Less a) := by
  have hTotal : ∀ a b : DocRef, ¬ b.Less a ∨ ¬ a.Less b := by
    intro a b
    by_cases hLess : b.Less a
    · exact .inr hLess.asymm
    · exact .inl hLess
  have hTrans : ∀ a b c : DocRef, ¬ b.Less a → ¬ c.Less b → ¬ c.Less a := by
    intro a b c hab hbc hca
    by_cases hEq : b = c
    · exact hab (hEq ▸ hca)
    · exact hab ((DocRef.Less.total hbc hEq).trans hca)
  have : Std.Total fun a b : DocRef => ¬ b.Less a := ⟨hTotal⟩
  have : IsTrans DocRef fun a b => ¬ b.Less a := ⟨hTrans⟩
  have hPairs := pairwise_insertionSort (fun a b : DocRef => ¬ b.Less a) rows
  have hDistinct : (rows.insertionSort fun a b => ¬ b.Less a).Nodup := (perm_insertionSort _ rows).nodup_iff.mpr hNodup
  exact (hPairs.and hDistinct).imp fun h => DocRef.Less.total h.1 h.2

theorem indexed_postingRows {projections : List Projection} (hCollection : ∀ doc ∈ docs, doc.collection = collection)
    (hPaths : (docs.map StoredDoc.fullpath).Nodup)
    (h : Forall₂ (fun doc p => buildDocumentProjection fingerprint doc t generation limits = .ok p) docs projections) :
    Indexed fingerprint t generation limits collection docs (postingRows projections) := by
  refine ⟨hCollection, hPaths, ?_, sortedRows_insertionSort (nodup_dedup _), fun r => ?_⟩
  · intro doc hDoc
    obtain ⟨p, -, hp⟩ := forall₂_mem_left h hDoc
    exact ⟨p, hp⟩
  · rw [postingRows, mem_insertionSort, mem_dedup, mem_flatMap]
    constructor
    · rintro ⟨p, hp, hr⟩
      obtain ⟨key, hKey, rfl⟩ := List.mem_map.mp hr
      obtain ⟨doc, hDoc, hBuild⟩ := forall₂_mem_right h hp
      exact ⟨doc, hDoc, p, hBuild, rfl, hKey⟩
    · rintro ⟨doc, hDoc, p, hp, hId, hKey⟩
      obtain ⟨p', hp', hBuild⟩ := forall₂_mem_left h hDoc
      cases ok.inj (hp.symm.trans hBuild)
      refine ⟨p, hp', List.mem_map.mpr ⟨r.orderKey, hKey, ?_⟩⟩
      rw [← hId]

variable {ws ws' : List Bytes}

theorem tupleKey_id_inj {id' : Bytes} (hw : ∀ w ∈ ws, ∃ d, IsWord d w) (hw' : ∀ w ∈ ws', ∃ d, IsWord d w)
    (h : tupleKey ws id = tupleKey ws' id') : id = id' := by
  have hParts := tupleParts_tupleKey hw id
  rw [h, tupleParts_tupleKey hw' id'] at hParts
  have hLast := (append_inj' (ok.inj hParts) rfl).2
  have hWord : idWord id' = idWord id := singleton_inj.mp hLast
  exact (List.cons.inj (directed_inj hWord)).2.symm

variable {doc : StoredDoc}

theorem OrderWords.forall_isWord {order : List OrderField} (h : OrderWords doc id order ws) : ∀ w ∈ ws, ∃ d, IsWord d w := by
  intro w hw
  obtain ⟨d, -, hd⟩ := forall₂_mem_right h.isWord hw
  exact ⟨d, hd⟩

variable {words : List Bytes} {member : Value}

theorem Compiled.row_position (h : Compiled t filters orderBy m k) (hRow : Row t doc id member words) {p : Bytes}
    (hp : m.position (tupleKey words id) = .ok p) :
    ∃ ws, OrderWords doc id (orderComponents m.effectiveOrder) ws ∧ p = tupleKey ws id ∧
      documentPosition m.effectiveOrder doc id = .ok p := by
  obtain ⟨ws, hWords, hDocument, hPosition⟩ := hRow.position h.template h.found
  rw [hPosition] at hp
  split at hp
  · cases hp
  · cases hp
    exact ⟨ws, hWords, rfl, hDocument⟩

theorem Compiled.branch_lt (h : Compiled t filters orderBy m k) {branch : CandidateBranch} (hBranch : branch ∈ m.branches)
    {doc doc' : StoredDoc} {r' : DocRef} {member' : Value} {words' : List Bytes} (hRow : Row t doc r.id member words)
    (hRow' : Row t doc' r'.id member' words') (hKey : r.orderKey = tupleKey words r.id)
    (hKey' : r'.orderKey = tupleKey words' r'.id) (hIn : branch.Mem r.orderKey) (hIn' : branch.Mem r'.orderKey)
    (hLess : r.Less r') (hWords : OrderWords doc r.id (orderComponents m.effectiveOrder) ws)
    (hWords' : OrderWords doc' r'.id (orderComponents m.effectiveOrder) ws') : tupleKey ws r.id < tupleKey ws' r'.id := by
  obtain ⟨-, fixed, hFixed, hPrefix, hContains⟩ := h.branches branch hBranch
  have hTake := hContains _ hIn
  have hTake' := hContains _ hIn'
  rw [hKey, hPrefix, prefix_tupleKey_iff (hRow.words.tupleWords hRow.fields) hFixed] at hTake
  rw [hKey', hPrefix, prefix_tupleKey_iff (hRow'.words.tupleWords hRow.fields) hFixed] at hTake'
  have hCmp := h.wordCmp_key hRow hRow' (hTake.symm.trans hTake') hWords hWords'
  rw [← hKey, ← hKey'] at hCmp
  rw [← wordCmp_eq_lt_iff, ← hCmp, wordCmp_eq_lt_iff]
  obtain hKeyLt | ⟨hSame, hIdLt⟩ := hLess
  · exact hKeyLt
  rw [hKey, hKey'] at hSame
  have hId := tupleKey_id_inj (hRow.words.tupleWords hRow.fields).isWord
    (hRow'.words.tupleWords hRow.fields).isWord hSame
  exact absurd hIdLt (hId ▸ lt_irrefl _)

variable {pend : Nat → List DocRef}

theorem mem_branchRows_start {b : Nat} : r ∈ branchRows m [] rows b ↔
    r ∈ rows ∧ ∃ branch, m.branches[b]? = some branch ∧ branch.Mem r.orderKey := by
  simp only [branchRows, CandidateMetadata.scanOptions]
  cases hBranch : m.branches[b]? with
  | none => simp
  | some branch => simp [SearchOptions.Mem, CandidateBranch.Mem, KeyInterval.Mem]

theorem branchRows_sublist (m : CandidateMetadata) (after : Bytes) (rows : List DocRef) (b : Nat) :
    (branchRows m after rows b).Sublist rows := by
  unfold branchRows
  split
  · exact nil_sublist _
  · exact filter_sublist

theorem waitingRows_le (m : CandidateMetadata) (after : Bytes) (rows : List DocRef) (n : Nat) :
    waitingRows n (branchRows m after rows) ≤ n * rows.length := by
  have hEach : ∀ x ∈ (range n).map fun b => (branchRows m after rows b).length, x ≤ rows.length := by
    intro x hx
    obtain ⟨b, -, rfl⟩ := List.mem_map.mp hx
    exact (branchRows_sublist m after rows b).length_le
  simpa [waitingRows] using sum_le_card_nsmul _ _ hEach

def Numbered (assignments : List PredicateAssignment) : Prop :=
  ∀ (i : Nat) a, assignments[i]? = some a → a.predicate = i

variable {assignments : List PredicateAssignment}

theorem markAccess_numbered {hit : Filter → Bool} (h : Numbered assignments) :
    Numbered (markAccess hit filters assignments) := by
  intro i a ha
  obtain ⟨g, a', -, ha', rfl⟩ := getElem?_zipWith_eq_some.mp ha
  split
  · exact h i a' ha'
  · exact h i a' ha'

theorem markField_numbered {f : TemplateField} (h : Numbered assignments) : Numbered (markField filters f assignments) := by
  unfold markField
  split
  · intro i a ha
    rw [getElem?_modify] at ha
    split at ha
    · obtain ⟨a', ha', rfl⟩ := Option.map_eq_some_iff.mp ha
      exact h i a' ha'
    · exact h i a (by simpa using ha)
  · exact markAccess_numbered h

theorem fixFields_numbered {fields : List TemplateField} {s s' : CompileState} (h : Numbered s.assignments)
    (hFix : fixFields filters fields s = .ok s') : Numbered s'.assignments := by
  induction fields generalizing s with
  | nil =>
    cases hFix
    exact h
  | cons f rest ih =>
    obtain ⟨points, -, hFix⟩ := bind_eq_ok hFix
    cases points with
    | none =>
      cases hFix
      exact h
    | some points =>
      obtain ⟨s₁, hField, hFix⟩ := bind_eq_ok hFix
      obtain ⟨next, -, rfl⟩ := map_eq_ok hField
      exact ih (markField_numbered h) hFix

theorem compileCandidate_numbered {digests : Digests} {n : Nat}
    (h : compileCandidate digests t filters orderBy = .ok (m, n)) : Numbered m.assignments := by
  obtain ⟨s, bounded, hs, -, -, -, -, -, rfl, -⟩ := compileCandidate_cases h
  have hInitial : Numbered (initialState filters).assignments := by
    intro i a ha
    simp only [initialState, getElem?_map] at ha
    obtain ⟨j, hj, rfl⟩ := Option.map_eq_some_iff.mp ha
    exact ((List.getElem?_eq_some_iff.mp hj).2.symm.trans (getElem_range _))
  have hNumbered := fixFields_numbered hInitial hs
  simp only [markRange]
  split
  · exact hNumbered
  split
  · exact hNumbered
  · exact markAccess_numbered hNumbered

theorem openStream_start (m : CandidateMetadata) (rows : List DocRef) (maxExamined : Nat) :
    ∃ s, openStream m rows maxExamined [] = .ok s := by
  have hIterators : ∀ indices : List Nat, (∀ i ∈ indices, i < m.branches.length) →
      ∃ its, openIterators m [] indices = .ok its := by
    intro indices hBound
    induction indices with
    | nil => exact ⟨[], rfl⟩
    | cons i indices ih =>
      rw [forall_mem_cons] at hBound
      obtain ⟨its, hIts⟩ := ih hBound.2
      simp only [openIterators, CandidateMetadata.scanOptions, getElem?_eq_getElem hBound.1, if_true, hIts]
      exact ⟨_, rfl⟩
  obtain ⟨its, hIts⟩ := hIterators (range m.branches.length) fun i hi => mem_range.mp hi
  rw [openStream, hIts]
  exact ⟨_, rfl⟩

section Pending

variable (h : Compiled t filters orderBy m k)
  (hIndexed : Indexed fingerprint t generation limits collection docs rows)
  (hSub : ∀ b, (pend b).Sublist rows)
  (hMem : ∀ b, ∀ r ∈ pend b, ∃ branch, m.branches[b]? = some branch ∧ branch.Mem r.orderKey)

include h hIndexed hSub hMem

theorem Compiled.ordered : Ordered m pend := by
  constructor
  · intro b r hr e he
    obtain ⟨doc, -, -, -, member, -, words, hRow, hKey⟩ := hIndexed.row ((hSub b).subset hr)
    obtain ⟨ws, -, -, hPosition⟩ := hRow.position h.template h.found
    rw [hKey, hPosition] at he
    split at he
    · exact (error.inj he).symm
    · cases he
  · intro b
    have hLess : (pend b).Pairwise DocRef.Less := hIndexed.sorted.sublist (hSub b)
    refine List.Pairwise.imp_of_mem ?_ hLess
    intro r r' hr hr' hLt p p' hp hp'
    obtain ⟨doc, -, -, -, member, -, words, hRow, hKey⟩ := hIndexed.row ((hSub b).subset hr)
    obtain ⟨doc', -, -, -, member', -, words', hRow', hKey'⟩ := hIndexed.row ((hSub b).subset hr')
    obtain ⟨branch, hBranch, hIn⟩ := hMem b r hr
    obtain ⟨branch', hBranch', hIn'⟩ := hMem b r' hr'
    cases hBranch.symm.trans hBranch'
    rw [hKey] at hp
    rw [hKey'] at hp'
    obtain ⟨ws, hWords, rfl, -⟩ := h.row_position hRow hp
    obtain ⟨ws', hWords', rfl, -⟩ := h.row_position hRow' hp'
    exact h.branch_lt (mem_of_getElem? hBranch) hRow hRow' hKey hKey' hIn hIn' hLt hWords hWords'
  · intro b b' r r' p hr hr' hp hp'
    obtain ⟨doc, -, -, -, member, -, words, hRow, hKey⟩ := hIndexed.row ((hSub b).subset hr)
    obtain ⟨doc', -, -, -, member', -, words', hRow', hKey'⟩ := hIndexed.row ((hSub b').subset hr')
    rw [hKey] at hp
    rw [hKey'] at hp'
    obtain ⟨ws, hWords, rfl, -⟩ := h.row_position hRow hp
    obtain ⟨ws', hWords', hEq, -⟩ := h.row_position hRow' hp'
    exact tupleKey_id_inj hWords.forall_isWord hWords'.forall_isWord hEq

variable {groups : List CandidateGroup} (hDrained : Drained m pend groups)

include hDrained

theorem Compiled.group_document :
    ∀ g ∈ groups, ∃ doc ∈ docs, ∃ members, Projected t doc g.id members ∧
      documentPosition m.effectiveOrder doc g.id = .ok g.position ∧
      ∃ member ∈ members, ∃ words, DocumentWords t doc g.id member words ∧
        ∃ b ∈ m.branches, b.Mem (tupleKey words g.id) := by
  intro g hg
  obtain ⟨b, r, hr, hPosition, hId⟩ := hDrained.sound g hg
  obtain ⟨branch, hBranch, hIn⟩ := hMem b r hr
  obtain ⟨doc, hDoc, members, hProjected, member, hMember, words, hRow, hKey⟩ := hIndexed.row ((hSub b).subset hr)
  rw [hKey] at hPosition hIn
  obtain ⟨ws, -, -, hDocument⟩ := h.row_position hRow hPosition
  rw [hId] at hProjected hDocument hIn
  exact ⟨doc, hDoc, members, hProjected, hDocument, member, hMember, words, hId ▸ hRow.words, branch,
    mem_of_getElem? hBranch, hIn⟩

theorem Compiled.ids_nodup : (groups.map CandidateGroup.id).Nodup := by
  have hDocument := h.group_document hIndexed hSub hMem hDrained
  refine pairwise_map.mpr (List.Pairwise.imp_of_mem ?_ hDrained.sorted)
  intro g g' hg hg' hLt hId
  obtain ⟨doc, hDoc, _, hProjected, hPosition, -⟩ := hDocument g hg
  obtain ⟨doc', hDoc', _, hProjected', hPosition', -⟩ := hDocument g' hg'
  rw [hId] at hProjected hPosition
  cases hIndexed.unique hDoc hDoc' hProjected.identity hProjected'.identity
  exact absurd hLt (ok.inj (hPosition.symm.trans hPosition') ▸ lt_irrefl _)

end Pending

variable {p : Projection}

theorem Compiled.covered_row (h : Compiled t filters orderBy m k)
    (hIndexed : Indexed fingerprint t generation limits collection docs rows) (hNormal : ∀ g ∈ filters, g.Normalized)
    (hFilters : normalizeFilters filters = .ok filters) (hDoc : doc ∈ docs)
    (hp : buildDocumentProjection fingerprint doc t generation limits = .ok p)
    (hShown : (doc.deleted && !t.includeDeleted) = false)
    (hPass : evaluateFilters filters (documentField doc p.documentID) = .ok true) :
    ∃ r ∈ rows, r.id = p.documentID ∧
      ∃ (b : Nat) (branch : CandidateBranch), m.branches[b]? = some branch ∧ branch.Mem r.orderKey := by
  obtain ⟨id, rfl, -, -, ⟨hHidden, -⟩ | ⟨-, members, hProjected, hPostings⟩⟩ := buildDocumentProjection_spec hp
  · cases hShown.symm.trans hHidden
  obtain ⟨member, hMember, words, -, hEncode, branch, hBranch, hIn⟩ :=
    h.exists_covered hNormal hProjected (satisfies_of_evaluateFilters hFilters hPass)
  obtain ⟨b, hb⟩ := mem_iff_getElem?.mp hBranch
  refine ⟨⟨p.documentID, tupleKey words p.documentID⟩, ?_, rfl, b, branch, hb, hIn⟩
  exact (hIndexed.rows _).mpr ⟨doc, hDoc, p, hp, rfl, (hPostings _).mpr ⟨member, hMember, hEncode⟩⟩

theorem shown_of_postingKeys (hp : buildDocumentProjection fingerprint doc t generation limits = .ok p)
    (hKeys : p.postingKeys ≠ []) : (doc.deleted && !t.includeDeleted) = false := by
  obtain ⟨-, -, -, -, ⟨-, hNone⟩ | ⟨hShown, -⟩⟩ := buildDocumentProjection_spec hp
  · exact absurd hNone hKeys
  · exact hShown

/-- A drained stream is lossless and exact: every document that passes the filters comes once, none
comes that fails a filter answered by the index, and documents come in the order of their positions. -/
theorem drain_lossless_exact (digests : Digests) (t : Template) (generation : Bytes) (limits : ProjectionLimits)
    (collection : Bytes) (docs : List StoredDoc) (rows : List DocRef)
    (hIndexed : Indexed digests.fingerprint t generation limits collection docs rows)
    (query filters : List Filter) (hFilters : normalizeFilters query = .ok filters) (orderBy : List OrderField)
    (m : CandidateMetadata) (access : Nat) (hPlan : compileCandidate digests t filters orderBy = .ok (m, access))
    (maxExamined fuel : Nat) (hFuel : m.branches.length * (rows.length + 1) < fuel) :
    ∃ s, openStream m rows maxExamined [] = .ok s ∧
      (s.drain memSource fuel = .error .workLimit ∨
        ∃ groups, s.drain memSource fuel = .ok (some groups) ∧
          groups.Pairwise (fun g g' => g.position < g'.position) ∧
          (∀ g ∈ groups, ∃ doc ∈ docs, logicalDocumentID doc = .ok g.id ∧
            documentPosition m.effectiveOrder doc g.id = .ok g.position ∧
            ∀ a ∈ m.assignments, a.access = true → ∀ f, filters[a.predicate]? = some f → Satisfies doc g.id f) ∧
          ∀ doc ∈ docs, ∀ p, buildDocumentProjection digests.fingerprint doc t generation limits = .ok p →
            p.postingKeys ≠ [] → evaluateFilters filters (documentField doc p.documentID) = .ok true →
              (groups.map CandidateGroup.id).count p.documentID = 1) := by
  obtain ⟨k, h⟩ := compileCandidate_spec hPlan
  obtain ⟨hNormal, hIdem⟩ := normalizeFiltersFrom_spec hFilters
  obtain ⟨s, hOpen⟩ := openStream_start m rows maxExamined
  refine ⟨s, hOpen, ?_⟩
  obtain ⟨rfl, hIterators, hReady⟩ := openStream_ready hOpen
  have hMem : ∀ b, ∀ r ∈ branchRows s.metadata [] rows b, ∃ branch, s.metadata.branches[b]? = some branch ∧
      branch.Mem r.orderKey := fun b r hr => (mem_branchRows_start.mp hr).2
  have hSub := branchRows_sublist s.metadata [] rows
  have hEnough : waitingRows s.iterators (branchRows s.metadata [] rows) + s.iterators < fuel := by
    have hRows := waitingRows_le s.metadata [] rows s.iterators
    rw [hIterators] at hRows ⊢
    rw [Nat.mul_add, Nat.mul_one] at hFuel
    omega
  obtain hLimit | ⟨groups, hGroups, hDrained⟩ :=
    drain_spec (memSource_serves hIndexed.sorted) hReady (h.ordered hIndexed hSub hMem) hEnough
  · exact .inl hLimit
  have hDocument := h.group_document hIndexed hSub hMem hDrained
  refine .inr ⟨groups, hGroups, hDrained.sorted, ?_, ?_⟩
  · intro g hg
    obtain ⟨doc, hDoc, members, hProjected, hPosition, member, hMember, words, hWords, hCovered⟩ := hDocument g hg
    refine ⟨doc, hDoc, hProjected.identity, hPosition, fun a ha hAccess f hf => ?_⟩
    obtain ⟨i, hi⟩ := List.mem_iff_getElem?.mp ha
    have hPlace := compileCandidate_numbered hPlan i a hi
    rw [hPlace] at hf
    exact h.access_satisfied hNormal hProjected hMember hWords hCovered hi hAccess hf
  · intro doc hDoc p hp hKeys hPass
    obtain ⟨r, hr, hId, b, branch, hBranch, hIn⟩ :=
      h.covered_row hIndexed hNormal (hIdem 0) hDoc hp (shown_of_postingKeys hp hKeys) hPass
    obtain ⟨g, hg, hPosition⟩ := hDrained.complete b r (mem_branchRows_start.mpr ⟨hr, branch, hBranch, hIn⟩)
    obtain ⟨b', r', hr', hPosition', hId'⟩ := hDrained.sound g hg
    have hSame := (h.ordered hIndexed hSub hMem).identity b b' r r' _
      (mem_branchRows_start.mpr ⟨hr, branch, hBranch, hIn⟩) hr' hPosition hPosition'
    refine List.count_eq_one_of_mem (h.ids_nodup hIndexed hSub hMem hDrained) (List.mem_map.mpr ⟨g, hg, ?_⟩)
    rw [← hId', ← hSame, hId]

end Plan

def taggedTemplate : Template :=
  ⟨text "by-tag", text "notes", [⟨text "tags", .unset, .membership⟩, ⟨text "title", .asc, .unset⟩], false⟩

def taggedNote (path title : Bytes) (tags : List Bytes) : StoredDoc :=
  ⟨text "db", text "notes/" ++ path, text "notes", 0, 0, 1,
    [(text "tags", .array (tags.map .string)), (text "title", .string title)], false⟩

def taggedNotes : List StoredDoc :=
  [taggedNote (text "1") (text "p") [text "x", text "y"], taggedNote (text "2") (text "o") [text "x"]]

def tagFilter : Filter := ⟨text "tags", .opContains, .string (text "x")⟩

def taggedDigests : Digests := ⟨fun _ => text "f", fun _ _ => text "h"⟩

def taggedPlan : CandidateMetadata where
  template := taggedTemplate
  templateFingerprint := text "f"
  generation := []
  branchHash := text "h"
  effectiveOrder := [⟨text "title", .asc⟩, ⟨idField, .asc⟩]
  branches := [⟨[2, 80, 120, 0, 0], 1, [2, 80, 120, 0, 0], some [2, 80, 120, 0, 1]⟩]
  assignments := [⟨0, true, true⟩]

def taggedProjections : List Projection :=
  [⟨⟨text "db", text "notes", text "f", text "g"⟩, text "1",
      [[2, 80, 120, 0, 0, 80, 112, 0, 0, 80, 49, 0, 0], [2, 80, 121, 0, 0, 80, 112, 0, 0, 80, 49, 0, 0]]⟩,
    ⟨⟨text "db", text "notes", text "f", text "g"⟩, text "2", [[2, 80, 120, 0, 0, 80, 111, 0, 0, 80, 50, 0, 0]]⟩]

/-- Two notes with one tag, the first under a second tag too: each comes once, by title. -/
theorem drain_lossless_exact_tagged :
    ∃ s groups, openStream taggedPlan (postingRows taggedProjections) 10 [] = .ok s ∧
      s.drain memSource 20 = .ok (some groups) ∧ groups.map CandidateGroup.id = [text "2", text "1"] ∧
      ∀ doc ∈ taggedNotes, ∀ p, buildDocumentProjection taggedDigests.fingerprint doc taggedTemplate (text "g")
          defaultProjectionLimits = .ok p → p.postingKeys ≠ [] →
        evaluateFilters [tagFilter] (documentField doc p.documentID) = .ok true →
          (groups.map CandidateGroup.id).count p.documentID = 1 := by
  have hIndexed : Indexed taggedDigests.fingerprint taggedTemplate (text "g") defaultProjectionLimits (text "notes")
      taggedNotes (postingRows taggedProjections) :=
    indexed_postingRows (by simp [taggedNotes, taggedNote]) (by decide) (.cons rfl (.cons rfl .nil))
  obtain ⟨s, hOpen, hDrain⟩ := drain_lossless_exact taggedDigests taggedTemplate (text "g") defaultProjectionLimits
    (text "notes") taggedNotes (postingRows taggedProjections) hIndexed [tagFilter] [tagFilter] rfl [] taggedPlan 1 rfl
    10 20 (by decide)
  have hIds : (((openStream taggedPlan (postingRows taggedProjections) 10 []).toOption.bind fun s =>
      (s.drain memSource 20).toOption).join).map (List.map CandidateGroup.id) = some [text "2", text "1"] := rfl
  rw [hOpen] at hIds
  obtain hLimit | ⟨groups, hGroups, -, -, hAll⟩ := hDrain
  · simp [Except.toOption, hLimit] at hIds
  · refine ⟨s, groups, hOpen, hGroups, ?_, hAll⟩
    simpa [Except.toOption, hGroups] using hIds

end Syntrix.Index
