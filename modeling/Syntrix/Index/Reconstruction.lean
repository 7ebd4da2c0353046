import Syntrix.Index.OpenCandidates

/-! # Positions and postings

A posting of a projected document and its position determine each other in a branch of a plan. A
stream resumes a branch after any position that has the plan's shape, with exactly the postings whose
positions come later.
-/
namespace Syntrix.Index

open Lib OrderCode Model List

def wordLength (doc : StoredDoc) (id : Bytes) (c : OrderField) : Nat :=
  match encodeField (orderTupleField doc id c) with
  | .ok w => w.length
  | .error _ => 0

section Plan

variable {t : Template} {filters : List Filter} {orderBy : List OrderField} {m : CandidateMetadata} {k : Nat}
variable {doc : StoredDoc} {id : Bytes} {member : Value} {words ws : List Bytes}

theorem OrderWords.flatten_length {order : List OrderField} (h : OrderWords doc id order ws) :
    ws.flatten.length = (order.map (wordLength doc id)).sum := by
  induction h with
  | nil => rfl
  | cons hHead _ ih =>
    rw [flatten_cons, length_append, map_cons, sum_cons, ih, wordLength, hHead]

theorem orderComponents_sublist (order : List OrderField) : (orderComponents order).Sublist order := by
  unfold orderComponents
  split
  · exact dropLast_sublist _
  · exact Sublist.refl _

theorem effectiveOrder_nodup (hFields : ValidFields t.fields) (hOrder : (orderBy.map OrderField.field).Nodup) :
    ((effectiveOrder t.fields orderBy).map OrderField.field).Nodup := by
  have hTemplate : ((templateOrder t.fields).map OrderField.field).Nodup := by
    refine Nodup.sublist ((filter_sublist.map _).map _) ?_
    rw [List.map_map]
    exact hFields.unique
  have hChosen : ((if orderBy = [] then templateOrder t.fields else orderBy).map OrderField.field).Nodup := by
    split
    · exact hTemplate
    · exact hOrder
  unfold effectiveOrder
  generalize (if orderBy = [] then templateOrder t.fields else orderBy) = order at hChosen
  simp only
  split
  · exact hChosen
  rename_i hAbsent
  rw [map_append]
  refine Nodup.append hChosen (nodup_singleton _) ?_
  simpa [disjoint_singleton] using hAbsent

theorem Compiled.components_subset (h : Compiled t filters orderBy m k) :
    orderComponents m.effectiveOrder ⊆ templateOrder t.fields := by
  intro c hc
  obtain ⟨i, f, hf, hMode, rfl⟩ | ⟨rfl, hAbsent⟩ := orderFieldFound_cases (h.found c hc)
  · exact List.mem_map.mpr ⟨f, mem_filter.mpr ⟨mem_of_getElem? hf, by simpa using hMode⟩, rfl⟩
  have hVariable : (⟨idField, .asc⟩ : OrderField) ∈ remainingFields (t.fields.drop k) := by
    rw [← h.variableOrder]
    refine mem_filter.mpr ⟨hc, ?_⟩
    have hFixed : idField ∉ (t.fields.take k).map TemplateField.field := fun hMem =>
      hAbsent (map_subset _ (take_subset k t.fields) hMem)
    simpa using hFixed
  obtain ⟨f, hf, hEq⟩ := List.mem_map.mp ((remainingFields_sublist _).subset hVariable)
  exact absurd (List.mem_map.mpr ⟨f, mem_of_mem_drop hf, congrArg OrderField.field hEq⟩) hAbsent

theorem Compiled.position_length (h : Compiled t filters orderBy m k) (hFields : ValidFields t.fields)
    (hOrder : (orderBy.map OrderField.field).Nodup) (hWords : OrderWords doc id (orderComponents m.effectiveOrder) ws)
    {scalars : List Bytes} (hScalars : OrderWords doc id (templateOrder t.fields) scalars) :
    (tupleKey ws id).length ≤ (tupleKey scalars id).length := by
  have hNodup : (orderComponents m.effectiveOrder).Nodup := by
    rw [h.order]
    exact ((effectiveOrder_nodup hFields hOrder).of_map).sublist (orderComponents_sublist _)
  obtain ⟨part, hPerm, hSub⟩ := hNodup.subperm h.components_subset
  have hSum : ((orderComponents m.effectiveOrder).map (wordLength doc id)).sum ≤
      ((templateOrder t.fields).map (wordLength doc id)).sum := by
    rw [← (hPerm.map _).sum_eq]
    exact (hSub.map _).sum_le_sum fun _ _ => Nat.zero_le _
  simp only [tupleKey, length_cons, length_append, hWords.flatten_length, hScalars.flatten_length]
  omega

end Plan

variable {projection : Projection} {limits : ProjectionLimits} {generation : Bytes} {t : Template} {doc : StoredDoc}
  {fingerprint : Template → Bytes}

theorem buildDocumentProjection_position {key : Bytes}
    (h : buildDocumentProjection fingerprint doc t generation limits = .ok projection) (hKey : key ∈ projection.postingKeys) :
    ∃ scalars, OrderWords doc projection.documentID (templateOrder t.fields) scalars ∧
      (tupleKey scalars projection.documentID).length ≤ limits.maxPositionBytes := by
  unfold buildDocumentProjection at h
  split at h
  · cases h
  obtain ⟨_, -, h⟩ := bind_eq_ok h
  obtain ⟨id, -, h⟩ := bind_eq_ok h
  split at h
  · cases h
  split at h
  · cases h
    cases hKey
  obtain ⟨found, -, h⟩ := bind_eq_ok h
  obtain ⟨position, hPosition, h⟩ := bind_eq_ok h
  obtain ⟨hLimit, h⟩ := guard_eq_ok h
  obtain ⟨keys, -, rfl⟩ := map_eq_ok h
  obtain ⟨scalars, hScalars, rfl⟩ := encode_words (mapError_eq_ok hPosition)
  refine ⟨scalars, ?_, not_lt.mp hLimit⟩
  exact forall₂_map_left_iff.mpr (forall₂_map_left_iff.mp hScalars)

theorem checkPosition_boundary {m : CandidateMetadata} {position : Bytes} (h : checkPosition m position = .ok ()) :
    position = [] ∨ ∃ as last, Boundary m position as last := by
  unfold checkPosition at h
  split at h
  · rename_i hEmpty
    exact .inl hEmpty
  split at h
  · rename_i parts id hParts hID
    obtain ⟨hLength, h⟩ := guard_eq_ok h
    exact .inr (boundary_of_parts hParts (not_not.mp hLength))
  · cases h

theorem row_of_posting {posting : Bytes} (h : buildDocumentProjection fingerprint doc t generation limits = .ok projection)
    (hPosting : posting ∈ projection.postingKeys) :
    ∃ member words, Row t doc projection.documentID member words ∧ posting = tupleKey words projection.documentID := by
  obtain ⟨id, rfl, -, -, ⟨-, hNone⟩ | ⟨-, members, hProjected, hKeys⟩⟩ := buildDocumentProjection_spec h
  · rw [hNone] at hPosting
    cases hPosting
  obtain ⟨member, -, hEncode⟩ := (hKeys posting).mp hPosting
  obtain ⟨words, hRow, hKey⟩ := row_of_encode hProjected.fields hEncode
  exact ⟨member, words, hRow, hKey⟩

/-- A branch resumed after a position yields exactly the postings with a later position. -/
theorem scanOptions_exact {digests : Digests} {t : Template} {filters : List Filter} {orderBy : List OrderField}
    {m : CandidateMetadata} {score : Nat} (hCompile : compileCandidate digests t filters orderBy = .ok (m, score))
    {i : Nat} {b : CandidateBranch} (hBranch : m.branches[i]? = some b) {after : Bytes}
    (hAfter : checkPosition m after = .ok ()) {fingerprint : Template → Bytes} {doc : StoredDoc} {generation : Bytes}
    {limits : ProjectionLimits} {projection : Projection}
    (hProjection : buildDocumentProjection fingerprint doc t generation limits = .ok projection) {posting : Bytes}
    (hPosting : posting ∈ projection.postingKeys) (hMem : b.Mem posting) :
    ∃ opts position, m.scanOptions i after = .ok opts ∧
      documentPosition m.effectiveOrder doc projection.documentID = .ok position ∧
      m.position posting = (if maxCandidatePositionBytes < position.length then .error .workLimit else .ok position) ∧
      (opts.Mem posting ↔ after < position) := by
  obtain ⟨k, h⟩ := compileCandidate_spec hCompile
  obtain ⟨member, words, hRow, rfl⟩ := row_of_posting hProjection hPosting
  obtain ⟨ws, hWords, hDocument, hPosition⟩ := hRow.position h.template h.found
  obtain rfl | ⟨as, last, hBoundary⟩ := checkPosition_boundary hAfter
  · refine ⟨⟨b.lower, b.upper, none⟩, _, ?_, hDocument, hPosition, ?_⟩
    · simp only [CandidateMetadata.scanOptions, hBranch, if_true]
    · constructor
      · intro _
        exact List.nil_lt_cons _ _
      · intro _
        exact ⟨hMem.1, hMem.2, by rintro _ ⟨⟩⟩
  · obtain ⟨opts, hOpts, -, hIff⟩ := h.scanOptions_spec hBranch hRow.fields hBoundary
    exact ⟨opts, _, hOpts, hDocument, hPosition, hIff doc _ member words ws hRow hWords hMem⟩

/-- The posting of the note titled `p`, after a position that no row has and after one past it. -/
theorem scanOptions_exact_tagged :
    (∃ opts, taggedPlan.scanOptions 0 [2, 80, 112, 0, 0, 80, 48, 0, 0] = .ok opts ∧
      opts.Mem [2, 80, 120, 0, 0, 80, 112, 0, 0, 80, 49, 0, 0]) ∧
    ∃ opts, taggedPlan.scanOptions 0 [2, 175, 141, 255, 255, 80, 48, 0, 0] = .ok opts ∧
      ¬ opts.Mem [2, 80, 120, 0, 0, 80, 112, 0, 0, 80, 49, 0, 0] := by
  have hExact : ∀ after, checkPosition taggedPlan after = .ok () → ∃ opts, taggedPlan.scanOptions 0 after = .ok opts ∧
      (opts.Mem [2, 80, 120, 0, 0, 80, 112, 0, 0, 80, 49, 0, 0] ↔ after < [2, 80, 112, 0, 0, 80, 49, 0, 0]) := by
    intro after hAfter
    obtain ⟨opts, position, hOpts, hDocument, -, hIff⟩ := scanOptions_exact
      (show compileCandidate taggedDigests taggedTemplate [tagFilter] [] = .ok (taggedPlan, 1) from rfl)
      (show taggedPlan.branches[0]? = some _ from rfl) hAfter
      (show buildDocumentProjection taggedDigests.fingerprint (taggedNote (text "1") (text "p") [text "x", text "y"])
        taggedTemplate (text "g") defaultProjectionLimits = .ok _ from rfl) List.mem_cons_self
      ⟨by decide, by rintro _ ⟨⟩; decide⟩
    cases hDocument
    exact ⟨opts, hOpts, hIff⟩
  obtain ⟨opts, hOpts, hIff⟩ := hExact [2, 80, 112, 0, 0, 80, 48, 0, 0] rfl
  obtain ⟨opts', hOpts', hIff'⟩ := hExact [2, 175, 141, 255, 255, 80, 48, 0, 0] rfl
  exact ⟨⟨opts, hOpts, hIff.mpr (by decide)⟩, opts', hOpts', fun hMem => absurd (hIff'.mp hMem) (by decide)⟩

/-- The position of a posting is its document's, and rebuilds the posting in its branch. -/
theorem postingKey_position {digests : Digests} {t : Template} {filters : List Filter} {orderBy : List OrderField}
    (hOrder : (orderBy.map OrderField.field).Nodup) {m : CandidateMetadata} {score : Nat}
    (hCompile : compileCandidate digests t filters orderBy = .ok (m, score)) {i : Nat} {b : CandidateBranch}
    (hBranch : m.branches[i]? = some b) {fingerprint : Template → Bytes} {doc : StoredDoc} {generation : Bytes}
    {projection : Projection}
    (hProjection : buildDocumentProjection fingerprint doc t generation defaultProjectionLimits = .ok projection)
    {posting : Bytes} (hPosting : posting ∈ projection.postingKeys) (hMem : b.Mem posting) :
    ∃ position, m.position posting = .ok position ∧
      documentPosition m.effectiveOrder doc projection.documentID = .ok position ∧
      m.postingKey position i = .ok posting := by
  obtain ⟨k, h⟩ := compileCandidate_spec hCompile
  obtain ⟨scalars, hScalars, hLimit⟩ := buildDocumentProjection_position hProjection hPosting
  obtain ⟨member, words, hRow, rfl⟩ := row_of_posting hProjection hPosting
  obtain ⟨ws, hWords, hDocument, hPosition⟩ := hRow.position h.template h.found
  have hLength : (tupleKey ws projection.documentID).length ≤ maxCandidatePositionBytes :=
    (h.position_length hRow.fields hOrder hWords hScalars).trans hLimit
  rw [if_neg (not_lt.mpr hLength)] at hPosition
  refine ⟨_, hPosition, hDocument, ?_⟩
  obtain ⟨-, fixed, hFixed, hPrefix, hContains⟩ := h.branches b (List.mem_of_getElem? hBranch)
  have hStarts := hContains _ hMem
  rw [hPrefix, prefix_tupleKey_iff (hRow.words.tupleWords hRow.fields) hFixed] at hStarts
  subst hStarts
  rw [h.postingKey_boundary hRow.fields hWords.boundary hBranch hRow.length_take, hPrefix, ← idTail_eq,
    ← h.key_split hRow hWords]

theorem postingKey_position_tagged :
    ∃ position, taggedPlan.position [2, 80, 120, 0, 0, 80, 112, 0, 0, 80, 49, 0, 0] = .ok position ∧
      taggedPlan.postingKey position 0 = .ok [2, 80, 120, 0, 0, 80, 112, 0, 0, 80, 49, 0, 0] := by
  obtain ⟨position, hPosition, -, hKey⟩ := postingKey_position (show (([] : List OrderField).map OrderField.field).Nodup from List.nodup_nil)
    (show compileCandidate taggedDigests taggedTemplate [tagFilter] [] = .ok (taggedPlan, 1) from rfl)
    (show taggedPlan.branches[0]? = some _ from rfl)
    (show buildDocumentProjection taggedDigests.fingerprint (taggedNote (text "1") (text "p") [text "x", text "y"])
      taggedTemplate (text "g") defaultProjectionLimits = .ok _ from rfl) List.mem_cons_self
    ⟨by decide, by rintro _ ⟨⟩; decide⟩
  exact ⟨position, hPosition, hKey⟩

def longTitle : Bytes := List.replicate 700 0x78

def longNote : StoredDoc := taggedNote (text "1") longTitle [text "x"]

def titleFilters : List Filter := [tagFilter, ⟨text "title", .opEq, .string longTitle⟩]

def titleOrder : List OrderField := List.replicate 6 ⟨text "title", .asc⟩

/-- A fixed field may stand in the order several times, and its word is then repeated in the position. -/
theorem repeated_order_exceeds_limit :
    ¬ ∀ (digests : Digests) (t : Template) (filters : List Filter) (orderBy : List OrderField) (m : CandidateMetadata)
      (score : Nat), compileCandidate digests t filters orderBy = .ok (m, score) →
      ∀ (i : Nat) (b : CandidateBranch), m.branches[i]? = some b →
        ∀ (fingerprint : Template → Bytes) (doc : StoredDoc) (generation : Bytes) (projection : Projection),
          buildDocumentProjection fingerprint doc t generation defaultProjectionLimits = .ok projection →
          ∀ posting ∈ projection.postingKeys, b.Mem posting → ∃ position, m.position posting = .ok position := by
  intro hAll
  have hRun : ((compileCandidate taggedDigests taggedTemplate titleFilters titleOrder).toOption.bind fun out =>
      out.1.branches[0]?.bind fun b =>
        (buildDocumentProjection taggedDigests.fingerprint longNote taggedTemplate (text "g")
          defaultProjectionLimits).toOption.bind fun p => p.postingKeys.head?.map fun key =>
            (decide (¬ key < b.lower) && b.upper.all fun u => decide (key < u), (out.1.position key).toOption.isSome)) =
      some (true, false) := by decide +kernel
  obtain ⟨⟨m, score⟩, hCompile, hRun⟩ := Option.bind_eq_some_iff.mp hRun
  obtain ⟨b, hBranch, hRun⟩ := Option.bind_eq_some_iff.mp hRun
  obtain ⟨projection, hProjection, hRun⟩ := Option.bind_eq_some_iff.mp hRun
  obtain ⟨posting, hPosting, hRun⟩ := Option.map_eq_some_iff.mp hRun
  obtain ⟨hMem, hPosition⟩ := Prod.mk.inj hRun
  have hIn : b.Mem posting := by
    obtain ⟨hLower, hUpper⟩ := Bool.and_eq_true_iff.mp hMem
    refine ⟨of_decide_eq_true hLower, fun u hu => ?_⟩
    change b.upper = some u at hu
    rw [hu] at hUpper
    exact of_decide_eq_true hUpper
  obtain ⟨position, hOk⟩ := hAll _ _ _ _ m score (toOption_eq_some hCompile) 0 b hBranch _ _ _ projection
    (toOption_eq_some hProjection) posting (List.mem_of_mem_head? hPosting) hIn
  rw [hOk] at hPosition
  cases hPosition

end Syntrix.Index
