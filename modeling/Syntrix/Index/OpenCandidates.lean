import Syntrix.Index.Access

/-! # Opening a stream

A plan is compiled against every template that matches the collection. The template with the most
specific pattern wins, then the one whose index answers more filters, then the first by name; its
partition must be ready, and a plan that resumes must meet the partition and branches it left.
-/
namespace Syntrix.Index

open Lib OrderCode Model

structure PatternScore where
  fixedSegments : Nat
  totalSegments : Nat
deriving DecidableEq

def PatternScore.less (s other : PatternScore) : Bool :=
  if s.fixedSegments ≠ other.fixedSegments then decide (s.fixedSegments < other.fixedSegments)
  else decide (s.totalSegments < other.totalSegments)

def isWildcard (segment : Bytes) : Bool := isVariable segment || decide (segment = [0x2A])

def segmentsMatch : List Bytes → List Bytes → Bool
  | p :: path, q :: pattern => (isWildcard q || decide (p = q)) && segmentsMatch path pattern
  | _, _ => true

def calculateScore (pattern : List Bytes) : PatternScore :=
  ⟨pattern.countP fun segment => !isWildcard segment, pattern.length⟩

def matchTemplate (path : Bytes) (t : Template) : Option (Template × PatternScore) :=
  let pattern := segments t.collectionPattern
  if (segments path).length ≠ pattern.length then none
  else if !segmentsMatch (segments path) pattern then none
  else some (t, calculateScore pattern)

def matchTemplates (path : Bytes) (templates : List Template) : List (Template × PatternScore) :=
  (templates.filterMap (matchTemplate path)).insertionSort fun a b => !PatternScore.less a.2 b.2

structure Generation where
  id : Bytes
  ready : Bool
  failure : Bytes
  bootstrapProgress : Bytes
deriving DecidableEq

structure Plan where
  collection : Bytes
  filters : List Filter
  orderBy : List OrderField
  showDeleted : Bool
  afterPosition : Bytes
  templateFingerprint : Bytes
  generation : Bytes
  branchHash : Bytes
  maxExamined : Nat

/-- What the manager reads: the templates of a database and the store. -/
structure Manager where
  digests : Digests
  templates : Bytes → List Template
  readGeneration : Bytes → Bytes → Bytes → Option Generation
  readView : QueryIndexRef → List DocRef

def maxInValues : Nat := 256

def tooManyValues (f : Filter) : Bool :=
  match f.op, f.value with
  | .opIn, .array items => decide (maxInValues < items.length)
  | _, _ => false

def candidateFilters (filters : List Filter) : Except CandidateError (List Filter) :=
  if filters.any fun f => !f.op.isValid then .error .invalidPlan
  else match normalizeFilters filters with
  | .error _ => .error .invalidPlan
  | .ok normalized => if normalized.any tooManyValues then .error .invalidPlan else .ok normalized

def validateOrder : List Bytes → List OrderField → Except CandidateError Unit
  | _, [] => .ok ()
  | seen, f :: rest =>
    match validateQueryField f.field with
    | .error _ => .error .invalidPlan
    | .ok _ =>
      if f.field ∈ seen ∨ f.direction ≠ .asc ∧ f.direction ≠ .desc then .error .invalidPlan
      else validateOrder (f.field :: seen) rest

structure CandidateChoice where
  metadata : CandidateMetadata
  score : Nat
  pattern : PatternScore

def CandidateChoice.beats (choice best : CandidateChoice) : Bool :=
  best.pattern.less choice.pattern || (decide (best.pattern = choice.pattern) &&
    (decide (best.score < choice.score) || (decide (choice.score = best.score) &&
      decide (choice.metadata.template.name < best.metadata.template.name))))

/-- A template the plan does not look at: without tombstones, or not the one it resumes. -/
def skipsTemplate (m : Manager) (plan : Plan) (t : Template) : Bool :=
  (plan.showDeleted && !t.includeDeleted) ||
    (decide (plan.templateFingerprint ≠ []) && decide (plan.templateFingerprint ≠ m.digests.fingerprint t))

/-- The best choice so far, and the last error other than a template that does not serve the plan. -/
def choosePlan (m : Manager) (plan : Plan) (filters : List Filter) :
    Option CandidateChoice × Option CandidateError → List (Template × PatternScore) →
      Option CandidateChoice × Option CandidateError
  | state, [] => state
  | (best, failure), (t, pattern) :: rest =>
    if skipsTemplate m plan t then choosePlan m plan filters (best, failure) rest
    else match compileCandidate m.digests t filters plan.orderBy with
    | .error e =>
      choosePlan m plan filters (best, if e = .noMatchingIndex then failure else some e) rest
    | .ok (metadata, score) =>
      let choice : CandidateChoice := ⟨metadata, score, pattern⟩
      match best with
      | none => choosePlan m plan filters (some choice, failure) rest
      | some b => choosePlan m plan filters (some (if choice.beats b then choice else b), failure) rest

def bestPlan (m : Manager) (database : Bytes) (plan : Plan) (filters : List Filter) :
    Except CandidateError CandidateMetadata :=
  match choosePlan m plan filters (none, none) (matchTemplates plan.collection (m.templates database)) with
  | (some best, _) => .ok best.metadata
  | (none, failure) =>
    if plan.templateFingerprint ≠ [] then .error .staleCursor else .error (failure.getD .noMatchingIndex)

def checkPosition (metadata : CandidateMetadata) (position : Bytes) : Except CandidateError Unit :=
  if position = [] then .ok ()
  else match tupleParts position, extractDocID position with
  | .ok parts, .ok _ =>
    if parts.length ≠ (orderComponents metadata.effectiveOrder).length + 1 then .error .invalidPlan else .ok ()
  | _, _ => .error .invalidPlan

def openCandidates (m : Manager) (database : Bytes) (plan : Plan) :
    Except CandidateError (CandidateStream (MemView × List ViewIterator)) :=
  if database = [] ∨ plan.collection = [] then .error .invalidPlan
  else (candidateFilters plan.filters).bind fun filters =>
    (validateOrder [] plan.orderBy).bind fun _ =>
      if maxCandidatePositionBytes < plan.afterPosition.length then .error .invalidPlan
      else (bestPlan m database plan filters).bind fun metadata =>
        (checkPosition metadata plan.afterPosition).bind fun _ =>
          match m.readGeneration database plan.collection metadata.templateFingerprint with
          | none => .error .indexNotReady
          | some generation =>
            if !generation.ready || decide (generation.failure ≠ []) then .error .indexNotReady
            else
              let metadata := { metadata with generation := generation.id }
              if (plan.generation ≠ [] ∧ plan.generation ≠ metadata.generation) ∨
                  (plan.branchHash ≠ [] ∧ plan.branchHash ≠ metadata.branchHash) then .error .staleCursor
              else
                let ref : QueryIndexRef :=
                  ⟨database, plan.collection, metadata.templateFingerprint, metadata.generation⟩
                openStream metadata (m.readView ref) plan.maxExamined plan.afterPosition

section Open

variable {m : Manager} {database : Bytes} {plan : Plan} {filters : List Filter}

theorem mem_matchTemplates {path : Bytes} {templates : List Template} {p : Template × PatternScore}
    (h : p ∈ matchTemplates path templates) : p.1 ∈ templates := by
  obtain ⟨t, ht, hMatch⟩ := List.mem_filterMap.mp (List.mem_insertionSort _ |>.mp h)
  simp only [matchTemplate] at hMatch
  split at hMatch
  · cases hMatch
  split at hMatch
  · cases hMatch
  · cases hMatch
    exact ht

theorem choosePlan_spec {ts : List (Template × PatternScore)} {best? : Option CandidateChoice}
    {failure failure' : Option CandidateError} {choice : CandidateChoice}
    (h : choosePlan m plan filters (best?, failure) ts = (some choice, failure')) :
    best? = some choice ∨ ∃ p ∈ ts, skipsTemplate m plan p.1 = false ∧
      compileCandidate m.digests p.1 filters plan.orderBy = .ok (choice.metadata, choice.score) := by
  induction ts generalizing best? failure with
  | nil =>
    cases h
    exact .inl rfl
  | cons p rest ih =>
    obtain ⟨t, pattern⟩ := p
    have hLater : ∀ {best? failure}, choosePlan m plan filters (best?, failure) rest = (some choice, failure') →
        best? = some choice ∨ ∃ p ∈ (t, pattern) :: rest, skipsTemplate m plan p.1 = false ∧
          compileCandidate m.digests p.1 filters plan.orderBy = .ok (choice.metadata, choice.score) :=
      fun hRest => (ih hRest).imp_right fun ⟨p, hp, hChosen⟩ => ⟨p, List.mem_cons_of_mem _ hp, hChosen⟩
    simp only [choosePlan] at h
    split at h
    · exact hLater h
    rename_i hSkip
    split at h
    · exact hLater h
    rename_i metadata score hCompile
    have hHere : (⟨metadata, score, pattern⟩ : CandidateChoice) = choice → ∃ p ∈ (t, pattern) :: rest,
        skipsTemplate m plan p.1 = false ∧
          compileCandidate m.digests p.1 filters plan.orderBy = .ok (choice.metadata, choice.score) := by
      rintro rfl
      exact ⟨(t, pattern), List.mem_cons_self, by simpa using hSkip, hCompile⟩
    split at h
    · exact (hLater h).elim (fun hSome => .inr (hHere (Option.some.inj hSome))) .inr
    obtain hSome | hFound := hLater h
    · split at hSome
      · exact .inr (hHere (Option.some.inj hSome))
      · exact .inl hSome
    · exact .inr hFound

/-- A plan over a template of the database whose partition is ready. -/
structure Planned (m : Manager) (database collection : Bytes) (filters : List Filter) (orderBy : List OrderField)
    (showDeleted : Bool) (metadata : CandidateMetadata) (t : Template) (generation : Generation) : Prop where
  template : t ∈ m.templates database
  deleted : showDeleted = true → t.includeDeleted = true
  compiled : ∃ compiled score, compileCandidate m.digests t filters orderBy = .ok (compiled, score) ∧
    metadata = { compiled with generation := generation.id }
  current : m.readGeneration database collection (m.digests.fingerprint t) = some generation
  ready : generation.ready = true
  healthy : generation.failure = []

variable {metadata : CandidateMetadata} {orderBy : List OrderField}

variable {t : Template}

theorem compileCandidate_fingerprint {digests : Digests} {n : Nat}
    (h : compileCandidate digests t filters orderBy = .ok (metadata, n)) :
    metadata.templateFingerprint = digests.fingerprint t := by
  obtain ⟨s, bounded, -, -, -, -, -, -, rfl, -⟩ := compileCandidate_cases h
  rfl

variable {generation : Generation} {showDeleted : Bool} {collection : Bytes}

theorem Planned.fingerprint (h : Planned m database collection filters orderBy showDeleted metadata t generation) :
    metadata.templateFingerprint = m.digests.fingerprint t := by
  obtain ⟨compiled, score, hCompile, rfl⟩ := h.compiled
  have hFingerprint := compileCandidate_fingerprint hCompile
  exact hFingerprint

/-- Plans over templates with the same fingerprint are the same when fingerprints tell templates apart. -/
theorem Planned.unique {metadata' : CandidateMetadata} {t' : Template} {generation' : Generation}
    (hTemplates : ((m.templates database).map m.digests.fingerprint).Nodup)
    (h : Planned m database collection filters orderBy showDeleted metadata t generation)
    (h' : Planned m database collection filters orderBy showDeleted metadata' t' generation')
    (hSame : metadata.templateFingerprint = metadata'.templateFingerprint) : metadata = metadata' := by
  rw [h.fingerprint, h'.fingerprint] at hSame
  cases List.inj_on_of_nodup_map hTemplates h.template h'.template hSame
  cases h.current.symm.trans h'.current
  obtain ⟨compiled, score, hCompile, rfl⟩ := h.compiled
  obtain ⟨compiled', score', hCompile', rfl⟩ := h'.compiled
  cases Except.ok.inj (hCompile.symm.trans hCompile')
  rfl

theorem bestPlan_spec (h : bestPlan m database plan filters = .ok metadata) :
    ∃ t ∈ m.templates database, skipsTemplate m plan t = false ∧
      ∃ score, compileCandidate m.digests t filters plan.orderBy = .ok (metadata, score) := by
  unfold bestPlan at h
  split at h
  · rename_i best failure hChoose
    cases h
    obtain hNone | ⟨p, hp, hSkip, hCompile⟩ := choosePlan_spec hChoose
    · cases hNone
    · exact ⟨p.1, mem_matchTemplates hp, hSkip, best.score, hCompile⟩
  · split at h
    · cases h
    · cases h

theorem candidateFilters_spec {out : List Filter} (h : candidateFilters filters = .ok out) :
    normalizeFilters filters = .ok out := by
  unfold candidateFilters at h
  split at h
  · cases h
  split at h
  · cases h
  rename_i normalized hNormalize
  split at h
  · cases h
  · cases h
    exact hNormalize

theorem openCandidates_spec {s : CandidateStream (MemView × List ViewIterator)} (h : openCandidates m database plan = .ok s) :
    ∃ filters t generation, normalizeFilters plan.filters = .ok filters ∧
      Planned m database plan.collection filters plan.orderBy plan.showDeleted s.metadata t generation ∧
      (plan.templateFingerprint ≠ [] → plan.templateFingerprint = s.metadata.templateFingerprint) ∧
      openStream s.metadata (m.readView ⟨database, plan.collection, s.metadata.templateFingerprint, s.metadata.generation⟩)
        plan.maxExamined plan.afterPosition = .ok s := by
  unfold openCandidates at h
  split at h
  · cases h
  obtain ⟨filters, hFilters, h⟩ := bind_eq_ok h
  obtain ⟨-, -, h⟩ := bind_eq_ok h
  split at h
  · cases h
  obtain ⟨metadata, hBest, h⟩ := bind_eq_ok h
  obtain ⟨-, -, h⟩ := bind_eq_ok h
  split at h
  · cases h
  rename_i generation hGeneration
  obtain ⟨hReady, h⟩ := guard_eq_ok h
  simp only at h
  split at h
  · cases h
  obtain ⟨hMetadata, -⟩ := openStream_ready h
  obtain ⟨t, ht, hSkip, score, hCompile⟩ := bestPlan_spec hBest
  have hFingerprint := compileCandidate_fingerprint hCompile
  simp only [skipsTemplate, Bool.or_eq_false_iff, Bool.and_eq_false_imp, decide_eq_true_eq] at hSkip
  refine ⟨filters, t, generation, candidateFilters_spec hFilters, ?_, ?_, ?_⟩
  · rw [hMetadata]
    refine ⟨ht, fun hShow => by simpa using hSkip.1 hShow, ⟨metadata, score, hCompile, rfl⟩, ?_, ?_, ?_⟩
    · rw [← hFingerprint]
      exact hGeneration
    · simp at hReady
      exact hReady.1
    · simp at hReady
      exact hReady.2
  · intro hResume
    rw [hMetadata]
    simpa [hFingerprint] using hSkip.2 hResume
  · rw [hMetadata]
    exact h

end Open

end Syntrix.Index
