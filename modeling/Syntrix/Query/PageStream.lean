import Syntrix.Query.Page

/-! # Candidates of a page

The candidates a page draws from its stream are the next groups of the rows past the cursor: they
come in order, none is left out, and what remains lies past the last one.
-/
namespace Syntrix.Core

open Lib OrderCode Model Index CandidateStream List

inductive Pulled (m : CandidateMetadata) : (Nat → List DocRef) → List CandidateGroup → (Nat → List DocRef) → Prop
  | nil (pend : Nat → List DocRef) : Pulled m pend [] pend
  | cons {pend next rest : Nat → List DocRef} {group : CandidateGroup} {groups : List CandidateGroup} :
      Yields m pend next group → Pulled m next groups rest → Pulled m pend (group :: groups) rest

section Pulled

variable {m : CandidateMetadata} {pend next rest : Nat → List DocRef} {groups groups' : List CandidateGroup}

theorem Pulled.append (h : Pulled m pend groups next) (h' : Pulled m next groups' rest) :
    Pulled m pend (groups ++ groups') rest := by
  induction h with
  | nil => exact h'
  | cons hYields _ ih => exact .cons hYields (ih h')

variable (h : Pulled m pend groups rest)

include h

theorem Pulled.suffix (b : Nat) : rest b <:+ pend b := by
  induction h with
  | nil => exact suffix_refl _
  | cons hYields _ ih => exact ih.trans (hYields.suffix b)

theorem Pulled.later (hOrdered : Ordered m pend) {b : Nat} {r : DocRef}
    (hr : r ∈ rest b) {q : Bytes} (hq : m.position r.orderKey = .ok q) : ∀ g ∈ groups, g.position < q := by
  induction h with
  | nil => simp
  | cons hYields hRest ih =>
    have hNext := hOrdered.suffix hYields.suffix
    exact forall_mem_cons.mpr ⟨hYields.later hOrdered ((hRest.suffix b).subset hr) hq, ih hNext hr⟩

theorem Pulled.origin : ∀ g ∈ groups,
    (∃ b r, r ∈ pend b ∧ m.position r.orderKey = .ok g.position ∧ r.id = g.id) ∧ g.branches ≠ [] ∧
      ∀ b ∈ g.branches, ∃ r ∈ pend b, m.position r.orderKey = .ok g.position := by
  induction h with
  | nil => simp
  | cons hYields hRest ih =>
    refine forall_mem_cons.mpr ⟨⟨hYields.origin, ?_, fun b hb => (hYields.member b).mp hb⟩, ?_⟩
    · obtain ⟨b, r, hr, hp, -⟩ := hYields.origin
      exact ne_nil_of_mem ((hYields.member b).mpr ⟨r, hr, hp⟩)
    · intro g hg
      obtain ⟨⟨b, r, hr, hp, hId⟩, hNonempty, hAll⟩ := ih g hg
      refine ⟨⟨b, r, (hYields.suffix b).subset hr, hp, hId⟩, hNonempty, fun b hb => ?_⟩
      obtain ⟨r, hr, hp⟩ := hAll b hb
      exact ⟨r, (hYields.suffix b).subset hr, hp⟩

theorem Pulled.sorted (hOrdered : Ordered m pend) : groups.Pairwise fun g g' => g.position < g'.position := by
  induction h with
  | nil => exact List.Pairwise.nil
  | cons hYields hRest ih =>
    refine pairwise_cons.mpr ⟨fun g hg => ?_, ih (hOrdered.suffix hYields.suffix)⟩
    obtain ⟨⟨b, r, hr, hp, -⟩, -⟩ := hRest.origin g hg
    exact hYields.later hOrdered hr hp

theorem Pulled.complete {b : Nat} {r : DocRef} (hr : r ∈ pend b) :
    r ∈ rest b ∨ ∃ g ∈ groups, m.position r.orderKey = .ok g.position := by
  induction h with
  | nil => exact .inl hr
  | @cons pend next rest group groups hYields hRest ih =>
    have hNext : r ∈ next b ∨ m.position r.orderKey = .ok group.position := by
      by_cases hb : b ∈ group.branches
      · obtain ⟨r₀, hRows, hp⟩ := hYields.taken b hb
        rw [hRows] at hr
        obtain rfl | hr := mem_cons.mp hr
        · exact .inr hp
        · exact .inl hr
      · rw [hYields.kept b hb]
        exact .inl hr
    obtain hr | hp := hNext
    · obtain hRest | ⟨g, hg, hp⟩ := ih hr
      · exact .inl hRest
      · exact .inr ⟨g, mem_cons_of_mem _ hg, hp⟩
    · exact .inr ⟨group, mem_cons_self, hp⟩

theorem Pulled.length_le {n : Nat} (hBound : ∀ b, ∀ r ∈ pend b, b < n) :
    groups.length + waitingRows n rest ≤ waitingRows n pend := by
  induction h with
  | nil => simp
  | cons hYields hRest ih =>
    have hLess := hYields.waitingRows_lt hBound
    have hMore := ih fun b r hr => hBound b r ((hYields.suffix b).subset hr)
    rw [length_cons]
    omega

end Pulled

theorem collectGroups_spec {rows : List DocRef} (hSorted : SortedRows rows) {n : Nat} {previous : Bytes}
    {s s' : CandidateStream (MemView × List ViewIterator)} {pend : Nat → List DocRef} {groups : List CandidateGroup}
    {ended : Bool} (hReady : Ready (Viewing rows) (viewRemaining rows) s pend) (hOrdered : Ordered s.metadata pend)
    (h : collectGroups n previous s = .ok (groups, ended, s')) :
    ∃ rest, Pulled s.metadata pend groups rest ∧ (ended = true → ∀ b, rest b = []) ∧
      (ended = false → groups.length = n ∧ s'.metadata = s.metadata ∧ (0 < n → s'.started = true) ∧
        Ready (Viewing rows) (viewRemaining rows) s' rest) := by
  induction n generalizing previous s pend groups with
  | zero =>
    cases h
    exact ⟨pend, .nil pend, fun hFalse => (by cases hFalse), fun _ => ⟨rfl, rfl, fun hLt => (by omega), hReady⟩⟩
  | succ n ih =>
    have hStep := next_spec (memSource_serves hSorted) hReady hOrdered (Nat.lt_succ_self s.iterators)
    simp only [collectGroups] at h
    split at h
    · cases h
    · cases h
    rename_i group s₁ hNext
    rw [hNext] at hStep
    split at h
    · cases h
    split at h
    · cases h
      exact ⟨pend, .nil pend, fun _ => hStep, fun hFalse => (by cases hFalse)⟩
    obtain ⟨hMetadata, -, hStarted, next, hReady₁, hYields⟩ := hStep
    obtain ⟨-, -, h⟩ := bind_eq_ok h
    obtain ⟨⟨groups', ended', s₂⟩, hRest, hEq⟩ := map_eq_ok h
    cases hEq
    have hOrdered₁ := hOrdered.suffix hYields.suffix
    rw [← hMetadata] at hOrdered₁
    obtain ⟨rest, hPulled, hEnd, hMore⟩ := ih hReady₁ hOrdered₁ hRest
    rw [hMetadata] at hPulled hMore
    refine ⟨rest, .cons hYields hPulled, hEnd, fun hFalse => ?_⟩
    obtain ⟨hLength, hMeta, hStarted₂, hReady₂⟩ := hMore hFalse
    refine ⟨by rw [length_cons, hLength], hMeta, fun _ => ?_, hReady₂⟩
    rcases Nat.eq_zero_or_pos n with rfl | hPos
    · cases hRest
      exact hStarted
    · exact hStarted₂ hPos

section After

variable {fingerprint : Template → Bytes} {t : Template} {generation collection : Bytes} {limits : ProjectionLimits}
variable {docs : List StoredDoc} {rows : List DocRef} {filters : List Filter} {orderBy : List OrderField}
variable {m : CandidateMetadata} {k : Nat}

/-- The start of a page: the very beginning, or the position of a document. -/
def StartsAfter (m : CandidateMetadata) (after : Bytes) : Prop :=
  after = [] ∨ ∃ doc id ws, after = tupleKey ws id ∧ OrderWords doc id (orderComponents m.effectiveOrder) ws ∧
    encodeField (orderTupleField doc id ⟨idField, .asc⟩) = .ok (idWord id)

/-- The position of a row's document, whether or not it is short enough for a page. -/
def RowPosition (m : CandidateMetadata) (docs : List StoredDoc) (r : DocRef) (p : Bytes) : Prop :=
  ∃ doc ∈ docs, logicalDocumentID doc = .ok r.id ∧ documentPosition m.effectiveOrder doc r.id = .ok p

variable {r : DocRef}

variable (h : Compiled t filters orderBy m k) (hIndexed : Indexed fingerprint t generation limits collection docs rows)

include hIndexed

theorem RowPosition.unique {p p' : Bytes} (h : RowPosition m docs r p) (h' : RowPosition m docs r p') : p = p' := by
  obtain ⟨doc, hDoc, hId, hp⟩ := h
  obtain ⟨doc', hDoc', hId', hp'⟩ := h'
  cases hIndexed.unique hDoc hDoc' hId hId'
  exact Except.ok.inj (hp.symm.trans hp')

include h

theorem rowPosition_of_mem (hr : r ∈ rows) :
    ∃ doc ∈ docs, ∃ member words ws, Row t doc r.id member words ∧ r.orderKey = tupleKey words r.id ∧
      OrderWords doc r.id (orderComponents m.effectiveOrder) ws ∧ RowPosition m docs r (tupleKey ws r.id) ∧
      m.position r.orderKey = if maxCandidatePositionBytes < (tupleKey ws r.id).length
        then .error .workLimit else .ok (tupleKey ws r.id) := by
  obtain ⟨doc, hDoc, members, hProjected, member, -, words, hRow, hKey⟩ := hIndexed.row hr
  obtain ⟨ws, hWords, hDocument, hPosition⟩ := hRow.position h.template h.found
  exact ⟨doc, hDoc, member, words, ws, hRow, hKey, hWords, ⟨doc, hDoc, hProjected.identity, hDocument⟩,
    by rw [hKey]; exact hPosition⟩

theorem rowPosition_of_position (hr : r ∈ rows) {q : Bytes} (hq : m.position r.orderKey = .ok q) : RowPosition m docs r q := by
  obtain ⟨-, -, -, -, ws, -, -, -, hRow, hPosition⟩ := rowPosition_of_mem h hIndexed hr
  rw [hPosition] at hq
  split at hq
  · cases hq
  · exact Except.ok.inj hq ▸ hRow

theorem mem_branchRows_after {after : Bytes} (hAfter : StartsAfter m after) {b : Nat} :
    r ∈ branchRows m after rows b ↔ r ∈ rows ∧ ∃ branch, m.branches[b]? = some branch ∧ branch.Mem r.orderKey ∧
      ∃ p, RowPosition m docs r p ∧ after < p := by
  by_cases hr : r ∈ rows
  · obtain ⟨doc, hDoc, member, words, ws, hRow, hKey, hWords, hPosition, -⟩ := rowPosition_of_mem h hIndexed hr
    have hPast : (∃ p, RowPosition m docs r p ∧ after < p) ↔ after < tupleKey ws r.id :=
      ⟨fun ⟨p, hp, hLt⟩ => hp.unique hIndexed hPosition ▸ hLt, fun hLt => ⟨_, hPosition, hLt⟩⟩
    simp only [hr, hPast, true_and]
    obtain rfl | ⟨doc', id', ws', rfl, hWords', hId'⟩ := hAfter
    · rw [mem_branchRows_start]
      simp [hr, tupleKey]
    cases hBranch : m.branches[b]? with
    | none => simp [branchRows, CandidateMetadata.scanOptions, hBranch]
    | some branch =>
      obtain ⟨opts, hOpts, hWithin, hIff⟩ := h.scanOptions_spec hBranch hRow.fields hWords'.boundary
      have hMem : r ∈ branchRows m (tupleKey ws' id') rows b ↔ opts.Mem r.orderKey := by
        simp [branchRows, hOpts, hr]
      rw [hMem]
      simp only [Option.some.injEq, exists_eq_left']
      constructor
      · intro hOptsMem
        have hIn := hWithin _ hOptsMem
        rw [hKey] at hIn hOptsMem ⊢
        exact ⟨hIn, (hIff doc r.id member words ws hRow hWords hIn).mp hOptsMem⟩
      · rintro ⟨hIn, hLt⟩
        rw [hKey] at hIn ⊢
        exact (hIff doc r.id member words ws hRow hWords hIn).mpr hLt
  · have hNot : r ∉ branchRows m after rows b := fun hMem => hr ((branchRows_sublist m after rows b).subset hMem)
    simp [hr, hNot]

theorem rowPosition_lt {b : Nat} {branch : CandidateBranch} (hBranch : m.branches[b]? = some branch) {r r' : DocRef}
    (hr : r ∈ rows) (hr' : r' ∈ rows) (hIn : branch.Mem r.orderKey) (hIn' : branch.Mem r'.orderKey) (hLess : r.Less r')
    {p p' : Bytes} (hp : RowPosition m docs r p) (hp' : RowPosition m docs r' p') : p < p' := by
  obtain ⟨doc, -, member, words, ws, hRow, hKey, hWords, hPosition, -⟩ := rowPosition_of_mem h hIndexed hr
  obtain ⟨doc', -, member', words', ws', hRow', hKey', hWords', hPosition', -⟩ := rowPosition_of_mem h hIndexed hr'
  rw [hp.unique hIndexed hPosition, hp'.unique hIndexed hPosition']
  exact h.branch_lt (mem_of_getElem? hBranch) hRow hRow' hKey hKey' hIn hIn' hLess hWords hWords'

end After

end Syntrix.Core
