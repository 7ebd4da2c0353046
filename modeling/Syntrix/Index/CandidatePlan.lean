import Syntrix.Index.CandidateCover

/-! # Compiled plans

What a successful compilation says about the plan: the keys its branches cover, the filters it marks
as answered by the index, and the order the remaining fields give.
-/
namespace Syntrix.Index

open Lib OrderCode Model List

def Passes (dir : Direction) (g : Filter) (w : Bytes) : Prop :=
  ∃ c raw, Component.Encodes c raw ∧ w = directed dir.descending raw ∧ raw ≠ [0x01] ∧ g.matchesKey raw = true

def TupleWords (fields : List TemplateField) (words : List Bytes) : Prop :=
  List.Forall₂ (fun f w => IsWord (fieldDirection f) w) fields words

theorem fieldDirection_cases (f : TemplateField) : fieldDirection f = .asc ∨ fieldDirection f = .desc := by
  unfold fieldDirection
  split
  · exact .inr rfl
  · exact .inl rfl

variable {f : TemplateField} {w : Bytes}

theorem filterIntervals_passes {start rest : Bytes} {g : Filter} {intervals : List KeyInterval} (hStart : version ∈ start)
    (hw : IsWord (fieldDirection f) w) (h : filterIntervals start (fieldDirection f) g = .ok intervals) :
    Covers intervals (start ++ (w ++ rest)) ↔ Passes (fieldDirection f) g w := by
  obtain ⟨c, raw, hc, rfl⟩ := hw
  rw [filterIntervals_covers hStart (fieldDirection_cases f) hc h]
  constructor
  · rintro ⟨hPresent, hMatch⟩
    exact ⟨c, raw, hc, rfl, hPresent, hMatch⟩
  · rintro ⟨c', raw', -, hEq, hPresent, hMatch⟩
    rw [directed_inj hEq]
    exact ⟨hPresent, hMatch⟩

variable {filters : List Filter}

theorem Chosen.isWord (h : Chosen filters f w) : IsWord (fieldDirection f) w := by
  obtain ⟨points, v, -, -, hw⟩ := h
  rw [fieldBytes_eq] at hw
  exact encodeField_isWord hw

/-- A plan over a template whose first `k` fields are fixed. -/
structure Compiled (t : Template) (filters : List Filter) (orderBy : List OrderField) (m : CandidateMetadata)
    (k : Nat) : Prop where
  template : m.template = t
  order : m.effectiveOrder = effectiveOrder t.fields orderBy
  le : k ≤ t.fields.length
  points : ∀ f ∈ t.fields.take k, ∃ points, fieldPoints filters f = .ok (some points)
  next : ∀ f, t.fields[k]? = some f → fieldPoints filters f = .ok none
  scalar : hasMembership (t.fields.drop k) = false
  found : ∀ f ∈ orderComponents m.effectiveOrder, orderFieldFound t.fields f = true
  variableOrder : ((orderComponents m.effectiveOrder).filter fun f =>
    f.field ∉ (t.fields.take k).map TemplateField.field) = remainingFields (t.fields.drop k)
  branches : ∀ b ∈ m.branches, b.fixedFields = k ∧
    ∃ ws, TupleWords (t.fields.take k) ws ∧ b.fixedPrefix = version :: ws.flatten ∧
      ∀ key, b.Mem key → b.fixedPrefix <+: key
  covers : ∀ words id, TupleWords t.fields words →
    ((∃ b ∈ m.branches, b.Mem (tupleKey words id)) ↔
      List.Forall₂ (Chosen filters) (t.fields.take k) (words.take k) ∧
        ∀ f w, t.fields[k]? = some f → words[k]? = some w →
          ∀ g ∈ filters, rangeFilter f g = true → Passes (fieldDirection f) g w)
  access : ∀ i a, m.assignments[i]? = some a → a.access = true →
    (∃ f ∈ t.fields.take k, Uses filters f i) ∨
      ∃ f g, t.fields[k]? = some f ∧ filters[i]? = some g ∧ rangeFilter f g = true

variable {a : PredicateAssignment}

variable {i : Nat} {assignments : List PredicateAssignment}

theorem markAccess_access {hit : Filter → Bool} (h : (markAccess hit filters assignments)[i]? = some a)
    (hAccess : a.access = true) :
    (∃ a', assignments[i]? = some a' ∧ a'.access = true) ∨ ∃ g, filters[i]? = some g ∧ hit g = true := by
  obtain ⟨g, a', hg, ha', hEq⟩ := getElem?_zipWith_eq_some.mp h
  cases hHit : hit g with
  | true => exact .inr ⟨g, hg, hHit⟩
  | false =>
    rw [hHit, if_neg Bool.false_ne_true] at hEq
    exact .inl ⟨a', ha', hEq ▸ hAccess⟩

theorem markRange_access {rest : List TemplateField} {branches : List CandidateBranch}
    (h : (markRange filters rest branches assignments)[i]? = some a) (hAccess : a.access = true) :
    (∃ a', assignments[i]? = some a' ∧ a'.access = true) ∨
      ∃ f g, rest.head? = some f ∧ filters[i]? = some g ∧ rangeFilter f g = true := by
  unfold markRange at h
  split at h
  · exact .inl ⟨a, h, hAccess⟩
  rename_i f tail
  split at h
  · exact .inl ⟨a, h, hAccess⟩
  obtain hOld | ⟨g, hg, hHit⟩ := markAccess_access h hAccess
  · exact .inl hOld
  · exact .inr ⟨f, g, rfl, hg, hHit⟩

variable {fields : List TemplateField} {words : List Bytes}

theorem TupleWords.isWord (h : TupleWords fields words) : ∀ w ∈ words, ∃ d, IsWord d w := by
  intro w hw
  obtain ⟨f, -, hWord⟩ := forall₂_mem_right h hw
  exact ⟨_, hWord⟩

variable {k : Nat}

variable {ws : List Bytes}

theorem prefix_tupleKey_iff (hWords : TupleWords fields words) (hws : TupleWords (fields.take k) ws) (id : Bytes) :
    version :: ws.flatten <+: tupleKey words id ↔ ws = words.take k := by
  have hSplit : words.flatten ++ idWord id = (words.take k).flatten ++ ((words.drop k).flatten ++ idWord id) := by
    rw [← append_assoc, ← flatten_append, take_append_drop]
  rw [tupleKey, cons_prefix_cons, hSplit, flatten_prefix_iff (forall₂_map_left_iff.mpr hws) (forall₂_map_left_iff.mpr (forall₂_take k hWords))]
  simp

theorem split_at {α : Type} {l : List α} {x : α} (h : l[k]? = some x) : l.drop k = x :: l.drop (k + 1) := by
  rw [drop_eq_getElem?_toList_append, h]
  rfl

theorem tupleKey_split (h : words[k]? = some w) (id : Bytes) :
    tupleKey words id = (version :: (words.take k).flatten) ++ (w ++ ((words.drop (k + 1)).flatten ++ idWord id)) := by
  have hWords : words.flatten = (words.take k).flatten ++ (w ++ (words.drop (k + 1)).flatten) := by
    rw [← flatten_cons, ← split_at h, ← flatten_append, take_append_drop]
  rw [tupleKey, hWords]
  simp

variable {bounded : List CandidateBranch}

theorem branch_covers {fixed : Nat} (hWords : TupleWords fields words) (hws : TupleWords (fields.take k) ws)
    (h : boundBranch filters (fields.drop k) ⟨version :: ws.flatten, fixed, [], none⟩ = .ok bounded) (id : Bytes) :
    (∃ b ∈ bounded, b.Mem (tupleKey words id)) ↔ ws = words.take k ∧
      ∀ f w, fields[k]? = some f → words[k]? = some w →
        ∀ g ∈ filters, rangeFilter f g = true → Passes (fieldDirection f) g w := by
  obtain ⟨intervals, hIntervals, -⟩ := map_eq_ok h
  rw [boundBranch_covers h, prefix_tupleKey_iff hWords hws]
  refine and_congr_right fun hEq => ?_
  subst hEq
  have hStart : version ∈ version :: (words.take k).flatten := mem_cons_self
  constructor
  · intro hAll f w hf hw g hg hRange
    obtain ⟨w', hw', hWord⟩ := forall₂_getElem? hWords hf
    cases hw.symm.trans hw'
    obtain ⟨constraint, hConstraint, hCovers⟩ := hAll f _ (split_at hf) g hg hRange
    rw [tupleKey_split hw] at hCovers
    exact (filterIntervals_passes hStart hWord hConstraint).mp hCovers
  · intro hAll f tail hRest g hg hRange
    have hf : fields[k]? = some f := by
      have hHead := congrArg head? hRest
      rwa [head?_drop] at hHead
    obtain ⟨w, hw, hWord⟩ := forall₂_getElem? hWords hf
    obtain ⟨constraint, hConstraint⟩ := intervalsOf_constraint (by rw [hRest] at hIntervals; exact hIntervals) hg hRange
    refine ⟨constraint, hConstraint, ?_⟩
    rw [tupleKey_split hw]
    exact (filterIntervals_passes hStart hWord hConstraint).mpr (hAll f w hf hw g hg hRange)

theorem initialState_open (filters : List Filter) : ∀ b ∈ (initialState filters).branches, b.Open 0 := by
  simp [initialState, CandidateBranch.Open]

theorem initialState_access (h : (initialState filters).assignments[i]? = some a) : a.access = false := by
  obtain ⟨j, -, rfl⟩ := List.mem_map.mp (mem_of_getElem? h)
  rfl

variable {s : CompileState}

theorem fixedBranch_mem (h : FixedFields filters fields (initialState filters) s k) (hEmpty : s.empty = false)
    (hExceeded : s.expansionExceeded = false) (b : CandidateBranch) :
    b ∈ s.branches ↔ ∃ ws, Forall₂ (Chosen filters) (fields.take k) ws ∧ b = ⟨version :: ws.flatten, s.fixed, [], none⟩ := by
  rw [h.branches hEmpty hExceeded]
  simp [initialState]

theorem bounded_covers (h : FixedFields filters fields (initialState filters) s k) (hEmpty : s.empty = false)
    (hExceeded : s.expansionExceeded = false) (hBounded : boundBranches filters (fields.drop k) s.branches = .ok bounded)
    (hWords : TupleWords fields words) (id : Bytes) :
    (∃ b ∈ bounded, b.Mem (tupleKey words id)) ↔
      Forall₂ (Chosen filters) (fields.take k) (words.take k) ∧
        ∀ f w, fields[k]? = some f → words[k]? = some w →
          ∀ g ∈ filters, rangeFilter f g = true → Passes (fieldDirection f) g w := by
  constructor
  · rintro ⟨b, hb, hMem⟩
    obtain ⟨branch, hBranch, own, hOwn, hb⟩ := (boundBranches_mem hBounded b).mp hb
    obtain ⟨ws, hws, rfl⟩ := (fixedBranch_mem h hEmpty hExceeded branch).mp hBranch
    have hwsWords : TupleWords (fields.take k) ws := hws.imp fun _ _ hc => hc.isWord
    obtain ⟨rfl, hRange⟩ := (branch_covers hWords hwsWords hOwn id).mp ⟨b, hb, hMem⟩
    exact ⟨hws, hRange⟩
  · rintro ⟨hChosen, hRange⟩
    have hwsWords : TupleWords (fields.take k) (words.take k) := hChosen.imp fun _ _ hc => hc.isWord
    have hBranch := (fixedBranch_mem h hEmpty hExceeded _).mpr ⟨words.take k, hChosen, rfl⟩
    obtain ⟨own, hOwn⟩ := boundBranches_ok hBounded hBranch
    obtain ⟨b, hb, hMem⟩ := (branch_covers hWords hwsWords hOwn id).mpr ⟨rfl, hRange⟩
    exact ⟨b, (boundBranches_mem hBounded b).mpr ⟨_, hBranch, own, hOwn, hb⟩, hMem⟩

variable {n : Nat} {m : CandidateMetadata} {orderBy : List OrderField} {t : Template} {digests : Digests}

theorem compileCandidate_cases (h : compileCandidate digests t filters orderBy = .ok (m, n)) :
    ∃ s bounded, fixFields filters t.fields (initialState filters) = .ok s ∧
      (s.empty = false → s.expansionExceeded = false) ∧ hasMembership (t.fields.drop s.fixed) = false ∧
      (orderComponents (effectiveOrder t.fields orderBy)).all (orderFieldFound t.fields) = true ∧
      ((orderComponents (effectiveOrder t.fields orderBy)).filter fun f =>
        f.field ∉ (t.fields.take s.fixed).map TemplateField.field) = remainingFields (t.fields.drop s.fixed) ∧
      boundBranches filters (t.fields.drop s.fixed) s.branches = .ok bounded ∧
      m = ⟨t, digests.fingerprint t, [], digests.branchHash (if s.empty then [] else bounded)
        (effectiveOrder t.fields orderBy), effectiveOrder t.fields orderBy, if s.empty then [] else bounded,
        markRange filters (t.fields.drop s.fixed) s.branches s.assignments⟩ ∧
      n = s.access + rangeAccess filters (t.fields.drop s.fixed) s.branches.length := by
  obtain ⟨s, hs, h⟩ := bind_eq_ok h
  split at h
  · cases h
  rename_i hExpansion
  simp only at h
  obtain ⟨hScalar, h⟩ := guard_eq_ok h
  obtain ⟨hFound, h⟩ := guard_eq_ok h
  obtain ⟨hVariable, h⟩ := guard_eq_ok h
  obtain ⟨bounded, hBounded, h⟩ := bind_eq_ok h
  generalize hBranches : (if s.empty = true then [] else bounded) = branches at h
  split at h
  · cases h
  split at h
  · cases h
  split at h
  · cases h
  cases h
  refine ⟨s, bounded, hs, ?_, by simpa using hScalar, by simpa using hFound,
    by simpa using hVariable, hBounded, by rw [hBranches], rfl⟩
  intro hEmpty
  rw [hEmpty] at hExpansion
  simpa using hExpansion

theorem compileCandidate_spec (h : compileCandidate digests t filters orderBy = .ok (m, n)) :
    ∃ k, Compiled t filters orderBy m k := by
  obtain ⟨s, bounded, hs, hExceeded, hScalar, hFound, hVariable, hBounded, rfl, -⟩ := compileCandidate_cases h
  obtain ⟨k, hFixed, hNext⟩ := fixFields_spec (initialState_open filters) hs
  have hk : s.fixed = k := by rw [hFixed.fixed]; exact Nat.zero_add k
  rw [hk] at hScalar hVariable hBounded
  refine ⟨k, rfl, rfl, hFixed.le, hFixed.points, hNext, hScalar, List.all_eq_true.mp hFound, hVariable, ?_, ?_, ?_⟩
  · intro b hb
    cases hEmpty : s.empty with
    | true => simp [hEmpty] at hb
    | false =>
      simp only [hEmpty, Bool.false_eq_true, if_false] at hb
      obtain ⟨branch, hBranch, own, hOwn, hb⟩ := (boundBranches_mem hBounded b).mp hb
      obtain ⟨ws, hws, rfl⟩ := (fixedBranch_mem hFixed hEmpty (hExceeded hEmpty) branch).mp hBranch
      obtain ⟨intervals, -, rfl⟩ := map_eq_ok hOwn
      obtain ⟨i, -, rfl⟩ := List.mem_map.mp hb
      refine ⟨hk, ws, hws.imp fun _ _ hc => hc.isWord, rfl, fun key hKey => ?_⟩
      exact ((boundBranch_covers hOwn key).mp ⟨_, hb, hKey⟩).1
  · intro words id hWords
    cases hEmpty : s.empty with
    | true =>
      simp only [if_true, not_mem_nil, false_and, exists_false, false_iff]
      rintro ⟨hChosen, -⟩
      obtain hFalse | ⟨f, hf, hNone⟩ := hFixed.empty hEmpty
      · cases hFalse
      obtain ⟨w, -, points, v, hPoints, hv, -⟩ := forall₂_mem_left hChosen hf
      cases Except.ok.inj (hNone.symm.trans hPoints)
      cases hv
    | false =>
      exact bounded_covers hFixed hEmpty (hExceeded hEmpty) hBounded hWords id
  · intro i a ha hAccess
    obtain ⟨a', ha', hAccess'⟩ | ⟨f, g, hf, hg, hRange⟩ := markRange_access ha hAccess
    · obtain ⟨a'', ha'', hAccess''⟩ | hUses := hFixed.access i a' ha' hAccess'
      · rw [initialState_access ha''] at hAccess''
        cases hAccess''
      · exact .inl hUses
    · rw [hk, head?_drop] at hf
      exact .inr ⟨f, g, hf, hg, hRange⟩

end Syntrix.Index
