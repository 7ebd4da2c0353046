import Syntrix.Index.CandidatePlan

/-! # Documents under a plan

A document's posting is covered by a plan only when the document passes every filter the plan marks
as answered by the index, and a document that passes all filters has a posting the plan covers.
-/
namespace Syntrix.Index

open Lib OrderCode Model List Except Bool

def Satisfies (doc : StoredDoc) (id : Bytes) (g : Filter) : Prop :=
  evaluateFilter g ((documentField doc id g.field).getD .null) (documentField doc id g.field).isSome = .ok true

variable {doc : StoredDoc} {g : Filter} {id : Bytes}

theorem satisfies_iff (hg : g.Normalized) :
    Satisfies doc id g ↔ ∃ v, documentField doc id g.field = some v ∧ evaluateNormalizedFilter g v true = .ok true := by
  have hNormal : normalizeFilter g = .ok g := hg
  unfold Satisfies evaluateFilter
  rw [hNormal]
  cases documentField doc id g.field with
  | none => simp [evaluateNormalizedFilter]
  | some v => simp

variable {filters : List Filter}

theorem evaluateNormalizedFilters_true {field : Bytes → Option Value} (h : evaluateNormalizedFilters field filters = .ok true) :
    ∀ g ∈ filters, evaluateNormalizedFilter g ((field g.field).getD .null) (field g.field).isSome = .ok true := by
  induction filters with
  | nil => simp
  | cons g rest ih =>
    simp only [evaluateNormalizedFilters] at h
    split at h
    · cases h
    rename_i result hResult
    obtain ⟨tail, hTail, hAnd⟩ := map_eq_ok h
    obtain ⟨rfl, rfl⟩ := and_eq_true_iff.mp hAnd
    exact forall_mem_cons.mpr ⟨hResult, ih hTail⟩

theorem satisfies_of_evaluateFilters (hFilters : normalizeFilters filters = .ok filters)
    (h : evaluateFilters filters (documentField doc id) = .ok true) : ∀ g ∈ filters, Satisfies doc id g := by
  intro g hg
  have hNormal := (normalizeFiltersFrom_spec hFilters).1 g hg
  rw [evaluateFilters, hFilters] at h
  have hResult := evaluateNormalizedFilters_true h g hg
  unfold Satisfies evaluateFilter
  rw [show normalizeFilter g = .ok g from hNormal]
  exact hResult

variable {f : TemplateField}

variable {raw : Bytes}

theorem scalar_satisfies_iff (hg : g.Normalized) (hField : g.field = f.field)
    (hRaw : rawKey (documentTupleField doc id f) = .ok raw) : Satisfies doc id g ↔ raw ≠ [0x01] ∧ g.matchesKey raw = true := by
  rw [satisfies_iff hg, hField]
  cases hValue : documentField doc id f.field with
  | none =>
    have hMissing : raw = [0x01] := by
      simp [documentTupleField, hValue, rawKey] at hRaw
      exact hRaw.symm
    simp [hMissing]
  | some v =>
    have hKey : scalarKey v = .ok raw := by
      have := rawKey_scalar hRaw (by simp [documentTupleField, hValue])
      simpa [documentTupleField, hValue] using this
    simp only [Option.some.injEq, exists_eq_left', evaluateNormalizedFilter_of_key hg hKey, ok.injEq]
    exact (and_iff_right (scalarKey_ne_missing hKey)).symm

theorem rawKey_of_key {v v' : Value} {d d' : Direction} (hv : scalarKey v = .ok raw) (h' : rawKey ⟨v', d', false⟩ = .ok raw) :
    rawKey ⟨v, d, false⟩ = .ok raw := by
  have hv' : scalarKey v' = .ok raw := rawKey_scalar h' rfl
  unfold rawKey
  simp only [false_eq_true, if_false]
  split
  · rename_i s
    obtain ⟨c, hc, hEncodes⟩ := scalarKey_encodes hv
    obtain ⟨c', hc', hEncodes'⟩ := scalarKey_encodes hv'
    cases hc
    have hSame : c' = .text s := by
      rw [← Component.compare_eq_iff, ← hEncodes'.wordCmp_eq hEncodes, wordCmp_self]
    rw [hSame] at hc'
    have hString : v' = .string s := by
      cases v' <;> simp [component] at hc'
      · rw [hc']
      · split at hc' <;> simp at hc'
    rw [hString] at h'
    simp only [rawKey, false_eq_true, if_false] at h'
    split at h'
    · cases h'
    rename_i hLength
    rw [if_neg hLength, hv]
    rfl
  · rw [hv]
    rfl

variable {v : Value}

theorem fieldBytes_of_raw (h : rawKey ⟨v, fieldDirection f, false⟩ = .ok raw) :
    fieldBytes v (fieldDirection f) = .ok (directed (fieldDirection f).descending raw) := by
  rw [fieldBytes_eq]
  unfold encodeField
  obtain hDir | hDir := fieldDirection_cases f <;> rw [hDir] at h ⊢ <;> simp only [h] <;> rfl

variable {field : Bytes}

theorem admits_true
    (h : admits field v filters = .ok true) : ∀ g ∈ filters, g.field = field → evaluateFilter g v true = .ok true := by
  induction filters with
  | nil => simp
  | cons g rest ih =>
    simp only [admits] at h
    split at h
    · obtain ⟨result, hResult, hRest⟩ := bind_eq_ok h
      obtain ⟨tail, hTail, hAnd⟩ := map_eq_ok hRest
      obtain ⟨rfl, rfl⟩ := and_eq_true_iff.mp hAnd
      exact forall_mem_cons.mpr ⟨fun _ => mapError_eq_ok hResult, ih hTail⟩
    · rename_i hField
      exact forall_mem_cons.mpr ⟨fun hEq => absurd hEq hField, ih h⟩

theorem admits_of_forall (h : ∀ g ∈ filters, g.field = field → evaluateFilter g v true = .ok true) :
    admits field v filters = .ok true := by
  induction filters with
  | nil => rfl
  | cons g rest ih =>
    rw [forall_mem_cons] at h
    simp only [admits]
    split
    · rename_i hField
      rw [h.1 hField, ih h.2]
      rfl
    · exact ih h.2

theorem mem_admittedPoints {points admitted : List Value} (h : admittedPoints filters field points = .ok admitted) :
    v ∈ admitted ↔ v ∈ points ∧ admits field v filters = .ok true := by
  induction points generalizing admitted with
  | nil => cases h; simp
  | cons p rest ih =>
    obtain ⟨ok, hOk, hRest⟩ := bind_eq_ok h
    obtain ⟨tail, hTail, rfl⟩ := map_eq_ok hRest
    cases ok with
    | true | false => grind

theorem equalKey_matches (hFilters : ∀ g ∈ filters, g.Normalized) (hKey : scalarKey v = .ok raw) :
    (∀ g ∈ filters, g.field = field → evaluateFilter g v true = .ok true) ↔
      ∀ g ∈ filters, g.field = field → g.matchesKey raw = true := by
  refine forall_congr' fun g => forall_congr' fun hg => forall_congr' fun _ => ?_
  rw [evaluateFilter, show normalizeFilter g = .ok g from hFilters g hg]
  simp only [evaluateNormalizedFilter_of_key (hFilters g hg) hKey, ok.injEq]

variable {w : Bytes}

theorem Chosen.satisfies (hFilters : ∀ g ∈ filters, g.Normalized) (hMode : f.mode ≠ .membership) (h : Chosen filters f w)
    (hw : encodeField (documentTupleField doc id f) = .ok w) (hg : g ∈ filters) (hField : g.field = f.field) :
    Satisfies doc id g := by
  obtain ⟨points, v, hPoints, hv, hBytes⟩ := h
  obtain ⟨raw, hRaw, rfl⟩ := encodeField_spec hw
  rw [fieldBytes_eq] at hBytes
  obtain ⟨raw', hRaw', hEq⟩ := encodeField_spec hBytes
  cases directed_inj hEq
  have hKey : scalarKey v = .ok raw := rawKey_scalar hRaw' rfl
  simp only [fieldPoints, hMode, if_false] at hPoints
  split at hPoints
  · cases hPoints
  obtain ⟨admitted, hAdmitted, hEq⟩ := map_eq_ok hPoints
  cases hEq
  obtain ⟨-, hAdmits⟩ := (mem_admittedPoints hAdmitted).mp hv
  have hMatches := (equalKey_matches hFilters hKey).mp (admits_true hAdmits) g hg hField
  exact (scalar_satisfies_iff (hFilters g hg) hField hRaw).mpr ⟨scalarKey_ne_missing hKey, hMatches⟩

theorem chosen_of_satisfies (hFilters : ∀ g ∈ filters, g.Normalized) {points : List Value} (hMode : f.mode ≠ .membership)
    (hPoints : fieldPoints filters f = .ok (some points)) (hw : encodeField (documentTupleField doc id f) = .ok w)
    (hAll : ∀ g ∈ filters, g.field = f.field → Satisfies doc id g) : Chosen filters f w := by
  obtain ⟨raw, hRaw, rfl⟩ := encodeField_spec hw
  have hMatches : ∀ g ∈ filters, g.field = f.field → raw ≠ [0x01] ∧ g.matchesKey raw = true := fun g hg hField =>
    (scalar_satisfies_iff (hFilters g hg) hField hRaw).mp (hAll g hg hField)
  have hPoints' := hPoints
  simp only [fieldPoints, hMode, if_false] at hPoints'
  split at hPoints'
  · cases hPoints'
  rename_i g hFind
  obtain ⟨admitted, hAdmitted, hEq⟩ := map_eq_ok hPoints'
  cases hEq
  have hg := mem_of_find?_eq_some hFind
  obtain ⟨hField, hOp⟩ : g.field = f.field ∧ (g.op = .opEq ∨ g.op = .opIn) := by
    have := find?_some hFind
    simpa [isPoint] using this
  obtain ⟨hPresent, hMatch⟩ := hMatches g hg hField
  -- One of the values the filter names has the key of the document's field.
  obtain ⟨v, hv, hKey⟩ : ∃ v ∈ pointValues g, scalarKey v = .ok raw := by
    have hKeyIs : ∀ v, keyIs raw v = true → scalarKey v = .ok raw := by
      intro v hv
      unfold keyIs at hv
      split at hv
      · rename_i k hk
        rw [hk, of_decide_eq_true hv]
      · cases hv
    obtain hOp | hOp := hOp
    · simp only [Filter.matchesKey, hOp] at hMatch
      exact ⟨g.value, by simp [pointValues, hOp], hKeyIs _ hMatch⟩
    simp only [Filter.matchesKey, hOp] at hMatch
    split at hMatch
    · rename_i items hItems
      obtain ⟨v, hv, hKey⟩ := List.any_eq_true.mp hMatch
      exact ⟨v, by simpa [pointValues, hOp, hItems] using hv, hKeyIs v hKey⟩
    · cases hMatch
  have hAdmits := admits_of_forall ((equalKey_matches hFilters hKey).mpr fun g hg hField => (hMatches g hg hField).2)
  refine ⟨points, v, hPoints, (mem_admittedPoints hAdmitted).mpr ⟨hv, hAdmits⟩, ?_⟩
  have hPresentField : (documentTupleField doc id f).missing = false := by
    cases hMissing : (documentTupleField doc id f).missing with
    | false => rfl
    | true =>
      rw [rawKey, hMissing] at hRaw
      exact absurd (ok.inj hRaw).symm hPresent
  have hOwn : rawKey ⟨(documentTupleField doc id f).value, fieldDirection f, false⟩ = .ok raw := by
    rw [← hRaw, ← hPresentField]
    rfl
  exact fieldBytes_of_raw (rawKey_of_key hKey hOwn)

def DocumentWords (t : Template) (doc : StoredDoc) (id : Bytes) (member : Value) (words : List Bytes) : Prop :=
  List.Forall₂ (fun f w => encodeField (tupleField doc id member f) = .ok w) t.fields words

variable {t : Template} {member : Value}

theorem encode_tupleFields {key : Bytes} (h : encode (tupleFields doc id t.fields member) id = .ok key) :
    ∃ words, DocumentWords t doc id member words ∧ key = tupleKey words id := by
  obtain ⟨words, hWords, rfl⟩ := encode_words h
  exact ⟨words, forall₂_map_left_iff.mp hWords, rfl⟩

variable {fields : List TemplateField}

theorem tupleField_direction (hFields : ValidFields fields) (hf : f ∈ fields) (doc : StoredDoc) (id : Bytes) (member : Value) :
    (tupleField doc id member f).direction = fieldDirection f := by
  unfold tupleField
  split
  · rename_i hMode
    obtain ⟨hOrder, -⟩ := hFields.membership f hf hMode
    rw [fieldDirection, if_neg hOrder]
  · rfl

variable {words : List Bytes}

theorem DocumentWords.tupleWords (hFields : ValidFields t.fields) (h : DocumentWords t doc id member words) :
    TupleWords t.fields words := by
  refine (forall₂_and_left (p := fun f => f ∈ t.fields) _ _).mpr ⟨fun f hf => hf, h⟩ |>.imp ?_
  rintro f w ⟨hf, hw⟩
  have hWord := encodeField_isWord hw
  rwa [tupleField_direction hFields hf] at hWord

theorem contains_satisfies_iff {p : Bytes} (hg : g.Normalized) (hOp : g.op = .opContains) (hKey : scalarKey g.value = .ok p)
    (hNormal : ∀ v, documentField doc id g.field = some v → ∃ w, normalizeValue v = .ok w) :
    Satisfies doc id g ↔ Offers doc id g.field p := by
  rw [satisfies_iff hg]
  constructor
  · rintro ⟨v, hv, hEval⟩
    obtain ⟨w, hw⟩ := hNormal v hv
    simp only [evaluateNormalizedFilter, Bool.not_true, Bool.false_eq_true, if_false, hw, hOp] at hEval
    split at hEval
    · obtain ⟨item, hItem, hEqual⟩ := List.any_eq_true.mp (ok.inj hEval)
      obtain ⟨k, hk, hk'⟩ := equalValues_eq_true_iff.mp hEqual
      cases ok.inj (hKey.symm.trans hk')
      obtain ⟨elements, rfl, hElements⟩ := normalizeValue_array hw
      obtain ⟨e, he, heNormal⟩ := forall₂_mem_right (normalizeItems_forall₂ hElements) hItem
      exact ⟨elements, hv, e, he, (scalarKey_of_normalized heNormal).symm.trans hk⟩
    · cases hEval
  · rintro ⟨elements, hElements, e, he, hk⟩
    obtain ⟨w, hw⟩ := hNormal _ hElements
    obtain ⟨items, hItems, rfl⟩ := map_eq_ok hw
    refine ⟨_, hElements, ?_⟩
    simp only [evaluateNormalizedFilter, Bool.not_true, Bool.false_eq_true, if_false, hw, hOp]
    obtain ⟨item, hItem, hItemNormal⟩ := forall₂_mem_left (normalizeItems_forall₂ hItems) he
    refine congrArg _ (List.any_eq_true.mpr ⟨item, hItem, equalValues_eq_true_iff.mpr ⟨p, ?_, hKey⟩⟩)
    exact (scalarKey_of_normalized hItemNormal).trans hk

theorem Chosen.contains (hMode : f.mode = .membership) (h : Chosen filters f w) :
    ∃ g, filters.find? (isContains f.field) = some g ∧
      fieldBytes g.value (fieldDirection f) = .ok w := by
  obtain ⟨points, v, hPoints, hv, hw⟩ := h
  simp only [fieldPoints, hMode, if_true] at hPoints
  split at hPoints
  · rename_i g hFind
    cases hPoints
    cases mem_singleton.mp hv
    exact ⟨g, hFind, hw⟩
  · cases hPoints

theorem chosen_contains (hMode : f.mode = .membership) (hFind : filters.find? (isContains f.field) = some g)
    (hw : fieldBytes g.value (fieldDirection f) = .ok w) : Chosen filters f w :=
  ⟨[g.value], g.value, by simp [fieldPoints, hMode, hFind], by simp, hw⟩

theorem find_contains (h : filters.find? (isContains field) = some g) : g ∈ filters ∧ g.field = field ∧ g.op = .opContains := by
  have hIs := find?_some h
  exact ⟨mem_of_find?_eq_some h, by simpa [isContains] using hIs⟩

theorem membership_direction (hFields : ValidFields fields) (hf : f ∈ fields) (hMode : f.mode = .membership) :
    fieldDirection f = .asc := by
  rw [fieldDirection, if_neg (hFields.membership f hf hMode).1]

variable {members : List Value}

theorem Uses.satisfies {i : Nat} (hFilters : ∀ g ∈ filters, g.Normalized) (hDoc : Projected t doc id members)
    (hMember : member ∈ members) (hf : f ∈ t.fields) (hw : encodeField (tupleField doc id member f) = .ok w)
    (hChosen : Chosen filters f w) (hUses : Uses filters f i) (hg : filters[i]? = some g) : Satisfies doc id g := by
  unfold Uses at hUses
  unfold tupleField at hw
  split at hUses
  · rename_i hMode
    obtain ⟨g', hFind, hBytes⟩ := hChosen.contains hMode
    obtain ⟨hg', hField, hOp⟩ := find_contains hFind
    have hSame : g' = g := by
      rw [hUses, ← find?_eq_getElem?_findIdx, hFind] at hg
      exact Option.some.inj hg
    subst hSame
    rw [if_pos hMode] at hw
    rw [membership_direction hDoc.fields hf hMode, fieldBytes_eq] at hBytes
    obtain ⟨p, hp, hpw⟩ := encodeField_spec hBytes
    obtain ⟨raw, hRaw, hRaww⟩ := encodeField_spec hw
    cases directed_inj (hpw.symm.trans hRaww)
    have hKey : scalarKey g'.value = .ok p := rawKey_scalar hp rfl
    refine (contains_satisfies_iff (hFilters _ hg') hOp hKey ?_).mpr ?_
    · rw [hField]
      exact hDoc.arrays f hf hMode
    · rw [hField]
      exact (hDoc.offered f hf hMode p).mp ⟨member, hMember, rawKey_scalar hRaw rfl⟩
  · rename_i hMode
    obtain ⟨g', hg', hField⟩ := hUses
    cases hg.symm.trans hg'
    rw [if_neg hMode] at hw
    exact hChosen.satisfies hFilters hMode hw (mem_of_getElem? hg) hField

theorem Passes.satisfies (hg : g.Normalized) (hField : g.field = f.field)
    (hw : encodeField (documentTupleField doc id f) = .ok w) : Passes (fieldDirection f) g w ↔ Satisfies doc id g := by
  obtain ⟨raw, hRaw, rfl⟩ := encodeField_spec hw
  rw [scalar_satisfies_iff hg hField hRaw]
  constructor
  · rintro ⟨c, raw', -, hEq, hPresent, hMatch⟩
    rw [directed_inj hEq]
    exact ⟨hPresent, hMatch⟩
  · rintro ⟨hPresent, hMatch⟩
    obtain ⟨c, -, hc⟩ := rawKey_encodes hRaw
    exact ⟨c, raw, hc, rfl, hPresent, hMatch⟩

variable {orderBy : List OrderField} {m : CandidateMetadata} {k : Nat}

variable (h : Compiled t filters orderBy m k)

include h

theorem Compiled.scalar_at (hf : t.fields[k]? = some f) : f.mode ≠ .membership := by
  intro hMode
  have hMem : f ∈ t.fields.drop k := by
    rw [split_at hf]
    exact mem_cons_self
  have hHas := hasMembership_of_mem hMem hMode
  rw [h.scalar] at hHas
  cases hHas

variable (hFilters : ∀ g ∈ filters, g.Normalized) (hDoc : Projected t doc id members)

include hFilters hDoc

theorem Compiled.access_satisfied (hMember : member ∈ members) (hWords : DocumentWords t doc id member words)
    (hCovered : ∃ b ∈ m.branches, b.Mem (tupleKey words id)) {i : Nat} {a : PredicateAssignment}
    (ha : m.assignments[i]? = some a) (hAccess : a.access = true) (hg : filters[i]? = some g) : Satisfies doc id g := by
  obtain ⟨hChosen, hRange⟩ := (h.covers words id (hWords.tupleWords hDoc.fields)).mp hCovered
  obtain ⟨f, hf, hUses⟩ | ⟨f, g', hf, hg', hRangeFilter⟩ := h.access i a ha hAccess
  · obtain ⟨w, hw, hEncode, hChosen⟩ : ∃ w ∈ words.take k,
        encodeField (tupleField doc id member f) = .ok w ∧ Chosen filters f w := by
      have hBoth := (forall₂_take k hWords).mp (fun f w hc he => And.intro hc he) hChosen
      exact forall₂_mem_left hBoth hf
    exact hUses.satisfies hFilters hDoc hMember (mem_of_mem_take hf) hEncode hChosen hg
  · cases hg.symm.trans hg'
    obtain ⟨w, hw, hEncode⟩ := forall₂_getElem? hWords hf
    rw [tupleField, if_neg (h.scalar_at hf)] at hEncode
    obtain ⟨hField, -⟩ : g.field = f.field ∧ g.op ≠ .opContains := by simpa [rangeFilter] using hRangeFilter
    have hgMem := mem_of_getElem? hg
    exact (Passes.satisfies (hFilters g hgMem) hField hEncode).mp (hRange f w hf hw g hgMem hRangeFilter)

theorem Compiled.exists_member (hAll : ∀ g ∈ filters, Satisfies doc id g) :
    ∃ member ∈ members, ∀ f ∈ t.fields.take k, f.mode = .membership →
      ∀ w, encodeField ⟨member, .asc, false⟩ = .ok w → Chosen filters f w := by
  cases hHas : hasMembership t.fields with
  | false =>
    refine ⟨.null, by simp [hDoc.plain hHas], fun f hf hMode => ?_⟩
    rw [hasMembership_of_mem (mem_of_mem_take hf) hMode] at hHas
    cases hHas
  | true =>
    obtain ⟨f, hf, hMode⟩ := List.any_eq_true.mp hHas
    replace hMode : f.mode = .membership := of_decide_eq_true hMode
    -- The membership field is among the fixed ones: none is left after them.
    have hFixed : f ∈ t.fields.take k := by
      obtain hTake | hDrop := mem_append.mp ((take_append_drop k t.fields).symm ▸ hf)
      · exact hTake
      have hRest := hasMembership_of_mem hDrop hMode
      rw [h.scalar] at hRest
      cases hRest
    obtain ⟨points, hPoints⟩ := h.points f hFixed
    simp only [fieldPoints, hMode, if_true] at hPoints
    split at hPoints
    · rename_i g hFind
      obtain ⟨hg, hField, hOp⟩ := find_contains hFind
      obtain ⟨-, -, -, -, hOperand, -⟩ := normalizeFilter_spec (hFilters g hg)
      obtain ⟨p, hp⟩ : ∃ p, scalarKey g.value = .ok p := by
        simp only [hOp, normalizeOperand] at hOperand
        split at hOperand
        · cases hOperand
        · rename_i p hp
          exact ⟨p, hp⟩
      have hOffer := (contains_satisfies_iff (hFilters g hg) hOp hp (hField ▸ hDoc.arrays f hf hMode)).mp (hAll g hg)
      rw [hField] at hOffer
      obtain ⟨member, hMember, hKey⟩ := (hDoc.offered f hf hMode p).mpr hOffer
      refine ⟨member, hMember, fun f' hf' hMode' w hw => ?_⟩
      cases hDoc.fields.membership_unique hf (mem_of_mem_take hf') hMode hMode'
      obtain ⟨raw, hRaw, rfl⟩ := encodeField_spec hw
      have hDirection := membership_direction hDoc.fields hf hMode
      cases ok.inj (hKey.symm.trans (rawKey_scalar hRaw rfl))
      refine chosen_contains hMode hFind ((fieldBytes_of_raw (rawKey_of_key hp hRaw)).trans ?_)
      rw [hDirection]
    · cases hPoints

theorem Compiled.exists_covered (hAll : ∀ g ∈ filters, Satisfies doc id g) :
    ∃ member ∈ members, ∃ words, DocumentWords t doc id member words ∧
      encode (tupleFields doc id t.fields member) id = .ok (tupleKey words id) ∧
      ∃ b ∈ m.branches, b.Mem (tupleKey words id) := by
  obtain ⟨member, hMember, hContains⟩ := h.exists_member hFilters hDoc hAll
  obtain ⟨key, hKey⟩ := hDoc.encoded member hMember
  obtain ⟨words, hWords, rfl⟩ := encode_tupleFields hKey
  refine ⟨member, hMember, words, hWords, hKey, (h.covers words id (hWords.tupleWords hDoc.fields)).mpr ⟨?_, ?_⟩⟩
  · refine (forall₂_and_left (p := fun f => f ∈ t.fields.take k) _ _).mpr
      ⟨fun f hf => hf, forall₂_take k hWords⟩ |>.imp ?_
    rintro f w ⟨hf, hw⟩
    by_cases hMode : f.mode = .membership
    · rw [tupleField, if_pos hMode] at hw
      exact hContains f hf hMode w hw
    rw [tupleField, if_neg hMode] at hw
    obtain ⟨points, hPoints⟩ := h.points f hf
    exact chosen_of_satisfies hFilters hMode hPoints hw fun g hg _ => hAll g hg
  · intro f w hf hw g hg hRange
    obtain ⟨w', hw', hEncode⟩ := forall₂_getElem? hWords hf
    cases hw.symm.trans hw'
    rw [tupleField, if_neg (h.scalar_at hf)] at hEncode
    obtain ⟨hField, -⟩ : g.field = f.field ∧ g.op ≠ .opContains := by simpa [rangeFilter] using hRange
    exact (Passes.satisfies (hFilters g hg) hField hEncode).mpr (hAll g hg)

end Syntrix.Index
