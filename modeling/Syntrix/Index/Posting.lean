import Syntrix.Index.Tuple

/-! # Postings of a document

What a successful projection guarantees: every scalar field of the template has a key or is
missing, and the postings are the tuples of the document with each of its members.
-/
namespace Syntrix.Index

open Lib OrderCode Model List

theorem scalarKey_of_container {v : Value} (hNormal : normalizeValue v = .ok v) (h : isContainer v = true)
    (k : Bytes) : scalarKey v ≠ .ok k := by
  intro hKey
  rw [scalarKey, hNormal] at hKey
  cases v <;> first | cases hKey; done | cases h

variable {limits : ProjectionLimits}

variable {elements members : List Value} {seen : List Bytes} {j : Nat} {field : Bytes}

theorem collectMembers_spec (h : collectMembers limits field j seen elements = .ok members) :
    (∀ m ∈ members, ∃ k, scalarKey m = .ok k) ∧
      ∀ k, k ∈ seen ∨ (∃ m ∈ members, scalarKey m = .ok k) ↔
        k ∈ seen ∨ ∃ e ∈ elements, scalarKey e = .ok k := by
  induction elements generalizing j seen members with
  | nil => cases h; simp
  | cons element rest ih =>
    simp only [collectMembers] at h
    split at h
    · cases h
    rename_i member hNormal
    have hSame : scalarKey member = scalarKey element := scalarKey_of_normalized hNormal
    split at h
    · rename_i hContainer
      obtain ⟨hKeys, hIff⟩ := ih h
      refine ⟨hKeys, fun k => (hIff k).trans ?_⟩
      have hNone := scalarKey_of_container (normalizeValue_idem _ _ hNormal) hContainer k
      rw [hSame] at hNone
      simp [hNone]
    · split at h
      · cases h
      rename_i key hKey
      rw [hSame] at hKey
      split at h
      · rename_i hSeen
        obtain ⟨hKeys, hIff⟩ := ih h
        refine ⟨hKeys, fun k => (hIff k).trans ?_⟩
        have hMem : key ∈ seen := by simpa using hSeen
        constructor
        · rintro (hk | ⟨e, he, hk⟩)
          · exact .inl hk
          · exact .inr ⟨e, mem_cons_of_mem _ he, hk⟩
        · rintro (hk | ⟨e, he, hk⟩)
          · exact .inl hk
          · obtain rfl | he := mem_cons.mp he
            · rw [hKey] at hk
              cases hk
              exact .inl hMem
            · exact .inr ⟨e, he, hk⟩
      · split at h
        · cases h
        · obtain ⟨tail, hTail, rfl⟩ := map_eq_ok h
          grind

theorem collectMembers_normalizes (h : collectMembers limits field j seen elements = .ok members) (i : Nat) :
    ∃ out, normalizeItems i elements = .ok out := by
  induction elements generalizing i j seen members with
  | nil => exact ⟨[], rfl⟩
  | cons element rest ih =>
    simp only [collectMembers] at h
    split at h
    · cases h
    rename_i member hNormal
    have hTail : ∃ out, normalizeItems (i + 1) rest = .ok out := by
      split at h
      · exact ih h (i + 1)
      split at h
      · cases h
      split at h
      · exact ih h (i + 1)
      split at h
      · cases h
      · obtain ⟨tail, hTail, -⟩ := map_eq_ok h
        exact ih hTail (i + 1)
    obtain ⟨out, hOut⟩ := hTail
    exact ⟨member :: out, by simp [normalizeItems, hNormal, hOut, Except.map]⟩

def Offers (doc : StoredDoc) (id field k : Bytes) : Prop :=
  ∃ elements, documentField doc id field = some (.array elements) ∧ ∃ e ∈ elements, scalarKey e = .ok k

variable {doc : StoredDoc}

variable {f : TemplateField} {id : Bytes}

theorem membersOfField_spec (h : membersOfField limits doc id f = .ok members) :
    (∀ v, documentField doc id f.field = some v → ∃ w, normalizeValue v = .ok w) ∧
      (∀ m ∈ members, ∃ k, scalarKey m = .ok k) ∧
      ∀ k, (∃ m ∈ members, scalarKey m = .ok k) ↔ Offers doc id f.field k := by
  unfold membersOfField at h
  split at h
  · rename_i hField
    cases h
    simp [Offers, hField]
  · rename_i hField
    cases h
    simp [Offers, hField, normalizeValue]
  · rename_i elements hField
    split at h
    · cases h
    obtain ⟨hKeys, hIff⟩ := collectMembers_spec h
    obtain ⟨out, hOut⟩ := collectMembers_normalizes h 0
    refine ⟨?_, hKeys, fun k => ?_⟩
    · intro v hv
      cases hField.symm.trans hv
      exact ⟨.array out, by simp [normalizeValue, hOut, Except.map]⟩
    have hk := hIff k
    simp only [not_mem_nil, false_or] at hk
    rw [hk]
    simp [Offers, hField]
  · rename_i value hNull hArray hField
    split at h
    · cases h
    rename_i w hNormal
    cases h
    have hNone : ∀ k, ¬ Offers doc id f.field k := by
      rintro k ⟨elements, hElements, -⟩
      rw [hField] at hElements
      exact hArray elements (Option.some.inj hElements)
    simp [hNone, hField, hNormal]

variable {fields : List TemplateField}

theorem collectFields_spec {start : List Value} (h : collectFields limits doc id fields start = .ok members) :
    (∀ f ∈ fields, f.mode ≠ .membership → checkScalarField doc id f = .ok ()) ∧
      (∀ f ∈ fields, f.mode = .membership →
        ∀ v, documentField doc id f.field = some v → ∃ w, normalizeValue v = .ok w) ∧
      ∃ found, members = start ++ found ∧ (∀ m ∈ found, ∃ k, scalarKey m = .ok k) ∧
        ∀ k, (∃ m ∈ found, scalarKey m = .ok k) ↔
          ∃ f ∈ fields, f.mode = .membership ∧ Offers doc id f.field k := by
  induction fields generalizing start with
  | nil => cases h; exact ⟨by simp, by simp, [], by simp, by simp, by simp⟩
  | cons f rest ih =>
    simp only [collectFields] at h
    split at h
    · rename_i hMode
      obtain ⟨found, hFound, hRest⟩ := bind_eq_ok h
      obtain ⟨hChecks, hArrays, more, hMore, hKeys, hIff⟩ := ih hRest
      obtain ⟨hArray, hKeys', hIff'⟩ := membersOfField_spec hFound
      refine ⟨forall_mem_cons.mpr ⟨fun hNot => absurd hMode hNot, hChecks⟩,
        forall_mem_cons.mpr ⟨fun _ => hArray, hArrays⟩, found ++ more, ?_, ?_, ?_⟩
      · rw [hMore, append_assoc]
      · intro m hm
        obtain hm | hm := mem_append.mp hm
        · exact hKeys' m hm
        · exact hKeys m hm
      · intro k
        simp only [mem_append, or_and_right, exists_or, hIff k, hIff' k, exists_mem_cons_iff,
          hMode, true_and]
    · rename_i hMode
      obtain ⟨_, hCheck, hRest⟩ := bind_eq_ok h
      obtain ⟨hChecks, hArrays, more, hMore, hKeys, hIff⟩ := ih hRest
      refine ⟨forall_mem_cons.mpr ⟨fun _ => hCheck, hChecks⟩,
        forall_mem_cons.mpr ⟨fun hIs => absurd hIs hMode, hArrays⟩, more, hMore, hKeys, fun k => ?_⟩
      rw [hIff k]
      simp [hMode]

variable {keys : List Bytes}

theorem encodePostings_spec {n : Nat} (h : encodePostings limits doc id fields n members = .ok keys) :
    Forall₂ (fun m key => encode (tupleFields doc id fields m) id = .ok key) members keys := by
  induction members generalizing n keys with
  | nil => cases h; exact .nil
  | cons m rest ih =>
    obtain ⟨key, hKey, hRest⟩ := bind_eq_ok h
    split at hRest
    · cases hRest
    · obtain ⟨tail, hTail, rfl⟩ := map_eq_ok hRest
      exact .cons (mapError_eq_ok hKey) (ih hTail)

theorem ValidFields.membership_unique (h : ValidFields fields) {g : TemplateField} (hf : f ∈ fields) (hg : g ∈ fields)
    (hfMode : f.mode = .membership) (hgMode : g.mode = .membership) : f = g := by
  have hf' : f ∈ fields.filter fun f => f.mode = .membership := by simp [hf, hfMode]
  have hg' : g ∈ fields.filter fun f => f.mode = .membership := by simp [hg, hgMode]
  obtain ⟨x, hx⟩ := length_eq_one_iff.mp (le_antisymm h.single (length_pos_of_mem hf'))
  rw [hx, mem_singleton] at hf' hg'
  rw [hf', hg']

theorem hasMembership_of_mem (hf : f ∈ fields) (hMode : f.mode = .membership) : hasMembership fields = true :=
  List.any_eq_true.mpr ⟨f, hf, by simpa using hMode⟩

/-- A document under a template: its logical ID, checked scalar fields and members. -/
structure Projected (t : Template) (doc : StoredDoc) (id : Bytes) (members : List Value) : Prop where
  identity : logicalDocumentID doc = .ok id
  idText : utf8Valid id = true
  fields : ValidFields t.fields
  scalars : ∀ f ∈ t.fields, f.mode ≠ .membership → checkScalarField doc id f = .ok ()
  arrays : ∀ f ∈ t.fields, f.mode = .membership →
    ∀ v, documentField doc id f.field = some v → ∃ w, normalizeValue v = .ok w
  plain : hasMembership t.fields = false → members = [.null]
  keyed : ∀ m ∈ members, ∃ k, scalarKey m = .ok k
  offered : ∀ f ∈ t.fields, f.mode = .membership →
    ∀ k, (∃ m ∈ members, scalarKey m = .ok k) ↔ Offers doc id f.field k
  encoded : ∀ m ∈ members, ∃ key, encode (tupleFields doc id t.fields m) id = .ok key

variable {t : Template}

theorem projected_of_parts {position : Bytes} {found : List Value} (hIdentity : logicalDocumentID doc = .ok id)
    (hFields : ValidFields t.fields)
    (hPosition : encode ((t.fields.filter fun f => f.mode ≠ .membership).map (documentTupleField doc id)) id = .ok position)
    (hFound : collectFields limits doc id t.fields [] = .ok found)
    (hPostings : Forall₂ (fun m key => encode (tupleFields doc id t.fields m) id = .ok key) (if hasMembership t.fields then found else [.null]) keys) :
    Projected t doc id (if hasMembership t.fields then found else [.null]) := by
  obtain ⟨-, -, -, -, hText⟩ := encode_spec hPosition
  obtain ⟨hScalars, hArrays, found', hEq, hKeyed, hOffered⟩ := collectFields_spec hFound
  subst hEq
  refine ⟨hIdentity, hText, hFields, hScalars, hArrays, ?_, ?_, ?_, ?_⟩
  · intro hPlain
    rw [hPlain]
    rfl
  · intro m hm
    split at hm
    · exact hKeyed m hm
    · rw [mem_singleton.mp hm]
      exact ⟨_, rfl⟩
  · intro f hf hMode k
    rw [if_pos (hasMembership_of_mem hf hMode), hOffered k]
    constructor
    · rintro ⟨g, hg, hgMode, hOffer⟩
      rwa [hFields.membership_unique hf hg hMode hgMode]
    · intro hOffer
      exact ⟨f, hf, hMode, hOffer⟩
  · intro m hm
    obtain ⟨key, -, hKey⟩ := forall₂_mem_left hPostings hm
    exact ⟨key, hKey⟩

theorem buildDocumentProjection_spec {fingerprint : Template → Bytes} {generation : Bytes} {projection : Projection}
    (h : buildDocumentProjection fingerprint doc t generation limits = .ok projection) :
    ∃ id, projection.documentID = id ∧ logicalDocumentID doc = .ok id ∧
      projection.index = ⟨doc.database, doc.collection, fingerprint t, generation⟩ ∧
      ((doc.deleted && !t.includeDeleted) = true ∧ projection.postingKeys = [] ∨
        (doc.deleted && !t.includeDeleted) = false ∧
          ∃ members, Projected t doc id members ∧
            ∀ key, key ∈ projection.postingKeys ↔
              ∃ m ∈ members, encode (tupleFields doc id t.fields m) id = .ok key) := by
  unfold buildDocumentProjection at h
  split at h
  · cases h
  obtain ⟨_, hTemplate, h⟩ := bind_eq_ok h
  obtain ⟨id, hIdentity, h⟩ := bind_eq_ok h
  replace hIdentity := mapError_eq_ok hIdentity
  have hFields := validateTemplate_spec (mapError_eq_ok hTemplate)
  split at h
  · cases h
  split at h
  · rename_i hDeleted
    cases h
    exact ⟨id, rfl, hIdentity, rfl, .inl ⟨hDeleted, rfl⟩⟩
  · rename_i hDeleted
    obtain ⟨found, hFound, h⟩ := bind_eq_ok h
    obtain ⟨position, hPosition, h⟩ := bind_eq_ok h
    split at h
    · cases h
    obtain ⟨keys, hKeys, rfl⟩ := map_eq_ok h
    have hPostings := encodePostings_spec hKeys
    refine ⟨id, rfl, hIdentity, rfl, .inr ⟨by simpa using hDeleted,
      if hasMembership t.fields then found else [.null], ?_, fun key => ?_⟩⟩
    · exact projected_of_parts hIdentity hFields (mapError_eq_ok hPosition) hFound hPostings
    · rw [sortKeys, mem_insertionSort]
      constructor
      · exact fun hKey => forall₂_mem_right hPostings hKey
      · rintro ⟨m, hm, hEncode⟩
        obtain ⟨key', hKey', hEncode'⟩ := forall₂_mem_left hPostings hm
        rw [Except.ok.inj (hEncode.symm.trans hEncode')]
        exact hKey'

end Syntrix.Index
