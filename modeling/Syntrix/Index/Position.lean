import Syntrix.Index.DocumentMatch

/-! # Positions

Rows of different branches are merged by their position: the words of the effective order, taken from
a row's words, with the document ID last. A position is the encoding of the document's own order
fields, and inside one branch positions are ordered as the keys are.
-/
namespace Syntrix.Index

open Lib OrderCode Model List

/-- The value a map holds after its entries were written one after another. -/
def latest (entries : List (Bytes × Bytes)) (key : Bytes) : Option Bytes := entries.reverse.lookup key

/-- The word of an order field among a row's words. A descending ID is a dimension of the template. -/
def positionWord (named : List (Bytes × Bytes)) (id : Bytes) (f : OrderField) : Except CandidateError Bytes :=
  match latest (named ++ [(idField, id)]) f.field with
  | none => .error .invalidPlan
  | some part => if f.field = idField ∧ f.direction = .desc then .ok ((latest named idField).getD part) else .ok part

def positionWords (named : List (Bytes × Bytes)) (id : Bytes) : List OrderField → Except CandidateError (List Bytes)
  | [] => .ok []
  | f :: rest => (positionWord named id f).bind fun part => (positionWords named id rest).map (part :: ·)

def CandidateMetadata.position (m : CandidateMetadata) (posting : Bytes) : Except CandidateError Bytes :=
  ((tupleParts posting).mapError .encoding).bind fun parts =>
    if parts.length ≠ m.template.fields.length + 1 then .error (.encoding .invalidOrderKey)
    else
      let named := (m.template.fields.map TemplateField.field).zip parts
      let id := parts.getLast?.getD []
      (positionWords named id (orderComponents m.effectiveOrder)).bind fun words =>
        let out := version :: (words.flatten ++ id)
        if maxCandidatePositionBytes < out.length then .error .workLimit else .ok out

def orderTupleField (doc : StoredDoc) (id : Bytes) (f : OrderField) : Field :=
  let value := documentField doc id f.field
  ⟨value.getD .null, f.direction, value.isNone⟩

def documentPosition (order : List OrderField) (doc : StoredDoc) (id : Bytes) : Except EncodingError Bytes :=
  encode ((orderComponents order).map (orderTupleField doc id)) id

def TemplateField.orderField (f : TemplateField) : OrderField := ⟨f.field, fieldDirection f⟩

theorem documentTupleField_eq (doc : StoredDoc) (id : Bytes) (f : TemplateField) :
    documentTupleField doc id f = orderTupleField doc id f.orderField := rfl

variable {words : List Bytes}

theorem lookup_zip_of_nodup {names : List Bytes} (hNames : names.Nodup) {i : Nat} {name word : Bytes}
    (hName : names[i]? = some name) (hWord : words[i]? = some word) : latest (names.zip words) name = some word := by
  unfold latest
  induction names generalizing words i with
  | nil => simp at hName
  | cons n names ih =>
    cases words with
    | nil => simp at hWord
    | cons w words =>
      obtain ⟨hFresh, hNodup⟩ := nodup_cons.mp hNames
      rw [zip_cons_cons, reverse_cons, lookup_append]
      cases i with
      | zero =>
        cases hName
        cases hWord
        have hNone : ((names.zip words).reverse).lookup name = none := by
          rw [lookup_eq_none_iff]
          rintro ⟨a, b⟩ hMem
          have := (of_mem_zip (mem_reverse.mp hMem)).1
          simp
          rintro rfl
          exact hFresh this
        rw [hNone]
        simp
      | succ i =>
        rw [ih hNodup hName hWord]
        rfl

theorem latest_append (entries : List (Bytes × Bytes)) (key value name : Bytes) :
    latest (entries ++ [(key, value)]) name = if name = key then some value else latest entries name := by
  unfold latest
  rw [reverse_append, reverse_singleton, singleton_append, lookup_cons]
  split
  · rename_i h
    rw [if_pos (by simpa using h)]
  · rename_i h
    rw [if_neg (by simpa using h)]

structure Row (t : Template) (doc : StoredDoc) (id : Bytes) (member : Value) (words : List Bytes) : Prop where
  fields : ValidFields t.fields
  words : DocumentWords t doc id member words
  idLength : id.length ≤ 65535
  idText : utf8Valid id = true

variable {doc : StoredDoc} {member : Value} {t : Template}

theorem row_of_encode {id key : Bytes} (hFields : ValidFields t.fields)
    (h : encode (tupleFields doc id t.fields member) id = .ok key) :
    ∃ words, Row t doc id member words ∧ key = tupleKey words id := by
  obtain ⟨words, hWords, rfl⟩ := encode_tupleFields h
  obtain ⟨-, -, -, hLength, hText⟩ := encode_spec h
  exact ⟨words, ⟨hFields, hWords, hLength, hText⟩, rfl⟩

theorem orderFieldFound_cases {fields : List TemplateField} {c : OrderField} (h : orderFieldFound fields c = true) :
    (∃ (i : Nat) (f : TemplateField), fields[i]? = some f ∧ f.mode ≠ .membership ∧ f.orderField = c) ∨
      c = ⟨idField, .asc⟩ ∧ idField ∉ fields.map TemplateField.field := by
  unfold orderFieldFound at h
  split at h
  · rename_i f hFind
    obtain ⟨hMode, hDirection⟩ : f.mode ≠ .membership ∧ fieldDirection f = c.direction := by simpa using h
    have hName : f.field = c.field := by simpa using find?_some hFind
    obtain ⟨i, hi⟩ := mem_iff_getElem?.mp (mem_of_find?_eq_some hFind)
    refine .inl ⟨i, f, hi, hMode, ?_⟩
    rw [TemplateField.orderField, hName, hDirection]
  · rename_i hFind
    obtain rfl := of_decide_eq_true h
    refine .inr ⟨rfl, fun hMem => ?_⟩
    obtain ⟨f, hf, hName⟩ := List.mem_map.mp hMem
    simpa [hName] using find?_eq_none.mp hFind f hf

variable {id : Bytes}

theorem Row.encode_id (h : Row t doc id member words) : encodeField (orderTupleField doc id ⟨idField, .asc⟩) = .ok (idWord id) := by
  exact encodeField_id h.idLength h.idText (.inl rfl)

theorem Row.positionWord (h : Row t doc id member words) {c : OrderField} (hFound : orderFieldFound t.fields c = true) :
    ∃ w, encodeField (orderTupleField doc id c) = .ok w ∧
      positionWord ((t.fields.map TemplateField.field).zip (words ++ [idWord id])) (idWord id) c = .ok w := by
  have hLength : (t.fields.map TemplateField.field).length = words.length := by
    rw [length_map, Forall₂.length_eq h.words]
  rw [zip_append_of_length_eq hLength]
  unfold Index.positionWord
  rw [latest_append]
  obtain ⟨i, f, hf, hMode, rfl⟩ | ⟨rfl, -⟩ := orderFieldFound_cases hFound
  · obtain ⟨w, hw, hWord⟩ := forall₂_getElem? h.words hf
    rw [tupleField, if_neg hMode, documentTupleField_eq] at hWord
    refine ⟨w, hWord, ?_⟩
    have hLatest : latest ((t.fields.map TemplateField.field).zip words) f.orderField.field = some w :=
      lookup_zip_of_nodup h.fields.unique (by rw [getElem?_map, hf]; rfl) hw
    by_cases hId : f.orderField.field = idField
    · rw [if_pos hId]
      rw [hId] at hLatest
      obtain hAsc | hDesc := fieldDirection_cases f
      · have hSame : f.orderField = ⟨idField, .asc⟩ := by rw [← hId, ← hAsc]; rfl
        rw [hSame, h.encode_id] at hWord
        have hDirection : f.orderField.direction ≠ .desc := by simp [TemplateField.orderField, hAsc]
        simp only [hId, hDirection, and_false, if_false]
        rw [Except.ok.inj hWord]
      · have hDirection : f.orderField.direction = .desc := hDesc
        simp [hId, hDirection, hLatest]
    · simp [hId, hLatest]
  · refine ⟨idWord id, h.encode_id, ?_⟩
    simp

def OrderWords (doc : StoredDoc) (id : Bytes) (order : List OrderField) (words : List Bytes) : Prop :=
  List.Forall₂ (fun c w => encodeField (orderTupleField doc id c) = .ok w) order words

variable {order : List OrderField}

theorem OrderWords.unique {ws vs : List Bytes} (hw : OrderWords doc id order ws) (hv : OrderWords doc id order vs) : ws = vs := by
  induction hw generalizing vs with
  | nil => cases hv; rfl
  | cons hHead _ ih =>
    cases hv with
    | cons hHead' hTail' => rw [Except.ok.inj (hHead.symm.trans hHead'), ih hTail']

theorem OrderWords.isWord {ws : List Bytes}
    (h : OrderWords doc id order ws) : Forall₂ IsWord (order.map OrderField.direction) ws :=
  forall₂_map_left_iff.mpr (h.imp fun _ _ hw => encodeField_isWord hw)

theorem encode_of_orderWords {ws : List Bytes} (hLength : id.length ≤ 65535) (hText : utf8Valid id = true)
    (h : OrderWords doc id order ws) : encode (order.map (orderTupleField doc id)) id = .ok (tupleKey ws id) := by
  have hFields : encodeFields (order.map (orderTupleField doc id)) = .ok ws.flatten := by
    induction h with
    | nil => rfl
    | cons hHead _ ih => simp [encodeFields, hHead, ih, Except.bind, Except.map]
  have hId : encodeField ⟨.string id, .asc, false⟩ = .ok (idWord id) := encodeField_id hLength hText (.inl rfl)
  simp [encode, Nat.not_lt.mpr hLength, hText, encodePrefix, hFields, hId, Except.bind, Except.map, tupleKey]

theorem Row.positionWords (h : Row t doc id member words) (hFound : ∀ c ∈ order, orderFieldFound t.fields c = true) :
    ∃ ws, OrderWords doc id order ws ∧
      positionWords ((t.fields.map TemplateField.field).zip (words ++ [idWord id])) (idWord id) order = .ok ws := by
  induction order with
  | nil => exact ⟨[], .nil, rfl⟩
  | cons c order ih =>
    obtain ⟨w, hWord, hPosition⟩ := h.positionWord (hFound c mem_cons_self)
    obtain ⟨ws, hWords, hPositions⟩ := ih fun c hc => hFound c (mem_cons_of_mem _ hc)
    refine ⟨w :: ws, .cons hWord hWords, ?_⟩
    rw [Index.positionWords, hPosition, hPositions]
    rfl

theorem Row.position (h : Row t doc id member words) {m : CandidateMetadata} (hTemplate : m.template = t)
    (hFound : ∀ c ∈ orderComponents m.effectiveOrder, orderFieldFound t.fields c = true) :
    ∃ ws, OrderWords doc id (orderComponents m.effectiveOrder) ws ∧
      documentPosition m.effectiveOrder doc id = .ok (tupleKey ws id) ∧
      m.position (tupleKey words id) = if maxCandidatePositionBytes < (tupleKey ws id).length
        then .error .workLimit else .ok (tupleKey ws id) := by
  obtain ⟨ws, hWords, hPositions⟩ := h.positionWords hFound
  refine ⟨ws, hWords, encode_of_orderWords h.idLength h.idText hWords, ?_⟩
  have hParts := tupleParts_tupleKey (h.words.tupleWords h.fields).isWord id
  have hLength : (words ++ [idWord id]).length = m.template.fields.length + 1 := by
    rw [hTemplate, length_append, Forall₂.length_eq h.words, length_singleton]
  unfold CandidateMetadata.position
  simp only [hParts, Except.mapError, Except.bind, hLength, ne_eq, not_true, if_false, hTemplate,
    getLast?_append, getLast?_singleton, Option.some_or, Option.getD_some, hPositions]
  rfl

end Syntrix.Index
