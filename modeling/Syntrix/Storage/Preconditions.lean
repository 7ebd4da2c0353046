import Syntrix.Lib.KeyValue
import Syntrix.Storage.DocumentStore

/-! # Preconditions of writes

The filters of a write become a selector of the database, a map with one condition for every stored field.
A later filter of a field replaces an earlier one, and the identity of the record replaces a filter of its
key, so a selector asks for all filters exactly when no field is asked for in two ways.
-/
namespace Syntrix.Storage

open Lib Model Index KeyValue

inductive MongoOp where
  | eq
  | ne
  | gt
  | gte
  | lt
  | lte
  | isIn
deriving DecidableEq

def mapOp : FilterOp → Option MongoOp
  | .opEq => some .eq
  | .opNe => some .ne
  | .opGt => some .gt
  | .opGte => some .gte
  | .opLt => some .lt
  | .opLte => some .lte
  | .opIn => some .isIn
  | .opContains => none
  | .other _ => none

def envelopeFields : List (Bytes × Bytes) :=
  [(text "_id", text "_id"), (text "collection", text "collection"), (text "collectionHash", text "collection_hash"),
    (text "updatedAt", text "updated_at"), (text "createdAt", text "created_at"), (text "version", text "version")]

def mapField (field : Bytes) : Bytes := (envelopeFields.lookup field).getD (text "data." ++ field)

inductive Condition where
  | value (v : Value)
  | compare (op : MongoOp) (v : Value)

abbrev Selector := KeyValue Byte Condition

/-- The entry a filter sets; one with another operator is passed over. -/
def filterEntry (f : Model.Filter) : Option (Bytes × Condition) :=
  (mapOp f.op).map fun op => (mapField f.field, .compare op f.value)

def makeFilterBSON (filters : List Model.Filter) : Selector := setAll ∅ (filters.filterMap filterEntry)

/-- The record of a live document, with the preconditions of its change. -/
def writeSelector (precond : List Model.Filter) (id database : Bytes) : Selector :=
  ((((makeFilterBSON precond).insert (text "_id") (.value (.string id))).insert (text "database")
    (.value (.string database))).insert (text "deleted") (.compare .ne (.bool true)))

section Selectors

variable {Doc : Type} (holds : Doc → Bytes → MongoOp → Value → Bool)

def Condition.matches (doc : Doc) (key : Bytes) : Condition → Bool
  | .value v => holds doc key .eq v
  | .compare op v => holds doc key op v

def Selector.Matches (selector : Selector) (doc : Doc) : Prop :=
  ∀ (key : Bytes) (c : Condition), selector[key]? = some c → c.matches holds doc key = true

def Satisfies (f : Model.Filter) (doc : Doc) : Prop :=
  ∃ op, mapOp f.op = some op ∧ holds doc (mapField f.field) op f.value = true

def Asks (selector : Selector) (f : Model.Filter) : Prop :=
  ∃ op, mapOp f.op = some op ∧ selector[mapField f.field]? = some (.compare op f.value)

/-- The records a selector matches satisfy every filter, and it has a condition for each of them. -/
def Conjunctive (filters : List Model.Filter) (selector : Selector) : Prop :=
  (∀ doc, selector.Matches holds doc → ∀ f ∈ filters, Satisfies holds f doc) ∧ ∀ f ∈ filters, Asks selector f

end Selectors

theorem mapOp_inj {op op' : FilterOp} {o : MongoOp} (h : mapOp op = some o) (h' : mapOp op' = some o) : op = op' := by
  cases op <;> cases h <;> cases op' <;> cases h' <;> rfl

theorem envelopeFields_lookup {field name : Bytes} (h : envelopeFields.lookup field = some name) :
    (field, name) ∈ envelopeFields := by
  obtain ⟨l, l', hSplit, -⟩ := List.lookup_eq_some_iff.mp h
  rw [hSplit]
  simp

theorem envelopeFields_inj : ∀ x ∈ envelopeFields, ∀ y ∈ envelopeFields, x.2 = y.2 → x.1 = y.1 := by decide

theorem envelopeFields_head : ∀ x ∈ envelopeFields, x.2.head? ≠ some 0x64 := by decide

theorem mapField_inj {field field' : Bytes} (h : mapField field = mapField field') : field = field' := by
  unfold mapField at h
  cases hName : envelopeFields.lookup field with
  | none =>
    cases hName' : envelopeFields.lookup field' with
    | none =>
      rw [hName, hName'] at h
      exact List.append_cancel_left h
    | some name' =>
      rw [hName, hName'] at h
      refine absurd ?_ (envelopeFields_head _ (envelopeFields_lookup hName'))
      exact congrArg List.head? h.symm
  | some name =>
    cases hName' : envelopeFields.lookup field' with
    | none =>
      rw [hName, hName'] at h
      refine absurd ?_ (envelopeFields_head _ (envelopeFields_lookup hName))
      exact congrArg List.head? h
    | some name' =>
      rw [hName, hName'] at h
      exact envelopeFields_inj _ (envelopeFields_lookup hName) _ (envelopeFields_lookup hName') h

theorem mapField_cases (field : Bytes) : (field, mapField field) ∈ envelopeFields ∨ mapField field = text "data." ++ field := by
  unfold mapField
  cases hName : envelopeFields.lookup field with
  | none => exact .inr rfl
  | some name => exact .inl (envelopeFields_lookup hName)

theorem mapField_ne (field : Bytes) : mapField field ≠ text "database" ∧ mapField field ≠ text "deleted" := by
  obtain hEnvelope | hData := mapField_cases field
  · have hAll : ∀ x ∈ envelopeFields, x.2 ≠ text "database" ∧ x.2 ≠ text "deleted" := by decide
    exact hAll _ hEnvelope
  rw [hData]
  constructor
  · intro h
    exact absurd (congrArg (fun s : Bytes => s[4]?) h) (by simp [text])
  · intro h
    exact absurd (congrArg (fun s : Bytes => s[1]?) h) (by simp [text])

theorem mapField_id {field : Bytes} : mapField field = text "_id" ↔ field = text "_id" := by
  have hSelf : mapField (text "_id") = text "_id" := by decide
  constructor
  · intro h
    exact mapField_inj (h.trans hSelf.symm)
  · rintro rfl
    exact hSelf

section Results

variable {filters : List Model.Filter} {id database : Bytes}

theorem writeSelector_get (field : Bytes) : (writeSelector filters id database)[mapField field]? =
    if field = text "_id" then some (.value (.string id)) else (makeFilterBSON filters)[mapField field]? := by
  obtain ⟨hDatabase, hDeleted⟩ := mapField_ne field
  rw [writeSelector, getElem?_insert, if_neg hDeleted.symm, getElem?_insert, if_neg hDatabase.symm,
    getElem?_insert]
  by_cases hId : field = text "_id"
  · rw [if_pos (mapField_id.mpr hId).symm, if_pos hId]
  · rw [if_neg fun h => hId (mapField_id.mp h.symm), if_neg hId]

theorem makeFilterBSON_get {f : Model.Filter} (hf : f ∈ filters) {op : MongoOp} (hOp : mapOp f.op = some op) :
    ∃ g ∈ filters, g.field = f.field ∧ ∃ op', mapOp g.op = some op' ∧
      (makeFilterBSON filters)[mapField f.field]? = some (.compare op' g.value) := by
  have hEntry : (mapField f.field, Condition.compare op f.value) ∈ filters.filterMap filterEntry :=
    List.mem_filterMap.mpr ⟨f, hf, by simp [filterEntry, hOp]⟩
  obtain ⟨c, hc, hGet⟩ | ⟨hNot, -⟩ :=
    getElem?_setAll (∅ : Selector) (filters.filterMap filterEntry) (mapField f.field)
  · obtain ⟨g, hg, hSet⟩ := List.mem_filterMap.mp hc
    obtain ⟨op', hOp', hEq⟩ := Option.map_eq_some_iff.mp hSet
    obtain ⟨hField, rfl⟩ := Prod.mk.inj hEq
    exact ⟨g, hg, mapField_inj hField, op', hOp', hGet⟩
  · exact absurd (List.mem_map_of_mem hEntry) hNot

theorem Asks.satisfies {Doc : Type} {holds : Doc → Bytes → MongoOp → Value → Bool} {selector : Selector}
    {f : Model.Filter} (h : Asks selector f) {doc : Doc} (hDoc : selector.Matches holds doc) : Satisfies holds f doc := by
  obtain ⟨op, hOp, hGet⟩ := h
  exact ⟨op, hOp, hDoc _ _ hGet⟩

/-- The filters are all asked for when none is on the record's key and no two ask for one field differently. -/
theorem writeSelector_asks (hSupported : ∀ f ∈ filters, (mapOp f.op).isSome) (hKey : ∀ f ∈ filters, f.field ≠ text "_id")
    (hSame : ∀ f ∈ filters, ∀ g ∈ filters, f.field = g.field → f.op = g.op ∧ f.value = g.value) :
    ∀ f ∈ filters, Asks (writeSelector filters id database) f := by
  intro f hf
  obtain ⟨op, hOp⟩ := Option.isSome_iff_exists.mp (hSupported f hf)
  obtain ⟨g, hg, hField, op', hOp', hGet⟩ := makeFilterBSON_get hf hOp
  obtain ⟨hOps, hValues⟩ := hSame g hg f hf hField
  rw [hOps, hOp] at hOp'
  cases hOp'
  refine ⟨op, hOp, ?_⟩
  rw [writeSelector_get, if_neg (hKey f hf), hGet, hValues]

/-- The selector of a write asks for all its filters exactly when none is on the record's key and no two
ask for one field differently. -/
theorem writeSelector_conjunctive {Doc : Type} (holds : Doc → Bytes → MongoOp → Value → Bool)
    (hSupported : ∀ f ∈ filters, (mapOp f.op).isSome) :
    Conjunctive holds filters (writeSelector filters id database) ↔
      (∀ f ∈ filters, f.field ≠ text "_id") ∧
        ∀ f ∈ filters, ∀ g ∈ filters, f.field = g.field → f.op = g.op ∧ f.value = g.value := by
  constructor
  · rintro ⟨-, hAsks⟩
    constructor
    · rintro f hf hId
      obtain ⟨op, hOp, hGet⟩ := hAsks f hf
      rw [writeSelector_get, if_pos hId] at hGet
      cases hGet
    · intro f hf g hg hField
      obtain ⟨op, hOp, hGet⟩ := hAsks f hf
      obtain ⟨op', hOp', hGet'⟩ := hAsks g hg
      rw [hField, hGet'] at hGet
      obtain ⟨rfl, hValue⟩ := Condition.compare.inj (Option.some.inj hGet)
      exact ⟨mapOp_inj hOp hOp', hValue.symm⟩
  · rintro ⟨hKey, hSame⟩
    have hAsks := @writeSelector_asks filters id database hSupported hKey hSame
    exact ⟨fun doc hDoc f hf => (hAsks f hf).satisfies hDoc, hAsks⟩

end Results

section Records

def scalarEq : Value → Value → Bool
  | .null, .null => true
  | .bool a, .bool b => decide (a = b)
  | .int a, .int b => decide (a = b)
  | .string a, .string b => decide (a = b)
  | _, _ => false

def scalarLt : Value → Value → Bool
  | .int a, .int b => decide (a < b)
  | .string a, .string b => decide (a < b)
  | _, _ => false

def MongoOp.onScalar (v operand : Value) : MongoOp → Bool
  | .eq => scalarEq v operand
  | .ne => !scalarEq v operand
  | .gt => scalarLt operand v
  | .gte => scalarLt operand v || scalarEq v operand
  | .lt => scalarLt v operand
  | .lte => scalarLt v operand || scalarEq v operand
  | .isIn => match operand with
    | .array items => items.any (scalarEq v)
    | _ => false

/-- The scalars of a record that selectors of writes name, its key given apart. -/
def recordField (id : Bytes) (doc : StoredDoc) (key : Bytes) : Value :=
  if key = text "_id" then .string id
  else if key = text "database" then .string doc.database
  else if key = text "deleted" then .bool doc.deleted
  else if key = text "version" then .int doc.version
  else .null

def recordHolds (id : Bytes) (doc : StoredDoc) (key : Bytes) (op : MongoOp) (operand : Value) : Bool :=
  op.onScalar (recordField id doc key) operand

def versionFilter (op : FilterOp) (v : Int64) : Model.Filter := ⟨text "version", op, .int v⟩

theorem writeSelector_conjunctive_version :
    Conjunctive (recordHolds (text "k")) [versionFilter .opEq 3] (writeSelector [versionFilter .opEq 3] (text "k") (text "db")) :=
  (writeSelector_conjunctive (recordHolds (text "k")) (by simp [versionFilter, mapOp])).mpr
    ⟨by simp [versionFilter, text], by simp⟩

/-- Of two bounds on one field only the second is asked for: a record below the first is matched. -/
theorem range_precondition_lost :
    ¬ ∀ filters : List Model.Filter, (∀ f ∈ filters, (mapOp f.op).isSome) → ∀ doc : StoredDoc,
      (writeSelector filters (text "k") (text "db")).Matches (recordHolds (text "k")) doc →
        ∀ f ∈ filters, Satisfies (recordHolds (text "k")) f doc := by
  intro hAll
  have hMatches : (writeSelector [versionFilter .opGte 5, versionFilter .opLte 9] (text "k") (text "db")).Matches
      (recordHolds (text "k")) ⟨text "db", text "notes/a", text "notes", 0, 0, 1, [], false⟩ := by
    have hEntries : (writeSelector [versionFilter .opGte 5, versionFilter .opLte 9] (text "k") (text "db")).toList.all
        (fun x => x.2.matches (recordHolds (text "k")) ⟨text "db", text "notes/a", text "notes", 0, 0, 1, [], false⟩ x.1) =
          true := by decide +kernel
    intro key c hGet
    exact List.all_eq_true.mp hEntries _ (mem_toList.mpr hGet)
  obtain ⟨op, hOp, hHolds⟩ := hAll _ (by simp [versionFilter, mapOp]) _ hMatches (versionFilter .opGte 5) (by simp)
  cases hOp
  exact absurd hHolds (by decide)

end Records

end Syntrix.Storage
