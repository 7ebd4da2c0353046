import Syntrix.Index.OrderKey
import Syntrix.Model.FilterKey

/-! # Index templates

A template names the collections it indexes by a path pattern and lists the fields of its tuples,
at most one of them a membership field that contributes one tuple per array element.
-/
namespace Syntrix.Index

open Lib Model List

inductive FieldOrder where
  | unset
  | asc
  | desc
  | other (text : Bytes)
deriving DecidableEq

inductive FieldMode where
  | unset
  | scalar
  | membership
  | other (text : Bytes)
deriving DecidableEq

structure TemplateField where
  field : Bytes
  order : FieldOrder
  mode : FieldMode := .unset
deriving DecidableEq

structure Template where
  name : Bytes
  collectionPattern : Bytes
  fields : List TemplateField
  includeDeleted : Bool
deriving DecidableEq

def slash : Byte := 0x2F

/-- `strings.Split(path, "/")`. -/
def segments (path : Bytes) : List Bytes := path.splitOn slash

/-- The regular expression `^\{[^}]+\}$`. -/
def isVariable : Bytes → Bool
  | [] => false
  | b :: rest =>
    decide (b = 0x7B) && decide (rest.getLast? = some 0x7D) && decide (2 ≤ rest.length) &&
      !rest.dropLast.contains 0x7D

inductive TemplateError where
  | emptyPattern
  | emptySegment
  | noFields
  | invalidField (cause : FilterError)
  | invalidDirection (field : Bytes)
  | multipleMembership
  | membershipOrder (field : Bytes)
  | metadataMembership (field : Bytes)
  | invalidMode (field : Bytes) (mode : FieldMode)
  | duplicateField (field : Bytes)
deriving DecidableEq

def metadataFields : List Bytes :=
  [text "id", text "collection", text "version", text "createdAt", text "updatedAt", text "deleted"]

def validateMode (f : TemplateField) (membershipFields : Nat) : Except TemplateError Nat :=
  match f.mode with
  | .unset | .scalar =>
    if f.order = .asc ∨ f.order = .desc then .ok membershipFields else .error (.invalidDirection f.field)
  | .membership =>
    if 0 < membershipFields then .error .multipleMembership
    else if f.order ≠ .unset ∧ f.order ≠ .asc then .error (.membershipOrder f.field)
    else if f.field ∈ metadataFields then .error (.metadataMembership f.field)
    else .ok (membershipFields + 1)
  | .other _ => .error (.invalidMode f.field f.mode)

def validateFields : List Bytes → Nat → List TemplateField → Except TemplateError Unit
  | _, _, [] => .ok ()
  | seen, membershipFields, f :: rest =>
    match validateQueryField f.field with
    | .error e => .error (.invalidField e)
    | .ok _ =>
      (validateMode f membershipFields).bind fun count =>
        if f.field ∈ seen then .error (.duplicateField f.field)
        else validateFields (f.field :: seen) count rest

def validateTemplate (t : Template) : Except TemplateError Unit :=
  if t.collectionPattern = [] then .error .emptyPattern
  else if [] ∈ segments t.collectionPattern then .error .emptySegment
  else if t.fields = [] then .error .noFields
  else validateFields [] 0 t.fields

def fieldDirection (f : TemplateField) : Direction := if f.order = .desc then .desc else .asc

structure ValidFields (fields : List TemplateField) : Prop where
  scalar : ∀ f ∈ fields, f.mode ≠ .membership → f.mode = .unset ∨ f.mode = .scalar
  membership : ∀ f ∈ fields, f.mode = .membership → f.order ≠ .desc ∧ f.field ∉ metadataFields
  unique : (fields.map TemplateField.field).Nodup
  single : (fields.filter fun f => f.mode = .membership).length ≤ 1

theorem validateMode_spec {f : TemplateField} {n count : Nat} (h : validateMode f n = .ok count) :
    (f.mode ≠ .membership ∧ (f.mode = .unset ∨ f.mode = .scalar) ∧ count = n) ∨
      (f.mode = .membership ∧ f.order ≠ .desc ∧ f.field ∉ metadataFields ∧ n = 0 ∧ count = 1) := by
  unfold validateMode at h
  split at h
  · rename_i hMode
    split at h
    · cases h
      exact .inl ⟨by rw [hMode]; decide, .inl hMode, rfl⟩
    · cases h
  · rename_i hMode
    split at h
    · cases h
      exact .inl ⟨by rw [hMode]; decide, .inr hMode, rfl⟩
    · cases h
  · rename_i hMode
    split at h
    · cases h
    split at h
    · cases h
    rename_i hOrder
    obtain ⟨hMetadata, h⟩ := guard_eq_ok h
    cases h
    refine .inr ⟨hMode, ?_, hMetadata, by omega, by omega⟩
    intro hDesc
    exact hOrder ⟨by rw [hDesc]; decide, by rw [hDesc]; decide⟩
  · cases h

theorem validateFields_spec {fields : List TemplateField} {seen : List Bytes} {n : Nat}
    (h : validateFields seen n fields = .ok ()) :
    ValidFields fields ∧ (∀ f ∈ fields, f.field ∉ seen) ∧
      (fields.filter fun f => f.mode = .membership).length + n ≤ max n 1 := by
  induction fields generalizing seen n with
  | nil => exact ⟨⟨by simp, by simp, by simp, by simp⟩, by simp, by simp⟩
  | cons f rest ih =>
    simp only [validateFields] at h
    split at h
    · cases h
    obtain ⟨count, hMode, hRest⟩ := bind_eq_ok h
    obtain ⟨hSeen, hRest⟩ := guard_eq_ok hRest
    obtain ⟨⟨hScalar, hMembership, hUnique, hSingle⟩, hFresh, hCount⟩ := ih hRest
    have hName : f.field ∉ rest.map TemplateField.field := by
      intro hMem
      obtain ⟨g, hg, hEq⟩ := List.mem_map.mp hMem
      exact hFresh g hg (hEq ▸ mem_cons_self)
    have hFresh' : ∀ g ∈ f :: rest, g.field ∉ seen := by
      rw [forall_mem_cons]
      exact ⟨hSeen, fun g hg hMem => hFresh g hg (mem_cons_of_mem _ hMem)⟩
    have hNodup : ((f :: rest).map TemplateField.field).Nodup := nodup_cons.mpr ⟨hName, hUnique⟩
    obtain ⟨hNot, hKind, rfl⟩ | ⟨hIs, hOrder, hMeta, rfl, rfl⟩ := validateMode_spec hMode
    · refine ⟨⟨?_, ?_, hNodup, ?_⟩, hFresh', ?_⟩
      · exact forall_mem_cons.mpr ⟨fun _ => hKind, hScalar⟩
      · exact forall_mem_cons.mpr ⟨fun hIs => absurd hIs hNot, hMembership⟩
      · simpa [hNot] using hSingle
      · simpa [hNot] using hCount
    · refine ⟨⟨?_, ?_, hNodup, ?_⟩, hFresh', ?_⟩
      · exact forall_mem_cons.mpr ⟨fun hNot => absurd hIs hNot, hScalar⟩
      · exact forall_mem_cons.mpr ⟨fun _ => ⟨hOrder, hMeta⟩, hMembership⟩
      all_goals
        simp only [filter_cons, hIs, decide_true, if_true, length_cons]
        omega

theorem validateTemplate_spec {t : Template} (h : validateTemplate t = .ok ()) : ValidFields t.fields := by
  unfold validateTemplate at h
  split at h
  · cases h
  split at h
  · cases h
  split at h
  · cases h
  · exact (validateFields_spec h).1

end Syntrix.Index
