import Syntrix.Model.Value

/-! # Documents

A document as users see it: a map of fields, some of which name its identity and its metadata. A map is
a list of fields; setting a field replaces the one with the same name.
-/
namespace Syntrix.Model

open Lib

abbrev Document := List (Bytes × Value)

def protectedFields : List Bytes :=
  [text "version", text "updatedAt", text "createdAt", text "collection", text "deleted"]

namespace Document

def stripProtectedFields (doc : Document) : Document := doc.filter fun x => decide (x.1 ∉ protectedFields)

def set (doc : Document) (key : Bytes) (value : Value) : Document :=
  doc.filter (fun x => decide (x.1 ≠ key)) ++ [(key, value)]

def getString (doc : Document) (key : Bytes) : Bytes :=
  match doc.lookup key with
  | some (.string s) => s
  | _ => []

def getID (doc : Document) : Bytes := doc.getString (text "id")

def setID (doc : Document) (id : Bytes) : Document := doc.set (text "id") (.string id)

def generateIDIfEmpty (doc : Document) (fresh : Bytes) : Document :=
  if (doc.lookup (text "id")).isSome then doc else doc.setID fresh

def getCollection (doc : Document) : Bytes := doc.getString (text "collection")

def setCollection (doc : Document) (collection : Bytes) : Document := doc.set (text "collection") (.string collection)

end Document

def isIDByte (b : Byte) : Bool :=
  decide (0x61 ≤ b ∧ b ≤ 0x7A) || decide (0x41 ≤ b ∧ b ≤ 0x5A) || decide (0x30 ≤ b ∧ b ≤ 0x39) ||
    decide (b = 0x5F) || decide (b = 0x2D) || decide (b = 0x2E)

def checkDocumentID (id : Bytes) : Bool := decide (1 ≤ id.length ∧ id.length ≤ 64) && id.all isIDByte

/-- An ID is a valid string; integers, which only other callers than the parser of requests give, are
printed. A missing document is invalid. -/
def validateDocument (printed : Int64 → Bytes) : Option Document → Option Document
  | none => none
  | some doc =>
    match doc.lookup (text "id") with
    | none => some doc
    | some (.string id) => if checkDocumentID id then some doc else none
    | some (.int v) => some (doc.setID (printed v))
    | some _ => none

theorem lookup_filter {α β : Type} [BEq α] [LawfulBEq α] (p : α → Bool) (l : List (α × β)) (k : α) :
    (l.filter fun x => p x.1).lookup k = if p k then l.lookup k else none := by
  induction l with
  | nil => simp
  | cons x l ih =>
    rw [List.filter_cons, List.lookup_cons]
    by_cases hKey : k = x.1
    · subst hKey
      cases hp : p x.1 with
      | true =>
        rw [if_pos rfl, List.lookup_cons]
        simp
      | false => simpa [hp] using ih
    · have hNe : (k == x.1) = false := by simpa using hKey
      cases p x.1 with
      | true =>
        rw [if_pos rfl, List.lookup_cons]
        simp only [hNe, ih]
      | false => simp [hNe, ih]

@[simp] theorem lookup_stripProtectedFields (doc : Document) (k : Bytes) :
    doc.stripProtectedFields.lookup k = if k ∈ protectedFields then none else doc.lookup k := by
  rw [Document.stripProtectedFields, lookup_filter (fun k => decide (k ∉ protectedFields))]
  by_cases h : k ∈ protectedFields <;> simp [h]

@[simp] theorem lookup_set (doc : Document) (k k' : Bytes) (v : Value) :
    (doc.set k v).lookup k' = if k' = k then some v else doc.lookup k' := by
  rw [Document.set, List.lookup_append, lookup_filter (fun x => decide (x ≠ k))]
  by_cases h : k' = k
  · simp [h]
  · have hNe : (k' == k) = false := by simpa using h
    simp [h, List.lookup_cons, hNe]

end Syntrix.Model
