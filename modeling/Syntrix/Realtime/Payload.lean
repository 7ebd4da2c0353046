import Syntrix.Model.Document
import Syntrix.Index.Projection

/-! # Payloads of legacy subscriptions

A document is streamed with its metadata among its fields. The delivery makes a stored document of it and
flattens that again; the version is read off floats only, the times off integers only.
-/
namespace Syntrix.Realtime

open Lib Model Index

inductive OperationType where
  | unspecified
  | insert
  | update
  | delete

inductive EventType where
  | create
  | update
  | delete

structure StreamEvent where
  collection : Bytes
  documentID : Bytes
  operation : OperationType
  document : Option Document
  timestamp : Int64

/-- What a subscriber is sent; an unspecified operation has no type. -/
structure PublicEvent where
  type : Option EventType
  document : Option Document
  id : Bytes
  timestamp : Int64

/-- The conversion `int64(f)` of a float in its range. -/
def toInt64 (f : Binary64) : Int64 := .ofInt (if f.toRat < 0 then ⌈f.toRat⌉ else ⌊f.toRat⌋)

def getVersion (doc : Document) : Int64 :=
  match doc.lookup (text "version") with
  | some (.float64 f) => toInt64 f
  | _ => -1

def getTime (doc : Document) (key : Bytes) : Int64 :=
  match doc.lookup key with
  | some (.int v) => v
  | _ => 0

def documentToStoredDoc (doc : Document) (collection : Bytes) : StoredDoc where
  database := []
  fullpath := collection ++ [slash] ++ doc.getID
  collection := collection
  updatedAt := getTime doc (text "updatedAt")
  createdAt := getTime doc (text "createdAt")
  version := getVersion doc
  data := doc
  deleted := false

def operationToEventType : OperationType → Option EventType
  | .insert => some .create
  | .update => some .update
  | .delete => some .delete
  | .unspecified => none

/-- The field `id` is added from the path where it is missing; the metadata replaces fields of its names. -/
def flattenDocument (doc : StoredDoc) : Document :=
  let flat : Document := if (doc.data.lookup (text "id")).isSome ∨ slash ∉ doc.fullpath then doc.data
    else .set doc.data (text "id") (.string (doc.fullpath.reverse.takeWhile (· ≠ slash)).reverse)
  (((flat.set (text "version") (.int doc.version)).set (text "updatedAt") (.int doc.updatedAt)).set (text "createdAt")
    (.int doc.createdAt)).set (text "collection") (.string doc.collection)

/-- The event of the payload that a delivery builds for a subscription. -/
def publicEvent (e : StreamEvent) (includeData : Bool) : PublicEvent where
  type := operationToEventType e.operation
  document := if includeData then (e.document.map (documentToStoredDoc · e.collection)).map flattenDocument else none
  id := e.collection ++ [slash] ++ e.documentID
  timestamp := e.timestamp

/-! ## What is carried -/

def number : Option Value → Option ℚ
  | some (.int v) => some v.toInt
  | some (.float64 f) => if f.isSpecial then none else some f.toRat
  | _ => none

/-- A field holds an integer in one representation: an int64, or a binary64 below 2^53. -/
def Holds (floats : Bool) (field : Option Value) (n : Int) : Prop :=
  if floats then ∃ f, field = some (.float64 f) ∧ f.isSpecial = false ∧ f.toRat = n ∧ n.natAbs < 2 ^ 53
  else ∃ v : Int64, field = some (.int v) ∧ v.toInt = n

structure Metadata (floats : Bool) (doc : Document) (version createdAt updatedAt : Int) : Prop where
  version : Holds floats (doc.lookup (text "version")) version
  createdAt : Holds floats (doc.lookup (text "createdAt")) createdAt
  updatedAt : Holds floats (doc.lookup (text "updatedAt")) updatedAt

structure Carries (doc payload : Document) (version createdAt updatedAt : Int) : Prop where
  version : number (payload.lookup (text "version")) = some (version : ℚ)
  createdAt : number (payload.lookup (text "createdAt")) = some (createdAt : ℚ)
  updatedAt : number (payload.lookup (text "updatedAt")) = some (updatedAt : ℚ)
  others : ∀ k ∉ [text "version", text "createdAt", text "updatedAt"], ∀ x, doc.lookup k = some x → payload.lookup k = some x

theorem lookup_flattenDocument (doc : StoredDoc) (k : Bytes) : (flattenDocument doc).lookup k =
    if k = text "collection" then some (.string doc.collection) else if k = text "createdAt" then some (.int doc.createdAt)
    else if k = text "updatedAt" then some (.int doc.updatedAt) else if k = text "version" then some (.int doc.version)
    else if k = text "id" ∧ (doc.data.lookup (text "id")).isSome = false ∧ slash ∈ doc.fullpath then
      some (.string (doc.fullpath.reverse.takeWhile (· ≠ slash)).reverse)
    else doc.data.lookup k := by
  rw [flattenDocument, lookup_set, lookup_set, lookup_set, lookup_set]
  by_cases hKept : (doc.data.lookup (text "id")).isSome ∨ slash ∉ doc.fullpath
  · have hID : ¬ (k = text "id" ∧ (doc.data.lookup (text "id")).isSome = false ∧ slash ∈ doc.fullpath) := by
      rintro ⟨-, hNone, hSlash⟩
      rw [hNone] at hKept
      exact hKept.elim nofun fun h => h hSlash
    rw [if_pos hKept, if_neg hID]
  · rw [if_neg hKept, lookup_set]
    rw [not_or, Bool.not_eq_true, not_not] at hKept
    simp only [hKept, and_true]

variable {n : Int}

theorem toInt64_toInt {f : Binary64} (h : f.toRat = n) (hn : n.natAbs < 2 ^ 53) : (toInt64 f).toInt = n := by
  have hTrunc : (if f.toRat < 0 then ⌈f.toRat⌉ else ⌊f.toRat⌋) = n := by rw [h, Int.ceil_intCast, Int.floor_intCast, ite_self]
  rw [toInt64, hTrunc, Int64.toInt_ofInt]
  exact Int.bmod_eq_of_le (by change -(2 ^ 64 / 2) ≤ n; omega) (by change n < (2 ^ 64 + 1) / 2; omega)

variable {doc : Document} {floats : Bool}

theorem Holds.time {key : Bytes} (h : Holds floats (doc.lookup key) n) :
    number (some (.int (getTime doc key))) = some (n : ℚ) ↔ floats = true → n = 0 := by
  cases floats with
  | false =>
    obtain ⟨v, hv, rfl⟩ := h
    rw [getTime, hv]
    simp [number]
  | true =>
    obtain ⟨f, hf, -⟩ := h
    rw [getTime, hf]
    simp [number, eq_comm]

theorem Holds.version (h : Holds floats (doc.lookup (text "version")) n) :
    number (some (.int (getVersion doc))) = some (n : ℚ) ↔ floats = false → n = -1 := by
  cases floats with
  | false =>
    obtain ⟨v, hv, rfl⟩ := h
    have hMinus : ((-1 : Int64).toInt : ℚ) = ((-1 : Int) : ℚ) := rfl
    rw [getVersion, hv]
    simp only [number, hMinus, Option.some_inj, Int.cast_inj, forall_const, eq_comm]
  | true =>
    obtain ⟨f, hf, -, hn, hBound⟩ := h
    rw [getVersion, hf]
    simp [number, toInt64_toInt hn hBound]

/-- Integers lose their version and floats their times, unless these are the values the accessors give. -/
theorem payload_carries_iff (e : StreamEvent) (doc : Document) (floats : Bool) (version createdAt updatedAt : Int)
    (hDocument : e.document = some doc) (hMetadata : Metadata floats doc version createdAt updatedAt) :
    (∃ payload, (publicEvent e true).document = some payload ∧ Carries doc payload version createdAt updatedAt) ↔
      (if floats then createdAt = 0 ∧ updatedAt = 0 else version = -1) ∧
        ∀ x, doc.lookup (text "collection") = some x → x = .string e.collection := by
  obtain ⟨hVersion, hCreated, hUpdated⟩ := hMetadata
  have hPayload : (publicEvent e true).document = some (flattenDocument (documentToStoredDoc doc e.collection)) := by
    simp [publicEvent, hDocument]
  have hLookup := lookup_flattenDocument (documentToStoredDoc doc e.collection)
  have hFields : Carries doc (flattenDocument (documentToStoredDoc doc e.collection)) version createdAt updatedAt ↔
      ((floats = false → version = -1) ∧ (floats = true → createdAt = 0) ∧ (floats = true → updatedAt = 0)) ∧
        ∀ x, doc.lookup (text "collection") = some x → x = .string e.collection := by
    rw [← hVersion.version, ← hCreated.time, ← hUpdated.time]
    constructor
    · rintro ⟨hV, hC, hU, hOthers⟩
      rw [hLookup] at hV hC hU
      refine ⟨⟨hV, hC, hU⟩, fun x hx => ?_⟩
      have hKept := hOthers (text "collection") (by decide) x hx
      rw [hLookup, if_pos rfl] at hKept
      exact (Option.some.inj hKept).symm
    · rintro ⟨⟨hV, hC, hU⟩, hCollection⟩
      refine ⟨?_, ?_, ?_, fun k hk x hx => ?_⟩
      · rw [hLookup]
        exact hV
      · rw [hLookup]
        exact hC
      · rw [hLookup]
        exact hU
      · simp only [List.mem_cons, List.not_mem_nil, or_false, not_or] at hk
        have hID : ¬ (k = text "id" ∧ (doc.lookup (text "id")).isSome = false ∧ slash ∈ (documentToStoredDoc doc e.collection).fullpath) := by
          rintro ⟨rfl, hNone, -⟩
          exact Bool.false_ne_true (hNone.symm.trans (Option.isSome_iff_exists.mpr ⟨x, hx⟩))
        rw [hLookup, if_neg hk.2.1, if_neg hk.2.2, if_neg hk.1]
        split
        · rename_i hKey
          rw [hCollection x (hKey ▸ hx)]
          rfl
        · exact (if_neg hID).trans hx
  rw [hPayload]
  simp only [Option.some_inj, exists_eq_left', hFields]
  cases floats <;> simp

def versioned (n : Value) : Document := [(text "id", .string (text "u")), (text "version", n), (text "createdAt", n), (text "updatedAt", n)]

def updated (n : Value) : StreamEvent := ⟨text "users", text "u", .update, some (versioned n), 7⟩

theorem payload_carries_initial : ∃ payload, (publicEvent (updated (.int (-1))) true).document = some payload ∧
    Carries (versioned (.int (-1))) payload (-1) (-1) (-1) :=
  (payload_carries_iff (updated (.int (-1))) _ false (-1) (-1) (-1) rfl ⟨⟨-1, rfl, rfl⟩, ⟨-1, rfl, rfl⟩, ⟨-1, rfl, rfl⟩⟩).mpr ⟨rfl, nofun⟩

/-- Version 1 as an int64 is sent as -1, creation time 1 as a binary64 as 0. -/
theorem payload_loses_metadata :
    (∃ payload, (publicEvent (updated (.int 1)) true).document = some payload ∧ payload.lookup (text "version") = some (.int (-1))) ∧
    ∃ payload, (publicEvent (updated (.float64 ⟨false, 1023, 0⟩)) true).document = some payload ∧
      payload.lookup (text "createdAt") = some (.int 0) := by
  refine ⟨⟨_, rfl, ?_⟩, ⟨_, rfl, ?_⟩⟩
  all_goals
    rfl

end Syntrix.Realtime
