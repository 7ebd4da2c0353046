import Syntrix.Lib.Decimal
import Syntrix.Index.Projection

/-! # Change events

Events of a source carry its cluster time. The key of an event in a buffer is its cluster time in
fixed-width decimals and its ID, so that keys are ordered by time and then by ID, and the events of
one cluster time lie behind the key of their group.
-/
namespace Syntrix.Puller

open Lib OrderCode Model Index List

structure ClusterTime where
  t : UInt32
  i : UInt32
deriving DecidableEq

def ClusterTime.compare (c other : ClusterTime) : Ordering :=
  if c.t < other.t then .lt
  else if c.t > other.t then .gt
  else if c.i < other.i then .lt
  else if c.i > other.i then .gt
  else .eq

/-- Cluster times as numbers: the increment counts within the second. -/
def ClusterTime.toNat (c : ClusterTime) : Nat := 2 ^ 32 * c.t.toNat + c.i.toNat

theorem ClusterTime.toNat_injective : Function.Injective ClusterTime.toNat := by
  intro c d h
  have hc := c.i.toNat_lt
  have hd := d.i.toNat_lt
  simp only [ClusterTime.toNat] at h
  have ht : c.t.toNat = d.t.toNat := by omega
  have hi : c.i.toNat = d.i.toNat := by omega
  rw [ClusterTime.mk.injEq]
  exact ⟨UInt32.toNat_inj.mp ht, UInt32.toNat_inj.mp hi⟩

instance : LinearOrder ClusterTime := LinearOrder.lift' ClusterTime.toNat ClusterTime.toNat_injective

theorem ClusterTime.compare_eq (c d : ClusterTime) :
    c.compare d = (cmp c.t.toNat d.t.toNat).then (cmp c.i.toNat d.i.toNat) := by
  simp only [ClusterTime.compare, gt_iff_lt, UInt32.lt_iff_toNat_lt]
  rcases lt_trichotomy c.t.toNat d.t.toNat with ht | ht | ht
  · rw [if_pos ht, (cmp_eq_lt_iff _ _).mpr ht]
    rfl
  · rw [if_neg (by omega), if_neg (by omega), ht, cmp_self_eq_eq]
    rcases lt_trichotomy c.i.toNat d.i.toNat with hi | hi | hi
    · rfl
    · rfl
    · rfl
  · rw [if_neg (by omega), if_pos ht, (cmp_eq_gt_iff _ _).mpr ht]
    rfl

theorem ClusterTime.compare_eq_cmp (c d : ClusterTime) : c.compare d = cmp c d := by
  have hCmp : cmp c d = cmp c.toNat d.toNat := rfl
  rw [hCmp, ClusterTime.toNat, ClusterTime.toNat, cmp_add_mul_of_lt c.i.toNat_lt d.i.toNat_lt, ClusterTime.compare_eq]

inductive StoreOperationType where
  | insert
  | update
  | replace
  | delete
deriving DecidableEq

structure UpdateDescription where
  updatedFields : List (Bytes × Value)
  removedFields : List Bytes
  truncatedArrays : List (Bytes × Int)

structure StoreChangeEvent where
  eventID : Bytes
  database : Bytes
  mgoColl : Bytes
  mgoDocID : Bytes
  opType : StoreOperationType
  fullDocument : Option StoredDoc
  updateDesc : Option UpdateDescription
  clusterTime : ClusterTime
  txnNumber : Option Int64
  timestamp : Int64
  backend : Bytes

def uintToString (v : UInt32) : Bytes := if v = 0 then text "0" else decimalLoop 10 v.toNat []

def formatUint32 (v : UInt32) : Bytes :=
  let n := text "0000000000" ++ uintToString v
  n.drop (n.length - 10)

def dash : Byte := 0x2D

def formatBufferKey (ct : ClusterTime) (eventID : Bytes) : Bytes :=
  formatUint32 ct.t ++ [dash] ++ formatUint32 ct.i ++ [dash] ++ eventID

def StoreChangeEvent.bufferKey (e : StoreChangeEvent) : Bytes := formatBufferKey e.clusterTime e.eventID

theorem formatUint32_eq (v : UInt32) : formatUint32 v = fixedDecimal 10 v.toNat := by
  simp only [formatUint32, uintToString]
  split
  · rename_i hv
    rw [hv]
    rfl
  · obtain ⟨zeros, hZeros⟩ := fixedDecimal_eq_pad 10 v.toNat
    have hLength : zeros + (decimalLoop 10 v.toNat []).length = 10 := by
      have hTen := fixedDecimal_length 10 v.toNat
      rw [hZeros, length_append, length_replicate] at hTen
      exact hTen
    have hText : text "0000000000" = replicate 10 (digit 0) := rfl
    rw [hZeros, hText, length_append, length_replicate, drop_append_of_le_length (by simp; omega),
      drop_replicate]
    congr 2
    omega

theorem formatUint32_length (v : UInt32) : (formatUint32 v).length = 10 := by
  rw [formatUint32_eq, fixedDecimal_length]

theorem wordCmp_formatUint32 (v w : UInt32) : wordCmp (formatUint32 v) (formatUint32 w) = cmp v.toNat w.toNat := by
  have hv := v.toNat_lt
  have hw := w.toNat_lt
  rw [formatUint32_eq, formatUint32_eq, wordCmp_fixedDecimal (by omega) (by omega)]

theorem wordCmp_formatBufferKey (ct ct' : ClusterTime) (id id' : Bytes) :
    wordCmp (formatBufferKey ct id) (formatBufferKey ct' id') = (cmp ct ct').then (wordCmp id id') := by
  have hWidth : ∀ v w : UInt32, (formatUint32 v).length = (formatUint32 w).length := by
    intro v w
    rw [formatUint32_length, formatUint32_length]
  simp only [formatBufferKey, append_assoc]
  rw [wordCmp_append_of_length_eq (hWidth _ _), wordCmp_append_left, wordCmp_append_of_length_eq (hWidth _ _),
    wordCmp_append_left, wordCmp_formatUint32, wordCmp_formatUint32, ← Ordering.then_assoc, ← ClusterTime.compare_eq,
    ClusterTime.compare_eq_cmp]

variable {ct ct' : ClusterTime}

theorem formatBufferKey_lt_group (id : Bytes) : formatBufferKey ct id < formatBufferKey ct' [] ↔ ct < ct' := by
  rw [← wordCmp_eq_lt_iff, wordCmp_formatBufferKey, ← cmp_eq_lt_iff]
  cases hCmp : cmp ct ct' with
  | lt => simp
  | gt => simp
  | eq => cases id <;> simp [wordCmp]

theorem group_lt_formatBufferKey {id : Bytes} (hid : id ≠ []) : formatBufferKey ct' [] < formatBufferKey ct id ↔ ct' ≤ ct := by
  rw [← not_lt, ← formatBufferKey_lt_group id]
  constructor
  · exact fun h => lt_asymm h
  · intro h
    refine lt_of_le_of_ne (not_lt.mp h) fun hEq => ?_
    have hCmp := wordCmp_eq_eq_iff.mpr hEq
    rw [wordCmp_formatBufferKey] at hCmp
    cases hTime : cmp ct' ct with
    | lt | gt => simp [hTime] at hCmp
    | eq =>
      rw [hTime] at hCmp
      exact hid (wordCmp_eq_eq_iff.mp hCmp).symm

theorem formatBufferKey_injective {id id' : Bytes} (h : formatBufferKey ct id = formatBufferKey ct' id') : ct = ct' ∧ id = id' := by
  have hCmp := wordCmp_eq_eq_iff.mpr h
  rw [wordCmp_formatBufferKey] at hCmp
  cases hTime : cmp ct ct' with
  | lt | gt => simp [hTime] at hCmp
  | eq =>
    rw [hTime] at hCmp
    exact ⟨(cmp_eq_eq_iff _ _).mp hTime, wordCmp_eq_eq_iff.mp hCmp⟩

def cutDash : Bytes → Option (Bytes × Bytes)
  | [] => none
  | b :: rest => if b = dash then some ([], rest) else (cutDash rest).map fun p => (b :: p.1, p.2)

def parseUint32 (s : Bytes) : Option UInt32 :=
  if s = [] then none
  else (parseDigits 0 s).bind fun n => if n < 2 ^ 32 then some (UInt32.ofNat n) else none

/-- The key of the group an event position belongs to; none when the position is malformed. -/
def timestampGroupStart (key : Bytes) : Option Bytes :=
  if key = [] then some []
  else (cutDash key).bind fun (first, rest) => (cutDash rest).bind fun (second, id) =>
    if first.length ≠ 10 ∨ second.length ≠ 10 ∨ id = [] then none
    else (parseUint32 first).bind fun t => (parseUint32 second).bind fun i =>
      let start := formatBufferKey ⟨t, i⟩ []
      if start ≠ key.take 22 then none else some start

theorem cutDash_append {s : Bytes} (hs : dash ∉ s) (rest : Bytes) : cutDash (s ++ [dash] ++ rest) = some (s, rest) := by
  induction s with
  | nil => rfl
  | cons b s ih =>
    rw [mem_cons, not_or] at hs
    rw [cons_append, cons_append, cutDash, if_neg (Ne.symm hs.1), ih hs.2]
    rfl

theorem cutDash_spec {s first rest : Bytes} (h : cutDash s = some (first, rest)) : s = first ++ [dash] ++ rest := by
  induction s generalizing first with
  | nil => cases h
  | cons b s ih =>
    rw [cutDash] at h
    split at h
    · rename_i hb
      cases h
      rw [hb]
      rfl
    · obtain ⟨⟨first', rest'⟩, hCut, hEq⟩ := Option.map_eq_some_iff.mp h
      cases hEq
      rw [cons_append, cons_append, ← ih hCut]

theorem dash_notMem_formatUint32 (v : UInt32) : dash ∉ formatUint32 v := by
  rw [formatUint32_eq]
  intro h
  have hDigit := fixedDecimal_isDigit dash h
  cases hDigit

theorem parseUint32_formatUint32 (v : UInt32) : parseUint32 (formatUint32 v) = some v := by
  have hv := v.toNat_lt
  have hNonempty : formatUint32 v ≠ [] := ne_nil_of_length_pos (by rw [formatUint32_length]; decide)
  rw [parseUint32, if_neg hNonempty, formatUint32_eq, parseDigits_fixedDecimal (by omega), Option.bind_some,
    if_pos hv, UInt32.ofNat_toNat]

theorem formatBufferKey_append (ct : ClusterTime) (id : Bytes) : formatBufferKey ct id = formatBufferKey ct [] ++ id := by
  simp [formatBufferKey]

theorem formatBufferKey_nil_length (ct : ClusterTime) : (formatBufferKey ct []).length = 22 := by
  simp [formatBufferKey, formatUint32_length]

theorem timestampGroupStart_formatBufferKey {ct : ClusterTime} {id : Bytes} (hid : id ≠ []) :
    timestampGroupStart (formatBufferKey ct id) = some (formatBufferKey ct []) := by
  have hTake : (formatBufferKey ct id).take 22 = formatBufferKey ct [] := by
    rw [formatBufferKey_append, take_left' (formatBufferKey_nil_length ct)]
  have hNonempty : formatBufferKey ct id ≠ [] := by simp [formatBufferKey]
  have hFirst : cutDash (formatBufferKey ct id) = some (formatUint32 ct.t, formatUint32 ct.i ++ [dash] ++ id) := by
    have hCut := cutDash_append (dash_notMem_formatUint32 ct.t) (formatUint32 ct.i ++ [dash] ++ id)
    rw [← hCut, formatBufferKey]
    simp only [append_assoc]
  rw [timestampGroupStart, if_neg hNonempty, hFirst, Option.bind_some]
  simp only [cutDash_append (dash_notMem_formatUint32 ct.i), Option.bind_some, formatUint32_length, hid,
    parseUint32_formatUint32, hTake, ne_eq, not_true, or_self, if_false]

theorem timestampGroupStart_spec {key group : Bytes} (h : timestampGroupStart key = some group) :
    key = [] ∧ group = [] ∨ ∃ ct id, id ≠ [] ∧ key = formatBufferKey ct id ∧ group = formatBufferKey ct [] := by
  rw [timestampGroupStart] at h
  split at h
  · rename_i hKey
    exact .inl ⟨hKey, (Option.some.inj h).symm⟩
  obtain ⟨⟨first, rest⟩, hFirst, h⟩ := Option.bind_eq_some_iff.mp h
  obtain ⟨⟨second, id⟩, hSecond, h⟩ := Option.bind_eq_some_iff.mp h
  obtain ⟨hShape, h⟩ := Option.ite_none_left_eq_some.mp h
  obtain ⟨t, -, h⟩ := Option.bind_eq_some_iff.mp h
  obtain ⟨i, -, h⟩ := Option.bind_eq_some_iff.mp h
  obtain ⟨hStart, h⟩ := Option.ite_none_left_eq_some.mp h
  simp only [not_or, not_not] at hShape hStart
  refine .inr ⟨⟨t, i⟩, id, hShape.2.2, ?_, (Option.some.inj h).symm⟩
  have hKey : key = first ++ [dash] ++ second ++ [dash] ++ id := by
    rw [cutDash_spec hFirst, cutDash_spec hSecond]
    simp
  have hDrop : key.drop 22 = id := by
    rw [hKey]
    exact drop_left' (by simp [hShape.1, hShape.2.1])
  rw [formatBufferKey_append, hStart, ← hDrop, take_append_drop]

end Syntrix.Puller
