import Syntrix.Lib.Nested
import Syntrix.Lib.Strings
import Syntrix.Model.Document
import Syntrix.Model.TypedValue

/-! # Updates by paths

The database sets fields by paths: a dot in the name of a field descends into the value before it. A
patch of top-level fields is written as paths below the data of a record, so a name with a dot is a path
of its own and no longer a name.
-/
namespace Syntrix.Storage

open Lib Model List Option Fields

def dot : Byte := 0x2E

section Values

/-- The place a name has in an array: its decimal numeral. -/
def arrayIndex (name : Bytes) : Option Nat := (parseDigits 0 name).filter fun i => formatNat i = name

def maxPadding : Nat := 1500000

def childValue : Value → Bytes → Option Value
  | .object fields, name => fields.lookup name
  | .array items, name => (arrayIndex name).bind fun i => items[i]?
  | _, _ => none

def replaceItem (items : List Value) (i : Nat) (v : Value) : Option (List Value) :=
  if i < items.length then some (items.set i v)
  else if i ≤ items.length + maxPadding then some (items ++ List.replicate (i - items.length) .null ++ [v])
  else none

def replaceChild : Value → Bytes → Value → Option Value
  | .object fields, name, v => some (.object (put fields name v))
  | .array items, name, v => (arrayIndex name).bind fun i => (replaceItem items i v).map .array
  | _, _, _ => none

theorem arrayIndex_inj {name name' : Bytes} {i : Nat} (h : arrayIndex name = some i) (h' : arrayIndex name' = some i) :
    name = name' := by
  have hName := (filter_eq_some_iff.mp h).2
  have hName' := (filter_eq_some_iff.mp h').2
  rw [decide_eq_true_eq] at hName hName'
  exact hName.symm.trans hName'

theorem getElem?_replaceItem {items items' : List Value} {i : Nat} {v : Value} (h : replaceItem items i v = some items') :
    items'[i]? = some v ∧ ∀ j u, j ≠ i → items[j]? = some u → items'[j]? = some u := by
  unfold replaceItem at h
  split at h
  · rename_i hLt
    cases h
    exact ⟨by simp [hLt], fun j u hj hu => by rw [getElem?_set_ne (Ne.symm hj), hu]⟩
  · split at h
    · cases h
      have hLength : (items ++ replicate (i - items.length) Value.null).length = i := by
        rw [length_append, length_replicate]
        omega
      refine ⟨?_, fun j u hj hu => ?_⟩
      · rw [getElem?_append_right hLength.le, hLength, Nat.sub_self]
        rfl
      · obtain ⟨hj', -⟩ := List.getElem?_eq_some_iff.mp hu
        rw [append_assoc, getElem?_append_left hj', hu]
    · cases h

def nestedValue : Nested Bytes Value where
  child := childValue
  replace := replaceChild
  single name v := .object [(name, v)]
  child_replace {v w v' name} h := by
    cases v <;> try cases h
    · obtain ⟨i, hi, hMap⟩ := Option.bind_eq_some_iff.mp h
      obtain ⟨items', hItems, rfl⟩ := Option.map_eq_some_iff.mp hMap
      rw [childValue, hi]
      exact (getElem?_replaceItem hItems).1
    · rw [childValue, lookup_put, if_pos rfl]
  child_replace_of_ne {v w v' u name other} h hNe hChild := by
    cases v <;> try cases h
    · obtain ⟨i, hi, hMap⟩ := Option.bind_eq_some_iff.mp h
      obtain ⟨items', hItems, rfl⟩ := Option.map_eq_some_iff.mp hMap
      obtain ⟨j, hj, hItem⟩ := Option.bind_eq_some_iff.mp hChild
      rw [childValue, hj]
      refine (getElem?_replaceItem hItems).2 j u ?_ hItem
      rintro rfl
      exact hNe (arrayIndex_inj hj hi)
    · rw [childValue, lookup_put, if_neg hNe]
      exact hChild
  replace_child {v w name} h := by
    cases v <;> try cases h
    · obtain ⟨i, hi, hItem⟩ := Option.bind_eq_some_iff.mp h
      obtain ⟨hLt, rfl⟩ := List.getElem?_eq_some_iff.mp hItem
      rw [replaceChild, hi, Option.bind_some, replaceItem, if_pos hLt, List.set_getElem_self]
      rfl
    · rw [replaceChild, put_of_lookup h]
  child_single name w := by
    rw [childValue]
    simp

end Values

section Paths

def fieldPath (key : Bytes) : List Bytes := ((text "data." ++ key).splitOn dot).tail

def validName (name : Bytes) : Bool := decide (name ≠ []) && decide (name.head? ≠ some 0x24)

theorem fieldPath_eq (key : Bytes) : fieldPath key = key.splitOn dot := by
  rfl

theorem fieldPath_of_notMem {key : Bytes} (h : dot ∉ key) : fieldPath key = [key] := by
  rw [fieldPath_eq, splitOn_eq_singleton h]

theorem dot_notMem_of_head? {key name : Bytes} (h : (fieldPath key).head? = some name) : dot ∉ name := by
  rw [fieldPath_eq] at h
  exact Strings.notMem_of_mem_splitOn (mem_of_head? h)

theorem fieldPath_cases (key : Bytes) :
    (dot ∉ key ∧ fieldPath key = [key]) ∨ dot ∈ key ∧ ∃ first second rest, fieldPath key = first :: second :: rest := by
  by_cases hDot : dot ∈ key
  · refine .inr ⟨hDot, ?_⟩
    have hJoin : [dot].intercalate (key.splitOn dot) = key := intercalate_splitOn dot
    rw [← fieldPath_eq] at hJoin
    cases hPath : fieldPath key with
    | nil =>
      exact absurd hPath (List.splitOn_ne_nil _ _)
    | cons first rest =>
      cases rest with
      | nil =>
        rw [hPath] at hJoin
        have hFirst : first = key := by simpa [intercalate] using hJoin
        have hClean : dot ∉ first := dot_notMem_of_head? (show (fieldPath key).head? = some first by rw [hPath]; rfl)
        rw [hFirst] at hClean
        exact absurd hDot hClean
      | cons second rest => exact ⟨first, second, rest, rfl⟩
  · exact .inl ⟨hDot, fieldPath_of_notMem hDot⟩

end Paths

section Updates

/-- The paths and values that an update of fields below the data sets. -/
def fieldUpdates (fields : Document) : List (List Bytes × Value) := fields.map fun x => (fieldPath x.1, x.2)

/-- An update is refused for names that are not allowed and for two paths of which one begins with the other. -/
def updatable (fields : Document) : Bool :=
  (fieldUpdates fields).all (fun x => x.1.all validName) &&
    decide ((fieldUpdates fields).Pairwise fun x y => Nested.Apart x.1 y.1)

/-- Set fields below the data; no path leads through a scalar. -/
def setFields (data fields : Document) : Option Document :=
  if updatable fields then
    match nestedValue.setAll (.object data) (fieldUpdates fields) with
    | some (.object data) => some data
    | _ => none
  else none

/-- The data afterwards are those before, overridden at the names of the fields. -/
def ShallowMerge (data fields merged : Document) : Prop := ∀ k, merged.lookup k = (fields.lookup k).or (data.lookup k)

/-- Fields whose names have dots are there already, under the name and at the path it spells. -/
def DotsSettled (data fields : Document) : Prop :=
  ∀ x ∈ fields, dot ∈ x.1 → data.lookup x.1 = some x.2 ∧ nestedValue.get (.object data) (fieldPath x.1) = some x.2

variable {data fields merged : Document}

theorem setFields_some (h : setFields data fields = some merged) :
    (fieldUpdates fields).Pairwise (fun x y => Nested.Apart x.1 y.1) ∧
      nestedValue.setAll (.object data) (fieldUpdates fields) = some (.object merged) := by
  obtain ⟨hUpdatable, h⟩ := ite_none_right_eq_some.mp h
  split at h
  · rename_i data' hSet
    cases h
    exact ⟨of_decide_eq_true (Bool.and_eq_true_iff.mp hUpdatable).2, hSet⟩
  · cases h

theorem set_object {first : Bytes} {rest : List Bytes} {w v' : Value}
    (h : nestedValue.set (.object data) (first :: rest) w = some v') :
    ∃ data', v' = .object data' ∧ ∀ k, k ≠ first → data'.lookup k = data.lookup k := by
  obtain ⟨u, hReplace, -⟩ := Nested.set_cons h
  cases hReplace
  refine ⟨_, rfl, fun k hk => ?_⟩
  rw [lookup_put, if_neg hk]

theorem setAll_object {updates : List (List Bytes × Value)} {v' : Value} (hPaths : ∀ x ∈ updates, x.1 ≠ [])
    (h : nestedValue.setAll (.object data) updates = some v') :
    ∃ data', v' = .object data' ∧ ∀ k, (∀ x ∈ updates, x.1.head? ≠ some k) → data'.lookup k = data.lookup k := by
  induction updates generalizing data with
  | nil =>
    cases h
    exact ⟨data, rfl, fun _ _ => rfl⟩
  | cons x updates ih =>
    rw [forall_mem_cons] at hPaths
    rw [Nested.setAll_cons] at h
    obtain ⟨next, hSet, hRest⟩ := bind_eq_some_iff.mp h
    cases hPath : x.1 with
    | nil => exact absurd hPath hPaths.1
    | cons first rest =>
      rw [hPath] at hSet
      obtain ⟨between, rfl, hFirst⟩ := set_object hSet
      obtain ⟨data', rfl, hLater⟩ := ih hPaths.2 hRest
      refine ⟨data', rfl, fun k hk => ?_⟩
      rw [forall_mem_cons, hPath] at hk
      rw [hLater k hk.2, hFirst k fun hEq => hk.1 (by rw [hEq]; rfl)]

theorem fieldPath_ne_nil (key : Bytes) : fieldPath key ≠ [] := by
  rw [fieldPath_eq]
  exact List.splitOn_ne_nil _ _

theorem head?_fieldPath_ne {key name : Bytes} (h : dot ∈ name) : (fieldPath key).head? ≠ some name := by
  intro hHead
  exact dot_notMem_of_head? hHead h

theorem lookup_first (hApart : (fieldUpdates fields).Pairwise fun x y => Nested.Apart x.1 y.1)
    (hKeys : (keys fields).Nodup) {x : Bytes × Value} (hx : x ∈ fields) {first second : Bytes} {rest : List Bytes}
    (hPath : fieldPath x.1 = first :: second :: rest) : fields.lookup first = none := by
  cases hFirst : fields.lookup first with
  | none => rfl
  | some v =>
    have hMem := (lookup_eq_some_iff hKeys).mp hFirst
    have hClean : dot ∉ first := dot_notMem_of_head? (show (fieldPath x.1).head? = some first by rw [hPath]; rfl)
    have hSymm : Std.Symm fun x y : List Bytes × Value => Nested.Apart x.1 y.1 := ⟨fun _ _ h => h.symm⟩
    have hBoth := hApart.forall (List.mem_map_of_mem hMem) (List.mem_map_of_mem hx) (by
      intro hEq
      have hPaths := congrArg Prod.fst hEq
      simp [hPath, fieldPath_of_notMem hClean] at hPaths)
    have hStart := hBoth.1
    simp [hPath, fieldPath_of_notMem hClean] at hStart

theorem setFields_shallow_iff (hKeys : (keys fields).Nodup) (h : setFields data fields = some merged) :
    ShallowMerge data fields merged ↔ DotsSettled data fields := by
  obtain ⟨hApart, hSet⟩ := setFields_some h
  have hPaths : ∀ x ∈ fieldUpdates fields, x.1 ≠ [] := by
    intro x hx
    obtain ⟨f, -, rfl⟩ := List.mem_map.mp hx
    exact fieldPath_ne_nil f.1
  constructor
  · intro hMerge x hx hDot
    have hField : fields.lookup x.1 = some x.2 := (lookup_eq_some_iff hKeys).mpr hx
    constructor
    · -- no path begins with the name, so the field is the old one
      obtain ⟨merged', hEq, hOld⟩ := setAll_object hPaths hSet
      cases hEq
      have hSame : merged.lookup x.1 = data.lookup x.1 := by
        apply hOld
        intro y hy
        obtain ⟨f, -, rfl⟩ := List.mem_map.mp hy
        exact head?_fieldPath_ne hDot
      rw [← hSame, hMerge x.1, hField]
      rfl
    · have hGet := Nested.get_setAll hSet hApart _ (List.mem_map_of_mem hx)
      obtain ⟨hNot, -⟩ | ⟨-, first, second, rest, hPath⟩ := fieldPath_cases x.1
      · exact absurd hDot hNot
      have hFirst : merged.lookup first = data.lookup first := by
        rw [hMerge first, lookup_first hApart hKeys hx hPath]
        rfl
      rw [hPath] at hGet ⊢
      rw [← hGet]
      change (data.lookup first).bind _ = (merged.lookup first).bind _
      rw [hFirst]
  · intro hSettled k
    -- only the names without dots are left
    have hLeft : ∀ x ∈ fieldUpdates fields, decide (x.1.length = 1) = false →
        nestedValue.get (.object data) x.1 = some x.2 := by
      intro x hx hLong
      obtain ⟨f, hf, rfl⟩ := List.mem_map.mp hx
      obtain ⟨-, hPath⟩ | ⟨hDot, -⟩ := fieldPath_cases f.1
      · simp [hPath] at hLong
      · exact (hSettled f hf hDot).2
    rw [Nested.setAll_filter (fun x => decide (x.1.length = 1)) hApart hLeft] at hSet
    obtain ⟨merged', hEq, hOld⟩ := setAll_object (fun x hx => hPaths x (mem_of_mem_filter hx)) hSet
    cases hEq
    cases hField : fields.lookup k with
    | none =>
      refine hOld k fun x hx hHead => ?_
      obtain ⟨hx, hShort⟩ := mem_filter.mp hx
      obtain ⟨f, hf, rfl⟩ := List.mem_map.mp hx
      obtain ⟨-, hPath⟩ | ⟨-, first, second, rest, hPath⟩ := fieldPath_cases f.1
      · obtain rfl : f.1 = k := by simpa [hPath] using hHead
        rw [(lookup_eq_some_iff hKeys).mpr hf] at hField
        cases hField
      · simp [hPath] at hShort
    | some v =>
      have hMem := (lookup_eq_some_iff hKeys).mp hField
      obtain ⟨-, hPath⟩ | ⟨hDot, -⟩ := fieldPath_cases k
      · have hGet := Nested.get_setAll hSet (hApart.filter _) (fieldPath k, v) (by
          rw [mem_filter]
          exact ⟨List.mem_map_of_mem hMem, by simp [hPath]⟩)
        rw [hPath] at hGet
        obtain ⟨u, hChild, hSame⟩ := bind_eq_some_iff.mp hGet
        cases hSame
        exact hChild
      · have hSame : merged.lookup k = data.lookup k := by
          refine hOld k fun x hx => ?_
          obtain ⟨f, -, rfl⟩ := List.mem_map.mp (mem_of_mem_filter hx)
          exact head?_fieldPath_ne hDot
        rw [hSame, (hSettled _ hMem hDot).1]
        rfl

end Updates

end Syntrix.Storage
