import Mathlib

/-! # Fields

A finite map as the list of its fields. Sorting by key gives each map one list, and an assignment replaces the
field of its key.
-/
namespace Syntrix.Lib.Fields

open List

variable {κ α β : Type}

def keys (fields : List (κ × α)) : List κ := fields.map Prod.fst

def put [DecidableEq κ] : List (κ × α) → κ → α → List (κ × α)
  | [], key, v => [(key, v)]
  | f :: fields, key, v => if f.1 = key then (key, v) :: fields else f :: put fields key v

section Order

variable [LinearOrder κ]

def sort (fields : List (κ × α)) : List (κ × α) := fields.insertionSort fun a b => a.1 ≤ b.1

def assign (fields : List (κ × α)) (field : κ × α) : List (κ × α) := fields.filter (fun x => x.1 ≠ field.1) ++ [field]

def ofMembers (members : List (κ × α)) : List (κ × α) := members.foldl assign []

theorem sort_perm (fields : List (κ × α)) : (sort fields).Perm fields := perm_insertionSort _ fields

theorem keys_nodup_sort {fields : List (κ × α)} : (keys (sort fields)).Nodup ↔ (keys fields).Nodup :=
  ((sort_perm fields).map Prod.fst).nodup_iff

theorem sort_of_sorted {fields : List (κ × α)} (h : fields.Pairwise fun a b => a.1 ≤ b.1) : sort fields = fields :=
  List.Pairwise.insertionSort_eq h

@[simp] theorem sort_sort (fields : List (κ × α)) : sort (sort fields) = sort fields := sort_of_sorted (pairwise_insertionSort _ fields)

theorem forall₂_sort {R : α → β → Prop} {xs : List (κ × α)} {ys : List (κ × β)}
    (h : Forall₂ (fun x y => x.1 = y.1 ∧ R x.2 y.2) xs ys) :
    Forall₂ (fun x y => x.1 = y.1 ∧ R x.2 y.2) (sort xs) (sort ys) := by
  have insert : ∀ {x : κ × α} {y : κ × β} {xs : List (κ × α)} {ys : List (κ × β)}, x.1 = y.1 ∧ R x.2 y.2 →
      Forall₂ (fun x y => x.1 = y.1 ∧ R x.2 y.2) xs ys →
      Forall₂ (fun x y => x.1 = y.1 ∧ R x.2 y.2) (xs.orderedInsert (fun a b => a.1 ≤ b.1) x)
        (ys.orderedInsert (fun a b => a.1 ≤ b.1) y) := by
    intro x y xs ys hxy hRest
    induction hRest with
    | nil => exact .cons hxy .nil
    | @cons x' y' xs ys hHead hTail ih =>
      rw [orderedInsert_cons, orderedInsert_cons, hxy.1, hHead.1]
      split
      · exact .cons hxy (.cons hHead hTail)
      · exact .cons hHead ih
  induction h with
  | nil => exact .nil
  | cons hHead hTail ih => exact insert hHead ih

theorem ofMembers_of_nodup {members : List (κ × α)} (h : (keys members).Nodup) : ofMembers members = members := by
  suffices hFold : ∀ fields : List (κ × α), (keys (fields ++ members)).Nodup → members.foldl assign fields = fields ++ members from
    hFold [] h
  induction members with
  | nil => intro fields _; simp
  | cons m members ih =>
    intro fields hKeys
    have hFresh : fields.filter (fun x => x.1 ≠ m.1) = fields := by
      rw [filter_eq_self]
      intro x hx
      simp only [keys, map_append, map_cons, nodup_append, List.mem_map] at hKeys
      simpa using hKeys.2.2 x.1 ⟨x, hx, rfl⟩ m.1 mem_cons_self
    rw [foldl_cons, assign, hFresh, ih (nodup_cons.mp h).2 _ (by simpa using hKeys), append_assoc,
      singleton_append]

end Order

theorem keys_forall₂ {R : α → β → Prop} {xs : List (κ × α)} {ys : List (κ × β)}
    (h : Forall₂ (fun x y => x.1 = y.1 ∧ R x.2 y.2) xs ys) : keys xs = keys ys := by
  induction h with
  | nil => rfl
  | @cons x y xs ys hHead hTail ih =>
    change x.1 :: keys xs = y.1 :: keys ys
    rw [hHead.1, ih]

section Lookup

variable [BEq κ] [LawfulBEq κ]

variable {fields : List (κ × α)}

theorem lookup_eq_some_iff (h : (keys fields).Nodup) {key : κ} {v : α} : fields.lookup key = some v ↔ (key, v) ∈ fields := by
  induction fields with
  | nil => simp
  | cons f fields ih =>
    obtain ⟨k, w⟩ := f
    obtain ⟨hFresh, hRest⟩ := nodup_cons.mp h
    cases hk : key == k with
    | true =>
      obtain rfl := eq_of_beq hk
      have hNot : (key, v) ∉ fields := fun hMem => hFresh (List.mem_map.mpr ⟨_, hMem, rfl⟩)
      simp [hNot, eq_comm]
    | false =>
      have hNe : key ≠ k := beq_eq_false_iff_ne.mp hk
      rw [lookup_cons, hk, ih hRest]
      simp [hNe]

theorem lookup_put [DecidableEq κ] (fields : List (κ × α)) (key : κ) (v : α) (k : κ) :
    (put fields key v).lookup k = if k = key then some v else fields.lookup k := by
  induction fields with
  | nil =>
    rw [put, lookup_cons]
    by_cases hKey : k = key
    · simp [hKey]
    · rw [beq_eq_false_iff_ne.mpr hKey, if_neg hKey]
  | cons f fields ih =>
    obtain ⟨k', w⟩ := f
    by_cases hFirst : k' = key
    · subst hFirst
      by_cases hKey : k = k' <;> simp [put, hKey, lookup_cons, beq_eq_false_iff_ne.mpr]
    rw [put, if_neg hFirst, lookup_cons, lookup_cons, ih]
    cases hk : k == k' with
    | true =>
      obtain rfl := eq_of_beq hk
      exact (if_neg hFirst).symm
    | false => rfl

theorem put_of_lookup [DecidableEq κ] {key : κ} {v : α} (h : fields.lookup key = some v) : put fields key v = fields := by
  induction fields with
  | nil => cases h
  | cons f fields ih =>
    obtain ⟨k', w⟩ := f
    by_cases hFirst : k' = key
    · subst hFirst
      rw [lookup_cons_self] at h
      rw [put, if_pos rfl, Option.some.inj h]
    · have hBeq : (key == k') = false := beq_eq_false_iff_ne.mpr (Ne.symm hFirst)
      rw [lookup_cons, hBeq] at h
      rw [put, if_neg hFirst, ih h]

theorem lookup_sort [LinearOrder κ] (h : (keys fields).Nodup) (key : κ) : (sort fields).lookup key = fields.lookup key := by
  apply Option.ext
  intro v
  rw [lookup_eq_some_iff (keys_nodup_sort.mpr h), lookup_eq_some_iff h, (sort_perm fields).mem_iff]

omit [LawfulBEq κ] in
theorem lookup_forall₂ {R : α → β → Prop} {xs : List (κ × α)} {ys : List (κ × β)}
    (h : Forall₂ (fun x y => x.1 = y.1 ∧ R x.2 y.2) xs ys) (key : κ) : Option.Rel R (xs.lookup key) (ys.lookup key) := by
  induction h with
  | nil => exact .none
  | @cons x y xs ys hHead hTail ih =>
    obtain ⟨k, x⟩ := x
    obtain ⟨k', y⟩ := y
    obtain ⟨hSame, hR⟩ := hHead
    obtain rfl : k = k' := hSame
    rw [lookup_cons, lookup_cons]
    cases key == k with
    | true => exact .some hR
    | false => exact ih

end Lookup

end Syntrix.Lib.Fields
