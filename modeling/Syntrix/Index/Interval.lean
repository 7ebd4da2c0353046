import Syntrix.Index.Posting

/-! # Key intervals

Half-open ranges of keys, their intersection, and where a key that continues a prefix with a word
lies relative to the point another word gives.
-/
namespace Syntrix.Index

open Lib OrderCode Model List Option

/-- The keys from `lower` up to `upper`, without end when there is no upper bound. -/
structure KeyInterval where
  lower : Bytes
  upper : Option Bytes
deriving DecidableEq

def KeyInterval.Mem (i : KeyInterval) (k : Bytes) : Prop := ¬ k < i.lower ∧ ∀ u, i.upper = some u → k < u

def Covers (intervals : List KeyInterval) (k : Bytes) : Prop := ∃ i ∈ intervals, i.Mem k

def intersectUpper : Option Bytes → Option Bytes → Option Bytes
  | none, b => b
  | some hi, none => some hi
  | some hi, some b => if b < hi then some b else some hi

def intersectPair (a b : KeyInterval) : Option KeyInterval :=
  let lo := if a.lower < b.lower then b.lower else a.lower
  match intersectUpper a.upper b.upper with
  | none => some ⟨lo, none⟩
  | some hi => if lo < hi then some ⟨lo, some hi⟩ else none

def intersectIntervals (left right : List KeyInterval) : List KeyInterval :=
  left.flatMap fun a => right.filterMap fun b => intersectPair a b

theorem intersectUpper_iff (a b : Option Bytes) (k : Bytes) :
    (∀ u, intersectUpper a b = some u → k < u) ↔ (∀ u, a = some u → k < u) ∧ ∀ u, b = some u → k < u := by
  cases a with
  | none => simp [intersectUpper]
  | some x =>
    cases b with
    | none => simp [intersectUpper]
    | some y =>
      simp only [intersectUpper, some.injEq, forall_eq']
      split
      · rename_i hlt
        simp only [some.injEq, forall_eq']
        exact ⟨fun h => ⟨h.trans hlt, h⟩, fun h => h.2⟩
      · rename_i hlt
        simp only [some.injEq, forall_eq']
        exact ⟨fun h => ⟨h, h.trans_le (not_lt.mp hlt)⟩, fun h => h.1⟩

theorem not_lt_max_iff (a b k : Bytes) : ¬ k < (if a < b then b else a) ↔ ¬ k < a ∧ ¬ k < b := by
  split
  · rename_i hlt
    exact ⟨fun h => ⟨fun hk => h (hk.trans hlt), h⟩, fun h => h.2⟩
  · rename_i hlt
    exact ⟨fun h => ⟨h, fun hk => h (hk.trans_le (not_lt.mp hlt))⟩, fun h => h.1⟩

theorem intersectPair_mem (a b : KeyInterval) (k : Bytes) :
    (∃ i, intersectPair a b = some i ∧ i.Mem k) ↔ a.Mem k ∧ b.Mem k := by
  have hBounds : a.Mem k ∧ b.Mem k ↔
      ¬ k < (if a.lower < b.lower then b.lower else a.lower) ∧
        ∀ u, intersectUpper a.upper b.upper = some u → k < u := by
    rw [not_lt_max_iff, intersectUpper_iff]
    unfold KeyInterval.Mem
    tauto
  rw [hBounds]
  unfold intersectPair
  generalize (if a.lower < b.lower then b.lower else a.lower) = lo
  cases hUpper : intersectUpper a.upper b.upper with
  | none => simp [KeyInterval.Mem]
  | some hi =>
    simp only
    split
    · simp [KeyInterval.Mem]
    rename_i hEmpty
    simp only [reduceCtorEq, false_and, exists_false, false_iff, some.injEq, forall_eq']
    rintro ⟨hLow, hHigh⟩
    exact hEmpty ((not_lt.mp hLow).trans_lt hHigh)

theorem covers_intersectIntervals (left right : List KeyInterval) (k : Bytes) :
    Covers (intersectIntervals left right) k ↔ Covers left k ∧ Covers right k := by
  constructor
  · rintro ⟨i, hi, hMem⟩
    obtain ⟨a, ha, hi⟩ := mem_flatMap.mp hi
    obtain ⟨b, hb, hPair⟩ := mem_filterMap.mp hi
    obtain ⟨hka, hkb⟩ := (intersectPair_mem a b k).mp ⟨i, hPair, hMem⟩
    exact ⟨⟨a, ha, hka⟩, ⟨b, hb, hkb⟩⟩
  · rintro ⟨⟨a, ha, hka⟩, ⟨b, hb, hkb⟩⟩
    obtain ⟨i, hPair, hMem⟩ := (intersectPair_mem a b k).mpr ⟨hka, hkb⟩
    exact ⟨i, mem_flatMap.mpr ⟨a, ha, mem_filterMap.mpr ⟨b, hb, hPair⟩⟩, hMem⟩

theorem covers_singleton (i : KeyInterval) (k : Bytes) : Covers [i] k ↔ i.Mem k := by simp [Covers]

theorem prefixSuccessor_mem_iff (p k : Bytes) : KeyInterval.Mem ⟨p, prefixSuccessor p⟩ k ↔ p <+: k :=
  (prefix_iff_range p k).symm

theorem lt_prefixSuccessor_iff {p s : Bytes} (hs : prefixSuccessor p = some s) (k : Bytes) : k < s ↔ k < p ∨ p <+: k := by
  have hSelf : p < s := ((prefix_iff_range p p).mp (prefix_refl p)).2 s hs
  rw [prefix_iff_range, hs]
  simp only [some.injEq, forall_eq']
  constructor
  · intro hk
    by_cases hp : k < p
    · exact .inl hp
    · exact .inr ⟨hp, hk⟩
  · rintro (hk | ⟨-, hk⟩)
    · exact hk.trans hSelf
    · exact hk

variable {dir : Direction}

variable {rest start v w : Bytes}

theorem lt_point_iff (hw : IsWord dir w) (hv : IsWord dir v) : start ++ (w ++ rest) < start ++ v ↔ wordCmp w v = .lt := by
  have hCarry := hw.comparable hv rest []
  rw [append_nil] at hCarry
  rw [← wordCmp_eq_lt_iff, wordCmp_append_left, hCarry]
  cases hc : wordCmp w v with
  | lt => simp
  | gt => simp
  | eq => cases rest <;> simp [wordCmp]

theorem point_prefix_iff (hw : IsWord dir w) (hv : IsWord dir v) : start ++ v <+: start ++ (w ++ rest) ↔ wordCmp w v = .eq := by
  rw [prefix_append_right_inj, wordCmp_eq_eq_iff]
  constructor
  · rintro ⟨t, ht⟩
    have hCarry := hv.comparable hw t rest
    rw [ht, wordCmp_self] at hCarry
    exact (wordCmp_eq_eq_iff.mp (Ordering.then_eq_eq.mp hCarry.symm).1).symm
  · rintro rfl
    exact prefix_append w rest

theorem lt_next_iff {s : Bytes} (hw : IsWord dir w) (hv : IsWord dir v) (hs : prefixSuccessor (start ++ v) = some s) :
    start ++ (w ++ rest) < s ↔ wordCmp w v ≠ .gt := by
  rw [lt_prefixSuccessor_iff hs, lt_point_iff hw hv, point_prefix_iff hw hv]
  cases wordCmp w v <;> simp

theorem exists_prefixSuccessor (hStart : version ∈ start) (rest : Bytes) : ∃ s, prefixSuccessor (start ++ rest) = some s :=
  isSome_iff_exists.mp
    (prefixSuccessor_isSome (b := version) (by decide) (mem_append_left _ hStart))

theorem whole_bounds (start rest : Bytes) : ¬ start ++ rest < start ∧ ∀ u, prefixSuccessor start = some u → start ++ rest < u :=
  (prefix_iff_range start (start ++ rest)).mp (prefix_append start rest)

theorem family_mem_iff {b tag : Byte} (hTag : tag ≠ 255) :
    KeyInterval.Mem ⟨start ++ [tag], some (start ++ [tag + 1])⟩ (start ++ (b :: rest)) ↔ b = tag := by
  have hLow : ¬ start ++ (b :: rest) < start ++ [tag] ↔ tag ≤ b := by
    rw [← wordCmp_eq_lt_iff, wordCmp_append_left, wordCmp_eq_lt_iff, cons_lt_cons_iff]
    simp
  have hHigh : start ++ (b :: rest) < start ++ [tag + 1] ↔ b ≤ tag := by
    rw [← wordCmp_eq_lt_iff, wordCmp_append_left, wordCmp_eq_lt_iff, cons_lt_cons_iff, lt_add_one_iff hTag]
    simp
  simp only [KeyInterval.Mem, hLow, some.injEq, forall_eq', hHigh]
  exact ⟨fun h => le_antisymm h.2 h.1, fun h => ⟨h.ge, h.le⟩⟩

end Syntrix.Index
