import Mathlib

/-! # Words that carry a comparison

A code maps values to words over a linearly ordered alphabet. It carries a comparison when the
comparison of two words, each followed by anything, is the comparison of the values first and of
what follows second. One such statement gives the order, injectivity up to the comparison and
prefix-freeness, and it composes under concatenation and under order-reversing relabelling.
-/
namespace Syntrix.Lib.OrderCode

open List

variable {α β ι : Type*} [LinearOrder α] [LinearOrder β]

def wordCmp : List α → List α → Ordering
  | [], [] => .eq
  | [], _ :: _ => .lt
  | _ :: _, [] => .gt
  | a :: s, b :: t => (cmp a b).then (wordCmp s t)

@[simp] theorem wordCmp_cons_cons (a b : α) (s t : List α) :
    wordCmp (a :: s) (b :: t) = (cmp a b).then (wordCmp s t) := rfl

@[simp] theorem wordCmp_self (s : List α) : wordCmp s s = .eq := by
  induction s with
  | nil => rfl
  | cons a s ih => rw [wordCmp_cons_cons, cmp_self_eq_eq, ih]; rfl

theorem wordCmp_swap (s t : List α) : (wordCmp s t).swap = wordCmp t s := by
  induction s generalizing t with
  | nil => cases t <;> rfl
  | cons a s ih =>
    cases t with
    | nil => rfl
    | cons b t =>
      rw [wordCmp_cons_cons, wordCmp_cons_cons, ← ih t, ← cmp_swap a b]
      cases cmp a b <;> rfl

variable {s t : List α}

theorem wordCmp_eq_lt_iff : wordCmp s t = .lt ↔ s < t := by
  induction s generalizing t with
  | nil =>
    cases t with
    | nil | cons b t => simp [wordCmp]
  | cons a s ih =>
    cases t with
    | nil => simp [wordCmp]
    | cons b t =>
      rw [wordCmp_cons_cons, cons_lt_cons_iff, ← ih, ← cmp_eq_lt_iff a b, ← cmp_eq_eq_iff a b]
      cases cmp a b <;> simp [Ordering.then]

@[simp] theorem wordCmp_eq_eq_iff : wordCmp s t = .eq ↔ s = t := by
  constructor
  · intro h
    induction s generalizing t with
    | nil =>
      cases t with
      | nil => rfl
      | cons b t => cases h
    | cons a s ih =>
      cases t with
      | nil => cases h
      | cons b t =>
        rw [wordCmp_cons_cons] at h
        cases hab : cmp a b <;> rw [hab] at h
        · cases h
        · rw [(cmp_eq_eq_iff a b).mp hab, ih h]
        · cases h
  · rintro rfl
    exact wordCmp_self s

theorem wordCmp_eq_gt_iff : wordCmp s t = .gt ↔ t < s := by
  rw [← wordCmp_eq_lt_iff, ← wordCmp_swap t s]
  cases wordCmp t s <;> simp

@[simp] theorem wordCmp_append_left (p s t : List α) :
    wordCmp (p ++ s) (p ++ t) = wordCmp s t := by
  induction p with
  | nil => rfl
  | cons a p ih =>
    rw [cons_append, cons_append, wordCmp_cons_cons, cmp_self_eq_eq, ih]
    rfl

variable {x y : List α}

theorem wordCmp_append_of_length_eq (h : x.length = y.length) (s t : List α) :
    wordCmp (x ++ s) (y ++ t) = (wordCmp x y).then (wordCmp s t) := by
  induction x generalizing y with
  | nil =>
    have hNil : y = [] := length_eq_zero_iff.mp h.symm
    subst hNil
    rfl
  | cons a x ih =>
    cases y with
    | nil => cases h
    | cons b y =>
      rw [cons_append, cons_append, wordCmp_cons_cons, ih (Nat.succ.inj h),
        wordCmp_cons_cons, Ordering.then_assoc]

variable {r : α → β}

theorem wordCmp_map_of_strictAnti (hr : StrictAnti r) (h : x.length = y.length) : wordCmp (x.map r) (y.map r) = wordCmp y x := by
  induction x generalizing y with
  | nil =>
    have hNil : y = [] := length_eq_zero_iff.mp h.symm
    subst hNil
    rfl
  | cons a x ih =>
    cases y with
    | nil => cases h
    | cons b y =>
      rw [map_cons, map_cons, wordCmp_cons_cons, ih (Nat.succ.inj h),
        hr.cmp_map_eq, wordCmp_cons_cons]

/-- The two words part at one letter, and the left one has the smaller letter there. -/
def Diverges (x y : List α) : Prop :=
  ∃ p a b s t, x = p ++ a :: s ∧ y = p ++ b :: t ∧ a < b

theorem Diverges.cons (a : α) (h : Diverges x y) : Diverges (a :: x) (a :: y) := by
  obtain ⟨p, b, c, s, t, rfl, rfl, hbc⟩ := h
  exact ⟨a :: p, b, c, s, t, rfl, rfl, hbc⟩

theorem Diverges.append_lt (h : Diverges x y) (s t : List α) : x ++ s < y ++ t := by
  obtain ⟨p, a, b, u, v, rfl, rfl, hab⟩ := h
  rw [append_assoc, append_assoc]
  exact append_left_lt (cons_lt_cons_iff.mpr (.inl hab))

theorem Diverges.map_strictAnti (hr : StrictAnti r) (h : Diverges x y) : Diverges (y.map r) (x.map r) := by
  obtain ⟨p, a, b, u, v, rfl, rfl, hab⟩ := h
  exact ⟨p.map r, r b, r a, v.map r, u.map r, by simp, by simp, hr hab⟩

theorem diverges_of_forall_append_lt (h : ∀ s t, x ++ s < y ++ t) : Diverges x y := by
  induction x generalizing y with
  | nil => exact absurd (h (y ++ []) []) (lt_irrefl _)
  | cons a x ih =>
    cases y with
    | nil => exact absurd (h [] []) (not_lt_nil _)
    | cons b y =>
      rcases cons_lt_cons_iff.mp (h [] []) with hab | ⟨rfl, _⟩
      · exact ⟨[], a, b, x, y, rfl, rfl, hab⟩
      refine (ih fun s t => ?_).cons a
      rcases cons_lt_cons_iff.mp (h s t) with hlt | ⟨_, hlt⟩
      · exact absurd hlt (lt_irrefl _)
      · exact hlt

/-- Comparing code words compares the values first and what follows second. -/
def Carries (f : ι → List α) (c : ι → ι → Ordering) : Prop :=
  ∀ i j s t, wordCmp (f i ++ s) (f j ++ t) = (c i j).then (wordCmp s t)

namespace Carries

variable {f : ι → List α} {c : ι → ι → Ordering}

theorem cmp_eq (h : Carries f c) (i j : ι) : wordCmp (f i) (f j) = c i j := by
  have hWords := h i j [] []
  rw [append_nil, append_nil, wordCmp_self] at hWords
  rw [hWords]
  cases c i j <;> rfl

theorem eq_iff (h : Carries f c) (i j : ι) : f i = f j ↔ c i j = .eq := by
  rw [← h.cmp_eq, wordCmp_eq_eq_iff]

theorem swap (h : Carries f c) (i j : ι) : c j i = (c i j).swap := by
  rw [← h.cmp_eq, ← h.cmp_eq, wordCmp_swap]

theorem diverges (h : Carries f c) {i j : ι} (hij : c i j = .lt) : Diverges (f i) (f j) := by
  apply diverges_of_forall_append_lt
  intro s t
  rw [← wordCmp_eq_lt_iff, h i j s t, hij]
  rfl

theorem eq_of_isPrefix (h : Carries f c) {i j : ι} (hp : f i <+: f j) : f i = f j := by
  obtain ⟨t, ht⟩ := hp
  have hWords := h i j t []
  rw [ht, append_nil, wordCmp_self] at hWords
  apply (h.eq_iff i j).mpr
  cases hc : c i j with
  | lt | gt => rw [hc] at hWords; cases hWords
  | eq => rfl

theorem map_strictAnti (h : Carries f c) {r : α → β} (hr : StrictAnti r) :
    Carries (fun i => (f i).map r) (fun i j => c j i) := by
  intro i j s t
  change _ = (c j i).then _
  cases hc : c i j with
  | lt =>
    rw [h.swap i j, hc]
    exact wordCmp_eq_gt_iff.mpr (((h.diverges hc).map_strictAnti hr).append_lt t s)
  | eq =>
    have hWord : f i = f j := (h.eq_iff i j).mpr hc
    rw [h.swap i j, hc]
    change wordCmp ((f i).map r ++ s) ((f j).map r ++ t) = wordCmp s t
    rw [hWord, wordCmp_append_left]
  | gt =>
    have hji : c j i = .lt := by rw [h.swap i j, hc]; rfl
    rw [hji]
    exact wordCmp_eq_lt_iff.mpr (((h.diverges hji).map_strictAnti hr).append_lt s t)

end Carries

end Syntrix.Lib.OrderCode
