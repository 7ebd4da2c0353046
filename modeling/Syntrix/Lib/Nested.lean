import Mathlib

/-! # Nested values

Values with children under keys, read and set along a path. Along a path the missing values are made; a
path that neither begins with another one nor begins it can be set without changing what the other reads.
-/
namespace Syntrix.Lib

open List Option

/-- How a value is nested. Replacing a child leaves those under other keys where they are, and puts nothing new
in place of an equal one; some values refuse a child. -/
structure Nested (κ V : Type) where
  child : V → κ → Option V
  replace : V → κ → V → Option V
  single : κ → V → V
  child_replace : ∀ {v w v' : V} {k : κ}, replace v k w = some v' → child v' k = some w
  child_replace_of_ne : ∀ {v w v' u : V} {k k' : κ}, replace v k w = some v' → k' ≠ k → child v k' = some u →
    child v' k' = some u
  replace_child : ∀ {v w : V} {k : κ}, child v k = some w → replace v k w = some v
  child_single : ∀ (k : κ) (w : V), child (single k w) k = some w

namespace Nested

variable {κ V : Type} (N : Nested κ V)

def get : V → List κ → Option V
  | v, [] => some v
  | v, k :: path => (N.child v k).bind fun u => get u path

/-- The value that only has a path. -/
def nest : List κ → V → V
  | [], w => w
  | k :: path, w => N.single k (nest path w)

def set : V → List κ → V → Option V
  | _, [], w => some w
  | v, k :: path, w =>
    match N.child v k with
    | some u => (set u path w).bind (N.replace v k)
    | none => N.replace v k (N.nest path w)

def setAll (v : V) (updates : List (List κ × V)) : Option V := updates.foldlM (fun v x => N.set v x.1 x.2) v

def Apart (p q : List κ) : Prop := ¬ p <+: q ∧ ¬ q <+: p

instance decidableApart [DecidableEq κ] (p q : List κ) : Decidable (Apart p q) := inferInstanceAs (Decidable (_ ∧ _))

theorem Apart.symm {p q : List κ} (h : Apart p q) : Apart q p := ⟨h.2, h.1⟩

theorem apart_cons {k : κ} {p q : List κ} : Apart (k :: p) (k :: q) ↔ Apart p q := by
  simp [Apart, cons_prefix_cons]

variable {N} {v v' w u : V} {k : κ} {path other : List κ} {updates : List (List κ × V)}

theorem get_nest (path : List κ) (w : V) : N.get (N.nest path w) path = some w := by
  induction path with
  | nil => rfl
  | cons k path ih =>
    rw [nest, get, N.child_single]
    exact ih

theorem set_cons (h : N.set v (k :: path) w = some v') :
    ∃ u, N.replace v k u = some v' ∧
      ((∃ old, N.child v k = some old ∧ N.set old path w = some u) ∨ N.child v k = none ∧ u = N.nest path w) := by
  rw [set] at h
  cases hChild : N.child v k with
  | none =>
    rw [hChild] at h
    exact ⟨_, h, .inr ⟨rfl, rfl⟩⟩
  | some old =>
    rw [hChild] at h
    obtain ⟨u, hSet, hReplace⟩ := bind_eq_some_iff.mp h
    exact ⟨u, hReplace, .inl ⟨old, rfl, hSet⟩⟩

theorem get_set (h : N.set v path w = some v') : N.get v' path = some w := by
  induction path generalizing v v' with
  | nil =>
    cases h
    rfl
  | cons k path ih =>
    obtain ⟨u, hReplace, hCases⟩ := set_cons h
    rw [get, N.child_replace hReplace]
    obtain ⟨old, -, hSet⟩ | ⟨-, rfl⟩ := hCases
    · exact ih hSet
    · exact get_nest path w

theorem get_set_of_apart (h : N.set v path w = some v') (hApart : Apart path other) (hGet : N.get v other = some u) :
    N.get v' other = some u := by
  induction path generalizing v v' other with
  | nil => exact absurd nil_prefix hApart.1
  | cons k path ih =>
    obtain ⟨x, hReplace, hCases⟩ := set_cons h
    cases other with
    | nil => exact absurd nil_prefix hApart.2
    | cons k' other =>
      obtain ⟨y, hChild, hRest⟩ := bind_eq_some_iff.mp hGet
      by_cases hKey : k' = k
      · subst hKey
        obtain ⟨old, hOld, hSet⟩ | ⟨hNone, -⟩ := hCases
        · cases hOld.symm.trans hChild
          rw [get, N.child_replace hReplace]
          exact ih hSet (apart_cons.mp hApart) hRest
        · rw [hNone] at hChild
          cases hChild
      · rw [get, N.child_replace_of_ne hReplace hKey hChild]
        exact hRest

theorem set_get (h : N.get v path = some w) : N.set v path w = some v := by
  induction path generalizing v with
  | nil =>
    cases h
    rfl
  | cons k path ih =>
    obtain ⟨u, hChild, hRest⟩ := bind_eq_some_iff.mp h
    rw [set, hChild]
    change (N.set u path w).bind (N.replace v k) = some v
    rw [ih hRest]
    exact N.replace_child hChild

theorem setAll_cons {x : List κ × V} : N.setAll v (x :: updates) = (N.set v x.1 x.2).bind fun v => N.setAll v updates := rfl

theorem get_setAll_of_apart (h : N.setAll v updates = some v') (hApart : ∀ x ∈ updates, Apart x.1 other)
    (hGet : N.get v other = some u) : N.get v' other = some u := by
  induction updates generalizing v with
  | nil =>
    cases h
    exact hGet
  | cons x updates ih =>
    rw [forall_mem_cons] at hApart
    obtain ⟨next, hSet, hRest⟩ := bind_eq_some_iff.mp h
    exact ih hRest hApart.2 (get_set_of_apart hSet hApart.1 hGet)

theorem get_setAll (h : N.setAll v updates = some v') (hApart : updates.Pairwise fun x y => Apart x.1 y.1) :
    ∀ x ∈ updates, N.get v' x.1 = some x.2 := by
  induction updates generalizing v with
  | nil => simp
  | cons x updates ih =>
    obtain ⟨hFirst, hLater⟩ := pairwise_cons.mp hApart
    obtain ⟨next, hSet, hRest⟩ := bind_eq_some_iff.mp h
    rw [forall_mem_cons]
    exact ⟨get_setAll_of_apart hRest (fun y hy => (hFirst y hy).symm) (get_set hSet), ih hRest hLater⟩

theorem setAll_filter (p : List κ × V → Bool) (hApart : updates.Pairwise fun x y => Apart x.1 y.1)
    (hThere : ∀ x ∈ updates, p x = false → N.get v x.1 = some x.2) : N.setAll v updates = N.setAll v (updates.filter p) := by
  induction updates generalizing v with
  | nil => rfl
  | cons x updates ih =>
    obtain ⟨hFirst, hLater⟩ := pairwise_cons.mp hApart
    rw [forall_mem_cons] at hThere
    cases hp : p x with
    | false =>
      rw [setAll_cons, set_get (hThere.1 hp), filter_cons_of_neg (by simp [hp])]
      exact ih hLater hThere.2
    | true =>
      rw [filter_cons_of_pos hp, setAll_cons, setAll_cons]
      cases hSet : N.set v x.1 x.2 with
      | none => rfl
      | some next =>
        refine ih hLater fun y hy hNot => ?_
        exact get_set_of_apart hSet (hFirst y hy) (hThere.2 y hy hNot)

end Nested

end Syntrix.Lib
