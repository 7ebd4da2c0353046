import Syntrix.Model.FilterKey

/-! # The order of numbers and scalars

Integers and floats compare by the rationals they denote, and the comparison of scalars is a total order
in which two values are equal exactly when they stand for the same thing.
-/
namespace Syntrix.Model

open Lib OrderCode

inductive Number where
  | int (v : Int64)
  | float (f : Binary64) (finite : f.isSpecial = false)

namespace Number

def toValue : Number → Value
  | .int v => .int v
  | .float f _ => .float64 f

def toRat : Number → ℚ
  | .int v => v.toInt
  | .float f _ => f.toRat

theorem scalarKey_toValue (n : Number) : ∃ key, scalarKey n.toValue = .ok key ∧ (Component.number n.toRat).Encodes key := by
  have hKey : ∃ key, scalarKey n.toValue = .ok key := by
    cases n with
    | int v => exact ⟨_, rfl⟩
    | float f finite =>
      simp only [toValue, scalarKey, normalizeValue, normalizeFloat, finite]
      cases f.isZero <;> exact ⟨_, rfl⟩
  obtain ⟨key, hKey⟩ := hKey
  obtain ⟨c, hComponent, hEncodes⟩ := scalarKey_encodes hKey
  have hNumber : c = .number n.toRat := by
    cases n with
    | int v | float f finite => exact (Option.some.inj hComponent).symm
  exact ⟨key, hKey, hNumber ▸ hEncodes⟩

end Number

def Scalar : Type := { v : Value // ∃ key, scalarKey v = .ok key }

namespace Scalar

theorem exists_component (s : Scalar) : ∃ key c, scalarKey s.val = .ok key ∧ component s.val = some c ∧ c.Encodes key := by
  obtain ⟨key, hKey⟩ := s.property
  obtain ⟨c, hComponent, hEncodes⟩ := scalarKey_encodes hKey
  exact ⟨key, c, hKey, hComponent, hEncodes⟩

noncomputable def key (s : Scalar) : Bytes := s.property.choose

theorem scalarKey_eq (s : Scalar) : scalarKey s.val = .ok s.key := s.property.choose_spec

theorem compareValues_eq (s t : Scalar) : compareValues s.val t.val = .ok (wordCmp s.key t.key) := by
  rw [compareValues, s.scalarKey_eq, t.scalarKey_eq]
  rfl

theorem wordCmp_key_eq_iff (s t : Scalar) : wordCmp s.key t.key = .eq ↔ component s.val = component t.val := by
  obtain ⟨x, a, hx, ha, hax⟩ := s.exists_component
  obtain ⟨y, b, hy, hb, hby⟩ := t.exists_component
  rw [Except.ok.inj (s.scalarKey_eq.symm.trans hx), Except.ok.inj (t.scalarKey_eq.symm.trans hy), hax.wordCmp_eq hby,
    Component.compare_eq_iff, ha, hb, Option.some.injEq]

end Scalar

theorem wordCmp_transCmp {α : Type} (f : α → Bytes) : Std.TransCmp fun a b => wordCmp (f a) (f b) where
  eq_swap := (wordCmp_swap _ _).symm
  isLE_trans {a b c} hab hbc := by
    have hLe : ∀ {x y : α}, (wordCmp (f x) (f y)).isLE = true ↔ ¬ f y < f x := by
      intro x y
      rw [← wordCmp_eq_gt_iff]
      cases wordCmp (f x) (f y) <;> decide
    rw [hLe, not_lt] at *
    exact hab.trans hbc

namespace Number

theorem compareValues_toValue (a b : Number) : compareValues a.toValue b.toValue = .ok (cmp a.toRat b.toRat) := by
  obtain ⟨x, hx, hax⟩ := a.scalarKey_toValue
  obtain ⟨y, hy, hby⟩ := b.scalarKey_toValue
  rw [compareValues, hx, hy]
  exact congrArg Except.ok (hax.wordCmp_eq hby)

theorem equalValues_toValue (a b : Number) : equalValues a.toValue b.toValue = true ↔ a.toRat = b.toRat := by
  rw [equalValues, compareValues_toValue, ← cmp_eq_eq_iff a.toRat b.toRat]
  generalize cmp a.toRat b.toRat = o
  cases o <;> simp

end Number

/-- Numbers compare exactly, scalars are totally ordered, and an integer equals a float exactly when both
denote the same rational. -/
theorem scalar_order_exact :
    (∀ a b : Number, ∃ x y, scalarKey a.toValue = .ok x ∧ scalarKey b.toValue = .ok y ∧ wordCmp x y = cmp a.toRat b.toRat) ∧
    (∃ order : Scalar → Scalar → Ordering, (∀ s t, compareValues s.val t.val = .ok (order s t)) ∧ Std.TransCmp order ∧
      ∀ s t, order s t = .eq ↔ component s.val = component t.val) ∧
    ∀ a b : Number, equalValues a.toValue b.toValue = true ↔ a.toRat = b.toRat := by
  refine ⟨fun a b => ?_, ⟨fun s t => wordCmp s.key t.key, Scalar.compareValues_eq, wordCmp_transCmp Scalar.key,
    Scalar.wordCmp_key_eq_iff⟩, Number.equalValues_toValue⟩
  obtain ⟨x, hx, hax⟩ := a.scalarKey_toValue
  obtain ⟨y, hy, hby⟩ := b.scalarKey_toValue
  exact ⟨x, y, hx, hy, hax.wordCmp_eq hby⟩

-- An integer that no float denotes lies strictly between its neighbours.
example : compareValues (.int 9007199254740993) (.float64 ⟨false, 1076, 0⟩) = .ok .gt := by decide

end Syntrix.Model
