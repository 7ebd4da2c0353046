import Mathlib.Logic.Function.Basic

/-! # Tables

A table gives some of its keys a value. What is found in it after a write is what was written, or was there
before under another key.
-/
namespace Syntrix.Lib

variable {κ β : Type} [DecidableEq κ] {table : κ → Option β} {k i : κ} {new : Option β} {v : β}

theorem update_eq_some_iff : Function.update table k new i = some v ↔ i = k ∧ new = some v ∨ i ≠ k ∧ table i = some v := by
  by_cases hSame : i = k
  · subst hSame
    simp
  · simp [hSame]

theorem update_eq_none (h : Function.update table k (some v) i = none) : i ≠ k ∧ table i = none := by
  by_cases hSame : i = k
  · subst hSame
    simp at h
  · rw [Function.update_of_ne hSame] at h
    exact ⟨hSame, h⟩

theorem forall_update {P : κ → β → Prop} (hOld : ∀ i v, table i = some v → P i v) (hNew : ∀ v, new = some v → P k v) (i : κ) (v : β)
    (h : Function.update table k new i = some v) : P i v := by
  rcases update_eq_some_iff.mp h with ⟨rfl, hv⟩ | ⟨-, hv⟩
  · exact hNew v hv
  · exact hOld i v hv

end Syntrix.Lib
