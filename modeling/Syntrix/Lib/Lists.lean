import Mathlib

/-! # Lists related element by element -/
namespace Syntrix.Lib

open List

section Push

variable {α : Type} {l : List α} {x a : α}

theorem mem_push : x ∈ l ++ [a] ↔ x ∈ l ∨ x = a := by
  rw [mem_append, mem_singleton]

theorem forall_mem_push {P : α → Prop} (hOld : ∀ x ∈ l, P x) (hNew : P a) (x : α) (hx : x ∈ l ++ [a]) : P x := by
  rcases mem_push.mp hx with hx | rfl
  · exact hOld x hx
  · exact hNew

theorem pairwise_push {R : α → α → Prop} (h : l.Pairwise R) (hNew : ∀ x ∈ l, R x a) : (l ++ [a]).Pairwise R :=
  pairwise_append.mpr ⟨h, pairwise_singleton _ _, fun x hx _ hy => mem_singleton.mp hy ▸ hNew x hx⟩

end Push

variable {α β : Type} {R : α → β → Prop}

variable {as : List α} {bs : List β}

theorem forall₂_mem_left (h : Forall₂ R as bs) {a : α} (ha : a ∈ as) : ∃ b ∈ bs, R a b := by
  induction h with
  | nil => cases ha
  | cons hHead hTail ih =>
    obtain rfl | ha := mem_cons.mp ha
    · exact ⟨_, mem_cons_self, hHead⟩
    · obtain ⟨b, hb, hR⟩ := ih ha
      exact ⟨b, mem_cons_of_mem _ hb, hR⟩

theorem forall₂_mem_right (h : Forall₂ R as bs) {b : β} (hb : b ∈ bs) : ∃ a ∈ as, R a b := by
  obtain ⟨a, ha, hR⟩ := forall₂_mem_left (R := flip R) h.flip hb
  exact ⟨a, ha, hR⟩

theorem forall₂_getElem? (h : Forall₂ R as bs) {k : Nat} {a : α} (ha : as[k]? = some a) : ∃ b, bs[k]? = some b ∧ R a b := by
  induction h generalizing k with
  | nil => simp at ha
  | cons hHead hTail ih =>
    cases k with
    | zero => cases ha; exact ⟨_, rfl, hHead⟩
    | succ k => exact ih ha

theorem forall₂_of_forall_exists (h : ∀ a ∈ as, ∃ b, R a b) : ∃ bs, Forall₂ R as bs := by
  induction as with
  | nil => exact ⟨[], .nil⟩
  | cons a as ih =>
    rw [forall_mem_cons] at h
    obtain ⟨⟨b, hb⟩, hRest⟩ := h
    obtain ⟨bs, hbs⟩ := ih hRest
    exact ⟨b :: bs, .cons hb hbs⟩

theorem forall₂_pairwise {P : α → α → Prop} {Q : β → β → Prop} (h : Forall₂ R as bs)
    (hImp : ∀ a a' b b', R a b → R a' b' → P a a' → Q b b') (hPairs : as.Pairwise P) : bs.Pairwise Q := by
  induction h with
  | nil => exact List.Pairwise.nil
  | cons hHead hTail ih =>
    obtain ⟨hFirst, hRest⟩ := pairwise_cons.mp hPairs
    refine pairwise_cons.mpr ⟨fun b hb => ?_, ih hRest⟩
    obtain ⟨a, ha, hR⟩ := forall₂_mem_right hTail hb
    exact hImp _ a _ b hHead hR (hFirst a ha)

theorem zip_append_of_length_eq {xs : List α} {ys : List β} (h : xs.length = ys.length) (zs : List β) :
    xs.zip (ys ++ zs) = xs.zip ys := by
  have hZip := @List.zip_append _ _ xs [] ys zs h
  simpa using hZip

theorem filter_getElem? {l : List α} {p : α → Bool} {k : Nat} {x : α} (hk : l[k]? = some x) (hx : p x = true) :
    (l.filter p)[((l.take k).filter p).length]? = some x ∧
      (l.filter p).take ((l.take k).filter p).length = (l.take k).filter p := by
  obtain ⟨hLt, rfl⟩ := List.getElem?_eq_some_iff.mp hk
  have hSplit : l.filter p = (l.take k).filter p ++ l[k] :: (l.drop (k + 1)).filter p := by
    conv_lhs => rw [← take_append_drop k l, drop_eq_getElem_cons hLt]
    rw [filter_append, filter_cons_of_pos hx]
  rw [hSplit]
  exact ⟨by simp, by simp⟩

end Syntrix.Lib
