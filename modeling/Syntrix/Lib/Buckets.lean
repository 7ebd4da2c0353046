import Syntrix.Lib.KeyValue

/-! # Buckets

An index files its entries in lists under nested keys and drops the levels that become empty. Lists filed in
order of arrival are the entries that belong under their key.
-/
namespace Syntrix.Lib

open OrderCode

variable {α β γ : Type} [LinearOrder α]

namespace KeyValue

/-- Store a level of an index, or drop it when it is vacant. -/
def keep (m : KeyValue α β) (k : List α) (v : β) (vacant : Bool) : KeyValue α β := if vacant then m.erase k else m.insert k v

theorem bind_keep (m : KeyValue α β) (k k' : List α) (v : β) {vacant : Bool} {f : β → Option γ} (hVacant : vacant = true → f v = none) :
    (m.keep k v vacant)[k']?.bind f = if k = k' then f v else m[k']?.bind f := by
  unfold keep
  by_cases hv : vacant = true
  · rw [if_pos hv, getElem?_erase]
    split
    · exact (hVacant hv).symm
    · rfl
  · rw [if_neg hv, getElem?_insert]
    split <;> rfl

theorem getD_keep (m : KeyValue α (List β)) (k k' : List α) (v : List β) :
    (m.keep k v v.isEmpty)[k']?.getD [] = if k = k' then v else m[k']?.getD [] := by
  cases v with
  | nil =>
    rw [keep, if_pos List.isEmpty_nil, getElem?_erase]
    split <;> rfl
  | cons x v =>
    rw [keep, if_neg (by simp), getElem?_insert]
    split <;> rfl

theorem bind_insert (m : KeyValue α β) (k k' : List α) (v : β) (f : β → Option γ) :
    (m.insert k v)[k']?.bind f = if k = k' then f v else m[k']?.bind f := by
  rw [getElem?_insert]
  split <;> rfl

theorem getElem?_getD_empty (level : Option (KeyValue α β)) (k : List α) : (level.getD ∅)[k]? = level.bind (·[k]?) := by
  cases level with
  | none => exact Std.TreeMap.getElem?_emptyc
  | some m => rfl

end KeyValue

section Unique

variable {κ : Type} [DecidableEq κ] {key : β → κ} {entries : List β}

theorem eraseP_key (hUnique : (entries.map key).Nodup) (k : κ) :
    entries.eraseP (fun e => decide (key e = k)) = entries.filter fun e => decide (key e ≠ k) := by
  induction entries with
  | nil => rfl
  | cons a entries ih =>
    obtain ⟨hFresh, hRest⟩ := List.nodup_cons.mp hUnique
    by_cases ha : key a = k
    · have hOthers : ∀ e ∈ entries, decide (key e ≠ k) = true := by
        intro e he
        refine decide_eq_true fun hk => hFresh ?_
        rw [ha, ← hk]
        exact List.mem_map_of_mem he
      rw [List.eraseP_cons_of_pos (by simp [ha]), List.filter_cons_of_neg (by simp [ha]), List.filter_eq_self.mpr hOthers]
    · simp [ha, ih hRest]

end Unique

end Syntrix.Lib
