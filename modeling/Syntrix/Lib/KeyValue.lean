import Syntrix.Lib.OrderCode

/-! # Ordered key-value stores

A store maps words to values and iterates in the lexicographic order of its keys. Writes are grouped
in batches.
-/
namespace Syntrix.Lib

open OrderCode

variable {α β : Type} [LinearOrder α]

instance : Std.OrientedCmp (wordCmp (α := α)) := ⟨fun {s t} => (wordCmp_swap t s).symm⟩

instance : Std.TransCmp (wordCmp (α := α)) where
  isLE_trans {s t u} hst htu := by
    simp only [Ordering.isLE_iff_ne_gt, wordCmp_eq_gt_iff] at *
    exact not_lt.mpr ((not_lt.mp hst).trans (not_lt.mp htu))

instance : Std.LawfulEqCmp (wordCmp (α := α)) := ⟨fun h => wordCmp_eq_eq_iff.mp h⟩

abbrev KeyValue (α β : Type) [LinearOrder α] := Std.TreeMap (List α) β wordCmp

namespace KeyValue

theorem toList_sorted (m : KeyValue α β) : m.toList.Pairwise fun x y => x.1 < y.1 :=
  m.ordered_keys_toList.imp fun h => wordCmp_eq_lt_iff.mp h

theorem mem_toList {m : KeyValue α β} {k : List α} {v : β} : (k, v) ∈ m.toList ↔ m[k]? = some v :=
  Std.TreeMap.mem_toList_iff_getElem?_eq_some

theorem getElem?_insert (m : KeyValue α β) (k k' : List α) (v : β) :
    (m.insert k v)[k']? = if k = k' then some v else m[k']? := by
  rw [Std.TreeMap.getElem?_insert]
  simp only [wordCmp_eq_eq_iff]

theorem getElem?_erase (m : KeyValue α β) (k k' : List α) : (m.erase k)[k']? = if k = k' then none else m[k']? := by
  rw [Std.TreeMap.getElem?_erase]
  simp only [wordCmp_eq_eq_iff]

def atLeast (m : KeyValue α β) (lower : List α) : List (List α × β) := m.toList.filter fun x => ¬ x.1 < lower

def before (m : KeyValue α β) (upper : List α) : List (List α × β) := m.toList.filter fun x => x.1 < upper

def setAll (m : KeyValue α β) (entries : List (List α × β)) : KeyValue α β :=
  entries.foldl (fun m x => m.insert x.1 x.2) m

def deleteAll (m : KeyValue α β) (keys : List (List α)) : KeyValue α β := keys.foldl (fun m k => m.erase k) m

theorem getElem?_deleteAll (m : KeyValue α β) (keys : List (List α)) (k : List α) :
    (m.deleteAll keys)[k]? = if k ∈ keys then none else m[k]? := by
  induction keys generalizing m with
  | nil => simp [deleteAll]
  | cons x keys ih =>
    have hStep := ih (m.erase x)
    rw [deleteAll, List.foldl_cons, ← deleteAll, hStep, getElem?_erase]
    by_cases hx : x = k
    · simp [hx]
    · simp [hx, Ne.symm hx]

theorem getElem?_setAll (m : KeyValue α β) (entries : List (List α × β)) (k : List α) :
    (∃ v, (k, v) ∈ entries ∧ (m.setAll entries)[k]? = some v) ∨ k ∉ entries.map Prod.fst ∧ (m.setAll entries)[k]? = m[k]? := by
  induction entries generalizing m with
  | nil => simp [setAll]
  | cons x entries ih =>
    obtain ⟨v, hv, hGet⟩ | ⟨hNot, hGet⟩ := ih (m.insert x.1 x.2)
    · exact .inl ⟨v, List.mem_cons_of_mem _ hv, hGet⟩
    rw [getElem?_insert] at hGet
    split at hGet
    · rename_i hKey
      exact .inl ⟨x.2, by rw [← hKey]; exact List.mem_cons_self, hGet⟩
    rename_i hKey
    refine .inr ⟨?_, hGet⟩
    rw [List.map_cons, List.mem_cons, not_or]
    exact ⟨Ne.symm hKey, hNot⟩

end KeyValue

end Syntrix.Lib
