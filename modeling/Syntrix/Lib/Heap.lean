import Mathlib

/-! # Binary heaps

A priority queue in an array, the children of place `i` at `2 * i + 1` and `2 * i + 2`. An element is
pushed at the end and sifted up; the least one is taken from the front, the last one put in its place
and sifted down.
-/
namespace Syntrix.Lib.Heap

open List Option Array

variable {α κ : Type}

def parent (i : Nat) : Nat := (i - 1) / 2

def less (before : α → α → Bool) (h : Array α) (i j : Nat) : Bool :=
  match h[i]?, h[j]? with
  | some x, some y => before x y
  | _, _ => false

/-- Sift up from place `j`; every round halves the place. -/
def up (before : α → α → Bool) : Nat → Array α → Nat → Array α
  | 0, h, _ => h
  | fuel + 1, h, j =>
    if parent j = j ∨ less before h j (parent j) = false then h
    else up before fuel (h.swapIfInBounds (parent j) j) (parent j)

/-- The smaller child of place `i` among the first `n` places. -/
def child (before : α → α → Bool) (n : Nat) (h : Array α) (i : Nat) : Nat :=
  if 2 * i + 2 < n ∧ less before h (2 * i + 2) (2 * i + 1) = true then 2 * i + 2 else 2 * i + 1

/-- Sift down from place `i` among the first `n` places. -/
def down (before : α → α → Bool) (n : Nat) : Nat → Array α → Nat → Array α
  | 0, h, _ => h
  | fuel + 1, h, i =>
    if n ≤ 2 * i + 1 ∨ less before h (child before n h i) i = false then h
    else down before n fuel (h.swapIfInBounds i (child before n h i)) (child before n h i)

def push (before : α → α → Bool) (h : Array α) (x : α) : Array α :=
  up before (h.size + 1) (h.push x) h.size

def pop (before : α → α → Bool) (h : Array α) : Option (α × Array α) :=
  let sifted := down before (h.size - 1) h.size (h.swapIfInBounds 0 (h.size - 1)) 0
  sifted.back?.map fun x => (x, sifted.pop)

theorem getElem?_swapIfInBounds {h : Array α} {i j : Nat} (hi : i < h.size) (hj : j < h.size) (k : Nat) :
    (h.swapIfInBounds i j)[k]? = if k = i then h[j]? else if k = j then h[i]? else h[k]? := by
  have hSwap : h.swapIfInBounds i j = h.swap i j hi hj := by simp [swapIfInBounds, hi, hj]
  rw [hSwap]
  by_cases hki : k = i
  · subst hki
    simp only [if_true]
    rw [Array.getElem?_eq_getElem (by simpa using hi), Array.getElem_swap, Array.getElem?_eq_getElem hj, if_pos rfl]
  · rw [if_neg hki, Array.getElem?_swap, if_neg (Ne.symm hki)]
    simp only [eq_comm, Array.getElem?_eq_getElem hi]

theorem swapIfInBounds_perm (h : Array α) (i j : Nat) : (h.swapIfInBounds i j).toList.Perm h.toList := by
  by_cases hi : i < h.size
  · by_cases hj : j < h.size
    · have hSwap : h.swapIfInBounds i j = h.swap i j hi hj := by simp [swapIfInBounds, hi, hj]
      rw [hSwap]
      exact perm_iff_toList_perm.mp (swap_perm hi hj)
    · simp [swapIfInBounds, hj]
  · simp [swapIfInBounds, hi]

theorem up_perm (before : α → α → Bool) (fuel : Nat) (h : Array α) (j : Nat) : (up before fuel h j).toList.Perm h.toList := by
  induction fuel generalizing h j with
  | zero => exact .refl _
  | succ fuel ih =>
    simp only [up]
    split
    · exact .refl _
    · exact (ih _ _).trans (swapIfInBounds_perm h _ _)

theorem down_perm (before : α → α → Bool) (n fuel : Nat) (h : Array α) (i : Nat) :
    (down before n fuel h i).toList.Perm h.toList := by
  induction fuel generalizing h i with
  | zero => exact .refl _
  | succ fuel ih =>
    simp only [down]
    split
    · exact .refl _
    · exact (ih _ _).trans (swapIfInBounds_perm h _ _)

theorem parent_lt {c : Nat} (hc : 0 < c) : parent c < c := by
  unfold parent
  omega

theorem parent_child {i c : Nat} (hc : 0 < c) : parent c = i ↔ c = 2 * i + 1 ∨ c = 2 * i + 2 := by
  unfold parent
  omega

theorem child_cases (before : α → α → Bool) (n : Nat) (h : Array α) (i : Nat) (hn : 2 * i + 1 < n) :
    child before n h i < n ∧ (child before n h i = 2 * i + 1 ∨ child before n h i = 2 * i + 2) := by
  unfold child
  split
  · rename_i hRight
    exact ⟨hRight.1, .inr rfl⟩
  · exact ⟨hn, .inl rfl⟩

theorem down_getElem? (before : α → α → Bool) {n fuel : Nat} {h : Array α} {i k : Nat} (hn : n ≤ h.size) (hk : n ≤ k) :
    (down before n fuel h i)[k]? = h[k]? := by
  induction fuel generalizing h i with
  | zero => rfl
  | succ fuel ih =>
    simp only [down]
    split
    · rfl
    rename_i hGo
    have hi : 2 * i + 1 < n := by
      by_contra hNot
      exact hGo (.inl (not_lt.mp hNot))
    have hChild := (child_cases before n h i hi).1
    rw [ih (by simpa using hn), getElem?_swapIfInBounds (by omega) (by omega), if_neg (by omega), if_neg (by omega)]

section Order

variable [LinearOrder κ] (key : α → κ) (before : α → α → Bool)

/-- The entry above place `c` is not greater than the one there. -/
def Edge (h : Array α) (above c : Nat) : Prop :=
  ∀ x y, h[above]? = some x → h[c]? = some y → key x ≤ key y

/-- The first `n` places are in heap order. -/
def IsHeap (n : Nat) (h : Array α) : Prop := ∀ c, 0 < c → c < n → Edge key h (parent c) c

/-- Only the edge into `j` may be wrong, and the entry above `j` may stand at `j`. -/
structure UpReady (h : Array α) (j : Nat) : Prop where
  bound : j < h.size
  edges : ∀ c, 0 < c → c < h.size → c ≠ j → Edge key h (parent c) c
  above : 0 < j → ∀ c, 0 < c → c < h.size → parent c = j → Edge key h (parent j) c

/-- Only the edges out of `i` may be wrong, and its children may stand at `i`. -/
structure DownReady (n : Nat) (h : Array α) (i : Nat) : Prop where
  bound : n ≤ h.size
  edges : ∀ c, 0 < c → c < n → parent c ≠ i → Edge key h (parent c) c
  above : 0 < i → ∀ c, 0 < c → c < n → parent c = i → Edge key h (parent i) c

variable {key before}

theorem IsHeap.root_le {n : Nat} {h : Array α} (hHeap : IsHeap key n h) (hn : n ≤ h.size) {c : Nat} (hc : c < n) :
    Edge key h 0 c := by
  induction c using Nat.strong_induction_on with
  | _ c ih =>
    intro x y hx hy
    obtain rfl | hPos := Nat.eq_zero_or_pos c
    · rw [some.inj (hx.symm.trans hy)]
    have hParent := parent_lt hPos
    obtain ⟨z, hz⟩ : ∃ z, h[parent c]? = some z := ⟨_, getElem?_eq_getElem (by omega)⟩
    exact (ih _ hParent (by omega) x z hx hz).trans (hHeap c hPos hc z y hz hy)

variable (hBefore : ∀ x y, before x y = true ↔ key x < key y)
include hBefore

theorem less_iff {h : Array α} {i j : Nat} {x y : α} (hx : h[i]? = some x) (hy : h[j]? = some y) :
    less before h i j = true ↔ key x < key y := by
  simp only [less, hx, hy]
  exact hBefore x y

theorem UpReady.swap {h : Array α} {j : Nat} (hReady : UpReady key h j) (hPos : 0 < j)
    (hLess : less before h j (parent j) = true) : UpReady key (h.swapIfInBounds (parent j) j) (parent j) := by
  have hj := hReady.bound
  have hParent := parent_lt hPos
  have hi : parent j < h.size := by omega
  obtain ⟨a, ha⟩ : ∃ a, h[parent j]? = some a := ⟨_, getElem?_eq_getElem hi⟩
  obtain ⟨b, hb⟩ : ∃ b, h[j]? = some b := ⟨_, getElem?_eq_getElem hj⟩
  have hLt : key b < key a := (less_iff hBefore hb ha).mp hLess
  have hGet := getElem?_swapIfInBounds hi hj
  refine ⟨by simpa using hi, ?_, ?_⟩
  · intro c hc hSize hNe x y hx hy
    have hSize' : c < h.size := by simpa using hSize
    rw [hGet] at hx hy
    rw [if_neg hNe] at hy
    by_cases hcj : c = j
    · subst hcj
      simp only [if_true, ha, hb, some.injEq] at hx hy
      exact hx ▸ hy ▸ hLt.le
    · rw [if_neg hcj] at hy
      by_cases hAt : parent c = parent j
      · -- A sibling of `j`: its old parent is above the new one.
        rw [if_pos hAt, hb] at hx
        exact some.inj hx ▸ hLt.le.trans (hReady.edges c hc hSize' hcj a y (hAt ▸ ha) hy)
      · rw [if_neg hAt] at hx
        by_cases hBelow : parent c = j
        · rw [if_pos hBelow] at hx
          exact hReady.above hPos c hc hSize' hBelow x y hx hy
        · rw [if_neg hBelow] at hx
          exact hReady.edges c hc hSize' hcj x y hx hy
  · intro hPosParent c hc hSize hAt x y hx hy
    have hSize' : c < h.size := by simpa using hSize
    have hGrand := parent_lt hPosParent
    have hUpper : ∀ z, h[parent (parent j)]? = some z → key z ≤ key a := fun z hz =>
      hReady.edges (parent j) hPosParent hi (by omega) z a hz ha
    rw [hGet, if_neg (by omega), if_neg (by omega)] at hx
    have hcParent : c ≠ parent j := by
      have := parent_lt hc
      omega
    rw [hGet, if_neg hcParent] at hy
    by_cases hcj : c = j
    · rw [if_pos hcj, ha] at hy
      exact some.inj hy ▸ hUpper x hx
    · rw [if_neg hcj] at hy
      exact (hUpper x hx).trans (hReady.edges c hc hSize' hcj a y (hAt ▸ ha) hy)

theorem up_isHeap {fuel : Nat} {h : Array α} {j : Nat} (hFuel : j < fuel) (hReady : UpReady key h j) :
    IsHeap key h.size (up before fuel h j) := by
  induction fuel generalizing h j with
  | zero => omega
  | succ fuel ih =>
    simp only [up]
    split
    · rename_i hStop
      intro c hc hSize
      by_cases hcj : c = j
      · subst hcj
        obtain hRoot | hLess := hStop
        · have := parent_lt hc
          omega
        intro x y hx hy
        have hNot : ¬ key y < key x := by
          rw [← less_iff hBefore hy hx, hLess]
          exact Bool.false_ne_true
        exact not_lt.mp hNot
      · exact hReady.edges c hc hSize hcj
    · rename_i hGo
      obtain ⟨hNe, hLess⟩ : parent j ≠ j ∧ less before h j (parent j) = true := by simpa using hGo
      have hPos : 0 < j := by
        rcases Nat.eq_zero_or_pos j with rfl | hPos
        · exact absurd rfl hNe
        · exact hPos
      have hParent := parent_lt hPos
      have hHeap := ih (by omega) (hReady.swap hBefore hPos hLess)
      simpa using hHeap

theorem child_le {n : Nat} {h : Array α} {i c : Nat} (hc : c < n)
    (hAt : c = 2 * i + 1 ∨ c = 2 * i + 2) : Edge key h (child before n h i) c := by
  intro x y hx hy
  unfold child at hx
  split at hx
  · rename_i hRight
    obtain rfl | rfl := hAt
    · exact ((less_iff hBefore hx hy).mp hRight.2).le
    · rw [some.inj (hx.symm.trans hy)]
  · rename_i hLeft
    obtain rfl | rfl := hAt
    · rw [some.inj (hx.symm.trans hy)]
    · have hNot : ¬ key y < key x := fun hLt => hLeft ⟨hc, (less_iff hBefore hy hx).mpr hLt⟩
      exact not_lt.mp hNot

theorem DownReady.swap {n : Nat} {h : Array α} {i : Nat} (hReady : DownReady key n h i) (hi : 2 * i + 1 < n)
    (hLess : less before h (child before n h i) i = true) :
    DownReady key n (h.swapIfInBounds i (child before n h i)) (child before n h i) := by
  obtain ⟨hj, hAt⟩ := child_cases before n h i hi
  have hSmaller := fun c => @child_le _ _ _ key before hBefore n h i c
  generalize child before n h i = j at hj hAt hLess hSmaller ⊢
  have hn := hReady.bound
  have hParent : parent j = i := (parent_child (by omega)).mpr hAt
  obtain ⟨a, ha⟩ : ∃ a, h[i]? = some a := ⟨_, getElem?_eq_getElem (by omega)⟩
  obtain ⟨b, hb⟩ : ∃ b, h[j]? = some b := ⟨_, getElem?_eq_getElem (by omega)⟩
  have hLt : key b < key a := (less_iff hBefore hb ha).mp hLess
  have hGet := @getElem?_swapIfInBounds _ h i j (by omega) (by omega)
  refine ⟨by simpa using hn, ?_, ?_⟩
  · intro c hc hSize hNe x y hx hy
    rw [hGet] at hx hy
    by_cases hBelow : parent c = i
    · rw [if_pos hBelow, hb] at hx
      have hci : c ≠ i := by
        have := parent_lt hc
        omega
      rw [if_neg hci] at hy
      by_cases hcj : c = j
      · rw [if_pos hcj, ha] at hy
        exact some.inj hx ▸ some.inj hy ▸ hLt.le
      · rw [if_neg hcj] at hy
        exact hSmaller c hSize ((parent_child hc).mp hBelow) x y (hb.trans hx) hy
    · rw [if_neg hBelow, if_neg hNe] at hx
      by_cases hci : c = i
      · subst hci
        rw [if_pos rfl, hb] at hy
        exact hReady.above hc j (by omega) hj hParent x y hx (hb.trans hy)
      · have hcj : c ≠ j := fun hEq => hBelow (hEq ▸ hParent)
        rw [if_neg hci, if_neg hcj] at hy
        exact hReady.edges c hc hSize hBelow x y hx hy
  · intro hPos c hc hSize hAtJ x y hx hy
    have hcj := parent_lt hc
    rw [hParent, hGet, if_pos rfl] at hx
    rw [hGet, if_neg (by omega), if_neg (by omega)] at hy
    exact hReady.edges c hc hSize (by omega) x y (hAtJ ▸ hx) hy

theorem down_isHeap {n fuel : Nat} {h : Array α} {i : Nat} (hFuel : n < fuel + i + 1) (hReady : DownReady key n h i) :
    IsHeap key n (down before n fuel h i) := by
  induction fuel generalizing h i with
  | zero =>
    intro c hc hSize
    have hNe : parent c ≠ i := by
      have := parent_lt hc
      omega
    exact hReady.edges c hc hSize hNe
  | succ fuel ih =>
    simp only [down]
    split
    · rename_i hStop
      intro c hc hSize
      by_cases hBelow : parent c = i
      · have hAt := (parent_child hc).mp hBelow
        obtain hLeaf | hLess := hStop
        · omega
        intro x y hx hy
        rw [hBelow] at hx
        have hn := hReady.bound
        obtain ⟨hj, -⟩ := child_cases before n h i (by omega)
        obtain ⟨z, hz⟩ : ∃ z, h[child before n h i]? = some z := ⟨_, getElem?_eq_getElem (by omega)⟩
        have hNot : ¬ key z < key x := by
          rw [← less_iff hBefore hz hx, hLess]
          exact Bool.false_ne_true
        exact (not_lt.mp hNot).trans (child_le hBefore hSize hAt z y hz hy)
      · exact hReady.edges c hc hSize hBelow
    · rename_i hGo
      obtain ⟨hi, hLess⟩ : 2 * i + 1 < n ∧ less before h (child before n h i) i = true := by simpa using hGo
      obtain ⟨-, hAt⟩ := child_cases before n h i hi
      exact ih (by omega) (hReady.swap hBefore hi hLess)

theorem push_spec {h : Array α} (hHeap : IsHeap key h.size h) (x : α) :
    IsHeap key (push before h x).size (push before h x) ∧ (push before h x).toList.Perm (x :: h.toList) := by
  have hPerm : (push before h x).toList.Perm (h.push x).toList := up_perm _ _ _ _
  have hSize : (push before h x).size = (h.push x).size := by simpa using hPerm.length_eq
  constructor
  · rw [hSize]
    refine up_isHeap hBefore (Nat.lt_succ_self _) ⟨by simp, ?_, ?_⟩
    · intro c hc hBound hNe a b ha hb
      have hParent := parent_lt hc
      rw [size_push] at hBound
      rw [getElem?_push, if_neg (by omega)] at ha hb
      exact hHeap c hc (by omega) a b ha hb
    · intro _ c hc hBound hAt
      have := parent_lt hc
      rw [size_push] at hBound
      omega
  · rw [toList_push] at hPerm
    exact hPerm.trans (perm_append_singleton x _)

theorem pop_spec {h : Array α} (hHeap : IsHeap key h.size h) {x : α} (hx : h[0]? = some x) :
    ∃ h', pop before h = some (x, h') ∧ IsHeap key h'.size h' ∧ h.toList.Perm (x :: h'.toList) ∧
      ∀ y ∈ h.toList, key x ≤ key y := by
  have hPos : 0 < h.size := by
    by_contra hNot
    rw [Array.getElem?_eq_none (by omega)] at hx
    cases hx
  have hGet := @getElem?_swapIfInBounds _ h 0 (h.size - 1) hPos (by omega)
  have hSwapSize : (h.swapIfInBounds 0 (h.size - 1)).size = h.size := by simp
  have hReady : DownReady key (h.size - 1) (h.swapIfInBounds 0 (h.size - 1)) 0 := by
    refine ⟨by omega, ?_, fun hFalse => absurd hFalse (lt_irrefl 0)⟩
    intro c hc hSize hNe a b ha hb
    rw [hGet, if_neg hNe] at ha
    rw [hGet, if_neg (by omega), if_neg (by omega)] at hb
    have hParent := parent_lt hc
    rw [if_neg (by omega)] at ha
    exact hHeap c hc (by omega) a b ha hb
  have hPerm := (down_perm before (h.size - 1) h.size (h.swapIfInBounds 0 (h.size - 1)) 0).trans
    (swapIfInBounds_perm h 0 (h.size - 1))
  have hDown := @down_isHeap _ _ _ key before hBefore _ h.size _ _ (by omega) hReady
  have hLast := @down_getElem? _ before _ h.size _ 0 _ hReady.bound (le_refl (h.size - 1))
  rw [hGet] at hLast
  unfold pop
  simp only
  generalize down before (h.size - 1) h.size (h.swapIfInBounds 0 (h.size - 1)) 0 = sifted at *
  have hSize : sifted.size = h.size := by simpa using hPerm.length_eq
  have hBack : sifted.back? = some x := by
    rw [back?_eq_getElem?, hSize, hLast]
    split
    · rename_i hOne
      rw [hOne]
      exact hx
    · rw [if_pos rfl]
      exact hx
  refine ⟨sifted.pop, by rw [hBack]; rfl, ?_, ?_, ?_⟩
  · intro c hc hBound a b ha hb
    rw [size_pop, hSize] at hBound
    have hParent := parent_lt hc
    rw [getElem?_pop, if_pos (by omega)] at ha hb
    exact hDown c hc hBound a b ha hb
  · have hSplit : sifted.toList = sifted.pop.toList ++ [x] := by
      refine (dropLast_append_getLast? x ?_).symm
      simpa using hBack
    rw [hSplit] at hPerm
    exact hPerm.symm.trans (perm_append_singleton x _)
  · intro y hy
    obtain ⟨c, hc, hcy⟩ := mem_iff_getElem.mp hy
    refine hHeap.root_le le_rfl hc x y hx ?_
    rw [Array.getElem?_eq_getElem hc]
    simpa using hcy

end Order

end Syntrix.Lib.Heap
