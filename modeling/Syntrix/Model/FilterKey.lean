import Syntrix.Lib.Lists
import Syntrix.Lib.Result
import Syntrix.Model.Filter

/-! # Filters decided by keys

Normalization is idempotent, so a filter that has been normalized is evaluated as it stands, and
its answer on a scalar depends on the scalar's key only.
-/
namespace Syntrix.Model

open Lib OrderCode List

theorem normalizeFloat_idem {f : Binary64} {v : Value} (h : normalizeFloat f = .ok v) : normalizeValue v = .ok v := by
  obtain ⟨hSpecial, h⟩ := guard_eq_ok h
  split at h
  · cases h
    rfl
  rename_i hZero
  cases h
  simp [normalizeValue, normalizeFloat, hSpecial, hZero]

mutual
theorem normalizeValue_idem : ∀ (v w : Value), normalizeValue v = .ok w → normalizeValue w = .ok w
  | .null, _, h => by cases h; rfl
  | .bool _, _, h => by cases h; rfl
  | .string s, w, h => by
    simp only [normalizeValue] at h
    split at h
    · rename_i hText
      cases h
      simp only [normalizeValue, hText, if_true]
    · cases h
  | .int _, _, h => by cases h; rfl
  | .float32 _, _, h => normalizeFloat_idem h
  | .float64 _, _, h => normalizeFloat_idem h
  | .jsonNumber n, w, h => by
    simp only [normalizeValue] at h
    split at h
    · obtain ⟨i, -, rfl⟩ := map_eq_ok h
      rfl
    · obtain ⟨f, -, hFloat⟩ := bind_eq_ok h
      exact normalizeFloat_idem hFloat
  | .array items, w, h => by
    obtain ⟨out, hOut, rfl⟩ := map_eq_ok h
    simp only [normalizeValue]
    rw [normalizeItems_idem items 0 out hOut 0]
    rfl
  | .object fields, w, h => by
    obtain ⟨out, hOut, rfl⟩ := map_eq_ok h
    simp only [normalizeValue]
    rw [normalizeFields_idem fields out hOut]
    rfl
  | .unsupported, _, h => by cases h

theorem normalizeItems_idem : ∀ (items : List Value) (i : Nat) (out : List Value),
    normalizeItems i items = .ok out → ∀ j, normalizeItems j out = .ok out
  | [], _, _, h, _ => by cases h; rfl
  | v :: rest, i, out, h, j => by
    simp only [normalizeItems] at h
    split at h
    · cases h
    rename_i item hItem
    obtain ⟨tail, hTail, rfl⟩ := map_eq_ok h
    simp only [normalizeItems, normalizeValue_idem v item hItem,
      normalizeItems_idem rest (i + 1) tail hTail (j + 1)]
    rfl

theorem normalizeFields_idem : ∀ (fields out : List (Bytes × Value)),
    normalizeFields fields = .ok out → normalizeFields out = .ok out
  | [], _, h => by cases h; rfl
  | (key, v) :: rest, out, h => by
    simp only [normalizeFields] at h
    split at h
    · rename_i hText
      split at h
      · cases h
      rename_i item hItem
      obtain ⟨tail, hTail, rfl⟩ := map_eq_ok h
      simp only [normalizeFields, hText, if_true, normalizeValue_idem v item hItem,
        normalizeFields_idem rest tail hTail]
      rfl
    · cases h
end

variable {v w : Value}

theorem scalarKey_of_normalized (h : normalizeValue v = .ok w) : scalarKey w = scalarKey v := by
  rw [scalarKey, scalarKey, normalizeValue_idem v w h, h]

variable {k p : Bytes}

theorem equalValues_of_key (hv : scalarKey v = .ok k) (hw : scalarKey w = .ok p) : equalValues v w = decide (p = k) := by
  have hCompare : compareValues v w = .ok (wordCmp k p) := by simp [compareValues, hv, hw, Except.bind]
  rw [equalValues, hCompare]
  by_cases h : p = k
  · simp [h]
  · cases hc : wordCmp k p <;> simp_all

theorem equalValues_of_error {e : ValueError} (hv : scalarKey v = .error e) : equalValues v w = false := by
  simp [equalValues, compareValues, hv, Except.bind]

def keyIs (key : Bytes) (value : Value) : Bool :=
  match scalarKey value with
  | .ok k => decide (k = key)
  | .error _ => false

theorem equalValues_eq_keyIs (hv : scalarKey v = .ok k) (w : Value) : equalValues v w = keyIs k w := by
  cases hw : scalarKey w with
  | ok p => rw [equalValues_of_key hv hw, keyIs, hw]
  | error e => simp [equalValues, compareValues, keyIs, hv, hw, Except.bind]

/-- The answer of a filter on a present scalar, read off the scalar's key. -/
def Filter.matchesKey (filter : Filter) (key : Bytes) : Bool :=
  match filter.op with
  | .opEq => keyIs key filter.value
  | .opNe => !keyIs key filter.value
  | .opIn =>
    match filter.value with
    | .array candidates => candidates.any (keyIs key)
    | _ => false
  | .opGt | .opGte | .opLt | .opLte =>
    match scalarKey filter.value with
    | .ok bound => decide (bound.head? = key.head?) && filter.op.accepts (wordCmp key bound)
    | .error _ => false
  | _ => false

theorem numberKey_head (p : NumberParts) : (numberKey p).head? = some 0x40 := by
  obtain ⟨rest, h⟩ := numberKey_cons p
  rw [h]
  rfl

theorem sameRangeFamily_iff (hv : normalizedKey v = .ok k) (hw : normalizedKey w = .ok p) (hRange : isRangeValue w = true) :
    sameRangeFamily v w = decide (p.head? = k.head?) := by
  cases w with
  | int j | float64 g =>
    cases hw
    cases v <;> cases hv <;> simp [sameRangeFamily, numberKey_head]
    split <;> decide
  | string s =>
    cases hw
    cases v <;> cases hv <;> simp [sameRangeFamily, numberKey_head]
    split <;> decide
  | _ => cases hRange

theorem equalValues_eq_true_iff : equalValues v w = true ↔ ∃ k, scalarKey v = .ok k ∧ scalarKey w = .ok k := by
  constructor
  · intro h
    cases hv : scalarKey v with
    | error e => rw [equalValues_of_error hv] at h; cases h
    | ok k =>
      rw [equalValues_eq_keyIs hv, keyIs] at h
      cases hw : scalarKey w with
      | error e => rw [hw] at h; cases h
      | ok p =>
        rw [hw] at h
        exact ⟨k, rfl, congrArg _ (of_decide_eq_true h)⟩
  · rintro ⟨k, hv, hw⟩
    rw [equalValues_of_key hv hw, decide_eq_true rfl]

def Filter.Normalized (filter : Filter) : Prop := normalizeFilter filter = .ok filter

theorem normalizeItems_eq_self {items : List Value} (h : ∀ v ∈ items, normalizeValue v = .ok v) (i : Nat) :
    normalizeItems i items = .ok items := by
  induction items generalizing i with
  | nil => rfl
  | cons v rest ih =>
    rw [forall_mem_cons] at h
    simp only [normalizeItems, h.1, ih h.2]
    rfl

variable {items out : List Value}

theorem normalizeItems_forall₂ {i : Nat} (h : normalizeItems i items = .ok out) :
    Forall₂ (fun v w => normalizeValue v = .ok w) items out := by
  induction items generalizing i out with
  | nil =>
    cases h
    exact .nil
  | cons v rest ih =>
    simp only [normalizeItems] at h
    split at h
    · cases h
    rename_i item hItem
    obtain ⟨tail, hTail, rfl⟩ := map_eq_ok h
    exact .cons hItem (ih hTail)

/-- Arrays come from arrays and objects from objects. -/
theorem normalizeValue_compound (h : normalizeValue v = .ok w) :
    (∃ items out, v = .array items ∧ w = .array out ∧ normalizeItems 0 items = .ok out) ∨
      (∃ fields out, v = .object fields ∧ w = .object out ∧ normalizeFields fields = .ok out) ∨
      (∀ out, w ≠ .array out) ∧ ∀ out, w ≠ .object out := by
  have hFloat : ∀ f : Binary64, normalizeFloat f = .ok w → (∀ out, w ≠ .array out) ∧ ∀ out, w ≠ .object out := by
    intro f hf
    unfold normalizeFloat at hf
    repeat' split at hf
    all_goals cases hf
    all_goals simp
  cases v with
  | array items =>
    obtain ⟨out, hOut, rfl⟩ := map_eq_ok h
    exact .inl ⟨items, out, rfl, rfl, hOut⟩
  | object fields =>
    obtain ⟨out, hOut, rfl⟩ := map_eq_ok h
    exact .inr (.inl ⟨fields, out, rfl, rfl, hOut⟩)
  | float32 f | float64 f => exact .inr (.inr (hFloat _ h))
  | jsonNumber n =>
    simp only [normalizeValue] at h
    split at h
    · obtain ⟨i, -, rfl⟩ := map_eq_ok h
      simp
    · obtain ⟨f, -, hf⟩ := bind_eq_ok h
      exact .inr (.inr (hFloat f hf))
  | string s =>
    simp only [normalizeValue] at h
    split at h <;> cases h
    simp
  | null | bool | int | unsupported =>
    cases h
    try simp

theorem normalizeValue_array {items : List Value} (h : normalizeValue v = .ok (.array items)) :
    ∃ elements, v = .array elements ∧ normalizeItems 0 elements = .ok items := by
  obtain ⟨elements, _, rfl, ⟨⟩, hOut⟩ | ⟨_, _, _, ⟨⟩, _⟩ | ⟨hOther, -⟩ := normalizeValue_compound h
  · exact ⟨elements, rfl, hOut⟩
  · exact absurd rfl (hOther items)

variable {seen : List Bytes}

theorem uniqueItems_sublist (h : uniqueItems seen items = .ok out) : out.Sublist items := by
  induction items generalizing seen out with
  | nil => cases h; exact Sublist.refl _
  | cons v rest ih =>
    simp only [uniqueItems] at h
    split at h
    · cases h
    split at h
    · exact (ih h).cons v
    · obtain ⟨tail, hTail, rfl⟩ := map_eq_ok h
      exact (ih hTail).cons_cons v

theorem uniqueItems_idem (h : uniqueItems seen items = .ok out) : uniqueItems seen out = .ok out := by
  induction items generalizing seen out with
  | nil => cases h; rfl
  | cons v rest ih =>
    simp only [uniqueItems] at h
    split at h
    · cases h
    rename_i key hKey
    split at h
    · exact ih h
    rename_i hSeen
    obtain ⟨tail, hTail, rfl⟩ := map_eq_ok h
    simp only [uniqueItems, hKey, hSeen, ih hTail]
    rfl

theorem normalizeOperand_idem {op : FilterOp} (hNormal : normalizeValue v = .ok v)
    (h : normalizeOperand op v = .ok w) : normalizeValue w = .ok w ∧ normalizeOperand op w = .ok w := by
  cases op with
  | opIn =>
    cases v with
    | array items =>
      obtain ⟨out, hOut, rfl⟩ := map_eq_ok h
      have hItems : ∀ u ∈ items, normalizeValue u = .ok u := by
        obtain ⟨items', hItems', hEq⟩ := map_eq_ok hNormal
        cases hEq
        intro u hu
        obtain ⟨x, -, hx⟩ := forall₂_mem_right (normalizeItems_forall₂ hItems') hu
        exact normalizeValue_idem x u hx
      have hOutItems := normalizeItems_eq_self (fun u hu => hItems u ((uniqueItems_sublist hOut).subset hu)) 0
      simp [normalizeValue, normalizeOperand, hOutItems, uniqueItems_idem hOut, Except.map]
    | _ => cases h
  | opGt | opGte | opLt | opLte =>
    simp only [normalizeOperand] at h
    split at h
    · rename_i hRange
      cases h
      exact ⟨hNormal, by simp only [normalizeOperand, hRange, if_true]⟩
    · cases h
  | opEq | opNe | opContains | other =>
    simp only [normalizeOperand] at h
    split at h
    · cases h
    rename_i key hKey
    cases h
    exact ⟨hNormal, by simp only [normalizeOperand, hKey]⟩

theorem normalizeFilter_spec {f g : Filter} (h : normalizeFilter f = .ok g) :
    g.field = f.field ∧ g.op = f.op ∧ g.op.isValid = true ∧ normalizeValue g.value = .ok g.value ∧
      normalizeOperand g.op g.value = .ok g.value ∧ g.Normalized := by
  obtain ⟨_, hField, hRest⟩ := bind_eq_ok h
  obtain ⟨hValid, hRest⟩ := guard_eq_ok hRest
  split at hRest
  · cases hRest
  rename_i value hValue
  obtain ⟨operand, hOperand, rfl⟩ := map_eq_ok hRest
  obtain ⟨hNormal, hIdem⟩ := normalizeOperand_idem (normalizeValue_idem _ _ hValue) hOperand
  have hOp : f.op.isValid = true := by simpa using hValid
  refine ⟨rfl, rfl, hOp, hNormal, hIdem, ?_⟩
  simp only [Filter.Normalized, normalizeFilter, hField, Except.bind, hOp, hNormal, hIdem]
  rfl

theorem normalizeFiltersFrom_spec {filters out : List Filter} {i : Nat} (h : normalizeFiltersFrom i filters = .ok out) :
    (∀ f ∈ out, f.Normalized) ∧ ∀ j, normalizeFiltersFrom j out = .ok out := by
  induction filters generalizing i out with
  | nil =>
    cases h
    exact ⟨List.forall_mem_nil _, fun j => rfl⟩
  | cons f rest ih =>
    simp only [normalizeFiltersFrom] at h
    split at h
    · cases h
    rename_i g hg
    obtain ⟨tail, hTail, rfl⟩ := map_eq_ok h
    obtain ⟨hAll, hIdem⟩ := ih hTail
    obtain ⟨-, -, -, -, -, hNormal⟩ := normalizeFilter_spec hg
    refine ⟨forall_mem_cons.mpr ⟨hNormal, hAll⟩, fun j => ?_⟩
    simp only [normalizeFiltersFrom, show normalizeFilter g = .ok g from hNormal, hIdem (j + 1)]
    rfl

theorem evaluateNormalizedFilter_of_key {f : Filter} (hf : f.Normalized) (hKey : scalarKey v = .ok k) :
    evaluateNormalizedFilter f v true = .ok (f.matchesKey k) := by
  obtain ⟨-, -, hValid, hOperand, hRange, -⟩ := normalizeFilter_spec hf
  obtain ⟨w, hNormal, hwKey⟩ := bind_eq_ok hKey
  have hw : scalarKey w = .ok k := (scalarKey_of_normalized hNormal).trans hKey
  unfold evaluateNormalizedFilter Filter.matchesKey
  simp only [Bool.not_true, Bool.false_eq_true, if_false, hNormal]
  cases hOp : f.op with
  | opEq | opNe => simp only [equalValues_eq_keyIs hw]
  | opIn => cases hItems : f.value <;> simp [equalValues_eq_keyIs hw]
  | opContains => cases w <;> first | rfl | cases hwKey
  | opGt | opGte | opLt | opLte =>
    rw [hOp] at hRange
    simp only [normalizeOperand] at hRange
    split at hRange
    · rename_i hRangeValue
      obtain ⟨p, hp⟩ : ∃ p, normalizedKey f.value = .ok p := by
        cases hf : f.value <;> rw [hf] at hRangeValue <;> first | exact ⟨_, rfl⟩ | cases hRangeValue
      have hBound : scalarKey f.value = .ok p := by rw [scalarKey, hOperand]; exact hp
      have hCompare : compareValues w f.value = .ok (wordCmp k p) := by
        simp [compareValues, hw, hBound, Except.bind]
      simp only [sameRangeFamily_iff hwKey hp hRangeValue, hBound, hCompare]
      cases hHead : decide (p.head? = k.head?) <;> rfl
    · cases hRange
  | other text => rw [hOp] at hValid; cases hValid

end Syntrix.Model
