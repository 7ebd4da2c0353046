import Syntrix.Index.Candidate

/-! # What a plan covers

The branches of a compiled plan cover a key exactly when each fixed field of the key's tuple is one of
the field's points and the next field passes every filter on it.
-/
namespace Syntrix.Index

open Lib OrderCode Model List

/-- A word that fixes a field: the word of one of the points its filters leave. -/
def Chosen (filters : List Filter) (f : TemplateField) (w : Bytes) : Prop :=
  ∃ points v, fieldPoints filters f = .ok (some points) ∧ v ∈ points ∧
    fieldBytes v (fieldDirection f) = .ok w

def Uses (filters : List Filter) (f : TemplateField) (i : Nat) : Prop :=
  if f.mode = .membership then i = filters.findIdx (isContains f.field)
  else ∃ g, filters[i]? = some g ∧ g.field = f.field

variable {points : List Value}

variable {f : TemplateField}

variable {b branch : CandidateBranch} {fixed : Nat}

theorem extendBranch_mem {out : List CandidateBranch} (h : extendBranch f fixed branch points = .ok out) :
    b ∈ out ↔ ∃ v ∈ points, ∃ w, fieldBytes v (fieldDirection f) = .ok w ∧ b = ⟨branch.fixedPrefix ++ w, fixed, [], none⟩ := by
  induction points generalizing out with
  | nil => cases h; simp
  | cons v rest ih =>
    obtain ⟨part, hPart, hRest⟩ := bind_eq_ok h
    obtain ⟨tail, hTail, rfl⟩ := map_eq_ok hRest
    have hWord := mapError_eq_ok hPart
    rw [mem_cons, ih hTail, exists_mem_cons_iff]
    refine or_congr_left ⟨fun hb => ⟨part, hWord, hb⟩, ?_⟩
    rintro ⟨w, hw, rfl⟩
    rw [Except.ok.inj (hWord.symm.trans hw)]

variable {branches out : List CandidateBranch}

theorem extendBranches_mem (h : extendBranches f fixed points branches = .ok out) :
    b ∈ out ↔ ∃ branch ∈ branches, ∃ v ∈ points, ∃ w, fieldBytes v (fieldDirection f) = .ok w ∧
      b = ⟨branch.fixedPrefix ++ w, fixed, [], none⟩ := by
  induction branches generalizing out with
  | nil => cases h; simp
  | cons branch rest ih =>
    obtain ⟨extended, hExtended, hRest⟩ := bind_eq_ok h
    obtain ⟨tail, hTail, rfl⟩ := map_eq_ok hRest
    rw [mem_append, ih hTail, exists_mem_cons_iff, extendBranch_mem hExtended]

variable {filters : List Filter}

theorem markField_access {assignments : List PredicateAssignment} {i : Nat} {a : PredicateAssignment}
    (h : (markField filters f assignments)[i]? = some a) (hAccess : a.access = true) :
    (∃ a', assignments[i]? = some a' ∧ a'.access = true) ∨ Uses filters f i := by
  unfold markField at h
  unfold Uses
  split at h
  · rename_i hMode
    rw [if_pos hMode]
    by_cases hi : i = filters.findIdx (isContains f.field)
    · exact .inr hi
    · have hOther : assignments[i]? = some a := by simpa [getElem?_modify, Ne.symm hi] using h
      exact .inl ⟨a, hOther, hAccess⟩
  · rename_i hMode
    rw [if_neg hMode]
    obtain ⟨g, a', hg, ha', hEq⟩ := getElem?_zipWith_eq_some.mp h
    by_cases hHit : g.field = f.field
    · exact .inr ⟨g, hg, hHit⟩
    · rw [if_neg (by simpa using hHit)] at hEq
      exact .inl ⟨a', ha', hEq ▸ hAccess⟩

def CandidateBranch.Open (b : CandidateBranch) (fixed : Nat) : Prop := b = ⟨b.fixedPrefix, fixed, [], none⟩

structure FixedFields (filters : List Filter) (fields : List TemplateField) (s s' : CompileState)
    (k : Nat) : Prop where
  le : k ≤ fields.length
  fixed : s'.fixed = s.fixed + k
  points : ∀ f ∈ fields.take k, ∃ points, fieldPoints filters f = .ok (some points)
  empty : s'.empty = true → s.empty = true ∨ ∃ f ∈ fields.take k, fieldPoints filters f = .ok (some [])
  notEmpty : s'.empty = false → s.empty = false
  exceeded : s'.expansionExceeded = false → s.expansionExceeded = false
  branches : s'.empty = false → s'.expansionExceeded = false → ∀ b, b ∈ s'.branches ↔
    ∃ branch ∈ s.branches, ∃ ws, List.Forall₂ (Chosen filters) (fields.take k) ws ∧
      b = ⟨branch.fixedPrefix ++ ws.flatten, s'.fixed, [], none⟩
  access : ∀ i a, s'.assignments[i]? = some a → a.access = true →
    (∃ a', s.assignments[i]? = some a' ∧ a'.access = true) ∨ ∃ f ∈ fields.take k, Uses filters f i

variable {s s' : CompileState}

theorem fixField_spec (hPoints : fieldPoints filters f = .ok (some points)) (h : fixField filters f points s = .ok s') :
    FixedFields filters [f] s s' 1 := by
  obtain ⟨next, hNext, rfl⟩ := map_eq_ok h
  refine ⟨le_rfl, rfl, by simpa using ⟨points, hPoints⟩, ?_, ?_, ?_, ?_, ?_⟩
  · intro hEmpty
    obtain hEmpty | hEmpty := Bool.or_eq_true_iff.mp hEmpty
    · exact .inl hEmpty
    · rw [List.isEmpty_iff.mp hEmpty] at hPoints
      exact .inr ⟨f, by simp, hPoints⟩
  · intro hEmpty
    exact (Bool.or_eq_false_iff.mp hEmpty).1
  · intro hExceeded
    exact (Bool.or_eq_false_iff.mp hExceeded).1
  · intro hEmpty hExceeded b
    have hSome : points.isEmpty = false := (Bool.or_eq_false_iff.mp hEmpty).2
    have hSmall := (Bool.or_eq_false_iff.mp hExceeded).2
    simp only [hSome, Bool.false_eq_true, if_false] at hSmall hNext
    simp only [hSmall, Bool.false_eq_true, if_false] at hNext
    rw [extendBranches_mem hNext]
    refine exists_congr fun branch => and_congr_right fun _ => ?_
    constructor
    · rintro ⟨v, hv, w, hw, rfl⟩
      exact ⟨[w], .cons ⟨points, v, hPoints, (mem_insertionSort _).mp hv, hw⟩ .nil, by simp⟩
    · rintro ⟨ws, hws, rfl⟩
      cases hws with
      | cons hHead hTail =>
        cases hTail
        obtain ⟨points', v, hPoints', hv, hw⟩ := hHead
        cases Except.ok.inj (hPoints.symm.trans hPoints')
        exact ⟨v, (mem_insertionSort _).mpr hv, _, hw, by simp⟩
  · intro i a ha hAccess
    obtain hOld | hUses := markField_access ha hAccess
    · exact .inl hOld
    · exact .inr ⟨f, by simp, hUses⟩

variable {fields : List TemplateField}

theorem FixedFields.trans {s₁ s₂ s₃ : CompileState} {k : Nat} (h₁ : FixedFields filters [f] s₁ s₂ 1)
    (h₂ : FixedFields filters fields s₂ s₃ k) : FixedFields filters (f :: fields) s₁ s₃ (k + 1) := by
  have hHead : ∀ {P : TemplateField → Prop}, (∃ g ∈ [f].take 1, P g) → ∃ g ∈ (f :: fields).take (k + 1), P g := by
    rintro P ⟨g, hg, hP⟩
    exact ⟨g, by simp_all, hP⟩
  have hTail : ∀ {P : TemplateField → Prop}, (∃ g ∈ fields.take k, P g) → ∃ g ∈ (f :: fields).take (k + 1), P g := by
    rintro P ⟨g, hg, hP⟩
    exact ⟨g, mem_cons_of_mem _ hg, hP⟩
  refine ⟨Nat.succ_le_succ h₂.le, ?_, ?_, ?_, ?_, ?_, ?_, ?_⟩
  · rw [h₂.fixed, h₁.fixed]
    omega
  · exact forall_mem_cons.mpr ⟨h₁.points f (by simp), h₂.points⟩
  · intro hEmpty
    obtain hEmpty | hEmpty := h₂.empty hEmpty
    · obtain hEmpty | hEmpty := h₁.empty hEmpty
      · exact .inl hEmpty
      · exact .inr (hHead hEmpty)
    · exact .inr (hTail hEmpty)
  · exact fun hEmpty => h₁.notEmpty (h₂.notEmpty hEmpty)
  · exact fun hExceeded => h₁.exceeded (h₂.exceeded hExceeded)
  · intro hEmpty hExceeded b
    have hMiddle := h₁.branches (h₂.notEmpty hEmpty) (h₂.exceeded hExceeded)
    rw [h₂.branches hEmpty hExceeded, take_succ_cons]
    constructor
    · rintro ⟨branch, hBranch, ws, hws, rfl⟩
      obtain ⟨start, hStart, vs, hvs, rfl⟩ := (hMiddle branch).mp hBranch
      cases hvs with
      | cons hv hNil =>
        cases hNil
        exact ⟨start, hStart, _, .cons hv hws, by simp⟩
    · rintro ⟨start, hStart, ws, hws, rfl⟩
      cases hws with
      | cons hw hws =>
        exact ⟨_, (hMiddle _).mpr ⟨start, hStart, [_], .cons hw .nil, rfl⟩, _, hws, by simp⟩
  · intro i a ha hAccess
    obtain ⟨a', ha', hAccess'⟩ | hUses := h₂.access i a ha hAccess
    · obtain hOld | hUses := h₁.access i a' ha' hAccess'
      · exact .inl hOld
      · exact .inr (hHead hUses)
    · exact .inr (hTail hUses)

theorem FixedFields.refl (filters : List Filter) (fields : List TemplateField) (s : CompileState)
    (hOpen : ∀ b ∈ s.branches, b.Open s.fixed) : FixedFields filters fields s s 0 := by
  refine ⟨Nat.zero_le _, rfl, by simp, .inl, id, id, ?_, fun i a ha hAccess => .inl ⟨a, ha, hAccess⟩⟩
  intro _ _ b
  constructor
  · intro hb
    exact ⟨b, hb, [], .nil, by rw [flatten_nil, append_nil]; exact hOpen b hb⟩
  · rintro ⟨branch, hBranch, ws, hws, rfl⟩
    cases hws
    rw [flatten_nil, append_nil, ← hOpen branch hBranch]
    exact hBranch

theorem fixField_open (h : fixField filters f points s = .ok s') : ∀ b ∈ s'.branches, b.Open s'.fixed := by
  obtain ⟨next, hNext, rfl⟩ := map_eq_ok h
  intro b hb
  obtain ⟨branch, -, v, -, w, -, rfl⟩ := (extendBranches_mem hNext).mp hb
  rfl

theorem fixFields_spec (hOpen : ∀ b ∈ s.branches, b.Open s.fixed) (h : fixFields filters fields s = .ok s') :
    ∃ k, FixedFields filters fields s s' k ∧ ∀ f, fields[k]? = some f → fieldPoints filters f = .ok none := by
  induction fields generalizing s with
  | nil =>
    cases h
    exact ⟨0, .refl filters [] _ hOpen, by simp⟩
  | cons f rest ih =>
    obtain ⟨points, hPoints, hRest⟩ := bind_eq_ok h
    cases points with
    | none =>
      cases hRest
      exact ⟨0, .refl filters _ _ hOpen, by simpa using hPoints⟩
    | some points =>
      obtain ⟨middle, hMiddle, hRest⟩ := bind_eq_ok hRest
      obtain ⟨k, hFixed, hNext⟩ := ih (fixField_open hMiddle) hRest
      exact ⟨k + 1, (fixField_spec hPoints hMiddle).trans hFixed, by simpa using hNext⟩

def CandidateBranch.Mem (b : CandidateBranch) (k : Bytes) : Prop := KeyInterval.Mem ⟨b.lower, b.upper⟩ k

variable {start : Bytes}

theorem intervalsOf_covers {intervals out : List KeyInterval} (h : intervalsOf start f filters intervals = .ok out)
    (k : Bytes) :
    Covers out k ↔ Covers intervals k ∧ ∀ g ∈ filters, rangeFilter f g = true →
      ∃ constraint, filterIntervals start (fieldDirection f) g = .ok constraint ∧ Covers constraint k := by
  induction filters generalizing intervals with
  | nil => cases h; simp
  | cons g rest ih =>
    simp only [intervalsOf] at h
    split at h
    · have hNot : rangeFilter f g = false := by
        unfold rangeFilter
        grind
      rw [ih h]
      simp [hNot]
    · obtain ⟨constraint, hConstraint, hRest⟩ := bind_eq_ok h
      have hIs : rangeFilter f g = true := by
        unfold rangeFilter
        grind
      rw [ih hRest, covers_intersectIntervals, and_assoc]
      simp [hIs, hConstraint]

theorem intervalsOf_constraint {intervals out : List KeyInterval} (h : intervalsOf start f filters intervals = .ok out)
    {g : Filter} (hg : g ∈ filters) (hRange : rangeFilter f g = true) :
    ∃ constraint, filterIntervals start (fieldDirection f) g = .ok constraint := by
  induction filters generalizing intervals with
  | nil => cases hg
  | cons g' rest ih =>
    simp only [intervalsOf] at h
    split at h
    · obtain rfl | hg := mem_cons.mp hg
      · unfold rangeFilter at hRange
        grind
      · exact ih h hg
    · obtain ⟨constraint, hConstraint, hRest⟩ := bind_eq_ok h
      obtain rfl | hg := mem_cons.mp hg
      · exact ⟨constraint, hConstraint⟩
      · exact ih hRest hg

variable {rest : List TemplateField}

theorem boundBranches_mem (h : boundBranches filters rest branches = .ok out) (b : CandidateBranch) :
    b ∈ out ↔ ∃ branch ∈ branches, ∃ bounded, boundBranch filters rest branch = .ok bounded ∧ b ∈ bounded := by
  induction branches generalizing out with
  | nil => cases h; simp
  | cons branch branches ih =>
    obtain ⟨bounded, hBounded, hRest⟩ := bind_eq_ok h
    obtain ⟨tail, hTail, rfl⟩ := map_eq_ok hRest
    rw [mem_append, ih hTail, exists_mem_cons_iff]
    simp [hBounded]

theorem boundBranches_ok (h : boundBranches filters rest branches = .ok out) (hBranch : branch ∈ branches) :
    ∃ bounded, boundBranch filters rest branch = .ok bounded := by
  induction branches generalizing out with
  | nil => cases hBranch
  | cons b branches ih =>
    obtain ⟨bounded, hBounded, hRest⟩ := bind_eq_ok h
    obtain ⟨tail, hTail, -⟩ := map_eq_ok hRest
    obtain rfl | hBranch := mem_cons.mp hBranch
    · exact ⟨bounded, hBounded⟩
    · exact ih hTail hBranch

theorem boundBranch_covers {bounded : List CandidateBranch} (h : boundBranch filters rest branch = .ok bounded) (k : Bytes) :
    (∃ b ∈ bounded, b.Mem k) ↔ branch.fixedPrefix <+: k ∧ ∀ f tail, rest = f :: tail →
      ∀ g ∈ filters, rangeFilter f g = true →
        ∃ constraint, filterIntervals branch.fixedPrefix (fieldDirection f) g = .ok constraint ∧
          Covers constraint k := by
  obtain ⟨intervals, hIntervals, rfl⟩ := map_eq_ok h
  have hMem : (∃ b ∈ intervals.map fun i => { branch with lower := i.lower, upper := i.upper }, b.Mem k) ↔
      Covers intervals k := by
    simp [CandidateBranch.Mem, Covers]
  rw [hMem, ← prefixSuccessor_mem_iff, ← covers_singleton]
  cases rest with
  | nil => cases hIntervals; simp
  | cons f tail =>
    rw [intervalsOf_covers hIntervals]
    simp

end Syntrix.Index
