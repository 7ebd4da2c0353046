import Mathlib

/-! # Runs of a transition system

Steps are labelled by actions; a run is a sequence of actions each of which was allowed and could be
taken. What holds at the start and is kept by every allowed step holds after every run.
-/
namespace Syntrix.Lib

open List Option

variable {σ α : Type} (step : σ → α → Option σ) (allowed : σ → α → Prop) (start : σ)

section Lookup

variable {β : Type} {found : Option β} {f : β → Option σ} {s' : σ}

/-- A step that starts with a lookup is taken with what was found. -/
theorem bind_step {P : Prop} (h : found.bind f = some s') (hNext : ∀ b, found = some b → f b = some s' → P) : P := by
  obtain ⟨b, hb, hStep⟩ := bind_eq_some_iff.mp h
  exact hNext b hb hStep

theorem bind_guard {c : β → Prop} [DecidablePred c] (h : (found.bind fun b => if c b then f b else none) = some s') :
    ∃ b, found = some b ∧ c b ∧ f b = some s' := by
  obtain ⟨b, hb, hStep⟩ := bind_eq_some_iff.mp h
  exact ⟨b, hb, ite_none_right_eq_some.mp hStep⟩

end Lookup

inductive Runs : List α → σ → Prop
  | nil : Runs [] start
  | snoc {actions : List α} {s s' : σ} {a : α} :
      Runs actions s → allowed s a → step s a = some s' → Runs (actions ++ [a]) s'

variable {step allowed start}

variable {actions : List α} {s : σ}

theorem Runs.invariant {I : σ → Prop} (hStart : I start) (hStep : ∀ s a s', I s → allowed s a → step s a = some s' → I s')
    (h : Runs step allowed start actions s) : I s := by
  induction h with
  | nil => exact hStart
  | snoc _ hAllowed hNext ih => exact hStep _ _ _ ih hAllowed hNext

variable {s' : σ} {taken : List α}

theorem Runs.trans (h : Runs step allowed start taken s) (h' : Runs step allowed s actions s') :
    Runs step allowed start (taken ++ actions) s' := by
  induction h' with
  | nil => rwa [append_nil]
  | snoc _ hAllowed hNext ih =>
    rw [← append_assoc]
    exact ih.snoc hAllowed hNext

theorem Runs.restrict {p : α → Prop} (h : Runs step allowed start actions s)
    (hAll : ∀ a ∈ actions, p a) : Runs step (fun s a => allowed s a ∧ p a) start actions s := by
  induction h with
  | nil => exact .nil
  | snoc _ hStep hNext ih =>
    refine .snoc (ih fun a ha => hAll a (mem_append_left _ ha)) ⟨hStep, ?_⟩ hNext
    exact hAll _ (mem_append_right _ mem_cons_self)

/-- A run goes on with what is computed, when the computation takes allowed steps only. -/
theorem Runs.append_fold {f : σ → α → Option σ}
    (hf : ∀ a ∈ actions, ∀ s s', f s a = some s' → allowed s a ∧ step s a = some s') (h : Runs step allowed start taken s)
    (hFold : actions.foldlM f s = some s') : Runs step allowed start (taken ++ actions) s' := by
  induction actions generalizing taken s with
  | nil =>
    cases hFold
    rwa [append_nil]
  | cons a actions ih =>
    obtain ⟨next, hNext, hRest⟩ := bind_eq_some_iff.mp hFold
    obtain ⟨hFirst, hOthers⟩ := forall_mem_cons.mp hf
    obtain ⟨hAllowed, hStep⟩ := hFirst s next hNext
    have hRun := ih hOthers (h.snoc hAllowed hStep) hRest
    rwa [append_assoc] at hRun

theorem Runs.append_foldlM (hAllowed : ∀ a ∈ actions, ∀ s, allowed s a) (h : Runs step allowed start taken s)
    (hFold : actions.foldlM step s = some s') : Runs step allowed start (taken ++ actions) s' :=
  h.append_fold (fun a ha s _ hStep => ⟨hAllowed a ha s, hStep⟩) hFold

theorem Runs.of_foldlM (hAllowed : ∀ a ∈ actions, ∀ s, allowed s a)
    (hFold : actions.foldlM step start = some s) : Runs step allowed start actions s :=
  Runs.nil.append_foldlM hAllowed hFold

theorem Runs.append_checked {check : σ → α → Prop} [∀ s a, Decidable (check s a)] (hCheck : ∀ s a, check s a → allowed s a)
    (h : Runs step allowed start taken s)
    (hFold : actions.foldlM (fun s a => if check s a then step s a else none) s = some s') :
    Runs step allowed start (taken ++ actions) s' :=
  h.append_fold (fun a _ s _ hStep => (ite_none_right_eq_some.mp hStep).imp_left (hCheck s a)) hFold

/-- What a run ends in can be computed. -/
theorem Runs.exists_checked [∀ s a, Decidable (allowed s a)] {P : σ → Prop} [DecidablePred P]
    (h : ((actions.foldlM (fun s a => if allowed s a then step s a else none) start).any fun s => P s) = true) :
    ∃ s, Runs step allowed start actions s ∧ P s := by
  obtain ⟨s, hFold, hs⟩ := (any_eq_true _ _).mp h
  exact ⟨s, Runs.nil.append_checked (fun _ _ hAllowed => hAllowed) hFold, of_decide_eq_true hs⟩

theorem Runs.exists_of_foldlM {P : σ → Prop} [DecidablePred P] (h : ((actions.foldlM step start).any fun s => P s) = true) :
    ∃ s, Runs step (fun _ _ => True) start actions s ∧ P s := by
  obtain ⟨s, hFold, hs⟩ := (any_eq_true _ _).mp h
  exact ⟨s, .of_foldlM (fun _ _ _ => trivial) hFold, of_decide_eq_true hs⟩

/-- When a step keeps the invariant exactly if it is allowed, the runs of allowed steps are those along which
the invariant holds. -/
theorem Runs.allowed_iff_kept {I : σ → Prop} (hStart : I start)
    (hStep : ∀ s a s', I s → step s a = some s' → (I s' ↔ allowed s a)) :
    Runs step allowed start actions s ↔ Runs step (fun s a => ∀ s', step s a = some s' → I s') start actions s := by
  constructor
  · intro h
    have hKept : Runs step (fun s a => ∀ s', step s a = some s' → I s') start actions s ∧ I s := by
      induction h with
      | nil => exact ⟨.nil, hStart⟩
      | snoc _ hAllowed hNext ih =>
        have hI := (hStep _ _ _ ih.2 hNext).mpr hAllowed
        exact ⟨.snoc ih.1 (fun s' hs' => some.inj (hNext.symm.trans hs') ▸ hI) hNext, hI⟩
    exact hKept.1
  · intro h
    have hAllowed : Runs step allowed start actions s ∧ I s := by
      induction h with
      | nil => exact ⟨.nil, hStart⟩
      | snoc _ hKept hNext ih => exact ⟨.snoc ih.1 ((hStep _ _ _ ih.2 hNext).mp (hKept _ hNext)) hNext, hKept _ hNext⟩
    exact hAllowed.1

end Syntrix.Lib
