import Syntrix.Index.ScanOptions

/-! # Read views

A view pins the rows of one partition. Its iterators share one budget of examined rows; an iterator
seeks from the row it returned last. What an iterator still has to return is a list, and a successful
step takes its head.
-/
namespace Syntrix.Index

open Lib OrderCode Model List

structure DocRef where
  id : Bytes
  orderKey : Bytes
deriving DecidableEq

/-- The order of the rows: by key, then by document. -/
def DocRef.Less (a b : DocRef) : Prop := a.orderKey < b.orderKey ∨ a.orderKey = b.orderKey ∧ a.id < b.id

instance (a b : DocRef) : Decidable (a.Less b) := inferInstanceAs (Decidable (_ ∨ _))

theorem DocRef.Less.trans {a b c : DocRef} (hab : a.Less b) (hbc : b.Less c) : a.Less c := by
  obtain hab | ⟨hab, hab'⟩ := hab
  · obtain hbc | ⟨hbc, -⟩ := hbc
    · exact .inl (hab.trans hbc)
    · exact .inl (hbc ▸ hab)
  · obtain hbc | ⟨hbc, hbc'⟩ := hbc
    · exact .inl (hab ▸ hbc)
    · exact .inr ⟨hab.trans hbc, hab'.trans hbc'⟩

theorem DocRef.Less.asymm {a b : DocRef} (hab : a.Less b) : ¬ b.Less a := by
  intro hba
  obtain h | ⟨-, h⟩ := hab.trans hba
  all_goals exact lt_irrefl _ h

theorem DocRef.Less.key_le {a b : DocRef} (hab : a.Less b) : ¬ b.orderKey < a.orderKey := by
  obtain h | ⟨h, -⟩ := hab
  · exact h.asymm
  · rw [h]
    exact lt_irrefl _

def SortedRows (rows : List DocRef) : Prop := rows.Pairwise DocRef.Less

structure ViewIterator where
  options : SearchOptions
  last : Option DocRef
  closed : Bool
  examined : Nat

structure MemView where
  rows : List DocRef
  maxExamined : Nat
  examined : Nat

/-- Where an iterator seeks: its bounds at first, then the row it returned last. -/
def ViewIterator.start (it : ViewIterator) : DocRef :=
  match it.last with
  | some last => last
  | none =>
    match it.options.startAfter with
    | some after => ⟨[], if it.options.lower < after then after else it.options.lower⟩
    | none => ⟨[], it.options.lower⟩

/-- Walk up the rows to the next one in the bounds, charging every row that is looked at. -/
def ViewIterator.visit (it : ViewIterator) (maxExamined : Nat) :
    List DocRef → Nat → Nat → Except CandidateError (Option DocRef × Nat × Nat)
  | [], total, own => .ok (none, total, own)
  | item :: rest, total, own =>
    if it.last.any fun last => ¬ last.Less item then it.visit maxExamined rest total own
    else if it.options.upper.any fun upper => ¬ item.orderKey < upper then .ok (none, total, own)
    else if maxExamined < total + 1 then .error .workLimit
    else if it.options.startAfter.any fun after => ¬ after < item.orderKey then
      it.visit maxExamined rest (total + 1) (own + 1)
    else .ok (some item, total + 1, own + 1)

def ViewIterator.next (it : ViewIterator) (view : MemView) :
    Except CandidateError (Option DocRef × ViewIterator × MemView) :=
  if it.closed then .ok (none, it, view)
  else
    (it.visit view.maxExamined (view.rows.dropWhile fun row => row.Less it.start) view.examined it.examined).map
      fun (row, total, own) =>
        match row with
        | none => (none, { it with closed := true, examined := own }, { view with examined := total })
        | some last => (some last, { it with last := some last, examined := own }, { view with examined := total })

def ViewIterator.Awaits (it : ViewIterator) (row : DocRef) : Prop :=
  it.closed = false ∧ it.options.Mem row.orderKey ∧ ∀ last, it.last = some last → last.Less row

open Classical in
noncomputable def ViewIterator.remaining (it : ViewIterator) (rows : List DocRef) : List DocRef :=
  rows.filter fun row => it.Awaits row

def ViewIterator.Valid (it : ViewIterator) : Prop := ∀ last, it.last = some last → it.options.Mem last.orderKey

variable {it : ViewIterator} {rows : List DocRef} {row : DocRef}

theorem not_awaits_of_less (hLess : row.Less it.start) : ¬ it.Awaits row := by
  rintro ⟨-, ⟨hLower, -, hAfter⟩, hLast⟩
  unfold ViewIterator.start at hLess
  split at hLess
  · rename_i last hSome
    exact hLess.asymm (hLast last hSome)
  split at hLess
  · rename_i after hSome
    obtain hLt | ⟨-, hLt⟩ := hLess
    · exact (not_lt_max_iff _ _ _).mpr ⟨hLower, (hAfter after hSome).asymm⟩ hLt
    · exact not_lt_nil _ hLt
  · obtain hLt | ⟨-, hLt⟩ := hLess
    · exact hLower hLt
    · exact not_lt_nil _ hLt

theorem lower_of_not_less (hValid : it.Valid) (hLess : ¬ row.Less it.start) : ¬ row.orderKey < it.options.lower := by
  intro hLt
  refine hLess (.inl ?_)
  unfold ViewIterator.start
  split
  · rename_i last hSome
    exact hLt.trans_le (not_lt.mp (hValid last hSome).1)
  split
  · split
    · rename_i hAfter
      exact hLt.trans hAfter
    · exact hLt
  · exact hLt

theorem not_less_of_mem_dropWhile (hSorted : SortedRows rows) {start row : DocRef}
    (h : row ∈ rows.dropWhile fun row => decide (row.Less start)) : ¬ row.Less start := by
  induction rows with
  | nil => cases h
  | cons item rest ih =>
    obtain ⟨hItem, hRest⟩ := pairwise_cons.mp hSorted
    rw [dropWhile_cons] at h
    split at h
    · exact ih hRest h
    rename_i hNot
    have hNot : ¬ item.Less start := by simpa using hNot
    obtain rfl | hRow := mem_cons.mp h
    · exact hNot
    · exact fun hLess => hNot ((hItem row hRow).trans hLess)

/-- What a visit of rows may answer: the first row in the bounds, or that there is none. -/
def ViewIterator.Visited (it : ViewIterator) (rows : List DocRef) :
    Except CandidateError (Option DocRef × Nat × Nat) → Prop
  | .error e => e = .workLimit
  | .ok (none, _, _) => ∀ row ∈ rows, ¬ it.Awaits row
  | .ok (some row, _, _) => it.Awaits row ∧ ∃ before after, rows = before ++ row :: after ∧
      ∀ row ∈ before, ¬ it.Awaits row

theorem Visited.skip {item : DocRef} {answer : Except CandidateError (Option DocRef × Nat × Nat)} (hItem : ¬ it.Awaits item)
    (h : it.Visited rows answer) : it.Visited (item :: rows) answer := by
  match answer, h with
  | .error _, h => exact h
  | .ok (none, _, _), h => exact forall_mem_cons.mpr ⟨hItem, h⟩
  | .ok (some row, _, _), ⟨hRow, before, after, hRows, hBefore⟩ =>
    exact ⟨hRow, item :: before, after, by rw [hRows]; rfl, forall_mem_cons.mpr ⟨hItem, hBefore⟩⟩

theorem visit_spec (hOpen : it.closed = false) {maxExamined : Nat}
    (hSorted : SortedRows rows) (hLower : ∀ row ∈ rows, ¬ row.orderKey < it.options.lower) (total own : Nat) :
    it.Visited rows (it.visit maxExamined rows total own) := by
  induction rows generalizing total own with
  | nil => simp [ViewIterator.visit, ViewIterator.Visited]
  | cons item rest ih =>
    obtain ⟨hItem, hRest⟩ := pairwise_cons.mp hSorted
    rw [forall_mem_cons] at hLower
    simp only [ViewIterator.visit]
    split
    · rename_i hPassed
      obtain ⟨last, hLast, hNot⟩ : ∃ last, it.last = some last ∧ ¬ last.Less item := by
        simpa [Option.any_eq_true] using hPassed
      exact Visited.skip (fun hAwaits => hNot (hAwaits.2.2 last hLast)) (ih hRest hLower.2 _ _)
    · rename_i hFresh
      split
      · rename_i hPast
        obtain ⟨upper, hUpper, hNot⟩ : ∃ upper, it.options.upper = some upper ∧ ¬ item.orderKey < upper := by
          simpa [Option.any_eq_true] using hPast
        refine forall_mem_cons.mpr ⟨fun hAwaits => hNot (hAwaits.2.1.2.1 upper hUpper), ?_⟩
        intro row hRow hAwaits
        have hLt := hAwaits.2.1.2.1 upper hUpper
        exact hNot ((not_lt.mp (hItem row hRow).key_le).trans_lt hLt)
      · rename_i hBelow
        split
        · rfl
        split
        · rename_i hEarly
          obtain ⟨after, hAfter, hNot⟩ :
              ∃ after, it.options.startAfter = some after ∧ ¬ after < item.orderKey := by
            simpa [Option.any_eq_true] using hEarly
          exact Visited.skip (fun hAwaits => hNot (hAwaits.2.1.2.2 after hAfter)) (ih hRest hLower.2 _ _)
        · rename_i hLate
          refine ⟨⟨hOpen, ⟨hLower.1, ?_, ?_⟩, ?_⟩, [], rest, rfl, by simp⟩
          · intro upper hUpper
            simpa [hUpper] using hBelow
          · intro after hAfter
            simpa [hAfter] using hLate
          · intro last hLast
            simpa [hLast] using hFresh

theorem remaining_append (it : ViewIterator) (xs ys : List DocRef) :
    it.remaining (xs ++ ys) = it.remaining xs ++ it.remaining ys := filter_append xs ys

theorem remaining_eq_nil (h : ∀ row ∈ rows, ¬ it.Awaits row) : it.remaining rows = [] := by
  simpa [ViewIterator.remaining] using h

theorem remaining_returned {before after : List DocRef} {own : Nat}
    (hSorted : SortedRows (before ++ row :: after)) (hBefore : ∀ r ∈ before, ¬ it.Awaits r) (hRow : it.Awaits row) :
    it.remaining (before ++ row :: after) =
      row :: ViewIterator.remaining { it with last := some row, examined := own } (before ++ row :: after) := by
  obtain ⟨-, hTail, hCross⟩ := pairwise_append.mp hSorted
  obtain ⟨hHead, -⟩ := pairwise_cons.mp hTail
  have hIrrefl : ¬ row.Less row := fun hLess => hLess.asymm hLess
  have hGone : ∀ r ∈ before ++ [row], ¬ ViewIterator.Awaits { it with last := some row, examined := own } r := by
    rintro r hr ⟨-, -, hLast⟩
    have hLess := hLast row rfl
    rcases mem_push.mp hr with hr | rfl
    · exact hLess.asymm (hCross r hr row mem_cons_self)
    · exact hIrrefl hLess
  have hSame : ViewIterator.remaining { it with last := some row, examined := own } after = it.remaining after := by
    refine filter_congr fun r hr => ?_
    rw [decide_eq_decide]
    have hLess := hHead r hr
    constructor
    · rintro ⟨hOpen, hMem, -⟩
      exact ⟨hOpen, hMem, fun last hLast => (hRow.2.2 last hLast).trans hLess⟩
    · rintro ⟨hOpen, hMem, -⟩
      exact ⟨hOpen, hMem, fun last hLast => Option.some.inj hLast ▸ hLess⟩
  have hOne : it.remaining [row] = [row] := by simp [ViewIterator.remaining, hRow]
  rw [append_cons before row after, remaining_append, remaining_append, remaining_append, remaining_eq_nil hBefore,
    remaining_eq_nil hGone, hOne, hSame]
  rfl

/-- A step takes the head of what remains; only the work limit makes it fail. -/
def ViewIterator.Advanced (it : ViewIterator) (rows : List DocRef) :
    Except CandidateError (Option DocRef × ViewIterator × MemView) → Prop
  | .error e => e = .workLimit
  | .ok (row, it', view') => it.remaining rows = row.toList ++ it'.remaining rows ∧
      (row = none → it.remaining rows = []) ∧ it'.Valid ∧ view'.rows = rows

theorem next_spec {view : MemView} (hSorted : SortedRows view.rows) (hValid : it.Valid) :
    it.Advanced view.rows (it.next view) := by
  cases hClosed : it.closed with
  | true =>
    simp only [ViewIterator.next, hClosed, if_true]
    exact ⟨rfl, fun _ => by simp [ViewIterator.remaining, ViewIterator.Awaits, hClosed], hValid, rfl⟩
  | false =>
    have hSplit := @List.takeWhile_append_dropWhile _ (fun row => decide (row.Less it.start)) view.rows
    have hHead : ∀ row ∈ view.rows.takeWhile (fun row => decide (row.Less it.start)), ¬ it.Awaits row := by
      intro row hRow
      have hLess := mem_takeWhile_imp hRow
      exact not_awaits_of_less (of_decide_eq_true hLess)
    have hDropped := List.Pairwise.sublist (dropWhile_sublist fun row => decide (row.Less it.start)) hSorted
    have hLower : ∀ row ∈ view.rows.dropWhile (fun row => decide (row.Less it.start)),
        ¬ row.orderKey < it.options.lower := fun row hRow =>
      lower_of_not_less hValid (not_less_of_mem_dropWhile hSorted hRow)
    have hVisit := @visit_spec it _ hClosed view.maxExamined hDropped hLower view.examined it.examined
    rw [ViewIterator.next, if_neg (by simp [hClosed])]
    generalize view.rows.dropWhile (fun row => decide (row.Less it.start)) = tail at *
    generalize view.rows.takeWhile (fun row => decide (row.Less it.start)) = head at *
    rw [← hSplit] at hSorted ⊢
    match hAnswer : it.visit view.maxExamined tail view.examined it.examined with
    | .error e =>
      rw [hAnswer] at hVisit
      exact hVisit
    | .ok (none, total, own) =>
      rw [hAnswer] at hVisit
      have hNone : it.remaining (head ++ tail) = [] := remaining_eq_nil fun row hRow =>
        (mem_append.mp hRow).elim (hHead row) (hVisit row)
      refine ⟨?_, fun _ => hNone, hValid, rfl⟩
      rw [hNone]
      simp [ViewIterator.remaining, ViewIterator.Awaits]
    | .ok (some row, total, own) =>
      rw [hAnswer] at hVisit
      obtain ⟨hRow, before, after, rfl, hBefore⟩ := hVisit
      rw [← append_assoc] at hSorted ⊢
      have hOut : ∀ r ∈ head ++ before, ¬ it.Awaits r := fun r hr =>
        (mem_append.mp hr).elim (hHead r) (hBefore r)
      refine ⟨remaining_returned hSorted hOut hRow, fun hNone => (by cases hNone), ?_, rfl⟩
      intro last hLast
      rw [← Option.some.inj hLast]
      exact hRow.2.1

end Syntrix.Index
