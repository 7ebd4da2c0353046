import Syntrix.Storage.DocumentStore

/-! # A change that races with other clients

A program of accesses runs while others write: before every access the store may have become any other
one. A run is recorded as its accesses with the record each of them saw, which gives its writes. A pushed
change ends in one write, or in none.
-/
namespace Syntrix.Storage

open Lib Model Index List Option

abbrev Store := Bytes → Row

abbrev Trace := List (Access × Row)

def Trace.committed (trace : Trace) : List StoredDoc := trace.filterMap fun x => x.1.write x.2

/-- The store after a client's last access, and the number of accesses it made. -/
structure Session where
  store : Store
  clock : Nat

variable {α β : Type}

/-- Run a program on the record of a path; the others act before each access. -/
def Program.execute (others : Nat → Store → Store) (path : Bytes) : Program α → Session → Trace × α × Session
  | .done result, s => ([], result, s)
  | .access a next, s =>
    let store := others s.clock s.store
    let row := store path
    let written := match a.write row with
      | some doc => Function.update store path (some doc)
      | none => store
    let out := (next row).execute others path ⟨written, s.clock + 1⟩
    ((a, row) :: out.1, out.2)

inductive Program.Traces : Program α → Trace → α → Prop
  | done (result : α) : Traces (.done result) [] result
  | access {a : Access} {next : Row → Program α} {trace : Trace} {result : α} (row : Row) :
      Traces (next row) trace result → Traces (.access a next) ((a, row) :: trace) result

theorem Program.execute_traces (others : Nat → Store → Store) (path : Bytes) (p : Program α) (s : Session) :
    p.Traces (p.execute others path s).1 (p.execute others path s).2.1 := by
  induction p generalizing s with
  | done result => exact .done result
  | access a next ih => exact .access _ (ih _ _)

variable {a : Access} {row : Row}

theorem Program.execute_first {others : Nat → Store → Store} {path : Bytes} {p : Program α} {s : Session} {rest : Trace} (h : (p.execute others path s).1 = (a, row) :: rest) : row = others s.clock s.store path := by
  cases p with
  | done result => cases h
  | access b next => exact (Prod.mk.inj (List.cons.inj h).1).2.symm

variable {trace : Trace}

theorem Program.Traces.of_done {a b : α} (h : (Program.done a).Traces trace b) : trace = [] ∧ a = b := by
  cases h
  exact ⟨rfl, rfl⟩

theorem Program.Traces.bind {p : Program α} {f : α → Program β} {result : β} (h : (p.bind f).Traces trace result) :
    ∃ before a after, p.Traces before a ∧ (f a).Traces after result ∧ trace = before ++ after := by
  induction p generalizing trace with
  | done a => exact ⟨[], a, trace, .done a, h, rfl⟩
  | access a next ih =>
    cases h with
    | access row h =>
      obtain ⟨before, x, after, hBefore, hAfter, rfl⟩ := ih row h
      exact ⟨(a, row) :: before, x, after, .access row hBefore, hAfter, rfl⟩

def Trace.writes (trace : Trace) : List (Row × StoredDoc) := trace.filterMap fun x => (x.1.write x.2).map (x.2, ·)

@[simp] theorem committed_nil : Trace.committed [] = [] := rfl

@[simp] theorem committed_read (row : Row) (trace : Trace) :
    Trace.committed ((.read, row) :: trace) = Trace.committed trace := rfl

theorem committed_append (before after : Trace) :
    Trace.committed (before ++ after) = Trace.committed before ++ Trace.committed after :=
  filterMap_append

theorem committed_none (h : a.write row = none) (trace : Trace) :
    Trace.committed ((a, row) :: trace) = Trace.committed trace := filterMap_cons_none h

variable {doc : StoredDoc}

theorem committed_some (h : a.write row = some doc) (trace : Trace) :
    Trace.committed ((a, row) :: trace) = doc :: Trace.committed trace := filterMap_cons_some h

@[simp] theorem writes_read (row : Row) (trace : Trace) :
    Trace.writes ((.read, row) :: trace) = Trace.writes trace := rfl

theorem writes_append (before after : Trace) : Trace.writes (before ++ after) = Trace.writes before ++ Trace.writes after :=
  filterMap_append

theorem writes_none (h : a.write row = none) (trace : Trace) : Trace.writes ((a, row) :: trace) = Trace.writes trace :=
  filterMap_cons_none (by rw [h]; rfl)

theorem writes_some (h : a.write row = some doc) (trace : Trace) :
    Trace.writes ((a, row) :: trace) = (row, doc) :: Trace.writes trace :=
  filterMap_cons_some (by rw [h]; rfl)

theorem create_writes (h : (create doc).Traces trace (.ok ())) :
    ∃ row, trace.writes = [(row, { doc with deleted := false })] ∧ live row = none := by
  cases h with
  | access row h =>
    dsimp only at h
    split at h
    · rename_i hNone
      cases h
      have hWrite : Access.write row (.insertOne { doc with deleted := false }) = _ := if_pos hNone
      refine ⟨row, writes_some hWrite [], ?_⟩
      rw [isNone_iff_eq_none.mp hNone]
      rfl
    · rename_i hSome
      cases h with
      | access row h =>
        dsimp only at h
        split at h
        · cases h with
          | @access _ _ _ _ found h =>
            obtain ⟨rfl, hResult⟩ := h.of_done
            split at hResult
            · rename_i hDeleted
              have hWrite : Access.write found (.replaceTombstone { doc with deleted := false }) = _ := if_pos hDeleted
              refine ⟨found, ?_, live_of_deleted hDeleted⟩
              rw [writes_none (show Access.write _ (.insertOne _) = none from if_neg hSome), writes_read]
              exact writes_some hWrite []
            · cases hResult
        · cases h

theorem updateMatching_writes {filter : Filter} {change : StoredDoc → StoredDoc} {missing : Row → StoreError}
    (h : (updateMatching filter change missing).Traces trace (.ok ())) :
    ∃ row old new, trace.writes = [(row, change new)] ∧ live row = some old ∧ filter.matches old = true ∧
      increment old = some new := by
  cases h with
  | access row h =>
    dsimp only at h
    split at h
    · rename_i old hMatch
      cases hIncrement : increment old with
      | some new =>
        rw [hIncrement] at h
        cases h
        have hWrite : (Access.updateOne filter change).write row = some (change new) := by
          simp [Access.write, hMatch, hIncrement]
        obtain ⟨hLive, hFilter⟩ := filter_eq_some_iff.mp hMatch
        exact ⟨row, old, new, writes_some hWrite [], hLive, hFilter, hIncrement⟩
      | none =>
        rw [hIncrement] at h
        obtain ⟨-, hResult⟩ := h.of_done
        cases hResult
    · cases h with
      | access row h => cases h

def Decisive (p : Program (Except StoreError Unit)) : Prop :=
  ∀ trace result, p.Traces trace result →
    (result = .ok () ∧ trace.committed.length = 1) ∨ ((∃ e, result = .error e) ∧ trace.committed = [])

theorem create_decisive (doc : StoredDoc) : Decisive (create doc) := by
  intro trace result h
  cases h with
  | access row h =>
    dsimp only at h
    split at h
    · rename_i hNone
      cases h
      exact .inl ⟨rfl, by
        rw [committed_some (show Access.write row (.insertOne { doc with deleted := false }) = _ from if_pos hNone)]
        rfl⟩
    · rename_i hSome
      rw [committed_none (show Access.write row (.insertOne _) = none from if_neg hSome)]
      cases h with
      | access row h =>
        dsimp only at h
        split at h
        · cases h with
          | access row h =>
            cases h
            cases hDeleted : row.any StoredDoc.deleted with
            | true => exact .inl ⟨rfl, by simp [Trace.committed, Access.write, hDeleted]⟩
            | false => exact .inr ⟨⟨_, rfl⟩, committed_none (by simp [Access.write, hDeleted]) []⟩
        · cases h
          exact .inr ⟨⟨_, rfl⟩, rfl⟩

theorem updateMatching_decisive (filter : Filter) (change : StoredDoc → StoredDoc) (missing : Row → StoreError) :
    Decisive (updateMatching filter change missing) := by
  intro trace result h
  cases h with
  | access row h =>
    dsimp only at h
    split at h
    · rename_i doc hMatch
      cases h
      cases hIncrement : increment doc with
      | some new =>
        have hWrite : (Access.updateOne filter change).write row = some (change new) := by
          simp [Access.write, hMatch, hIncrement]
        exact .inl ⟨rfl, by rw [committed_some hWrite]; rfl⟩
      | none =>
        have hWrite : (Access.updateOne filter change).write row = none := by simp [Access.write, hMatch, hIncrement]
        exact .inr ⟨⟨_, rfl⟩, committed_none hWrite []⟩
    · rename_i hMatch
      have hWrite : (Access.updateOne filter change).write row = none := by simp [Access.write, hMatch]
      cases h with
      | access row h =>
        cases h
        exact .inr ⟨⟨_, rfl⟩, by rw [committed_none hWrite, committed_read]; rfl⟩

theorem writePushChange_decisive (now : Int64) (database : Bytes) (change : PushChange) (creating : Bool) :
    Decisive (writePushChange now database change creating) := by
  unfold writePushChange
  split
  · exact create_decisive _
  · split
    all_goals exact updateMatching_decisive _ _ _

/-- A change may find a document in its way when it creates one, or updates without a version. -/
def MayCreate (change : PushChange) : Prop :=
  change.action = .create ∨ change.action = .update ∧ change.baseVersion = none

/-- What a run of one change leaves behind: a conflict and no write, or one write; a delete without a
version may also find nothing to delete. -/
inductive Accounted (change : PushChange) (trace : Trace) : Option (ConflictReason × Row) → Prop
  | conflict (creating : Bool) (row : Row) : trace.committed = [] → (.read, row) ∈ trace →
      (creating = true → MayCreate change) → Accounted change trace (some (conflictReason change row creating, row))
  | written : trace.committed.length = 1 → Accounted change trace none
  | absent (row : Row) : trace.committed = [] → (.read, row) ∈ trace → live row = none → change.action = .delete →
      change.baseVersion = none → Accounted change trace none

theorem pushChange_accounted {now : Int64} {database : Bytes} {change : PushChange} {outcome : Option (ConflictReason × Row)}
    (h : (pushChange now database change).Traces trace (.ok outcome)) : Accounted change trace outcome := by
  cases h with
  | @access _ _ trace _ current h =>
    dsimp only at h
    split at h
    · rename_i hCreate
      cases h
      exact .conflict true current rfl (by simp) fun _ => .inl hCreate.1
    · split at h
      · cases h
        exact .conflict false current rfl (by simp) nofun
      rename_i hBased
      split at h
      · rename_i hGone
        obtain ⟨hDelete, hBase, hMissing⟩ := hGone
        cases h
        exact .absent current rfl (by simp) (isNone_iff_eq_none.mp hMissing) hDelete
          (isNone_iff_eq_none.mp hBase)
      · split at h
        · cases h
          exact .conflict false current rfl (by simp) nofun
        -- The write is tried; what it creates was not asked for with a version, unless by a create.
        have hCreating : ((live current).isNone && decide (change.action ≠ .delete)) = true → MayCreate change := by
          intro hBoth
          obtain ⟨hMissing, hAction⟩ := Bool.and_eq_true_iff.mp hBoth
          cases hChange : change.action with
          | create => exact .inl hChange
          | delete => simp [hChange] at hAction
          | update =>
            refine .inr ⟨hChange, not_isSome_iff_eq_none.mp fun hSome => hBased ⟨?_, hSome, hMissing⟩⟩
            rw [hChange]
            nofun
        obtain ⟨before, result, after, hWrite, hAfter, rfl⟩ := h.bind
        obtain ⟨rfl, hOne⟩ | ⟨⟨e, rfl⟩, hNone⟩ := writePushChange_decisive _ _ _ _ _ _ hWrite
        · cases hAfter
          exact .written (by rw [committed_read, committed_append]; simpa using hOne)
        dsimp only at hAfter
        split at hAfter
        · cases hAfter
        cases hAfter with
        | access row hAfter =>
          dsimp only at hAfter
          have hCommitted : Trace.committed ((.read, current) :: (before ++ [(.read, row)])) = [] := by
            rw [committed_read, committed_append, hNone]
            rfl
          split at hAfter
          · rename_i hGone
            obtain ⟨hDelete, hBase, hMissing⟩ := hGone
            cases hAfter
            exact .absent row hCommitted (by simp) (isNone_iff_eq_none.mp hMissing) hDelete
              (isNone_iff_eq_none.mp hBase)
          · cases hAfter
            exact .conflict _ row hCommitted (by simp) hCreating

end Syntrix.Storage
