import Syntrix.Index.ReadView
import Syntrix.Lib.Heap

/-! # Candidate streams

The branches of a plan are read side by side and merged by position: a heap holds the next row of
every branch, and the rows of one position, which are postings of one document, come out as one group.
-/
namespace Syntrix.Index

open Lib OrderCode Model List

structure CandidateGroup where
  id : Bytes
  position : Bytes
  branches : List Nat
deriving DecidableEq

/-- The iterators of a view, one for each branch, and how many rows they looked at together. -/
structure Source (σ : Type) where
  next : Nat → σ → Except CandidateError (Option DocRef × σ)
  examined : σ → Nat

structure CandidateStream (σ : Type) where
  metadata : CandidateMetadata
  iterators : Nat
  source : σ
  queue : Array CandidateGroup
  started : Bool
  closed : Bool
  maxExamined : Nat

def CandidateGroup.before (a b : CandidateGroup) : Bool := decide (a.position < b.position)

namespace CandidateStream

variable {σ : Type} (source : Source σ)

def advance (branch : Nat) (s : CandidateStream σ) : Except CandidateError (Option CandidateGroup × CandidateStream σ) :=
  (source.next branch s.source).bind fun (row, rest) =>
    if s.maxExamined < source.examined rest then .error .workLimit
    else match row with
    | none => .ok (none, { s with source := rest })
    | some ref => (s.metadata.position ref.orderKey).map fun position =>
      (some ⟨ref.id, position, [branch]⟩, { s with source := rest })

def pull (branch : Nat) (s : CandidateStream σ) : Except CandidateError (CandidateStream σ) :=
  (s.advance source branch).map fun (head, s) =>
    match head with
    | none => s
    | some group => { s with queue := Heap.push CandidateGroup.before s.queue group }

def pullAll : List Nat → CandidateStream σ → Except CandidateError (CandidateStream σ)
  | [], s => .ok s
  | branch :: rest, s => (s.pull source branch).bind (pullAll rest)

/-- Take every head at the group's position; no answer when the fuel runs out. -/
def gather : Nat → CandidateGroup → CandidateStream σ →
    Except CandidateError (Option (CandidateGroup × CandidateStream σ))
  | 0, _, _ => .ok none
  | fuel + 1, group, s =>
    match s.queue[0]? with
    | none => .ok (some (group, s))
    | some top =>
      if top.position ≠ group.position then .ok (some (group, s))
      else match Heap.pop CandidateGroup.before s.queue with
      | none => .ok (some (group, s))
      | some (head, queue) =>
        if head.id ≠ group.id then .error .inconsistentIdentity
        else
          let branch := head.branches.headD 0
          (pull source branch { s with queue := queue }).bind
            (gather fuel { group with branches := group.branches ++ [branch] })

def next (fuel : Nat) (s : CandidateStream σ) :
    Except CandidateError (Option (Option CandidateGroup × CandidateStream σ)) :=
  if s.closed then .ok (some (none, s))
  else
    (if s.started then .ok s else pullAll source (List.range s.iterators) { s with started := true }).bind fun s =>
      match s.queue[0]? with
      | none => .ok (some (none, s))
      | some top =>
        (gather source fuel ⟨top.id, top.position, []⟩ s).map fun answer =>
          answer.map fun (group, s) =>
            (some { group with branches := group.branches.insertionSort (· ≤ ·) }, s)

def drain : Nat → CandidateStream σ → Except CandidateError (Option (List CandidateGroup))
  | 0, _ => .ok none
  | fuel + 1, s =>
    (s.next source (fuel + 1)).bind fun answer =>
      match answer with
      | none => .ok none
      | some (none, _) => .ok (some [])
      | some (some group, s) => (drain fuel s).map fun groups => groups.map (group :: ·)

/-- A source whose iterators return fixed lists of rows; only the work limit makes them fail. -/
structure Serves (Good : σ → Prop) (remaining : σ → Nat → List DocRef) : Prop where
  failed : ∀ s b e, Good s → source.next b s = .error e → e = .workLimit
  stepped : ∀ s b row s', Good s → source.next b s = .ok (row, s') → Good s' ∧
    remaining s b = row.toList ++ remaining s' b ∧ (row = none → remaining s b = []) ∧
    ∀ b', b' ≠ b → remaining s' b' = remaining s b'

/-- What every branch still has to give: its head in the heap and the rows of its iterator. Branches
in `todo` have no head yet. -/
structure Waiting (Good : σ → Prop) (remaining : σ → Nat → List DocRef) (s : CandidateStream σ)
    (pend : Nat → List DocRef) (todo : List Nat) : Prop where
  good : Good s.source
  heap : Heap.IsHeap CandidateGroup.position s.queue.size s.queue
  heads : ∀ g ∈ s.queue.toList, ∃ b r, g.branches = [b] ∧ b < s.iterators ∧ b ∉ todo ∧ g.id = r.id ∧
    s.metadata.position r.orderKey = .ok g.position ∧ pend b = r :: remaining s.source b
  nodup : (s.queue.toList.map CandidateGroup.branches).Nodup
  idle : ∀ b, b ∉ todo → [b] ∉ s.queue.toList.map CandidateGroup.branches → pend b = []
  fresh : ∀ b ∈ todo, b < s.iterators ∧ pend b = remaining s.source b

def Frame (s s' : CandidateStream σ) : Prop := s' = { s with source := s'.source, queue := s'.queue }

variable {source} {Good : σ → Prop} {remaining : σ → Nat → List DocRef} {s s' : CandidateStream σ}
variable {pend : Nat → List DocRef} {todo : List Nat}

variable {branch : Nat}

theorem advance_cases {head : Option CandidateGroup} (h : s.advance source branch = .ok (head, s')) :
    ∃ row rest, source.next branch s.source = .ok (row, rest) ∧ s' = { s with source := rest } ∧
      (row = none ∧ head = none ∨ ∃ ref position, row = some ref ∧ s.metadata.position ref.orderKey = .ok position ∧
        head = some ⟨ref.id, position, [branch]⟩) := by
  obtain ⟨⟨row, rest⟩, hNext, h⟩ := bind_eq_ok h
  simp only at h
  split at h
  · cases h
  cases row with
  | none =>
    cases h
    exact ⟨none, rest, hNext, rfl, .inl ⟨rfl, rfl⟩⟩
  | some ref =>
    obtain ⟨position, hPosition, hEq⟩ := map_eq_ok h
    cases hEq
    exact ⟨some ref, rest, hNext, rfl, .inr ⟨ref, position, rfl, hPosition, rfl⟩⟩

theorem before_iff (a b : CandidateGroup) : a.before b = true ↔ a.position < b.position := decide_eq_true_iff

theorem pull_failed (hServes : Serves source Good remaining) (hWaiting : Waiting Good remaining s pend (branch :: todo))
    (hRows : ∀ b, ∀ r ∈ pend b, ∀ e, s.metadata.position r.orderKey = .error e → e = .workLimit) {e : CandidateError}
    (h : s.pull source branch = .error e) : e = .workLimit := by
  obtain h | ⟨⟨row, rest⟩, hNext, h⟩ := bind_eq_error (map_eq_error h)
  · exact hServes.failed _ _ _ hWaiting.good h
  simp only at h
  split at h
  · exact (Except.error.inj h).symm
  cases row with
  | none => cases h
  | some ref =>
    obtain ⟨-, hTake, -, -⟩ := hServes.stepped _ _ _ _ hWaiting.good hNext
    refine hRows branch ref ?_ e (map_eq_error h)
    rw [(hWaiting.fresh branch mem_cons_self).2, hTake]
    exact mem_cons_self

theorem pull_spec (hServes : Serves source Good remaining) (hWaiting : Waiting Good remaining s pend (branch :: todo))
    (hBranch : branch ∉ todo) (h : s.pull source branch = .ok s') : Waiting Good remaining s' pend todo ∧ Frame s s' := by
  obtain ⟨⟨head, s₁⟩, hAdvance, rfl⟩ := map_eq_ok h
  obtain ⟨row, rest, hNext, rfl, hHead⟩ := advance_cases hAdvance
  obtain ⟨hGood, hTake, hEmpty, hOther⟩ := hServes.stepped _ _ _ _ hWaiting.good hNext
  obtain ⟨hBound, hPend⟩ := hWaiting.fresh branch mem_cons_self
  have hHeads : ∀ g ∈ s.queue.toList, ∃ b r, g.branches = [b] ∧ b < s.iterators ∧ b ∉ todo ∧ g.id = r.id ∧
      s.metadata.position r.orderKey = .ok g.position ∧ pend b = r :: remaining rest b := by
    intro g hg
    obtain ⟨b, r, hBranches, hb, hNot, hId, hPosition, hRows⟩ := hWaiting.heads g hg
    rw [mem_cons, not_or] at hNot
    exact ⟨b, r, hBranches, hb, hNot.2, hId, hPosition, by rw [hRows, hOther b hNot.1]⟩
  have hAbsent : [branch] ∉ s.queue.toList.map CandidateGroup.branches := by
    intro hMem
    obtain ⟨g, hg, hEq⟩ := List.mem_map.mp hMem
    obtain ⟨b, r, hBranches, -, hNot, -⟩ := hWaiting.heads g hg
    rw [hEq] at hBranches
    exact hNot ((singleton_inj.mp hBranches) ▸ mem_cons_self)
  have hFresh : ∀ b ∈ todo, b < s.iterators ∧ pend b = remaining rest b := by
    intro b hb
    obtain ⟨hLt, hRows⟩ := hWaiting.fresh b (mem_cons_of_mem _ hb)
    exact ⟨hLt, by rw [hRows, hOther b fun hEq => hBranch (hEq ▸ hb)]⟩
  have hIdle : ∀ b, b ∉ todo → b ≠ branch → [b] ∉ s.queue.toList.map CandidateGroup.branches → pend b = [] := by
    intro b hb hNe hNot
    exact hWaiting.idle b (by simp [hb, hNe]) hNot
  obtain ⟨rfl, rfl⟩ | ⟨ref, position, rfl, hPosition, rfl⟩ := hHead
  · refine ⟨⟨hGood, hWaiting.heap, hHeads, hWaiting.nodup, ?_, hFresh⟩, rfl⟩
    intro b hb hNot
    by_cases hEq : b = branch
    · rw [hEq, hPend]
      exact hEmpty rfl
    · exact hIdle b hb hEq hNot
  · obtain ⟨hHeap, hPerm⟩ := Heap.push_spec before_iff hWaiting.heap ⟨ref.id, position, [branch]⟩
    have hNames := hPerm.map CandidateGroup.branches
    refine ⟨⟨hGood, hHeap, ?_, ?_, ?_, hFresh⟩, rfl⟩
    · intro g hg
      obtain rfl | hg := mem_cons.mp (hPerm.mem_iff.mp hg)
      · exact ⟨branch, ref, rfl, hBound, hBranch, rfl, hPosition, by rw [hPend, hTake]; rfl⟩
      · exact hHeads g hg
    · exact (hNames.nodup_iff).mpr (nodup_cons.mpr ⟨hAbsent, hWaiting.nodup⟩)
    · intro b hb hNot
      rw [hNames.mem_iff, map_cons, mem_cons, not_or] at hNot
      exact hIdle b hb (fun hEq => hNot.1 (by rw [hEq])) hNot.2

theorem Frame.trans {s₁ s₂ s₃ : CandidateStream σ} (h : Frame s₁ s₂) (h' : Frame s₂ s₃) : Frame s₁ s₃ := by
  unfold Frame at *
  rw [h', h]

theorem pullAll_failed (hServes : Serves source Good remaining) (hNodup : todo.Nodup)
    (hWaiting : Waiting Good remaining s pend todo)
    (hRows : ∀ b, ∀ r ∈ pend b, ∀ e, s.metadata.position r.orderKey = .error e → e = .workLimit) {e : CandidateError}
    (h : s.pullAll source todo = .error e) : e = .workLimit := by
  induction todo generalizing s with
  | nil => cases h
  | cons b todo ih =>
    obtain ⟨hb, hNodup⟩ := nodup_cons.mp hNodup
    obtain h | ⟨s₁, hPull, h⟩ := bind_eq_error h
    · exact pull_failed hServes hWaiting hRows h
    obtain ⟨hNext, hFrame⟩ := pull_spec hServes hWaiting hb hPull
    refine ih hNodup hNext ?_ h
    rw [hFrame]
    exact hRows

theorem pullAll_spec (hServes : Serves source Good remaining) (hNodup : todo.Nodup)
    (hWaiting : Waiting Good remaining s pend todo) (h : s.pullAll source todo = .ok s') :
    Waiting Good remaining s' pend [] ∧ Frame s s' := by
  induction todo generalizing s with
  | nil =>
    cases h
    exact ⟨hWaiting, rfl⟩
  | cons b todo ih =>
    obtain ⟨hb, hNodup⟩ := nodup_cons.mp hNodup
    obtain ⟨s₁, hPull, h⟩ := bind_eq_ok h
    obtain ⟨hNext, hFrame⟩ := pull_spec hServes hWaiting hb hPull
    obtain ⟨hLast, hFrame'⟩ := ih hNodup hNext h
    exact ⟨hLast, hFrame.trans hFrame'⟩

end CandidateStream

end Syntrix.Index
