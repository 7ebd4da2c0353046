import Syntrix.Index.CandidateStream

/-! # Draining a stream

Where the rows of every branch come in the order of their positions, a step of the stream takes the
rows of the least position, all of them and nothing else, and a drained stream has given every
position once, in order.
-/
namespace Syntrix.Index.CandidateStream

open Lib OrderCode Model List Function Except

variable {σ : Type} {source : Source σ} {Good : σ → Prop} {remaining : σ → Nat → List DocRef}
variable {m : CandidateMetadata} {group : CandidateGroup} {r : DocRef} {b : Nat}
variable {s s' : CandidateStream σ} {pend pend' pend₀ : Nat → List DocRef}

/-- Rows of a branch have growing positions, and a position belongs to one document. -/
structure Ordered (m : CandidateMetadata) (pend : Nat → List DocRef) : Prop where
  failure : ∀ b, ∀ r ∈ pend b, ∀ e, m.position r.orderKey = .error e → e = .workLimit
  sorted : ∀ b, (pend b).Pairwise fun r r' =>
    ∀ p p', m.position r.orderKey = .ok p → m.position r'.orderKey = .ok p' → p < p'
  identity : ∀ b b' r r' p, r ∈ pend b → r' ∈ pend b' → m.position r.orderKey = .ok p →
    m.position r'.orderKey = .ok p → r.id = r'.id

theorem Ordered.suffix (h : Ordered m pend) (hSuffix : ∀ b, pend' b <:+ pend b) : Ordered m pend' where
  failure b r hr := h.failure b r ((hSuffix b).subset hr)
  sorted b := (h.sorted b).sublist (hSuffix b).sublist
  identity b b' r r' p hr hr' := h.identity b b' r r' p ((hSuffix b).subset hr) ((hSuffix b').subset hr')

variable {rows : List DocRef}

theorem Ordered.head_le (h : Ordered m pend) {r' : DocRef} {p p' : Bytes} (hRows : pend b = r :: rows) (hr' : r' ∈ pend b)
    (hp : m.position r.orderKey = .ok p) (hp' : m.position r'.orderKey = .ok p') : ¬ p' < p := by
  rw [hRows] at hr'
  obtain rfl | hr' := mem_cons.mp hr'
  · rw [ok.inj (hp.symm.trans hp')]
    exact lt_irrefl _
  have hSorted := h.sorted b
  rw [hRows] at hSorted
  exact ((pairwise_cons.mp hSorted).1 r' hr' p p' hp hp').asymm

/-- The heads of the branches in `group.branches` were taken, all at the group's position. -/
structure Gathering (Good : σ → Prop) (remaining : σ → Nat → List DocRef) (pend₀ pend : Nat → List DocRef)
    (group : CandidateGroup) (s : CandidateStream σ) : Prop where
  waiting : Waiting Good remaining s pend []
  nodup : group.branches.Nodup
  taken : ∀ b ∈ group.branches, b < s.iterators ∧ ∃ r, pend₀ b = r :: pend b ∧
    s.metadata.position r.orderKey = .ok group.position
  kept : ∀ b, b ∉ group.branches → pend b = pend₀ b
  origin : ∃ b r, r ∈ pend₀ b ∧ s.metadata.position r.orderKey = .ok group.position ∧ r.id = group.id

theorem Gathering.length_le (h : Gathering Good remaining pend₀ pend group s) : group.branches.length ≤ s.iterators := by
  have hSubset : group.branches ⊆ range s.iterators := fun b hb => mem_range.mpr (h.taken b hb).1
  simpa using (subperm_of_subset h.nodup hSubset).length_le

theorem Gathering.suffix (h : Gathering Good remaining pend₀ pend group s) (b : Nat) : pend b <:+ pend₀ b := by
  by_cases hb : b ∈ group.branches
  · obtain ⟨-, r, hRows, -⟩ := h.taken b hb
    exact ⟨[r], hRows.symm⟩
  · rw [h.kept b hb]

theorem Gathering.fresh (h : Gathering Good remaining pend₀ pend group s) (hOrdered : Ordered s.metadata pend₀)
    (hRows : pend b = r :: rows) (hp : s.metadata.position r.orderKey = .ok group.position) : b ∉ group.branches := by
  intro hb
  obtain ⟨-, r₀, hFirst, hp₀⟩ := h.taken b hb
  have hSorted := hOrdered.sorted b
  rw [hFirst, hRows] at hSorted
  exact lt_irrefl _ ((pairwise_cons.mp hSorted).1 r mem_cons_self _ _ hp₀ hp)

theorem Waiting.popped {queue : Array CandidateGroup} {g : CandidateGroup} (h : Waiting Good remaining s pend [])
    (hHeap : Heap.IsHeap CandidateGroup.position queue.size queue) (hPerm : s.queue.toList.Perm (g :: queue.toList))
    (hBranches : g.branches = [b]) (hb : b < s.iterators) (hRows : pend b = r :: remaining s.source b) :
    Waiting Good remaining { s with queue := queue } (Function.update pend b (remaining s.source b)) [b] := by
  have hNames := hPerm.map CandidateGroup.branches
  rw [map_cons, hBranches] at hNames
  obtain ⟨hAbsent, hNodup⟩ := nodup_cons.mp (hNames.nodup_iff.mp h.nodup)
  refine ⟨h.good, hHeap, ?_, hNodup, ?_, ?_⟩
  · intro g' hg'
    obtain ⟨b', r', hBranches', hb', -, hId, hPosition, hRows'⟩ :=
      h.heads g' (hPerm.mem_iff.mpr (mem_cons_of_mem _ hg'))
    have hNe : b' ≠ b := by
      rintro rfl
      exact hAbsent (List.mem_map.mpr ⟨g', hg', hBranches'⟩)
    refine ⟨b', r', hBranches', hb', by simpa using hNe, hId, hPosition, ?_⟩
    rw [update_of_ne hNe]
    exact hRows'
  · intro b' hb' hNot
    have hNe : b' ≠ b := by simpa using hb'
    rw [update_of_ne hNe]
    refine h.idle b' (not_mem_nil) ?_
    rw [hNames.mem_iff, mem_cons, not_or]
    exact ⟨fun hEq => hNe (singleton_inj.mp hEq), hNot⟩
  · intro b' hb'
    rw [mem_singleton.mp hb', update_self]
    exact ⟨hb, rfl⟩

/-- How a gathering ends: at the work limit, or with no head left at the position. -/
def Gathered (Good : σ → Prop) (remaining : σ → Nat → List DocRef) (pend₀ : Nat → List DocRef) (group : CandidateGroup)
    (s : CandidateStream σ) : Except CandidateError (Option (CandidateGroup × CandidateStream σ)) → Prop
  | .error e => e = .workLimit
  | .ok none => False
  | .ok (some (group', s')) => Frame s s' ∧ group'.id = group.id ∧ group'.position = group.position ∧
      (∀ top, s'.queue[0]? = some top → top.position ≠ group.position) ∧
      ∃ pend, Gathering Good remaining pend₀ pend group' s'

variable {fuel : Nat}

theorem gather_spec (hServes : Serves source Good remaining) (h : Gathering Good remaining pend₀ pend group s)
    (hOrdered : Ordered s.metadata pend₀) (hFuel : s.iterators < fuel + group.branches.length) :
    Gathered Good remaining pend₀ group s (gather source fuel group s) := by
  induction fuel generalizing group s pend with
  | zero =>
    have hLength := h.length_le
    omega
  | succ fuel ih =>
    simp only [gather]
    split
    · rename_i hEmpty
      exact ⟨rfl, rfl, rfl, fun top hTop => (by rw [hEmpty] at hTop; cases hTop), pend, h⟩
    rename_i top hTop
    split
    · rename_i hNe
      exact ⟨rfl, rfl, rfl, fun top' hTop' => Option.some.inj (hTop.symm.trans hTop') ▸ hNe, pend, h⟩
    rename_i hEq
    replace hEq : top.position = group.position := not_not.mp hEq
    obtain ⟨queue, hPop, hHeap, hPerm, -⟩ := Heap.pop_spec before_iff h.waiting.heap hTop
    rw [hPop]
    obtain ⟨b, r, hBranches, hb, -, hId, hPosition, hRows⟩ :=
      h.waiting.heads top (hPerm.mem_iff.mpr mem_cons_self)
    rw [hEq] at hPosition
    have hNew := h.fresh hOrdered hRows hPosition
    have hFirst : pend₀ b = r :: remaining s.source b := by rw [← h.kept b hNew, hRows]
    have hSame : top.id = group.id := by
      obtain ⟨b₀, r₀, hr₀, hp₀, hId₀⟩ := h.origin
      rw [hId, ← hId₀]
      exact hOrdered.identity b b₀ r r₀ _ (by rw [hFirst]; exact mem_cons_self) hr₀ hPosition hp₀
    have hPopped := h.waiting.popped hHeap hPerm hBranches hb hRows
    simp only [hSame, ne_eq, not_true, if_false, hBranches, headD_cons]
    have hSuffix : ∀ b', Function.update pend b (remaining s.source b) b' <:+ pend₀ b' := by
      intro b'
      by_cases hb' : b' = b
      · rw [hb', update_self, hFirst]
        exact suffix_cons _ _
      · rw [update_of_ne hb']
        exact h.suffix b'
    cases hPull : pull source b { s with queue := queue } with
    | error e => exact pull_failed hServes hPopped (hOrdered.suffix hSuffix).failure hPull
    | ok s₁ =>
      obtain ⟨hWaiting, hFrame⟩ := pull_spec hServes hPopped not_mem_nil hPull
      have hMetadata : s₁.metadata = s.metadata := by rw [hFrame]
      have hIterators : s₁.iterators = s.iterators := by rw [hFrame]
      have hGathering : Gathering Good remaining pend₀ (Function.update pend b (remaining s.source b))
          { group with branches := group.branches ++ [b] } s₁ := by
        refine ⟨hWaiting, ?_, ?_, ?_, ?_⟩
        · exact nodup_append.mpr ⟨h.nodup, nodup_singleton b, by
            intro x hx y hy hEq
            rw [hEq, mem_singleton.mp hy] at hx
            exact hNew hx⟩
        · intro b' hb'
          rw [hIterators, hMetadata]
          obtain hb' | hb' := mem_append.mp hb'
          · have hNe : b' ≠ b := fun hEq => hNew (hEq ▸ hb')
            rw [update_of_ne hNe]
            exact h.taken b' hb'
          · rw [mem_singleton.mp hb', update_self]
            exact ⟨hb, r, hFirst, hPosition⟩
        · intro b' hb'
          rw [mem_append, mem_singleton, not_or] at hb'
          rw [update_of_ne hb'.2]
          exact h.kept b' hb'.1
        · rw [hMetadata]
          exact h.origin
      have hRest := ih hGathering (hMetadata ▸ hOrdered) (by
        simp only [length_append, length_singleton, hIterators]
        omega)
      simp only [Except.bind]
      match hAnswer : gather source fuel { group with branches := group.branches ++ [b] } s₁ with
      | .error e =>
        rw [hAnswer] at hRest
        exact hRest
      | .ok none =>
        rw [hAnswer] at hRest
        exact hRest
      | .ok (some (group', s')) =>
        rw [hAnswer] at hRest
        obtain ⟨hFrame', hId', hPosition', hTop', hEnd⟩ := hRest
        exact ⟨hFrame.trans hFrame', hId', hPosition', hTop', hEnd⟩

/-- A group of a stream: the rows of the least position, and what is left without them. -/
structure Yields (m : CandidateMetadata) (pend pend' : Nat → List DocRef) (group : CandidateGroup) : Prop where
  least : ∀ b, ∀ r ∈ pend b, ∀ q, m.position r.orderKey = .ok q → ¬ q < group.position
  member : ∀ b, b ∈ group.branches ↔ ∃ r ∈ pend b, m.position r.orderKey = .ok group.position
  origin : ∃ b r, r ∈ pend b ∧ m.position r.orderKey = .ok group.position ∧ r.id = group.id
  taken : ∀ b ∈ group.branches, ∃ r, pend b = r :: pend' b ∧ m.position r.orderKey = .ok group.position
  kept : ∀ b, b ∉ group.branches → pend' b = pend b

theorem Yields.suffix (h : Yields m pend pend' group) (b : Nat) : pend' b <:+ pend b := by
  by_cases hb : b ∈ group.branches
  · obtain ⟨r, hRows, -⟩ := h.taken b hb
    exact ⟨[r], hRows.symm⟩
  · rw [h.kept b hb]

theorem Waiting.head_of_mem (h : Waiting Good remaining s pend []) (hr : r ∈ pend b) :
    ∃ g ∈ s.queue.toList, ∃ r₀ rows, pend b = r₀ :: rows ∧ s.metadata.position r₀.orderKey = .ok g.position := by
  by_cases hHead : [b] ∈ s.queue.toList.map CandidateGroup.branches
  · obtain ⟨g, hg, hBranches⟩ := List.mem_map.mp hHead
    obtain ⟨b', r₀, hBranches', -, -, -, hPosition, hRows⟩ := h.heads g hg
    cases singleton_inj.mp (hBranches'.symm.trans hBranches)
    exact ⟨g, hg, r₀, _, hRows, hPosition⟩
  · rw [h.idle b not_mem_nil hHead] at hr
    cases hr

variable {q : Bytes} {top : CandidateGroup}

theorem Waiting.least (h : Waiting Good remaining s pend []) (hOrdered : Ordered s.metadata pend)
    (hTop : s.queue[0]? = some top) (hr : r ∈ pend b) (hq : s.metadata.position r.orderKey = .ok q) : ¬ q < top.position := by
  obtain ⟨g, hg, r₀, rows, hRows, hp⟩ := h.head_of_mem hr
  obtain ⟨-, -, -, -, hLeast⟩ := Heap.pop_spec before_iff h.heap hTop
  have hHead := hOrdered.head_le hRows hr hp hq
  exact not_lt.mpr ((hLeast g hg).trans (not_lt.mp hHead))

theorem Gathering.yields (h : Gathering Good remaining pend₀ pend group s) (hOrdered : Ordered s.metadata pend₀)
    (hLeast : ∀ b, ∀ r ∈ pend₀ b, ∀ q, s.metadata.position r.orderKey = .ok q → ¬ q < group.position)
    (hTop : ∀ top, s.queue[0]? = some top → top.position ≠ group.position) : Yields s.metadata pend₀ pend group := by
  refine ⟨hLeast, fun b => ⟨?_, ?_⟩, h.origin, fun b hb => (h.taken b hb).2, h.kept⟩
  · intro hb
    obtain ⟨-, r, hRows, hp⟩ := h.taken b hb
    exact ⟨r, by rw [hRows]; exact mem_cons_self, hp⟩
  · rintro ⟨r, hr, hp⟩
    by_contra hb
    -- The branch kept a row at the position, so the heap's top cannot be past it.
    rw [← h.kept b hb] at hr
    have hHere := hOrdered.suffix h.suffix
    obtain ⟨g, hg, -⟩ := h.waiting.head_of_mem hr
    obtain ⟨top, hTopEq⟩ : ∃ top, s.queue[0]? = some top := by
      have hPos : 0 < s.queue.size := by simpa using length_pos_of_mem hg
      exact ⟨_, Array.getElem?_eq_getElem hPos⟩
    have hNotBelow := h.waiting.least hHere hTopEq hr hp
    have hTopMem : top ∈ s.queue.toList := by simpa using Array.mem_of_getElem? hTopEq
    obtain ⟨b', r', -, -, -, -, hp', hRows'⟩ := h.waiting.heads top hTopMem
    have hr' : r' ∈ pend₀ b' := (h.suffix b').subset (by rw [hRows']; exact mem_cons_self)
    exact hTop top hTopEq (le_antisymm (not_lt.mp hNotBelow) (not_lt.mp (hLeast b' r' hr' _ hp')))

def Ready (Good : σ → Prop) (remaining : σ → Nat → List DocRef) (s : CandidateStream σ) (pend : Nat → List DocRef) : Prop :=
  s.closed = false ∧ Waiting Good remaining s pend (if s.started then [] else List.range s.iterators)

/-- How a step ends: at the work limit, at the end of the rows, or with the group of the least position. -/
def Stepped (Good : σ → Prop) (remaining : σ → Nat → List DocRef) (pend : Nat → List DocRef) (s : CandidateStream σ) :
    Except CandidateError (Option (Option CandidateGroup × CandidateStream σ)) → Prop
  | .error e => e = .workLimit
  | .ok none => False
  | .ok (some (none, _)) => ∀ b, pend b = []
  | .ok (some (some group, s')) => s'.metadata = s.metadata ∧ s'.iterators = s.iterators ∧ s'.started = true ∧
      ∃ pend', Ready Good remaining s' pend' ∧ Yields s.metadata pend pend' group

theorem Waiting.gathering (h : Waiting Good remaining s pend []) (hTop : s.queue[0]? = some top) :
    Gathering Good remaining pend pend ⟨top.id, top.position, []⟩ s := by
  obtain ⟨b, r, -, -, -, hId, hPosition, hRows⟩ := h.heads top (by simpa using Array.mem_of_getElem? hTop)
  exact ⟨h, nodup_nil, by simp, fun b _ => rfl, b, r, by rw [hRows]; exact mem_cons_self, hPosition, hId.symm⟩

theorem next_started (hServes : Serves source Good remaining) (hClosed : s.closed = false) (hStarted : s.started = true)
    (h : Waiting Good remaining s pend []) (hOrdered : Ordered s.metadata pend) (hFuel : s.iterators < fuel) :
    Stepped Good remaining pend s (s.next source fuel) := by
  simp only [next, hClosed, hStarted, Bool.false_eq_true, if_false, if_true, Except.bind]
  split
  · rename_i hEmpty
    intro b
    have hNil : s.queue.toList = [] := by
      simpa using hEmpty
    exact h.idle b not_mem_nil (by simp [hNil])
  · rename_i top hTop
    have hGather := gather_spec hServes (h.gathering hTop) hOrdered
      (show s.iterators < fuel + ([] : List Nat).length by simpa using hFuel)
    match hAnswer : gather source fuel ⟨top.id, top.position, []⟩ s with
    | .error e =>
      rw [hAnswer] at hGather
      exact hGather
    | .ok none =>
      rw [hAnswer] at hGather
      exact hGather
    | .ok (some (group, s')) =>
      rw [hAnswer] at hGather
      obtain ⟨hFrame, -, hPosition, hEnd, pend', hGathering⟩ := hGather
      have hMetadata : s'.metadata = s.metadata := by rw [hFrame]
      have hLeast := fun b r (hr : r ∈ pend b) q hq => h.least hOrdered hTop hr (q := q) hq
      have hYields := hGathering.yields (hMetadata ▸ hOrdered) (by rw [hPosition, hMetadata]; exact hLeast)
        (by rw [hPosition]; exact hEnd)
      rw [hMetadata] at hYields
      have hMem : ∀ b, b ∈ group.branches.insertionSort (· ≤ ·) ↔ b ∈ group.branches := fun b =>
        mem_insertionSort _
      have hStarted' : s'.started = true := by rw [hFrame]; exact hStarted
      refine ⟨hMetadata, by rw [hFrame], hStarted', pend', ⟨by rw [hFrame]; exact hClosed, ?_⟩, ?_⟩
      · rw [hStarted']
        exact hGathering.waiting
      · exact ⟨hYields.least, fun b => (hMem b).trans (hYields.member b), hYields.origin,
          fun b hb => hYields.taken b ((hMem b).mp hb), fun b hb => hYields.kept b fun hIn => hb ((hMem b).mpr hIn)⟩

theorem next_spec (hServes : Serves source Good remaining) (h : Ready Good remaining s pend)
    (hOrdered : Ordered s.metadata pend) (hFuel : s.iterators < fuel) : Stepped Good remaining pend s (s.next source fuel) := by
  obtain ⟨hClosed, hWaiting⟩ := h
  cases hStarted : s.started with
  | true =>
    rw [hStarted] at hWaiting
    exact next_started hServes hClosed hStarted hWaiting hOrdered hFuel
  | false =>
    rw [hStarted] at hWaiting
    have hWaiting : Waiting Good remaining { s with started := true } pend (range s.iterators) :=
      { hWaiting with }
    cases hPull : pullAll source (range s.iterators) { s with started := true } with
    | error e =>
      rw [next, if_neg (by simp [hClosed]), if_neg (by simp [hStarted]), hPull]
      exact pullAll_failed hServes nodup_range hWaiting hOrdered.failure hPull
    | ok s₁ =>
      obtain ⟨hWaiting₁, hFrame⟩ := pullAll_spec hServes nodup_range hWaiting hPull
      have hMetadata : s₁.metadata = s.metadata := by rw [hFrame]
      have hIterators : s₁.iterators = s.iterators := by rw [hFrame]
      have hClosed₁ : s₁.closed = false := by rw [hFrame]; exact hClosed
      have hStarted₁ : s₁.started = true := by rw [hFrame]
      have hSame : s.next source fuel = s₁.next source fuel := by
        rw [next, if_neg (by simp [hClosed]), if_neg (by simp [hStarted]), hPull, next, if_neg (by simp [hClosed₁]),
          if_pos hStarted₁]
      have hStep := next_started hServes hClosed₁ hStarted₁ hWaiting₁ (hMetadata ▸ hOrdered) (hIterators ▸ hFuel)
      rw [hSame]
      match hAnswer : s₁.next source fuel with
      | .error e =>
        rw [hAnswer] at hStep
        exact hStep
      | .ok none =>
        rw [hAnswer] at hStep
        exact hStep
      | .ok (some (none, s')) =>
        rw [hAnswer] at hStep
        exact hStep
      | .ok (some (some group, s')) =>
        rw [hAnswer] at hStep
        obtain ⟨hMetadata', hIterators', hStarted', pend', hReady, hYields⟩ := hStep
        exact ⟨hMetadata'.trans hMetadata, hIterators'.trans hIterators, hStarted', pend', hReady, hMetadata ▸ hYields⟩

/-- The groups of the waiting rows: every position once, in order, with the branches that have it. -/
structure Drained (m : CandidateMetadata) (pend : Nat → List DocRef) (groups : List CandidateGroup) : Prop where
  sorted : groups.Pairwise fun g g' => g.position < g'.position
  sound : ∀ g ∈ groups, ∃ b r, r ∈ pend b ∧ m.position r.orderKey = .ok g.position ∧ r.id = g.id
  complete : ∀ b, ∀ r ∈ pend b, ∃ g ∈ groups, m.position r.orderKey = .ok g.position
  member : ∀ g ∈ groups, ∀ b, b ∈ g.branches ↔ ∃ r ∈ pend b, m.position r.orderKey = .ok g.position

theorem Yields.later (h : Yields m pend pend' group) (hOrdered : Ordered m pend) (hr : r ∈ pend' b)
    (hq : m.position r.orderKey = .ok q) : group.position < q := by
  have hIn := (h.suffix b).subset hr
  refine lt_of_le_of_ne (not_lt.mp (h.least b r hIn q hq)) ?_
  rintro rfl
  obtain ⟨r₀, hRows, hp₀⟩ := h.taken b ((h.member b).mpr ⟨r, hIn, hq⟩)
  have hSorted := hOrdered.sorted b
  rw [hRows] at hSorted
  exact lt_irrefl _ ((pairwise_cons.mp hSorted).1 r hr _ _ hp₀ hq)

theorem Yields.drained {groups : List CandidateGroup} (h : Yields m pend pend' group) (hOrdered : Ordered m pend)
    (hRest : Drained m pend' groups) : Drained m pend (group :: groups) := by
  have hFirst : ∀ g ∈ groups, group.position < g.position := by
    intro g hg
    obtain ⟨b, r, hr, hp, -⟩ := hRest.sound g hg
    exact h.later hOrdered hr hp
  refine ⟨pairwise_cons.mpr ⟨hFirst, hRest.sorted⟩, forall_mem_cons.mpr ⟨h.origin, ?_⟩, ?_,
    forall_mem_cons.mpr ⟨h.member, ?_⟩⟩
  · intro g hg
    obtain ⟨b, r, hr, hp, hId⟩ := hRest.sound g hg
    exact ⟨b, r, (h.suffix b).subset hr, hp, hId⟩
  · intro b r hr
    by_cases hb : b ∈ group.branches
    · obtain ⟨r₀, hRows, hp₀⟩ := h.taken b hb
      rw [hRows] at hr
      obtain rfl | hr := mem_cons.mp hr
      · exact ⟨group, mem_cons_self, hp₀⟩
      · obtain ⟨g, hg, hp⟩ := hRest.complete b r hr
        exact ⟨g, mem_cons_of_mem _ hg, hp⟩
    · rw [← h.kept b hb] at hr
      obtain ⟨g, hg, hp⟩ := hRest.complete b r hr
      exact ⟨g, mem_cons_of_mem _ hg, hp⟩
  · intro g hg b
    rw [hRest.member g hg b]
    constructor
    · rintro ⟨r, hr, hp⟩
      exact ⟨r, (h.suffix b).subset hr, hp⟩
    · rintro ⟨r, hr, hp⟩
      by_cases hb : b ∈ group.branches
      · obtain ⟨r₀, hRows, hp₀⟩ := h.taken b hb
        rw [hRows] at hr
        obtain rfl | hr := mem_cons.mp hr
        · have hEq := ok.inj (hp₀.symm.trans hp)
          exact absurd (hFirst g hg) (hEq ▸ lt_irrefl _)
        · exact ⟨r, hr, hp⟩
      · rw [h.kept b hb]
        exact ⟨r, hr, hp⟩

def waitingRows (n : Nat) (pend : Nat → List DocRef) : Nat := ((List.range n).map fun b => (pend b).length).sum

theorem Ready.bound (h : Ready Good remaining s pend) (hr : r ∈ pend b) : b < s.iterators := by
  obtain ⟨-, h⟩ := h
  by_contra hb
  have hTodo : b ∉ (if s.started then [] else range s.iterators) := by
    split
    · exact not_mem_nil
    · exact fun hMem => hb (mem_range.mp hMem)
  have hHead : [b] ∉ s.queue.toList.map CandidateGroup.branches := by
    intro hMem
    obtain ⟨g, hg, hBranches⟩ := List.mem_map.mp hMem
    obtain ⟨b', -, hBranches', hb', -⟩ := h.heads g hg
    cases singleton_inj.mp (hBranches'.symm.trans hBranches)
    exact hb hb'
  rw [h.idle b hTodo hHead] at hr
  cases hr

theorem Yields.waitingRows_lt (h : Yields m pend pend' group)
    {n : Nat} (hBound : ∀ b, ∀ r ∈ pend b, b < n) : waitingRows n pend' < waitingRows n pend := by
  obtain ⟨b, r, hr, hp, -⟩ := h.origin
  have hb := (h.member b).mpr ⟨r, hr, hp⟩
  refine sum_lt_sum _ _ (fun b' _ => (h.suffix b').length_le) ⟨b, mem_range.mpr (hBound b r hr), ?_⟩
  obtain ⟨r₀, hRows, -⟩ := h.taken b hb
  rw [hRows]
  exact Nat.lt_succ_self _

theorem drain_spec (hServes : Serves source Good remaining) (h : Ready Good remaining s pend)
    (hOrdered : Ordered s.metadata pend) (hFuel : waitingRows s.iterators pend + s.iterators < fuel) :
    s.drain source fuel = .error .workLimit ∨
      ∃ groups, s.drain source fuel = .ok (some groups) ∧ Drained s.metadata pend groups := by
  induction fuel generalizing s pend with
  | zero => omega
  | succ fuel ih =>
    have hStep := next_spec hServes h hOrdered (show s.iterators < fuel + 1 by omega)
    simp only [drain]
    match hAnswer : s.next source (fuel + 1) with
    | .error e =>
      rw [hAnswer] at hStep
      exact .inl (congrArg error hStep)
    | .ok none =>
      rw [hAnswer] at hStep
      exact hStep.elim
    | .ok (some (none, s')) =>
      rw [hAnswer] at hStep
      have hEmpty : ∀ b, pend b = [] := hStep
      exact .inr ⟨[], rfl, List.Pairwise.nil, by simp, by simp [hEmpty], by simp⟩
    | .ok (some (some group, s')) =>
      rw [hAnswer] at hStep
      obtain ⟨hMetadata, hIterators, -, pend', hReady, hYields⟩ := hStep
      have hLess := hYields.waitingRows_lt fun b r hr => h.bound hr
      have hOrdered' := hOrdered.suffix hYields.suffix
      rw [← hMetadata] at hOrdered'
      simp only [Except.bind]
      obtain hLimit | ⟨groups, hGroups, hDrained⟩ := ih hReady hOrdered' (by rw [hIterators]; omega)
      · rw [hLimit]
        exact .inl rfl
      rw [hGroups]
      rw [hMetadata] at hDrained
      exact .inr ⟨group :: groups, rfl, hYields.drained hOrdered hDrained⟩

end Syntrix.Index.CandidateStream
