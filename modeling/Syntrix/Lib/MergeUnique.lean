import Mathlib

/-! # Merging sorted sources

Sources sorted by key are merged into one, each key once. The head of a source is its current entry;
an entry that cannot be read ends the merge. Before each step every source passes over the key that
was given last, and the least head is given, the first source winning ties.
-/
namespace Syntrix.Lib.MergeUnique

open List

variable {κ α ε : Type} [LinearOrder κ]

def skip (last : Option κ) : List (κ × Except ε α) → List (κ × Except ε α)
  | [] => []
  | (k, .error e) :: rest => (k, .error e) :: rest
  | (k, .ok a) :: rest => if last = some k then skip last rest else (k, .ok a) :: rest

/-- Advance all sources; the first one that cannot be read ends the merge. -/
def advance (last : Option κ) : List (List (κ × Except ε α)) → Except ε (List (List (κ × Except ε α)))
  | [] => .ok []
  | source :: rest =>
    match skip last source with
    | (_, .error e) :: _ => .error e
    | source => (advance last rest).map (source :: ·)

def least : Option (κ × α) → List (List (κ × Except ε α)) → Option (κ × α)
  | best, [] => best
  | best, ((k, .ok a) :: _) :: rest =>
    match best with
    | none => least (some (k, a)) rest
    | some b => least (some (if k < b.1 then (k, a) else b)) rest
  | best, _ :: rest => least best rest

/-- All that the merge gives; no answer when the fuel runs out. -/
def drain : Nat → Option κ → List (List (κ × Except ε α)) → Except ε (Option (List (κ × α)))
  | 0, _, _ => .ok none
  | fuel + 1, last, sources =>
    (advance last sources).bind fun sources =>
      match least none sources with
      | none => .ok (some [])
      | some x => (drain fuel (some x.1) sources).map (Option.map (x :: ·))

/-- Sources whose entries can be read, in order and not before the last key. -/
def Good (last : Option κ) (source : List (κ × Except ε α)) : Prop :=
  (∀ x ∈ source, ∃ a, x.2 = .ok a) ∧ source.Pairwise (fun x y => x.1 ≤ y.1) ∧
    ∀ k, last = some k → ∀ x ∈ source, k ≤ x.1

variable {last : Option κ} {source : List (κ × Except ε α)}

theorem Good.tail {x : κ × Except ε α} (h : Good last (x :: source)) : Good last source :=
  ⟨fun y hy => h.1 y (mem_cons_of_mem _ hy), (pairwise_cons.mp h.2.1).2,
    fun k hk y hy => h.2.2 k hk y (mem_cons_of_mem _ hy)⟩

theorem skip_spec (h : Good last source) :
    skip last source <:+ source ∧ (∀ x, x ∈ skip last source ↔ x ∈ source ∧ last ≠ some x.1) := by
  induction source with
  | nil => simp [skip]
  | cons x source ih =>
    obtain ⟨k, v⟩ := x
    obtain ⟨a, rfl : v = .ok a⟩ := h.1 (k, v) mem_cons_self
    obtain ⟨hSuffix, hMem⟩ := ih h.tail
    rw [skip]
    split
    · rename_i hLast
      refine ⟨hSuffix.trans (suffix_cons _ _), fun x => ?_⟩
      rw [hMem, mem_cons, or_and_right]
      refine (or_iff_right ?_).symm
      rintro ⟨rfl, hNe⟩
      exact hNe hLast
    · rename_i hLast
      refine ⟨suffix_refl _, fun x => ⟨fun hx => ⟨hx, ?_⟩, And.left⟩⟩
      rintro hEq
      -- a later entry with the last key would put the head before it
      have hBound := h.2.2 x.1 hEq (k, .ok a) mem_cons_self
      obtain rfl | hx := mem_cons.mp hx
      · exact hLast hEq
      · have hLe := (pairwise_cons.mp h.2.1).1 x hx
        exact hLast (hEq.trans (congrArg some (le_antisymm hBound hLe)))

theorem Good.skip (h : Good last source) : Good last (skip last source) := by
  obtain ⟨hSuffix, -⟩ := skip_spec h
  exact ⟨fun x hx => h.1 x (hSuffix.subset hx), h.2.1.sublist hSuffix.sublist,
    fun k hk x hx => h.2.2 k hk x (hSuffix.subset hx)⟩

variable {sources : List (List (κ × Except ε α))}

theorem advance_eq (h : ∀ s ∈ sources, Good last s) :
    advance last sources = .ok (sources.map (skip last)) := by
  induction sources with
  | nil => rfl
  | cons source rest ih =>
    rw [forall_mem_cons] at h
    have hRead := h.1.skip.1
    rw [advance, map_cons, ih h.2]
    split
    · rename_i k e tail hSkip
      rw [hSkip] at hRead
      obtain ⟨a, ha⟩ := hRead (k, .error e) mem_cons_self
      cases ha
    · rfl

/-- A head that bounds every head and the best so far; none when there is no head. -/
def IsLeast (best : Option (κ × α)) (sources : List (List (κ × Except ε α))) : Option (κ × α) → Prop
  | none => best = none ∧ ∀ s ∈ sources, s = []
  | some x => (best = some x ∨ ∃ s ∈ sources, ∃ rest, s = (x.1, .ok x.2) :: rest) ∧ (∀ b, best = some b → x.1 ≤ b.1) ∧
      ∀ s ∈ sources, ∀ y rest, s = y :: rest → x.1 ≤ y.1

variable {answer best : Option (κ × α)}

theorem IsLeast.cons_nil (h : IsLeast best sources answer) : IsLeast best ([] :: sources) answer := by
  cases answer with
  | none => exact ⟨h.1, forall_mem_cons.mpr ⟨rfl, h.2⟩⟩
  | some x =>
    obtain ⟨hFrom, hBest, hAll⟩ := h
    refine ⟨hFrom.imp_right fun ⟨s, hs, hEq⟩ => ⟨s, mem_cons_of_mem _ hs, hEq⟩, hBest, ?_⟩
    exact forall_mem_cons.mpr ⟨fun y rest hEq => (by cases hEq), hAll⟩

variable {tail : List (κ × Except ε α)} {a : α} {k : κ}

theorem IsLeast.cons_cons {b : κ × α} (h : IsLeast (some b) sources answer) (hFrom : b = (k, a) ∨ best = some b)
    (hk : b.1 ≤ k) (hb : ∀ b', best = some b' → b.1 ≤ b'.1) : IsLeast best (((k, .ok a) :: tail) :: sources) answer := by
  cases answer with
  | none => cases h.1
  | some x =>
    obtain ⟨hOrigin, hBest, hAll⟩ := h
    have hx := hBest b rfl
    refine ⟨?_, fun b' hEq => hx.trans (hb b' hEq), forall_mem_cons.mpr ⟨?_, hAll⟩⟩
    · obtain hSome | ⟨s, hs, more, hEq⟩ := hOrigin
      · cases hSome
        exact hFrom.symm.imp_right fun hHere => ⟨_, mem_cons_self, tail, by rw [hHere]⟩
      · exact .inr ⟨s, mem_cons_of_mem _ hs, more, hEq⟩
    · intro y more hEq
      cases hEq
      exact hx.trans hk

theorem least_spec (hRead : ∀ s ∈ sources, ∀ x ∈ s, ∃ a, x.2 = .ok a)
    (best : Option (κ × α)) : IsLeast best sources (least best sources) := by
  induction sources generalizing best with
  | nil =>
    cases best with
    | none => exact ⟨rfl, fun s hs => (by cases hs)⟩
    | some b => exact ⟨.inl rfl, fun b' hb' => (by cases hb'; exact le_refl _), fun s hs => (by cases hs)⟩
  | cons source rest ih =>
    rw [forall_mem_cons] at hRead
    cases source with
    | nil => exact (ih hRead.2 best).cons_nil
    | cons y tail =>
      obtain ⟨k, v⟩ := y
      obtain ⟨a, rfl : v = .ok a⟩ := hRead.1 (k, v) mem_cons_self
      cases best with
      | none => exact (ih hRead.2 (some (k, a))).cons_cons (.inl rfl) (le_refl _) (fun b hb => (by cases hb))
      | some b =>
        rw [least]
        rcases lt_or_ge k b.1 with hLt | hLe
        · rw [if_pos hLt]
          exact (ih hRead.2 (some (k, a))).cons_cons (.inl rfl) (le_refl _) (fun b' hb' => (by cases hb'; exact hLt.le))
        · rw [if_neg (not_lt.mpr hLe)]
          exact (ih hRead.2 (some b)).cons_cons (.inr rfl) hLe (fun b' hb' => (by cases hb'; exact le_refl _))

/-- What a merge gives from a state: the keys of the sources past the last one, each once, in order. -/
structure Merged (last : Option κ) (sources : List (List (κ × Except ε α))) (out : List (κ × α)) : Prop where
  sorted : out.Pairwise fun x y => x.1 < y.1
  origin : ∀ x ∈ out, ∃ s ∈ sources, (x.1, .ok x.2) ∈ s
  keys : ∀ k, k ∈ out.map Prod.fst ↔ last ≠ some k ∧ ∃ s ∈ sources, k ∈ s.map Prod.fst

def total (sources : List (List (κ × Except ε α))) : Nat := (sources.map List.length).sum

theorem total_skip_le (h : ∀ s ∈ sources, Good last s) : total (sources.map (skip last)) ≤ total sources := by
  rw [total, total, List.map_map]
  exact sum_le_sum fun s hs => (skip_spec (h s hs)).1.length_le

theorem total_skip_lt (h : ∀ s ∈ sources, Good (some k) s) (hHead : (k, .ok a) :: tail ∈ sources) :
    total (sources.map (skip (some k))) < total sources := by
  rw [total, total, List.map_map]
  refine sum_lt_sum _ _ (fun s hs => (skip_spec (h s hs)).1.length_le) ⟨_, hHead, ?_⟩
  have hTail := (skip_spec (h _ hHead).tail).1.length_le
  rw [Function.comp_apply, skip, if_pos rfl, length_cons]
  omega

theorem mem_skip_keys (h : Good last source) (k : κ) :
    k ∈ (skip last source).map Prod.fst ↔ last ≠ some k ∧ k ∈ source.map Prod.fst := by
  obtain ⟨-, hMem⟩ := skip_spec h
  simp only [List.mem_map, hMem]
  constructor
  · rintro ⟨x, ⟨hx, hNe⟩, rfl⟩
    exact ⟨hNe, x, hx, rfl⟩
  · rintro ⟨hNe, x, hx, rfl⟩
    exact ⟨x, ⟨hx, hNe⟩, rfl⟩

theorem drain_spec {fuel : Nat} (h : ∀ s ∈ sources, Good last s) (hFuel : total (sources.map (skip last)) < fuel) :
    ∃ out, drain fuel last sources = .ok (some out) ∧ Merged last sources out := by
  induction fuel generalizing last sources with
  | zero => omega
  | succ fuel ih =>
    have hGood : ∀ s ∈ sources.map (skip last), Good last s := by
      intro s hs
      obtain ⟨s', hs', rfl⟩ := List.mem_map.mp hs
      exact (h s' hs').skip
    have hLeast := least_spec (fun s hs => (hGood s hs).1) none
    simp only [drain, advance_eq h, Except.bind]
    match hAnswer : least none (sources.map (skip last)) with
    | none =>
      rw [hAnswer] at hLeast
      refine ⟨[], rfl, List.Pairwise.nil, fun x hx => (by cases hx), fun k => ⟨fun hk => (by cases hk), ?_⟩⟩
      rintro ⟨hNe, s, hs, hk⟩
      have hEmpty := hLeast.2 _ (List.mem_map.mpr ⟨s, hs, rfl⟩)
      have hk' := (mem_skip_keys (h s hs) k).mpr ⟨hNe, hk⟩
      rw [hEmpty] at hk'
      cases hk'
    | some x =>
      rw [hAnswer] at hLeast
      obtain ⟨hFrom, -, hAll⟩ := hLeast
      obtain hNone | ⟨source, hSource, tail, rfl⟩ := hFrom
      · cases hNone
      -- the least head bounds every entry of the sources
      have hBound : ∀ s ∈ sources.map (skip last), ∀ y ∈ s, x.1 ≤ y.1 := by
        intro s hs y hy
        cases s with
        | nil => cases hy
        | cons z rest =>
          have hz := hAll _ hs z rest rfl
          obtain rfl | hy := mem_cons.mp hy
          · exact hz
          · exact hz.trans ((pairwise_cons.mp (hGood _ hs).2.1).1 y hy)
      have hNext : ∀ s ∈ sources.map (skip last), Good (some x.1) s := by
        intro s hs
        refine ⟨(hGood s hs).1, (hGood s hs).2.1, fun k hk y hy => ?_⟩
        cases hk
        exact hBound s hs y hy
      have hLess := total_skip_lt hNext hSource
      obtain ⟨out, hOut, hMerged⟩ := ih hNext (by omega)
      have hHere : last ≠ some x.1 ∧ ∃ s ∈ sources, (x.1, .ok x.2) ∈ s := by
        obtain ⟨s, hs, hEq⟩ := List.mem_map.mp hSource
        have hMem := ((skip_spec (h s hs)).2 (x.1, .ok x.2)).mp (by rw [hEq]; exact mem_cons_self)
        exact ⟨hMem.2, s, hs, hMem.1⟩
      refine ⟨x :: out, by simp only [hOut]; rfl, pairwise_cons.mpr ⟨fun y hy => ?_, hMerged.sorted⟩, ?_, fun k => ?_⟩
      · obtain ⟨hNe, s, hs, hk⟩ := (hMerged.keys y.1).mp (List.mem_map.mpr ⟨y, hy, rfl⟩)
        obtain ⟨z, hz, hEq⟩ := List.mem_map.mp hk
        exact lt_of_le_of_ne (hEq ▸ hBound s hs z hz) fun hSame => hNe (congrArg some hSame)
      · refine forall_mem_cons.mpr ⟨hHere.2, fun y hy => ?_⟩
        obtain ⟨s, hs, hMem⟩ := hMerged.origin y hy
        obtain ⟨s', hs', rfl⟩ := List.mem_map.mp hs
        exact ⟨s', hs', (skip_spec (h s' hs')).1.subset hMem⟩
      · rw [map_cons, mem_cons, hMerged.keys]
        constructor
        · rintro (rfl | ⟨-, s, hs, hk⟩)
          · obtain ⟨hNe, s, hs, hMem⟩ := hHere
            exact ⟨hNe, s, hs, List.mem_map.mpr ⟨_, hMem, rfl⟩⟩
          · obtain ⟨s', hs', rfl⟩ := List.mem_map.mp hs
            obtain ⟨hNe, hk⟩ := (mem_skip_keys (h s' hs') k).mp hk
            exact ⟨hNe, s', hs', hk⟩
        · rintro ⟨hNe, s, hs, hk⟩
          rcases eq_or_ne k x.1 with hEq | hOther
          · exact .inl hEq
          · refine .inr ⟨fun hSome => hOther (Option.some.inj hSome).symm, _, List.mem_map.mpr ⟨s, hs, rfl⟩, ?_⟩
            exact (mem_skip_keys (h s hs) k).mpr ⟨hNe, hk⟩

end Syntrix.Lib.MergeUnique
