import Syntrix.Lib.Bytes

/-! # Terminated words

A zero byte is followed by one, and two zero bytes end the word. The code carries the order of
byte strings, and complementing every byte of a code word carries the reverse order. A reader
that knows the direction finds the end of the first word of any input.
-/
namespace Syntrix.Lib

open OrderCode List

def escape : Bytes → Bytes
  | [] => []
  | b :: s => if b = 0 then 0 :: 1 :: escape s else b :: escape s

def terminated (s : Bytes) : Bytes := escape s ++ [0, 0]

theorem terminated_nil : terminated [] = [0, 0] := rfl

theorem terminated_cons (b : Byte) (s : Bytes) :
    terminated (b :: s) = b :: if b = 0 then 1 :: terminated s else terminated s := by
  by_cases hb : b = 0
  all_goals simp [terminated, escape, hb]

theorem carries_terminated : Carries terminated wordCmp := by
  intro s t u v
  induction s generalizing t with
  | nil =>
    cases t with
    | nil => exact wordCmp_append_left _ u v
    | cons b t =>
      rw [terminated_nil, terminated_cons]
      by_cases hb : b = 0
      · rw [hb]
        rfl
      simp only [if_neg hb, cons_append, wordCmp_cons_cons,
        (cmp_eq_lt_iff _ _).mpr (Fin.pos_of_ne_zero hb)]
      rfl
  | cons a s ih =>
    cases t with
    | nil =>
      rw [terminated_nil, terminated_cons]
      by_cases ha : a = 0
      · rw [ha]
        rfl
      rw [if_neg ha, cons_append, cons_append, wordCmp_cons_cons,
        (cmp_eq_gt_iff _ _).mpr (Fin.pos_of_ne_zero ha)]
      rfl
    | cons b t =>
      rw [terminated_cons, terminated_cons, cons_append, cons_append, wordCmp_cons_cons,
        wordCmp_cons_cons, Ordering.then_assoc]
      cases hab : cmp a b with
      | lt | gt => rfl
      | eq =>
        -- Equal letters are escaped alike, so the tails decide.
        rw [← (cmp_eq_eq_iff a b).mp hab, ← ih t]
        by_cases ha : a = 0
        · rw [if_pos ha, if_pos ha, cons_append, cons_append, wordCmp_cons_cons, cmp_self_eq_eq]
          rfl
        · rw [if_neg ha, if_neg ha]

/-- A terminated word as it stands, or with every byte complemented. -/
def directed (descending : Bool) (s : Bytes) : Bytes :=
  if descending then (terminated s).map complement else terminated s

def directedCmp (descending : Bool) (s t : Bytes) : Ordering :=
  if descending then wordCmp t s else wordCmp s t

theorem carries_directed (descending : Bool) : Carries (directed descending) (directedCmp descending) := by
  cases descending with
  | false => exact carries_terminated
  | true => exact carries_terminated.map_strictAnti complement_strictAnti

theorem directed_inj {descending : Bool} {s t : Bytes} (h : directed descending s = directed descending t) : s = t := by
  have hCmp := ((carries_directed descending).eq_iff s t).mp h
  cases descending with
  | false => exact wordCmp_eq_eq_iff.mp hCmp
  | true => exact (wordCmp_eq_eq_iff.mp hCmp).symm

def orient (descending : Bool) (b : Byte) : Byte := if descending then complement b else b

@[simp] theorem orient_orient (descending : Bool) (b : Byte) :
    orient descending (orient descending b) = b := by
  cases descending <;> simp [orient]

theorem directed_eq_map (descending : Bool) (s : Bytes) : directed descending s = (terminated s).map (orient descending) := by
  cases descending with
  | false => exact (List.map_id _).symm
  | true => rfl

def readWord (descending : Bool) : Bytes → Option (Bytes × Bytes)
  | [] => none
  | [_] => none
  | b :: c :: rest =>
    if orient descending b ≠ 0 then (readWord descending (c :: rest)).map fun (w, r) => (b :: w, r)
    else if orient descending c = 0 then some ([b, c], rest)
    else if orient descending c ≠ 1 then none
    else (readWord descending rest).map fun (w, r) => (b :: c :: w, r)

theorem readWord_directed (descending : Bool) (s rest : Bytes) :
    readWord descending (directed descending s ++ rest) = some (directed descending s, rest) := by
  rw [directed_eq_map]
  induction s with
  | nil => simp [terminated_nil, readWord]
  | cons b s ih =>
    rw [terminated_cons]
    by_cases hb : b = 0
    · simp [hb, readWord, ih]
    rw [if_neg hb, map_cons, cons_append]
    obtain ⟨c, w, hw⟩ : ∃ c w, (terminated s).map (orient descending) ++ rest = c :: w := by
      cases s with
      | nil => exact ⟨_, _, rfl⟩
      | cons d s => rw [terminated_cons]; exact ⟨_, _, rfl⟩
    rw [hw] at ih
    rw [hw, readWord, orient_orient, if_pos hb, ih]
    rfl

theorem readWord_some {descending : Bool} {input w rest : Bytes} (h : readWord descending input = some (w, rest)) :
    input = w ++ rest ∧ ∃ s, w = directed descending s := by
  simp only [directed_eq_map]
  induction input using readWord.induct descending generalizing w with
  | case1 | case2 => cases h
  | case3 b c tail hb ih =>
    rw [readWord, if_pos hb] at h
    obtain ⟨⟨w, r⟩, hRead, hEq⟩ := Option.map_eq_some_iff.mp h
    cases hEq
    obtain ⟨hInput, s, rfl⟩ := ih hRead
    refine ⟨congrArg (b :: ·) hInput, orient descending b :: s, ?_⟩
    rw [terminated_cons, if_neg hb, map_cons, orient_orient]
  | case4 b c tail hb hc =>
    rw [readWord, if_neg hb, if_pos hc] at h
    cases h
    refine ⟨rfl, [], ?_⟩
    rw [← orient_orient descending b, ← orient_orient descending c, hc, not_not.mp hb]
    rfl
  | case5 b c tail hb hc hc' =>
    rw [readWord, if_neg hb, if_neg hc, if_pos hc'] at h
    cases h
  | case6 b c tail hb hc hc' ih =>
    rw [readWord, if_neg hb, if_neg hc, if_neg hc'] at h
    obtain ⟨⟨w, r⟩, hRead, hEq⟩ := Option.map_eq_some_iff.mp h
    cases hEq
    obtain ⟨hInput, s, rfl⟩ := ih hRead
    refine ⟨congrArg (b :: c :: ·) hInput, 0 :: s, ?_⟩
    rw [terminated_cons, if_pos rfl, map_cons, map_cons, ← not_not.mp hb, ← not_not.mp hc', orient_orient,
      orient_orient]

end Syntrix.Lib
