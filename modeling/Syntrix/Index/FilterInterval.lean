import Syntrix.Index.Interval

/-! # Filters as key intervals

The ranges of keys that a filter admits on the first field past a fixed prefix. A key lies in one of
the ranges exactly when the field is present and its component passes the filter.
-/
namespace Syntrix.Index

open Lib OrderCode Model List Option

inductive CandidateError where
  | noMatchingIndex
  | invalidPlan
  | tooManyBranches
  | manifestTooLarge
  | staleCursor
  | indexNotReady
  | workLimit
  | inconsistentIdentity
  | encoding (cause : EncodingError)
  | value (cause : ValueError)
  | evaluation (cause : EvaluationError)
  | filter (index : Nat) (cause : FilterError)
deriving DecidableEq

def fieldBytes (value : Value) (dir : Direction) : Except EncodingError Bytes :=
  (encodePrefix [⟨value, dir, false⟩]).map (List.drop 1)

theorem fieldBytes_eq (value : Value) (dir : Direction) : fieldBytes value dir = encodeField ⟨value, dir, false⟩ := by
  unfold fieldBytes encodePrefix
  simp only [encodeFields]
  cases encodeField ⟨value, dir, false⟩ with
  | error e => rfl
  | ok word => simp [Except.bind, Except.map]

def pointIntervals (start : Bytes) (dir : Direction) : List Value → Except CandidateError (List KeyInterval)
  | [] => .ok []
  | v :: rest =>
    ((fieldBytes v dir).mapError .encoding).bind fun part =>
      (pointIntervals start dir rest).map (⟨start ++ part, prefixSuccessor (start ++ part)⟩ :: ·)

def flipOp (dir : Direction) (op : FilterOp) : FilterOp :=
  if dir.descending then
    match op with
    | .opGt => .opLt
    | .opGte => .opLte
    | .opLt => .opGt
    | .opLte => .opGte
    | op => op
  else op

def rangeIntervals (start : Bytes) (dir : Direction) (op : FilterOp) (tag : Byte) (p : Bytes) :
    Except CandidateError (List KeyInterval) :=
  let next := prefixSuccessor p
  let wholeUpper := prefixSuccessor start
  let first := orient dir.descending tag
  let family : KeyInterval := ⟨start ++ [first], some (start ++ [first + 1])⟩
  match flipOp dir op with
  | .opGt =>
    match next with
    | none => .ok []
    | some lower => .ok (intersectIntervals [family] [⟨lower, wholeUpper⟩])
  | .opGte => .ok (intersectIntervals [family] [⟨p, wholeUpper⟩])
  | .opLt => .ok (intersectIntervals [family] [⟨start, some p⟩])
  | .opLte => .ok (intersectIntervals [family] [⟨start, next⟩])
  | _ => .error .invalidPlan

def filterIntervals (start : Bytes) (dir : Direction) (f : Filter) : Except CandidateError (List KeyInterval) :=
  let point := fieldBytes f.value dir
  match f.op with
  | .opIn =>
    match f.value with
    | .array items => pointIntervals start dir items
    | _ => .ok []
  | op =>
    (point.mapError .encoding).bind fun word =>
      let p := start ++ word
      let next := prefixSuccessor p
      match op with
      | .opEq => .ok [⟨p, next⟩]
      | .opNe =>
        let missingPoint := start ++ directed dir.descending [0x01]
        let present : KeyInterval :=
          if dir = .asc then ⟨(prefixSuccessor missingPoint).getD [], prefixSuccessor start⟩
          else ⟨start, some missingPoint⟩
        .ok (intersectIntervals [present] [⟨start, some p⟩, ⟨next.getD [], prefixSuccessor start⟩])
      | op =>
        match scalarKey f.value with
        | .error e => .error (.value e)
        | .ok raw => rangeIntervals start dir op (raw.headD 0) p

variable {dir : Direction} {intervals : List KeyInterval} {op : FilterOp}

theorem rangeIntervals_covers {start w v rest : Bytes} {tag b : Byte} {tail : Bytes} (hStart : version ∈ start)
    (hw : IsWord dir w) (hv : IsWord dir v) (hHead : w = b :: tail) (hTag : orient dir.descending tag ≠ 255)
    (h : rangeIntervals start dir op tag (start ++ v) = .ok intervals) :
    Covers intervals (start ++ (w ++ rest)) ↔ b = orient dir.descending tag ∧ (flipOp dir op).accepts (wordCmp w v) = true := by
  obtain ⟨next, hNext⟩ := exists_prefixSuccessor hStart v
  have hFamily : KeyInterval.Mem ⟨start ++ [orient dir.descending tag],
      some (start ++ [orient dir.descending tag + 1])⟩ (start ++ (w ++ rest)) ↔
        b = orient dir.descending tag := by
    rw [hHead, cons_append]
    exact family_mem_iff hTag
  obtain ⟨hWholeLow, hWholeHigh⟩ := whole_bounds start (w ++ rest)
  have hAbove : ∀ lower, KeyInterval.Mem ⟨lower, prefixSuccessor start⟩ (start ++ (w ++ rest)) ↔
      ¬ start ++ (w ++ rest) < lower := fun lower => and_iff_left hWholeHigh
  have hBelow : ∀ upper, KeyInterval.Mem ⟨start, some upper⟩ (start ++ (w ++ rest)) ↔
      start ++ (w ++ rest) < upper := by
    intro upper
    simp only [KeyInterval.Mem, some.injEq, forall_eq']
    exact and_iff_right hWholeLow
  unfold rangeIntervals at h
  simp only [hNext] at h
  split at h
  · rename_i hOp
    cases h
    rw [hOp, covers_intersectIntervals, covers_singleton, covers_singleton, hFamily, hAbove,
      lt_next_iff hw hv hNext]
    cases wordCmp w v <;> simp [FilterOp.accepts]
  · rename_i hOp
    cases h
    rw [hOp, covers_intersectIntervals, covers_singleton, covers_singleton, hFamily, hAbove, lt_point_iff hw hv]
    cases wordCmp w v <;> simp [FilterOp.accepts]
  · rename_i hOp
    cases h
    rw [hOp, covers_intersectIntervals, covers_singleton, covers_singleton, hFamily, hBelow, lt_point_iff hw hv]
    cases wordCmp w v <;> simp [FilterOp.accepts]
  · rename_i hOp
    cases h
    rw [hOp, covers_intersectIntervals, covers_singleton, covers_singleton, hFamily, hBelow,
      lt_next_iff hw hv hNext]
    cases wordCmp w v <;> simp [FilterOp.accepts]
  · cases h

theorem flipOp_accepts {raw bound : Bytes} (hOp : op = .opGt ∨ op = .opGte ∨ op = .opLt ∨ op = .opLte) :
    (flipOp dir op).accepts (directedCmp dir.descending raw bound) = op.accepts (wordCmp raw bound) := by
  unfold flipOp directedCmp
  cases dir.descending with
  | false => rfl
  | true =>
    rw [← wordCmp_swap raw bound]
    obtain rfl | rfl | rfl | rfl := hOp <;> cases wordCmp raw bound <;> rfl

variable {start rest raw : Bytes}

theorem pointIntervals_covers {items : List Value} (hw : IsWord dir (directed dir.descending raw))
    (h : pointIntervals start dir items = .ok intervals) :
    Covers intervals (start ++ (directed dir.descending raw ++ rest)) ↔ items.any (keyIs raw) = true := by
  induction items generalizing intervals with
  | nil => cases h; simp [Covers]
  | cons v items ih =>
    obtain ⟨part, hPart, hRest⟩ := bind_eq_ok h
    obtain ⟨tail, hTail, rfl⟩ := map_eq_ok hRest
    have hWord := mapError_eq_ok hPart
    rw [fieldBytes_eq] at hWord
    have hv := encodeField_isWord hWord
    obtain ⟨rawV, hRawV, rfl⟩ := encodeField_spec hWord
    have hPoint := prefixSuccessor_mem_iff (start ++ directed dir.descending rawV)
      (start ++ (directed dir.descending raw ++ rest))
    rw [point_prefix_iff hw hv, wordCmp_eq_eq_iff] at hPoint
    have hKey : directed dir.descending raw = directed dir.descending rawV ↔ keyIs raw v = true := by
      have hScalar : scalarKey v = .ok rawV := rawKey_scalar hRawV rfl
      simp only [keyIs, hScalar, decide_eq_true_eq]
      exact ⟨fun hEq => (directed_inj hEq).symm, fun hEq => by rw [hEq]⟩
    have hCons : ∀ (i : KeyInterval) (is : List KeyInterval) (k : Bytes),
        Covers (i :: is) k ↔ i.Mem k ∨ Covers is k := by
      simp [Covers]
    rw [hCons, ih hTail, any_cons, Bool.or_eq_true, ← hKey]
    exact or_congr_left hPoint

variable {v : Value}

theorem scalarKey_tag {raw : Bytes} (h : scalarKey v = .ok raw) : ∃ tag rest, raw = tag :: rest ∧ 0x01 < tag ∧ tag < 0x7F := by
  obtain ⟨c, hc, hEncodes⟩ := scalarKey_encodes h
  cases hEncodes with
  | missing =>
    cases v <;> simp [component] at hc
    split at hc <;> simp at hc
  | number p hp =>
    obtain ⟨rest, hKey⟩ := numberKey_cons p
    exact ⟨_, rest, hKey, by decide, by decide⟩
  | text s => exact ⟨_, s, rfl, by decide, by decide⟩
  | null | false | true => exact ⟨_, [], rfl, by decide, by decide⟩

theorem scalarKey_ne_missing {raw : Bytes} (h : scalarKey v = .ok raw) : raw ≠ [0x01] := by
  obtain ⟨tag, rest, rfl, hTag, -⟩ := scalarKey_tag h
  intro hEq
  exact absurd (List.cons.inj hEq).1 hTag.ne'

theorem keyIs_ne_missing {raw : Bytes} (h : keyIs raw v = true) : raw ≠ [0x01] := by
  unfold keyIs at h
  split at h
  · rename_i k hk
    rw [← of_decide_eq_true h]
    exact scalarKey_ne_missing hk
  · cases h

variable {c : Component}

theorem directedCmp_missing {raw : Bytes} (hc : c.Encodes raw) (descending : Bool) :
    directedCmp descending raw [0x01] = (if descending then .lt else .gt) ↔ raw ≠ [0x01] := by
  have hCompare := hc.wordCmp_eq .missing
  have hNe : raw ≠ [0x01] ↔ c ≠ .missing := by
    rw [ne_eq, ← wordCmp_eq_eq_iff, hCompare, Component.compare_eq_iff]
  have hGt : wordCmp raw [0x01] = .gt ↔ c ≠ .missing := by
    rw [hCompare]
    obtain _ | _ | (_ | _) | q | s := c <;> simp [Component.compare, Component.rank]
  cases descending with
  | false => exact hGt.trans hNe.symm
  | true =>
    rw [directedCmp, if_pos rfl, if_pos rfl, ← wordCmp_swap raw [0x01], hNe, ← hGt]
    cases wordCmp raw [0x01] <;> simp

theorem notEqual_covers {start w v rest : Bytes} (hStart : version ∈ start) (hw : IsWord dir w) (hv : IsWord dir v) :
    Covers [⟨start, some (start ++ v)⟩, ⟨(prefixSuccessor (start ++ v)).getD [], prefixSuccessor start⟩]
      (start ++ (w ++ rest)) ↔ w ≠ v := by
  obtain ⟨next, hNext⟩ := exists_prefixSuccessor hStart v
  obtain ⟨hWholeLow, hWholeHigh⟩ := whole_bounds start (w ++ rest)
  have hLow : KeyInterval.Mem ⟨start, some (start ++ v)⟩ (start ++ (w ++ rest)) ↔ wordCmp w v = .lt := by
    simp only [KeyInterval.Mem, some.injEq, forall_eq', lt_point_iff hw hv]
    exact and_iff_right hWholeLow
  have hHigh : KeyInterval.Mem ⟨(prefixSuccessor (start ++ v)).getD [], prefixSuccessor start⟩
      (start ++ (w ++ rest)) ↔ wordCmp w v = .gt := by
    rw [hNext, getD_some]
    refine (and_iff_left hWholeHigh).trans ?_
    rw [lt_next_iff hw hv hNext, not_not]
  simp only [Covers, mem_cons, not_mem_nil, or_false, exists_eq_or_imp, exists_eq_left, hLow, hHigh]
  rw [ne_eq, ← wordCmp_eq_eq_iff]
  cases wordCmp w v <;> simp

theorem present_covers (hStart : version ∈ start) (hDir : dir = .asc ∨ dir = .desc) (hc : c.Encodes raw) :
    Covers [if dir = .asc then
        ⟨(prefixSuccessor (start ++ directed dir.descending [0x01])).getD [], prefixSuccessor start⟩
      else ⟨start, some (start ++ directed dir.descending [0x01])⟩]
      (start ++ (directed dir.descending raw ++ rest)) ↔ raw ≠ [0x01] := by
  have hw : IsWord dir (directed dir.descending raw) := ⟨c, raw, hc, rfl⟩
  have hm : IsWord dir (directed dir.descending [0x01]) := ⟨.missing, _, .missing, rfl⟩
  have hCmp := (carries_directed dir.descending).cmp_eq raw [0x01]
  obtain ⟨next, hNext⟩ := exists_prefixSuccessor hStart (directed dir.descending [0x01])
  obtain ⟨hWholeLow, hWholeHigh⟩ := whole_bounds start (directed dir.descending raw ++ rest)
  rw [covers_singleton, ← directedCmp_missing hc dir.descending, ← hCmp]
  obtain rfl | rfl := hDir
  · rw [if_pos rfl, hNext, getD_some]
    refine (and_iff_left hWholeHigh).trans ?_
    rw [lt_next_iff hw hm hNext, not_not]
    rfl
  · rw [if_neg (by decide)]
    simp only [KeyInterval.Mem, some.injEq, forall_eq', lt_point_iff hw hm]
    exact and_iff_right hWholeLow

theorem filterIntervals_point {start : Bytes} {f : Filter}
    (hIn : f.op ≠ .opIn) (h : filterIntervals start dir f = .ok intervals) :
    ∃ bound, scalarKey f.value = .ok bound ∧ fieldBytes f.value dir = .ok (directed dir.descending bound) := by
  have hPoint : ∃ word, fieldBytes f.value dir = .ok word := by
    cases hWord : fieldBytes f.value dir with
    | ok word => exact ⟨word, rfl⟩
    | error e =>
      simp only [filterIntervals, hWord] at h
      cases hOp : f.op <;> simp only [hOp] at h <;> first | exact absurd hOp hIn | cases h
  obtain ⟨word, hWord⟩ := hPoint
  have hField := hWord
  rw [fieldBytes_eq] at hField
  obtain ⟨bound, hRaw, rfl⟩ := encodeField_spec hField
  exact ⟨bound, rawKey_scalar hRaw rfl, hWord⟩

theorem directed_head (descending : Bool) (tag : Byte) (rest : Bytes) :
    ∃ tail, directed descending (tag :: rest) = orient descending tag :: tail := by
  rw [directed_eq_map, terminated_cons]
  exact ⟨_, rfl⟩

theorem orient_injective (descending : Bool) : Function.Injective (orient descending) := by
  intro a b h
  have hTwice := congrArg (orient descending) h
  rwa [orient_orient, orient_orient] at hTwice

theorem orient_ne_last {tag : Byte} (descending : Bool) (hLow : 0x01 < tag) (hHigh : tag < 0x7F) :
    orient descending tag ≠ 255 := by
  intro hEq
  have hTag : tag = orient descending 255 := by rw [← hEq, orient_orient]
  cases descending with
  | false => rw [hTag] at hHigh; exact absurd hHigh (by decide)
  | true => rw [hTag] at hLow; exact absurd hLow (by decide)

theorem range_covers {start rest raw bound : Bytes} (hStart : version ∈ start) (hc : c.Encodes raw)
    (hBound : scalarKey v = .ok bound) (hOp : op = .opGt ∨ op = .opGte ∨ op = .opLt ∨ op = .opLte)
    (h : rangeIntervals start dir op (bound.headD 0) (start ++ directed dir.descending bound) = .ok intervals) :
    Covers intervals (start ++ (directed dir.descending raw ++ rest)) ↔
      raw ≠ [0x01] ∧ (decide (bound.head? = raw.head?) && op.accepts (wordCmp raw bound)) = true := by
  obtain ⟨b, -, hb⟩ := scalarKey_encodes hBound
  obtain ⟨tag, tail, rfl, hTagLow, hTagHigh⟩ := scalarKey_tag hBound
  obtain ⟨rawTag, rawTail, rfl, -, -⟩ := Component.Encodes.head hc
  obtain ⟨wordTail, hHead⟩ := directed_head dir.descending rawTag rawTail
  rw [rangeIntervals_covers hStart ⟨c, _, hc, rfl⟩ ⟨b, _, hb, rfl⟩ hHead
    (orient_ne_last dir.descending hTagLow hTagHigh) h, (carries_directed _).cmp_eq, flipOp_accepts hOp,
    (orient_injective _).eq_iff, Bool.and_eq_true, decide_eq_true_eq, head?_cons, head?_cons,
    some.injEq, eq_comm (a := tag)]
  refine (and_iff_right_of_imp ?_).symm
  rintro ⟨rfl, -⟩ hMissing
  exact absurd (List.cons.inj hMissing).1 hTagLow.ne'

theorem filterIntervals_covers {f : Filter} (hStart : version ∈ start) (hDir : dir = .asc ∨ dir = .desc) (hc : c.Encodes raw)
    (h : filterIntervals start dir f = .ok intervals) :
    Covers intervals (start ++ (directed dir.descending raw ++ rest)) ↔ raw ≠ [0x01] ∧ f.matchesKey raw = true := by
  have hw : IsWord dir (directed dir.descending raw) := ⟨c, raw, hc, rfl⟩
  by_cases hIn : f.op = .opIn
  · have hPresent : f.matchesKey raw = true → raw ≠ [0x01] := by
      simp only [Filter.matchesKey, hIn]
      split
      · intro hAny
        obtain ⟨v, -, hv⟩ := List.any_eq_true.mp hAny
        exact keyIs_ne_missing hv
      · exact fun hFalse => absurd hFalse Bool.false_ne_true
    rw [and_iff_right_of_imp hPresent]
    simp only [filterIntervals, hIn] at h
    simp only [Filter.matchesKey, hIn]
    cases hValue : f.value with
    | array items =>
      simp only [hValue] at h ⊢
      exact pointIntervals_covers hw h
    | _ =>
      simp only [hValue] at h ⊢
      cases h
      simp [Covers]
  · obtain ⟨bound, hBound, hPoint⟩ := filterIntervals_point hIn h
    have hv : IsWord dir (directed dir.descending bound) := by
      obtain ⟨b, -, hb⟩ := scalarKey_encodes hBound
      exact ⟨b, bound, hb, rfl⟩
    have hKey : keyIs raw f.value = decide (bound = raw) := by rw [keyIs, hBound]
    have hWord : directed dir.descending raw = directed dir.descending bound ↔ bound = raw :=
      ⟨fun hEq => (directed_inj hEq).symm, fun hEq => by rw [hEq]⟩
    simp only [filterIntervals, hPoint] at h
    cases hOp : f.op with
    | opIn => exact absurd hOp hIn
    | opEq =>
      simp only [hOp, Except.mapError, Except.bind, Except.ok.injEq] at h
      subst h
      rw [covers_singleton, prefixSuccessor_mem_iff, point_prefix_iff hw hv, wordCmp_eq_eq_iff, hWord]
      simp only [Filter.matchesKey, hOp, hKey, decide_eq_true_eq]
      exact (and_iff_right_of_imp fun hEq => hEq ▸ scalarKey_ne_missing hBound).symm
    | opNe =>
      simp only [hOp, Except.mapError, Except.bind, Except.ok.injEq] at h
      subst h
      rw [covers_intersectIntervals, present_covers hStart hDir hc, notEqual_covers hStart hw hv, ne_eq,
        ne_eq, hWord]
      simp [Filter.matchesKey, hOp, hKey]
    | opGt | opGte | opLt | opLte =>
      simp only [hOp, Except.mapError, Except.bind, hBound] at h
      rw [range_covers hStart hc hBound (by simp) h]
      simp only [Filter.matchesKey, hOp, hBound]
    | opContains | other =>
      simp only [hOp, Except.mapError, Except.bind, hBound] at h
      simp [rangeIntervals, flipOp] at h

end Syntrix.Index
