import Syntrix.Lib.Decimal
import Syntrix.Lib.Fields
import Syntrix.Lib.JsonQuoting

/-! # Writing and reading JSON

Values are written without white space. The reader takes any text of the grammar whose nesting keeps to a limit.
Reading inverts writing.
-/
namespace Syntrix.Lib.Json

open List Option Nat

inductive Tree where
  | null
  | bool (b : Bool)
  | number (token : Bytes)
  | string (s : Bytes)
  | array (items : List Tree)
  | object (members : List (Bytes × Tree))

section Writing

mutual

def pieces : Tree → List Piece
  | .null => outside (text "null")
  | .bool b => outside (if b then text "true" else text "false")
  | .number token => outside token
  | .string s => [.string (quoteUnits s)]
  | .array [] => [.other 0x5B, .other 0x5D]
  | .array (v :: items) => .other 0x5B :: (pieces v ++ itemPieces items)
  | .object [] => [.other 0x7B, .other 0x7D]
  | .object ((key, v) :: members) =>
    .other 0x7B :: .string (quoteUnits key) :: .other 0x3A :: (pieces v ++ memberPieces members)

def itemPieces : List Tree → List Piece
  | [] => [.other 0x5D]
  | v :: items => .other 0x2C :: (pieces v ++ itemPieces items)

def memberPieces : List (Bytes × Tree) → List Piece
  | [] => [.other 0x7D]
  | (key, v) :: members =>
    .other 0x2C :: .string (quoteUnits key) :: .other 0x3A :: (pieces v ++ memberPieces members)

end

def render (t : Tree) : Bytes := textOf (pieces t)

mutual

inductive Tree.Valid : Tree → Prop
  | null : Tree.Valid .null
  | bool {b : Bool} : Tree.Valid (.bool b)
  | number {token : Bytes} : IsNumber token → Tree.Valid (.number token)
  | string {s : Bytes} : utf8Valid s = true → Tree.Valid (.string s)
  | array {items : List Tree} : ItemsValid items → Tree.Valid (.array items)
  | object {members : List (Bytes × Tree)} : MembersValid members → Tree.Valid (.object members)

inductive ItemsValid : List Tree → Prop
  | nil : ItemsValid []
  | cons {v : Tree} {items : List Tree} : Tree.Valid v → ItemsValid items → ItemsValid (v :: items)

inductive MembersValid : List (Bytes × Tree) → Prop
  | nil : MembersValid []
  | cons {key : Bytes} {v : Tree} {members : List (Bytes × Tree)} : utf8Valid key = true → Tree.Valid v →
      MembersValid members → MembersValid ((key, v) :: members)

end

mutual

def Tree.depth : Tree → Nat
  | .array items => itemsDepth items + 1
  | .object members => membersDepth members + 1
  | _ => 0

def itemsDepth : List Tree → Nat
  | [] => 0
  | v :: items => max v.depth (itemsDepth items)

def membersDepth : List (Bytes × Tree) → Nat
  | [] => 0
  | (_, v) :: members => max v.depth (membersDepth members)

end

mutual

def Tree.sortKeys : Tree → Tree
  | .array items => .array (sortItems items)
  | .object members => .object (Fields.sort (sortMembers members))
  | t => t

def sortItems : List Tree → List Tree
  | [] => []
  | v :: items => v.sortKeys :: sortItems items

def sortMembers : List (Bytes × Tree) → List (Bytes × Tree)
  | [] => []
  | (key, v) :: members => (key, v.sortKeys) :: sortMembers members

end

def marshal (t : Tree) : Bytes := render t.sortKeys

theorem membersDepth_perm {xs ys : List (Bytes × Tree)} (h : xs.Perm ys) : membersDepth xs = membersDepth ys := by
  induction h with
  | nil => rfl
  | cons m h ih => rw [membersDepth, membersDepth, ih]
  | swap m n xs => simp only [membersDepth, max_left_comm]
  | trans h₁ h₂ ih₁ ih₂ => exact ih₁.trans ih₂

mutual

theorem depth_sortKeys : ∀ t : Tree, t.sortKeys.depth = t.depth
  | .null | .bool _ | .number _ | .string _ => rfl
  | .array items => by rw [Tree.sortKeys, Tree.depth, Tree.depth, depth_sortItems items]
  | .object members => by
    rw [Tree.sortKeys, Tree.depth, Tree.depth, membersDepth_perm (Fields.sort_perm _), depth_sortMembers members]

theorem depth_sortItems : ∀ items : List Tree, itemsDepth (sortItems items) = itemsDepth items
  | [] => rfl
  | v :: items => by rw [sortItems, itemsDepth, itemsDepth, depth_sortKeys v, depth_sortItems items]

theorem depth_sortMembers : ∀ members : List (Bytes × Tree), membersDepth (sortMembers members) = membersDepth members
  | [] => rfl
  | (key, v) :: members => by rw [sortMembers, membersDepth, membersDepth, depth_sortKeys v, depth_sortMembers members]

end

end Writing

section Reading

def isSpace (b : Byte) : Bool := decide (b ∈ [0x20, 0x09, 0x0A, 0x0D])

def skipSpace (s : Bytes) : Bytes := s.dropWhile isSpace

def expect (c : Byte) (s : Bytes) : Option Bytes :=
  match skipSpace s with
  | [] => none
  | b :: rest => if b = c then some rest else none

/-- The units of a string whose opening quote was read, and the text after the closing one. -/
def readString : Bytes → Option (List StringUnit × Bytes)
  | [] => none
  | b :: rest =>
    if b = quote then some ([], rest)
    else if b = backslash then
      match rest with
      | [] => none
      | c :: rest =>
        if c = letterU then
          match rest with
          | w :: x :: y :: z :: rest =>
            if (hexUnit w x y z).isSome then (readString rest).map fun r => (.unicode w x y z :: r.1, r.2) else none
          | _ => none
        else if c ∈ escapeLetters then (readString rest).map fun r => (.escape c :: r.1, r.2)
        else none
    else if b < 0x20 then none
    else (readString rest).map fun r => (.plain b :: r.1, r.2)

def readDigits (s : Bytes) : Option (Bytes × Bytes) :=
  if s.takeWhile isDigit = [] then none else some (s.takeWhile isDigit, s.dropWhile isDigit)

def readWhole : Bytes → Option (Bytes × Bytes)
  | [] => none
  | b :: rest => if b = 0x30 then some ([b], rest) else readDigits (b :: rest)

def readFraction : Bytes → Option (Bytes × Bytes)
  | [] => some ([], [])
  | b :: rest => if b = 0x2E then (readDigits rest).map fun r => (b :: r.1, r.2) else some ([], b :: rest)

def readExponent : Bytes → Option (Bytes × Bytes)
  | [] => some ([], [])
  | b :: rest =>
    if b = 0x65 ∨ b = 0x45 then
      match rest with
      | [] => none
      | c :: tail =>
        if c = 0x2B ∨ c = 0x2D then (readDigits tail).map fun r => (b :: c :: r.1, r.2)
        else (readDigits (c :: tail)).map fun r => (b :: r.1, r.2)
    else some ([], b :: rest)

def readSign : Bytes → Bytes × Bytes
  | [] => ([], [])
  | b :: rest => if b = 0x2D then ([b], rest) else ([], b :: rest)

def readNumber (s : Bytes) : Option (Bytes × Bytes) :=
  (readWhole (readSign s).2).bind fun whole => (readFraction whole.2).bind fun fraction =>
    (readExponent fraction.2).map fun exponent =>
      ((readSign s).1 ++ whole.1 ++ fraction.1 ++ exponent.1, exponent.2)

def readScalar (s : Bytes) : Option (Tree × Bytes) :=
  if (text "null").isPrefixOf s then some (.null, s.drop 4)
  else if (text "true").isPrefixOf s then some (.bool true, s.drop 4)
  else if (text "false").isPrefixOf s then some (.bool false, s.drop 5)
  else (readNumber s).map fun r => (.number r.1, r.2)

mutual

/-- One value, its containers nested no deeper than a limit. Every container and every item takes a byte, so
the length of the text is enough fuel. -/
def readValue : Nat → Nat → Bytes → Option (Tree × Bytes)
  | 0, _, _ => none
  | fuel + 1, limit, s =>
    match skipSpace s with
    | [] => none
    | b :: rest =>
      if b = quote then (readString rest).map fun r => (.string (unquote r.1), r.2)
      else if b = 0x5B then
        if limit = 0 then none
        else match expect 0x5D rest with
          | some tail => some (.array [], tail)
          | none => (readItems fuel (limit - 1) rest).map fun r => (.array r.1, r.2)
      else if b = 0x7B then
        if limit = 0 then none
        else match expect 0x7D rest with
          | some tail => some (.object [], tail)
          | none => (readMembers fuel (limit - 1) rest).map fun r => (.object r.1, r.2)
      else readScalar (b :: rest)

def readItems : Nat → Nat → Bytes → Option (List Tree × Bytes)
  | 0, _, _ => none
  | fuel + 1, limit, s =>
    (readValue fuel limit s).bind fun v =>
      match expect 0x5D v.2 with
      | some tail => some ([v.1], tail)
      | none => (expect 0x2C v.2).bind fun tail => (readItems fuel limit tail).map fun r => (v.1 :: r.1, r.2)

def readMembers : Nat → Nat → Bytes → Option (List (Bytes × Tree) × Bytes)
  | 0, _, _ => none
  | fuel + 1, limit, s =>
    (expect quote s).bind fun inside => (readString inside).bind fun key => (expect 0x3A key.2).bind fun colon =>
      (readValue fuel limit colon).bind fun v =>
        match expect 0x7D v.2 with
        | some tail => some ([(unquote key.1, v.1)], tail)
        | none => (expect 0x2C v.2).bind fun tail =>
          (readMembers fuel limit tail).map fun r => ((unquote key.1, v.1) :: r.1, r.2)

end

def read (limit : Nat) (data : Bytes) : Option Tree :=
  (readValue data.length limit data).bind fun r => if skipSpace r.2 = [] then some r.1 else none

end Reading

section Tokens

variable {rest : Bytes}

theorem skipSpace_cons {b : Byte} (hb : isSpace b = false) : skipSpace (b :: rest) = b :: rest :=
  dropWhile_cons_of_neg (by simp [hb])

theorem expect_self {c : Byte} (hc : isSpace c = false) : expect c (c :: rest) = some rest := by
  rw [expect, skipSpace_cons hc]
  exact if_pos rfl

theorem expect_other {b c : Byte} (hb : isSpace b = false) (h : b ≠ c) : expect c (b :: rest) = none := by
  rw [expect, skipSpace_cons hb]
  exact if_neg h

theorem readString_unit {u : StringUnit} (hu : u.valid = true) :
    readString (u.bytes ++ rest) = (readString rest).map fun r => (u :: r.1, r.2) := by
  cases u with
  | plain b =>
    obtain ⟨hRange, hQuote, hBackslash⟩ := of_decide_eq_true hu
    change readString (b :: rest) = _
    rw [readString.eq_def]
    dsimp only
    rw [if_neg hQuote, if_neg hBackslash, if_neg (not_lt.mpr hRange)]
  | escape c =>
    have hLetter : c ≠ letterU := by
      rintro rfl
      exact absurd hu (by decide)
    change readString (backslash :: c :: rest) = _
    rw [readString.eq_def]
    dsimp only
    rw [if_neg (by decide), if_pos rfl, if_neg hLetter, if_pos (of_decide_eq_true hu)]
  | unicode w x y z =>
    change readString (backslash :: letterU :: w :: x :: y :: z :: rest) = _
    rw [readString.eq_def]
    dsimp only
    have hu : (hexUnit w x y z).isSome = true := hu
    rw [if_neg (by decide), if_pos rfl, if_pos rfl, if_pos hu]

theorem readString_units {units : List StringUnit} (hUnits : ∀ u ∈ units, u.valid = true) :
    readString (units.flatMap StringUnit.bytes ++ quote :: rest) = some (units, rest) := by
  induction units with
  | nil =>
    rw [readString.eq_def]
    exact if_pos rfl
  | cons u units ih =>
    obtain ⟨hu, hRest⟩ := forall_mem_cons.mp hUnits
    rw [flatMap_cons, append_assoc, readString_unit hu, ih hRest]
    rfl

/-- What may follow a value: the end of the text or of its container, or a further item. -/
def Ends (rest : Bytes) : Prop := ∀ b ∈ rest.head?, b ∈ [0x2C, 0x5D, 0x7D]

structure EndsNumber (rest : Bytes) : Prop where
  digit : ∀ b ∈ rest.head?, isDigit b = false
  point : ∀ b ∈ rest.head?, b ≠ 0x2E
  exponent : ∀ b ∈ rest.head?, ¬ (b = 0x65 ∨ b = 0x45)

theorem Ends.number (h : Ends rest) : EndsNumber rest := by
  have hEnd : ∀ b ∈ rest.head?, isDigit b = false ∧ b ≠ 0x2E ∧ ¬ (b = 0x65 ∨ b = 0x45) := by
    intro b hb
    have hb := h b hb
    simp only [mem_cons, not_mem_nil, or_false] at hb
    obtain rfl | rfl | rfl := hb <;> decide
  exact ⟨fun b hb => (hEnd b hb).1, fun b hb => (hEnd b hb).2.1, fun b hb => (hEnd b hb).2.2⟩

theorem IsDigits.isDigit {ds : Bytes} (h : IsDigits ds) : ∀ b ∈ ds, Lib.isDigit b = true := by
  intro b hb
  obtain ⟨hLow, hHigh⟩ := h.2 b hb
  simp only [Lib.isDigit, hLow, hHigh, decide_true, Bool.and_self]

theorem readDigits_append {ds : Bytes} (hds : IsDigits ds) (hRest : ∀ b ∈ rest.head?, isDigit b = false) :
    readDigits (ds ++ rest) = some (ds, rest) := by
  have hStop : rest.takeWhile isDigit = [] ∧ rest.dropWhile isDigit = rest := by
    cases rest with
    | nil => exact ⟨rfl, rfl⟩
    | cons b rest => simp [hRest b rfl]
  have hTake : (ds ++ rest).takeWhile isDigit = ds := by
    rw [takeWhile_append_of_pos hds.isDigit, hStop.1, append_nil]
  have hDrop : (ds ++ rest).dropWhile isDigit = rest := by
    rw [dropWhile_append_of_pos hds.isDigit, hStop.2]
  rw [readDigits, hTake, hDrop, if_neg hds.1]

def IsExponent (exponent : Bytes) : Prop :=
  exponent = [] ∨ ∃ e sign ds, e ∈ [0x65, 0x45] ∧ sign ∈ [[], [0x2B], [0x2D]] ∧ IsDigits ds ∧ exponent = e :: (sign ++ ds)

def IsFraction (fraction : Bytes) : Prop := fraction = [] ∨ ∃ ds, IsDigits ds ∧ fraction = 0x2E :: ds

variable {exponent : Bytes}

theorem readExponent_append (h : IsExponent exponent) (hRest : EndsNumber rest) :
    readExponent (exponent ++ rest) = some (exponent, rest) := by
  obtain rfl | ⟨e, sign, ds, he, hSign, hds, rfl⟩ := h
  · cases rest with
    | nil => rfl
    | cons b rest => exact if_neg (hRest.exponent b rfl)
  have he : e = 0x65 ∨ e = 0x45 := by simpa using he
  have hDigits := readDigits_append hds hRest.digit
  have hStep : ∀ c tail, readExponent (e :: c :: tail) = if c = 0x2B ∨ c = 0x2D
      then (readDigits tail).map fun r => (e :: c :: r.1, r.2) else (readDigits (c :: tail)).map fun r => (e :: r.1, r.2) :=
    fun c tail => if_pos he
  simp only [mem_cons, not_mem_nil, or_false] at hSign
  obtain rfl | rfl | rfl := hSign
  · obtain ⟨d, tail, hd⟩ := exists_cons_of_ne_nil hds.1
    have hSignless : ¬ (d = 0x2B ∨ d = 0x2D) := by
      have hDigit := hds.isDigit d (hd ▸ mem_cons_self)
      rintro (rfl | rfl) <;> exact absurd hDigit (by decide)
    rw [hd] at hDigits ⊢
    refine (hStep d (tail ++ rest)).trans ?_
    rw [if_neg hSignless, ← cons_append, hDigits]
    rfl
  · refine (hStep 0x2B (ds ++ rest)).trans ?_
    rw [if_pos (.inl rfl), hDigits]
    rfl
  · refine (hStep 0x2D (ds ++ rest)).trans ?_
    rw [if_pos (.inr rfl), hDigits]
    rfl

theorem readFraction_append {fraction : Bytes} (h : IsFraction fraction) (hDigit : ∀ b ∈ rest.head?, isDigit b = false)
    (hPoint : ∀ b ∈ rest.head?, b ≠ 0x2E) : readFraction (fraction ++ rest) = some (fraction, rest) := by
  obtain rfl | ⟨ds, hds, rfl⟩ := h
  · cases rest with
    | nil => rfl
    | cons b rest => exact if_neg (hPoint b rfl)
  · change readFraction (0x2E :: (ds ++ rest)) = _
    rw [readFraction, if_pos rfl, readDigits_append hds hDigit]
    rfl

theorem readWhole_append {whole : Bytes} (h : IsDigits whole) (hZero : whole.head? = some 0x30 → whole = [0x30])
    (hDigit : ∀ b ∈ rest.head?, isDigit b = false) : readWhole (whole ++ rest) = some (whole, rest) := by
  obtain ⟨d, tail, rfl⟩ := exists_cons_of_ne_nil h.1
  have hStep : readWhole (d :: (tail ++ rest)) =
      if d = 0x30 then some ([d], tail ++ rest) else readDigits (d :: (tail ++ rest)) := rfl
  refine hStep.trans ?_
  split
  · rename_i hd
    subst hd
    cases hZero rfl
    rfl
  · exact readDigits_append h hDigit

theorem exponent_head (h : IsExponent exponent) (hRest : EndsNumber rest) :
    ∀ b ∈ (exponent ++ rest).head?, isDigit b = false ∧ b ≠ 0x2E := by
  intro b hb
  obtain rfl | ⟨e, sign, ds, he, -, -, rfl⟩ := h
  · exact ⟨hRest.digit b hb, hRest.point b hb⟩
  cases hb
  simp only [mem_cons, not_mem_nil, or_false] at he
  obtain rfl | rfl := he <;> decide

theorem readNumber_append {token : Bytes} (h : IsNumber token) (hRest : EndsNumber rest) :
    readNumber (token ++ rest) = some (token, rest) := by
  obtain ⟨hSign, hWhole, hZero, hFraction, hExponent⟩ := h
  rename_i sign whole fraction exponent
  have hHead := exponent_head hExponent hRest
  have hFractionHead : ∀ b ∈ (fraction ++ (exponent ++ rest)).head?, isDigit b = false := by
    intro b hb
    obtain rfl | ⟨ds, -, rfl⟩ := hFraction
    · exact (hHead b hb).1
    · cases hb
      decide
  have hSigned : readSign (sign ++ (whole ++ (fraction ++ (exponent ++ rest)))) =
      (sign, whole ++ (fraction ++ (exponent ++ rest))) := by
    obtain rfl | rfl := hSign
    · obtain ⟨d, tail, hd⟩ := exists_cons_of_ne_nil hWhole.1
      have hMinus : d ≠ 0x2D := by
        have hDigit := hWhole.isDigit d (hd ▸ mem_cons_self)
        rintro rfl
        exact absurd hDigit (by decide)
      rw [hd]
      exact if_neg hMinus
    · change readSign (0x2D :: (whole ++ (fraction ++ (exponent ++ rest)))) = _
      rw [readSign, if_pos rfl]
  rw [readNumber, append_assoc, append_assoc, append_assoc, hSigned, readWhole_append hWhole hZero hFractionHead,
    bind_some, readFraction_append hFraction (fun b hb => (hHead b hb).1) (fun b hb => (hHead b hb).2),
    bind_some, readExponent_append hExponent hRest, map_some]

end Tokens

section RoundTrip

mutual

def Tree.weight : Tree → Nat
  | .array items => itemsWeight items + 1
  | .object members => membersWeight members + 1
  | _ => 1

def itemsWeight : List Tree → Nat
  | [] => 0
  | v :: items => max v.weight (itemsWeight items) + 1

def membersWeight : List (Bytes × Tree) → Nat
  | [] => 0
  | (_, v) :: members => max v.weight (membersWeight members) + 1

end

variable {rest : Bytes}

@[simp] theorem textOf_nil : textOf [] = [] := rfl

@[simp] theorem textOf_cons_other (b : Byte) (ps : List Piece) : textOf (.other b :: ps) = b :: textOf ps := rfl

theorem textOf_cons_string (units : List StringUnit) (ps : List Piece) :
    textOf (.string units :: ps) = quote :: (units.flatMap StringUnit.bytes ++ quote :: textOf ps) := by
  simp [textOf, Piece.bytes]

@[simp] theorem textOf_append (ps qs : List Piece) : textOf (ps ++ qs) = textOf ps ++ textOf qs := flatMap_append

@[simp] theorem textOf_outside (s : Bytes) : textOf (outside s) = s := by
  rw [textOf, outside, flatMap_map]
  exact flatMap_singleton' s

variable {token : Bytes}

theorem IsNumber.head (h : IsNumber token) : ∃ b tail, token = b :: tail ∧ (b = 0x2D ∨ isDigit b = true) := by
  obtain ⟨hSign, hWhole, -, -, -⟩ := h
  obtain ⟨d, tail, rfl⟩ := exists_cons_of_ne_nil hWhole.1
  obtain rfl | rfl := hSign
  · exact ⟨d, _, rfl, .inr (hWhole.isDigit d mem_cons_self)⟩
  · exact ⟨0x2D, _, rfl, .inl rfl⟩

theorem number_byte : ∀ b : Byte, b = 0x2D ∨ isDigit b = true →
    isSpace b = false ∧ b ≠ quote ∧ b ≠ 0x5B ∧ b ≠ 0x7B ∧ b ≠ 0x5D ∧ b ≠ 0x7D ∧ b ≠ 0x6E ∧ b ≠ 0x74 ∧ b ≠ 0x66 := by
  decide +kernel

variable {t : Tree}

theorem render_head (h : t.Valid) : ∃ b tail, textOf (pieces t) = b :: tail ∧ isSpace b = false ∧ b ≠ 0x5D ∧ b ≠ 0x7D := by
  cases h with
  | null => exact ⟨_, _, rfl, by decide⟩
  | @bool b => cases b <;> exact ⟨_, _, rfl, by decide⟩
  | number hToken =>
    obtain ⟨b, tail, hb, hNumber⟩ := hToken.head
    obtain ⟨hSpace, -, -, -, hBracket, hBrace, -⟩ := number_byte b hNumber
    exact ⟨b, tail, by rw [pieces, textOf_outside, hb], hSpace, hBracket, hBrace⟩
  | string hs => exact ⟨quote, _, by rw [pieces, textOf_cons_string], by decide⟩
  | @array items hItems => cases items <;> exact ⟨_, _, rfl, by decide⟩
  | @object members hMembers => cases members <;> exact ⟨_, _, rfl, by decide⟩

theorem readScalar_number (h : IsNumber token) (hRest : EndsNumber rest) :
    readScalar (token ++ rest) = some (.number token, rest) := by
  obtain ⟨b, tail, hb, hNumber⟩ := h.head
  obtain ⟨-, -, -, -, -, -, hn, ht, hf⟩ := number_byte b hNumber
  have hOther : ∀ c literal, b ≠ c → (c :: literal).isPrefixOf (token ++ rest) = false := by
    intro c literal hc
    rw [hb]
    simp [isPrefixOf, Ne.symm hc]
  rw [readScalar, show text "null" = 0x6E :: text "ull" from rfl, show text "true" = 0x74 :: text "rue" from rfl,
    show text "false" = 0x66 :: text "alse" from rfl, hOther _ _ hn, hOther _ _ ht, hOther _ _ hf, readNumber_append h hRest]
  rfl

/-- What is read of a container, when its nesting keeps to the limit. -/
def within {α : Type} (depth limit : Nat) (r : α) : Option α := if depth ≤ limit then some r else none

variable {α β : Type}

variable {f : α → β} {r : α}

theorem within_nested {depth limit : Nat} :
    (if limit = 0 then none else (within depth (limit - 1) r).map f) = within (depth + 1) limit (f r) := by
  unfold within
  split
  · rw [if_neg (by omega)]
  split
  · rw [if_pos (by omega), map_some]
  · rw [if_neg (by omega), map_none]

theorem within_bind {depth depth' limit : Nat} {f : α → Option β} {r' : β} (h : f r = within depth' limit r') :
    (within depth limit r).bind f = within (max depth depth') limit r' := by
  unfold within at h ⊢
  split
  · rw [bind_some, h]
    simp only [max_le_iff]
    split
    · rw [if_pos ⟨by omega, by omega⟩]
    · rw [if_neg (by omega)]
  · rw [bind_none, if_neg (by omega)]

theorem within_map {depth limit : Nat} : (within depth limit r).map f = within depth limit (f r) := by
  unfold within
  split <;> rfl

/-- With some fuel, what is written is read back if its nesting keeps to the limit, and refused otherwise. -/
structure Reads (fuel : Nat) : Prop where
  value : ∀ {t : Tree} {limit : Nat} {rest : Bytes}, t.Valid → t.weight ≤ fuel → Ends rest →
    readValue fuel limit (textOf (pieces t) ++ rest) = within t.depth limit (t, rest)
  items : ∀ {v : Tree} {items : List Tree} {limit : Nat} {rest : Bytes}, v.Valid → ItemsValid items →
    itemsWeight (v :: items) ≤ fuel →
    readItems fuel limit (textOf (pieces v) ++ (textOf (itemPieces items) ++ rest)) =
      within (itemsDepth (v :: items)) limit (v :: items, rest)
  members : ∀ {key : Bytes} {v : Tree} {members : List (Bytes × Tree)} {limit : Nat} {rest : Bytes},
    utf8Valid key = true → v.Valid → MembersValid members → membersWeight ((key, v) :: members) ≤ fuel →
    readMembers fuel limit (quote :: ((quoteUnits key).flatMap StringUnit.bytes ++
      quote :: 0x3A :: (textOf (pieces v) ++ (textOf (memberPieces members) ++ rest)))) =
        within (membersDepth ((key, v) :: members)) limit ((key, v) :: members, rest)

theorem ends_itemPieces (items : List Tree) (rest : Bytes) : Ends (textOf (itemPieces items) ++ rest) := by
  intro b hb
  cases items with
  | nil | cons v items =>
    cases hb
    decide

theorem ends_memberPieces (members : List (Bytes × Tree)) (rest : Bytes) : Ends (textOf (memberPieces members) ++ rest) := by
  intro b hb
  cases members with
  | nil | cons m members =>
    cases hb
    decide

variable {fuel limit : Nat}

theorem Reads.value_succ (h : Reads fuel) (ht : t.Valid) (hFuel : t.weight ≤ fuel + 1) (hRest : Ends rest) :
    readValue (fuel + 1) limit (textOf (pieces t) ++ rest) = within t.depth limit (t, rest) := by
  cases ht with
  | null => exact (if_pos (zero_le limit)).symm
  | @bool b => cases b <;> exact (if_pos (zero_le limit)).symm
  | @number token hToken =>
    obtain ⟨b, tail, hb, hNumber⟩ := hToken.head
    obtain ⟨hSpace, hQuote, hBracket, hBrace, -⟩ := number_byte b hNumber
    have hScalar := readScalar_number hToken hRest.number
    rw [pieces, textOf_outside, within, if_pos (by exact zero_le limit)]
    rw [hb] at hScalar ⊢
    rw [cons_append, readValue, skipSpace_cons hSpace]
    dsimp only
    rw [if_neg hQuote, if_neg hBracket, if_neg hBrace]
    exact hScalar
  | @string s hs =>
    have hQuotes := quoteUnits_spec hs
    have hText : textOf (pieces (.string s)) ++ rest =
        quote :: ((quoteUnits s).flatMap StringUnit.bytes ++ quote :: rest) := by
      rw [pieces, textOf_cons_string]
      simp
    rw [hText, readValue, skipSpace_cons (by decide)]
    dsimp only
    rw [if_pos rfl, readString_units hQuotes.valid, map_some, hQuotes.unquoted]
    exact (if_pos (zero_le limit)).symm
  | @array items hItems =>
    rw [Tree.depth, ← within_nested (r := (items, rest)) (f := fun r => (Tree.array r.1, r.2))]
    cases hItems with
    | nil => rfl
    | @cons v items hv hItems =>
      simp only [Tree.weight] at hFuel
      have hText : textOf (pieces (.array (v :: items))) ++ rest =
          0x5B :: (textOf (pieces v) ++ (textOf (itemPieces items) ++ rest)) := by
        rw [pieces]
        simp
      obtain ⟨b, tail, hb, hSpace, hBracket, -⟩ := render_head hv
      have hOpen : expect 0x5D (textOf (pieces v) ++ (textOf (itemPieces items) ++ rest)) = none := by
        rw [hb]
        exact expect_other hSpace hBracket
      rw [hText, readValue, skipSpace_cons (by decide)]
      dsimp only
      rw [if_neg (by decide), if_pos rfl, hOpen, h.items hv hItems (by omega)]
  | @object members hMembers =>
    rw [Tree.depth, ← within_nested (r := (members, rest)) (f := fun r => (Tree.object r.1, r.2))]
    cases hMembers with
    | nil => rfl
    | @cons key v members hKey hv hMembers =>
      simp only [Tree.weight] at hFuel
      have hText : textOf (pieces (.object ((key, v) :: members))) ++ rest =
          0x7B :: quote :: ((quoteUnits key).flatMap StringUnit.bytes ++
            quote :: 0x3A :: (textOf (pieces v) ++ (textOf (memberPieces members) ++ rest))) := by
        rw [pieces, textOf_cons_other, textOf_cons_string]
        simp
      rw [hText, readValue, skipSpace_cons (by decide)]
      dsimp only
      rw [if_neg (by decide), if_neg (by decide), if_pos rfl, expect_other (by decide) (by decide), h.members hKey hv hMembers (by omega)]

variable {v : Tree}

theorem Reads.items_succ (h : Reads fuel) {items : List Tree} (hv : v.Valid) (hItems : ItemsValid items)
    (hFuel : itemsWeight (v :: items) ≤ fuel + 1) :
    readItems (fuel + 1) limit (textOf (pieces v) ++ (textOf (itemPieces items) ++ rest)) =
      within (itemsDepth (v :: items)) limit (v :: items, rest) := by
  simp only [itemsWeight] at hFuel
  rw [readItems, h.value hv (by omega) (ends_itemPieces items rest), itemsDepth]
  refine within_bind ?_
  cases hItems with
  | nil =>
    exact (if_pos (zero_le limit)).symm
  | @cons w items hw hItems =>
    have hText : textOf (itemPieces (w :: items)) ++ rest = 0x2C :: (textOf (pieces w) ++ (textOf (itemPieces items) ++ rest)) := by
      rw [itemPieces]
      simp
    simp only [hText, expect_other (show isSpace 0x2C = false by decide) (show (0x2C : Byte) ≠ 0x5D by decide),
      expect_self (show isSpace 0x2C = false by decide), bind_some]
    rw [h.items hw hItems (by omega), within_map]

theorem Reads.members_succ (h : Reads fuel) {key : Bytes} {members : List (Bytes × Tree)} (hKey : utf8Valid key = true)
    (hv : v.Valid) (hMembers : MembersValid members) (hFuel : membersWeight ((key, v) :: members) ≤ fuel + 1) :
    readMembers (fuel + 1) limit (quote :: ((quoteUnits key).flatMap StringUnit.bytes ++
      quote :: 0x3A :: (textOf (pieces v) ++ (textOf (memberPieces members) ++ rest)))) =
        within (membersDepth ((key, v) :: members)) limit ((key, v) :: members, rest) := by
  simp only [membersWeight] at hFuel
  have hQuotes := quoteUnits_spec hKey
  rw [readMembers, expect_self (by decide), bind_some, readString_units hQuotes.valid, bind_some,
    expect_self (by decide), bind_some, h.value hv (by omega) (ends_memberPieces members rest), hQuotes.unquoted,
    membersDepth]
  refine within_bind ?_
  cases hMembers with
  | nil =>
    exact (if_pos (zero_le limit)).symm
  | @cons key' w members hKey' hw hMembers =>
    have hText : textOf (memberPieces ((key', w) :: members)) ++ rest =
        0x2C :: quote :: ((quoteUnits key').flatMap StringUnit.bytes ++
          quote :: 0x3A :: (textOf (pieces w) ++ (textOf (memberPieces members) ++ rest))) := by
      rw [memberPieces, textOf_cons_other, textOf_cons_string]
      simp
    simp only [hText, expect_other (show isSpace 0x2C = false by decide) (show (0x2C : Byte) ≠ 0x7D by decide),
      expect_self (show isSpace 0x2C = false by decide), bind_some]
    rw [h.members hKey' hw hMembers (by omega), within_map]

theorem reads (fuel : Nat) : Reads fuel := by
  induction fuel with
  | zero =>
    refine ⟨?_, ?_, ?_⟩
    · intro t limit rest ht hFuel
      cases t <;> simp [Tree.weight] at hFuel
    · intro v items limit rest hv hItems hFuel
      simp [itemsWeight] at hFuel
    · intro key v members limit rest hKey hv hMembers hFuel
      simp [membersWeight] at hFuel
  | succ fuel ih => exact ⟨ih.value_succ, ih.items_succ, ih.members_succ⟩

theorem length_pos (h : t.Valid) : 0 < (textOf (pieces t)).length := by
  obtain ⟨b, tail, hb, -⟩ := render_head h
  rw [hb]
  exact succ_pos _

mutual

theorem weight_le_length {t : Tree} : t.Valid → t.weight ≤ (textOf (pieces t)).length
  | .null => by decide
  | @Tree.Valid.bool b => by cases b <;> decide
  | .number hToken => by
    obtain ⟨b, tail, rfl, -⟩ := hToken.head
    simp [Tree.weight, pieces]
  | .string hs => by
    rw [pieces, textOf_cons_string]
    simp [Tree.weight]
  | .array .nil => by decide
  | .array (.cons hv hItems) => by
    have hValue := weight_le_length hv
    have hRest := itemsWeight_lt_length hItems
    have hNonempty := length_pos hv
    simp only [Tree.weight, itemsWeight, pieces, textOf_cons_other, textOf_append, length_cons, length_append]
    omega
  | .object .nil => by decide
  | .object (.cons hKey hv hMembers) => by
    have hValue := weight_le_length hv
    have hRest := membersWeight_lt_length hMembers
    have hNonempty := length_pos hv
    simp only [Tree.weight, membersWeight, pieces, textOf_cons_other, textOf_cons_string, textOf_append, length_cons,
      length_append]
    omega

theorem itemsWeight_lt_length {items : List Tree} : ItemsValid items → itemsWeight items < (textOf (itemPieces items)).length
  | .nil => by decide
  | .cons hv hItems => by
    have hValue := weight_le_length hv
    have hRest := itemsWeight_lt_length hItems
    have hNonempty := length_pos hv
    simp only [itemsWeight, itemPieces, textOf_cons_other, textOf_append, length_cons, length_append]
    omega

theorem membersWeight_lt_length {members : List (Bytes × Tree)} :
    MembersValid members → membersWeight members < (textOf (memberPieces members)).length
  | .nil => by decide
  | .cons hKey hv hMembers => by
    have hValue := weight_le_length hv
    have hRest := membersWeight_lt_length hMembers
    have hNonempty := length_pos hv
    simp only [membersWeight, memberPieces, textOf_cons_other, textOf_cons_string, textOf_append, length_cons,
      length_append]
    omega

end

theorem read_render_within {limit : Nat} (ht : t.Valid) : read limit (render t) = within t.depth limit t := by
  have hEnd : Ends [] := by
    intro b hb
    cases hb
  have hValue : readValue (render t).length limit (render t ++ []) = within t.depth limit (t, []) :=
    (reads (render t).length).value ht (weight_le_length ht) hEnd
  rw [append_nil] at hValue
  rw [read, hValue, within, within]
  split <;> rfl

theorem read_render {limit : Nat} (ht : t.Valid) (hLimit : t.depth ≤ limit) : read limit (render t) = some t :=
  (read_render_within ht).trans (if_pos hLimit)

structure Clean (ps : List Piece) : Prop where
  valid : AllValid ps
  paired : ∀ units, Piece.string units ∈ ps → WellPaired units
  text : utf8Valid (textOf ps) = true

theorem Clean.append {ps qs : List Piece} (hp : Clean ps) (hq : Clean qs) : Clean (ps ++ qs) where
  valid := allValid_append hp.valid hq.valid
  paired := by
    intro units hUnits
    obtain hUnits | hUnits := mem_append.mp hUnits
    · exact hp.paired units hUnits
    · exact hq.paired units hUnits
  text := by rw [textOf_append, utf8Valid_append hp.text, hq.text]

theorem clean_outside {s : Bytes} (h : ∀ b ∈ s, b ≠ quote ∧ b < 0x80) : Clean (outside s) where
  valid := allValid_outside fun b hb => (h b hb).1
  paired := by
    intro units hUnits
    obtain ⟨b, -, hb⟩ := List.mem_map.mp hUnits
    cases hb
  text := by
    rw [textOf_outside]
    exact utf8Valid_of_ascii fun b hb => (h b hb).2

theorem clean_other {b : Byte} (h : b ≠ quote ∧ b < 0x80) : Clean [.other b] :=
  clean_outside (s := [b]) (by simpa using h)

theorem clean_string {s : Bytes} (hs : utf8Valid s = true) : Clean [.string (quoteUnits s)] := by
  have hQuotes := quoteUnits_spec hs
  refine ⟨allValid_cons (List.all_eq_true.mpr hQuotes.valid) (by simp [AllValid]), ?_, ?_⟩
  · intro units hUnits
    cases mem_singleton.mp hUnits
    exact wellPaired_of_no_surrogate hQuotes.high hQuotes.low
  · rw [textOf_cons_string, textOf_nil, ← singleton_append, utf8Valid_append (by decide),
      utf8Valid_append hQuotes.text]
    decide

mutual

theorem clean_pieces {t : Tree} : t.Valid → Clean (pieces t)
  | .null => clean_outside (by decide +kernel)
  | @Tree.Valid.bool b => by cases b <;> exact clean_outside (by decide +kernel)
  | .number hToken => clean_outside hToken.ascii
  | .string hs => clean_string hs
  | .array .nil => (clean_other (b := 0x5B) (by decide)).append (clean_other (b := 0x5D) (by decide))
  | .array (.cons hv hItems) =>
    (clean_other (b := 0x5B) (by decide)).append ((clean_pieces hv).append (clean_items hItems))
  | .object .nil => (clean_other (b := 0x7B) (by decide)).append (clean_other (b := 0x7D) (by decide))
  | .object (.cons hKey hv hMembers) =>
    (clean_other (b := 0x7B) (by decide)).append ((clean_string hKey).append
      ((clean_other (b := 0x3A) (by decide)).append ((clean_pieces hv).append (clean_members hMembers))))

theorem clean_items {items : List Tree} : ItemsValid items → Clean (itemPieces items)
  | .nil => clean_other (by decide)
  | .cons hv hItems =>
    (clean_other (b := 0x2C) (by decide)).append ((clean_pieces hv).append (clean_items hItems))

theorem clean_members {members : List (Bytes × Tree)} : MembersValid members → Clean (memberPieces members)
  | .nil => clean_other (by decide)
  | .cons hKey hv hMembers =>
    (clean_other (b := 0x2C) (by decide)).append ((clean_string hKey).append
      ((clean_other (b := 0x3A) (by decide)).append ((clean_pieces hv).append (clean_members hMembers))))

end

end RoundTrip

end Syntrix.Lib.Json
