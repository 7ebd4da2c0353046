import Syntrix.Lib.JsonText

/-! # Quoting of JSON strings

A text is quoted character by character, so that it may stand in a web page. What is quoted reads back as the
text it was made of, and holds no surrogate.
-/
namespace Syntrix.Lib.Json

open List Bool

def hexByte (d : Nat) : Byte := if d < 10 then Fin.ofNat 256 (0x30 + d) else Fin.ofNat 256 (0x61 + d - 10)

/-- A byte of one character. Angle brackets and ampersands are written in digits, as control characters are. -/
def quoteByte (b : Byte) : StringUnit :=
  if b = quote ∨ b = backslash then .escape b
  else if b = 0x08 then .escape 0x62
  else if b = 0x0C then .escape 0x66
  else if b = 0x0A then .escape 0x6E
  else if b = 0x0D then .escape 0x72
  else if b = 0x09 then .escape 0x74
  else if b < 0x20 ∨ b = 0x3C ∨ b = 0x3E ∨ b = 0x26 then .unicode 0x30 0x30 (hexByte (b.val / 16)) (hexByte (b.val % 16))
  else .plain b

/-- The replacement character, for a byte that belongs to no character. -/
def replacementUnit : StringUnit := .unicode 0x66 0x66 0x66 0x64

/-- The line and paragraph separators U+2028 and U+2029 are written in digits. -/
def isSeparator (b0 b1 b2 : Byte) : Bool :=
  decide (b0 = 0xE2) && decide (b1 = 0x80) && (decide (b2 = 0xA8) || decide (b2 = 0xA9))

def quoteUnits : Bytes → List StringUnit
  | [] => []
  | b0 :: rest =>
    if b0 < 0x80 then quoteByte b0 :: quoteUnits rest
    else match rest with
    | [] => [replacementUnit]
    | b1 :: rest1 =>
      if (0xC2 ≤ b0 ∧ b0 ≤ 0xDF) ∧ isContinuation b1 then .plain b0 :: .plain b1 :: quoteUnits rest1
      else match rest1 with
      | [] => replacementUnit :: quoteUnits (b1 :: [])
      | b2 :: rest2 =>
        if (0xE0 ≤ b0 ∧ b0 ≤ 0xEF) ∧ secondByteOK b0 b1 ∧ isContinuation b2 then
          if isSeparator b0 b1 b2 then .unicode 0x32 0x30 0x32 (hexByte (b2.val % 16)) :: quoteUnits rest2
          else .plain b0 :: .plain b1 :: .plain b2 :: quoteUnits rest2
        else match rest2 with
        | [] => replacementUnit :: quoteUnits (b1 :: b2 :: [])
        | b3 :: rest3 =>
          if (0xF0 ≤ b0 ∧ b0 ≤ 0xF4) ∧ secondByteOK b0 b1 ∧ isContinuation b2 ∧ isContinuation b3 then
            .plain b0 :: .plain b1 :: .plain b2 :: .plain b3 :: quoteUnits rest3
          else replacementUnit :: quoteUnits (b1 :: b2 :: b3 :: rest3)

def unescape (b : Byte) : Byte :=
  if b = 0x62 then 0x08 else if b = 0x66 then 0x0C else if b = 0x6E then 0x0A else if b = 0x72 then 0x0D
  else if b = 0x74 then 0x09 else b

def encodeRune (n : Nat) : Bytes :=
  if n < 0x80 then [Fin.ofNat 256 n]
  else if n < 0x800 then [Fin.ofNat 256 (0xC0 + n / 64), Fin.ofNat 256 (0x80 + n % 64)]
  else if n < 0x10000 then
    [Fin.ofNat 256 (0xE0 + n / 4096), Fin.ofNat 256 (0x80 + n / 64 % 64), Fin.ofNat 256 (0x80 + n % 64)]
  else [Fin.ofNat 256 (0xF0 + n / 262144), Fin.ofNat 256 (0x80 + n / 4096 % 64), Fin.ofNat 256 (0x80 + n / 64 % 64),
    Fin.ofNat 256 (0x80 + n % 64)]

/-- A surrogate that stands alone becomes the replacement character. -/
def StringUnit.decoded : StringUnit → Bytes
  | .plain b => [b]
  | .escape b => [unescape b]
  | .unicode a b c d =>
    let u := (hexUnit a b c d).getD 0xFFFD
    encodeRune (if isHigh u || isLow u then 0xFFFD else u)

/-- The text that units stand for, where their plain bytes are UTF-8. -/
def unquote : List StringUnit → Bytes
  | [] => []
  | [u] => u.decoded
  | u :: v :: rest =>
    match u.codeUnit, v.codeUnit with
    | some high, some low =>
      if isHigh high && isLow low then encodeRune (0x10000 + (high - 0xD800) * 1024 + (low - 0xDC00)) ++ unquote rest
      else u.decoded ++ unquote (v :: rest)
    | _, _ => u.decoded ++ unquote (v :: rest)

theorem unquote_cons {u : StringUnit} (hHigh : u.high = false) (rest : List StringUnit) :
    unquote (u :: rest) = u.decoded ++ unquote rest := by
  cases rest with
  | nil => rw [unquote, unquote, append_nil]
  | cons v rest =>
    rw [unquote]
    split
    · rename_i high low hu hv
      rw [StringUnit.high, hu, Option.any_some] at hHigh
      rw [if_neg (by rw [hHigh]; simp)]
    · rfl

/-- What quoting makes of a text: units that stand for its bytes, none of them a surrogate. -/
structure Quotes (units : List StringUnit) (s : Bytes) : Prop where
  valid : ∀ u ∈ units, u.valid = true
  high : ∀ u ∈ units, u.high = false
  low : ∀ u ∈ units, u.low = false
  unquoted : unquote units = s
  text : utf8Valid (units.flatMap StringUnit.bytes) = true

theorem unquote_append {us : List StringUnit} (hHigh : ∀ u ∈ us, u.high = false) (vs : List StringUnit) :
    unquote (us ++ vs) = unquote us ++ unquote vs := by
  induction us with
  | nil => rfl
  | cons u us ih =>
    obtain ⟨hu, hus⟩ := forall_mem_cons.mp hHigh
    rw [cons_append, unquote_cons hu, unquote_cons hu, ih hus, append_assoc]

theorem Quotes.append {us vs : List StringUnit} {s t : Bytes} (hs : Quotes us s) (ht : Quotes vs t) :
    Quotes (us ++ vs) (s ++ t) where
  valid := forall_mem_append.mpr ⟨hs.valid, ht.valid⟩
  high := forall_mem_append.mpr ⟨hs.high, ht.high⟩
  low := forall_mem_append.mpr ⟨hs.low, ht.low⟩
  unquoted := by rw [unquote_append hs.high, hs.unquoted, ht.unquoted]
  text := by rw [flatMap_append, utf8Valid_append hs.text, ht.text]

theorem quoteByte_spec : ∀ b : Byte, b < 0x80 → (quoteByte b).valid = true ∧ (quoteByte b).high = false ∧
    (quoteByte b).low = false ∧ (quoteByte b).decoded = [b] ∧ utf8Valid (quoteByte b).bytes = true := by
  decide +kernel

theorem quotes_byte {b : Byte} (hb : b < 0x80) : Quotes [quoteByte b] [b] := by
  obtain ⟨hValid, hHigh, hLow, hDecoded, hText⟩ := quoteByte_spec b hb
  refine ⟨by simpa using hValid, by simpa using hHigh, by simpa using hLow, ?_, by simpa using hText⟩
  rw [unquote, hDecoded]

theorem quotes_plain {c : Bytes} (hc : IsChar c) (hBytes : ∀ b ∈ c, 0x80 ≤ b) : Quotes (c.map .plain) c := by
  have hPlain : ∀ b : Byte, 0x80 ≤ b → (StringUnit.plain b).valid = true := by decide +kernel
  have hHigh : ∀ u ∈ c.map StringUnit.plain, u.high = false := by
    intro u hu
    obtain ⟨b, -, rfl⟩ := List.mem_map.mp hu
    rfl
  refine ⟨?_, hHigh, ?_, ?_, ?_⟩
  · intro u hu
    obtain ⟨b, hb, rfl⟩ := List.mem_map.mp hu
    exact hPlain b (hBytes b hb)
  · intro u hu
    obtain ⟨b, -, rfl⟩ := List.mem_map.mp hu
    rfl
  · clear hc hBytes
    induction c with
    | nil => rfl
    | cons b c ih =>
      rw [map_cons, unquote_cons rfl, ih fun u hu => hHigh u (mem_cons_of_mem _ hu)]
      rfl
  · have hSame : (c.map StringUnit.plain).flatMap StringUnit.bytes = c ++ [] := by
      rw [flatMap_map, append_nil]
      exact flatMap_singleton' c
    rw [hSame, hc.utf8Valid_append]
    rfl

theorem quotes_separator {b0 b1 b2 : Byte} (h : isSeparator b0 b1 b2 = true) :
    Quotes [.unicode 0x32 0x30 0x32 (hexByte (b2.val % 16))] [b0, b1, b2] := by
  simp only [isSeparator, and_eq_true, or_eq_true, decide_eq_true_eq] at h
  obtain ⟨⟨rfl, rfl⟩, rfl | rfl⟩ := h <;> exact ⟨by decide, by decide, by decide, by decide, by decide⟩

theorem continuation_high {b : Byte} (h : isContinuation b = true) : 0x80 ≤ b := by
  simp only [isContinuation, and_eq_true, decide_eq_true_eq] at h
  exact h.1

theorem secondByte_high {b0 b1 : Byte} (h : secondByteOK b0 b1 = true) : 0x80 ≤ b1 := by
  have hHigh : ∀ b : Byte, 0x90 ≤ b ∨ 0xA0 ≤ b → 0x80 ≤ b := by decide +kernel
  unfold secondByteOK at h
  split at h
  · simp only [and_eq_true, decide_eq_true_eq] at h
    exact hHigh b1 (.inr h.1)
  split at h
  · simp only [and_eq_true, decide_eq_true_eq] at h
    exact h.1
  split at h
  · simp only [and_eq_true, decide_eq_true_eq] at h
    exact hHigh b1 (.inl h.1)
  split at h
  · simp only [and_eq_true, decide_eq_true_eq] at h
    exact h.1
  · exact continuation_high h

theorem quoteUnits_char {c : Bytes} (hc : IsChar c) :
    ∃ units, Quotes units c ∧ ∀ rest, quoteUnits (c ++ rest) = units ++ quoteUnits rest := by
  have hPlain := quotes_plain hc
  cases hc with
  | @one b0 h =>
    refine ⟨_, quotes_byte h, fun rest => ?_⟩
    change quoteUnits (b0 :: rest) = _
    rw [quoteUnits.eq_def]
    dsimp only
    rw [if_pos h]
    rfl
  | @two b0 b1 h h1 =>
    have hOne := two_lead h
    refine ⟨_, hPlain (by simp [not_lt.mp hOne, continuation_high h1]), fun rest => ?_⟩
    change quoteUnits (b0 :: b1 :: rest) = _
    rw [quoteUnits.eq_def]
    dsimp only
    rw [if_neg hOne, if_pos ⟨h, h1⟩]
    rfl
  | @three b0 b1 b2 h h1 h2 =>
    obtain ⟨hOne, hTwo⟩ := three_lead h
    have hStep : ∀ rest, quoteUnits (b0 :: b1 :: b2 :: rest) =
        if isSeparator b0 b1 b2 then .unicode 0x32 0x30 0x32 (hexByte (b2.val % 16)) :: quoteUnits rest
        else .plain b0 :: .plain b1 :: .plain b2 :: quoteUnits rest := by
      intro rest
      rw [quoteUnits.eq_def]
      dsimp only
      rw [if_neg hOne, if_neg (fun hBoth => hTwo hBoth.1), if_pos ⟨h, h1, h2⟩]
    cases hSeparator : isSeparator b0 b1 b2 with
    | true => exact ⟨_, quotes_separator hSeparator, fun rest => (hStep rest).trans (if_pos hSeparator)⟩
    | false =>
      refine ⟨_, hPlain (by simp [not_lt.mp hOne, secondByte_high h1, continuation_high h2]), fun rest => ?_⟩
      exact (hStep rest).trans (if_neg (by simp [hSeparator]))
  | @four b0 b1 b2 b3 h h1 h2 h3 =>
    obtain ⟨hOne, hTwo, hThree⟩ := four_lead h
    refine ⟨_, hPlain (by simp [not_lt.mp hOne, secondByte_high h1, continuation_high h2, continuation_high h3]), fun rest => ?_⟩
    change quoteUnits (b0 :: b1 :: b2 :: b3 :: rest) = _
    rw [quoteUnits.eq_def]
    dsimp only
    rw [if_neg hOne, if_neg (fun hBoth => hTwo hBoth.1), if_neg (fun hBoth => hThree hBoth.1), if_pos ⟨h, h1, h2, h3⟩]
    rfl

theorem quoteUnits_spec {s : Bytes} (hs : utf8Valid s = true) : Quotes (quoteUnits s) s := by
  refine utf8Valid_induction (motive := fun s => Quotes (quoteUnits s) s) ?_ ?_ hs
  · exact ⟨by simp [quoteUnits], by simp [quoteUnits], by simp [quoteUnits], rfl, rfl⟩
  · intro c rest hc ih
    obtain ⟨units, hUnits, hStep⟩ := quoteUnits_char hc
    rw [hStep]
    exact hUnits.append ih

theorem wellPaired_of_no_surrogate {units : List StringUnit} (hHigh : ∀ u ∈ units, u.high = false)
    (hLow : ∀ u ∈ units, u.low = false) : WellPaired units := by
  induction units with
  | nil => exact wellPaired_nil
  | cons u units ih =>
    obtain ⟨hu, hUnits⟩ := forall_mem_cons.mp hHigh
    obtain ⟨hu', hUnits'⟩ := forall_mem_cons.mp hLow
    exact (wellPaired_cons hu).mpr ⟨hu', ih hUnits hUnits'⟩

end Syntrix.Lib.Json
