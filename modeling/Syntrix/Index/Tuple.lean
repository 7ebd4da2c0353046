import Syntrix.Index.Projection
import Syntrix.Lib.Lists

/-! # Tuples of words

A key is read back as the words of its components. The words of a document's tuple are those of
its fields under the template, so a posting key determines them.
-/
namespace Syntrix.Index

open Lib OrderCode Model List

/-- The direction of a word shows in the top half of its first byte. -/
def wordDescending : Bytes → Bool
  | [] => false
  | b :: _ => decide (0x80 < b)

/-- One word per round; every word takes at least one byte of the fuel. -/
def readWords : Nat → Bytes → Except EncodingError (List Bytes)
  | _, [] => .ok []
  | 0, _ :: _ => .error .invalidOrderKey
  | fuel + 1, key =>
    match readWord (wordDescending key) key with
    | none => .error .invalidOrderKey
    | some (word, rest) => (readWords fuel rest).map (word :: ·)

def tupleParts : Bytes → Except EncodingError (List Bytes)
  | [] => .error .invalidOrderKey
  | b :: rest => if b ≠ version then .error .invalidOrderKey else readWords rest.length rest

def unescape (descending : Bool) : Bytes → Bytes
  | [] => []
  | [_] => []
  | b :: c :: rest =>
    if orient descending b ≠ 0 then orient descending b :: unescape descending (c :: rest)
    else if orient descending c = 0 then []
    else 0 :: unescape descending rest

/-- The last component of a complete key, which must be an ascending string. -/
def extractDocID (key : Bytes) : Except EncodingError Bytes :=
  if key.length < 4 then .error .invalidOrderKey
  else (tupleParts key).bind fun words =>
    if words.any fun w => decide (unescape (wordDescending w) w = []) then .error .invalidOrderKey
    else match words.getLast? with
    | none => .error .invalidOrderKey
    | some last =>
      match unescape (wordDescending last) last with
      | tag :: id =>
        if wordDescending last || decide (tag ≠ 0x50) || !utf8Valid id then .error .invalidOrderKey
        else .ok id
      | [] => .error .invalidOrderKey

def WordOf (d : Direction) (c : Component) (word : Bytes) : Prop :=
  ∃ raw, c.Encodes raw ∧ word = directed d.descending raw

def IsWord (d : Direction) (word : Bytes) : Prop := ∃ c, WordOf d c word

theorem Component.Encodes.head {c : Component} {raw : Bytes} (h : c.Encodes raw) :
    ∃ tag rest, raw = tag :: rest ∧ 0 < tag ∧ tag < 0x7F := by
  cases h with
  | number p hp =>
    obtain ⟨rest, hp⟩ := numberKey_cons p
    exact ⟨_, rest, hp, by decide, by decide⟩
  | text s => exact ⟨_, s, rfl, by decide, by decide⟩
  | missing | null | false | true => exact ⟨_, [], rfl, by decide, by decide⟩

theorem complement_gt {tag : Byte} (h : tag < 0x7F) : 0x80 < complement tag := by
  have hVal : (complement tag).val = 255 - tag.val := by simp [complement, Fin.val_rev]
  have h' : tag.val < 127 := h
  change 128 < (complement tag).val
  omega

variable {d : Direction} {w : Bytes}

theorem IsWord.descending (h : IsWord d w) (rest : Bytes) : wordDescending (w ++ rest) = d.descending ∧ 1 ≤ w.length := by
  obtain ⟨c, raw, hEncodes, rfl⟩ := h
  obtain ⟨tag, tail, rfl, hPos, hTag⟩ := Component.Encodes.head hEncodes
  cases d.descending with
  | false =>
    have hLow : ¬ (0x80 : Byte) < tag := not_lt.mpr ((hTag.trans (by decide)).le)
    simp [directed, terminated_cons, wordDescending, hLow]
  | true => simp [directed, terminated_cons, wordDescending, complement_gt hTag]

theorem IsWord.read (h : IsWord d w) (rest : Bytes) : readWord (wordDescending (w ++ rest)) (w ++ rest) = some (w, rest) := by
  rw [(h.descending rest).1]
  obtain ⟨c, raw, -, rfl⟩ := h
  exact readWord_directed _ raw rest

variable {fuel : Nat} {words : List Bytes}

theorem readWords_flatten (h : ∀ w ∈ words, ∃ d, IsWord d w) (hFuel : words.flatten.length ≤ fuel) :
    readWords fuel words.flatten = .ok words := by
  induction words generalizing fuel with
  | nil => cases fuel <;> rfl
  | cons w words ih =>
    rw [forall_mem_cons] at h
    obtain ⟨⟨d, hw⟩, hWords⟩ := h
    have hLength := (hw.descending []).2
    rw [flatten_cons, length_append] at hFuel
    rw [flatten_cons]
    cases fuel with
    | zero => omega
    | succ fuel =>
      obtain ⟨b, tail, hCons⟩ : ∃ b tail, w ++ words.flatten = b :: tail := by
        cases w with
        | nil => simp at hLength
        | cons b w => exact ⟨b, _, rfl⟩
      have hRead := hw.read words.flatten
      have hTail : readWords fuel words.flatten = .ok words := ih hWords (by omega)
      rw [hCons] at hRead ⊢
      simp only [readWords, hRead, hTail]
      rfl

/-- The key of a tuple by the words of its fields and its document ID. -/
def tupleKey (words : List Bytes) (id : Bytes) : Bytes := version :: (words.flatten ++ idWord id)

theorem isWord_idWord (id : Bytes) : IsWord .asc (idWord id) := ⟨.text id, _, .text id, rfl⟩

theorem tupleParts_tupleKey (h : ∀ w ∈ words, ∃ d, IsWord d w) (id : Bytes) :
    tupleParts (tupleKey words id) = .ok (words ++ [idWord id]) := by
  have hFlatten : words.flatten ++ idWord id = (words ++ [idWord id]).flatten := by simp
  have hAll : ∀ w ∈ words ++ [idWord id], ∃ d, IsWord d w := forall_mem_push h ⟨.asc, isWord_idWord id⟩
  rw [tupleKey, hFlatten]
  exact readWords_flatten hAll le_rfl

/-- A word of either direction, whatever its payload, with the direction its first byte shows. -/
def IsPart (w : Bytes) : Prop := ∃ s, w = directed (wordDescending w) s

theorem IsWord.isPart (h : IsWord d w) : IsPart w := by
  have hDirection := (h.descending []).1
  rw [append_nil] at hDirection
  obtain ⟨c, raw, -, hw⟩ := h
  exact ⟨raw, by rw [hDirection, hw]⟩

theorem directed_ne_nil (descending : Bool) (s : Bytes) : directed descending s ≠ [] := by
  rw [directed_eq_map]
  simp [terminated]

theorem IsPart.cons (h : IsPart w) : ∃ b rest, w = b :: rest := by
  obtain ⟨s, hs⟩ := h
  exact exists_cons_of_ne_nil (hs ▸ directed_ne_nil _ s)

variable {parts : List Bytes} {key : Bytes}

theorem readWords_ok (h : readWords fuel key = .ok parts) : key = parts.flatten ∧ ∀ w ∈ parts, IsPart w := by
  induction fuel generalizing key parts with
  | zero =>
    cases key with
    | nil => cases h; exact ⟨rfl, by simp⟩
    | cons b key => cases h
  | succ fuel ih =>
    cases key with
    | nil => cases h; exact ⟨rfl, by simp⟩
    | cons b key =>
      simp only [readWords] at h
      split at h
      · cases h
      rename_i word rest hRead
      obtain ⟨parts, hParts, rfl⟩ := map_eq_ok h
      obtain ⟨hRest, hAll⟩ := ih hParts
      obtain ⟨hKey, s, hs⟩ := readWord_some hRead
      have hPart : IsPart word := by
        obtain ⟨c, word', rfl⟩ := exists_cons_of_ne_nil (hs ▸ directed_ne_nil _ s)
        cases hKey
        exact ⟨s, hs⟩
      rw [flatten_cons, ← hRest]
      exact ⟨hKey, forall_mem_cons.mpr ⟨hPart, hAll⟩⟩

theorem tupleParts_ok (h : tupleParts key = .ok parts) : key = version :: parts.flatten ∧ ∀ w ∈ parts, IsPart w := by
  cases key with
  | nil => cases h
  | cons b key =>
    obtain ⟨hVersion, h⟩ := guard_eq_ok h
    obtain ⟨hKey, hAll⟩ := readWords_ok h
    rw [← hKey, ← not_not.mp hVersion]
    exact ⟨rfl, hAll⟩

def Comparable (w v : Bytes) : Prop :=
  ∀ s t, wordCmp (w ++ s) (v ++ t) = (wordCmp w v).then (wordCmp s t)

variable {b c : Byte}

theorem comparable_of_lt (w v : Bytes) (h : b < c) : Comparable (b :: w) (c :: v) := by
  intro s t
  rw [cons_append, cons_append, wordCmp_cons_cons, wordCmp_cons_cons, (cmp_eq_lt_iff _ _).mpr h]
  rfl

theorem comparable_of_gt (w v : Bytes) (h : c < b) : Comparable (b :: w) (c :: v) := by
  intro s t
  rw [cons_append, cons_append, wordCmp_cons_cons, wordCmp_cons_cons, (cmp_eq_gt_iff _ _).mpr h]
  rfl

theorem IsPart.comparable {v : Bytes} (hw : IsPart w) (hv : IsPart v) : Comparable w v := by
  by_cases hSame : wordDescending w = wordDescending v
  · obtain ⟨s, hs⟩ := hw
    obtain ⟨t, ht⟩ := hv
    intro x y
    rw [hs, ht, hSame, carries_directed, (carries_directed _).cmp_eq]
  · obtain ⟨b, w, rfl⟩ := hw.cons
    obtain ⟨c, v, rfl⟩ := hv.cons
    simp only [wordDescending] at hSame
    by_cases hb : (0x80 : Byte) < b
    · have hc : ¬ (0x80 : Byte) < c := fun hc => hSame (by simp [hb, hc])
      exact comparable_of_gt w v (lt_of_le_of_lt (not_lt.mp hc) hb)
    · have hc : (0x80 : Byte) < c := not_not.mp fun hc => hSame (by simp [hb, hc])
      exact comparable_of_lt w v (lt_of_le_of_lt (not_lt.mp hb) hc)

theorem IsWord.comparable {w' : Bytes} (h : IsWord d w) (h' : IsWord d w') : Comparable w w' :=
  h.isPart.comparable h'.isPart

def wordsCmp : List Bytes → List Bytes → Ordering
  | w :: ws, v :: vs => (wordCmp w v).then (wordsCmp ws vs)
  | _, _ => .eq

variable {ws vs : List Bytes}

theorem comparable_of_isPart (hLength : ws.length = vs.length) (hw : ∀ w ∈ ws, IsPart w)
    (hv : ∀ v ∈ vs, IsPart v) : Forall₂ Comparable ws vs := by
  refine forall₂_iff_zip.mpr ⟨hLength, fun {w v} hMem => ?_⟩
  obtain ⟨hwMem, hvMem⟩ := of_mem_zip hMem
  exact (hw w hwMem).comparable (hv v hvMem)

theorem wordCmp_flatten (h : Forall₂ Comparable ws vs) (s t : Bytes) :
    wordCmp (ws.flatten ++ s) (vs.flatten ++ t) = (wordsCmp ws vs).then (wordCmp s t) := by
  induction h with
  | nil => rfl
  | cons hHead hTail ih =>
    rw [flatten_cons, flatten_cons, append_assoc, append_assoc, hHead, ih, wordsCmp, Ordering.then_assoc]

theorem flatten_prefix_iff {ds : List Direction} (hw : Forall₂ IsWord ds ws)
    (hv : Forall₂ IsWord ds vs) (rest : Bytes) : ws.flatten <+: vs.flatten ++ rest ↔ ws = vs := by
  constructor
  · intro h
    induction hw generalizing vs with
    | nil => cases hv; rfl
    | @cons d w ds ws hHead hTail ih =>
      cases hv with
      | @cons _ v _ vs hHead' hTail' =>
        obtain ⟨t, ht⟩ := h
        rw [flatten_cons, flatten_cons, append_assoc, append_assoc] at ht
        have hCarry := hHead.comparable hHead' (ws.flatten ++ t) (vs.flatten ++ rest)
        rw [ht, wordCmp_self] at hCarry
        have hEq := wordCmp_eq_eq_iff.mp (Ordering.then_eq_eq.mp hCarry.symm).1
        subst hEq
        rw [ih hTail' ⟨t, append_cancel_left ht⟩]
  · rintro rfl
    exact prefix_append _ rest

theorem encodeField_isWord {f : Field} (h : encodeField f = .ok w) : IsWord f.direction w := by
  obtain ⟨raw, hRaw, rfl⟩ := encodeField_spec h
  obtain ⟨c, -, hEncodes⟩ := rawKey_encodes hRaw
  exact ⟨c, raw, hEncodes, rfl⟩

variable {fields : List Field}

theorem encodeFields_words {bytes : Bytes} (h : encodeFields fields = .ok bytes) :
    ∃ words, Forall₂ (fun f w => encodeField f = .ok w) fields words ∧ bytes = words.flatten := by
  induction fields generalizing bytes with
  | nil => cases h; exact ⟨[], .nil, rfl⟩
  | cons f rest ih =>
    obtain ⟨word, tail, hWord, hTail, rfl⟩ := encodeFields_cons h
    obtain ⟨words, hWords, rfl⟩ := ih hTail
    exact ⟨word :: words, .cons hWord hWords, rfl⟩

theorem encode_words {id : Bytes} (h : encode fields id = .ok key) :
    ∃ words, Forall₂ (fun f w => encodeField f = .ok w) fields words ∧ key = tupleKey words id := by
  obtain ⟨bytes, hBytes, rfl, -, -⟩ := encode_spec h
  obtain ⟨words, hWords, rfl⟩ := encodeFields_words hBytes
  exact ⟨words, hWords, rfl⟩

end Syntrix.Index
