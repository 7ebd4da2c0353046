import Syntrix.Lib.Result
import Syntrix.Lib.Terminated
import Syntrix.Model.ScalarComponent

/-! # Order keys

An index tuple is encoded as a version byte, one terminated word per field, complemented when the
field is descending, and the logical document ID as a last ascending string field. Keys compare
as the tuples they encode.
-/
namespace Syntrix.Index

open Lib OrderCode Model List Option

def version : Byte := 0x02

/-- The directions with a meaning, and every other integer a caller can pass. -/
inductive Direction where
  | asc
  | desc
  | other (code : Int)
deriving DecidableEq

def Direction.descending (d : Direction) : Bool := decide (d = .desc)

structure Field where
  value : Value
  direction : Direction := .asc
  missing : Bool := false

inductive EncodingError where
  | invalidDirection
  | unsupportedType (cause : ValueError)
  | stringTooLong
  | idTooLong
  | idNotUTF8
  | invalidOrderKey
deriving DecidableEq

def rawKey (field : Field) : Except EncodingError Bytes :=
  if field.missing then .ok [0x01]
  else match field.value with
  | .string s => if 65535 < s.length then .error .stringTooLong
    else (scalarKey (.string s)).mapError .unsupportedType
  | value => (scalarKey value).mapError .unsupportedType

def encodeField (field : Field) : Except EncodingError Bytes :=
  match field.direction with
  | .asc => (rawKey field).map (directed false)
  | .desc => (rawKey field).map (directed true)
  | .other _ => .error .invalidDirection

def encodeFields : List Field → Except EncodingError Bytes
  | [] => .ok []
  | field :: rest => (encodeField field).bind fun word => (encodeFields rest).map (word ++ ·)

def encodePrefix (fields : List Field) : Except EncodingError Bytes :=
  (encodeFields fields).map (version :: ·)

/-- The document ID is appended as the final ascending string field. -/
def encode (fields : List Field) (docID : Bytes) : Except EncodingError Bytes :=
  if 65535 < docID.length then .error .idTooLong
  else if !utf8Valid docID then .error .idNotUTF8
  else (encodePrefix fields).bind fun start =>
    (encodeField ⟨.string docID, .asc, false⟩).map (start ++ ·)

def Field.component (field : Field) : Option Component :=
  if field.missing then some .missing else Model.component field.value

def compareIn (d : Direction) (a b : Component) : Ordering :=
  if d.descending then b.compare a else a.compare b

/-- Lexicographic comparison of tuples, each position in its own direction. -/
def compareTuples : List Direction → List Component → List Component → Ordering
  | d :: ds, a :: as, b :: bs => (compareIn d a b).then (compareTuples ds as bs)
  | _, _, _ => .eq

variable {field : Field}

variable {raw : Bytes}

theorem rawKey_scalar (h : rawKey field = .ok raw) (hPresent : field.missing = false) : scalarKey field.value = .ok raw := by
  unfold rawKey at h
  rw [hPresent] at h
  split at h
  · rename_i hAbsurd
    cases hAbsurd
  split at h
  · rename_i s hValue
    rw [hValue]
    split at h
    · cases h
    · exact mapError_eq_ok h
  · exact mapError_eq_ok h

theorem rawKey_encodes (h : rawKey field = .ok raw) : ∃ c, field.component = some c ∧ c.Encodes raw := by
  cases hMissing : field.missing with
  | true =>
    rw [rawKey, hMissing] at h
    cases h
    exact ⟨_, by simp [Field.component, hMissing], .missing⟩
  | false =>
    obtain ⟨c, hc, hEncodes⟩ := scalarKey_encodes (rawKey_scalar h hMissing)
    exact ⟨c, by simp [Field.component, hMissing, hc], hEncodes⟩

variable {word : Bytes}

theorem encodeField_spec (h : encodeField field = .ok word) :
    ∃ raw, rawKey field = .ok raw ∧ word = directed field.direction.descending raw := by
  unfold encodeField at h
  split at h
  · rename_i hDirection
    cases hRaw : rawKey field <;> rw [hRaw] at h <;> cases h
    exact ⟨_, rfl, by rw [hDirection]; rfl⟩
  · rename_i hDirection
    cases hRaw : rawKey field <;> rw [hRaw] at h <;> cases h
    exact ⟨_, rfl, by rw [hDirection]; rfl⟩
  · cases h

variable {x y : Bytes} {f g : Field}

theorem encodeField_carries {a b : Component} (hDirection : f.direction = g.direction) (hx : encodeField f = .ok x)
    (hy : encodeField g = .ok y) (ha : f.component = some a) (hb : g.component = some b) (s t : Bytes) :
    wordCmp (x ++ s) (y ++ t) = (compareIn f.direction a b).then (wordCmp s t) := by
  obtain ⟨raw, hRaw, rfl⟩ := encodeField_spec hx
  obtain ⟨raw', hRaw', rfl⟩ := encodeField_spec hy
  obtain ⟨a', ha', hEncodes⟩ := rawKey_encodes hRaw
  obtain ⟨b', hb', hEncodes'⟩ := rawKey_encodes hRaw'
  rw [← hDirection, carries_directed, some.inj (ha.symm.trans ha'),
    some.inj (hb.symm.trans hb'), compareIn, directedCmp, hEncodes.wordCmp_eq hEncodes',
    hEncodes'.wordCmp_eq hEncodes]

variable {key : Bytes} {rest : List Field}

theorem encodeFields_cons (h : encodeFields (field :: rest) = .ok key) :
    ∃ word tail, encodeField field = .ok word ∧ encodeFields rest = .ok tail ∧ key = word ++ tail := by
  rw [encodeFields] at h
  cases hWord : encodeField field with
  | error e => rw [hWord] at h; cases h
  | ok word =>
    rw [hWord] at h
    cases hTail : encodeFields rest with
    | error e => simp only [Except.bind, hTail] at h; cases h
    | ok tail => simp only [Except.bind, hTail] at h; cases h; exact ⟨word, tail, rfl, rfl, rfl⟩

theorem encodeField_component (h : encodeField field = .ok word) : ∃ c, field.component = some c := by
  obtain ⟨raw, hRaw, -⟩ := encodeField_spec h
  obtain ⟨c, hc, -⟩ := rawKey_encodes hRaw
  exact ⟨c, hc⟩

def components (fields : List Field) : Option (List Component) := fields.mapM Field.component

variable {fields : List Field}

theorem encodeFields_components (h : encodeFields fields = .ok key) : ∃ tuple, components fields = some tuple := by
  induction fields generalizing key with
  | nil => exact ⟨[], rfl⟩
  | cons field rest ih =>
    obtain ⟨word, tail, hWord, hTail, -⟩ := encodeFields_cons h
    obtain ⟨c, hc⟩ := encodeField_component hWord
    obtain ⟨tuple, hTuple⟩ := ih hTail
    refine ⟨c :: tuple, ?_⟩
    unfold components at hTuple ⊢
    rw [mapM_cons, hc, hTuple]
    rfl

variable {tuple : List Component}

theorem components_cons (h : components (field :: rest) = some tuple) :
    ∃ c tail, field.component = some c ∧ components rest = some tail ∧ tuple = c :: tail := by
  unfold components at h ⊢
  rw [mapM_cons] at h
  obtain ⟨c, hc, hRest⟩ := bind_eq_some_iff.mp h
  obtain ⟨tail, hTail, hTuple⟩ := bind_eq_some_iff.mp hRest
  cases hTuple
  exact ⟨c, tail, hc, hTail, rfl⟩

variable {as bs : List Component}

theorem encodeFields_carries {fields' : List Field} (hDirections : fields.map Field.direction = fields'.map Field.direction)
    (hx : encodeFields fields = .ok x) (hy : encodeFields fields' = .ok y) (ha : components fields = some as)
    (hb : components fields' = some bs) (s t : Bytes) :
    wordCmp (x ++ s) (y ++ t) = (compareTuples (fields.map Field.direction) as bs).then (wordCmp s t) := by
  induction fields generalizing fields' x y as bs with
  | nil =>
    have hNil : fields' = [] := map_eq_nil_iff.mp hDirections.symm
    subst hNil
    cases hx
    cases hy
    rfl
  | cons f rest ih =>
    cases fields' with
    | nil => cases hDirections
    | cons g rest' =>
      obtain ⟨hHead, hRest⟩ := List.cons.inj hDirections
      obtain ⟨xWord, xTail, hxWord, hxTail, rfl⟩ := encodeFields_cons hx
      obtain ⟨yWord, yTail, hyWord, hyTail, rfl⟩ := encodeFields_cons hy
      obtain ⟨a, aTail, haHead, haTail, rfl⟩ := components_cons ha
      obtain ⟨b, bTail, hbHead, hbTail, rfl⟩ := components_cons hb
      rw [append_assoc, append_assoc, encodeField_carries hHead hxWord hyWord haHead hbHead,
        ih hRest hxTail hyTail haTail hbTail, map_cons, compareTuples, Ordering.then_assoc]

theorem compareTuples_eq_iff {ds : List Direction} (ha : as.length = ds.length) (hb : bs.length = ds.length) :
    compareTuples ds as bs = .eq ↔ as = bs := by
  induction ds generalizing as bs with
  | nil =>
    rw [length_eq_zero_iff.mp ha, length_eq_zero_iff.mp hb]
    simp [compareTuples]
  | cons d ds ih =>
    obtain ⟨a, as, rfl⟩ := exists_cons_of_length_eq_add_one ha
    obtain ⟨b, bs, rfl⟩ := exists_cons_of_length_eq_add_one hb
    have hHead : compareIn d a b = .eq ↔ a = b := by
      unfold compareIn
      split
      · rw [Component.compare_eq_iff]
        exact eq_comm
      · exact Component.compare_eq_iff
    rw [compareTuples, Ordering.then_eq_eq, hHead, ih (Nat.succ.inj ha) (Nat.succ.inj hb),
      List.cons.injEq]

theorem components_length (h : components fields = some tuple) : tuple.length = fields.length := by
  induction fields generalizing tuple with
  | nil => cases h; rfl
  | cons f rest ih =>
    obtain ⟨c, tail, -, hTail, rfl⟩ := components_cons h
    rw [length_cons, ih hTail, length_cons]

def idWord (docID : Bytes) : Bytes := directed false (0x50 :: docID)

variable {docID : Bytes}

theorem encodeField_id (hLength : docID.length ≤ 65535) (hText : utf8Valid docID = true) {d : Direction}
    (hDirection : d = .asc ∨ d = .desc) :
    encodeField ⟨.string docID, d, false⟩ = .ok (directed d.descending (0x50 :: docID)) := by
  have hRaw : rawKey ⟨.string docID, d, false⟩ = .ok (0x50 :: docID) := by
    simp [rawKey, Nat.not_lt.mpr hLength, scalarKey, normalizeValue, hText, normalizedKey, Except.mapError,
      Except.bind]
  obtain rfl | rfl := hDirection
  all_goals
    simp only [encodeField, hRaw]
    rfl

theorem encode_spec (h : encode fields docID = .ok key) :
    ∃ words, encodeFields fields = .ok words ∧ key = version :: (words ++ idWord docID) ∧
      docID.length ≤ 65535 ∧ utf8Valid docID = true := by
  obtain ⟨hLength, h⟩ := guard_eq_ok h
  obtain ⟨hText, h⟩ := guard_eq_ok h
  have hValid : utf8Valid docID = true := by simpa using hText
  have hId : encodeField ⟨.string docID, .asc, false⟩ = .ok (idWord docID) :=
    encodeField_id (Nat.le_of_not_lt hLength) hValid (.inl rfl)
  rw [hId, encodePrefix] at h
  cases hWords : encodeFields fields with
  | error e => rw [hWords] at h; cases h
  | ok words =>
    rw [hWords] at h
    cases h
    exact ⟨words, rfl, rfl, Nat.le_of_not_lt hLength, hValid⟩

theorem wordCmp_idWord (docID docID' : Bytes) : wordCmp (idWord docID) (idWord docID') = wordCmp docID docID' := by
  rw [idWord, idWord, (carries_directed false).cmp_eq, directedCmp, if_neg (by decide), wordCmp_cons_cons,
    cmp_self_eq_eq]
  rfl

theorem encodeField_prefixFree (hDirection : f.direction = g.direction) (hx : encodeField f = .ok x)
    (hy : encodeField g = .ok y) (hPrefix : x <+: y) : x = y := by
  obtain ⟨raw, -, rfl⟩ := encodeField_spec hx
  obtain ⟨raw', -, rfl⟩ := encodeField_spec hy
  rw [← hDirection] at hPrefix ⊢
  exact (carries_directed f.direction.descending).eq_of_isPrefix hPrefix

/-- Encoded keys compare as their tuples, position by position in the position's direction and
the document IDs last; keys are equal exactly when the tuples and the IDs are, and no field word
is a proper prefix of another of its direction. -/
theorem encode_order_isomorphism {fields fields' : List Field} {docID docID' key key' : Bytes}
    (hDirections : fields.map Field.direction = fields'.map Field.direction)
    (h : encode fields docID = .ok key) (h' : encode fields' docID' = .ok key') :
    ∃ tuple tuple', components fields = some tuple ∧ components fields' = some tuple' ∧
      wordCmp key key' =
        (compareTuples (fields.map Field.direction) tuple tuple').then (wordCmp docID docID') ∧
      (key = key' ↔ tuple = tuple' ∧ docID = docID') ∧
      ∀ (f g : Field) (x y : Bytes), f.direction = g.direction → encodeField f = .ok x →
        encodeField g = .ok y → x <+: y → x = y := by
  obtain ⟨words, hWords, hKey, -, -⟩ := encode_spec h
  obtain ⟨words', hWords', hKey', -, -⟩ := encode_spec h'
  obtain ⟨tuple, hTuple⟩ := encodeFields_components hWords
  obtain ⟨tuple', hTuple'⟩ := encodeFields_components hWords'
  have hCompare : wordCmp key key' =
      (compareTuples (fields.map Field.direction) tuple tuple').then (wordCmp docID docID') := by
    rw [hKey, hKey', wordCmp_cons_cons, cmp_self_eq_eq,
      encodeFields_carries hDirections hWords hWords' hTuple hTuple', wordCmp_idWord]
    rfl
  have hLength : fields'.length = fields.length := by
    simpa using (congrArg List.length hDirections).symm
  refine ⟨tuple, tuple', hTuple, hTuple', hCompare, ?_, fun f g x y => encodeField_prefixFree⟩
  rw [← wordCmp_eq_eq_iff, hCompare, Ordering.then_eq_eq, wordCmp_eq_eq_iff,
    compareTuples_eq_iff (by simp [components_length hTuple])
      (by simp [components_length hTuple', hLength])]

/-- A descending number, a string with a zero byte and a missing field, against the same shape. -/
theorem encode_order_isomorphism_mixed :
    ∃ key key', encode [⟨.int 5, .desc, false⟩, ⟨.string [0, 98], .asc, false⟩, ⟨.null, .asc, true⟩] [97] = .ok key ∧
      encode [⟨.int 5, .desc, false⟩, ⟨.string [0], .asc, false⟩, ⟨.bool true, .asc, false⟩] [98] = .ok key' ∧
      ∃ tuple tuple', wordCmp key key' =
        (compareTuples [.desc, .asc, .asc] tuple tuple').then (wordCmp [97] [98]) := by
  refine ⟨_, _, rfl, rfl, ?_⟩
  obtain ⟨tuple, tuple', -, -, hCompare, -⟩ := @encode_order_isomorphism
    [⟨.int 5, .desc, false⟩, ⟨.string [0, 98], .asc, false⟩, ⟨.null, .asc, true⟩]
    [⟨.int 5, .desc, false⟩, ⟨.string [0], .asc, false⟩, ⟨.bool true, .asc, false⟩]
    [97] [98] _ _ rfl rfl rfl
  exact ⟨tuple, tuple', hCompare⟩

end Syntrix.Index
