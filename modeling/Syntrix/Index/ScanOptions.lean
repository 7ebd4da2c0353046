import Syntrix.Index.Position

/-! # Resuming a branch

A position splits, for one branch, into the words the branch fixes and those that follow its prefix
in the key. So keys of a branch are ordered as their positions, and a position taken from any branch
maps to a lower bound of this one.
-/
namespace Syntrix.Index

open Lib OrderCode Model List Option

structure SearchOptions where
  lower : Bytes
  upper : Option Bytes
  startAfter : Option Bytes
deriving DecidableEq

/-- The word of a template field in a position; the ID stands at the end when the order lacks it. -/
def postingWord (named : List (Bytes × Bytes)) (id : Bytes) (f : TemplateField) : Except CandidateError Bytes :=
  match latest named f.field with
  | some part => .ok part
  | none => if f.field = idField then .ok id else .error .invalidPlan

def postingWords (named : List (Bytes × Bytes)) (id : Bytes) : List TemplateField → Except CandidateError (List Bytes)
  | [] => .ok []
  | f :: rest => (postingWord named id f).bind fun part => (postingWords named id rest).map (part :: ·)

def CandidateMetadata.postingKey (m : CandidateMetadata) (position : Bytes) (branchID : Nat) :
    Except CandidateError Bytes :=
  match m.branches[branchID]? with
  | none => .error .invalidPlan
  | some branch =>
    ((tupleParts position).mapError .encoding).bind fun parts =>
      let order := orderComponents m.effectiveOrder
      if parts.length ≠ order.length + 1 then .error (.encoding .invalidOrderKey)
      else
        let id := parts.getLast?.getD []
        (postingWords ((order.map OrderField.field).zip parts) id (m.template.fields.drop branch.fixedFields)).map
          fun words => branch.fixedPrefix ++ words.flatten ++ id

/-- Where a fixed field decides against the position, the bound it gives; none when no fixed field does. -/
def scanSeek (fixed : Bytes → Option Bytes) : List (OrderField × Bytes) → Bytes → Option (Option Bytes)
  | [], _ => none
  | (f, part) :: rest, seek =>
    match fixed f.field with
    | some value =>
      match wordCmp value part with
      | .eq => scanSeek fixed rest seek
      | .lt => some (prefixSuccessor seek)
      | .gt => some (some seek)
    | none => scanSeek fixed rest (seek ++ part)

def CandidateMetadata.scanOptions (m : CandidateMetadata) (branchID : Nat) (after : Bytes) :
    Except CandidateError SearchOptions :=
  match m.branches[branchID]? with
  | none => .error .invalidPlan
  | some branch =>
    if after = [] then .ok ⟨branch.lower, branch.upper, none⟩
    else ((tupleParts after).mapError .encoding).bind fun parts =>
      let order := orderComponents m.effectiveOrder
      if parts.length ≠ order.length + 1 then .error (.encoding .invalidOrderKey)
      else ((tupleParts branch.fixedPrefix).mapError .encoding).bind fun fixedParts =>
        let fixed := latest ((m.template.fields.map TemplateField.field).zip fixedParts)
        match scanSeek fixed (order.zip parts) branch.fixedPrefix with
        | some none => .ok ⟨branch.upper.getD [], branch.upper, none⟩
        | some (some seek) => .ok ⟨if branch.lower < seek then seek else branch.lower, branch.upper, none⟩
        | none => (m.postingKey after branchID).map fun key => ⟨branch.lower, branch.upper, some key⟩

def SearchOptions.Mem (opts : SearchOptions) (key : Bytes) : Prop :=
  ¬ key < opts.lower ∧ (∀ u, opts.upper = some u → key < u) ∧ ∀ a, opts.startAfter = some a → a < key

def variableWords (fixed : Bytes → Option Bytes) : List OrderField → List Bytes → List Bytes
  | c :: order, w :: words =>
    if (fixed c.field).isSome then variableWords fixed order words else w :: variableWords fixed order words
  | _, _ => []

def Agrees (fixed : Bytes → Option Bytes) (order : List OrderField) (words : List Bytes) : Prop :=
  List.Forall₂ (fun c w => ∀ v, fixed c.field = some v → v = w) order words

variable {fixed : Bytes → Option Bytes} {order : List OrderField} {as : List Bytes} {position last seek : Bytes}
variable {named : List (Bytes × Bytes)} {fields : List TemplateField}

variable {ws : List Bytes}

theorem wordsCmp_variableWords {vs : List Bytes} (hw : Agrees fixed order ws) (hv : Agrees fixed order vs) :
    wordsCmp ws vs = wordsCmp (variableWords fixed order ws) (variableWords fixed order vs) := by
  induction hw generalizing vs with
  | nil => cases hv; rfl
  | @cons c w order ws hHead hTail ih =>
    cases hv with
    | @cons _ v _ vs hHead' hTail' =>
      simp only [variableWords]
      cases hFixed : fixed c.field with
      | none => simp [wordsCmp, ih hTail']
      | some x =>
        rw [wordsCmp, ← hHead x hFixed, ← hHead' x hFixed, wordCmp_self, ih hTail']
        rfl

variable {id : Bytes} {doc : StoredDoc}

theorem OrderWords.variableWords (h : OrderWords doc id order ws) (fixed : Bytes → Option Bytes) :
    OrderWords doc id (order.filter fun c => (fixed c.field).isNone) (variableWords fixed order ws) := by
  induction h with
  | nil => exact .nil
  | @cons c w order ws hHead hTail ih =>
    simp only [Index.variableWords]
    cases hFixed : fixed c.field with
    | none =>
      rw [filter_cons_of_pos (by simp [hFixed])]
      exact .cons hHead ih
    | some x =>
      rw [filter_cons_of_neg (by simp [hFixed])]
      exact ih

theorem forall₂_variableWords {R : Bytes → Bytes → Prop} {vs : List Bytes} (h : Forall₂ R ws vs)
    (fixed : Bytes → Option Bytes) (order : List OrderField) :
    Forall₂ R (variableWords fixed order ws) (variableWords fixed order vs) := by
  induction h generalizing order with
  | nil => cases order <;> exact .nil
  | cons hHead _ ih =>
    cases order with
    | nil => exact .nil
    | cons c order =>
      simp only [variableWords]
      split
      · exact ih order
      · exact .cons hHead (ih order)

theorem lt_of_words_ne {start w a : Bytes} (h : Comparable w a) (hNe : w ≠ a) (rest x : Bytes) :
    start ++ (w ++ rest) < start ++ (a ++ x) ↔ wordCmp w a = .lt := by
  rw [← wordCmp_eq_lt_iff, wordCmp_append_left, h]
  cases h : wordCmp w a <;> simp_all

theorem not_prefix_of_words_ne {start w a : Bytes} (h : Comparable w a) (hNe : w ≠ a) (rest x : Bytes) :
    ¬ start ++ (a ++ x) <+: start ++ (w ++ rest) := by
  rw [prefix_append_right_inj]
  rintro ⟨y, hy⟩
  have hCarry := h rest (x ++ y)
  rw [← append_assoc, hy, wordCmp_self] at hCarry
  exact hNe (wordCmp_eq_eq_iff.mp (Ordering.then_eq_eq.mp hCarry.symm).1)

variable {bound : Option Bytes}

theorem scanSeek_shape {pairs : List (OrderField × Bytes)} (h : scanSeek fixed pairs seek = some bound) :
    ∃ x, bound = some (seek ++ x) ∨ bound = prefixSuccessor (seek ++ x) := by
  induction pairs generalizing seek with
  | nil => cases h
  | cons pair pairs ih =>
    obtain ⟨f, part⟩ := pair
    simp only [scanSeek] at h
    split at h
    · split at h
      · exact ih h
      · cases h
        exact ⟨[], .inr (by rw [append_nil])⟩
      · cases h
        exact ⟨[], .inl (by rw [append_nil])⟩
    · obtain ⟨x, hx⟩ := ih h
      refine ⟨part ++ x, ?_⟩
      rw [← append_assoc]
      exact hx

theorem scanSeek_spec {as : List Bytes} (rest : Bytes) (hSeek : version ∈ seek) (hw : Agrees fixed order ws)
    (hWords : Forall₂ Comparable ws as) (h : scanSeek fixed (order.zip as) seek = some bound) :
    ∃ lower, bound = some lower ∧ wordsCmp as ws ≠ .eq ∧
      (¬ seek ++ ((variableWords fixed order ws).flatten ++ rest) < lower ↔ wordsCmp as ws = .lt) := by
  induction hw generalizing as seek with
  | nil => cases h
  | @cons c w order ws hHead hTail ih =>
    cases hWords with
    | @cons _ a _ as hWord hWords =>
      simp only [zip_cons_cons, scanSeek] at h
      simp only [variableWords, wordsCmp]
      cases hFixed : fixed c.field with
      | some v =>
        obtain rfl := hHead v hFixed
        simp only [hFixed] at h
        have hSwap := wordCmp_swap v a
        cases hCmp : wordCmp v a with
        | eq =>
          rw [hCmp] at h hSwap
          rw [← hSwap]
          exact ih hSeek hWords h
        | lt =>
          rw [hCmp] at h hSwap
          rw [← hSwap]
          obtain ⟨s, hs⟩ := isSome_iff_exists.mp (prefixSuccessor_isSome (b := version) (by decide) hSeek)
          refine ⟨s, by rw [← some.inj h, hs], by simp, ?_⟩
          simp [(whole_bounds seek _).2 s hs]
        | gt =>
          rw [hCmp] at h hSwap
          rw [← hSwap]
          refine ⟨seek, (some.inj h).symm, by simp, ?_⟩
          simp [(whole_bounds seek _).1]
      | none =>
        simp only [hFixed] at h
        simp only [isSome_none, Bool.false_eq_true, if_false, flatten_cons]
        by_cases hEq : w = a
        · subst hEq
          obtain ⟨lower, rfl, hNe, hIff⟩ := ih (mem_append_left _ hSeek) hWords h
          rw [wordCmp_self]
          refine ⟨lower, rfl, hNe, ?_⟩
          rw [← append_assoc, ← append_assoc, append_assoc _ _ rest]
          exact hIff
        · -- The words differ, so their order decides against every bound that begins with `seek ++ a`.
          have hThen : (wordCmp a w).then (wordsCmp as ws) ≠ .eq ∧
              ((wordCmp a w).then (wordsCmp as ws) = .lt ↔ ¬ wordCmp w a = .lt) := by
            rw [← wordCmp_swap w a]
            cases hwa : wordCmp w a <;> simp_all
          rw [hThen.2, append_assoc w]
          have hBelow := @lt_of_words_ne seek _ _ hWord hEq
          obtain ⟨x, rfl | rfl⟩ := scanSeek_shape h
          · refine ⟨_, rfl, hThen.1, not_congr ?_⟩
            rw [append_assoc]
            exact hBelow _ x
          · obtain ⟨s, hs⟩ := exists_prefixSuccessor (mem_append_left a hSeek) x
            refine ⟨s, hs, hThen.1, not_congr ?_⟩
            rw [lt_prefixSuccessor_iff hs, append_assoc, hBelow _ x,
              or_iff_left (not_prefix_of_words_ne hWord hEq _ x)]

theorem scanSeek_none
    (hLength : order.length = as.length) (h : scanSeek fixed (order.zip as) seek = none) : Agrees fixed order as := by
  induction order generalizing as seek with
  | nil =>
    rw [length_eq_zero_iff.mp hLength.symm]
    exact .nil
  | cons c order ih =>
    cases as with
    | nil => simp at hLength
    | cons a as =>
      simp only [length_cons, Nat.add_right_cancel_iff] at hLength
      simp only [zip_cons_cons, scanSeek] at h
      cases hFixed : fixed c.field with
      | some v =>
        simp only [hFixed] at h
        cases hCmp : wordCmp v a with
        | eq =>
          rw [hCmp] at h
          refine .cons (fun v' hv' => ?_) (ih hLength h)
          rw [← some.inj (hFixed.symm.trans hv')]
          exact wordCmp_eq_eq_iff.mp hCmp
        | lt | gt =>
          rw [hCmp] at h
          cases h
      | none =>
        simp only [hFixed] at h
        refine .cons (fun v hv => ?_) (ih hLength h)
        rw [hFixed] at hv
        cases hv

/-- The end of a key after the words that vary: a last ascending ID of the template comes twice. -/
def idTail (fields : List TemplateField) (id : Bytes) : Bytes :=
  if (fields.map TemplateField.orderField).getLast? = some ⟨idField, .asc⟩ then idWord id ++ idWord id else idWord id

def lastTail (fields : List TemplateField) (last : Bytes) : Bytes :=
  if (fields.map TemplateField.orderField).getLast? = some ⟨idField, .asc⟩ then last ++ last else last

theorem wordCmp_lastTail (fields : List TemplateField) {a b : Bytes} (h : Comparable a b) :
    wordCmp (lastTail fields a) (lastTail fields b) = wordCmp a b := by
  unfold lastTail
  split
  · rw [h]
    cases wordCmp a b <;> rfl
  · rfl

theorem idTail_eq (fields : List TemplateField) (id : Bytes) : idTail fields id = lastTail fields (idWord id) := rfl

theorem wordCmp_idTail (fields : List TemplateField) (id id' : Bytes) :
    wordCmp (idTail fields id) (idTail fields id') = wordCmp (idWord id) (idWord id') :=
  wordCmp_lastTail fields ((isWord_idWord id).comparable (isWord_idWord id'))

theorem remainingFields_eq (fields : List TemplateField) :
    remainingFields fields = if (fields.map TemplateField.orderField).getLast? = some ⟨idField, .asc⟩
      then (fields.map TemplateField.orderField).dropLast else fields.map TemplateField.orderField := rfl

theorem rest_flatten {rs vs : List Bytes} (hId : encodeField (orderTupleField doc id ⟨idField, .asc⟩) = .ok (idWord id))
    (hRest : OrderWords doc id (fields.map TemplateField.orderField) rs)
    (hVariable : OrderWords doc id (remainingFields fields) vs) : rs.flatten ++ idWord id = vs.flatten ++ idTail fields id := by
  rw [remainingFields_eq] at hVariable
  unfold idTail
  split at hVariable
  · rename_i hLast
    rw [if_pos hLast]
    have hWhole : OrderWords doc id (fields.map TemplateField.orderField) (vs ++ [idWord id]) := by
      rw [← dropLast_append_getLast? _ hLast]
      exact rel_append hVariable (.cons hId .nil)
    rw [hRest.unique hWhole]
    simp
  · rename_i hLast
    rw [if_neg hLast, hRest.unique hVariable]

def fixedWords (t : Template) (ws : List Bytes) : Bytes → Option Bytes :=
  latest ((t.fields.map TemplateField.field).zip ws)

variable {t : Template}

theorem fixedWords_some {name v : Bytes} (h : fixedWords t ws name = some v) :
    ∃ i : Nat, (t.fields.map TemplateField.field)[i]? = some name ∧ ws[i]? = some v := by
  obtain ⟨l, l', hSplit, -⟩ := List.lookup_eq_some_iff.mp h
  have hMem : (name, v) ∈ ((t.fields.map TemplateField.field).zip ws).reverse := by simp [hSplit]
  obtain ⟨i, hi⟩ := mem_iff_getElem?.mp (mem_reverse.mp hMem)
  obtain ⟨hName, hWord⟩ := getElem?_zip_eq_some.mp hi
  exact ⟨i, hName, hWord⟩

theorem fixedWords_isNone (hUnique : (t.fields.map TemplateField.field).Nodup) {k : Nat}
    (hLength : ws.length = (t.fields.take k).length) (name : Bytes) :
    (fixedWords t ws name).isNone = true ↔ name ∉ (t.fields.take k).map TemplateField.field := by
  rw [isNone_iff_eq_none]
  constructor
  · intro hNone hMem
    obtain ⟨i, hi⟩ := mem_iff_getElem?.mp hMem
    have hBound : i < ws.length := by
      rw [hLength, ← length_map TemplateField.field]
      exact (List.getElem?_eq_some_iff.mp hi).1
    rw [map_take, getElem?_take] at hi
    split at hi
    · have hSome := lookup_zip_of_nodup hUnique hi (getElem?_eq_getElem hBound)
      rw [fixedWords, hSome] at hNone
      cases hNone
    · cases hi
  · intro hMem
    rw [eq_none_iff_forall_ne_some]
    intro v hSome
    obtain ⟨i, hName, hWord⟩ := fixedWords_some hSome
    have hBound := (List.getElem?_eq_some_iff.mp hWord).1
    refine hMem (mem_of_getElem? (i := i) ?_)
    rw [hLength, List.length_take] at hBound
    rw [map_take, getElem?_take, if_pos (by omega)]
    exact hName

section Plan

variable {t : Template} {filters : List Filter} {orderBy : List OrderField} {m : CandidateMetadata} {k : Nat}
variable {doc doc' : StoredDoc} {id id' : Bytes} {member member' : Value} {words words' ws ws' : List Bytes}

theorem Compiled.variable_eq (h : Compiled t filters orderBy m k) (hFields : ValidFields t.fields) {fixed : List Bytes}
    (hLength : fixed.length = (t.fields.take k).length) :
    ((orderComponents m.effectiveOrder).filter fun c => (fixedWords t fixed c.field).isNone) =
      remainingFields (t.fields.drop k) := by
  rw [← h.variableOrder]
  refine filter_congr fun c _ => ?_
  rw [Bool.eq_iff_iff, fixedWords_isNone hFields.unique hLength]
  simp

theorem Row.length_take (hRow : Row t doc id member words) : (words.take k).length = (t.fields.take k).length := by
  rw [List.length_take, List.length_take, Forall₂.length_eq hRow.words]

theorem Row.agrees (hRow : Row t doc id member words) (hFound : ∀ c ∈ order, orderFieldFound t.fields c = true)
    (hWords : OrderWords doc id order ws) : Agrees (fixedWords t (words.take k)) order ws := by
  induction hWords with
  | nil => exact .nil
  | @cons c w order ws hHead hTail ih =>
    rw [forall_mem_cons] at hFound
    refine .cons (fun v hv => ?_) (ih hFound.2)
    obtain ⟨i, hName, hWord⟩ := fixedWords_some hv
    rw [getElem?_take] at hWord
    obtain ⟨j, f, hf, hMode, rfl⟩ | ⟨rfl, hAbsent⟩ := orderFieldFound_cases hFound.1
    · have hSame : i = j := by
        have hNames : (t.fields.map TemplateField.field)[j]? = some f.field := by rw [getElem?_map, hf]; rfl
        have hBound := (List.getElem?_eq_some_iff.mp hName).1
        exact (getElem?_inj hBound hRow.fields.unique).mp (hName.trans hNames.symm)
      subst hSame
      obtain ⟨w', hw', hEncode⟩ := forall₂_getElem? hRow.words hf
      rw [tupleField, if_neg hMode, documentTupleField_eq, hHead] at hEncode
      split at hWord
      · rw [Except.ok.inj hEncode]
        exact some.inj (hWord.symm.trans hw')
      · cases hWord
    · exact absurd (mem_of_getElem? hName) hAbsent

variable {f : TemplateField}

theorem Compiled.scalar_drop (h : Compiled t filters orderBy m k) (hf : f ∈ t.fields.drop k) : f.mode ≠ .membership := by
  intro hMode
  have hHas := hasMembership_of_mem hf hMode
  rw [h.scalar] at hHas
  cases hHas

theorem Compiled.rest_words (h : Compiled t filters orderBy m k) (hRow : Row t doc id member words) :
    OrderWords doc id ((t.fields.drop k).map TemplateField.orderField) (words.drop k) := by
  refine forall₂_map_left_iff.mpr ?_
  refine ((forall₂_and_left (p := fun f => f ∈ t.fields.drop k) _ _).mpr
    ⟨fun f hf => hf, forall₂_drop k hRow.words⟩).imp ?_
  rintro f w ⟨hf, hw⟩
  rwa [tupleField, if_neg (h.scalar_drop hf), documentTupleField_eq] at hw

theorem Compiled.key_split (h : Compiled t filters orderBy m k) (hRow : Row t doc id member words)
    (hWords : OrderWords doc id (orderComponents m.effectiveOrder) ws) :
    tupleKey words id = (version :: (words.take k).flatten) ++
      ((variableWords (fixedWords t (words.take k)) (orderComponents m.effectiveOrder) ws).flatten ++
        idTail (t.fields.drop k) id) := by
  have hVariable := hWords.variableWords (fixedWords t (words.take k))
  rw [h.variable_eq hRow.fields hRow.length_take] at hVariable
  rw [← rest_flatten hRow.encode_id (h.rest_words hRow) hVariable, tupleKey, cons_append, ← append_assoc,
    ← flatten_append, take_append_drop]

/-- The parts of a position under a plan: one for every order component, and a last one. -/
structure Boundary (m : CandidateMetadata) (position : Bytes) (as : List Bytes) (last : Bytes) : Prop where
  parts : tupleParts position = .ok (as ++ [last])
  length : as.length = (orderComponents m.effectiveOrder).length

theorem Boundary.key (h : Boundary m position as last) : position = version :: (as.flatten ++ last) := by
  rw [(tupleParts_ok h.parts).1]
  simp

theorem Boundary.isPart (h : Boundary m position as last) : (∀ w ∈ as, IsPart w) ∧ IsPart last := by
  have hAll := (tupleParts_ok h.parts).2
  exact ⟨fun w hw => hAll w (mem_append_left _ hw), hAll last (by simp)⟩

theorem boundary_of_parts {parts : List Bytes} (hParts : tupleParts position = .ok parts)
    (hLength : parts.length = (orderComponents m.effectiveOrder).length + 1) : ∃ as last, Boundary m position as last := by
  obtain ⟨as, last, rfl⟩ := (eq_nil_or_concat' parts).resolve_left (by rintro rfl; simp at hLength)
  exact ⟨as, last, hParts, by simpa using hLength⟩

theorem OrderWords.boundary (hWords : OrderWords doc id (orderComponents m.effectiveOrder) ws) :
    Boundary m (tupleKey ws id) ws (idWord id) := by
  refine ⟨tupleParts_tupleKey (fun w hw => ?_) id, (Forall₂.length_eq hWords).symm⟩
  obtain ⟨d, -, hd⟩ := forall₂_mem_right hWords.isWord hw
  exact ⟨d, hd⟩

theorem Boundary.comparable {position' last last' : Bytes} {as' : List Bytes} (h : Boundary m position as last)
    (h' : Boundary m position' as' last') : Forall₂ Comparable as as' :=
  comparable_of_isPart (h.length.trans h'.length.symm) h.isPart.1 h'.isPart.1

theorem Boundary.wordCmp_eq {position' last last' : Bytes} {as' : List Bytes} (h : Boundary m position as last)
    (h' : Boundary m position' as' last') : wordCmp position position' = (wordsCmp as as').then (wordCmp last last') := by
  rw [h.key, h'.key, wordCmp_cons_cons, wordCmp_flatten (h.comparable h')]
  simp

theorem Compiled.wordCmp_key (h : Compiled t filters orderBy m k) (hRow : Row t doc id member words)
    (hRow' : Row t doc' id' member' words') (hTake : words.take k = words'.take k)
    (hWords : OrderWords doc id (orderComponents m.effectiveOrder) ws)
    (hWords' : OrderWords doc' id' (orderComponents m.effectiveOrder) ws') :
    wordCmp (tupleKey words id) (tupleKey words' id') = wordCmp (tupleKey ws id) (tupleKey ws' id') := by
  have hAgrees := hRow.agrees (k := k) h.found hWords
  have hAgrees' := hRow'.agrees (k := k) h.found hWords'
  have hVariable := forall₂_variableWords (hWords.boundary.comparable hWords'.boundary)
    (fixedWords t (words.take k)) (orderComponents m.effectiveOrder)
  rw [h.key_split hRow hWords, h.key_split hRow' hWords', hWords.boundary.wordCmp_eq hWords'.boundary, ← hTake,
    wordCmp_append_left, wordCmp_flatten hVariable, wordCmp_idTail]
  rw [← hTake] at hAgrees'
  rw [wordsCmp_variableWords hAgrees hAgrees']

theorem latest_cons (entries : List (Bytes × Bytes)) (key value name : Bytes) :
    latest ((key, value) :: entries) name = (latest entries name).or (if name = key then some value else none) := by
  unfold latest
  rw [reverse_cons, lookup_append]
  by_cases hName : name = key
  · simp [hName]
  · have hFalse : (name == key) = false := by simpa using hName
    simp [List.lookup, hFalse, hName]

theorem latest_zip_none {names : List Bytes} {name : Bytes} (hName : name ∉ names) (as : List Bytes) :
    latest (names.zip as) name = none := by
  unfold latest
  rw [lookup_eq_none_iff]
  rintro ⟨a, w⟩ hMem
  have hNames := (of_mem_zip (mem_reverse.mp hMem)).1
  rw [bne_iff_ne]
  rintro rfl
  exact hName hNames

theorem latest_variableWords (hLength : as.length = order.length)
    (hUnique : ((order.filter fun c => (fixed c.field).isNone).map OrderField.field).Nodup) :
    Forall₂ (fun c w => latest ((order.map OrderField.field).zip as) c.field = some w)
      (order.filter fun c => (fixed c.field).isNone) (variableWords fixed order as) := by
  induction order generalizing as with
  | nil => exact .nil
  | cons c order ih =>
    cases as with
    | nil => simp at hLength
    | cons a as =>
      have hTail : as.length = order.length := by simpa using hLength
      simp only [map_cons, zip_cons_cons, variableWords, latest_cons]
      cases hFixed : fixed c.field with
      | some v =>
        rw [filter_cons_of_neg (by simp [hFixed])] at hUnique ⊢
        refine (ih hTail hUnique).imp fun c' w hw => ?_
        rw [hw, some_or]
      | none =>
        rw [filter_cons_of_pos (by simp [hFixed])] at hUnique ⊢
        rw [map_cons, nodup_cons] at hUnique
        refine .cons ?_ ((ih hTail hUnique.2).imp fun c' w hw => by rw [hw, some_or])
        have hFresh : c.field ∉ order.map OrderField.field := by
          intro hMem
          obtain ⟨c', hc', hName⟩ := List.mem_map.mp hMem
          refine hUnique.1 (List.mem_map.mpr ⟨c', mem_filter.mpr ⟨hc', ?_⟩, hName⟩)
          rw [hName, hFixed]
          rfl
        rw [latest_zip_none hFresh]
        simp

theorem postingWords_ok {last : Bytes} {rs : List Bytes} (h : Forall₂ (fun f w => postingWord named last f = .ok w) fields rs) :
    postingWords named last fields = .ok rs := by
  induction h with
  | nil => rfl
  | cons hHead _ ih => simp [postingWords, hHead, ih, Except.bind, Except.map]

theorem postingWord_found {last w : Bytes} (h : latest named f.field = some w) : postingWord named last f = .ok w := by
  simp only [postingWord, h]

theorem postingWords_rest {vs : List Bytes} {last : Bytes}
    (hWords : Forall₂ (fun c w => latest named c.field = some w) (remainingFields fields) vs)
    (hLast : (fields.map TemplateField.orderField).getLast? = some ⟨idField, .asc⟩ → latest named idField = none) :
    ∃ rs, postingWords named last fields = .ok rs ∧ rs.flatten ++ last = vs.flatten ++ lastTail fields last := by
  rw [remainingFields_eq] at hWords
  unfold lastTail
  split at hWords
  · rename_i hEnds
    have hAll : Forall₂ (fun c w => postingWord named last c = .ok w) fields (vs ++ [last]) := by
      obtain ⟨front, f, rfl⟩ := (eq_nil_or_concat' fields).resolve_left (by rintro rfl; simp at hEnds)
      simp only [map_append, map_cons, map_nil, getLast?_append, getLast?_singleton,
        some_or, some.injEq, dropLast_concat] at hEnds hWords
      refine rel_append ((forall₂_map_left_iff.mp hWords).imp fun g w hw => postingWord_found hw) (.cons ?_ .nil)
      have hField : f.field = idField := congrArg OrderField.field hEnds
      simp only [postingWord, hField, hLast (by simp [hEnds]), if_true]
    refine ⟨_, postingWords_ok hAll, ?_⟩
    rw [if_pos hEnds]
    simp
  · rename_i hEnds
    refine ⟨vs, postingWords_ok ((forall₂_map_left_iff.mp hWords).imp fun g w hw => postingWord_found hw), ?_⟩
    rw [if_neg hEnds]

theorem remainingFields_sublist (fields : List TemplateField) :
    (remainingFields fields).Sublist (fields.map TemplateField.orderField) := by
  rw [remainingFields_eq]
  split
  · exact dropLast_sublist _
  · exact Sublist.refl _

theorem drop_names_nodup (hFields : ValidFields t.fields) :
    (((t.fields.drop k).map TemplateField.orderField).map OrderField.field).Nodup := by
  rw [List.map_map]
  exact hFields.unique.sublist ((drop_sublist k t.fields).map _)

theorem Compiled.id_fresh (h : Compiled t filters orderBy m k) (hFields : ValidFields t.fields)
    (hEnds : ((t.fields.drop k).map TemplateField.orderField).getLast? = some ⟨idField, .asc⟩) :
    idField ∉ (orderComponents m.effectiveOrder).map OrderField.field := by
  have hNames := drop_names_nodup (k := k) hFields
  have hSplit := dropLast_append_getLast? _ hEnds
  intro hMem
  obtain ⟨c, hc, hName⟩ := List.mem_map.mp hMem
  by_cases hFixed : c.field ∈ (t.fields.take k).map TemplateField.field
  · -- The template would name the ID twice, before and after the fixed fields.
    have hUnique := hFields.unique
    rw [← take_append_drop k t.fields, map_append] at hUnique
    have hLater : idField ∈ (t.fields.drop k).map TemplateField.field := by
      obtain ⟨f, hf, hEq⟩ := List.mem_map.mp (mem_of_getLast? hEnds)
      exact List.mem_map.mpr ⟨f, hf, congrArg OrderField.field hEq⟩
    exact disjoint_of_nodup_append hUnique (hName ▸ hFixed) hLater
  · have hRemaining : c ∈ remainingFields (t.fields.drop k) := by
      rw [← h.variableOrder]
      exact mem_filter.mpr ⟨hc, by simpa using hFixed⟩
    rw [remainingFields_eq, if_pos hEnds] at hRemaining
    rw [← hSplit, map_append] at hNames
    exact disjoint_of_nodup_append hNames (List.mem_map.mpr ⟨c, hRemaining, hName⟩) (by simp)

variable {b : CandidateBranch} {i : Nat}

theorem Compiled.postingKey_boundary (h : Compiled t filters orderBy m k) (hFields : ValidFields t.fields)
    (hBoundary : Boundary m position as last) (hb : m.branches[i]? = some b) {fixed : List Bytes}
    (hLength : fixed.length = (t.fields.take k).length) :
    m.postingKey position i = .ok (b.fixedPrefix ++
      ((variableWords (fixedWords t fixed) (orderComponents m.effectiveOrder) as).flatten ++
        lastTail (t.fields.drop k) last)) := by
  have hEq := h.variable_eq hFields hLength
  have hUnique : ((remainingFields (t.fields.drop k)).map OrderField.field).Nodup :=
    (drop_names_nodup hFields).sublist ((remainingFields_sublist _).map _)
  have hVariable := @latest_variableWords (fixedWords t fixed) _ _ hBoundary.length (by rwa [hEq])
  rw [hEq] at hVariable
  obtain ⟨rs, hrs, hFlatten⟩ := @postingWords_rest _ _ _ last hVariable
    fun hEnds => latest_zip_none (h.id_fresh hFields hEnds) as
  have hZip : ((orderComponents m.effectiveOrder).map OrderField.field).zip (as ++ [last]) =
      ((orderComponents m.effectiveOrder).map OrderField.field).zip as :=
    zip_append_of_length_eq (by rw [length_map, hBoundary.length]) _
  have hCount : (as ++ [last]).length = (orderComponents m.effectiveOrder).length + 1 := by
    rw [length_append, hBoundary.length, length_singleton]
  rw [← hFlatten]
  simp only [CandidateMetadata.postingKey, hb, hBoundary.parts, Except.mapError, Except.bind, hCount, ne_eq, not_true,
    if_false, getLast?_append, getLast?_singleton, some_or, getD_some, h.template, hZip,
    (h.branches b (mem_of_getElem? hb)).1, hrs, Except.map, append_assoc]

theorem tupleParts_flatten (hWords : TupleWords (t.fields.take k) ws) : tupleParts (version :: ws.flatten) = .ok ws := by
  exact readWords_flatten hWords.isWord le_rfl

theorem Compiled.scanOptions_spec (h : Compiled t filters orderBy m k) (hb : m.branches[i]? = some b)
    (hFields : ValidFields t.fields) (hAfter : Boundary m position as last) :
    ∃ opts, m.scanOptions i position = .ok opts ∧ (∀ key, opts.Mem key → b.Mem key) ∧
      ∀ doc id member words ws, Row t doc id member words →
        OrderWords doc id (orderComponents m.effectiveOrder) ws → b.Mem (tupleKey words id) →
          (opts.Mem (tupleKey words id) ↔ position < tupleKey ws id) := by
  obtain ⟨-, fixed, hFixed, hPrefix, hContains⟩ := h.branches b (mem_of_getElem? hb)
  have hFixedLength : fixed.length = (t.fields.take k).length := (Forall₂.length_eq hFixed).symm
  have hCount : (as ++ [last]).length = (orderComponents m.effectiveOrder).length + 1 := by
    rw [length_append, hAfter.length, length_singleton]
  have hZip : (orderComponents m.effectiveOrder).zip (as ++ [last]) = (orderComponents m.effectiveOrder).zip as :=
    zip_append_of_length_eq hAfter.length.symm _
  have hOptions : m.scanOptions i position =
      match scanSeek (fixedWords t fixed) ((orderComponents m.effectiveOrder).zip as) b.fixedPrefix with
      | some none => .ok ⟨b.upper.getD [], b.upper, none⟩
      | some (some seek) => .ok ⟨if b.lower < seek then seek else b.lower, b.upper, none⟩
      | none => (m.postingKey position i).map fun key => ⟨b.lower, b.upper, some key⟩ := by
    have hNonempty : position ≠ [] := by simp [hAfter.key]
    simp only [CandidateMetadata.scanOptions, hb, hNonempty, if_false, hAfter.parts, Except.mapError, Except.bind, hCount,
      ne_eq, not_true, hPrefix, tupleParts_flatten hFixed, h.template, hZip, fixedWords]
  have hRowIn : ∀ doc id member words ws, Row t doc id member words →
      OrderWords doc id (orderComponents m.effectiveOrder) ws → b.Mem (tupleKey words id) →
      Agrees (fixedWords t fixed) (orderComponents m.effectiveOrder) ws ∧ tupleKey words id = b.fixedPrefix ++
        ((variableWords (fixedWords t fixed) (orderComponents m.effectiveOrder) ws).flatten ++
          idTail (t.fields.drop k) id) := by
    intro doc id member words ws hRow hWords hMem
    have hStarts := hContains _ hMem
    rw [hPrefix] at hStarts
    rw [hPrefix, (prefix_tupleKey_iff (hRow.words.tupleWords hFields) hFixed id).mp hStarts]
    exact ⟨hRow.agrees h.found hWords, h.key_split hRow hWords⟩
  have hVersion : version ∈ b.fixedPrefix := by simp [hPrefix]
  rw [hOptions]
  cases hSeek : scanSeek (fixedWords t fixed) ((orderComponents m.effectiveOrder).zip as) b.fixedPrefix with
  | some bound =>
    obtain ⟨lower, rfl⟩ : ∃ lower, bound = some lower := by
      obtain ⟨x, rfl | rfl⟩ := scanSeek_shape hSeek
      · exact ⟨_, rfl⟩
      · exact exists_prefixSuccessor hVersion x
    refine ⟨_, rfl, ?_, ?_⟩
    · rintro key ⟨hLower, hUpper, -⟩
      exact ⟨((not_lt_max_iff _ _ _).mp hLower).1, hUpper⟩
    · intro doc id member words ws hRow hWords hMem
      obtain ⟨hAgrees, hKey⟩ := hRowIn doc id member words ws hRow hWords hMem
      obtain ⟨lower', hLower', hNe, hIff⟩ := scanSeek_spec (idTail (t.fields.drop k) id) hVersion hAgrees
        (hWords.boundary.comparable hAfter) hSeek
      cases hLower'
      have hPosition : position < tupleKey ws id ↔ wordsCmp as ws = .lt := by
        rw [← wordCmp_eq_lt_iff, hAfter.wordCmp_eq hWords.boundary]
        cases hCmp : wordsCmp as ws <;> simp_all
      rw [hPosition, ← hIff, ← hKey]
      simp only [SearchOptions.Mem, not_lt_max_iff, reduceCtorEq, false_implies, implies_true, and_true]
      exact ⟨fun hAll => hAll.1.2, fun hLow => ⟨⟨hMem.1, hLow⟩, hMem.2⟩⟩
  | none =>
    have hAgrees' := scanSeek_none hAfter.length.symm hSeek
    rw [h.postingKey_boundary hFields hAfter hb hFixedLength]
    refine ⟨_, rfl, fun key hMem => ⟨hMem.1, hMem.2.1⟩, ?_⟩
    intro doc id member words ws hRow hWords hMem
    obtain ⟨hAgrees, hKey⟩ := hRowIn doc id member words ws hRow hWords hMem
    have hVariable := forall₂_variableWords (hAfter.comparable hWords.boundary) (fixedWords t fixed)
      (orderComponents m.effectiveOrder)
    have hCmp : position < tupleKey ws id ↔ b.fixedPrefix ++
        ((variableWords (fixedWords t fixed) (orderComponents m.effectiveOrder) as).flatten ++
          lastTail (t.fields.drop k) last) < tupleKey words id := by
      rw [← wordCmp_eq_lt_iff, ← wordCmp_eq_lt_iff, hAfter.wordCmp_eq hWords.boundary, hKey, wordCmp_append_left,
        wordCmp_flatten hVariable, idTail_eq, wordCmp_lastTail _ (hAfter.isPart.2.comparable (isWord_idWord id).isPart),
        wordsCmp_variableWords hAgrees' hAgrees]
    rw [hCmp]
    simp only [SearchOptions.Mem, some.injEq, forall_eq']
    exact ⟨fun hAll => hAll.2.2, fun hGt => ⟨hMem.1, hMem.2, hGt⟩⟩

end Plan

end Syntrix.Index
