import Syntrix.Lib.JsonCodec
import Syntrix.Lib.Strings

/-! # Records as JSON objects

A record is written member by member in the order of its fields, some of them left out when they are empty, and read
by storing the members of an object one after the other in a record that is empty at first.
-/
namespace Syntrix.Lib.Json

open Strings List Option

variable {σ α : Type}

/-- How the values of a field are written, and what a text makes of the value the field had before. -/
structure ValueCodec (α : Type) where
  write : α → Tree
  read : α → Tree → Option α

structure RecordField (σ : Type) where
  name : Bytes
  write : σ → Option Tree
  read : σ → Tree → Option σ

section Values

def stringCodec : ValueCodec Bytes where
  write := .string
  read
    | old, .null => some old
    | _, .string s => some s
    | _, _ => none

def boolCodec : ValueCodec Bool where
  write := .bool
  read
    | old, .null => some old
    | _, .bool b => some b
    | _, _ => none

def numberCodec (format : α → Bytes) (parse : Bytes → Option α) : ValueCodec α where
  write v := .number (format v)
  read
    | old, .null => some old
    | _, .number token => parse token
    | _, _ => none

def rawCodec : ValueCodec (Option Tree) where
  write t := t.getD .null
  read _ t := some (some t)

def optionCodec (zero : α) (codec : ValueCodec α) : ValueCodec (Option α) where
  write
    | none => .null
    | some v => codec.write v
  read
    | _, .null => some none
    | old, t => (codec.read (old.getD zero) t).map some

def listCodec (zero : α) (codec : ValueCodec α) : ValueCodec (List α) where
  write vs := .array (vs.map codec.write)
  read
    | _, .null => some []
    | _, .array items => items.mapM (codec.read zero)
    | _, _ => none

end Values

section Records

def field (name : Bytes) (codec : ValueCodec α) (get : σ → α) (set : σ → α → σ) ( omitted : α → Bool) : RecordField σ where
  name := name
  write s := if omitted (get s) then none else some (codec.write (get s))
  read s t := (codec.read (get s) t).map (set s)

def always (_ : α) : Bool := false

def sameName (name key : Bytes) : Bool := decide (key.map lowerByte = name.map lowerByte)

def members (fields : List (RecordField σ)) (s : σ) : List (Bytes × Tree) :=
  fields.filterMap fun f => (f.write s).map fun t => (f.name, t)

def storeMember (fields : List (RecordField σ)) (s : σ) (m : Bytes × Tree) : Option σ :=
  match fields.find? fun f => sameName f.name m.1 with
  | none => some s
  | some f => f.read s m.2

def recordCodec (fields : List (RecordField σ)) : ValueCodec σ where
  write s := .object (members fields s)
  read
    | old, .null => some old
    | old, .object ms => ms.foldlM (storeMember fields) old
    | _, _ => none

end Records

section RoundTrip

def ValueCodec.Keeps (codec : ValueCodec α) (v : α) : Prop := ∀ old, codec.read old (codec.write v) = some v

def RecordField.Copies (f : RecordField σ) (s old new : σ) : Prop :=
  match f.write s with
  | none => old = new
  | some t => f.read old t = some new

def Copied : List (RecordField σ) → σ → σ → σ → Prop
  | [], _, old, new => old = new
  | f :: fields, s, old, new => ∃ mid, f.Copies s old mid ∧ Copied fields s mid new

variable {codec : ValueCodec α}

variable {old s : σ} {set : σ → α → σ} {get : σ → α} {name : Bytes}

theorem field_copies { omitted : α → Bool} (hKeeps : omitted (get s) = false → codec.Keeps (get s))
    (hOmitted : omitted (get s) = true → old = set old (get s)) :
    (field name codec get set omitted).Copies s old (set old (get s)) := by
  unfold RecordField.Copies field
  dsimp only
  cases h : omitted (get s) with
  | true => exact hOmitted h
  | false =>
    simp only [Bool.false_eq_true, if_false]
    rw [hKeeps h, map_some]

theorem always_copies (hKeeps : codec.Keeps (get s)) : (field name codec get set always).Copies s old (set old (get s)) :=
  field_copies (fun _ => hKeeps) fun h => absurd h Bool.false_ne_true

def RecordField.folded (f : RecordField σ) : Bytes := f.name.map lowerByte

variable {new : σ} {fields : List (RecordField σ)}

theorem foldlM_members {rest : List (RecordField σ)} (hNames : (fields.map RecordField.folded).Nodup) (hRest : rest ⊆ fields)
    (h : Copied rest s old new) : (members rest s).foldlM (storeMember fields) old = some new := by
  induction rest generalizing old with
  | nil => exact congrArg some h
  | cons f rest ih =>
    obtain ⟨mid, hCopies, hCopied⟩ := h
    have hTail := ih (subset_of_cons_subset hRest) hCopied
    have hFind : fields.find? (fun g => sameName g.name f.name) = some f := by
      obtain ⟨g, hg⟩ := isSome_iff_exists.mp (find?_isSome (p := fun g => sameName g.name f.name).mpr
        ⟨f, hRest mem_cons_self, decide_eq_true rfl⟩)
      have hName := find?_some hg
      have hSame : f.folded = g.folded := of_decide_eq_true hName
      rw [hg, inj_on_of_nodup_map hNames (hRest mem_cons_self) (mem_of_find?_eq_some hg) hSame]
    unfold RecordField.Copies at hCopies
    unfold members at hTail ⊢
    cases hWrite : f.write s with
    | none =>
      rw [hWrite] at hCopies
      rw [filterMap_cons_none (by rw [hWrite]; rfl), show old = mid from hCopies]
      exact hTail
    | some t =>
      rw [hWrite] at hCopies
      rw [filterMap_cons_some (by rw [hWrite]; rfl), foldlM_cons, storeMember, hFind]
      exact (congrArg (· >>= _) hCopies).trans hTail

theorem recordCodec_read (hNames : (fields.map RecordField.folded).Nodup) (h : Copied fields s old new) :
    (recordCodec fields).read old ((recordCodec fields).write s) = some new :=
  foldlM_members hNames (List.Subset.refl _) h

theorem stringCodec_keeps (s : Bytes) : stringCodec.Keeps s := fun _ => rfl

theorem numberCodec_keeps {format : α → Bytes} {parse : Bytes → Option α} {v : α} (h : parse (format v) = some v) :
    (numberCodec format parse).Keeps v := fun _ => h

theorem rawCodec_keeps (t : Tree) : rawCodec.Keeps (some t) := fun _ => rfl

theorem optionCodec_keeps {zero v : α} (h : codec.Keeps v) (hNull : codec.write v ≠ .null) :
    (optionCodec zero codec).Keeps (some v) := by
  intro old
  have hRead : (optionCodec zero codec).read old (codec.write v) = (codec.read (old.getD zero) (codec.write v)).map some := by
    cases hWrite : codec.write v with
    | null => exact absurd hWrite hNull
    | bool | number | string | array | object => rfl
  exact hRead.trans (congrArg (Option.map some) (h _))

theorem listCodec_keeps (zero : α) {vs : List α} (h : ∀ v ∈ vs, codec.Keeps v) : (listCodec zero codec).Keeps vs := by
  intro old
  change (vs.map codec.write).mapM (codec.read zero) = some vs
  induction vs with
  | nil => rfl
  | cons v vs ih =>
    obtain ⟨hv, hRest⟩ := forall_mem_cons.mp h
    rw [map_cons, mapM_cons, hv zero, ih hRest]
    rfl

end RoundTrip

section Shape

variable {fields : List (RecordField σ)} {s : σ} {n : Nat}

theorem forall_members {P : Bytes × Tree → Prop} :
    (∀ m ∈ members fields s, P m) ↔ ∀ f ∈ fields, ∀ t, f.write s = some t → P (f.name, t) := by
  simp only [members, mem_filterMap, map_eq_some_iff]
  constructor
  · intro h f hf t ht
    exact h _ ⟨f, hf, t, ht, rfl⟩
  · rintro h m ⟨f, hf, t, ht, rfl⟩
    exact h f hf t ht

variable {ms : List (Bytes × Tree)}

theorem membersValid_iff : MembersValid ms ↔ ∀ m ∈ ms, utf8Valid m.1 = true ∧ m.2.Valid := by
  induction ms with
  | nil => exact ⟨by simp, fun _ => .nil⟩
  | cons m ms ih =>
    rw [forall_mem_cons, ← ih]
    constructor
    · rintro (_ | ⟨hKey, hv, hRest⟩)
      exact ⟨⟨hKey, hv⟩, hRest⟩
    · rintro ⟨⟨hKey, hv⟩, hRest⟩
      exact .cons hKey hv hRest

theorem membersDepth_le_iff : membersDepth ms ≤ n ↔ ∀ m ∈ ms, m.2.depth ≤ n := by
  induction ms with
  | nil => simp [membersDepth]
  | cons m ms ih => rw [membersDepth, max_le_iff, ih, forall_mem_cons]

variable {f : α → Tree} {vs : List α}

theorem itemsValid_map (h : ∀ v ∈ vs, (f v).Valid) : ItemsValid (vs.map f) := by
  induction vs with
  | nil => exact .nil
  | cons v vs ih =>
    obtain ⟨hv, hRest⟩ := forall_mem_cons.mp h
    exact .cons hv (ih hRest)

theorem itemsDepth_map_le (h : ∀ v, (f v).depth ≤ n) : itemsDepth (vs.map f) ≤ n := by
  induction vs with
  | nil => exact Nat.zero_le n
  | cons v vs ih => exact max_le (h v) ih

theorem forall_mem_nil {β : Type} {P : β → Prop} : (∀ x ∈ ([] : List β), P x) ↔ True := by simp

theorem forall_write {P : Tree → Prop} {name : Bytes} {codec : ValueCodec α} {get : σ → α} {set : σ → α → σ}
    { omitted : α → Bool} : (∀ t, (field name codec get set omitted).write s = some t → P t) ↔
      (omitted (get s) = false → P (codec.write (get s))) := by
  change (∀ t, (if omitted (get s) = true then none else some (codec.write (get s))) = some t → P t) ↔ _
  cases omitted (get s) <;> simp

theorem record_valid (hNames : ∀ f ∈ fields, utf8Valid f.name = true)
    (h : ∀ f ∈ fields, ∀ t, f.write s = some t → t.Valid) : ((recordCodec fields).write s).Valid :=
  .object (membersValid_iff.mpr (forall_members.mpr fun f hf t ht => ⟨hNames f hf, h f hf t ht⟩))

theorem record_depth : ((recordCodec fields).write s).depth ≤ n + 1 ↔ ∀ f ∈ fields, ∀ t, f.write s = some t → t.depth ≤ n :=
  Nat.succ_le_succ_iff.trans (membersDepth_le_iff.trans forall_members)

theorem members_append {fields' : List (RecordField σ)} :
    members (fields ++ fields') s = members fields s ++ members fields' s := filterMap_append

def memberLength (m : Bytes × Tree) : Nat := (render (.string m.1)).length + (render m.2).length + 2

theorem memberPieces_length (ms : List (Bytes × Tree)) : (textOf (memberPieces ms)).length = (ms.map memberLength).sum + 1 := by
  induction ms with
  | nil => rfl
  | cons m ms ih =>
    simp only [memberPieces, textOf_cons_other, textOf_cons_string, textOf_append, length_cons, length_append, ih,
      map_cons, sum_cons, memberLength, render, pieces, textOf_nil, length_nil]
    omega

theorem render_object_length (h : ms ≠ []) : (render (.object ms)).length = (ms.map memberLength).sum + 1 := by
  cases ms with
  | nil => exact absurd rfl h
  | cons m ms =>
    obtain ⟨key, v⟩ := m
    -- the first member stands after the brace as the others do after their commas
    exact (congrArg List.length (show textOf (pieces (.object ((key, v) :: ms))) = 0x7B :: _ from rfl)).trans
      (memberPieces_length ((key, v) :: ms))

end Shape

end Syntrix.Lib.Json
