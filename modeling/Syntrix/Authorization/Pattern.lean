import Syntrix.Lib.KeyValue
import Syntrix.Lib.Strings

/-! # Match patterns of security rules

A pattern is matched against the segments of a path: literals, variables for one segment and variables
for all remaining ones. A path may be longer than the pattern; what remains goes to nested patterns. The
paths a pattern matches depend only on its number of segments and on the literals before its first
variable for all remaining segments, so inclusion between patterns can be decided from their texts.
-/
namespace Syntrix.Authorization

open Lib OrderCode Strings Bool

abbrev Vars := KeyValue Byte Bytes

def slash : Byte := 0x2F

def parts (path : Bytes) : List Bytes := (trimPrefix path [slash]).splitOn slash

def isVariable (part : Bytes) : Bool := [0x7B].isPrefixOf part && [0x7D].isSuffixOf part

def variableName (part : Bytes) : Bytes := (part.drop 1).dropLast

def recursiveSuffix : Bytes := text "=**"

def isRecursive (part : Bytes) : Bool := isVariable part && recursiveSuffix.isSuffixOf (variableName part)

def joinParts (parts : List Bytes) : Bytes := [slash].intercalate parts

/-- The loop over the segments of the pattern; a variable for all remaining segments ends it. -/
def matchParts : List Bytes → List Bytes → Vars → Option (List Bytes × Vars)
  | [], rest, vars => some (rest, vars)
  | _ :: _, [], _ => none
  | pPart :: pattern, part :: path, vars =>
    if isVariable pPart then
      if isRecursive pPart then
        some ([], vars.insert (trimSuffix (variableName pPart) recursiveSuffix) (joinParts (part :: path)))
      else matchParts pattern path (vars.insert (variableName pPart) part)
    else if pPart ≠ part then none
    else matchParts pattern path vars

def matchPattern (pattern path : Bytes) : Option (Bytes × Vars) :=
  let patternParts := parts pattern
  let pathParts := parts path
  if pathParts.length < patternParts.length then none
  else (matchParts patternParts pathParts ∅).map fun x =>
    (if joinParts x.1 = [] then [] else slash :: joinParts x.1, x.2)

def Matches (pattern path : Bytes) : Prop := (matchPattern pattern path).isSome

instance (pattern path : Bytes) : Decidable (Matches pattern path) := inferInstanceAs (Decidable (_ = true))

def language (pattern : Bytes) : Set Bytes := {path | Matches pattern path}

section Shape

def shape : List Bytes → List (Option Bytes)
  | [] => []
  | part :: rest =>
    if isRecursive part then List.replicate (rest.length + 1) none
    else (if isVariable part then none else some part) :: shape rest

def Fits : List (Option Bytes) → List Bytes → Prop
  | [], _ => True
  | _ :: _, [] => False
  | literal :: shape, part :: path => (∀ a ∈ literal, a = part) ∧ Fits shape path

def covers : List (Option Bytes) → List (Option Bytes) → Bool
  | [], _ => true
  | _ :: _, [] => false
  | literal :: general, literal' :: special => (literal.isNone || decide (literal = literal')) && covers general special

variable {path : List Bytes}

theorem fits_length {literals : List (Option Bytes)} (h : Fits literals path) : literals.length ≤ path.length := by
  induction literals generalizing path with
  | nil => exact Nat.zero_le _
  | cons literal literals ih =>
    cases path with
    | nil => exact h.elim
    | cons part path => exact Nat.succ_le_succ (ih h.2)

theorem fits_replicate {n : Nat} (h : n ≤ path.length) : Fits (List.replicate n none) path := by
  induction n generalizing path with
  | zero => trivial
  | succ n ih =>
    cases path with
    | nil => cases h
    | cons part path => exact ⟨fun a ha => (by cases ha), ih (Nat.le_of_succ_le_succ h)⟩

theorem matchParts_isSome_iff {pattern : List Bytes} {vars : Vars} (hLength : pattern.length ≤ path.length) :
    (matchParts pattern path vars).isSome ↔ Fits (shape pattern) path := by
  induction pattern generalizing path vars with
  | nil => simp [matchParts, shape, Fits]
  | cons pPart pattern ih =>
    cases path with
    | nil => cases hLength
    | cons part path =>
      have hRest : pattern.length ≤ path.length := Nat.le_of_succ_le_succ hLength
      rw [matchParts, shape]
      cases hVariable : isVariable pPart with
      | true =>
        cases hRecursive : isRecursive pPart with
        | true => simpa using fits_replicate hLength
        | false => simp [Fits, ih hRest]
      | false =>
        have hRecursive : isRecursive pPart = false := by simp [isRecursive, hVariable]
        rw [hRecursive]
        by_cases hPart : pPart = part
        · simp [Fits, hPart, ih hRest]
        · simp [Fits, hPart]

theorem shape_length (pattern : List Bytes) : (shape pattern).length = pattern.length := by
  induction pattern with
  | nil => rfl
  | cons part rest ih =>
    rw [shape]
    split
    · simp
    · simp [ih]

theorem matches_iff {pattern path : Bytes} : Matches pattern path ↔ Fits (shape (parts pattern)) (parts path) := by
  unfold Matches matchPattern
  simp only
  split
  · refine iff_of_false (by simp) fun hFits => ?_
    have hLength := fits_length hFits
    rw [shape_length] at hLength
    omega
  · rename_i hLength
    rw [Option.isSome_map]
    exact matchParts_isSome_iff (not_lt.mp hLength)

variable {general special : List (Option Bytes)}

theorem covers_fits (h : covers general special = true) (hFits : Fits special path) : Fits general path := by
  induction general generalizing special path with
  | nil => trivial
  | cons literal general ih =>
    cases special with
    | nil => cases h
    | cons literal' special =>
      rw [covers, and_eq_true, or_eq_true, Option.isNone_iff_eq_none, decide_eq_true_eq] at h
      obtain ⟨hLiteral, hRest⟩ := h
      cases path with
      | nil => exact hFits.elim
      | cons part path =>
        refine ⟨?_, ih hRest hFits.2⟩
        obtain rfl | rfl := hLiteral
        · exact fun a ha => (by cases ha)
        · exact hFits.1

/-- A path of a shape whose free segments avoid the literals of another one. -/
def avoiding : List (Option Bytes) → List (Option Bytes) → List Bytes
  | [], _ => []
  | some a :: special, general => a :: avoiding special general.tail
  | none :: special, general => ((general.head?.join).elim [] fun a => a ++ [0]) :: avoiding special general.tail

theorem avoiding_fits (special general : List (Option Bytes)) : Fits special (avoiding special general) := by
  induction special generalizing general with
  | nil => trivial
  | cons literal special ih =>
    cases literal with
    | none => exact ⟨fun a ha => (by cases ha), ih _⟩
    | some a => exact ⟨fun b hb => (by cases hb; rfl), ih _⟩

theorem covers_of_fits_avoiding (h : Fits general (avoiding special general)) : covers general special = true := by
  induction general generalizing special with
  | nil => rfl
  | cons literal general ih =>
    cases special with
    | nil => exact h.elim
    | cons literal' special =>
      rw [covers, and_eq_true, or_eq_true, Option.isNone_iff_eq_none, decide_eq_true_eq]
      cases literal' with
      | none =>
        refine ⟨.inl ?_, ih h.2⟩
        cases literal with
        | none => rfl
        | some a =>
          have hEq : a = a ++ [0] := h.1 a rfl
          simp at hEq
      | some b =>
        refine ⟨?_, ih h.2⟩
        cases literal with
        | none => exact .inl rfl
        | some a => exact .inr (congrArg some (h.1 a rfl))

end Shape

section Language

theorem mem_shape {pattern : List Bytes} {a : Bytes} (h : some a ∈ shape pattern) : a ∈ pattern := by
  induction pattern with
  | nil => cases h
  | cons part rest ih =>
    rw [shape] at h
    split at h
    · simp at h
    obtain h | h := List.mem_cons.mp h
    · split at h
      · cases h
      · cases h
        exact List.mem_cons_self
    · exact List.mem_cons_of_mem _ (ih h)

variable {general special : List (Option Bytes)}

theorem avoiding_ne_nil (h : special ≠ []) : avoiding special general ≠ [] := by
  cases special with
  | nil => exact absurd rfl h
  | cons literal special => cases literal <;> simp [avoiding]

theorem slash_notMem_avoiding (hSpecial : ∀ a, some a ∈ special → slash ∉ a) (hGeneral : ∀ a, some a ∈ general → slash ∉ a) :
    ∀ part ∈ avoiding special general, slash ∉ part := by
  induction special generalizing general with
  | nil => exact fun part h => (by cases h)
  | cons literal special ih =>
    have hTail : ∀ a, some a ∈ general.tail → slash ∉ a := fun a ha => hGeneral a (List.mem_of_mem_tail ha)
    have hRest := ih (fun a ha => hSpecial a (List.mem_cons_of_mem _ ha)) hTail
    intro part hPart
    cases literal with
    | some a =>
      obtain rfl | hPart := List.mem_cons.mp hPart
      · exact hSpecial part List.mem_cons_self
      · exact hRest part hPart
    | none =>
      obtain rfl | hPart := List.mem_cons.mp hPart
      · cases general with
        | nil => exact List.not_mem_nil
        | cons literal' general =>
          cases literal' with
          | none => exact List.not_mem_nil
          | some a =>
            have hFree := hGeneral a List.mem_cons_self
            simpa [slash] using hFree
      · exact hRest part hPart

theorem parts_join {path : List Bytes} (hNonempty : path ≠ []) (hFree : ∀ part ∈ path, slash ∉ part) :
    parts (slash :: joinParts path) = path := by
  have hTrim : trimPrefix (slash :: joinParts path) [slash] = joinParts path := by
    simp [trimPrefix]
  rw [parts, hTrim, joinParts, List.splitOn_intercalate slash hFree hNonempty]

variable {general special : Bytes}

theorem language_subset_iff :
    language special ⊆ language general ↔ covers (shape (parts general)) (shape (parts special)) = true := by
  constructor
  · intro hSubset
    have hNonempty : shape (parts special) ≠ [] := by
      intro hNil
      have hLength := shape_length (parts special)
      rw [hNil] at hLength
      exact splitOn_ne_nil _ _ (List.eq_nil_of_length_eq_zero hLength.symm)
    have hFree : ∀ part ∈ avoiding (shape (parts special)) (shape (parts general)), slash ∉ part :=
      slash_notMem_avoiding (fun a ha => notMem_of_mem_splitOn (mem_shape ha)) fun a ha => notMem_of_mem_splitOn (mem_shape ha)
    have hParts := parts_join (avoiding_ne_nil hNonempty) hFree
    have hMember : slash :: joinParts (avoiding (shape (parts special)) (shape (parts general))) ∈ language special := by
      refine matches_iff.mpr ?_
      rw [hParts]
      exact avoiding_fits _ _
    have hFits := matches_iff.mp (hSubset hMember)
    rw [hParts] at hFits
    exact covers_of_fits_avoiding hFits
  · intro hCovers path hPath
    exact matches_iff.mpr (covers_fits hCovers (matches_iff.mp hPath))

/-- Whether a pattern matches strictly fewer paths than another one. -/
def narrower (special general : Bytes) : Bool :=
  covers (shape (parts general)) (shape (parts special)) && !covers (shape (parts special)) (shape (parts general))

theorem narrower_iff : narrower special general = true ↔ language special ⊂ language general := by
  rw [narrower, and_eq_true, not_eq_true', ← language_subset_iff, ← not_eq_true, ← language_subset_iff]
  exact Iff.rfl

end Language

end Syntrix.Authorization
