import Syntrix.Lib.Bytes

/-! # Functions on byte strings

Searching, cutting, splitting and replacing in byte strings, in the manner of a string library: matches
are taken from the left and do not overlap.
-/
namespace Syntrix.Lib.Strings

open List

def lowerByte (b : Byte) : Byte := if 0x41 ≤ b ∧ b ≤ 0x5A then b + 0x20 else b

def trimPrefix (s start : Bytes) : Bytes := if start.isPrefixOf s then s.drop start.length else s

def trimSuffix (s ending : Bytes) : Bytes := if ending.isSuffixOf s then s.take (s.length - ending.length) else s

/-- What stands before and after the first occurrence of a separator. -/
def cut (sep : Bytes) : Bytes → Option (Bytes × Bytes)
  | [] => if sep = [] then some ([], []) else none
  | b :: s =>
    if sep.isPrefixOf (b :: s) then some ([], (b :: s).drop sep.length)
    else (cut sep s).map fun x => (b :: x.1, x.2)

def contains (s sub : Bytes) : Bool := (cut sub s).isSome

/-- Split at every occurrence of a nonempty separator; every piece takes at least one byte of the rest. -/
def splitLoop (sep : Bytes) : Nat → Bytes → List Bytes
  | 0, s => [s]
  | fuel + 1, s =>
    match cut sep s with
    | none => [s]
    | some (before, after) => before :: splitLoop sep fuel after

def split (s sep : Bytes) : List Bytes := splitLoop sep s.length s

def replaceAll (s old new : Bytes) : Bytes := new.intercalate (split s old)

def spaces : List Bytes :=
  [[0x09], [0x0A], [0x0B], [0x0C], [0x0D], [0x20], [0xC2, 0x85], [0xC2, 0xA0], [0xE1, 0x9A, 0x80],
    [0xE2, 0x80, 0x80], [0xE2, 0x80, 0x81], [0xE2, 0x80, 0x82], [0xE2, 0x80, 0x83], [0xE2, 0x80, 0x84], [0xE2, 0x80, 0x85],
    [0xE2, 0x80, 0x86], [0xE2, 0x80, 0x87], [0xE2, 0x80, 0x88], [0xE2, 0x80, 0x89], [0xE2, 0x80, 0x8A], [0xE2, 0x80, 0xA8],
    [0xE2, 0x80, 0xA9], [0xE2, 0x80, 0xAF], [0xE2, 0x81, 0x9F], [0xE3, 0x80, 0x80]]

def trimLeftLoop : Nat → Bytes → Bytes
  | 0, s => s
  | fuel + 1, s =>
    match spaces.find? (fun space => space.isPrefixOf s) with
    | none => s
    | some space => trimLeftLoop fuel (s.drop space.length)

def trimRightLoop : Nat → Bytes → Bytes
  | 0, s => s
  | fuel + 1, s =>
    match spaces.find? (fun space => space.isSuffixOf s) with
    | none => s
    | some space => trimRightLoop fuel (s.take (s.length - space.length))

def trimSpace (s : Bytes) : Bytes :=
  let rest := trimLeftLoop s.length s
  trimRightLoop rest.length rest

def hexDigits : Bytes := text "0123456789abcdef"

def hexString (s : Bytes) : Bytes := s.flatMap fun b => [hexDigits.getD (b.val / 16) 0, hexDigits.getD (b.val % 16) 0]

theorem hexDigits_injective : ∀ d < 16, ∀ d' < 16, hexDigits.getD d 0 = hexDigits.getD d' 0 → d = d' := by decide

theorem hexString_injective {s t : Bytes} (h : hexString s = hexString t) : s = t := by
  induction s generalizing t with
  | nil =>
    cases t with
    | nil => rfl
    | cons b t => cases h
  | cons b s ih =>
    cases t with
    | nil => cases h
    | cons b' t =>
      simp only [hexString, flatMap_cons, cons_append, nil_append, List.cons.injEq] at h
      obtain ⟨hHigh, hLow, hRest⟩ := h
      have hQuotient := hexDigits_injective _ (by omega) _ (by omega) hHigh
      have hRemainder := hexDigits_injective _ (by omega) _ (by omega) hLow
      rw [ih hRest, Fin.ext (show b.val = b'.val by omega)]

theorem notMem_of_mem_splitOn {α : Type} [BEq α] [LawfulBEq α] {x : α} {s part : List α} (h : part ∈ s.splitOn x) :
    x ∉ part := by
  unfold splitOn at h
  induction s generalizing part with
  | nil =>
    rw [splitOnP_nil, mem_singleton] at h
    rw [h]
    exact not_mem_nil
  | cons y s ih =>
    rw [splitOnP_cons_eq_if_modifyHead] at h
    split at h
    · obtain rfl | h := mem_cons.mp h
      · exact not_mem_nil
      · exact ih h
    · rename_i hOther
      cases hRest : splitOnP (fun b => b == x) s with
      | nil => exact absurd hRest (splitOnP_ne_nil _ _)
      | cons first rest =>
        rw [hRest, modifyHead_cons] at h
        obtain rfl | h := mem_cons.mp h
        · rw [mem_cons, not_or]
          refine ⟨fun hEq => hOther (by simp [hEq]), ih ?_⟩
          rw [hRest]
          exact mem_cons_self
        · refine ih ?_
          rw [hRest]
          exact mem_cons_of_mem _ h

theorem splitOn_ne_nil {α : Type} [BEq α] (x : α) (s : List α) : s.splitOn x ≠ [] := splitOnP_ne_nil _ _

end Syntrix.Lib.Strings
