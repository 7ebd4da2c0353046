import Syntrix.Lib.Bytes
import Syntrix.Lib.Lists

/-! # Decimal numerals

Numerals of a fixed width are ordered as their numbers. A numeral without leading zeros, padded to
the width, is the numeral of that width.
-/
namespace Syntrix.Lib

open OrderCode List Nat

def digit (d : Nat) : Byte := Fin.ofNat 256 (0x30 + d)

def isDigit (b : Byte) : Bool := decide (0x30 ≤ b) && decide (b ≤ 0x39)

theorem digit_val {d : Nat} (hd : d < 10) : (digit d).val = 0x30 + d := by
  rw [digit, Fin.val_ofNat, mod_eq_of_lt]
  omega

theorem isDigit_digit {d : Nat} (hd : d < 10) : isDigit (digit d) = true := by
  have hv := digit_val hd
  simp only [isDigit, Bool.and_eq_true, decide_eq_true_eq, Fin.le_def]
  constructor
  · omega
  · omega

theorem cmp_digit {a b : Nat} (ha : a < 10) (hb : b < 10) : cmp (digit a) (digit b) = cmp a b := by
  have hva := digit_val ha
  have hvb := digit_val hb
  have hFin : cmp (digit a) (digit b) = cmp (digit a).val (digit b).val := rfl
  rw [hFin, hva, hvb]
  exact cmp_add_left 0x30 a b

def fixedDecimal : Nat → Nat → Bytes
  | 0, _ => []
  | width + 1, n => fixedDecimal width (n / 10) ++ [digit (n % 10)]

@[simp] theorem fixedDecimal_length (width n : Nat) : (fixedDecimal width n).length = width := by
  induction width generalizing n with
  | zero => rfl
  | succ width ih => rw [fixedDecimal, length_append, ih, length_singleton]

variable {width n : Nat}

theorem fixedDecimal_isDigit : ∀ b ∈ fixedDecimal width n, isDigit b = true := by
  induction width generalizing n with
  | zero => exact fun b hb => (by cases hb)
  | succ width ih =>
    exact forall_mem_push ih (isDigit_digit (mod_lt n (by decide)))

theorem wordCmp_fixedDecimal {width a b : Nat} (ha : a < 10 ^ width) (hb : b < 10 ^ width) :
    wordCmp (fixedDecimal width a) (fixedDecimal width b) = cmp a b := by
  induction width generalizing a b with
  | zero =>
    have ha0 : a = 0 := by simpa using ha
    have hb0 : b = 0 := by simpa using hb
    rw [ha0, hb0]
    rfl
  | succ width ih =>
    have hDiv : ∀ n, n < 10 ^ (width + 1) → n / 10 < 10 ^ width := by
      intro n hn
      apply Nat.div_lt_of_lt_mul
      rwa [Nat.mul_comm, ← Nat.pow_succ]
    have hMod : ∀ n : Nat, n % 10 < 10 := fun n => mod_lt n (by decide)
    rw [fixedDecimal, fixedDecimal, wordCmp_append_of_length_eq (by simp), ih (hDiv a ha) (hDiv b hb), wordCmp_cons_cons,
      cmp_digit (hMod a) (hMod b), wordCmp_self, Ordering.then_eq, ← cmp_add_mul_of_lt (hMod a) (hMod b),
      div_add_mod, div_add_mod]

/-- The digits of a number written before a text, without leading zeros. -/
def decimalLoop : Nat → Nat → Bytes → Bytes
  | 0, _, acc => acc
  | fuel + 1, n, acc => if n = 0 then acc else decimalLoop fuel (n / 10) (digit (n % 10) :: acc)

theorem decimalLoop_append (fuel n : Nat) (acc : Bytes) : decimalLoop fuel n acc = decimalLoop fuel n [] ++ acc := by
  induction fuel generalizing n acc with
  | zero => rfl
  | succ fuel ih =>
    simp only [decimalLoop]
    split
    · rfl
    · rw [ih, ih (n / 10) [digit (n % 10)], append_assoc, singleton_append]

theorem fixedDecimal_zero (width : Nat) : fixedDecimal width 0 = replicate width (digit 0) := by
  induction width with
  | zero => rfl
  | succ width ih => rw [fixedDecimal, Nat.zero_div, ih, replicate_succ']

theorem fixedDecimal_eq_pad (width n : Nat) :
    ∃ zeros, fixedDecimal width n = replicate zeros (digit 0) ++ decimalLoop width n [] := by
  induction width generalizing n with
  | zero => exact ⟨0, rfl⟩
  | succ width ih =>
    simp only [decimalLoop]
    split
    · rename_i hn
      subst hn
      exact ⟨width + 1, by rw [fixedDecimal_zero, append_nil]⟩
    · obtain ⟨zeros, hZeros⟩ := ih (n / 10)
      exact ⟨zeros, by rw [fixedDecimal, hZeros, decimalLoop_append width (n / 10) [_], append_assoc]⟩

def parseDigits : Nat → Bytes → Option Nat
  | n, [] => some n
  | n, b :: rest => if isDigit b then parseDigits (10 * n + (b.val - 0x30)) rest else none

theorem parseDigits_append (n : Nat) (s t : Bytes) :
    parseDigits n (s ++ t) = (parseDigits n s).bind fun m => parseDigits m t := by
  induction s generalizing n with
  | nil => rfl
  | cons b s ih =>
    simp only [cons_append, parseDigits]
    split
    · exact ih _
    · rfl

theorem parseDigits_fixedDecimal (hn : n < 10 ^ width) : parseDigits 0 (fixedDecimal width n) = some n := by
  induction width generalizing n with
  | zero =>
    have hn0 : n = 0 := by simpa using hn
    rw [hn0]
    rfl
  | succ width ih =>
    have hDiv : n / 10 < 10 ^ width := by
      apply Nat.div_lt_of_lt_mul
      rwa [Nat.mul_comm, ← Nat.pow_succ]
    have hMod : n % 10 < 10 := mod_lt n (by decide)
    rw [fixedDecimal, parseDigits_append, ih hDiv, Option.bind_some, parseDigits, if_pos (isDigit_digit hMod), parseDigits,
      digit_val hMod]
    congr 1
    omega

theorem parseDigits_zeros (zeros : Nat) (s : Bytes) : parseDigits 0 (replicate zeros (digit 0) ++ s) = parseDigits 0 s := by
  induction zeros with
  | zero => rfl
  | succ zeros ih =>
    exact ih

theorem parseDigits_decimalLoop (hn : n < 10 ^ width) : parseDigits 0 (decimalLoop width n []) = some n := by
  obtain ⟨zeros, hPad⟩ := fixedDecimal_eq_pad width n
  rw [← parseDigits_zeros zeros, ← hPad, parseDigits_fixedDecimal hn]

theorem decimalLoop_isDigit : ∀ b ∈ decimalLoop width n [], isDigit b = true := by
  obtain ⟨zeros, hPad⟩ := fixedDecimal_eq_pad width n
  intro b hb
  have hMem : b ∈ fixedDecimal width n := hPad ▸ mem_append_right _ hb
  exact fixedDecimal_isDigit b hMem

theorem decimalLoop_head (hn : n < 10 ^ width) (hPos : n ≠ 0) : ∃ b rest, decimalLoop width n [] = b :: rest ∧ b ≠ 0x30 := by
  induction width generalizing n with
  | zero => exact absurd hn (by simpa using hPos)
  | succ width ih =>
    have hDiv : n / 10 < 10 ^ width := by
      omega
    rw [decimalLoop, if_neg hPos, decimalLoop_append]
    obtain hZero | hZero := eq_or_ne (n / 10) 0
    · have hEmpty : decimalLoop width 0 [] = [] := by cases width <;> rfl
      refine ⟨digit (n % 10), [], by rw [hZero, hEmpty]; rfl, ?_⟩
      intro hDigit
      have hValue := congrArg Fin.val hDigit
      rw [digit_val (by omega)] at hValue
      omega
    · obtain ⟨b, rest, hText, hb⟩ := ih hDiv hZero
      exact ⟨b, rest ++ [digit (n % 10)], by rw [hText, cons_append], hb⟩

end Syntrix.Lib
