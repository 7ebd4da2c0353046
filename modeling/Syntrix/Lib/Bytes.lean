import Syntrix.Lib.OrderCode

/-! # Byte strings

Bytes, their bitwise complement, fixed-width big-endian numerals, the smallest word past every
extension of a word, and validity of UTF-8 text. Byte strings are ordered lexicographically.
-/
namespace Syntrix.Lib

open OrderCode List Nat

abbrev Byte := Fin 256

abbrev Bytes := List Byte

-- named here once, as every literal and every membership test of bytes refers to them
instance neZero_byte : NeZero 256 := ⟨by decide⟩

instance lawfulBEq_byte : LawfulBEq Byte := inferInstance

instance lawfulBEq_bytes : LawfulBEq Bytes := inferInstance

def complement (b : Byte) : Byte := b.rev

theorem complement_strictAnti : StrictAnti complement := fun _ _ h => Fin.rev_lt_rev.mpr h

@[simp] theorem complement_complement (b : Byte) : complement (complement b) = b := Fin.rev_rev b

/-- The `width` low bytes of a number, the most significant first. -/
def bigEndian : Nat → Nat → Bytes
  | 0, _ => []
  | width + 1, n => Fin.ofNat 256 (n / 256 ^ width) :: bigEndian width n

@[simp] theorem bigEndian_length (width n : Nat) : (bigEndian width n).length = width := by
  induction width with
  | zero => rfl
  | succ width ih => rw [bigEndian, length_cons, ih]

theorem bigEndian_mod (width n : Nat) : bigEndian width (n % 256 ^ width) = bigEndian width n := by
  suffices h : ∀ m k, bigEndian width (m + 256 ^ width * k) = bigEndian width m by
    have hDiv := h (n % 256 ^ width) (n / 256 ^ width)
    rw [mod_add_div] at hDiv
    exact hDiv.symm
  intro m k
  induction width generalizing k with
  | zero => rfl
  | succ width ih =>
    have hDiv : (m + 256 ^ (width + 1) * k) / 256 ^ width = m / 256 ^ width + 256 * k := by
      rw [Nat.pow_succ, Nat.mul_assoc, Nat.add_mul_div_left _ _ (Nat.pow_pos (by decide))]
    have hTail : m + 256 ^ (width + 1) * k = m + 256 ^ width * (256 * k) := by
      rw [pow_succ, mul_assoc]
    have hHead : Fin.ofNat 256 (m / 256 ^ width + 256 * k) = Fin.ofNat 256 (m / 256 ^ width) := by
      simp [Fin.ofNat]
    rw [bigEndian, bigEndian, hDiv, hHead, hTail, ih]

theorem cmp_add_mul_of_lt {b qa qb ra rb : Nat} (ha : ra < b) (hb : rb < b) :
    cmp (b * qa + ra) (b * qb + rb) = (cmp qa qb).then (cmp ra rb) := by
  rcases lt_trichotomy qa qb with h | rfl | h
  · rw [(cmp_eq_lt_iff _ _).mpr h]
    refine (cmp_eq_lt_iff _ _).mpr ?_
    have hStep : b * (qa + 1) ≤ b * qb := mul_le_mul_left b h
    rw [mul_succ] at hStep
    omega
  · rw [cmp_self_eq_eq]
    change _ = cmp ra rb
    rcases lt_trichotomy ra rb with h | rfl | h
    · rw [(cmp_eq_lt_iff _ _).mpr h, cmp_eq_lt_iff]
      omega
    · rw [cmp_self_eq_eq, cmp_self_eq_eq]
    · rw [(cmp_eq_gt_iff _ _).mpr h, cmp_eq_gt_iff]
      omega
  · rw [(cmp_eq_gt_iff _ _).mpr h]
    refine (cmp_eq_gt_iff _ _).mpr ?_
    have hStep : b * (qb + 1) ≤ b * qa := mul_le_mul_left b h
    rw [mul_succ] at hStep
    omega

theorem wordCmp_bigEndian {width a b : Nat} (ha : a < 256 ^ width) (hb : b < 256 ^ width) :
    wordCmp (bigEndian width a) (bigEndian width b) = cmp a b := by
  induction width generalizing a b with
  | zero =>
    have ha0 : a = 0 := by simpa using ha
    have hb0 : b = 0 := by simpa using hb
    rw [ha0, hb0]
    rfl
  | succ width ih =>
    have hPos : 0 < 256 ^ width := Nat.pow_pos (by decide)
    have hDigit : ∀ n, n < 256 ^ (width + 1) → n / 256 ^ width < 256 := by
      intro n hn
      apply Nat.div_lt_of_lt_mul
      rwa [← Nat.pow_succ]
    have hHead : cmp (Fin.ofNat 256 (a / 256 ^ width)) (Fin.ofNat 256 (b / 256 ^ width)) =
        cmp (a / 256 ^ width) (b / 256 ^ width) := by
      have hFin : ∀ m n : Fin 256, cmp m n = cmp m.val n.val := fun m n => rfl
      rw [hFin]
      simp [Fin.ofNat, mod_eq_of_lt (hDigit a ha), mod_eq_of_lt (hDigit b hb)]
    have hTail := ih (mod_lt a hPos) (mod_lt b hPos)
    rw [bigEndian_mod, bigEndian_mod] at hTail
    rw [bigEndian, bigEndian, wordCmp_cons_cons, hHead, hTail,
      ← cmp_add_mul_of_lt (mod_lt a hPos) (mod_lt b hPos), div_add_mod, div_add_mod]

/-- The smallest word above every word that extends `prefix`; there is none when all bytes are 0xff. -/
def prefixSuccessor : Bytes → Option Bytes
  | [] => none
  | b :: rest =>
    match prefixSuccessor rest with
    | some next => some (b :: next)
    | none => if b = 255 then none else some [b + 1]

variable {a b : Byte}

theorem lt_add_one_iff (hb : b ≠ 255) : a < b + 1 ↔ a ≤ b := by
  have hVal : (b + 1).val = b.val + 1 := by
    rw [Fin.val_add_one]
    split
    · rename_i hLast
      exact absurd hLast hb
    · rfl
  rw [Fin.lt_def, Fin.le_def, hVal, Nat.lt_succ_iff]

variable {s t : Bytes}

theorem not_cons_lt_cons_iff : ¬ b :: t < a :: s ↔ a < b ∨ a = b ∧ ¬ t < s := by
  rw [cons_lt_cons_iff]
  rcases lt_trichotomy a b with h | rfl | h
  · simp [h, h.not_gt, h.ne']
  · simp
  · simp [h, h.not_gt, h.ne']

theorem prefix_iff_range (p k : Bytes) : p <+: k ↔ ¬ k < p ∧ ∀ s, prefixSuccessor p = some s → k < s := by
  induction p generalizing k with
  | nil => simp [prefixSuccessor]
  | cons b p ih =>
    cases k with
    | nil => simp
    | cons c k =>
      rw [cons_prefix_cons, not_cons_lt_cons_iff, prefixSuccessor]
      cases hNext : prefixSuccessor p with
      | some next =>
        have hTail := ih k
        rw [hNext] at hTail
        simp only [Option.some.injEq, forall_eq'] at hTail ⊢
        rw [cons_lt_cons_iff, hTail]
        constructor
        · rintro ⟨rfl, hle, hlt⟩
          exact ⟨.inr ⟨rfl, hle⟩, .inr ⟨rfl, hlt⟩⟩
        · rintro ⟨hlt | ⟨rfl, hle⟩, hlt' | ⟨hEq, hlt'⟩⟩
          · exact absurd (lt_trans hlt hlt') (lt_irrefl _)
          · exact absurd (hEq ▸ hlt) (lt_irrefl _)
          · exact absurd hlt' (lt_irrefl _)
          · exact ⟨rfl, hle, hlt'⟩
      | none =>
        have hTail := ih k
        rw [hNext] at hTail
        simp only [reduceCtorEq, false_imp_iff, implies_true, and_true] at hTail
        by_cases hb : b = 255
        · simp only [hb, if_true, reduceCtorEq, false_imp_iff, implies_true, and_true]
          rw [hTail]
          constructor
          · rintro ⟨rfl, hle⟩
            exact .inr ⟨rfl, hle⟩
          · rintro (hlt | ⟨rfl, hle⟩)
            · exact absurd (Fin.le_last c) (not_le_of_gt hlt)
            · exact ⟨rfl, hle⟩
        · simp only [hb, if_false, Option.some.injEq, forall_eq']
          rw [cons_lt_cons_iff, lt_add_one_iff hb, hTail]
          constructor
          · rintro ⟨rfl, hle⟩
            exact ⟨.inr ⟨rfl, hle⟩, .inl le_rfl⟩
          · rintro ⟨hlt | ⟨rfl, hle⟩, hcb⟩
            · rcases hcb with hcb | ⟨_, hNil⟩
              · exact absurd hcb (not_le_of_gt hlt)
              · exact absurd hNil (not_lt_nil _)
            · exact ⟨rfl, hle⟩

variable {b : Byte}

theorem prefixSuccessor_isSome {p : Bytes} (hb : b ≠ 255) (h : b ∈ p) : (prefixSuccessor p).isSome := by
  induction p with
  | nil => cases h
  | cons c p ih =>
    rw [prefixSuccessor]
    cases hNext : prefixSuccessor p with
    | some next => rfl
    | none =>
      rcases mem_cons.mp h with rfl | hMem
      · simp [hb]
      have hSome := ih hMem
      rw [hNext] at hSome
      cases hSome

def isContinuation (b : Byte) : Bool := decide (0x80 ≤ b) && decide (b ≤ 0xBF)

def secondByteOK (lead second : Byte) : Bool :=
  if lead = 0xE0 then decide (0xA0 ≤ second) && decide (second ≤ 0xBF)
  else if lead = 0xED then decide (0x80 ≤ second) && decide (second ≤ 0x9F)
  else if lead = 0xF0 then decide (0x90 ≤ second) && decide (second ≤ 0xBF)
  else if lead = 0xF4 then decide (0x80 ≤ second) && decide (second ≤ 0x8F)
  else isContinuation second

/-- Well-formed UTF-8: shortest forms only, no surrogates, nothing past U+10FFFF. -/
def utf8Valid : Bytes → Bool
  | [] => true
  | b0 :: rest =>
    if b0 < 0x80 then utf8Valid rest
    else match rest with
    | [] => false
    | b1 :: rest1 =>
      if 0xC2 ≤ b0 ∧ b0 ≤ 0xDF then isContinuation b1 && utf8Valid rest1
      else match rest1 with
      | [] => false
      | b2 :: rest2 =>
        if 0xE0 ≤ b0 ∧ b0 ≤ 0xEF then
          secondByteOK b0 b1 && isContinuation b2 && utf8Valid rest2
        else match rest2 with
        | [] => false
        | b3 :: rest3 =>
          if 0xF0 ≤ b0 ∧ b0 ≤ 0xF4 then
            secondByteOK b0 b1 && isContinuation b2 && isContinuation b3 && utf8Valid rest3
          else false

inductive IsChar : Bytes → Prop
  | one {b0 : Byte} : b0 < 0x80 → IsChar [b0]
  | two {b0 b1 : Byte} : 0xC2 ≤ b0 ∧ b0 ≤ 0xDF → isContinuation b1 = true → IsChar [b0, b1]
  | three {b0 b1 b2 : Byte} : 0xE0 ≤ b0 ∧ b0 ≤ 0xEF → secondByteOK b0 b1 = true → isContinuation b2 = true →
      IsChar [b0, b1, b2]
  | four {b0 b1 b2 b3 : Byte} : 0xF0 ≤ b0 ∧ b0 ≤ 0xF4 → secondByteOK b0 b1 = true → isContinuation b2 = true →
      isContinuation b3 = true → IsChar [b0, b1, b2, b3]

theorem two_lead (h : 0xC2 ≤ b ∧ b ≤ 0xDF) : ¬ b < 0x80 := by
  revert b
  decide +kernel

theorem three_lead (h : 0xE0 ≤ b ∧ b ≤ 0xEF) : ¬ b < 0x80 ∧ ¬ (0xC2 ≤ b ∧ b ≤ 0xDF) := by
  revert b
  decide +kernel

theorem four_lead (h : 0xF0 ≤ b ∧ b ≤ 0xF4) : ¬ b < 0x80 ∧ ¬ (0xC2 ≤ b ∧ b ≤ 0xDF) ∧ ¬ (0xE0 ≤ b ∧ b ≤ 0xEF) := by
  revert b
  decide +kernel

theorem IsChar.utf8Valid_append {c : Bytes} (hc : IsChar c) (rest : Bytes) : utf8Valid (c ++ rest) = utf8Valid rest := by
  cases hc with
  | @one b0 h =>
    change utf8Valid (b0 :: rest) = _
    rw [utf8Valid.eq_def]
    dsimp only
    rw [if_pos h]
  | @two b0 b1 h h1 =>
    change utf8Valid (b0 :: b1 :: rest) = _
    rw [utf8Valid.eq_def]
    dsimp only
    rw [if_neg (two_lead h), if_pos h, h1, Bool.true_and]
  | @three b0 b1 b2 h h1 h2 =>
    obtain ⟨hOne, hTwo⟩ := three_lead h
    change utf8Valid (b0 :: b1 :: b2 :: rest) = _
    rw [utf8Valid.eq_def]
    dsimp only
    rw [if_neg hOne, if_neg hTwo, if_pos h, h1, h2, Bool.true_and, Bool.true_and]
  | @four b0 b1 b2 b3 h h1 h2 h3 =>
    obtain ⟨hOne, hTwo, hThree⟩ := four_lead h
    change utf8Valid (b0 :: b1 :: b2 :: b3 :: rest) = _
    rw [utf8Valid.eq_def]
    dsimp only
    rw [if_neg hOne, if_neg hTwo, if_neg hThree, if_pos h, h1, h2, h3, Bool.true_and, Bool.true_and,
      Bool.true_and]

theorem utf8Valid_induction {motive : Bytes → Prop} (nil : motive [])
    (char : ∀ c rest, IsChar c → motive rest → motive (c ++ rest)) (h : utf8Valid s = true) : motive s := by
  induction s using utf8Valid.induct with
  | case1 => exact nil
  | case2 b rest hb ih =>
    rw [utf8Valid.eq_def] at h
    dsimp only at h
    rw [if_pos hb] at h
    exact char [b] rest (.one hb) (ih h)
  | case3 b hb => simp [utf8Valid, hb] at h
  | case4 b0 hb b1 rest h2 ih =>
    rw [utf8Valid.eq_def] at h
    simp only [hb, if_false, h2, and_self, if_true, Bool.and_eq_true] at h
    exact char [b0, b1] rest (.two h2 h.1) (ih h.2)
  | case5 b0 hb b1 h2 => simp [utf8Valid, hb, h2] at h
  | case6 b0 hb b1 h2 b2 rest h3 ih =>
    rw [utf8Valid.eq_def] at h
    simp only [hb, if_false, h2, h3, and_self, if_true, Bool.and_eq_true] at h
    exact char [b0, b1, b2] rest (.three h3 h.1.1 h.1.2) (ih h.2)
  | case7 b0 hb b1 h2 b2 h3 => simp [utf8Valid, hb, h2, h3] at h
  | case8 b0 hb b1 h2 b2 h3 b3 rest h4 ih =>
    rw [utf8Valid.eq_def] at h
    simp only [hb, if_false, h2, h3, h4, and_self, if_true, Bool.and_eq_true] at h
    exact char [b0, b1, b2, b3] rest (.four h4 h.1.1.1 h.1.1.2 h.1.2) (ih h.2)
  | case9 b0 hb b1 h2 b2 h3 b3 rest h4 => simp [utf8Valid, hb, h2, h3, h4] at h

theorem utf8Valid_append (hs : utf8Valid s = true) : utf8Valid (s ++ t) = utf8Valid t := by
  refine utf8Valid_induction (motive := fun s => utf8Valid (s ++ t) = utf8Valid t) rfl ?_ hs
  intro c rest hc ih
  rw [append_assoc, hc.utf8Valid_append, ih]

theorem utf8Valid_of_ascii (h : ∀ b ∈ s, b < 0x80) : utf8Valid s = true := by
  induction s with
  | nil => rfl
  | cons b s ih =>
    refine (IsChar.utf8Valid_append (.one (h b mem_cons_self)) s).trans ?_
    exact ih fun c hc => h c (mem_cons_of_mem b hc)

def text (s : String) : Bytes := s.toList.map fun c => Fin.ofNat 256 c.toNat

end Syntrix.Lib
