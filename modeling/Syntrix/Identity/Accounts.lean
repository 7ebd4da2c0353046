import Syntrix.Lib.Runs

/-! # Sessions and lockouts

A pair of tokens is exchanged for the next one by revoking the ID of the token that is presented. Failed logins
are counted in the row of the user, which is read before the password is checked and written after.
-/
namespace Syntrix.Identity

open Lib List

namespace Session

structure Token where
  id : Nat
  session : Nat
  refresh : Bool
  expiresAt : Nat
deriving DecidableEq

structure Config where
  accessTTL : Nat
  refreshTTL : Nat

structure State where
  now : Nat := 0
  next : Nat := 0
  issued : List Token := []
  /-- The tokens of the calls that have passed `verifyToken`. -/
  verified : List Token := []
  revoked : List Token := []
  /-- The tokens whose revocation was removed by the index on its expiry. -/
  purged : List Token := []
  /-- The tokens that were revoked for a pair that is not issued yet. -/
  exchanging : List Token := []
  /-- The tokens a pair was issued for, and whether their session had been ended. -/
  exchanged : List (Token × Bool) := []
  /-- The sessions whose newest refresh token was logged out. -/
  ended : List Nat := []

inductive Action where
  | tick (n : Nat)
  | signIn
  | verifyToken (t : Token)
  | refresh (t : Token)
  | issue (t : Token) (active : Bool)
  | logout (t : Token)
  | purge (t : Token)

def State.Newest (s : State) (t : Token) : Prop := ∀ u ∈ s.issued, u.refresh = true → u.session = t.session → u.id ≤ t.id

instance State.decidableNewest (s : State) (t : Token) : Decidable (s.Newest t) := by unfold State.Newest; infer_instance

variable (cfg : Config)

def State.generateTokenPair (s : State) (session : Nat) : State :=
  { s with
    next := s.next + 2
    issued := ⟨s.next + 1, session, true, s.now + cfg.refreshTTL⟩ :: ⟨s.next, session, false, s.now + cfg.accessTTL⟩ :: s.issued }

def step (s : State) : Action → Option State
  | .tick n => some { s with now := s.now + n }
  | .signIn => some (s.generateTokenPair cfg s.next)
  -- the claims do not say which token of a pair they are of
  | .verifyToken t => if t ∈ s.issued ∧ s.now < t.expiresAt then some { s with verified := t :: s.verified } else some s
  | .refresh t =>
    if t ∉ s.verified then none
    else if t ∈ s.revoked then some { s with verified := s.verified.erase t }
    else some { s with verified := s.verified.erase t, revoked := t :: s.revoked, exchanging := t :: s.exchanging }
  | .issue t active =>
    if t ∉ s.exchanging then none
    else if active then
      some (State.generateTokenPair cfg { s with
        exchanging := s.exchanging.erase t, exchanged := (t, decide (t.session ∈ s.ended)) :: s.exchanged } t.session)
    else some { s with exchanging := s.exchanging.erase t }
  | .logout t =>
    if t ∉ s.verified then none
    else if t.refresh = true ∧ s.Newest t then
      some { s with verified := s.verified.erase t, revoked := t :: s.revoked, ended := t.session :: s.ended }
    else some { s with verified := s.verified.erase t, revoked := t :: s.revoked }
  | .purge t =>
    if t ∈ s.revoked ∧ t.expiresAt ≤ s.now then some { s with revoked := s.revoked.filter (· ≠ t), purged := t :: s.purged }
    else none

/-- Only refresh tokens are presented for an exchange, before their revocation is removed, and none is logged out
while it is exchanged. -/
def proper (s : State) : Action → Bool
  | .refresh t => t.refresh ∧ t ∉ s.purged
  | .logout t => t ∉ s.exchanging
  | _ => true

def State.Spent (s : State) (t : Token) : Prop := t ∈ s.revoked ∨ t ∈ s.purged

structure Sound (s : State) : Prop where
  below : ∀ t ∈ s.issued, t.id < s.next ∧ t.session < s.next
  unique : ∀ t ∈ s.issued, ∀ u ∈ s.issued, t.id = u.id → t = u
  verified : s.verified ⊆ s.issued
  -- the older tokens of a session were spent for the newer ones
  older : ∀ t ∈ s.issued, t.refresh = true → s.Newest t ∨ s.Spent t
  exchanging : ∀ t ∈ s.exchanging, t ∈ s.issued ∧ t.refresh = true ∧ s.Spent t ∧ t.session ∉ s.ended ∧ s.Newest t
  exchangingNodup : s.exchanging.Nodup
  exchanged : ∀ x ∈ s.exchanged, x.1 ∈ s.issued ∧ x.1.refresh = true ∧ s.Spent x.1 ∧ x.2 = false ∧ x.1 ∉ s.exchanging
  exchangedNodup : (s.exchanged.map (·.1)).Nodup
  ended : ∀ t ∈ s.issued, t.refresh = true → t.session ∈ s.ended → s.Spent t
  endedBelow : ∀ n ∈ s.ended, n < s.next

variable {cfg} {s s' : State} {a : Action} {actions : List Action} {t : Token} {session : Nat}

variable (hs : Sound s)

include hs

/-- A pair is issued to a session that has not ended and whose refresh tokens are all spent. -/
theorem Sound.generateTokenPair (hBelow : session < s.next + 2) (hEnded : session ∉ s.ended)
    (hSpent : ∀ u ∈ s.issued, u.refresh = true → u.session = session → s.Spent u)
    (hExchanging : ∀ u ∈ s.exchanging, u.session ≠ session) : Sound (s.generateTokenPair cfg session) := by
  obtain ⟨_, _, _, _, _, _, _, _, _, _⟩ := hs
  refine ⟨?_, ?_, ?_, ?_, ?_, ?_, ?_, ?_, ?_, ?_⟩
  all_goals first | assumption | grind [State.generateTokenPair, State.Spent, State.Newest]

theorem Sound.revoke : Sound { s with verified := s.verified.erase t, revoked := t :: s.revoked } := by
  obtain ⟨_, _, _, _, _, _, _, _, _, _⟩ := hs
  refine ⟨?_, ?_, ?_, ?_, ?_, ?_, ?_, ?_, ?_, ?_⟩
  all_goals first | assumption | grind [State.Spent, State.Newest]

theorem Sound.refresh (ht : t ∈ s.verified) (hNew : ¬ s.Spent t) (hRefresh : t.refresh = true) :
    Sound { s with verified := s.verified.erase t, revoked := t :: s.revoked, exchanging := t :: s.exchanging } := by
  obtain ⟨hBelow, hUnique, hVerified, hOlder, hExchanging, hExchangingNodup, hExchanged, hExchangedNodup, hEnded, hEndedBelow⟩ :=
    hs.revoke (t := t)
  obtain ⟨_, _, hIssued, hOld, hBefore, _, hAfter, _, hOver, _⟩ := hs
  refine ⟨hBelow, hUnique, hVerified, hOlder, ?_, ?_, ?_, hExchangedNodup, hEnded, hEndedBelow⟩
  all_goals grind [State.Spent, State.Newest]

theorem Sound.logout (hVerified : t ∈ s.verified) (hRefresh : t.refresh = true) (hNewest : s.Newest t)
    (hExchanging : t ∉ s.exchanging) :
    Sound { s with verified := s.verified.erase t, revoked := t :: s.revoked, ended := t.session :: s.ended } := by
  have hRevoked := hs.revoke (t := t)
  have hIssued := hs.verified hVerified
  refine { hRevoked with exchanging := ?_, ended := ?_, endedBelow := ?_ }
  -- a token of the session that is being exchanged would be the newest one
  · intro u hu
    obtain ⟨hu', hr, hSpent, hEnded, hNew⟩ := hRevoked.exchanging u hu
    refine ⟨hu', hr, hSpent, ?_, hNew⟩
    have := hs.unique u hu' t hIssued
    grind [State.Newest]
  · intro u hu hr hSession
    have := hRevoked.older u hu hr
    have := hs.unique u hu t hIssued
    have := hRevoked.ended u hu hr
    grind [State.Newest, State.Spent]
  · have := hs.below t hIssued
    have := hs.endedBelow
    grind

/-- What is left of an exchange when it ends. -/
theorem Sound.finish : Sound { s with exchanging := s.exchanging.erase t } := by
  obtain ⟨hBelow, hUnique, hVerified, hOlder, hExchanging, hExchangingNodup, hExchanged, hExchangedNodup, hEnded, hEndedBelow⟩ := hs
  refine ⟨hBelow, hUnique, hVerified, hOlder, ?_, ?_, ?_, hExchangedNodup, hEnded, hEndedBelow⟩
  all_goals grind [State.Spent, State.Newest]

theorem Sound.issue (ht : t ∈ s.exchanging) :
    Sound (State.generateTokenPair cfg { s with
      exchanging := s.exchanging.erase t, exchanged := (t, decide (t.session ∈ s.ended)) :: s.exchanged } t.session) := by
  obtain ⟨hIssued, hRefresh, hSpent, hEnded, hNewest⟩ := hs.exchanging t ht
  have hSame : ∀ u ∈ s.issued, u.session = t.session → s.Newest u → u.refresh = true → u = t := by
    intro u hu hSession hNew hr
    exact hs.unique u hu t hIssued (le_antisymm (hNewest u hu hr hSession) (hNew t hIssued hRefresh hSession.symm))
  have hRest := hs.exchangingNodup.not_mem_erase (a := t)
  have hEnd : Sound { s with
      exchanging := s.exchanging.erase t, exchanged := (t, decide (t.session ∈ s.ended)) :: s.exchanged } := by
    refine { hs.finish (t := t) with exchanged := ?_, exchangedNodup := ?_ }
    · exact forall_mem_cons.2 ⟨⟨hIssued, hRefresh, hSpent, decide_eq_false hEnded, hRest⟩, hs.finish.exchanged⟩
    · refine nodup_cons.2 ⟨?_, hs.exchangedNodup⟩
      have := hs.exchanged
      grind
  refine hEnd.generateTokenPair ?_ hEnded ?_ ?_
  · have := hs.below t hIssued
    grind
  · intro u hu hr hSession
    rcases hs.older u hu hr with h | h
    · rw [hSame u hu hSession h hr]
      exact hSpent
    · exact h
  · intro u hu hSession
    have hu' := mem_of_mem_erase hu
    have := hs.exchanging u hu'
    grind

theorem Sound.step (hAllowed : proper s a) (hStep : step cfg s a = some s') : Sound s' := by
  cases a with
  | tick n =>
    cases hStep
    exact { hs with }
  | signIn =>
    cases hStep
    have hBelow := hs.below
    have hExchanging := hs.exchanging
    have hEnded := hs.endedBelow
    apply hs.generateTokenPair <;> grind
  | verifyToken t =>
    simp only [Session.step] at hStep
    split at hStep <;> cases hStep
    · rename_i h
      exact { hs with verified := cons_subset.2 ⟨h.1, hs.verified⟩ }
    · exact hs
  | refresh t =>
    simp only [Session.step] at hStep
    simp only [proper, decide_eq_true_eq] at hAllowed
    repeat' split at hStep
    all_goals cases hStep
    · exact { hs with verified := fun _ hu => hs.verified (mem_of_mem_erase hu) }
    · exact hs.refresh (not_not.1 ‹_›) (by simp [State.Spent, *]) hAllowed.1
  | issue t active =>
    simp only [Session.step] at hStep
    repeat' split at hStep
    all_goals cases hStep
    · exact hs.issue (not_not.1 ‹_›)
    · exact hs.finish
  | logout t =>
    simp only [Session.step] at hStep
    simp only [proper, decide_eq_true_eq] at hAllowed
    repeat' split at hStep
    all_goals cases hStep
    · rename_i hVerified h
      exact hs.logout (not_not.1 hVerified) h.1 h.2 hAllowed
    · exact hs.revoke
  | purge t =>
    simp only [Session.step] at hStep
    split at hStep <;> cases hStep
    obtain ⟨_, _, _, _, _, _, _, _, _, _⟩ := hs
    refine ⟨?_, ?_, ?_, ?_, ?_, ?_, ?_, ?_, ?_, ?_⟩
    all_goals first | assumption | grind [State.Spent, State.Newest]

omit hs

/-- In every run that presents refresh tokens only. -/
theorem sessions_rotate_and_end (h : Runs (step cfg) (fun s a => proper s a) {} actions s) :
    (s.exchanged.map (·.1)).Nodup ∧ ∀ x ∈ s.exchanged, x.1.refresh = true ∧ x.2 = false := by
  have hs : Sound s := Runs.invariant (I := Sound) (by constructor <;> simp) (fun _ _ _ hs => hs.step) h
  exact ⟨hs.exchangedNodup, fun x hx => ⟨(hs.exchanged x hx).2.1, (hs.exchanged x hx).2.2.2.1⟩⟩

theorem sessions_rotate_and_end_rotation : ∃ s, Runs (step ⟨10, 20⟩) (fun s a => proper s a) {}
    [.signIn, .verifyToken ⟨1, 0, true, 20⟩, .refresh ⟨1, 0, true, 20⟩, .issue ⟨1, 0, true, 20⟩ true,
      .verifyToken ⟨3, 0, true, 20⟩, .logout ⟨3, 0, true, 20⟩] s ∧ s.exchanged.length = 1 ∧ s.ended = [0] ∧
      ∀ x ∈ s.exchanged, x.1.refresh = true ∧ x.2 = false :=
  (Runs.exists_checked (P := fun s => s.exchanged.length = 1 ∧ s.ended = [0]) (by decide +kernel)).imp fun _ h =>
    ⟨h.1, h.2.1, h.2.2, (sessions_rotate_and_end h.1).2⟩

/-- The access token of the pair still yields a new one when the refresh token is logged out. -/
theorem access_token_exchanged : ∃ s, Runs (step ⟨10, 20⟩) (fun _ _ => True) {}
    [.signIn, .verifyToken ⟨1, 0, true, 20⟩, .logout ⟨1, 0, true, 20⟩,
      .verifyToken ⟨0, 0, false, 10⟩, .refresh ⟨0, 0, false, 10⟩, .issue ⟨0, 0, false, 10⟩ true] s ∧
      s.exchanged = [(⟨0, 0, false, 10⟩, true)] :=
  Runs.exists_of_foldlM (by decide +kernel)

end Session

namespace Lockout

structure User where
  loginAttempts : Nat := 0
  lockoutUntil : Nat := 0
deriving DecidableEq

structure State where
  now : Nat := 0
  user : User := {}
  /-- The calls that are checking a password, with the row they have read. -/
  verifying : List User := []
  failures : Nat := 0
  /-- When the tenth failed call returned. -/
  tenth : Option Nat := none
  /-- When a call was not refused as locked, and the tenth failure before it. -/
  admitted : List (Nat × Option Nat) := []

inductive Action where
  | tick (n : Nat)
  | read
  | write (user : User)

def lockoutThreshold : Nat := 10

/-- Five minutes, in seconds. -/
def lockoutDuration : Nat := 300

def step (s : State) : Action → Option State
  | .tick n => some { s with now := s.now + n }
  | .read =>
    if s.now < s.user.lockoutUntil then some s
    else some { s with verifying := s.user :: s.verifying, admitted := (s.now, s.tenth) :: s.admitted }
  | .write user =>
    if user ∉ s.verifying then none
    else some { s with
      user := ⟨user.loginAttempts + 1,
        if lockoutThreshold ≤ user.loginAttempts + 1 then s.now + lockoutDuration else user.lockoutUntil⟩
      verifying := s.verifying.erase user
      failures := s.failures + 1
      tenth := if s.failures + 1 = lockoutThreshold then some s.now else s.tenth }

/-- A call writes over the row that it has read. -/
def current (s : State) : Action → Bool
  | .write user => user = s.user
  | _ => true

structure Sound (s : State) : Prop where
  counted : s.user.loginAttempts = s.failures
  tenth : ∀ t, s.tenth = some t → lockoutThreshold ≤ s.failures ∧ t ≤ s.now ∧ t + lockoutDuration ≤ s.user.lockoutUntil
  admitted : ∀ x ∈ s.admitted, ∀ t, x.2 = some t → t + lockoutDuration ≤ x.1

variable {s s' : State} {a : Action} {actions : List Action}

theorem Sound.step (hs : Sound s) (hAllowed : current s a) (hStep : step s a = some s') : Sound s' := by
  obtain ⟨hCounted, hTenth, hAdmitted⟩ := hs
  unfold Lockout.step at hStep
  repeat' split at hStep
  all_goals cases hStep
  all_goals refine ⟨?_, ?_, ?_⟩
  all_goals first | assumption | grind [current, lockoutThreshold]

end Lockout

end Syntrix.Identity
