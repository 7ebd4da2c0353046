import Syntrix.Lib.Tables
import Syntrix.Realtime.ReplicaClient
import Syntrix.Lib.Lists

/-! # What a frame was made of

A registration, a read and a notice keep the database and the principal of the generation they were started
in, since they are started by one that is current. What was established in a generation never changes, and
neither does the identity of a registered subscription; so a frame in a queue tells what the check of the
writer compares with the connection.
-/
namespace Syntrix.ReplicaClient

open Lib List Option Function

/-- The database named by the auth message of a generation, and its principal. -/
def Scope (h : History) (gen : Nat) (database : String) (principal : Principal) : Prop :=
  h.named gen = some database ∧ h.established gen = some principal

structure RegistrationSound (h : History) (k : Nat) (r : Registration) : Prop where
  scope : Scope h r.gen r.database r.principal
  granted : ∀ identity hash, r.phase = .authorized identity hash →
    Event.authorized (.registration k) r.database r.principal identity ∈ h.trace
  bound : r.phase = .subscribing ∨ r.registered = true →
    Event.authorized (.registration k) r.database r.principal r.identity ∈ h.trace
  acking : r.phase = .acking → r.registered = true
  settled : r.registered = true → r.phase = .acking ∨ r.phase = .done

def ReadAfter (trace : List Event) (p : Nat) (r : PageRead) : Prop :=
  ∃ before after, trace = before ++ Event.pulled p r.database r.identity :: after ∧
    Event.authorized (.read p) r.database r.principal r.identity ∈ before

/-- The read is one of a registered subscription, for its generation and its identity. -/
def ReadScope (h : History) (r : PageRead) : Prop :=
  ∃ sub, h.registrations r.sub = some sub ∧ sub.registered = true ∧ sub.identity = r.identity ∧
    sub.database = r.database ∧ sub.principal = r.principal

structure ReadSound (h : History) (p : Nat) (r : PageRead) : Prop where
  scope : ReadScope h r
  granted : r.phase = .authorized ∨ r.phase = .checked →
    Event.authorized (.read p) r.database r.principal r.identity ∈ h.trace
  pulled : r.phase = .pulled → ReadAfter h.trace p r

def FlushSound (h : History) (k : Nat) (w : Flush) : Prop :=
  ∃ sub, h.registrations k = some sub ∧ sub.registered = true ∧ sub.database = w.database ∧ sub.principal = w.principal ∧
    (w.phase = .authorized ∨ w.phase = .sending →
      Event.authorized (.flush k) w.database w.principal sub.identity ∈ h.trace)

def Content.guarded : Content → Bool
  | .page | .changed | .subscribeAck | .unsubscribeAck => true
  | .authAck | .error | .heartbeat => false

structure FrameSound (h : History) (f : Frame) : Prop where
  authenticated : f.authenticated = true
  sub : ∀ k, f.sub = some k → ∃ r, h.registrations k = some r ∧ r.gen = f.gen ∧ r.registered = true
  page : f.content = .page → ∃ p r, f.page = some p ∧ h.reads p = some r ∧ f.sub = some r.sub ∧ ReadAfter h.trace p r
  notice : f.content = .changed ∨ f.content = .subscribeAck → ∃ k, f.sub = some k

structure Sound (floor : Nat) (s : State) : Prop where
  floor : floor ≤ s.authGen
  idle : s.picked ≠ none → s.writing = none
  auth : s.authenticated = true → Scope s.toHistory s.authGen s.database s.principal
  named : ∀ g d, s.named g = some d → g ≤ s.authGen
  established : ∀ g principal, s.established g = some principal → g ≤ s.authGen
  auths : ∀ g w, s.auths g = some w → s.named g = some w.database ∧
    (w.phase ≠ .acking → w.phase ≠ .ending → w.phase ≠ .done → s.established g = none)
  subs : ∀ k r, s.registrations k = some r → k < s.nextSub
  pages : ∀ p r, s.reads p = some r → p < s.nextPage
  registrations : ∀ k r, s.registrations k = some r → RegistrationSound s.toHistory k r
  reads : ∀ p r, s.reads p = some r → ReadSound s.toHistory p r
  flushes : ∀ k w, s.flushes k = some w → FlushSound s.toHistory k w
  control : ∀ f ∈ s.control, f.content.guarded = true → FrameSound s.toHistory f
  data : ∀ f ∈ s.data, f.content.guarded = true → FrameSound s.toHistory f
  picked : ∀ f, s.picked = some f → f.content.guarded = true → FrameSound s.toHistory f

theorem sound_start : Sound 0 start where
  floor := le_rfl
  idle h := absurd rfl h
  auth h := nomatch h
  named _ _ h := nomatch h
  established _ _ h := nomatch h
  auths _ _ h := nomatch h
  subs _ _ h := nomatch h
  pages _ _ h := nomatch h
  registrations _ _ h := nomatch h
  reads _ _ h := nomatch h
  flushes _ _ h := nomatch h
  control _ h := nomatch h
  data _ h := nomatch h
  picked _ h := nomatch h

/-! ## What later states keep -/

structure Grows (h h' : History) : Prop where
  named : ∀ g d, h.named g = some d → h'.named g = some d
  established : ∀ g principal, h.established g = some principal → h'.established g = some principal
  registrations : ∀ k r, h.registrations k = some r → ∃ r', h'.registrations k = some r' ∧ r'.gen = r.gen ∧
    r'.database = r.database ∧ r'.principal = r.principal ∧ (r.registered = true → r'.registered = true ∧ r'.identity = r.identity)
  reads : ∀ p r, h.reads p = some r → ∃ phase, h'.reads p = some { r with phase := phase }
  trace : h.trace <+: h'.trace

theorem Grows.refl (h : History) : Grows h h where
  named _ _ h := h
  established _ _ h := h
  registrations _ r hr := ⟨r, hr, rfl, rfl, rfl, fun h => ⟨h, rfl⟩⟩
  reads _ r hr := ⟨r.phase, hr⟩
  trace := prefix_rfl

variable {h h' : History} {s s' : State} {floor : Nat}

variable {gen : Nat}

variable {principal : Principal} {database : String}

theorem Scope.mono (hGrows : Grows h h') (hSound : Scope h gen database principal) : Scope h' gen database principal :=
  ⟨hGrows.named gen database hSound.1, hGrows.established gen principal hSound.2⟩

variable {k : Nat}

theorem RegistrationSound.mono (hGrows : Grows h h') {r : Registration} (hSound : RegistrationSound h k r) :
    RegistrationSound h' k r :=
  { hSound with
    scope := hSound.scope.mono hGrows
    granted := fun identity hash hPhase => hGrows.trace.mem (hSound.granted identity hash hPhase)
    bound := fun hBound => hGrows.trace.mem (hSound.bound hBound) }

variable {p : Nat} {r : PageRead}

theorem ReadAfter.mono {trace trace' : List Event} (hTrace : trace <+: trace') (h : ReadAfter trace p r) : ReadAfter trace' p r := by
  obtain ⟨before, after, rfl, hBefore⟩ := h
  obtain ⟨rest, rfl⟩ := hTrace
  exact ⟨before, after ++ rest, by simp, hBefore⟩

theorem ReadScope.mono (hGrows : Grows h h') (hSound : ReadScope h r) : ReadScope h' r := by
  obtain ⟨sub, hSub, hRegistered, hIdentity, hDatabase, hPrincipal⟩ := hSound
  obtain ⟨sub', hSub', -, hDatabase', hPrincipal', hKept⟩ := hGrows.registrations _ sub hSub
  obtain ⟨hRegistered', hIdentity'⟩ := hKept hRegistered
  exact ⟨sub', hSub', hRegistered', hIdentity'.trans hIdentity, hDatabase'.trans hDatabase, hPrincipal'.trans hPrincipal⟩

theorem ReadSound.mono (hGrows : Grows h h') (hSound : ReadSound h p r) : ReadSound h' p r where
  scope := hSound.scope.mono hGrows
  granted hPhase := hGrows.trace.mem (hSound.granted hPhase)
  pulled hPhase := (hSound.pulled hPhase).mono hGrows.trace

variable {w : Flush}

theorem FlushSound.mono (hGrows : Grows h h') (hSound : FlushSound h k w) : FlushSound h' k w := by
  obtain ⟨sub, hSub, hRegistered, hDatabase, hPrincipal, hGranted⟩ := hSound
  obtain ⟨sub', hSub', -, hDatabase', hPrincipal', hKept⟩ := hGrows.registrations _ sub hSub
  obtain ⟨hRegistered', hIdentity'⟩ := hKept hRegistered
  refine ⟨sub', hSub', hRegistered', hDatabase'.trans hDatabase, hPrincipal'.trans hPrincipal, fun hPhase => ?_⟩
  rw [hIdentity']
  exact hGrows.trace.mem (hGranted hPhase)

variable {f : Frame}

theorem FrameSound.mono (hGrows : Grows h h') (hSound : FrameSound h f) : FrameSound h' f where
  authenticated := hSound.authenticated
  sub k hk := by
    obtain ⟨r, hr, hGen, hRegistered⟩ := hSound.sub k hk
    obtain ⟨r', hr', hGen', -, -, hKept⟩ := hGrows.registrations k r hr
    exact ⟨r', hr', hGen'.trans hGen, (hKept hRegistered).1⟩
  page hPage := by
    obtain ⟨p, r, hp, hr, hSub, hAfter⟩ := hSound.page hPage
    obtain ⟨phase, hr'⟩ := hGrows.reads p r hr
    exact ⟨p, _, hp, hr', hSub, hAfter.mono hGrows.trace⟩
  notice := hSound.notice

variable (hs : Sound floor s)

include hs

theorem Sound.grow (hGrows : Grows s.toHistory s'.toHistory)
    (hAuth : s'.authenticated = true → Scope s'.toHistory s'.authGen s'.database s'.principal)
    (hNamed : ∀ g d, s'.named g = some d → g ≤ s'.authGen)
    (hEstablished : ∀ g principal, s'.established g = some principal → g ≤ s'.authGen)
    (hAuths : ∀ g w, s'.auths g = some w → s'.named g = some w.database ∧
      (w.phase ≠ .acking → w.phase ≠ .ending → w.phase ≠ .done → s'.established g = none))
    (hRegistrations : ∀ k r, s'.registrations k = some r → k < s'.nextSub ∧ RegistrationSound s.toHistory k r)
    (hReads : ∀ p r, s'.reads p = some r → p < s'.nextPage ∧ ReadSound s.toHistory p r)
    (hFlushes : s'.flushes = s.flushes) (hControl : s'.control = s.control) (hData : s'.data = s.data)
    (hPicked : s'.picked = s.picked) (hWriting : s'.writing = s.writing) (hGen : s.authGen ≤ s'.authGen) : Sound floor s' where
  floor := hs.floor.trans hGen
  idle h := hWriting.trans (hs.idle fun hNone => h (hPicked.trans hNone))
  auth := hAuth
  named := hNamed
  established := hEstablished
  auths := hAuths
  subs k r hr := (hRegistrations k r hr).1
  pages p r hr := (hReads p r hr).1
  registrations k r hr := (hRegistrations k r hr).2.mono hGrows
  reads p r hr := (hReads p r hr).2.mono hGrows
  flushes k w hw := (hs.flushes k w (hFlushes ▸ hw)).mono hGrows
  control f hf hGuarded := (hs.control f (hControl ▸ hf) hGuarded).mono hGrows
  data f hf hGuarded := (hs.data f (hData ▸ hf) hGuarded).mono hGrows
  picked f hf hGuarded := (hs.picked f (hPicked ▸ hf) hGuarded).mono hGrows

/-! ## The parts that steps are made of -/

theorem Sound.retire (chosen : Nat → Bool) : Sound floor (s.retire chosen) :=
  { hs with }

theorem Sound.dropPage (p k : Nat) : Sound floor (s.dropPage p k) :=
  { hs with }

theorem Sound.setDelivery (k : Nat) (d : Delivery) : Sound floor (s.setDelivery k d) :=
  { hs with }

theorem Sound.sendControl (hf : f.content.guarded = true → FrameSound s.toHistory f) : Sound floor (s.sendControl f) := by
  unfold State.sendControl
  split
  · exact { hs with control := forall_mem_push (fun f' hf' hGuarded => { hs.control f' hf' hGuarded with }) fun hGuarded => { hf hGuarded with } }
  · exact hs

theorem Sound.sendError (gen : Nat) : Sound floor (s.sendError gen) :=
  hs.sendControl fun h => nomatch h

theorem Sound.failure (gen : Nat) (canceled : Bool) : Sound floor (s.failure gen canceled) := by
  unfold State.failure
  split
  · exact hs
  · exact hs.sendError gen

theorem Sound.failSub (k gen : Nat) (canceled : Bool) : Sound floor (s.failSub k gen canceled) := by
  unfold State.failSub
  split
  · exact (hs.retire _).failure gen canceled
  · exact hs.retire _

theorem Sound.record (e : Event) : Sound floor { s with trace := s.trace ++ [e] } :=
  hs.grow { Grows.refl _ with trace := prefix_append _ _ }
    hs.auth hs.named hs.established hs.auths (fun k r hr => ⟨hs.subs k r hr, hs.registrations k r hr⟩)
    (fun p r hr => ⟨hs.pages p r hr, hs.reads p r hr⟩) rfl rfl rfl rfl rfl le_rfl

theorem Sound.setRegistration {r r' : Registration} (hr : s.registrations k = some r)
    (hScope : r'.gen = r.gen ∧ r'.database = r.database ∧ r'.principal = r.principal)
    (hFixed : r.registered = true → r'.registered = true ∧ r'.identity = r.identity)
    (hNew : RegistrationSound s.toHistory k r') : Sound floor (s.setRegistration k r') := by
  have hGrows : Grows s.toHistory (s.setRegistration k r').toHistory :=
    { Grows.refl _ with
      registrations := fun i old hOld => by
        by_cases hSame : i = k
        · subst hSame
          cases hr.symm.trans hOld
          exact ⟨r', update_self .., hScope.1, hScope.2.1, hScope.2.2, hFixed⟩
        · exact ⟨old, (update_of_ne hSame ..).trans hOld, rfl, rfl, rfl, fun h => ⟨h, rfl⟩⟩ }
  refine hs.grow hGrows hs.auth hs.named hs.established hs.auths
    (forall_update (fun i r hr => ⟨hs.subs i r hr, hs.registrations i r hr⟩) ?_)
    (fun p r hr => ⟨hs.pages p r hr, hs.reads p r hr⟩) rfl rfl rfl rfl rfl le_rfl
  rintro _ ⟨⟩
  exact ⟨hs.subs k r hr, hNew⟩

variable {phase : ReadPhase}

theorem Sound.setRead (hr : s.reads p = some r) (hNew : ReadSound s.toHistory p { r with phase := phase }) :
    Sound floor (s.setRead p r phase) := by
  have hGrows : Grows s.toHistory (s.setRead p r phase).toHistory :=
    { Grows.refl _ with
      reads := fun i old hOld => by
        by_cases hSame : i = p
        · subst hSame
          cases hr.symm.trans hOld
          exact ⟨phase, update_self ..⟩
        · exact ⟨old.phase, (update_of_ne hSame ..).trans hOld⟩ }
  refine hs.grow hGrows hs.auth hs.named hs.established hs.auths
    (fun k r hr => ⟨hs.subs k r hr, hs.registrations k r hr⟩)
    (forall_update (fun i r hr => ⟨hs.pages i r hr, hs.reads i r hr⟩) ?_) rfl rfl rfl rfl rfl le_rfl
  rintro _ ⟨⟩
  exact ⟨hs.pages p r hr, hNew⟩

theorem Sound.endRead (hr : s.reads p = some r) (hPhase : phase = .ending ∨ phase = .done) :
    Sound floor (s.setRead p r phase) := by
  refine hs.setRead hr ⟨(hs.reads p r hr).scope, ?_, ?_⟩
  · rcases hPhase with rfl | rfl <;> exact fun h => h.elim nofun nofun
  · rcases hPhase with rfl | rfl <;> nofun

theorem Sound.failPage (hr : s.reads p = some r) (canceled : Bool) : Sound floor (s.failPage p r canceled) := by
  have hDropped := (hs.endRead hr (.inl rfl)).dropPage p r.sub
  unfold State.failPage
  split
  · exact hDropped.failure _ canceled
  · exact hDropped

theorem Sound.setFlush {flush : Option Flush} (hNew : ∀ w, flush = some w → FlushSound s.toHistory k w) :
    Sound floor (s.setFlush k flush) :=
  { hs with flushes := forall_update hs.flushes hNew }

theorem Sound.setAuth {g : Nat} {w : AuthWork} (hw : s.auths g = some w) {phase : AuthPhase}
    (hNew : phase ≠ .acking → phase ≠ .ending → phase ≠ .done → s.established g = none) : Sound floor (s.setAuth g w phase) := by
  refine { hs with auths := forall_update hs.auths ?_ }
  rintro _ ⟨⟩
  exact ⟨(hs.auths g w hw).1, hNew⟩

theorem Sound.discard (f : Frame) : Sound floor (s.discard f) := by
  unfold State.discard
  split
  · exact { hs with }
  · exact hs

/-! ## Authentication -/

theorem Sound.close (h : closeStep s = some s') : Sound floor s' := by
  unfold closeStep at h
  split at h <;> cases h
  · exact hs
  · exact { hs with }

theorem Sound.startAuth (database : String) (wellFormed granted : Bool) :
    Sound floor (s.startAuth database wellFormed granted) := by
  unfold State.startAuth
  split
  · exact hs.sendError _
  split
  · exact hs
  split
  · exact hs.sendError _
  have hFresh : s.established (s.authGen + 1) = none := by
    refine eq_none_iff_forall_ne_some.mpr fun principal h => ?_
    exact absurd (hs.established _ principal h) (by omega)
  have hOther {g : Nat} {d : String} (hd : s.named g = some d) : g ≠ s.authGen + 1 := by
    intro hSame
    exact absurd (hs.named g d hd) (by omega)
  refine hs.grow
    { Grows.refl _ with named := fun g d hd => (update_of_ne (hOther hd) ..).trans hd }
    (fun h => nomatch h) (forall_update (fun g d hd => Nat.le_succ_of_le (hs.named g d hd)) fun _ _ => le_rfl)
    (fun g principal h => Nat.le_succ_of_le (hs.established g principal h))
    (fun g w hw => ?_) (fun k r hr => ⟨hs.subs k r hr, hs.registrations k r hr⟩)
    (fun p r hr => ⟨hs.pages p r hr, hs.reads p r hr⟩) rfl rfl rfl rfl rfl (Nat.le_succ _)
  rcases update_eq_some_iff.mp hw with ⟨rfl, ⟨⟩⟩ | ⟨hSame, hw⟩
  · exact ⟨update_self .., fun _ _ _ => hFresh⟩
  · obtain ⟨hNamed, hPending⟩ := hs.auths g w hw
    exact ⟨(update_of_ne hSame ..).trans hNamed, hPending⟩

theorem Sound.verify {claims : Option Claims} (h : verifyStep s gen claims = some s') : Sound floor s' := by
  obtain ⟨w, hw, hPhase, h⟩ := bind_guard h
  split at h <;> cases h
  · exact (hs.setAuth hw fun _ h => absurd rfl h).sendError gen
  · refine hs.setAuth hw fun _ _ _ => (hs.auths gen w hw).2 ?_ ?_ ?_ <;> rw [hPhase] <;> nofun

variable {resolved : Option Database}

variable {canceled : Bool}

theorem Sound.authorizeAuth (h : authorizeAuthStep s gen resolved canceled = some s') : Sound floor s' := by
  obtain ⟨w, hw, h⟩ := bind_eq_some_iff.mp h
  split at h
  · rename_i principal expires hPhase
    split at h <;> cases h
    · exact (hs.setAuth hw fun _ h => absurd rfl h).failure gen canceled
    · refine (hs.record _).setAuth hw fun _ _ _ => (hs.auths gen w hw).2 ?_ ?_ ?_ <;> rw [hPhase] <;> nofun
  · cases h

variable {live : Bool}

theorem Sound.complete (h : completeStep s gen live = some s') : Sound floor s' := by
  obtain ⟨w, hw, h⟩ := bind_eq_some_iff.mp h
  split at h
  · rename_i principal expires hPhase
    split at h
    · rename_i hLive
      cases h
      obtain ⟨-, hGen, -⟩ := hLive
      obtain ⟨hNamed, hPending⟩ := hs.auths gen w hw
      have hNone : s.established gen = none := by
        refine hPending ?_ ?_ ?_ <;> rw [hPhase] <;> nofun
      have hKept {g : Nat} {p : Principal} (hp : s.established g = some p) : g ≠ gen := by
        rintro rfl
        exact absurd (hNone.symm.trans hp) nofun
      refine hs.grow
        { Grows.refl _ with established := fun g p hp => (update_of_ne (hKept hp) ..).trans hp }
        (fun _ => ?_) hs.named (forall_update hs.established fun _ _ => hGen.ge) (fun g v hv => ?_)
        (fun k r hr => ⟨hs.subs k r hr, hs.registrations k r hr⟩)
        (fun p r hr => ⟨hs.pages p r hr, hs.reads p r hr⟩) rfl rfl rfl rfl rfl le_rfl
      · subst hGen
        exact ⟨hNamed, update_self ..⟩
      · rcases update_eq_some_iff.mp hv with ⟨rfl, ⟨⟩⟩ | ⟨hSame, hv⟩
        · exact ⟨hNamed, fun h => absurd rfl h⟩
        · obtain ⟨hName, hOld⟩ := hs.auths g v hv
          exact ⟨hName, fun h₁ h₂ h₃ => (update_of_ne hSame ..).trans (hOld h₁ h₂ h₃)⟩
    · cases h
      exact hs.setAuth hw fun _ h => absurd rfl h
  · cases h

theorem Sound.ackAuth (h : ackAuthStep s gen = some s') : Sound floor s' := by
  obtain ⟨w, hw, -, ⟨⟩⟩ := bind_guard h
  exact (hs.setAuth hw fun _ h => absurd rfl h).sendControl fun h => nomatch h

theorem Sound.endAuth (h : endAuthStep s gen = some s') : Sound floor s' := by
  obtain ⟨w, hw, -, ⟨⟩⟩ := bind_guard h
  exact { hs.setAuth hw fun _ _ h => absurd rfl h with }

/-! ## What is current belongs to the generation -/

omit hs in
theorem authCurrent_spec (h : s.authCurrent gen = true) :
    s.closed = false ∧ s.authenticated = true ∧ s.authGen = gen ∧ ∀ e, s.expires = some e → s.now < e := by
  simp only [State.authCurrent, Bool.and_eq_true, Bool.not_eq_true', beq_iff_eq, Option.all_eq_true, decide_eq_true_eq] at h
  obtain ⟨⟨⟨hClosed, hAuthenticated⟩, hGen⟩, hExpires⟩ := h
  exact ⟨hClosed, hAuthenticated, hGen, hExpires⟩

omit hs in
theorem subCurrent_spec (h : s.subCurrent k = true) :
    ∃ r, s.registrations k = some r ∧ (s.deliveries k).retired = false ∧ s.subs r.id = some k ∧ s.authCurrent r.gen = true := by
  obtain ⟨r, hr, h⟩ := (Option.any_eq_true _ _).mp h
  simp only [Bool.and_eq_true, Bool.not_eq_true', beq_iff_eq] at h
  obtain ⟨⟨⟨hRetired, hListed⟩, hAuth⟩, -⟩ := h
  exact ⟨r, hr, hRetired, hListed, hAuth⟩

theorem Sound.current (h : s.authCurrent gen = true) : Scope s.toHistory gen s.database s.principal := by
  obtain ⟨-, hAuthenticated, rfl, -⟩ := authCurrent_spec h
  exact hs.auth hAuthenticated

theorem Sound.currentSub {r : Registration} (hr : s.registrations k = some r)
    (h : s.subCurrent k = true) : r.database = s.database ∧ r.principal = s.principal := by
  obtain ⟨r', hr', -, -, hAuth⟩ := subCurrent_spec h
  cases hr.symm.trans hr'
  have hNow := hs.current hAuth
  have hThen := (hs.registrations k r hr).scope
  exact ⟨some.inj (hThen.1.symm.trans hNow.1), some.inj (hThen.2.symm.trans hNow.2)⟩

/-! ## Messages -/

theorem Sound.startSubscribe (gen : Nat) (id collection : String) (expected : Option String) (grant : Grant) :
    Sound floor (s.startSubscribe gen id collection expected grant) := by
  unfold State.startSubscribe
  split
  · exact hs
  rename_i hCurrent
  split
  · exact hs.sendError gen
  cases grant with
  | full => exact hs.sendControl fun h => nomatch h
  | busy =>
    have hSeen : Sound floor { s with seen := id :: s.seen } := { hs with }
    exact hSeen.sendError gen
  | granted =>
    have hOther {k : Nat} {r : Registration} (hr : s.registrations k = some r) : k ≠ s.nextSub := (hs.subs k r hr).ne
    refine hs.grow
      { Grows.refl _ with
        registrations := fun k r hr =>
          ⟨r, (update_of_ne (hOther hr) ..).trans hr, rfl, rfl, rfl, fun h => ⟨h, rfl⟩⟩ }
      hs.auth hs.named hs.established hs.auths
      (forall_update (fun k r hr => ⟨Nat.lt_succ_of_lt (hs.subs k r hr), hs.registrations k r hr⟩) ?_)
      (fun p r hr => ⟨hs.pages p r hr, hs.reads p r hr⟩) rfl rfl rfl rfl rfl le_rfl
    rintro _ ⟨⟩
    refine ⟨Nat.lt_succ_self _, hs.current (by simpa using hCurrent), nofun, ?_, nofun, nofun⟩
    exact fun h => h.elim nofun nofun

theorem Sound.startRead (gen : Nat) (sub id collection : String) (identity hash expectedHash : Option String)
    (grant : Grant) : Sound floor (s.startRead gen sub id collection identity hash expectedHash grant) := by
  unfold State.startRead
  split
  · exact hs.sendError gen
  rename_i k r hFound
  split
  · exact hs.sendError gen
  rename_i hRefused
  obtain ⟨k, -, hr⟩ := bind_eq_some_iff.mp hFound
  obtain ⟨r, hr, ⟨⟩⟩ := map_eq_some_iff.mp hr
  simp only [State.readRefused, Bool.or_eq_true, not_or, Bool.not_eq_true, Bool.not_eq_false'] at hRefused
  obtain ⟨⟨⟨⟨⟨⟨⟨⟨hCurrent, hRegistered⟩, -⟩, -⟩, -⟩, -⟩, -⟩, -⟩, -⟩ := hRefused
  obtain ⟨hDatabase, hPrincipal⟩ := hs.currentSub hr hCurrent
  have hOther {p : Nat} {old : PageRead} (hp : s.reads p = some old) : p ≠ s.nextPage := (hs.pages p old hp).ne
  refine hs.grow
    { Grows.refl _ with reads := fun p old hp => ⟨old.phase, (update_of_ne (hOther hp) ..).trans hp⟩ }
    hs.auth hs.named hs.established hs.auths (fun k r hr => ⟨hs.subs k r hr, hs.registrations k r hr⟩)
    (forall_update (fun p r hr => ⟨Nat.lt_succ_of_lt (hs.pages p r hr), hs.reads p r hr⟩) ?_) rfl rfl rfl rfl rfl le_rfl
  rintro _ ⟨⟩
  exact ⟨Nat.lt_succ_self _, ⟨r, hr, hRegistered, rfl, hDatabase, hPrincipal⟩, fun h => h.elim nofun nofun, nofun⟩

theorem Sound.acknowledge (gen : Nat) (sub id : String) : Sound floor (s.acknowledge gen sub id) := by
  unfold State.acknowledge
  split
  · exact hs.sendError gen
  split
  · exact hs.sendError gen
  split
  · exact hs
  split
  · exact hs.sendError gen
  split
  · exact { hs with }
  · exact hs.sendError gen

theorem Sound.unsubscribe (gen : Nat) (sub : String) : Sound floor (s.unsubscribe gen sub) := by
  have hAck {t : State} : FrameSound t.toHistory { content := .unsubscribeAck, gen := gen, authenticated := true } :=
    ⟨rfl, nofun, nofun, fun h => h.elim nofun nofun⟩
  unfold State.unsubscribe
  split
  · exact hs.sendControl fun _ => hAck
  · exact (hs.retire _).sendControl fun _ => hAck

theorem Sound.receive {message : Message} {granted : Bool} (h : receiveStep s message granted = some s') : Sound floor s' := by
  obtain ⟨-, h⟩ := ite_none_right_eq_some.mp h
  split at h
  · cases h
    have hSent : Sound floor (s.sendControl { content := .error, gen := s.authGen, closeAfter := true }) :=
      hs.sendControl fun h => nomatch h
    exact { hSent with }
  · cases h
    exact hs.startAuth _ _ _
  · split at h <;> cases h
    · exact { hs with }
    · exact hs.sendError _

theorem Sound.dispatch {grant : Grant} (h : dispatchStep s grant = some s') : Sound floor s' := by
  obtain ⟨m, -, h⟩ := map_eq_some_iff.mp h
  have hTaken : Sound floor { s with handling := none } := { hs with }
  subst h
  split
  · exact hTaken.sendError _
  · exact hTaken.sendError _
  · exact hTaken.sendError _
  · exact hTaken.startSubscribe ..
  · exact hTaken.startRead ..
  · exact hTaken.acknowledge ..
  · exact hTaken.unsubscribe ..

/-! ## Registrations -/

theorem Sound.endSub {r : Registration} (hr : s.registrations k = some r) :
    Sound floor (s.setRegistration k { r with phase := .done }) := by
  have hOld := hs.registrations k r hr
  refine hs.setRegistration hr ⟨rfl, rfl, rfl⟩ (fun h => ⟨h, rfl⟩) ⟨hOld.scope, nofun, ?_, nofun, fun _ => .inr rfl⟩
  exact fun h => hOld.bound (.inr (h.resolve_left nofun))

theorem Sound.unregistered {r : Registration} (hr : s.registrations k = some r) (hAcking : r.phase ≠ .acking)
    (hDone : r.phase ≠ .done) : r.registered ≠ true :=
  fun h => ((hs.registrations k r hr).settled h).elim hAcking hDone

theorem Sound.authorizeSub {hash : Option String} (h : authorizeSubStep s k resolved hash canceled = some s') :
    Sound floor s' := by
  obtain ⟨r, hr, hPhase, h⟩ := bind_guard h
  split at h
  · cases h
    exact (hs.endSub hr).failSub ..
  rename_i db hAuthorized
  split at h
  · cases h
    exact (hs.endSub hr).failSub ..
  cases h
  have hNot := hs.unregistered hr (by rw [hPhase]; nofun) (by rw [hPhase]; nofun)
  have hRecorded := hs.record (.authorized (.registration k) r.database r.principal db.id)
  refine hRecorded.setRegistration hr ⟨rfl, rfl, rfl⟩ (fun h => absurd h hNot) ?_
  refine ⟨(hs.registrations k r hr).scope, ?_, fun h => ?_, nofun, fun h => absurd h hNot⟩
  · rintro _ _ ⟨⟩
    exact mem_append_right _ mem_cons_self
  · exact absurd (h.resolve_left nofun) hNot

theorem Sound.bindSub (h : bindSubStep s k live = some s') : Sound floor s' := by
  obtain ⟨r, hr, h⟩ := bind_eq_some_iff.mp h
  split at h
  · rename_i identity hash hPhase
    split at h
    · cases h
      have hOld := hs.registrations k r hr
      have hNot := hs.unregistered hr (by rw [hPhase]; nofun) (by rw [hPhase]; nofun)
      refine hs.setRegistration hr ⟨rfl, rfl, rfl⟩ (fun h => absurd h hNot) ?_
      exact ⟨hOld.scope, nofun, fun _ => hOld.granted identity hash hPhase, nofun, fun h => absurd h hNot⟩
    · cases h
      exact hs.endSub hr
  · cases h

variable {ok : Bool}

theorem Sound.registerSub (h : registerSubStep s k ok live canceled = some s') : Sound floor s' := by
  obtain ⟨r, hr, hPhase, h⟩ := bind_guard h
  split at h
  · cases h
    exact (hs.endSub hr).failSub ..
  split at h
  · cases h
    have hOld := hs.registrations k r hr
    refine hs.setRegistration hr ⟨rfl, rfl, rfl⟩ (fun _ => ⟨rfl, rfl⟩) ?_
    exact ⟨hOld.scope, nofun, fun _ => hOld.bound (.inl hPhase), fun _ => rfl, fun _ => .inl rfl⟩
  · cases h
    exact hs.endSub hr

theorem Sound.ackSub (h : ackSubStep s k = some s') : Sound floor s' := by
  obtain ⟨r, hr, hPhase, ⟨⟩⟩ := bind_guard h
  refine (hs.endSub hr).sendControl fun _ => ⟨rfl, ?_, nofun, fun _ => ⟨k, rfl⟩⟩
  rintro _ ⟨⟩
  exact ⟨_, update_self .., rfl, (hs.registrations k r hr).acking hPhase⟩

/-! ## Change notices -/

theorem Sound.changed (h : changedStep s k = some s') : Sound floor s' := by
  unfold changedStep at h
  split at h <;> cases h
  · exact hs.setDelivery k _
  · exact hs

theorem Sound.flush (h : flushStep s k = some s') : Sound floor s' := by
  obtain ⟨r, hr, hReady, ⟨⟩⟩ := bind_guard h
  simp only [Bool.and_eq_true] at hReady
  obtain ⟨⟨⟨⟨hCurrent, hRegistered⟩, -⟩, -⟩, -⟩ := hReady
  obtain ⟨hDatabase, hPrincipal⟩ := hs.currentSub hr hCurrent
  refine (hs.setDelivery k _).setFlush ?_
  rintro _ ⟨⟩
  exact ⟨r, hr, hRegistered, hDatabase, hPrincipal, fun h => h.elim nofun nofun⟩

theorem Sound.endNotice (hw : s.flushes k = some w) : Sound floor (s.setFlush k (some { w with phase := .ending })) := by
  refine hs.setFlush ?_
  rintro _ ⟨⟩
  obtain ⟨sub, hSub, hRegistered, hDatabase, hPrincipal, -⟩ := hs.flushes k w hw
  exact ⟨sub, hSub, hRegistered, hDatabase, hPrincipal, fun h => h.elim nofun nofun⟩

omit hs in
theorem authorizeDatabase_identity {identity : String} {db : Database}
    (h : authorizeDatabase database principal (some identity) resolved = some db) : db.id = identity := by
  obtain ⟨-, h⟩ := ite_none_right_eq_some.mp h
  have hChecked := (filter_eq_some_iff.mp h).2
  simp only [all_some, Bool.and_eq_true, beq_iff_eq] at hChecked
  exact hChecked.2.symm

theorem Sound.authorizeFlush {busy : Bool} (h : authorizeFlushStep s k resolved busy canceled = some s') : Sound floor s' := by
  obtain ⟨w, hw, h⟩ := bind_eq_some_iff.mp h
  obtain ⟨r, hr, -, h⟩ := bind_guard h
  split at h
  · rename_i db hAuthorized
    cases h
    obtain ⟨sub, hSub, hRegistered, hDatabase, hPrincipal, -⟩ := hs.flushes k w hw
    cases hr.symm.trans hSub
    refine (hs.record _).setFlush ?_
    rintro _ ⟨⟩
    refine ⟨r, hr, hRegistered, hDatabase, hPrincipal, fun _ => ?_⟩
    rw [authorizeDatabase_identity hAuthorized]
    exact mem_append_right _ mem_cons_self
  · have hEnded := hs.endNotice hw
    split at h
    · cases h
      exact hEnded
    split at h <;> cases h
    · split
      · exact (hEnded.setDelivery k _).sendError _
      · exact hEnded.sendError _
    · exact hEnded.failSub ..

theorem Sound.queueFlush (h : queueFlushStep s k = some s') : Sound floor s' := by
  obtain ⟨w, hw, hPhase, h⟩ := bind_guard h
  split at h <;> cases h
  · refine (hs.setDelivery k _).setFlush ?_
    rintro _ ⟨⟩
    obtain ⟨sub, hSub, hRegistered, hDatabase, hPrincipal, hGranted⟩ := hs.flushes k w hw
    exact ⟨sub, hSub, hRegistered, hDatabase, hPrincipal, fun _ => hGranted (.inl hPhase)⟩
  · exact hs.endNotice hw

theorem Sound.sendFlush (h : sendFlushStep s k = some s') : Sound floor s' := by
  obtain ⟨w, hw, h⟩ := bind_eq_some_iff.mp h
  obtain ⟨r, hr, -, ⟨⟩⟩ := bind_guard h
  obtain ⟨sub, hSub, hRegistered, -⟩ := hs.flushes k w hw
  cases hr.symm.trans hSub
  refine (hs.endNotice hw).sendControl fun _ => ⟨rfl, ?_, nofun, fun _ => ⟨k, rfl⟩⟩
  rintro _ ⟨⟩
  exact ⟨r, hr, rfl, hRegistered⟩

theorem Sound.endFlush (h : endFlushStep s k = some s') : Sound floor s' := by
  obtain ⟨w, hw, -, ⟨⟩⟩ := bind_guard h
  exact (hs.setDelivery k _).setFlush nofun

/-! ## Pages -/

theorem Sound.authorizeRead {wellFormed : Bool} (h : authorizeReadStep s p resolved wellFormed canceled = some s') :
    Sound floor s' := by
  obtain ⟨r, hr, h⟩ := bind_eq_some_iff.mp h
  obtain ⟨sub, hSub, -, h⟩ := bind_guard h
  split at h
  · cases h
    exact hs.failPage hr canceled
  rename_i db hAuthorized
  split at h
  · cases h
    have hScope := (hs.reads p r hr).scope
    have hIdentity : db.id = r.identity := by
      obtain ⟨sub', hSub', -, hSame, -⟩ := hScope
      cases hSub.symm.trans hSub'
      exact (authorizeDatabase_identity hAuthorized).trans hSame
    refine (hs.record _).setRead hr ⟨hScope, fun _ => ?_, nofun⟩
    rw [hIdentity]
    exact mem_append_right _ mem_cons_self
  · cases h
    exact hs.failPage hr canceled

theorem Sound.checkRead (h : checkReadStep s p live canceled = some s') : Sound floor s' := by
  obtain ⟨r, hr, hPhase, h⟩ := bind_guard h
  split at h
  · cases h
    exact hs.endRead hr (.inl rfl)
  split at h <;> cases h
  · exact hs.failPage hr canceled
  · have hOld := hs.reads p r hr
    exact hs.setRead hr ⟨hOld.scope, fun _ => hOld.granted (.inl hPhase), nofun⟩

theorem Sound.pull (h : pullStep s p ok canceled = some s') : Sound floor s' := by
  obtain ⟨r, hr, hPhase, h⟩ := bind_guard h
  split at h <;> cases h
  · have hOld := hs.reads p r hr
    refine (hs.record _).setRead hr ⟨hOld.scope, fun h => h.elim nofun nofun, fun _ => ?_⟩
    exact ⟨s.trace, [], rfl, hOld.granted (.inr hPhase)⟩
  · exact hs.failPage hr canceled

theorem Sound.enqueue {encoded : Bool} (h : enqueueStep s p encoded live canceled = some s') : Sound floor s' := by
  obtain ⟨r, hr, hPhase, h⟩ := bind_guard h
  split at h
  · cases h
    exact hs.endRead hr (.inl rfl)
  split at h
  · cases h
    exact hs.failPage hr canceled
  split at h <;> cases h
  · have hOld := hs.reads p r hr
    have hEnded := hs.endRead hr (.inl rfl)
    refine { hEnded with data := fun f hf hGuarded => ?_ }
    rcases mem_push.mp hf with hQueued | rfl
    · exact hEnded.data f hQueued hGuarded
    refine ⟨rfl, ?_, fun _ => ⟨p, _, rfl, update_self .., rfl, hOld.pulled hPhase⟩, fun h => h.elim nofun nofun⟩
    rintro _ ⟨⟩
    obtain ⟨sub, hSub, hRegistered, -⟩ := hOld.scope
    refine ⟨sub, hSub, ?_, hRegistered⟩
    simp [State.genOf, hSub]
  · exact hs.endRead hr (.inl rfl)

theorem Sound.finishRead (h : endReadStep s p = some s') : Sound floor s' := by
  obtain ⟨r, hr, -, h⟩ := bind_guard h
  dsimp only at h
  split at h <;> cases h
  · exact (hs.endRead hr (.inr rfl)).dropPage ..
  · exact hs.endRead hr (.inr rfl)

theorem Sound.expirePage (h : expirePageStep s p = some s') : Sound floor s' := by
  obtain ⟨r, -, h⟩ := map_eq_some_iff.mp h
  subst h
  split
  · exact (hs.retire _).sendError _
  · exact hs

/-! ## The writer -/

theorem Sound.pick {fromData : Bool} (h : pickStep s fromData = some s') : Sound floor s' := by
  obtain ⟨⟨-, -, hWriting⟩, h⟩ := ite_none_right_eq_some.mp h
  split at h
  · split at h
    · cases h
    rename_i f rest hData
    cases h
    refine { hs with
      idle := fun _ => hWriting
      data := fun f' hf' => hs.data f' (hData ▸ mem_cons_of_mem _ hf')
      picked := ?_ }
    rintro _ ⟨⟩
    exact hs.data f (hData ▸ mem_cons_self)
  · split at h
    · cases h
    rename_i f rest hControl
    cases h
    refine { hs with
      idle := fun _ => hWriting
      control := fun f' hf' => hs.control f' (hControl ▸ mem_cons_of_mem _ hf')
      picked := ?_ }
    rintro _ ⟨⟩
    exact hs.control f (hControl ▸ mem_cons_self)

theorem Sound.heartbeat (h : heartbeatStep s = some s') : Sound floor s' := by
  obtain ⟨⟨-, -, hWriting⟩, h⟩ := ite_none_right_eq_some.mp h
  cases h
  refine { hs with idle := fun _ => hWriting, picked := ?_ }
  rintro _ ⟨⟩
  nofun

theorem Sound.check (h : checkStep s = some s') : Sound floor s' := by
  obtain ⟨f, -, h⟩ := map_eq_some_iff.mp h
  subst h
  split
  · have hSent : Sound floor (s.markSent f) := by
      unfold State.markSent
      split
      · exact hs
      · exact { hs with }
    exact { hSent with idle := fun h => absurd rfl h, picked := by rintro _ ⟨⟩ }
  · exact { hs.discard f with idle := fun h => absurd rfl h, picked := by rintro _ ⟨⟩ }

theorem Sound.write (h : writeStep s ok = some s') : Sound floor s' := by
  obtain ⟨f, -, h⟩ := map_eq_some_iff.mp h
  subst h
  have hWritten : Sound floor (s.written f) := by
    unfold State.written
    dsimp only
    split <;> split
    · exact hs.setDelivery _ _
    · exact hs
    all_goals exact { hs with }
  exact { hWritten with idle := fun _ => rfl }

theorem Sound.drain (h : drainStep s = some s') : Sound floor s' := by
  obtain ⟨-, h⟩ := ite_none_right_eq_some.mp h
  split at h
  · cases h
  rename_i f rest hData
  cases h
  have hRest : Sound floor { s with data := rest } :=
    { hs with data := fun f' hf' => hs.data f' (hData ▸ mem_cons_of_mem _ hf') }
  exact hRest.discard f

/-! ## Runs -/

theorem Sound.next {a : Action} (h : step s a = some s') : Sound floor s' := by
  cases a with
  | tick | cancel | stop =>
    cases h
    exact { hs with }
  | invalidate k =>
    obtain ⟨r, -, h⟩ := map_eq_some_iff.mp h
    subst h
    exact hs.failSub ..
  | close => exact hs.close h
  | receive message granted => exact hs.receive h
  | dispatch grant => exact hs.dispatch h
  | verify gen claims => exact hs.verify h
  | authorizeAuth gen resolved canceled => exact hs.authorizeAuth h
  | complete gen live => exact hs.complete h
  | ackAuth gen => exact hs.ackAuth h
  | endAuth gen => exact hs.endAuth h
  | authorizeSub k resolved hash canceled => exact hs.authorizeSub h
  | bindSub k live => exact hs.bindSub h
  | registerSub k ok live canceled => exact hs.registerSub h
  | ackSub k => exact hs.ackSub h
  | changed k => exact hs.changed h
  | flush k => exact hs.flush h
  | authorizeFlush k resolved busy canceled => exact hs.authorizeFlush h
  | queueFlush k => exact hs.queueFlush h
  | sendFlush k => exact hs.sendFlush h
  | endFlush k => exact hs.endFlush h
  | authorizeRead p resolved wellFormed canceled => exact hs.authorizeRead h
  | checkRead p live canceled => exact hs.checkRead h
  | pull p ok canceled => exact hs.pull h
  | enqueue p encoded live canceled => exact hs.enqueue h
  | endRead p => exact hs.finishRead h
  | expirePage p => exact hs.expirePage h
  | pick fromData => exact hs.pick h
  | heartbeat => exact hs.heartbeat h
  | check => exact hs.check h
  | write ok => exact hs.write h
  | drain => exact hs.drain h

end Syntrix.ReplicaClient
