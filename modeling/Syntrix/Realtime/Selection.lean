import Syntrix.Realtime.Fencing

/-! # What the writer selects

A page, a notice or an acknowledgement is written only in the generation it was made for.
-/
namespace Syntrix.ReplicaClient

open Lib Option

variable {s s' : State} {floor : Nat} {f : Frame}

def Selects (s : State) (f : Frame) : Prop := ∃ s', step s .check = some s' ∧ s'.writing = some f

/-- What holds of the connection when the frame is selected. -/
structure Fenced (s : State) (f : Frame) : Prop where
  connection : s.closed = false ∧ s.authenticated = true ∧ s.authGen = f.gen
  unexpired : ∀ e, s.expires = some e → s.now < e
  subscription : ∀ k, f.sub = some k → ∃ r, s.registrations k = some r ∧ r.gen = f.gen ∧ r.registered = true ∧ s.subs r.id = some k
  notice : f.content = .changed ∨ f.content = .subscribeAck → ∃ k, f.sub = some k
  /-- The data was read from the database named by the auth message, after the principal it established was
  authorized for the identity that was found when the subscription was made. -/
  page : f.content = .page → ∃ p k r database principal before after,
    f.page = some p ∧ f.sub = some k ∧ s.registrations k = some r ∧
    s.named f.gen = some database ∧ s.established f.gen = some principal ∧
    Event.authorized (.registration k) database principal r.identity ∈ s.trace ∧
    s.trace = before ++ Event.pulled p database r.identity :: after ∧
    Event.authorized (.read p) database principal r.identity ∈ before

theorem valid_spec (h : s.valid f = true) :
    s.closed = false ∧ (f.authenticated = true → s.authCurrent f.gen = true) ∧ ∀ k, f.sub = some k → s.subCurrent k = true := by
  simp only [State.valid, Bool.and_eq_true, Bool.or_eq_true, Bool.not_eq_true', all_eq_true] at h
  obtain ⟨⟨⟨⟨hClosed, -⟩, hAuth⟩, hSub⟩, -⟩ := h
  exact ⟨hClosed, fun h => hAuth.resolve_left fun hNot => absurd (hNot.symm.trans h) nofun, hSub⟩

theorem discard_writing : (s.discard f).writing = s.writing := by
  unfold State.discard
  split <;> rfl

theorem Sound.selects (hs : Sound floor s) (h : Selects s f) : s.picked = some f ∧ s.valid f = true := by
  obtain ⟨s', hStep, hWriting⟩ := h
  obtain ⟨f', hPicked, rfl⟩ := map_eq_some_iff.mp hStep
  split at hWriting
  · rename_i hValid
    cases hWriting
    exact ⟨hPicked, hValid⟩
  · have hIdle := hs.idle (hPicked ▸ some_ne_none f')
    have hSame : s.writing = some f := discard_writing.symm.trans hWriting
    exact absurd (hIdle.symm.trans hSame) nofun

theorem Sound.fenced (hs : Sound floor s) (h : Selects s f) (hGuarded : f.content.guarded = true) : Fenced s f := by
  obtain ⟨hPicked, hValid⟩ := hs.selects h
  obtain ⟨-, hAuth, hCurrent⟩ := valid_spec hValid
  have hFrame := hs.picked f hPicked hGuarded
  obtain ⟨hClosed, hAuthenticated, hGen, hExpires⟩ := authCurrent_spec (hAuth hFrame.authenticated)
  refine ⟨⟨hClosed, hAuthenticated, hGen⟩, hExpires, fun k hk => ?_, hFrame.notice, fun hPage => ?_⟩
  · obtain ⟨r, hr, hSame, hRegistered⟩ := hFrame.sub k hk
    obtain ⟨r', hr', -, hListed, -⟩ := subCurrent_spec (hCurrent k hk)
    cases hr.symm.trans hr'
    exact ⟨r, hr, hSame, hRegistered, hListed⟩
  · obtain ⟨p, read, hp, hRead, hSub, before, after, hTrace, hBefore⟩ := hFrame.page hPage
    obtain ⟨r, hr, hSame, -⟩ := hFrame.sub read.sub hSub
    obtain ⟨r', hr', hRegistered, hIdentity, hDatabase, hPrincipal⟩ := (hs.reads p read hRead).scope
    cases hr.symm.trans hr'
    have hOld := hs.registrations read.sub r hr
    obtain ⟨hNamed, hEstablished⟩ := hOld.scope
    rw [hSame] at hNamed hEstablished
    rw [← hDatabase, ← hPrincipal, ← hIdentity] at hBefore
    rw [← hDatabase, ← hIdentity] at hTrace
    exact ⟨p, read.sub, r, r.database, r.principal, before, after, hp, hSub, hr, hNamed, hEstablished,
      hOld.bound (.inr hRegistered), hTrace, hBefore⟩

theorem Sound.run {actions : List Action} {start : State} (hs : Sound floor start)
    (h : Runs step (fun _ _ => True) start actions s) : Sound floor s :=
  h.invariant hs fun _ _ _ hs _ hStep => hs.next hStep

/-- In every run of the connection, a page, a notice or an acknowledgement of a subscription is selected only
behind its fence; and once a later auth message has been accepted, none of an earlier generation is. -/
theorem writer_selects_fenced {actions : List Action} (h : Runs step (fun _ _ => True) start actions s) :
    (∀ f, Selects s f → f.content.guarded = true → Fenced s f) ∧
      ∀ a accepted later t, step s a = some accepted → s.authGen < accepted.authGen →
        Runs step (fun _ _ => True) accepted later t →
        ∀ f, Selects t f → f.content.guarded = true → s.authGen < f.gen := by
  have hs := sound_start.run h
  refine ⟨fun f hSelects hGuarded => hs.fenced hSelects hGuarded, fun a accepted later t hStep hLater hRun f hSelects hGuarded => ?_⟩
  have hAccepted := hs.next hStep
  have hFloor : Sound accepted.authGen accepted := { hAccepted with floor := le_rfl }
  have ht := hFloor.run hRun
  have hGen := (ht.fenced hSelects hGuarded).connection.2.2
  calc s.authGen < accepted.authGen := hLater
    _ ≤ t.authGen := ht.floor
    _ = f.gen := hGen

def ownedDatabase : Database := ⟨"0123456789abcdef", "owner", none⟩

def ownerClaims : Claims := ⟨"owner", [], false, some 100⟩

def authentication (gen : Nat) : List Action :=
  [.verify gen (some ownerClaims), .authorizeAuth gen (some ownedDatabase) false, .complete gen true, .ackAuth gen,
    .pick false, .check, .write true]

def subscription (k : Nat) (id : String) : List Action :=
  [.receive (.subscribe id "items" none) true, .dispatch .granted, .authorizeSub k (some ownedDatabase) (some "hash") false,
    .bindSub k true, .registerSub k true true false, .ackSub k, .pick false]

def authMessage : Action := .receive (.auth "db" true) true

def pageRun : List Action :=
  authMessage :: authentication 1 ++ subscription 0 "first" ++
    [Action.check, .write true, .receive (.read "first" "page" "items" none (some "hash") none) true, .dispatch .granted,
      .authorizeRead 0 (some ownedDatabase) true false, .checkRead 0 true false, .pull 0 true false,
      .enqueue 0 true true false, .pick true]

/-- After a second auth message: the page is dropped, and a new subscription is acknowledged. -/
def secondRun : List Action := Action.check :: authentication 2 ++ subscription 1 "second"

def pageFrame : Frame := { content := .page, gen := 1, sub := some 0, page := some 0, authenticated := true }

def secondFrame : Frame := { content := .subscribeAck, gen := 2, sub := some 1, authenticated := true }

theorem selects_of_check {f : Frame} (h : (step s .check).map State.writing = some (some f)) : Selects s f :=
  map_eq_some_iff.mp h

theorem writer_selects_fenced_page : ∃ s accepted t,
    Runs step (fun _ _ => True) start pageRun s ∧ Selects s pageFrame ∧ Fenced s pageFrame ∧
      step s authMessage = some accepted ∧ Runs step (fun _ _ => True) accepted secondRun t ∧ Selects t secondFrame ∧
        s.authGen < secondFrame.gen := by
  have hEnd : (pageRun.foldlM step start).map (fun s =>
      decide ((step s .check).map State.writing = some (some pageFrame) ∧ s.authGen = 1 ∧
        ((step s authMessage).map fun accepted => decide (accepted.authGen = 2 ∧
          ((secondRun.foldlM step accepted).map fun t =>
            decide ((step t .check).map State.writing = some (some secondFrame))) = some true)) = some true)) = some true := by
    decide +kernel
  obtain ⟨s, hFold, hs⟩ := map_eq_some_iff.mp hEnd
  obtain ⟨hPage, hGen, hNext⟩ := of_decide_eq_true hs
  obtain ⟨accepted, hStep, hAccepted⟩ := map_eq_some_iff.mp hNext
  obtain ⟨hNew, hLater⟩ := of_decide_eq_true hAccepted
  obtain ⟨t, hSecond, ht⟩ := map_eq_some_iff.mp hLater
  have hRun : Runs step (fun _ _ => True) start pageRun s := Runs.of_foldlM (fun _ _ _ => trivial) hFold
  have hRest : Runs step (fun _ _ => True) accepted secondRun t := Runs.of_foldlM (fun _ _ _ => trivial) hSecond
  have hSelects := selects_of_check hPage
  have hSelects' := selects_of_check (of_decide_eq_true ht)
  obtain ⟨hFenced, hSuperseded⟩ := writer_selects_fenced hRun
  refine ⟨s, accepted, t, hRun, hSelects, hFenced pageFrame hSelects rfl, hStep, hRest, hSelects', ?_⟩
  exact hSuperseded authMessage accepted secondRun t hStep (by omega) hRest secondFrame hSelects' rfl

end Syntrix.ReplicaClient
