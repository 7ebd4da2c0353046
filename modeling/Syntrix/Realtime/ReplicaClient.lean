import Syntrix.Lib.Runs

/-! # One replica connection

A connection is authenticated again and again; each auth message starts a generation. Subscriptions, page
reads and change notices are worked on beside the reader and the writer, and each of them looks at the
connection again after it has waited. The steps are the sections under the lock of the connection and the
calls between them. Budgets, deadlines and the answers of the services are chosen by the action, and the
connection may be closed at any time.
-/
namespace Syntrix.ReplicaClient

open Function

structure Principal where
  subject : String
  dbAdmin : List String
deriving DecidableEq

structure Database where
  id : String
  ownerID : String
  slug : Option String
deriving DecidableEq

def validateID (id : String) : Bool :=
  id.utf8ByteSize == 16 && id.toList.all fun c => ('0' ≤ c && c ≤ '9') || ('a' ≤ c && c ≤ 'f')

def Principal.allowed (principal : Principal) (db : Database) : Bool :=
  db.ownerID == principal.subject ||
    principal.dbAdmin.any fun grant => grant == db.id || db.slug.any fun slug => slug != "" && grant == slug

/-- The grants are checked against what the service resolved, and then its identity. -/
def authorizeDatabase (database : String) (principal : Principal) (expected : Option String) (resolved : Option Database) :
    Option Database :=
  if expected.all validateID && principal.subject != "" && database != "" then
    resolved.filter fun db => db.id != "" && principal.allowed db && expected.all (· == db.id)
  else none

/-! ## State -/

structure Claims where
  subject : String
  dbAdmin : List String
  disabled : Bool
  expiresAt : Option Nat
deriving DecidableEq

inductive AuthPhase where
  | verifying
  | verified (principal : Principal) (expires : Option Nat)
  | authorized (principal : Principal) (expires : Option Nat)
  | acking
  | ending
  | done
deriving DecidableEq

structure AuthWork where
  database : String
  phase : AuthPhase := .verifying
deriving DecidableEq

inductive RegistrationPhase where
  | authorizing
  | authorized (identity hash : String)
  | subscribing
  | acking
  | done
deriving DecidableEq

/-- The part of a subscription that the call that registers it writes. -/
structure Registration where
  id : String
  gen : Nat
  collection : String
  expected : Option String
  database : String
  principal : Principal
  identity : String := ""
  hash : String := ""
  registered : Bool := false
  phase : RegistrationPhase := .authorizing
deriving DecidableEq

structure Delivery where
  retired : Bool := false
  dirty : Bool := false
  flushing : Bool := false
  changedQueued : Bool := false
  page : Option Nat := none
  lastACK : String := ""
deriving DecidableEq

inductive ReadPhase where
  | authorizing
  | authorized
  | checked
  | pulled
  | ending
  | done
deriving DecidableEq

structure PageRead where
  sub : Nat
  id : String
  database : String
  principal : Principal
  identity : String
  phase : ReadPhase := .authorizing
deriving DecidableEq

structure Page where
  bufferHeld : Bool := false
  sent : Bool := false
  acked : Bool := false
  retired : Bool := false
deriving DecidableEq

inductive FlushPhase where
  | authorizing
  | authorized
  | sending
  | ending
deriving DecidableEq

structure Flush where
  database : String
  principal : Principal
  phase : FlushPhase := .authorizing
deriving DecidableEq

inductive Content where
  | page
  | changed
  | subscribeAck
  | unsubscribeAck
  | authAck
  | error
  | heartbeat
deriving DecidableEq

structure Frame where
  content : Content
  gen : Nat
  sub : Option Nat := none
  page : Option Nat := none
  authenticated : Bool := false
  closeAfter : Bool := false
deriving DecidableEq

inductive Message where
  | malformed
  | auth (database : String) (wellFormed : Bool)
  | invalid
  | subscribe (id collection : String) (expected : Option String)
  | read (sub id collection : String) (identity hash expectedHash : Option String)
  | acknowledge (sub id : String)
  | unsubscribe (sub : String)
deriving DecidableEq

inductive Work where
  | connection (gen : Nat)
  | registration (sub : Nat)
  | read (page : Nat)
  | flush (sub : Nat)
deriving DecidableEq

inductive Event where
  | authorized (work : Work) (database : String) (principal : Principal) (identity : String)
  | pulled (page : Nat) (database : String) (identity : String)
deriving DecidableEq

structure History where
  /-- The database that the auth message of a generation named, and the principal it established. -/
  named : Nat → Option String
  established : Nat → Option Principal
  registrations : Nat → Option Registration
  reads : Nat → Option PageRead
  trace : List Event

structure State extends History where
  now : Nat
  closed : Bool
  cancelled : Bool
  authenticated : Bool
  authenticating : Bool
  authGen : Nat
  database : String
  principal : Principal
  expires : Option Nat
  auths : Nat → Option AuthWork
  seen : List String
  subs : String → Option Nat
  deliveries : Nat → Delivery
  nextSub : Nat
  pages : Nat → Page
  nextPage : Nat
  flushes : Nat → Option Flush
  control : List Frame
  data : List Frame
  /-- The message between the check of the reader and its handler, with the generation of that check. -/
  handling : Option (Message × Nat)
  reading : Bool
  picked : Option Frame
  writing : Option Frame
  stopped : Bool

def start : State where
  now := 0
  closed := false
  cancelled := false
  authenticated := false
  authenticating := false
  authGen := 0
  database := ""
  principal := ⟨"", []⟩
  expires := none
  named _ := none
  established _ := none
  auths _ := none
  seen := []
  subs _ := none
  registrations _ := none
  deliveries _ := {}
  nextSub := 0
  reads _ := none
  pages _ := {}
  nextPage := 0
  flushes _ := none
  control := []
  data := []
  handling := none
  reading := true
  picked := none
  writing := none
  stopped := false
  trace := []

inductive Grant where
  | granted
  | full
  | busy
deriving DecidableEq

inductive Action where
  | tick
  | cancel
  | close
  | receive (message : Message) (granted : Bool)
  | dispatch (grant : Grant)
  | verify (gen : Nat) (claims : Option Claims)
  | authorizeAuth (gen : Nat) (resolved : Option Database) (canceled : Bool)
  | complete (gen : Nat) (live : Bool)
  | ackAuth (gen : Nat)
  | endAuth (gen : Nat)
  | authorizeSub (sub : Nat) (resolved : Option Database) (hash : Option String) (canceled : Bool)
  | bindSub (sub : Nat) (live : Bool)
  | registerSub (sub : Nat) (ok live canceled : Bool)
  | ackSub (sub : Nat)
  | invalidate (sub : Nat)
  | changed (sub : Nat)
  | flush (sub : Nat)
  | authorizeFlush (sub : Nat) (resolved : Option Database) (busy canceled : Bool)
  | queueFlush (sub : Nat)
  | sendFlush (sub : Nat)
  | endFlush (sub : Nat)
  | authorizeRead (page : Nat) (resolved : Option Database) (wellFormed canceled : Bool)
  | checkRead (page : Nat) (live canceled : Bool)
  | pull (page : Nat) (ok canceled : Bool)
  | enqueue (page : Nat) (encoded live canceled : Bool)
  | endRead (page : Nat)
  | expirePage (page : Nat)
  | pick (fromData : Bool)
  | heartbeat
  | check
  | write (ok : Bool)
  | stop
  | drain

/-! ## What is current -/

def State.authCurrent (s : State) (gen : Nat) : Bool :=
  !s.closed && s.authenticated && s.authGen == gen && s.expires.all (s.now < ·)

def State.subCurrent (s : State) (k : Nat) : Bool :=
  (s.registrations k).any fun r =>
    !(s.deliveries k).retired && s.subs r.id == some k && s.authCurrent r.gen && !s.cancelled

def State.pageCurrent (s : State) (p : Nat) : Bool :=
  (s.reads p).any fun r => s.subCurrent r.sub && (s.deliveries r.sub).page == some p && !(s.pages p).retired

/-! ## Retiring -/

/-- The chosen subscriptions that are not retired yet are retired, with their pages. -/
def State.retire (s : State) (chosen : Nat → Bool) : State :=
  let retires k := chosen k && !(s.deliveries k).retired
  { s with
    deliveries := fun k => if retires k then { s.deliveries k with retired := true, page := none } else s.deliveries k
    subs := fun id => (s.subs id).filter fun k => !retires k
    pages := fun p =>
      if (s.reads p).any fun r => retires r.sub && (s.deliveries r.sub).page == some p then
        { s.pages p with retired := true }
      else s.pages p }

def State.retireSub (s : State) (k : Nat) : State := s.retire (· == k)

def State.retireSubs (s : State) : State :=
  s.retire fun k => (s.registrations k).any fun r => s.subs r.id == some k

def closeStep (s : State) : Option State :=
  if s.closed then some s else some { s.retireSubs with closed := true, cancelled := true }

/-- A frame that finds no room is dropped, and the connection will be closed. -/
def State.sendControl (s : State) (f : Frame) : State :=
  if s.closed = false ∧ f.gen = s.authGen ∧ s.control.length < 32 then { s with control := s.control ++ [f] } else s

def State.sendError (s : State) (gen : Nat) : State :=
  s.sendControl { content := .error, gen := gen }

def State.failure (s : State) (gen : Nat) (canceled : Bool) : State :=
  if canceled then s else s.sendError gen

def State.failSub (s : State) (k gen : Nat) (canceled : Bool) : State :=
  if s.subCurrent k then (s.retireSub k).failure gen canceled else s.retireSub k

def State.dropPage (s : State) (p k : Nat) : State :=
  { s with
    pages := update s.pages p { s.pages p with retired := true }
    deliveries := update s.deliveries k
      { s.deliveries k with page := (s.deliveries k).page.filter (· ≠ p) } }

/-! ## Authentication -/

def State.startAuth (s : State) (database : String) (wellFormed granted : Bool) : State :=
  if wellFormed = false then s.sendError s.authGen
  else if s.closed then s
  else if s.authenticating || !granted then s.sendError s.authGen
  else
    { s.retireSubs with
      authGen := s.authGen + 1
      authenticated := false
      authenticating := true
      named := update s.named (s.authGen + 1) (some database)
      auths := update s.auths (s.authGen + 1) (some { database := database }) }

def State.setAuth (s : State) (gen : Nat) (w : AuthWork) (phase : AuthPhase) : State :=
  { s with auths := update s.auths gen (some { w with phase := phase }) }

def Claims.rejected (claims : Claims) (now : Nat) : Bool :=
  claims.disabled || claims.subject == "" || claims.expiresAt.any (· ≤ now)

def verifyStep (s : State) (gen : Nat) (claims : Option Claims) : Option State :=
  (s.auths gen).bind fun w =>
    if w.phase = .verifying then
      match claims.filter fun c => !c.rejected s.now with
      | none => some ((s.setAuth gen w .ending).sendError gen)
      | some c => some (s.setAuth gen w (.verified ⟨c.subject, c.dbAdmin⟩ c.expiresAt))
    else none

def authorizeAuthStep (s : State) (gen : Nat) (resolved : Option Database) (canceled : Bool) : Option State :=
  (s.auths gen).bind fun w =>
    match w.phase with
    | .verified principal expires =>
      match authorizeDatabase w.database principal none resolved with
      | none => some ((s.setAuth gen w .ending).failure gen canceled)
      | some db => some { s.setAuth gen w (.authorized principal expires) with
          trace := s.trace ++ [.authorized (.connection gen) w.database principal db.id] }
    | _ => none

def completeStep (s : State) (gen : Nat) (live : Bool) : Option State :=
  (s.auths gen).bind fun w =>
    match w.phase with
    | .authorized principal expires =>
      if s.closed = false ∧ s.authGen = gen ∧ live = true then
        some { s.setAuth gen w .acking with
          database := w.database
          principal := principal
          authenticated := true
          authenticating := false
          expires := expires
          established := update s.established gen (some principal) }
      else some (s.setAuth gen w .ending)
    | _ => none

def ackAuthStep (s : State) (gen : Nat) : Option State :=
  (s.auths gen).bind fun w =>
    if w.phase = .acking then
      some ((s.setAuth gen w .ending).sendControl { content := .authAck, gen := gen, authenticated := true })
    else none

def endAuthStep (s : State) (gen : Nat) : Option State :=
  (s.auths gen).bind fun w =>
    if w.phase = .ending then
      some { s.setAuth gen w .done with authenticating := s.authenticating && s.authGen != gen }
    else none

/-! ## Messages -/

def receiveStep (s : State) (message : Message) (granted : Bool) : Option State :=
  if s.reading = true ∧ s.handling = none then
    match message with
    | .malformed => some { s.sendControl { content := .error, gen := s.authGen, closeAfter := true } with reading := false }
    | .auth database wellFormed => some (s.startAuth database wellFormed granted)
    | message => if s.authCurrent s.authGen then some { s with handling := some (message, s.authGen) } else some (s.sendError s.authGen)
  else none

def State.startSubscribe (s : State) (gen : Nat) (id collection : String) (expected : Option String) (grant : Grant) : State :=
  if s.authCurrent gen = false then s
  else if id ∈ s.seen then s.sendError gen
  else
    match grant with
    | .full => s.sendControl { content := .error, gen := gen, closeAfter := true }
    | .busy => { s with seen := id :: s.seen }.sendError gen
    | .granted =>
      { s with
        seen := id :: s.seen
        subs := update s.subs id (some s.nextSub)
        registrations := update s.registrations s.nextSub
          (some { id, gen, collection, expected, database := s.database, principal := s.principal })
        deliveries := update s.deliveries s.nextSub {}
        nextSub := s.nextSub + 1 }

/-- A read is refused when the subscription is not current and free, names another identity, or is of
another source. -/
def State.readRefused (s : State) (k : Nat) (r : Registration) (id collection : String)
    (identity hash expectedHash : Option String) : Bool :=
  !s.subCurrent k || !r.registered || (s.deliveries k).page.isSome || (s.deliveries k).lastACK == id ||
    identity.any (· != r.identity) || collection != r.collection || hash != some r.hash || expectedHash.any (· != r.hash)

def State.startRead (s : State) (gen : Nat) (sub id collection : String) (identity hash expectedHash : Option String)
    (grant : Grant) : State :=
  match (s.subs sub).bind fun k => (s.registrations k).map fun r => (k, r) with
  | none => s.sendError gen
  | some (k, r) =>
    if s.readRefused k r id collection identity hash expectedHash || grant != .granted then s.sendError gen
    else
      { s with
        reads := update s.reads s.nextPage
          (some { sub := k, id, database := s.database, principal := s.principal, identity := r.identity })
        pages := update s.pages s.nextPage {}
        nextPage := s.nextPage + 1
        deliveries := update s.deliveries k { s.deliveries k with page := some s.nextPage } }

def State.acknowledge (s : State) (gen : Nat) (sub id : String) : State :=
  match (s.subs sub).bind fun k => (s.registrations k).map fun r => (k, r) with
  | none => s.sendError gen
  | some (k, r) =>
    if !s.subCurrent k || !r.registered then s.sendError gen
    else if (s.deliveries k).lastACK = id then s
    else
      match (s.deliveries k).page with
      | none => s.sendError gen
      | some p =>
        if (s.reads p).any (·.id == id) && (s.pages p).sent then
          { s with
            pages := update s.pages p { s.pages p with acked := true }
            deliveries := update s.deliveries k { s.deliveries k with lastACK := id, page := none } }
        else s.sendError gen

def State.unsubscribe (s : State) (gen : Nat) (sub : String) : State :=
  (match s.subs sub with
    | none => s
    | some k => s.retireSub k).sendControl { content := .unsubscribeAck, gen := gen, authenticated := true }

def dispatchStep (s : State) (grant : Grant) : Option State :=
  s.handling.map fun m =>
    let s := { s with handling := none }
    match m.1 with
    | .malformed | .auth _ _ | .invalid => s.sendError m.2
    | .subscribe id collection expected => s.startSubscribe m.2 id collection expected grant
    | .read sub id collection identity hash expectedHash => s.startRead m.2 sub id collection identity hash expectedHash grant
    | .acknowledge sub id => s.acknowledge m.2 sub id
    | .unsubscribe sub => s.unsubscribe m.2 sub

/-! ## Registrations -/

def State.setRegistration (s : State) (k : Nat) (r : Registration) : State :=
  { s with registrations := update s.registrations k (some r) }

def authorizeSubStep (s : State) (k : Nat) (resolved : Option Database) (hash : Option String) (canceled : Bool) : Option State :=
  (s.registrations k).bind fun r =>
    if r.phase = .authorizing then
      match authorizeDatabase r.database r.principal r.expected resolved with
      | none => some ((s.setRegistration k { r with phase := .done }).failSub k r.gen canceled)
      | some db =>
        match hash with
        | none => some ((s.setRegistration k { r with phase := .done }).failSub k r.gen canceled)
        | some hash => some { s.setRegistration k { r with phase := .authorized db.id hash } with
            trace := s.trace ++ [.authorized (.registration k) r.database r.principal db.id] }
    else none

def bindSubStep (s : State) (k : Nat) (live : Bool) : Option State :=
  (s.registrations k).bind fun r =>
    match r.phase with
    | .authorized identity hash =>
      if s.subCurrent k && live then some (s.setRegistration k { r with identity, hash, phase := .subscribing })
      else some (s.setRegistration k { r with phase := .done })
    | _ => none

def registerSubStep (s : State) (k : Nat) (ok live canceled : Bool) : Option State :=
  (s.registrations k).bind fun r =>
    if r.phase = .subscribing then
      if ok = false then some ((s.setRegistration k { r with phase := .done }).failSub k r.gen canceled)
      else if s.subCurrent k && live then some (s.setRegistration k { r with registered := true, phase := .acking })
      else some (s.setRegistration k { r with phase := .done })
    else none

def ackSubStep (s : State) (k : Nat) : Option State :=
  (s.registrations k).bind fun r =>
    if r.phase = .acking then
      some ((s.setRegistration k { r with phase := .done }).sendControl
        { content := .subscribeAck, gen := r.gen, sub := some k, authenticated := true })
    else none

/-- The hub has given up the registration, or it has taken too long. -/
def invalidateStep (s : State) (k : Nat) : Option State :=
  (s.registrations k).map fun r => s.failSub k r.gen false

/-! ## Change notices -/

def State.setDelivery (s : State) (k : Nat) (d : Delivery) : State :=
  { s with deliveries := update s.deliveries k d }

def State.setFlush (s : State) (k : Nat) (flush : Option Flush) : State :=
  { s with flushes := update s.flushes k flush }

def changedStep (s : State) (k : Nat) : Option State :=
  if s.subCurrent k then some (s.setDelivery k { s.deliveries k with dirty := true }) else some s

def flushStep (s : State) (k : Nat) : Option State :=
  (s.registrations k).bind fun r =>
    let d := s.deliveries k
    if s.subCurrent k && r.registered && d.dirty && !d.flushing && !d.changedQueued then
      some ((s.setDelivery k { d with flushing := true, dirty := false }).setFlush k
        (some { database := s.database, principal := s.principal }))
    else none

/-- A busy server is asked again later; any other refusal ends the subscription. -/
def authorizeFlushStep (s : State) (k : Nat) (resolved : Option Database) (busy canceled : Bool) : Option State :=
  (s.flushes k).bind fun w => (s.registrations k).bind fun r =>
    if w.phase = .authorizing then
      match authorizeDatabase w.database w.principal (some r.identity) resolved with
      | some db => some { s.setFlush k (some { w with phase := .authorized }) with
          trace := s.trace ++ [.authorized (.flush k) w.database w.principal db.id] }
      | none =>
        let s' := s.setFlush k (some { w with phase := .ending })
        if canceled then some s'
        else if busy then
          some ((if s.subCurrent k then s'.setDelivery k { s.deliveries k with dirty := true } else s').sendError r.gen)
        else some (s'.failSub k r.gen false)
    else none

def queueFlushStep (s : State) (k : Nat) : Option State :=
  (s.flushes k).bind fun w =>
    if w.phase = .authorized then
      if s.subCurrent k then
        some ((s.setDelivery k { s.deliveries k with changedQueued := true }).setFlush k (some { w with phase := .sending }))
      else some (s.setFlush k (some { w with phase := .ending }))
    else none

def sendFlushStep (s : State) (k : Nat) : Option State :=
  (s.flushes k).bind fun w => (s.registrations k).bind fun r =>
    if w.phase = .sending then
      some ((s.setFlush k (some { w with phase := .ending })).sendControl
        { content := .changed, gen := r.gen, sub := some k, authenticated := true })
    else none

def endFlushStep (s : State) (k : Nat) : Option State :=
  (s.flushes k).bind fun w =>
    if w.phase = .ending then some ((s.setDelivery k { s.deliveries k with flushing := false }).setFlush k none) else none

/-! ## Pages -/

def State.setRead (s : State) (p : Nat) (r : PageRead) (phase : ReadPhase) : State :=
  { s with reads := update s.reads p (some { r with phase := phase }) }

def State.genOf (s : State) (k : Nat) : Nat := ((s.registrations k).map Registration.gen).getD 0

def State.failPage (s : State) (p : Nat) (r : PageRead) (canceled : Bool) : State :=
  let s' := (s.setRead p r .ending).dropPage p r.sub
  if s.subCurrent r.sub && (s.deliveries r.sub).page == some p then s'.failure (s.genOf r.sub) canceled else s'

def authorizeReadStep (s : State) (p : Nat) (resolved : Option Database) (wellFormed canceled : Bool) : Option State :=
  (s.reads p).bind fun r => (s.registrations r.sub).bind fun sub =>
    if r.phase = .authorizing then
      match authorizeDatabase r.database r.principal (some sub.identity) resolved with
      | none => some (s.failPage p r canceled)
      | some db =>
        if wellFormed then
          some { s.setRead p r .authorized with
            trace := s.trace ++ [.authorized (.read p) r.database r.principal db.id] }
        else some (s.failPage p r canceled)
    else none

def checkReadStep (s : State) (p : Nat) (live canceled : Bool) : Option State :=
  (s.reads p).bind fun r =>
    if r.phase = .authorized then
      if s.pageCurrent p = false then some (s.setRead p r .ending)
      else if live = false then some (s.failPage p r canceled)
      else some (s.setRead p r .checked)
    else none

def pullStep (s : State) (p : Nat) (ok canceled : Bool) : Option State :=
  (s.reads p).bind fun r =>
    if r.phase = .checked then
      if ok then some { s.setRead p r .pulled with trace := s.trace ++ [.pulled p r.database r.identity] }
      else some (s.failPage p r canceled)
    else none

def enqueueStep (s : State) (p : Nat) (encoded live canceled : Bool) : Option State :=
  (s.reads p).bind fun r =>
    if r.phase = .pulled then
      if s.pageCurrent p = false then some (s.setRead p r .ending)
      else if encoded = false ∨ live = false then some (s.failPage p r canceled)
      else if s.data.length < 4 then
        some { s.setRead p r .ending with
          pages := update s.pages p { s.pages p with bufferHeld := true }
          data := s.data ++ [{ content := .page, gen := s.genOf r.sub, sub := some r.sub, page := some p, authenticated := true }] }
      else some (s.setRead p r .ending)
    else none

def endReadStep (s : State) (p : Nat) : Option State :=
  (s.reads p).bind fun r =>
    if r.phase = .ending then
      let page := s.pages p
      if !page.bufferHeld && !page.sent && !page.acked then some ((s.setRead p r .done).dropPage p r.sub)
      else some (s.setRead p r .done)
    else none

def expirePageStep (s : State) (p : Nat) : Option State :=
  (s.reads p).map fun r =>
    if s.pageCurrent p && !(s.pages p).acked then (s.retireSub r.sub).sendError (s.genOf r.sub) else s

/-! ## The writer -/

def pickStep (s : State) (fromData : Bool) : Option State :=
  if s.stopped = false ∧ s.picked = none ∧ s.writing = none then
    if fromData then
      match s.data with
      | [] => none
      | f :: rest => some { s with data := rest, picked := some f }
    else
      match s.control with
      | [] => none
      | f :: rest => some { s with control := rest, picked := some f }
  else none

def heartbeatStep (s : State) : Option State :=
  if s.stopped = false ∧ s.picked = none ∧ s.writing = none then
    some { s with picked := some { content := .heartbeat, gen := s.authGen } }
  else none

def State.discard (s : State) (f : Frame) : State :=
  match f.page, f.sub with
  | some p, some k =>
    let s := s.dropPage p k
    { s with pages := update s.pages p { s.pages p with bufferHeld := false } }
  | _, _ => s

def State.valid (s : State) (f : Frame) : Bool :=
  !s.closed && f.gen == s.authGen && (!f.authenticated || s.authCurrent f.gen) && f.sub.all s.subCurrent &&
    f.page.all fun p => f.sub.any fun k => (s.deliveries k).page == some p && !(s.pages p).retired

def State.markSent (s : State) (f : Frame) : State :=
  match f.page with
  | none => s
  | some p => { s with pages := update s.pages p { s.pages p with sent := true } }

def checkStep (s : State) : Option State :=
  s.picked.map fun f =>
    if s.valid f then { s.markSent f with picked := none, writing := some f }
    else { s.discard f with picked := none }

def State.written (s : State) (f : Frame) : State :=
  let s := match f.content, f.sub with
    | .changed, some k => s.setDelivery k { s.deliveries k with changedQueued := false }
    | _, _ => s
  match f.page with
  | none => s
  | some p => { s with pages := update s.pages p { s.pages p with bufferHeld := false } }

def writeStep (s : State) (ok : Bool) : Option State :=
  s.writing.map fun f => { s.written f with writing := none, stopped := !ok || f.closeAfter }

def drainStep (s : State) : Option State :=
  if s.stopped then
    match s.data with
    | [] => none
    | f :: rest => some ({ s with data := rest }.discard f)
  else none

def step (s : State) : Action → Option State
  | .tick => some { s with now := s.now + 1 }
  | .cancel => some { s with cancelled := true }
  | .close => closeStep s
  | .receive message granted => receiveStep s message granted
  | .dispatch grant => dispatchStep s grant
  | .verify gen claims => verifyStep s gen claims
  | .authorizeAuth gen resolved canceled => authorizeAuthStep s gen resolved canceled
  | .complete gen live => completeStep s gen live
  | .ackAuth gen => ackAuthStep s gen
  | .endAuth gen => endAuthStep s gen
  | .authorizeSub k resolved hash canceled => authorizeSubStep s k resolved hash canceled
  | .bindSub k live => bindSubStep s k live
  | .registerSub k ok live canceled => registerSubStep s k ok live canceled
  | .ackSub k => ackSubStep s k
  | .invalidate k => invalidateStep s k
  | .changed k => changedStep s k
  | .flush k => flushStep s k
  | .authorizeFlush k resolved busy canceled => authorizeFlushStep s k resolved busy canceled
  | .queueFlush k => queueFlushStep s k
  | .sendFlush k => sendFlushStep s k
  | .endFlush k => endFlushStep s k
  | .authorizeRead p resolved wellFormed canceled => authorizeReadStep s p resolved wellFormed canceled
  | .checkRead p live canceled => checkReadStep s p live canceled
  | .pull p ok canceled => pullStep s p ok canceled
  | .enqueue p encoded live canceled => enqueueStep s p encoded live canceled
  | .endRead p => endReadStep s p
  | .expirePage p => expirePageStep s p
  | .pick fromData => pickStep s fromData
  | .heartbeat => heartbeatStep s
  | .check => checkStep s
  | .write ok => writeStep s ok
  | .stop => some { s with stopped := true }
  | .drain => drainStep s

end Syntrix.ReplicaClient
