import Syntrix.Lib.Runs

/-! # The remote stream

A stream keeps its registrations over a sequence of transports. Every transport is an attempt with a
generation of its own; a registration is pending until the server answers it on the attempt it was made
on, and a new attempt registers the active ones again before the stream reports that it is connected.
-/
namespace Syntrix.Streamer

open Function

def registrationLimit : Nat := 256

def activeRegistrationLimit : Nat := 4096

def recvCapacity : Nat := 100

/-! ## The parts -/

/-- A pending registration; the call that made it tells it from others of the same ID. -/
structure Entry where
  id : String
  call : Nat
  attempt : Nat
  restoring : Bool
deriving DecidableEq

/-- Where a call of `register` is; the later phases know what it returns. -/
inductive Phase where
  | entered
  | sending
  | queued
  | waiting
  | abandoning (ok : Bool)
  | cleaning (ok : Bool)
  | done (ok : Bool)
deriving DecidableEq

structure Call where
  entry : Entry
  phase : Phase := .entered
  /-- What the writer answered to the send. -/
  written : Option Bool := none
  response : Option Bool := none
  withdrawn : Bool := false
  /-- The context of the call is done. -/
  expired : Bool := false
deriving DecidableEq

inductive Operation where
  | subscribe (call : Nat)
  | unsubscribe (id : String)
  | cleanup (id : String)
deriving DecidableEq

inductive ConnectionState where
  | connected
  | reconnecting
  | disconnected
deriving DecidableEq

inductive Main where
  | opening (attempt : Nat)
  | restoring (attempt : Nat) (requests : List String) (call : Option Nat)
  | connecting (attempt : Nat)
  | serving (attempt : Nat)
  | leaving (attempt : Nat)
  | between
  | dialing
  | finished
deriving DecidableEq

def Main.attempt : Main → Option Nat
  | .opening a => some a
  | .restoring a _ _ => some a
  | .connecting a => some a
  | .serving a => some a
  | .leaving a => some a
  | .between => none
  | .dialing => none
  | .finished => none

structure Delivery where
  attempt : Nat
  generation : Nat
deriving DecidableEq

/-- A call of `Recv`, with the generation of the stream when it began. -/
structure Receiver where
  since : Nat
  holding : Option Delivery
deriving DecidableEq

structure State where
  /-- The context of the stream is done. -/
  closed : Bool
  generation : Nat
  state : ConnectionState
  terminal : Bool
  attempt : Option Nat
  active : Finset String
  pending : Finset Entry
  /-- The generations of the attempts made so far, and those whose context is done. -/
  generations : List Nat
  cancelled : Finset Nat
  sends : Nat → List Operation
  /-- The pending registration a writer is about to remove. -/
  cleaning : Nat → Option String
  calls : Nat → Option Call
  nextCall : Nat
  /-- Calls of `Unsubscribe` that have to send. -/
  withdrawals : List (Nat × String)
  main : Main
  recv : List Delivery
  receivers : Nat → Option Receiver
  /-- The generations the status has had. -/
  reported : List Nat
  /-- What the server has acknowledged on which attempt. -/
  acknowledged : List (Nat × String)
  issued : Finset String
  known : Finset String
  /-- The IDs passed to `Unsubscribe`, and those for which it was not refused. -/
  passed : Finset String
  unsubscribed : Finset String
  returned : List (Nat × Delivery)

def start : State where
  closed := false
  generation := 1
  state := .connected
  terminal := false
  attempt := some 0
  active := ∅
  pending := ∅
  generations := [1]
  cancelled := ∅
  sends _ := []
  cleaning _ := none
  calls _ := none
  nextCall := 0
  withdrawals := []
  main := .serving 0
  recv := []
  receivers _ := none
  reported := [1]
  acknowledged := []
  issued := ∅
  known := ∅
  passed := ∅
  unsubscribed := ∅
  returned := []

inductive WriteResult where
  | sent
  | failed
  | skipped
deriving DecidableEq

inductive Action where
  | subscribe (id : String)
  | enter (call : Nat)
  | enqueue (call : Nat)
  | proceed (call : Nat)
  | expire (call : Nat)
  | giveUp (call : Nat)
  | withdraw (call : Nat)
  | complete (call : Nat)
  | abandon (call : Nat)
  | clean (call : Nat)
  | unsubscribe (id : String)
  | sendUnsubscribe (attempt : Nat) (id : String)
  | respond (attempt : Nat) (id : String) (success : Bool)
  | deliver (attempt : Nat)
  | write (attempt : Nat) (result : WriteResult)
  | cleaned (attempt : Nat)
  | retire (attempt : Nat)
  | cancel (attempt : Nat)
  | shutdown
  | «open» (requests : List String)
  | restore
  | restored
  | connect
  | leave
  | cleanup
  | dial
  | dialFailed
  | install
  | finish
  | startRecv (receiver : Nat)
  | take (receiver : Nat)
  | check (receiver : Nat)
deriving DecidableEq

/-! ## Attempts -/

/-- The context of an attempt is done; it is derived from the context of the stream. -/
def State.ended (s : State) (a : Nat) : Bool := s.closed || decide (a ∈ s.cancelled)

/-- Only the current attempt is retired, and its generation with it. -/
def State.retire (s : State) (a : Nat) : State :=
  if s.attempt = some a then
    { s with
      attempt := none
      generation := s.generation + 1
      state := .reconnecting
      terminal := false
      reported := s.reported ++ [s.generation + 1] }
  else s

def State.live (s : State) (call : Call) : Bool :=
  !call.expired && !(call.entry.restoring && s.ended call.entry.attempt)

/-! ## Registration -/

def State.register (s : State) (id : String) (a : Nat) (restoring : Bool) : State :=
  { s with
    calls := update s.calls s.nextCall (some { entry := ⟨id, s.nextCall, a, restoring⟩ })
    nextCall := s.nextCall + 1 }

def State.setCall (s : State) (c : Nat) (call : Call) : State := { s with calls := update s.calls c (some call) }

def subscribeStep (s : State) (id : String) : Option State :=
  if id ∈ s.issued ∨ id ∈ s.passed then none
  else
    match s.attempt with
    | none => none
    | some a =>
      if s.state = .connected ∧ s.terminal = false then
        some { s.register id a false with issued := insert id s.issued }
      else none

def without (pending : Finset Entry) (id : String) : Finset Entry := pending.filter fun e => e.id ≠ id

def enterStep (s : State) (c : Nat) (call : Call) : Option State :=
  let e := call.entry
  if call.phase ≠ .entered then none
  else if s.attempt ≠ some e.attempt ∨ s.ended e.attempt = true ∨ s.terminal = true then
    some (s.setCall c { call with phase := .done false })
  else if s.pending.card ≥ registrationLimit ∨ (e.restoring = false ∧ s.active.card + s.pending.card ≥ activeRegistrationLimit) then
    some (s.setCall c { call with phase := .done false })
  else if e.restoring = true ∧ e.id ∉ s.active then
    some (s.setCall c { call with phase := .done true })
  else
    some { s.setCall c { call with phase := .sending } with pending := insert e (without s.pending e.id) }

def enqueueStep (s : State) (c : Nat) (call : Call) : Option State :=
  let a := call.entry.attempt
  if call.phase ≠ .sending then none
  else if (s.sends a).length < registrationLimit then
    some { s.setCall c { call with phase := .queued } with sends := update s.sends a (s.sends a ++ [.subscribe c]) }
  else some (s.setCall c { call with phase := .abandoning false })

def proceedStep (s : State) (c : Nat) (call : Call) : Option State :=
  match call.phase, call.written with
  | .queued, some true => some (s.setCall c { call with phase := .waiting })
  | .queued, some false => some (s.setCall c { call with phase := .abandoning false })
  | _, _ => none

def giveUpStep (s : State) (c : Nat) (call : Call) : Option State :=
  match call.phase with
  | .entered => if s.live call = false then some (s.setCall c { call with phase := .done false }) else none
  | .sending | .queued | .waiting =>
    if s.live call = false ∨ s.ended call.entry.attempt = true then some (s.setCall c { call with phase := .abandoning false }) else none
  | _ => none

def withdrawStep (s : State) (c : Nat) (call : Call) : Option State :=
  if call.phase = .waiting ∧ call.withdrawn = true then some (s.setCall c { call with phase := .abandoning true }) else none

def completeStep (s : State) (c : Nat) (call : Call) : Option State :=
  let e := call.entry
  if call.phase ≠ .waiting then none
  else
    match call.response with
    | none => none
    | some success =>
      if e.restoring = true ∧ e.id ∉ s.active then some (s.setCall c { call with phase := .abandoning true })
      else if s.attempt = some e.attempt ∧ s.ended e.attempt = false ∧ s.terminal = false ∧ s.live call = true ∧ e ∈ s.pending then
        if success then
          some { s.setCall c { call with phase := .done true } with
            active := insert e.id s.active
            pending := without s.pending e.id
            known := if e.restoring then s.known else insert e.id s.known }
        else some { s.setCall c { call with phase := .done false } with pending := without s.pending e.id }
      else some (s.setCall c { call with phase := .abandoning false })

def abandonStep (s : State) (c : Nat) (call : Call) : Option State :=
  let e := call.entry
  match call.phase with
  | .abandoning ok =>
    if e ∉ s.pending then some (s.setCall c { call with phase := .done ok })
    else if s.attempt ≠ some e.attempt ∨ s.ended e.attempt = true then
      some { s.setCall c { call with phase := .done ok } with pending := without s.pending e.id }
    else some (s.setCall c { call with phase := .cleaning ok })
  | _ => none

def cleanStep (s : State) (c : Nat) (call : Call) : Option State :=
  let a := call.entry.attempt
  match call.phase with
  | .cleaning ok =>
    if (s.sends a).length < registrationLimit then
      some { s.setCall c { call with phase := .done ok } with
        sends := update s.sends a (s.sends a ++ [.cleanup call.entry.id]) }
    else some ((s.retire a).setCall c { call with phase := .done ok })
  | _ => none

/-- A caller knows the ID of a subscription from the call that has returned it. -/
def unsubscribeStep (s : State) (id : String) : Option State :=
  if id ∈ s.issued ∧ id ∉ s.known then none
  else if s.terminal = true ∨ s.closed = true then some { s with passed := insert id s.passed }
  else some { s with
    passed := insert id s.passed
    unsubscribed := insert id s.unsubscribed
    active := s.active.erase id
    calls := fun c => (s.calls c).map fun call =>
      if call.entry ∈ s.pending ∧ call.entry.id = id ∧ call.entry.restoring = true then { call with withdrawn := true } else call
    withdrawals := s.withdrawals ++ (s.attempt.map fun a => (a, id)).toList }

def sendUnsubscribeStep (s : State) (a : Nat) (id : String) : Option State :=
  if (a, id) ∉ s.withdrawals then none
  else
    let s := { s with withdrawals := s.withdrawals.erase (a, id) }
    if s.ended a then some s
    else if (s.sends a).length < registrationLimit then
      some { s with sends := update s.sends a (s.sends a ++ [.unsubscribe id]) }
    else some (s.retire a)

/-! ## The workers of an attempt -/

def respondStep (s : State) (a : Nat) (id : String) (success : Bool) : Option State :=
  if s.main.attempt = some a then
    some { s with
      acknowledged := if success then s.acknowledged ++ [(a, id)] else s.acknowledged
      calls := fun c => (s.calls c).map fun call =>
        if s.attempt = some a ∧ call.entry ∈ s.pending ∧ call.entry.id = id ∧ call.entry.attempt = a ∧ call.response = none then
          { call with response := some success }
        else call }
  else none

def deliverStep (s : State) (a : Nat) : Option State :=
  if s.main.attempt = some a ∧ s.recv.length < recvCapacity then
    (s.generations[a]?).map fun generation => { s with recv := s.recv ++ [⟨a, generation⟩] }
  else none

def State.answer (s : State) (operation : Operation) (ok : Bool) : State :=
  match operation with
  | .subscribe c => { s with calls := fun c' => (s.calls c').map fun call => if c' = c then { call with written := some ok } else call }
  | _ => s

/-- The context of an operation is done; that of an unsubscription has a timeout of its own. -/
def State.skippable (s : State) (a : Nat) : Operation → Bool
  | .subscribe c => (s.calls c).any fun call => !s.live call
  | .unsubscribe _ => true
  | .cleanup _ => s.ended a

def writeStep (s : State) (a : Nat) (result : WriteResult) : Option State :=
  if s.main.attempt ≠ some a ∨ s.cleaning a ≠ none then none
  else
    match s.sends a with
    | [] => none
    | operation :: rest =>
      let s' := { s with sends := update s.sends a rest }
      match result with
      | .skipped => if s.skippable a operation then some (s'.answer operation false) else none
      | .failed => some ((s'.answer operation false).retire a)
      | .sent =>
        match operation with
        | .cleanup id => some { s' with cleaning := update s'.cleaning a (some id) }
        | _ => some (s'.answer operation true)

def cleanedStep (s : State) (a : Nat) : Option State :=
  (s.cleaning a).map fun id =>
    { s with
      cleaning := update s.cleaning a none
      pending := s.pending.filter fun e => ¬ (e.id = id ∧ e.attempt = a) }

/-! ## Serving the attempts -/

def openStep (s : State) (requests : List String) : Option State :=
  match s.main with
  | .opening a => if requests.Nodup ∧ requests.toFinset = s.active then some { s with main := .restoring a requests none } else none
  | _ => none

def restoreStep (s : State) : Option State :=
  match s.main with
  | .restoring a (id :: rest) none => some { s.register id a true with main := .restoring a rest (some s.nextCall) }
  | .restoring a [] none => some { s with main := .connecting a }
  | _ => none

def State.leave (s : State) (a : Nat) : State :=
  { s.retire a with cancelled := insert a (s.retire a).cancelled, main := .leaving a }

def restoredStep (s : State) : Option State :=
  match s.main with
  | .restoring a rest (some c) =>
    match (s.calls c).map Call.phase with
    | some (.done true) => some { s with main := .restoring a rest none }
    | some (.done false) => some (s.leave a)
    | _ => none
  | _ => none

def connectStep (s : State) : Option State :=
  match s.main with
  | .connecting a =>
    if s.ended a = false ∧ s.attempt = some a then some { s with state := .connected, terminal := false, main := .serving a }
    else some { s with main := .serving a }
  | _ => none

def leaveStep (s : State) : Option State :=
  match s.main with
  | .serving a => if s.ended a = true ∨ s.attempt ≠ some a then some (s.leave a) else none
  | _ => none

def cleanupStep (s : State) : Option State :=
  match s.main with
  | .leaving a => some { s with pending := s.pending.filter fun e => e.attempt ≠ a, main := .between }
  | _ => none

def dialStep (s : State) : Option State :=
  if s.main = .between ∧ s.closed = false then some { s with main := .dialing } else none

def installStep (s : State) : Option State :=
  if s.main = .dialing then
    some { s with
      generations := s.generations ++ [s.generation]
      attempt := some s.generations.length
      main := .opening s.generations.length }
  else none

def finishStep (s : State) : Option State :=
  if s.main = .between then some { s with attempt := none, state := .disconnected, terminal := true, main := .finished } else none

/-! ## Receiving -/

/-- The status is read after an attempt whose context is done was retired. -/
def State.refresh (s : State) : State :=
  match s.attempt with
  | some a => if s.ended a then s.retire a else s
  | none => s

def takeStep (s : State) (r : Nat) (receiver : Receiver) : Option State :=
  match receiver.holding, s.recv with
  | none, d :: rest => some { s with recv := rest, receivers := update s.receivers r (some { receiver with holding := some d }) }
  | _, _ => none

def checkStep (s : State) (r : Nat) (receiver : Receiver) : Option State :=
  receiver.holding.map fun d =>
    let s := s.refresh
    if s.terminal = false ∧ d.generation = s.generation then
      { s with receivers := update s.receivers r none, returned := s.returned ++ [(receiver.since, d)] }
    else { s with receivers := update s.receivers r (some { receiver with holding := none }) }

def step (s : State) : Action → Option State
  | .subscribe id => subscribeStep s id
  | .enter c => (s.calls c).bind (enterStep s c)
  | .enqueue c => (s.calls c).bind (enqueueStep s c)
  | .proceed c => (s.calls c).bind (proceedStep s c)
  | .expire c => (s.calls c).map fun call => s.setCall c { call with expired := true }
  | .giveUp c => (s.calls c).bind (giveUpStep s c)
  | .withdraw c => (s.calls c).bind (withdrawStep s c)
  | .complete c => (s.calls c).bind (completeStep s c)
  | .abandon c => (s.calls c).bind (abandonStep s c)
  | .clean c => (s.calls c).bind (cleanStep s c)
  | .unsubscribe id => unsubscribeStep s id
  | .sendUnsubscribe a id => sendUnsubscribeStep s a id
  | .respond a id success => respondStep s a id success
  | .deliver a => deliverStep s a
  | .write a result => writeStep s a result
  | .cleaned a => cleanedStep s a
  | .retire a => some (s.retire a)
  | .cancel a => if a < s.generations.length then some { s with cancelled := insert a s.cancelled } else none
  | .shutdown => some { s with closed := true }
  | .open requests => openStep s requests
  | .restore => restoreStep s
  | .restored => restoredStep s
  | .connect => connectStep s
  | .leave => leaveStep s
  | .cleanup => cleanupStep s
  | .dial => dialStep s
  | .dialFailed => if s.main = .dialing then some { s with main := .between } else none
  | .install => installStep s
  | .finish => finishStep s
  | .startRecv r => if s.receivers r = none then some { s with receivers := update s.receivers r (some ⟨s.generation, none⟩) } else none
  | .take r => (s.receivers r).bind (takeStep s r)
  | .check r => (s.receivers r).bind (checkStep s r)

end Syntrix.Streamer
