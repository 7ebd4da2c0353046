import Syntrix.Lib.Runs

/-! # Stream registrations of the hub

An owner stands for one replica subscription. It is listed before the backend is asked for a registration,
and whoever first takes its active flag releases it: removes it from the lists, tells it that it was
invalidated, and hands its registration to a cleanup. The steps are the sections under the two locks and
what happens between them; `lock` is the section of the stream lock that has another lock to take. The hub
is running, and callbacks are given.
-/
namespace Syntrix.Realtime

open Function

structure StreamStatus where
  generation : Nat
  connected : Bool
  terminal : Bool
deriving DecidableEq

structure HubStreamOwner where
  stream : Nat
  generation : Nat
  retired : Bool
deriving DecidableEq

/-- How far the call is that has taken the owner; the reason is set for an invalidation. -/
inductive Release where
  | active
  | won (reason : Bool)
  | removed (reason : Bool) (id : String)
  | notified (reason : Bool) (id : String)
  | done (reason : Bool)
deriving DecidableEq

inductive Subscriber where
  | calling
  | failed
  | answered (id : String) (generation : Nat)
  | rejected (id : String)
  | releasing (id : String) (mine : Bool)
  | published
  | finished (id : String)
deriving DecidableEq

structure Owner where
  stream : Nat
  generation : Nat
  id : String := ""
  release : Release := .active
  subscriber : Subscriber := .calling
deriving DecidableEq

structure Connection where
  number : Nat
  stream : Nat
  generation : Nat
deriving DecidableEq

/-- A call of `invalidateReplicaOwner`; the generation is that of the status it was called for. -/
structure Invalidation where
  stream : Nat
  keepGeneration : Option Nat
  report : Option Nat
  /-- The owners to release, once they have been read, and the one that is being released. -/
  owners : Option (List Nat) := none
  current : Option Nat := none
deriving DecidableEq

inductive Lock where
  | connecting (stream generation : Nat)
  | subscribing (stream generation : Nat)
  | publishing (owner : Nat) (status : StreamStatus)
deriving DecidableEq

inductive Event where
  | won (owner : Nat) (reason : Bool)
  | released (owner : Nat)
  | invalidated (owner : Nat)
  | checked (owner : Nat)
  | changed (owner : Nat)
  | reported (stream generation : Nat)
deriving DecidableEq

structure State where
  statuses : Nat → StreamStatus
  streams : Nat → Option HubStreamOwner
  nextStream : Nat
  streamOwner : Option Nat
  lock : Option Lock
  owners : Nat → Option Owner
  nextOwner : Nat
  replicaOwners : Finset Nat
  replicaSubscriptions : String → Option Nat
  replicaConnections : Finset Connection
  nextConnection : Nat
  invalidations : Nat → Option Invalidation
  nextInvalidation : Nat
  /-- The owners that deliveries have read and not yet checked, and those whose callback is to be called. -/
  captured : List Nat
  calls : List Nat
  /-- The registrations handed to a cleanup, by their owner: all, those before the check of their stream,
  those before they are given a slot, those whose cleanup has started, and those where it still runs. -/
  handed : List Nat
  cleanups : List Nat
  requests : List Nat
  started : List Nat
  running : List Nat
  trace : List Event

def start : State where
  statuses _ := ⟨1, true, false⟩
  streams _ := none
  nextStream := 0
  streamOwner := none
  lock := none
  owners _ := none
  nextOwner := 0
  replicaOwners := ∅
  replicaSubscriptions _ := none
  replicaConnections := ∅
  nextConnection := 0
  invalidations _ := none
  nextInvalidation := 0
  captured := []
  calls := []
  handed := []
  cleanups := []
  requests := []
  started := []
  running := []
  trace := []

inductive Action where
  | status (stream : Nat) (next : StreamStatus)
  | setStream (stream : Option Nat)
  | connect
  | disconnect (connection : Connection)
  | subscribe
  | register
  | answer (owner : Nat) (id : String) (generation : Nat)
  | refuse (owner : Nat)
  | publish (owner : Nat)
  | decide (live : Bool)
  | release (owner : Nat)
  | remove (owner : Nat)
  | notify (owner : Nat)
  | finish (owner : Nat)
  | reject (owner : Nat)
  | deliver (stream : Nat) (ids : List String)
  | check (owner : Nat)
  | call (owner : Nat)
  | invalidate (stream : Nat)
  | collect (invalidation : Nat)
  | next (invalidation : Nat)
  | resume (invalidation : Nat)
  | checkCleanup (owner : Nat)
  | startCleanup (owner : Nat) (slot : Bool)
  | unsubscribe (owner : Nat) (ok : Bool)
  | timeout (owner : Nat)
  | retire (stream : Nat)

/-! ## Streams -/

/-- A stream's generation never falls, and a terminal stream stays terminal. -/
def statusStep (s : State) (stream : Nat) (next : StreamStatus) : Option State :=
  if (s.statuses stream).generation ≤ next.generation ∧ ((s.statuses stream).terminal = true → next.terminal = true) then
    some { s with statuses := update s.statuses stream next }
  else none

def State.startInvalidation (s : State) (i : Invalidation) : State :=
  { s with invalidations := update s.invalidations s.nextInvalidation (some i), nextInvalidation := s.nextInvalidation + 1 }

def State.gone (s : State) (h : Nat) : Bool :=
  (s.streams h).any fun owner => owner.retired || (s.statuses owner.stream).terminal

def State.own (s : State) : Option Nat → State
  | none => { s with streamOwner := none }
  | some stream => { s with
      streams := update s.streams s.nextStream (some ⟨stream, (s.statuses stream).generation, false⟩)
      nextStream := s.nextStream + 1
      streamOwner := some s.nextStream }

def setStreamStep (s : State) (stream : Option Nat) : Option State :=
  if s.lock ≠ none then none
  else if ((s.streamOwner.bind s.streams).map HubStreamOwner.stream) = stream then some s
  else
    match s.streamOwner with
    | none => some (s.own stream)
    | some old => some ((s.own stream).startInvalidation { stream := old, keepGeneration := none, report := none })

/-- The current ownership and the status of its stream, when it is connected. -/
def State.ready (s : State) : Option (Nat × Nat) :=
  s.streamOwner.bind fun h => (s.streams h).bind fun owner =>
    let status := s.statuses owner.stream
    if owner.retired = false ∧ status.terminal = false ∧ status.connected = true then some (h, status.generation) else none

def connectStep (s : State) : Option State :=
  if s.lock = none then s.ready.map fun r => { s with lock := some (.connecting r.1 r.2) } else none

def subscribeStep (s : State) : Option State :=
  if s.lock = none then s.ready.map fun r => { s with lock := some (.subscribing r.1 r.2) } else none

/-- What was read under the stream lock is listed under the other one. -/
def registerStep (s : State) : Option State :=
  match s.lock with
  | some (.connecting h g) => some { s with
      lock := none
      replicaConnections := insert ⟨s.nextConnection, h, g⟩ s.replicaConnections
      nextConnection := s.nextConnection + 1 }
  | some (.subscribing h g) => some { s with
      lock := none
      owners := update s.owners s.nextOwner (some { stream := h, generation := g })
      nextOwner := s.nextOwner + 1
      replicaOwners := insert s.nextOwner s.replicaOwners }
  | _ => none

/-! ## Subscription -/

def State.setOwner (s : State) (k : Nat) (o : Owner) : State := { s with owners := update s.owners k (some o) }

def answerStep (s : State) (k : Nat) (o : Owner) (id : String) (generation : Nat) : Option State :=
  if o.subscriber = .calling then some (s.setOwner k { o with subscriber := .answered id generation }) else none

def refuseStep (s : State) (k : Nat) (o : Owner) : Option State :=
  if o.subscriber = .calling then some (s.setOwner k { o with subscriber := .failed }) else none

def publishStep (s : State) (k : Nat) (o : Owner) : Option State :=
  match o.subscriber, s.lock, s.streams o.stream with
  | .answered _ _, none, some owner => some { s with lock := some (.publishing k (s.statuses owner.stream)) }
  | _, _, _ => none

/-- The registration is published if nothing has changed since the owner was listed. -/
def decideStep (s : State) (live : Bool) : Option State :=
  match s.lock with
  | some (.publishing k status) =>
    match s.owners k with
    | some o =>
      match o.subscriber with
      | .answered id generation =>
        if live = true ∧ o.release = .active ∧ (s.streams o.stream).any (fun owner => !owner.retired) = true ∧ id ≠ "" ∧
            s.streamOwner = some o.stream ∧ status.terminal = false ∧ status.connected = true ∧ status.generation = generation ∧
            o.generation = generation then
          some { s.setOwner k { o with id := id, subscriber := .published } with
            lock := none
            replicaSubscriptions := update s.replicaSubscriptions id (some k) }
        else some { s.setOwner k { o with subscriber := .rejected id } with lock := none }
      | _ => none
    | none => none
  | _ => none

/-! ## Release -/

def State.take (s : State) (k : Nat) (o : Owner) (reason : Bool) : State :=
  if o.release = .active then
    { s.setOwner k { o with release := .won reason } with trace := s.trace ++ [.won k reason] }
  else s.setOwner k o

def releaseStep (s : State) (k : Nat) (o : Owner) : Option State :=
  match o.subscriber with
  | .published =>
    if o.release = .active then some (s.take k o false) else some { s with trace := s.trace ++ [.released k] }
  | .failed => some (s.take k { o with subscriber := .finished "" } false)
  | .rejected id => some (s.take k { o with subscriber := .releasing id (decide (o.release = .active)) } false)
  | _ => none

def removeStep (s : State) (k : Nat) (o : Owner) : Option State :=
  match o.release with
  | .won reason => some { s.setOwner k { o with release := .removed reason o.id } with
      replicaOwners := s.replicaOwners.erase k
      replicaSubscriptions :=
        if o.id ≠ "" ∧ s.replicaSubscriptions o.id = some k then update s.replicaSubscriptions o.id none
        else s.replicaSubscriptions }
  | _ => none

def notifyStep (s : State) (k : Nat) (o : Owner) : Option State :=
  match o.release with
  | .removed reason id => some { s.setOwner k { o with release := .notified reason id } with
      trace := if reason then s.trace ++ [.invalidated k] else s.trace }
  | _ => none

/-- A call of `cleanupReplicaRegistration`. -/
def State.hand (s : State) (k : Nat) (id : String) : State :=
  if id = "" then s else { s with handed := s.handed ++ [k], cleanups := s.cleanups ++ [k] }

def finishStep (s : State) (k : Nat) (o : Owner) : Option State :=
  match o.release with
  | .notified reason id =>
    some { (s.setOwner k { o with release := .done reason }).hand k id with
      trace := if reason then s.trace else s.trace ++ [.released k] }
  | _ => none

/-- A registration that was not published is cleaned up by the call that made it. -/
def rejectStep (s : State) (k : Nat) (o : Owner) : Option State :=
  match o.subscriber with
  | .releasing id mine =>
    if mine = true → o.release = .done false then some ((s.setOwner k { o with subscriber := .finished id }).hand k id) else none
  | _ => none

/-! ## Delivery -/

def deliverStep (s : State) (h : Nat) (ids : List String) : Option State :=
  some { s with captured := s.captured ++ (ids.filterMap s.replicaSubscriptions).filter fun k =>
    (s.owners k).any fun o => decide (o.stream = h) }

def checkStep (s : State) (k : Nat) (o : Owner) : Option State :=
  if k ∉ s.captured then none
  else if o.release = .active then
    some { s with captured := s.captured.erase k, calls := s.calls ++ [k], trace := s.trace ++ [.checked k] }
  else some { s with captured := s.captured.erase k }

def callStep (s : State) (k : Nat) : Option State :=
  if k ∈ s.calls then some { s with calls := s.calls.erase k, trace := s.trace ++ [.changed k] } else none

/-! ## Invalidation -/

/-- Nothing is done for a status the ownership already has. -/
def invalidateStep (s : State) (stream : Nat) : Option State :=
  if s.lock ≠ none then none
  else
    match s.streamOwner with
    | none => some s
    | some h =>
      match s.streams h with
      | none => none
      | some owner =>
        let status := s.statuses stream
        if owner.stream ≠ stream then some s
        else
          let s' := { s with streams := update s.streams h (some { owner with generation := status.generation }) }
          if status.terminal = true ∨ status.connected = false ∨ owner.generation ≠ status.generation then
            some (s'.startInvalidation {
              stream := h
              keepGeneration := if status.connected = true ∧ status.terminal = false then some status.generation else none
              report := some status.generation })
          else some s'

/-- The owners and connections of other generations than the one to be kept. -/
def Invalidation.takes (i : Invalidation) (stream generation : Nat) : Bool :=
  decide (stream = i.stream) && (i.keepGeneration.all fun g => decide (generation ≠ g))

def collectStep (s : State) (t : Nat) (i : Invalidation) : Option State :=
  match i.owners with
  | none =>
    let owners := (List.range s.nextOwner).filter fun k =>
      decide (k ∈ s.replicaOwners) && (s.owners k).any fun o => i.takes o.stream o.generation
    some { s with
      invalidations := update s.invalidations t (some { i with owners := some owners })
      replicaConnections := s.replicaConnections.filter fun c => i.takes c.stream c.generation = false }
  | some _ => none

/-- The next owner is released; after the last one the call returns. -/
def nextStep (s : State) (t : Nat) (i : Invalidation) : Option State :=
  match i.owners, i.current with
  | some (k :: rest), none =>
    (s.owners k).map fun o =>
      { s.take k o true with
        invalidations := update s.invalidations t
          (some { i with owners := some rest, current := if o.release = .active then some k else none }) }
  | some [], none =>
    some { s with
      invalidations := update s.invalidations t none
      trace := s.trace ++ (i.report.map (Event.reported i.stream)).toList }
  | _, _ => none

def resumeStep (s : State) (t : Nat) (i : Invalidation) : Option State :=
  i.current.bind fun k => (s.owners k).bind fun o =>
    if o.release = .done true then some { s with invalidations := update s.invalidations t (some { i with current := none }) }
    else none

/-! ## Cleanup -/

def State.retire (s : State) (h : Nat) : State :=
  match s.streams h with
  | none => s
  | some owner =>
    if owner.retired then s
    else { s with streams := update s.streams h (some { owner with retired := true }) }.startInvalidation
      { stream := h, keepGeneration := none, report := none }

def checkCleanupStep (s : State) (k : Nat) (o : Owner) : Option State :=
  if k ∉ s.cleanups then none
  else if s.gone o.stream then some { s with cleanups := s.cleanups.erase k }
  else some { s with cleanups := s.cleanups.erase k, requests := s.requests ++ [k] }

def startCleanupStep (s : State) (k : Nat) (o : Owner) (slot : Bool) : Option State :=
  if k ∉ s.requests then none
  else if slot then
    some { s with requests := s.requests.erase k, started := s.started ++ [k], running := s.running ++ [k] }
  else some ({ s with requests := s.requests.erase k }.retire o.stream)

def unsubscribeStep (s : State) (k : Nat) (o : Owner) (ok : Bool) : Option State :=
  if k ∉ s.running then none
  else if ok then some { s with running := s.running.erase k }
  else some ({ s with running := s.running.erase k }.retire o.stream)

def timeoutStep (s : State) (k : Nat) (o : Owner) : Option State :=
  if k ∈ s.running then some (s.retire o.stream) else none

def step (s : State) : Action → Option State
  | .status stream next => statusStep s stream next
  | .setStream stream => setStreamStep s stream
  | .connect => connectStep s
  | .disconnect connection => some { s with replicaConnections := s.replicaConnections.erase connection }
  | .subscribe => subscribeStep s
  | .register => registerStep s
  | .answer k id generation => (s.owners k).bind fun o => answerStep s k o id generation
  | .refuse k => (s.owners k).bind (refuseStep s k)
  | .publish k => (s.owners k).bind (publishStep s k)
  | .decide live => decideStep s live
  | .release k => (s.owners k).bind (releaseStep s k)
  | .remove k => (s.owners k).bind (removeStep s k)
  | .notify k => (s.owners k).bind (notifyStep s k)
  | .finish k => (s.owners k).bind (finishStep s k)
  | .reject k => (s.owners k).bind (rejectStep s k)
  | .deliver h ids => deliverStep s h ids
  | .check k => (s.owners k).bind (checkStep s k)
  | .call k => callStep s k
  | .invalidate stream => invalidateStep s stream
  | .collect t => (s.invalidations t).bind (collectStep s t)
  | .next t => (s.invalidations t).bind (nextStep s t)
  | .resume t => (s.invalidations t).bind (resumeStep s t)
  | .checkCleanup k => (s.owners k).bind (checkCleanupStep s k)
  | .startCleanup k slot => (s.owners k).bind fun o => startCleanupStep s k o slot
  | .unsubscribe k ok => (s.owners k).bind fun o => unsubscribeStep s k o ok
  | .timeout k => (s.owners k).bind (timeoutStep s k)
  | .retire h => some (s.retire h)

end Syntrix.Realtime
