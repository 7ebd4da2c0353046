import Syntrix.Lib.Runs

/-! # The trigger evaluator

A watcher receives the changes of the puller one by one and hands those that are to be evaluated to the
processing loop, which publishes a task for every rule that matches and acknowledges the event. Another
goroutine saves the progress of the last event that was finished. The progress of an event is its position
in the source, and a subscription sends every event after the position it resumes from.
-/
namespace Syntrix.Trigger

/-! ## Events -/

structure Document where
  database : String
  fullpath : String
  deleted : Bool
deriving DecidableEq

inductive StoreOperation where
  | insert
  | update
  | replace
  | delete
  | unknown
deriving DecidableEq

structure Change where
  opType : StoreOperation
  fullDocument : Option Document
deriving DecidableEq

inductive EventType where
  | create
  | update
  | delete
deriving DecidableEq

structure ChangeEvent where
  type : EventType
  document : Option Document
  before : Option Document := none
deriving DecidableEq

inductive TransformError where
  | deleteOPIgnored
  | unknownOpType
deriving DecidableEq

def transform (c : Change) : Except TransformError ChangeEvent :=
  match c.opType with
  | .delete => .error .deleteOPIgnored
  | .unknown => .error .unknownOpType
  | .insert => .ok { type := .create, document := c.fullDocument }
  | .update =>
    if c.fullDocument.any Document.deleted then .ok { type := .delete, document := c.fullDocument }
    else .ok { type := .update, document := c.fullDocument }
  | .replace =>
    if c.fullDocument.any Document.deleted then .ok { type := .delete, document := c.fullDocument }
    else .ok { type := .create, document := c.fullDocument }

/-- The evaluator as it is configured; a rule is what it matches. -/
structure Config where
  startFromNow : Bool
  checkpointDatabase : String
  triggers : List (ChangeEvent → Bool)

def checkpointKey : String := "sys/checkpoints/trigger_evaluator"

def Config.ownCheckpoint (cfg : Config) (c : Change) : Bool :=
  c.fullDocument.any fun d => d.database = cfg.checkpointDatabase && d.fullpath = checkpointKey

inductive Reception where
  | skip
  | fail
  | event (e : ChangeEvent)
deriving DecidableEq

def Config.receive (cfg : Config) (c : Change) : Reception :=
  if cfg.ownCheckpoint c then .skip
  else match transform c with
    | .error .deleteOPIgnored => .skip
    | .error .unknownOpType => .fail
    | .ok e => .event e

/-! ## The process -/

/-- What the puller sends; a control stands before the event at its position. -/
inductive Item where
  | event (position : Nat)
  | control (ready : Bool) (position : Nat)
deriving DecidableEq

inductive Watcher where
  | receiving
  | waiting (position : Nat)
  | offering (position sequence : Nat)
  | failed
deriving DecidableEq

inductive Loop where
  | selecting
  | evaluating (position sequence trigger : Nat)
  | publishing (position sequence trigger : Nat)
deriving DecidableEq

structure Process where
  /-- The next event the puller sends, and the next one the watcher receives. -/
  cursor : Nat
  received : Nat
  channel : List Item
  watcher : Watcher
  delivered : Nat
  acknowledged : Nat
  loop : Loop
  latestProgress : Option Nat
  notified : Bool
  saving : Option Nat
  cancelled : Bool
deriving DecidableEq

def Process.new (cursor : Nat) : Process where
  cursor := cursor
  received := cursor
  channel := []
  watcher := .receiving
  delivered := 0
  acknowledged := 0
  loop := .selecting
  latestProgress := none
  notified := false
  saving := none
  cancelled := false

def Process.acknowledge (p : Process) (sequence : Nat) : Process :=
  if sequence > p.acknowledged ∧ sequence ≤ p.delivered then { p with acknowledged := sequence } else p

/-- The source, where the first subscription to it began, what was delivered, and the tasks the publisher
has accepted. -/
structure History where
  log : List Change
  first : Nat
  delivered : List Nat
  accepted : List (Nat × Nat)
deriving DecidableEq

structure State extends History where
  token : Option Nat
  /-- Writes of the token that were given up and may still land. -/
  inflight : List Nat
  process : Option Process
  /-- The positions of the Ready controls that were observed. -/
  ready : List Nat
deriving DecidableEq

def start : State where
  log := []
  token := none
  inflight := []
  process := none
  first := 0
  delivered := []
  accepted := []
  ready := []

inductive SaveResult where
  | stored
  | lost
  | late
deriving DecidableEq

inductive Action where
  | append (c : Change)
  | start
  | push
  | control (ready : Bool)
  | receive
  | observe
  | handOff
  | evaluate (succeeds : Bool)
  | publish (succeeds : Bool)
  | finish
  | save
  | saved (result : SaveResult)
  | land (position : Nat)
  | cancel
  | stop
deriving DecidableEq

section Steps

variable (cfg : Config)

/-- Without a token the subscription starts from now, or not at all. -/
def startStep (s : State) : Option State :=
  match s.process, s.token with
  | none, some position => some { s with process := some (Process.new (position + 1)) }
  | none, none =>
    if cfg.startFromNow then some { s with process := some (Process.new s.log.length), first := s.log.length }
    else none
  | some _, _ => none

def pushStep (s : State) (p : Process) : Option State :=
  if p.cursor < s.log.length then
    some { s with process := some { p with cursor := p.cursor + 1, channel := p.channel ++ [.event p.cursor] } }
  else none

def receiveStep (s : State) (p : Process) : Option State :=
  match p.watcher, p.channel with
  | .receiving, .control ready position :: rest =>
    some { s with process := some { p with
      channel := rest
      watcher := if ready then .waiting position else .receiving } }
  | .receiving, .event position :: rest =>
    let p := { p with channel := rest, received := position + 1 }
    match (s.log[position]?).map cfg.receive with
    | none => none
    | some .skip => some { s with process := some p }
    | some .fail => some { s with process := some { p with watcher := .failed } }
    | some (.event _) =>
      some { s with
        delivered := s.delivered ++ [position]
        process := some { p with delivered := p.delivered + 1, watcher := .offering position (p.delivered + 1) } }
  | _, _ => none

/-- A Ready control is observed once everything that was delivered has been acknowledged. -/
def observeStep (s : State) (p : Process) : Option State :=
  match p.watcher with
  | .waiting position =>
    if p.acknowledged ≥ p.delivered then
      some { s with process := some { p with watcher := .receiving }, ready := s.ready ++ [position] }
    else none
  | _ => none

def hasDocument (e : ChangeEvent) : Bool := e.document.isSome || e.before.isSome

def eventAt (log : List Change) (position : Nat) : Option ChangeEvent :=
  (log[position]?).bind fun c =>
    match cfg.receive c with
    | .event e => some e
    | _ => none

/-- An event without a document is only acknowledged. -/
def handOffStep (s : State) (p : Process) : Option State :=
  match p.watcher, p.loop with
  | .offering position sequence, .selecting =>
    (eventAt cfg s.log position).map fun e =>
      let p := { p with watcher := .receiving }
      if hasDocument e then { s with process := some { p with loop := .evaluating position sequence 0 } }
      else { s with process := some (p.acknowledge sequence) }
  | _, _ => none

def evaluateStep (s : State) (p : Process) (succeeds : Bool) : Option State :=
  match p.loop with
  | .evaluating position sequence k =>
    match cfg.triggers[k]?, eventAt cfg s.log position with
    | some trigger, some e =>
      if !succeeds then some s
      else if trigger e then some { s with process := some { p with loop := .publishing position sequence k } }
      else some { s with process := some { p with loop := .evaluating position sequence (k + 1) } }
    | _, _ => none
  | _ => none

def publishStep (s : State) (p : Process) (succeeds : Bool) : Option State :=
  match p.loop with
  | .publishing position sequence k =>
    if !succeeds then some s
    else some { s with
      accepted := s.accepted ++ [(position, k)]
      process := some { p with loop := .evaluating position sequence (k + 1) } }
  | _ => none

/-- All rules are done: the event is acknowledged and its progress offered to the saver, unless the
evaluator was cancelled. -/
def finishStep (s : State) (p : Process) : Option State :=
  match p.loop with
  | .evaluating position sequence k =>
    if k = cfg.triggers.length ∧ p.cancelled = false then
      some { s with process := some { p.acknowledge sequence with
        loop := .selecting
        latestProgress := some position
        notified := true } }
    else none
  | _ => none

def saveStep (s : State) (p : Process) : Option State :=
  if p.saving = none ∧ p.latestProgress ≠ none ∧ (p.notified = true ∨ p.cancelled = true) then
    some { s with process := some { p with saving := p.latestProgress, notified := false } }
  else none

def savedStep (s : State) (p : Process) (result : SaveResult) : Option State :=
  p.saving.map fun position =>
    { s with
      process := some { p with saving := none }
      token := if result = .stored then some position else s.token
      inflight := if result = .late then s.inflight ++ [position] else s.inflight }

def step (s : State) : Action → Option State
  | .append c => some { s with log := s.log ++ [c] }
  | .start => startStep cfg s
  | .push => s.process.bind (pushStep s)
  | .control ready => s.process.map fun p =>
      { s with process := some { p with channel := p.channel ++ [.control ready p.cursor] } }
  | .receive => s.process.bind (receiveStep cfg s)
  | .observe => s.process.bind (observeStep s)
  | .handOff => s.process.bind (handOffStep cfg s)
  | .evaluate succeeds => s.process.bind fun p => evaluateStep cfg s p succeeds
  | .publish succeeds => s.process.bind fun p => publishStep s p succeeds
  | .finish => s.process.bind (finishStep cfg s)
  | .save => s.process.bind (saveStep s)
  | .saved result => s.process.bind fun p => savedStep s p result
  | .land position => if position ∈ s.inflight then some { s with token := some position, inflight := s.inflight.erase position } else none
  | .cancel => s.process.map fun p => { s with process := some { p with cancelled := true } }
  | .stop => s.process.map fun p => { s with process := none, inflight := s.inflight ++ p.saving.toList }

end Steps

end Syntrix.Trigger
