import Syntrix.Lib.Runs
import Syntrix.Puller.Event

/-! # Subscriptions

A subscriber gets captured events through a bounded live queue. When the queue overflows, later events
stay in the retained history until the subscription drains the queue and replays the history from its
position. Capture writes an event to the history of its backend first and broadcasts it afterwards.
-/
namespace Syntrix.Puller

open Lib Function

/-- A saved position: an event ID, which names the cluster time of its event. -/
structure Position where
  clusterTime : ClusterTime
  eventID : Bytes

abbrev Progress := Bytes → Option Position

def StoreChangeEvent.position (e : StoreChangeEvent) : Position := ⟨e.clusterTime, e.eventID⟩

section Subscriber

/-- The cluster time of the first broadcast of a backend and the IDs broadcast with it. -/
structure AdmissionGroup where
  clusterTime : ClusterTime
  eventIDs : List Bytes

structure Subscriber where
  startFromNow : Bool
  capacity : Nat
  currentPos : Progress
  lastClusterTime : Bytes → Option ClusterTime
  deliveredIDs : Bytes → List Bytes
  ch : List StoreChangeEvent
  recoveryPending : Bool
  recovery : Bool
  admissionGroups : Bytes → Option AdmissionGroup

namespace Subscriber

def new (after : Option Progress) (capacity : Nat) : Subscriber where
  startFromNow := after.isNone
  capacity := capacity
  currentPos := after.getD fun _ => none
  lastClusterTime b := (after.bind fun p => p b).map Position.clusterTime
  deliveredIDs _ := []
  ch := []
  recoveryPending := false
  recovery := false
  admissionGroups _ := none

variable (s : Subscriber)

def joinGroup (group : Option AdmissionGroup) (e : StoreChangeEvent) : AdmissionGroup :=
  match group with
  | none => ⟨e.clusterTime, [e.eventID]⟩
  | some g => if e.clusterTime = g.clusterTime then ⟨g.clusterTime, e.eventID :: g.eventIDs⟩ else g

/-- Admit an event to live delivery. After an overflow events are left to the history. -/
def enqueue (e : StoreChangeEvent) : Subscriber :=
  let s := if s.startFromNow then
      { s with admissionGroups := update s.admissionGroups e.backend (some (joinGroup (s.admissionGroups e.backend) e)) }
    else s
  if s.recoveryPending then s
  else if s.ch.length < s.capacity then { s with ch := s.ch ++ [e] }
  else { s with recoveryPending := true, recovery := true }

/-- History before the first broadcast is not replayed to a subscription that starts from now. -/
def replayAdmitted (e : StoreChangeEvent) : Bool :=
  if !s.startFromNow then true
  else match s.admissionGroups e.backend with
  | none => false
  | some g =>
    if e.clusterTime < g.clusterTime then false
    else if g.clusterTime < e.clusterTime then true
    else decide (e.eventID ∈ g.eventIDs)

def admissionFloors (b : Bytes) : Option ClusterTime := (s.admissionGroups b).map AdmissionGroup.clusterTime

def beginRecovery : Subscriber := { s with recoveryPending := false, recovery := false }

def updatePosition (e : StoreChangeEvent) : Subscriber :=
  let delivered := if s.lastClusterTime e.backend = some e.clusterTime then s.deliveredIDs e.backend else []
  { s with
    currentPos := update s.currentPos e.backend (some e.position)
    lastClusterTime := update s.lastClusterTime e.backend (some e.clusterTime)
    deliveredIDs := update s.deliveredIDs e.backend (e.eventID :: delivered) }

/-- Earlier cluster times have been delivered; within the last one the IDs decide. -/
def shouldSend (e : StoreChangeEvent) : Bool :=
  match s.lastClusterTime e.backend with
  | none => true
  | some last =>
    if e.clusterTime < last then false
    else if last < e.clusterTime then true
    else decide (e.eventID ∉ s.deliveredIDs e.backend)

end Subscriber

end Subscriber

section Replay

def keyLE (x y : StoreChangeEvent) : Prop := ¬ y.bufferKey < x.bufferKey

instance : DecidableRel keyLE := fun x y => inferInstanceAs (Decidable (¬ y.bufferKey < x.bufferKey))

def scanFrom (history : List StoreChangeEvent) (start : Option ClusterTime) : List StoreChangeEvent :=
  (history.filter fun e => start.all fun t => decide (t ≤ e.clusterTime)).insertionSort keyLE

/-- The scan begins with the group of the position, or with the floor if that is later. -/
def scanStart (position floor : Option ClusterTime) : Option ClusterTime :=
  match position, floor with
  | some p, some f => some (if p < f then f else p)
  | some p, none => some p
  | none, f => f

structure Head where
  backend : Bytes
  event : StoreChangeEvent
  rest : List StoreChangeEvent

def Head.less (x y : Head) : Bool :=
  decide (x.event.clusterTime < y.event.clusterTime) ||
    decide (x.event.clusterTime = y.event.clusterTime) && decide (x.event.backend < y.event.backend)

def leastHead : List Head → Option Head
  | [] => none
  | h :: rest =>
    match leastHead rest with
    | none => some h
    | some m => if m.less h then some m else some h

abbrev Iterators := Bytes → List StoreChangeEvent

def heads (backends : List Bytes) (iters : Iterators) : List Head :=
  backends.filterMap fun b =>
    match iters b with
    | [] => none
    | e :: rest => some ⟨b, e, rest⟩

end Replay

inductive AdmissionState where
  | starting
  | replaying
  | admitted
  | recovering
deriving DecidableEq

inductive AdmissionReason where
  | none
  | sourceUnavailable
  | overflow
deriving DecidableEq

/-- A control, with what had been broadcast to the subscription at its fence. -/
structure Control where
  state : AdmissionState
  generation : Nat
  reason : AdmissionReason
  fence : Bytes → List StoreChangeEvent

inductive Item where
  | event (e : StoreChangeEvent) (progress : Progress)
  | control (c : Control)

/-- Where `RunSubscription` is in its loop. -/
inductive Pc where
  | registered
  | top
  | waiting
  | draining
  | beginning
  | snapshot
  | opening (floors : Option (Bytes → Option ClusterTime)) (iters : Iterators) (todo : List Bytes)
  | replaying (iters : Iterators)
  | entering
  | gate
  | fencing
  | admitting
  | picking
  | checking
  | announcing
  | selecting
  | stopped

/-- A subscription and its source. For each backend the history is what was broadcast before the
subscription, what was broadcast to it and what is written but not broadcast yet. -/
structure Subscription where
  monitored : Bool
  backends : List Bytes
  after : Option Progress
  earlier : Bytes → List StoreChangeEvent
  broadcasts : Bytes → List StoreChangeEvent
  unsent : Bytes → List StoreChangeEvent
  sub : Subscriber
  recovering : Bool
  catchUp : Bool
  enteredLive : Bool
  ready : Bool
  generation : Nat
  admissionState : AdmissionState
  fence : Bytes → List StoreChangeEvent
  pc : Pc
  out : List Item

inductive SubscriptionAction where
  | write (e : StoreChangeEvent)
  | broadcast (b : Bytes)
  | launch
  | check (available : Bool)
  | tick (available : Bool)
  | drain
  | beginRecovery
  | floors
  | openScan (b : Bytes)
  | merge
  | read
  | enterLive
  | fence
  | look
  | pick
  | settle
  | wake
  | receive
  | stop

namespace Subscription

section Steps

variable (s : Subscription)

def history (b : Bytes) : List StoreChangeEvent := s.earlier b ++ s.broadcasts b ++ s.unsent b

def emit (state : AdmissionState) (reason : AdmissionReason) : Subscription :=
  let s := { s with admissionState := state }
  if s.monitored then { s with out := s.out ++ [.control ⟨state, s.generation, reason, s.fence⟩] } else s

def start (monitored : Bool) (backends : List Bytes) (after : Option Progress) (capacity : Nat)
    (earlier unsent : Bytes → List StoreChangeEvent) : Subscription where
  monitored := monitored
  backends := backends
  after := after
  earlier := earlier
  broadcasts _ := []
  unsent := unsent
  sub := .new after capacity
  recovering := false
  catchUp := false
  enteredLive := false
  ready := false
  generation := 1
  admissionState := .starting
  fence _ := []
  pc := .registered
  out := []

def launch : Subscription :=
  let recovering := s.sub.recoveryPending
  let s := { s with recovering := recovering, catchUp := s.after.isSome || recovering }
  { s.emit .starting .none with pc := .top }

def deliver (e : StoreChangeEvent) : Subscription :=
  if s.sub.shouldSend e then
    { s with
      out := s.out ++ [.event e (update s.sub.currentPos e.backend (some e.position))]
      sub := s.sub.updatePosition e }
  else s

/-- The overflow of the live queue is answered by a replay in a new generation. -/
def recover : Subscription :=
  let s := { s with
    catchUp := true, recovering := true, enteredLive := false, ready := s.ready && !s.monitored,
    generation := s.generation + 1 }
  { s.emit .recovering .overflow with pc := .top }

def replayScan (floors : Option (Bytes → Option ClusterTime)) (b : Bytes) : List StoreChangeEvent :=
  let position := (s.sub.currentPos b).map Position.clusterTime
  match floors with
  | none => scanFrom (s.history b) position
  | some floors =>
    match floors b with
    | none => []
    | some floor => scanFrom (s.history b) (scanStart position (some floor))

/-- The loop asks whether the source is available before it goes on. -/
def check (available : Bool) : Subscription :=
  if s.monitored && !available then
    if s.admissionState = .recovering then { s with pc := .waiting }
    else
      let s := { s with generation := s.generation + 1, ready := false, enteredLive := false }
      { s.emit .recovering .sourceUnavailable with pc := .waiting }
  else if s.catchUp then
    { s.emit .replaying .none with pc := if s.recovering then .draining else .snapshot }
  else { s with pc := .entering }

def read (iters : Iterators) : Subscription :=
  match leastHead (heads s.backends iters) with
  | some h =>
    let s := { s with pc := .replaying (update iters h.backend h.rest) }
    if s.sub.replayAdmitted h.event then s.deliver h.event else s
  | none =>
    if s.sub.recoveryPending then { s with recovering := true, pc := .top }
    else { s with catchUp := false, recovering := false, pc := .entering }

def take (e : StoreChangeEvent) (rest : List StoreChangeEvent) : Subscription :=
  deliver { s with sub := { s.sub with ch := rest } } e

def run : Pc → SubscriptionAction → Option Subscription
  | .registered, .launch => some s.launch
  | .top, .check available => some (s.check available)
  | .waiting, .tick _ => some { s with pc := .top }
  | .draining, .drain =>
    match s.sub.ch with
    | [] => some { s with pc := .beginning }
    | _ :: rest => some { s with sub := { s.sub with ch := rest } }
  | .beginning, .beginRecovery => some { s with sub := s.sub.beginRecovery, pc := .snapshot }
  | .snapshot, .floors =>
    some { s with
      pc := .opening (if s.sub.startFromNow then some s.sub.admissionFloors else none) (fun _ => []) s.backends }
  | .opening floors iters todo, .openScan b =>
    if b ∈ todo then
      some { s with pc := .opening floors (update iters b (s.replayScan floors b)) (todo.filter fun x => x ≠ b) }
    else none
  | .opening _ iters [], .merge => some { s with pc := .replaying iters }
  | .replaying iters, .read => some (s.read iters)
  | .entering, .enterLive => some { s with enteredLive := true, pc := if s.ready then .selecting else .gate }
  | .gate, .check available =>
    if s.monitored then some { s with pc := if available then .fencing else .top } else some { s with pc := .announcing }
  | .fencing, .fence => some { s with fence := s.broadcasts, pc := .admitting }
  | .admitting, .look => some { s with pc := if s.sub.recoveryPending then .checking else .picking }
  | .picking, .pick =>
    match s.sub.ch with
    | [] => some { s with pc := .checking }
    | e :: rest => some { s.take e rest with pc := .admitting }
  | .checking, .settle => some (if s.sub.recoveryPending then s.recover else { s with pc := .announcing })
  | .announcing, .check available =>
    if s.monitored && !available then some { s with pc := .top }
    else some { emit { s with ready := true } .admitted .none with pc := .selecting }
  | .selecting, .wake =>
    if s.sub.recovery then some (recover { s with sub := { s.sub with recovery := false } }) else none
  | .selecting, .tick available => some { s with ready := s.ready && !(s.monitored && available), pc := .top }
  | .selecting, .receive =>
    match s.sub.ch with
    | [] => none
    | e :: rest =>
      let s := s.take e rest
      some (if s.sub.recoveryPending then s.recover else { s with pc := .top })
  | _, _ => none

def step : SubscriptionAction → Option Subscription
  | .write e => some { s with unsent := update s.unsent e.backend (s.unsent e.backend ++ [e]) }
  | .broadcast b =>
    match s.unsent b with
    | [] => none
    | e :: rest =>
      some { s with
        unsent := update s.unsent b rest
        broadcasts := update s.broadcasts b (s.broadcasts b ++ [e])
        sub := s.sub.enqueue e }
  | .stop => some { s with pc := .stopped }
  | a => s.run s.pc a

end Steps

end Subscription

end Syntrix.Puller
