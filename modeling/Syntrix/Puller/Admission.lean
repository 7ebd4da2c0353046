import Syntrix.Puller.Subscription

/-! # Admission of a subscription

The controls of a subscription travel with its events. A consumer stamps each control where it comes in and
acknowledges it when everything before it has been consumed; only then is the subscription ready. Times are
counted in milliseconds, and the zero time is none.
-/
namespace Syntrix.Puller

open Lib

def admissionFreshness : Nat := 3000

def errAdmissionUnavailable : Bytes := text "subscription admission unavailable"

/-- The reasons a status reports: those of the controls and those of the transport. -/
inductive StatusReason where
  | control (reason : AdmissionReason)
  | transportUnavailable
  | terminal
deriving DecidableEq

structure ControlFrame where
  ready : Bool
  admissionState : AdmissionState
  admissionGeneration : Nat
  admissionReason : AdmissionReason
  transportGeneration : Nat
  admissionReceived : Option Nat
deriving DecidableEq

structure AdmissionSnapshot where
  state : AdmissionState
  reason : StatusReason
  transportGeneration : Nat
  admissionGeneration : Nat
  ready : Bool
  terminal : Bool
  err : Option Bytes
deriving DecidableEq

structure SubscriptionStatus where
  state : AdmissionState
  reason : StatusReason
  transport : Nat
  generation : Nat
  consumed : Bool
  refreshed : Option Nat
  observed : Option Nat
  terminal : Bool
  err : Option Bytes
deriving DecidableEq

def stale (now : Nat) : Option Nat → Bool
  | none => true
  | some at_ => decide (admissionFreshness ≤ now - at_)

def timeAfter : Option Nat → Option Nat → Bool
  | some x, some y => decide (y < x)
  | some _, none => true
  | none, _ => false

namespace SubscriptionStatus

def new : SubscriptionStatus := ⟨.starting, .control .none, 0, 0, false, none, none, false, none⟩

variable (s : SubscriptionStatus)

def expire (now : Nat) : SubscriptionStatus :=
  if s.consumed && stale now s.observed then { s with consumed := false, err := some errAdmissionUnavailable } else s

def beginAttempt : SubscriptionStatus :=
  if s.terminal then s
  else { s with
    transport := s.transport + 1
    generation := 0
    state := .starting
    reason := .control .none
    consumed := false
    refreshed := none
    observed := none
    err := none }

def receive (now : Nat) (e : ControlFrame) : Option (SubscriptionStatus × ControlFrame) :=
  if s.terminal || e.transportGeneration != s.transport || e.admissionGeneration == 0 ||
      decide (e.admissionGeneration < s.generation) then none
  else if e.ready != (e.admissionState == .admitted) then none
  else
    let changed := s.generation != e.admissionGeneration || s.state != e.admissionState
    some ({ s with
      consumed := if changed || e.admissionState != .admitted then false else s.consumed
      generation := e.admissionGeneration
      state := e.admissionState
      reason := .control e.admissionReason
      refreshed := some now
      err := none }, { e with admissionReceived := some now })

/-- Acknowledge a control in the order of events, never one of an older generation. -/
def observe (now : Nat) (e : ControlFrame) : SubscriptionStatus :=
  let s := s.expire now
  if s.terminal || e.transportGeneration != s.transport || e.admissionGeneration != s.generation ||
      e.admissionState != s.state || e.admissionReceived.isNone || stale now e.admissionReceived || stale now s.refreshed then s
  else if e.admissionState == .admitted && e.ready then
    { s with
      consumed := true
      observed := if timeAfter e.admissionReceived s.observed then e.admissionReceived else s.observed
      err := none }
  else s

def fail (err : Bytes) (terminal : Bool) : SubscriptionStatus :=
  if s.terminal then s
  else { s with
    consumed := false
    transport := s.transport + 1
    state := .recovering
    reason := if terminal then .terminal else .transportUnavailable
    err := some err
    terminal := terminal }

def snapshot (now : Nat) : SubscriptionStatus × AdmissionSnapshot :=
  let s := s.expire now
  (s, ⟨s.state, s.reason, s.transport, s.generation, s.consumed && !s.terminal, s.terminal, s.err⟩)

end SubscriptionStatus

/-- An item that came in: the transport that brought it, its stamp and when the status learned of it. -/
structure Arrival where
  transport : Nat
  item : Item
  received : Option Nat
  receipt : Nat

inductive Notice where
  | attempt
  | control (transport : Nat) (c : Control)
  | failure

structure Admission where
  clock : Nat
  status : SubscriptionStatus
  attempt : Option Subscription
  transport : Nat
  received : Nat
  queue : List Arrival
  consumed : List Arrival
  notices : List Notice

inductive AdmissionAction where
  | wait (duration : Nat)
  | expire
  | subscribe (backends : List Bytes) (after : Option Progress) (capacity : Nat) (earlier unsent : Bytes → List StoreChangeEvent)
  | serve (a : SubscriptionAction)
  | receive
  | consume
  | fail (err : Bytes) (terminal : Bool)
  | cancel (err : Bytes)
  | snapshot

namespace Admission

def start : Admission := ⟨0, .new, none, 0, 0, [], [], []⟩

def frame (transport : Nat) (received : Option Nat) (c : Control) : ControlFrame :=
  ⟨c.state == .admitted, c.state, c.generation, c.reason, transport, received⟩

variable (s : Admission)

def disconnect (err : Bytes) (terminal : Bool) : Admission :=
  { s with status := s.status.fail err terminal, attempt := none, notices := s.notices ++ [.failure] }

def ingress (item : Item) : Admission :=
  match item with
  | .event _ _ =>
    { s with
      received := s.received + 1
      queue := s.queue ++ [⟨s.transport, item, none, s.notices.length⟩] }
  | .control c =>
    match s.status.receive s.clock (frame s.transport none c) with
    | none => s.disconnect (text "invalid admission generation") true
    | some (status, e) =>
      { s with
        status := status
        received := s.received + 1
        queue := s.queue ++ [⟨s.transport, item, e.admissionReceived, s.notices.length⟩]
        notices := s.notices ++ [.control s.transport c] }

def consume (arrival : Arrival) (rest : List Arrival) : Admission :=
  let status := match arrival.item with
    | .event _ _ => s.status
    | .control c => s.status.observe s.clock (frame arrival.transport arrival.received c)
  { s with status := status, queue := rest, consumed := s.consumed ++ [arrival] }

def step : AdmissionAction → Option Admission
  | .wait duration => some { s with clock := s.clock + duration }
  | .expire => some { s with status := s.status.expire s.clock }
  | .subscribe backends after capacity earlier unsent =>
    match s.attempt with
    | some _ => none
    | none => some { s with
        status := s.status.beginAttempt
        attempt := some (.start true backends after capacity earlier unsent)
        transport := s.status.beginAttempt.transport
        received := 0
        notices := s.notices ++ [.attempt] }
  | .serve a => do
    let sub ← s.attempt
    let sub ← sub.step a
    some { s with attempt := some sub }
  | .receive => do
    let sub ← s.attempt
    let item ← sub.out[s.received]?
    some (s.ingress item)
  | .consume =>
    match s.queue with
    | [] => none
    | arrival :: rest => some (s.consume arrival rest)
  | .fail err terminal => some (s.disconnect err terminal)
  | .cancel err => some { s with status := s.status.fail err true, notices := s.notices ++ [.failure] }
  | .snapshot => some { s with status := (s.status.snapshot s.clock).1 }

end Admission

end Syntrix.Puller
