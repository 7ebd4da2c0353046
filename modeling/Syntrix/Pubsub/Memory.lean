import Syntrix.Lib.Runs

/-! # The in-memory broker

A message is settled once per delivery and put back into the channel of its subscription when it is rejected.
The channel is closed under the lock of the broker, which rejected messages do not take.
-/
namespace Syntrix.Pubsub

open Lib List

section Redelivery

structure Message where
  numDelivered : Nat := 1
  acked : Bool := false
  naked : Bool := false
  termed : Bool := false

inductive Settlement where
  | ack
  | nak
  | nakWithDelay
  | term
deriving DecidableEq

def Settlement.rejects : Settlement → Bool
  | .nak | .nakWithDelay => true
  | .ack | .term => false

def Message.settled (m : Message) : Bool := m.acked || m.naked || m.termed

def Message.reject (m : Message) : Message := { m with naked := true, numDelivered := m.numDelivered + 1 }

/-- What a settlement makes of the message, and whether it is put back; the timer of a delayed rejection resets
the flag before it does so. -/
def Message.settle (m : Message) (x : Settlement) : Message × Bool :=
  if m.settled then (m, false)
  else match x with
    | .ack => ({ m with acked := true }, false)
    | .nak => (m.reject, true)
    | .nakWithDelay => ({ m.reject with naked := false }, true)
    | .term => ({ m with termed := true }, false)

/-- The counts a consumer is shown that settles one delivery after the other. -/
def deliveries (m : Message) : List Settlement → List Nat
  | [] => [m.numDelivered]
  | x :: rest => m.numDelivered :: if (m.settle x).2 then deliveries (m.settle x).1 rest else []

variable {m : Message} {xs : List Settlement}

theorem deliveries_settled (h : m.settled = true) : deliveries m xs = [m.numDelivered] := by
  cases xs with
  | nil => rfl
  | cons x rest => simp [deliveries, Message.settle, h]

theorem deliveries_iff (h : m.settled = false) :
    deliveries m xs = range' m.numDelivered ((xs.takeWhile Settlement.rejects).length + 1) ↔
      .nak ∉ (xs.takeWhile Settlement.rejects).dropLast := by
  induction xs generalizing m with
  | nil => simp [deliveries]
  | cons x rest ih =>
    unfold deliveries Message.settle
    rw [h, if_neg Bool.false_ne_true, takeWhile_cons]
    generalize rest.takeWhile Settlement.rejects = rejected at ih ⊢
    cases x with
    | ack | term => simp [Settlement.rejects]
    | nak =>
      -- the flag stays set, so the next settlement is taken for a repeated one
      have hOnce : deliveries m.reject rest = [m.numDelivered + 1] := deliveries_settled (by simp [Message.settled, Message.reject])
      cases rejected <;> simp [hOnce, Settlement.rejects, range'_succ]
    | nakWithDelay =>
      have hOpen : ({ m.reject with naked := false } : Message).settled = false := by
        simp_all [Message.settled, Message.reject]
      cases rejected <;> simp_all [Settlement.rejects, range'_succ, Message.reject]

/-- Every rejection is followed by one more delivery exactly when a `Nak` is not followed by another rejection. -/
theorem redelivered_once_iff (xs : List Settlement) :
    deliveries {} xs = range' 1 ((xs.takeWhile Settlement.rejects).length + 1) ↔ .nak ∉ (xs.takeWhile Settlement.rejects).dropLast :=
  deliveries_iff rfl

/-- Rejected twice, the message is delivered twice only. -/
theorem second_nak_dropped : deliveries {} [.nak, .nak, .ack] = [1, 2] := by
  decide

end Redelivery

section Channels

/-- How far the timer function of a delayed rejection has come. -/
inductive Stage where
  | set
  | open
  | live
  | ready
deriving DecidableEq

structure State where
  closed : Bool := false
  subscriptions : List (String × Nat) := []
  next : Nat := 0
  /-- The publishers that hold the lock, with the subscription they are sending to. -/
  publishers : List (Option Nat) := []
  /-- The channels the holder of the write lock has yet to close. -/
  closing : Option (List Nat) := none
  cancelled : List Nat := []
  closedChannels : List Nat := []
  timers : List (Nat × Stage) := []
  panics : List Nat := []

inductive Action where
  | subscribe (pattern : String)
  | publish
  | pick (k : Nat)
  | send (k : Nat)
  | published
  | unsubscribe (k : Nat)
  | shut
  | close
  | cancel
  | closeChannel
  | unlock
  | nak (k : Nat)
  | nakWithDelay (k : Nat)
  | checkClosed (k : Nat)
  | checkContext (k : Nat)
  | reset (k : Nat)
  | select (k : Nat) (sends : Bool)

def State.free (s : State) : Bool := s.publishers = [] && s.closing = none

def State.move (s : State) (k : Nat) (stage : Stage) (next : Option Stage) : State :=
  { s with timers := s.timers.erase (k, stage) ++ next.toList.map (k, ·) }

/-- A send outside of a function that recovers. -/
def State.put (s : State) (k : Nat) : State :=
  { s with panics := if k ∈ s.closedChannels then s.panics ++ [k] else s.panics }

def step (s : State) : Action → Option State
  | .subscribe pattern =>
    if s.free ∧ s.closed = false ∧ pattern ∉ s.subscriptions.map (·.1) then
      some { s with subscriptions := (pattern, s.next) :: s.subscriptions, next := s.next + 1 }
    else none
  | .publish => if s.closing = none then some { s with publishers := s.publishers ++ [none] } else none
  | .pick k =>
    if none ∈ s.publishers ∧ k ∈ s.subscriptions.map (·.2) then some { s with publishers := s.publishers.erase none ++ [some k] }
    else none
  | .send k =>
    if some k ∈ s.publishers then some { s.put k with publishers := s.publishers.erase (some k) ++ [none] } else none
  | .published => if none ∈ s.publishers then some { s with publishers := s.publishers.erase none } else none
  | .unsubscribe k =>
    if s.free = false then none
    else if k ∈ s.subscriptions.map (·.2) then
      some { s with subscriptions := s.subscriptions.filter (·.2 ≠ k), closing := some [k] }
    else some s
  | .shut => some { s with closed := true }
  | .close =>
    if s.free ∧ s.closed then some { s with subscriptions := [], closing := some (s.subscriptions.map (·.2)) } else none
  | .cancel =>
    match s.closing with
    | some (k :: _) => some { s with cancelled := k :: s.cancelled }
    | _ => none
  | .closeChannel =>
    match s.closing with
    | some (k :: rest) =>
      if k ∈ s.cancelled then some { s with closedChannels := k :: s.closedChannels, closing := some rest } else none
    | _ => none
  | .unlock => if s.closing = some [] then some { s with closing := none } else none
  -- a panic of this send is recovered
  | .nak _ => some s
  | .nakWithDelay k => if k < s.next then some { s with timers := s.timers ++ [(k, .set)] } else none
  | .checkClosed k => if (k, .set) ∈ s.timers then some (s.move k .set (if s.closed then none else some .open)) else none
  | .checkContext k =>
    if (k, .open) ∈ s.timers then some (s.move k .open (if k ∈ s.cancelled then none else some .live)) else none
  | .reset k => if (k, .live) ∈ s.timers then some (s.move k .live (some .ready)) else none
  | .select k sends =>
    if (k, .ready) ∈ s.timers ∧ (sends = false → k ∈ s.cancelled) then
      some ((if sends then s.put k else s).move k .ready none)
    else none

/-- A channel is closed with no timer function between its look at the context and its send. -/
def quiet (s : State) : Action → Bool
  | .closeChannel => s.closing.all fun l => l.head?.all fun k => (k, .live) ∉ s.timers ∧ (k, .ready) ∉ s.timers
  | _ => true

structure Sound (s : State) : Prop where
  listed : ∀ x ∈ s.subscriptions, x.2 < s.next ∧ x.2 ∉ s.closedChannels ∧ ∀ l, s.closing = some l → x.2 ∉ l
  nodup : (s.subscriptions.map (·.2)).Nodup
  publishing : ∀ k, some k ∈ s.publishers → k ∈ s.subscriptions.map (·.2)
  closing : ∀ l, s.closing = some l → l.Nodup ∧ s.publishers = [] ∧ ∀ k ∈ l, k < s.next ∧ k ∉ s.closedChannels
  closed : s.closedChannels.Nodup ∧ ∀ k ∈ s.closedChannels, k < s.next ∧ k ∈ s.cancelled
  timers : ∀ x ∈ s.timers, x.1 < s.next ∧ (x.2 = .live ∨ x.2 = .ready → x.1 ∉ s.closedChannels)
  panics : s.panics = []

variable {s s' : State} {a : Action} {actions : List Action}

theorem free_iff : s.free = true ↔ s.publishers = [] ∧ s.closing = none := by
  simp [State.free]

theorem Sound.step (hs : Sound s) (hAllowed : quiet s a) (hStep : step s a = some s') : Sound s' := by
  obtain ⟨hListed, hNodup, hPublishing, hClosing, hClosed, hTimers, hPanics⟩ := hs
  have hHead k rest (h : s.closing = some (k :: rest)) := (hClosing _ h).2.2 k mem_cons_self
  unfold Pubsub.step at hStep
  repeat' split at hStep
  all_goals cases hStep
  all_goals try exact ⟨hListed, hNodup, hPublishing, hClosing, hClosed, hTimers, hPanics⟩
  all_goals refine ⟨?_, ?_, ?_, ?_, ?_, ?_, ?_⟩
  all_goals first | assumption | grind [State.move, State.put, quiet, free_iff]

/-- Where no channel is closed under a timer function that has seen its context alive. -/
theorem no_panic_on_closed_channel (h : Runs step (fun s a => quiet s a) {} actions s) :
    s.panics = [] ∧ s.closedChannels.Nodup := by
  have hSound := Runs.invariant (I := Sound) (by constructor <;> simp) (fun _ _ _ hs => hs.step) h
  exact ⟨hSound.panics, hSound.closed.1⟩

/-- The delayed rejection comes through, and another one is given up after the subscription was cancelled. -/
def orderly : List Action :=
  [.subscribe "a", .publish, .pick 0, .send 0, .published, .nakWithDelay 0, .nakWithDelay 0, .checkClosed 0, .checkContext 0, .reset 0,
    .select 0 true, .checkClosed 0, .unsubscribe 0, .cancel, .closeChannel, .unlock, .checkContext 0, .shut, .close, .unlock]

theorem no_panic_orderly : ∃ s, Runs step (fun s a => quiet s a) {} orderly s ∧ s.closedChannels = [0] ∧ s.panics = [] :=
  (Runs.exists_checked (P := fun s => s.closedChannels = [0]) (by decide +kernel)).imp fun _ h =>
    ⟨h.1, h.2, (no_panic_on_closed_channel h.1).1⟩

/-- The subscription is cancelled and its channel closed after the timer function has looked at the context. -/
theorem delayed_nak_panics : ∃ s, Runs step (fun _ _ => True) {} [.subscribe "a", .nakWithDelay 0, .checkClosed 0, .checkContext 0,
    .unsubscribe 0, .cancel, .closeChannel, .unlock, .reset 0, .select 0 true] s ∧ s.panics = [0] :=
  Runs.exists_of_foldlM (by decide +kernel)

end Channels

end Syntrix.Pubsub
