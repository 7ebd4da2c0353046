import Syntrix.Lib.Runs
import Syntrix.Lib.Tables

/-! # Legacy subscriptions of one connection

The reader of a connection handles its messages one at a time while the hub's loop delivers events and the
stream is replaced. A delivery numbered later was broadcast later.
-/
namespace Syntrix.Realtime.Legacy

open Lib List Option Function

structure Registration where
  id : Nat
  owner : Nat
  database : String
deriving DecidableEq

structure SubscriptionInfo where
  clientSubID : String
  registration : Registration

structure EventDelivery where
  number : Nat
  owner : Nat
  database : String
  subscriptionIDs : List Nat

-- Where the reader stands in the handler of a message. The last two are its exit.
inductive Reader
  | idle
  | calling (subID : String) (owner : Nat) (database : String)
  | accepted (subID : String) (r : Registration)
  | storing (subID : String) (r : Registration)
  | registering (subID : String) (r : Registration)
  | failing (subID : String)
  | releasing (rest : List Registration) (leaving : Bool)
  | ended
deriving DecidableEq

structure Enqueued where
  delivery : EventDelivery
  info : SubscriptionInfo
  -- The database of the latest authentication and what the ID stands for, at that moment.
  authenticated : Option String
  current : List Registration

structure State where
  streamOwner : Option Nat := none
  owners : Nat := 0
  subscriptions : Nat → Option SubscriptionInfo := fun _ => none
  broadcast : List EventDelivery := []
  delivering : List (EventDelivery × SubscriptionInfo) := []
  waiting : Bool := false
  retiring : List Nat := []
  deliveries : Nat := 0
  closed : Bool := false
  database : Option String := none
  -- The client's subscriptions are written and deleted together with these.
  streamerSubIDs : List (String × Registration) := []
  reader : Reader := .idle
  obtained : List Registration := []
  released : List Registration := []
  sent : List Enqueued := []
  missed : List (Nat × Registration) := []

inductive Action
  | auth (database : String) (verified : Bool)
  | subscribe (subID : String)
  | refuse
  | accept
  | confirm (valid : Bool)
  | store
  | register (valid : Bool)
  | fail
  | unsubscribe (subID : String)
  | hangUp
  | release
  | setStream (connected : Bool)
  | close
  | deliver (database : String) (ids : List Nat) (queued : Bool)
  | retire (owner : Nat)
  | take
  | look
  | enqueue (accepted : Bool)

def delete (m : List (String × Registration)) (k : String) : List (String × Registration) :=
  m.filter (·.1 ≠ k)

def found (m : List (String × Registration)) (k : String) : List Registration :=
  (m.filter (·.1 = k)).map (·.2)

def State.without (s : State) (r : Registration) : Nat → Option SubscriptionInfo :=
  if (s.subscriptions r.id).map (·.registration) = some r then update s.subscriptions r.id none else s.subscriptions

def State.missing (s : State) (d : EventDelivery) : List (Nat × Registration) :=
  (s.obtained.filter (·.id ∈ d.subscriptionIDs)).map (d.number, ·)

def State.captured (s : State) (d : EventDelivery) : List (EventDelivery × SubscriptionInfo) :=
  d.subscriptionIDs.filterMap fun id => (s.subscriptions id).map (d, ·)

def step (s : State) (a : Action) : Option State :=
  match a, s.reader with
  | .auth database verified, .idle => some (if verified ∧ database ≠ "" then { s with database := some database } else s)
  | .subscribe subID, .idle =>
    match s.database, s.streamOwner with
    | some database, some owner => some { s with reader := .calling subID owner database }
    | _, _ => some s
  | .refuse, .calling .. => some { s with reader := .idle }
  | .accept, .calling subID owner database =>
    let r := ⟨s.obtained.length, owner, database⟩
    some { s with obtained := s.obtained ++ [r], reader := .accepted subID r }
  | .confirm valid, .accepted subID r =>
    some (if valid ∧ s.streamOwner = some r.owner then { s with reader := .storing subID r }
      else { s with released := s.released ++ [r], reader := .idle })
  | .store, .storing subID r =>
    some { s with
      streamerSubIDs := (subID, r) :: delete s.streamerSubIDs subID, reader := .registering subID r }
  | .register valid, .registering subID r =>
    some (if valid ∧ s.streamOwner = some r.owner then
      { s with subscriptions := update s.subscriptions r.id (some ⟨subID, r⟩), reader := .idle }
      else { s with subscriptions := s.without r, released := s.released ++ [r], reader := .failing subID })
  | .fail, .failing subID =>
    some { s with streamerSubIDs := delete s.streamerSubIDs subID, reader := .idle }
  | .unsubscribe subID, .idle =>
    if s.database = none then some s
    else some { s with
      streamerSubIDs := delete s.streamerSubIDs subID
      reader := .releasing (found s.streamerSubIDs subID) false }
  | .hangUp, .idle => some { s with reader := .releasing (s.streamerSubIDs.map (·.2)) true }
  | .release, .releasing (r :: rest) leaving =>
    some { s with subscriptions := s.without r, released := s.released ++ [r], reader := .releasing rest leaving }
  | .release, .releasing [] leaving => some { s with reader := if leaving then .ended else .idle }
  | .setStream connected, _ =>
    some { s with
      streamOwner := if connected then some s.owners else none
      owners := s.owners + 1
      subscriptions := if s.streamOwner = none then s.subscriptions else fun _ => none }
  -- By the client, by the hub once the stream was replaced, or when the reader unregisters.
  | .close, _ => some { s with closed := true }
  | .deliver database ids queued, _ =>
    match s.streamOwner with
    | none => none
    | some owner =>
      -- The stream's receive loop broadcasts one delivery after another, and the stream lists a registration
      -- only with an event of its database.
      if owner ∉ s.retiring ∧ (∀ id ∈ ids, id < s.obtained.length) ∧
          ∀ r ∈ s.obtained, r.id ∈ ids → r.database = database ∧ r.owner = owner then
        let d := ⟨s.deliveries, owner, database, ids⟩
        if ids.all fun id => (s.subscriptions id).isNone then some { s with deliveries := s.deliveries + 1 }
        else if queued then some { s with deliveries := s.deliveries + 1, broadcast := s.broadcast ++ [d] }
        else some { s with
          deliveries := s.deliveries + 1, retiring := owner :: s.retiring, missed := s.missed ++ s.missing d }
      else none
  | .retire owner, _ =>
    if owner ∈ s.retiring then
      some { s with retiring := s.retiring.filter (· ≠ owner), closed := s.closed || s.streamOwner = some owner }
    else none
  | .take, _ =>
    match s.delivering, s.waiting, s.broadcast with
    | [], false, d :: rest =>
      some (if s.streamOwner = some d.owner then
        { s with broadcast := rest, delivering := s.captured d }
        else { s with broadcast := rest, missed := s.missed ++ s.missing d })
    | _, _, _ => none
  | .look, _ =>
    match s.delivering, s.waiting with
    | x :: rest, false =>
      some (if found s.streamerSubIDs x.2.clientSubID = [] then { s with delivering := rest }
        else if s.closed then { s with delivering := rest, missed := s.missed ++ [(x.1.number, x.2.registration)] }
        else { s with waiting := true })
    | _, _ => none
  | .enqueue accepted, _ =>
    match s.delivering, s.waiting with
    | x :: rest, true =>
      some (if accepted then { s with
          delivering := rest, waiting := false
          sent := s.sent ++ [⟨x.1, x.2, s.database, found s.streamerSubIDs x.2.clientSubID⟩] }
        else { s with
          delivering := rest, waiting := false, missed := s.missed ++ [(x.1.number, x.2.registration)] })
    | _, _ => none
  | _, _ => none

theorem without_eq_some {s : State} {r : Registration} {id : Nat} {i : SubscriptionInfo} :
    s.without r id = some i ↔ s.subscriptions id = some i ∧ ¬(id = r.id ∧ i.registration = r) := by
  unfold State.without
  grind

theorem mem_captured {s : State} {d : EventDelivery} {x : EventDelivery × SubscriptionInfo} :
    x ∈ s.captured d ↔ x.1 = d ∧ ∃ id ∈ d.subscriptionIDs, s.subscriptions id = some x.2 := by
  unfold State.captured
  simp only [mem_filterMap, map_eq_some_iff]
  grind

def Reader.pending : Reader → Option Registration
  | .accepted _ r | .storing _ r | .registering _ r => some r
  | _ => none

structure Known (s : State) : Prop where
  below : ∀ r ∈ s.obtained, r.id < s.obtained.length
  nodup : s.obtained.Nodup
  pending : ∀ r, s.reader.pending = some r → r ∈ s.obtained
  entries : ∀ id i, s.subscriptions id = some i →
    i.registration ∈ s.obtained ∧ i.registration.id = id ∧ s.streamOwner = some i.registration.owner
  owned : ∀ r ∈ s.obtained, r.owner < s.owners
  calling : ∀ subID owner database, s.reader = .calling subID owner database → owner < s.owners
  current : ∀ owner, s.streamOwner = some owner → owner < s.owners
  delivering : ∀ x ∈ s.delivering, x.2.registration ∈ s.obtained
  queued : ∀ d ∈ s.broadcast, (∀ id ∈ d.subscriptionIDs, id < s.obtained.length) ∧
    ∀ r ∈ s.obtained, r.id ∈ d.subscriptionIDs → r.database = d.database ∧ r.owner = d.owner

section Steps

variable {s s' : State} {a : Action}

theorem Known.step (hs : Known s) (hStep : step s a = some s') : Known s' := by
  obtain ⟨hBelow, hNodup, hPending, hEntries, hOwned, hCalling, hCurrent, hDelivering, hQueued⟩ := hs
  unfold Legacy.step at hStep
  repeat' split at hStep
  all_goals cases hStep
  -- The branches left write one of the fields the invariant reads.
  all_goals try exact ⟨hBelow, hNodup, hPending, hEntries, hOwned, hCalling, hCurrent, hDelivering, hQueued⟩
  all_goals refine ⟨?_, ?_, ?_, ?_, ?_, ?_, ?_, ?_, ?_⟩
  all_goals first | assumption | grind [Reader.pending, without_eq_some, mem_captured]

structure Isolated (s : State) : Prop where
  calling : ∀ subID owner database, s.reader = .calling subID owner database → s.database = some database
  pending : ∀ r, s.reader.pending = some r → s.database = some r.database
  entries : ∀ id i, s.subscriptions id = some i → s.database = some i.registration.database
  delivering : ∀ x ∈ s.delivering, s.database = some x.1.database
  sent : ∀ e ∈ s.sent, e.authenticated = some e.delivery.database

def isolates (s : State) : Action → Bool
  | .auth database true => s.database = some database ∨ (∀ r ∈ s.obtained, s.subscriptions r.id = none) ∧ s.delivering = []
  | _ => true

theorem Isolated.step (hKnown : Known s) (hs : Isolated s) (hAllowed : isolates s a) (hStep : step s a = some s') :
    Isolated s' := by
  obtain ⟨hCalling, hPending, hRegistered, hDelivering, hSent⟩ := hs
  have hEntries := hKnown.entries
  have hQueued := hKnown.queued
  unfold Legacy.step at hStep
  repeat' split at hStep
  all_goals cases hStep
  all_goals try exact ⟨hCalling, hPending, hRegistered, hDelivering, hSent⟩
  all_goals refine ⟨?_, ?_, ?_, ?_, ?_⟩
  all_goals first | assumption | grind [Reader.pending, isolates, without_eq_some, mem_captured]

theorem known_start : Known {} := by
  constructor <;> simp [Reader.pending]

def Reader.rest : Reader → List Registration
  | .releasing rest _ => rest
  | _ => []

def Reader.over : Reader → Bool
  | .releasing _ leaving => leaving
  | .ended => true
  | _ => false

def State.held (s : State) : List Registration :=
  match s.reader with
  | .accepted _ r | .storing _ r => r :: s.streamerSubIDs.map (·.2)
  | .failing subID => (delete s.streamerSubIDs subID).map (·.2)
  | reader => reader.rest ++ if reader.over then [] else s.streamerSubIDs.map (·.2)

structure Balanced (s : State) : Prop where
  balanced : ∀ r, s.released.count r + s.held.count r = s.obtained.count r
  entries : ∀ id i, s.subscriptions id = some i → i.registration ∈ s.reader.rest ∨
    s.reader.over = false ∧ (i.clientSubID, i.registration) ∈ s.streamerSubIDs
  current : ∀ id i, s.subscriptions id = some i → ∀ p ∈ s.streamerSubIDs, p.1 = i.clientSubID → p.2 = i.registration
  registering : ∀ subID r, s.reader = .registering subID r →
    s.streamerSubIDs = (subID, r) :: delete s.streamerSubIDs subID
  failing : ∀ subID, s.reader = .failing subID → ∀ id i, s.subscriptions id = some i → i.clientSubID ≠ subID
  delivering : ∀ x ∈ s.delivering, ∀ p ∈ s.streamerSubIDs, p.1 = x.2.clientSubID → p.2 = x.2.registration
  sent : ∀ e ∈ s.sent, ∀ r ∈ e.current, r = e.info.registration

section Maps

variable {m : List (String × Registration)} {k : String} {r : Registration} {p : String × Registration}

theorem mem_delete : p ∈ delete m k ↔ p ∈ m ∧ p.1 ≠ k := by
  simp [delete]

theorem delete_eq_self (h : ∀ p ∈ m, p.1 ≠ k) : delete m k = m := by
  simpa [delete] using h

theorem delete_cons : delete ((k, r) :: delete m k) k = delete m k := by
  simp [delete]

theorem mem_found : r ∈ found m k ↔ (k, r) ∈ m := by
  simp [found]

theorem count_found : (found m k).count r + ((delete m k).map (·.2)).count r = (m.map (·.2)).count r := by
  induction m with
  | nil => rfl
  | cons p m ih => grind [found, delete]

end Maps

def fresh (s : State) (a : Action) : Bool :=
  match a, s.reader with
  | .store, .storing subID _ => s.streamerSubIDs.all (·.1 ≠ subID) && s.delivering.all (·.2.clientSubID ≠ subID)
  | _, _ => true

theorem unused_of_fresh {subID : String} {r : Registration} (hReader : s.reader = .storing subID r) (h : fresh s .store) :
    (∀ p ∈ s.streamerSubIDs, p.1 ≠ subID) ∧ ∀ x ∈ s.delivering, x.2.clientSubID ≠ subID := by
  simpa [fresh, hReader] using h

theorem Balanced.step (hKnown : Known s) (hs : Balanced s) (hAllowed : fresh s a) (hStep : step s a = some s') :
    Balanced s' := by
  obtain ⟨hBalanced, hEntries, hCurrent, hRegistering, hFailing, hDelivering, hSent⟩ := hs
  have hKnownEntries := hKnown.entries
  have hHead x rest (h : s.delivering = x :: rest) := hDelivering x (h ▸ mem_cons_self)
  unfold Legacy.step at hStep
  repeat' split at hStep
  all_goals cases hStep
  all_goals try exact ⟨hBalanced, hEntries, hCurrent, hRegistering, hFailing, hDelivering, hSent⟩
  all_goals refine ⟨?_, ?_, ?_, ?_, ?_, ?_, ?_⟩
  all_goals first | assumption | grind [State.held, Reader.rest, Reader.over, unused_of_fresh, without_eq_some, mem_captured,
    mem_delete, delete_eq_self, delete_cons, mem_found, count_found]

structure Ordered (s : State) : Prop where
  queued : s.broadcast.Pairwise (·.number ≤ ·.number)
  counted : ∀ d ∈ s.broadcast, d.number ≤ s.deliveries
  same : ∀ x ∈ s.delivering, ∀ y ∈ s.delivering, x.1.number ≤ y.1.number
  begun : ∀ x ∈ s.delivering, x.1.number ≤ s.deliveries
  delivering : ∀ x ∈ s.delivering, ∀ d ∈ s.broadcast, x.1.number ≤ d.number
  sent : ∀ e ∈ s.sent, e.delivery.number ≤ s.deliveries ∧ (∀ x ∈ s.delivering, e.delivery.number ≤ x.1.number) ∧
    ∀ d ∈ s.broadcast, e.delivery.number ≤ d.number

structure Gap (s : State) (n : Nat) (r : Registration) : Prop where
  obtained : r ∈ s.obtained
  sent : ∀ e ∈ s.sent, e.info.registration = r → e.delivery.number ≤ n
  cut : s.closed ∧ (s.waiting → ∀ x ∈ s.delivering.head?, x.2.registration = r → x.1.number ≤ n) ∨
    (∀ x ∈ s.delivering, x.2.registration = r → x.1.number ≤ n) ∧
    (s.streamOwner = some r.owner → r.owner ∈ s.retiring ∧ ∀ d ∈ s.broadcast, d.number ≤ n)

def prompt (s : State) : Action → Bool
  | .enqueue accepted => accepted || s.closed
  | _ => true

theorem mem_missing {d : EventDelivery} {m : Nat × Registration} :
    m ∈ s.missing d ↔ m.1 = d.number ∧ m.2 ∈ s.obtained ∧ m.2.id ∈ d.subscriptionIDs := by
  unfold State.missing
  grind

theorem Ordered.step (hs : Ordered s) (hStep : step s a = some s') : Ordered s' := by
  obtain ⟨hQueued, hCounted, hSame, hBegun, hDelivering, hSent⟩ := hs
  unfold Legacy.step at hStep
  repeat' split at hStep
  all_goals cases hStep
  all_goals try exact ⟨hQueued, hCounted, hSame, hBegun, hDelivering, hSent⟩
  all_goals refine ⟨?_, ?_, ?_, ?_, ?_, ?_⟩
  all_goals first | assumption | grind [mem_captured, rel_of_pairwise_cons]

theorem Gap.step {n : Nat} {r : Registration} (hKnown : Known s) (hs : Gap s n r)
    (hStep : step s a = some s') : Gap s' n r := by
  have hEntries := hKnown.entries
  have hOwned := hKnown.owned
  obtain ⟨hObtained, hSent, hCut⟩ := hs
  unfold Legacy.step at hStep
  repeat' split at hStep
  all_goals cases hStep
  all_goals try exact ⟨hObtained, hSent, hCut⟩
  all_goals refine ⟨?_, ?_, ?_⟩
  all_goals first | assumption | grind [mem_captured, mem_missing]

theorem gap_of_missed (hKnown : Known s) (hs : Ordered s) (hAllowed : prompt s a)
    (hStep : step s a = some s') : ∀ m ∈ s'.missed, m ∈ s.missed ∨ Gap s' m.1 m.2 := by
  intro m hm
  have hQueued := hKnown.queued
  have hDelivering := hKnown.delivering
  have hOrder := hs.sent
  have hBegun := hs.begun
  have hCounted := hs.counted
  unfold Legacy.step at hStep
  repeat' split at hStep
  all_goals cases hStep
  all_goals try exact .inl hm
  all_goals refine (mem_append.mp hm).imp id fun hNew => ⟨?_, ?_, ?_⟩
  all_goals grind [prompt, mem_missing]

end Steps

variable {actions : List Action} {s : State}

/-- Where an authentication names another database only with nothing registered or on its way. -/
theorem enqueued_within_authentication (h : Runs step (fun s a => isolates s a) {} actions s) :
    ∀ e ∈ s.sent, e.authenticated = some e.delivery.database := by
  have hInv := Runs.invariant (I := fun s => Known s ∧ Isolated s) ⟨known_start, by constructor <;> simp [Reader.pending]⟩
    (fun _ _ _ hs hAllowed hStep => ⟨hs.1.step hStep, hs.2.step hs.1 hAllowed hStep⟩) h
  exact hInv.2.sent

def subscribed : List Action :=
  [.subscribe "x", .accept, .confirm true, .store, .register true]

def delivered : List Action :=
  [.deliver "a" [0] true, .take, .look, .enqueue true]

def oneEvent : List Action :=
  .setStream true :: .auth "a" true :: subscribed ++ delivered

theorem enqueued_within_authentication_once : ∃ s, Runs step (fun s a => isolates s a) {} oneEvent s ∧ s.sent ≠ [] ∧
    ∀ e ∈ s.sent, e.authenticated = some e.delivery.database := by
  obtain ⟨s, hRuns, hs⟩ : ∃ s, Runs step (fun s a => isolates s a) {} oneEvent s ∧ s.sent ≠ [] :=
    Runs.exists_checked (by decide +kernel)
  exact ⟨s, hRuns, hs, enqueued_within_authentication hRuns⟩

theorem enqueued_after_reauthentication : ∃ s,
    Runs step (fun _ _ => True) {} (.setStream true :: .auth "a" true :: subscribed ++ .auth "b" true :: delivered) s ∧
    ∃ e ∈ s.sent, e.authenticated = some "b" ∧ e.delivery.database = "a" :=
  Runs.exists_of_foldlM (by decide +kernel)

/-- Where no subscribe reuses an ID that is live or still being delivered to. -/
theorem registrations_released (h : Runs step (fun s a => fresh s a) {} actions s) :
    (s.reader = .ended → (∀ id, s.subscriptions id = none) ∧ ∀ r ∈ s.obtained, s.released.count r = 1) ∧
    ∀ e ∈ s.sent, ∀ r ∈ e.current, r = e.info.registration := by
  have hInv := Runs.invariant (I := fun s => Known s ∧ Balanced s)
    ⟨known_start, by constructor <;> simp [State.held, Reader.rest]⟩
    (fun _ _ _ hs hAllowed hStep => ⟨hs.1.step hStep, hs.2.step hs.1 hAllowed hStep⟩) h
  obtain ⟨hKnown, hs⟩ := hInv
  refine ⟨fun hEnded => ⟨fun id => ?_, fun r hr => ?_⟩, hs.sent⟩
  · rw [eq_none_iff_forall_ne_some]
    intro i hi
    have hEntry := hs.entries id i hi
    simp [hEnded, Reader.rest, Reader.over] at hEntry
  · have hCount := hs.balanced r
    simp only [State.held, hEnded, Reader.rest, Reader.over, if_true, append_nil, count_nil] at hCount
    rw [hKnown.nodup.count, if_pos hr] at hCount
    exact hCount

theorem registrations_released_once : ∃ s,
    Runs step (fun s a => fresh s a) {} (oneEvent ++ [.hangUp, .release, .release]) s ∧ s.obtained ≠ [] ∧
    (∀ id, s.subscriptions id = none) ∧ ∀ r ∈ s.obtained, s.released.count r = 1 := by
  obtain ⟨s, hRuns, hEnded, hs⟩ : ∃ s, Runs step (fun s a => fresh s a) {} (oneEvent ++ [.hangUp, .release, .release]) s ∧
    s.reader = .ended ∧ s.obtained ≠ [] := Runs.exists_checked (by decide +kernel)
  exact ⟨s, hRuns, hs, (registrations_released hRuns).1 hEnded⟩

theorem superseded_registration_leaks : ∃ s, Runs step (fun _ _ => True) {}
    (oneEvent ++ subscribed ++ delivered ++ [.hangUp, .release, .release]) s ∧ s.reader = .ended ∧
    (s.subscriptions 0).isSome ∧ (∃ r ∈ s.obtained, r ∉ s.released ∧ s.streamOwner = some r.owner) ∧
    ∃ e ∈ s.sent, ∃ r ∈ e.current, r ≠ e.info.registration :=
  Runs.exists_of_foldlM (by decide +kernel)

/-- Where an enqueue fails only on a closed transport. -/
theorem no_silent_gap (h : Runs step (fun s a => prompt s a) {} actions s) :
    ∀ m ∈ s.missed, ∀ e ∈ s.sent, e.info.registration = m.2 → ¬ m.1 < e.delivery.number := by
  have hInv := Runs.invariant (I := fun s => Known s ∧ Ordered s ∧ ∀ m ∈ s.missed, Gap s m.1 m.2)
    ⟨known_start, by constructor <;> simp, by simp⟩ (fun _ _ _ hs hAllowed hStep => ⟨hs.1.step hStep, hs.2.1.step hStep,
      fun m hm => (gap_of_missed hs.1 hs.2.1 hAllowed hStep m hm).elim (fun hOld => (hs.2.2 m hOld).step hs.1 hStep) id⟩) h
  intro m hm e he hSame
  exact ((hInv.2.2 m hm).sent e he hSame).not_gt

def overflow : List Action :=
  oneEvent ++ [.deliver "a" [0] false, .retire 0, .deliver "a" [0] true, .take, .look]

theorem no_silent_gap_overflow : ∃ s, Runs step (fun s a => prompt s a) {} overflow s ∧ s.sent ≠ [] ∧ s.missed.length = 2 ∧
    ∀ m ∈ s.missed, ∀ e ∈ s.sent, e.info.registration = m.2 → ¬ m.1 < e.delivery.number := by
  obtain ⟨s, hRuns, hs⟩ : ∃ s, Runs step (fun s a => prompt s a) {} overflow s ∧ s.sent ≠ [] ∧ s.missed.length = 2 :=
    Runs.exists_checked (by decide +kernel)
  exact ⟨s, hRuns, hs.1, hs.2, no_silent_gap hRuns⟩

theorem timeout_hides_event : ∃ s, Runs step (fun _ _ => True) {}
    (oneEvent ++ [.deliver "a" [0] true, .take, .look, .enqueue false] ++ delivered) s ∧ s.closed = false ∧
    ∃ m ∈ s.missed, ∃ e ∈ s.sent, e.info.registration = m.2 ∧ m.1 < e.delivery.number :=
  Runs.exists_of_foldlM (by decide +kernel)

end Syntrix.Realtime.Legacy
