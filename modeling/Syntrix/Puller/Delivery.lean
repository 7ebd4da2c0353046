import Syntrix.Puller.Subscription

/-! # Deliveries of a subscription

What a subscription has sent, and how the subscriber remembers it: the last cluster time of every backend
and the IDs that were delivered with it. An event that is not sent again was delivered before, as long as
nothing was delivered ahead of an earlier event.
-/
namespace Syntrix.Puller

open Lib OrderCode List Option Function

section Keys

variable {x y : StoreChangeEvent}

theorem keyLE_iff : keyLE x y ↔ x.bufferKey ≤ y.bufferKey := not_lt

theorem keyLE_clusterTime (h : keyLE x y) : x.clusterTime ≤ y.clusterTime := by
  by_contra hLt
  refine h ?_
  rw [← wordCmp_eq_lt_iff, StoreChangeEvent.bufferKey, StoreChangeEvent.bufferKey, wordCmp_formatBufferKey,
    (cmp_eq_lt_iff _ _).mpr (not_le.mp hLt)]
  rfl

instance : Std.Total keyLE := ⟨fun x y => by
  rw [keyLE_iff, keyLE_iff]
  exact le_total _ _⟩

instance : IsTrans StoreChangeEvent keyLE := ⟨fun x y z => by
  rw [keyLE_iff, keyLE_iff, keyLE_iff]
  exact le_trans⟩

theorem mem_scanFrom {history : List StoreChangeEvent} {start : Option ClusterTime} {e : StoreChangeEvent} :
    e ∈ scanFrom history start ↔ e ∈ history ∧ ∀ t ∈ start, t ≤ e.clusterTime := by
  rw [scanFrom, mem_insertionSort, mem_filter]
  cases start <;> simp

variable {h : Head} {l : List Head}

theorem leastHead_mem (hLeast : leastHead l = some h) : h ∈ l := by
  induction l generalizing h with
  | nil => cases hLeast
  | cons x l ih =>
    rw [leastHead] at hLeast
    split at hLeast
    · cases hLeast
      exact mem_cons_self
    rename_i m hm
    split at hLeast
    · cases hLeast
      exact mem_cons_of_mem _ (ih hm)
    · cases hLeast
      exact mem_cons_self

theorem leastHead_none (h : leastHead l = none) : l = [] := by
  cases l with
  | nil => rfl
  | cons x l =>
    rw [leastHead] at h
    split at h
    · cases h
    · split at h <;> cases h

variable {iters : Iterators} {backends : List Bytes}

theorem leastHead_heads (hLeast : leastHead (heads backends iters) = some h) : iters h.backend = h.event :: h.rest := by
  obtain ⟨b, -, hb⟩ := mem_filterMap.mp (leastHead_mem hLeast)
  split at hb
  · cases hb
  rename_i e rest hIter
  cases hb
  exact hIter

theorem heads_nil (h : leastHead (heads backends iters) = none) {b : Bytes} (hb : b ∈ backends) : iters b = [] := by
  have hNone := filterMap_eq_nil_iff.mp (leastHead_none h) b hb
  split at hNone
  · assumption
  · cases hNone

end Keys

namespace Subscription

variable (s : Subscription)

def sent : List (StoreChangeEvent × Progress) :=
  s.out.filterMap fun item =>
    match item with
    | .event e progress => some (e, progress)
    | .control _ => none

def delivered : List StoreChangeEvent := s.sent.map Prod.fst

/-- What was broadcast before a subscription belongs to it only if it starts from a position. -/
def base (b : Bytes) : List StoreChangeEvent := if s.after.isSome then s.earlier b else []

def Owed (x : StoreChangeEvent) : Prop :=
  x ∈ s.base x.backend ++ s.broadcasts x.backend ++ s.unsent x.backend ∧
    ∀ p ∈ s.after, ∀ pos ∈ p x.backend, pos.clusterTime ≤ x.clusterTime

/-- The source: every backend has its own events, in the order of their cluster times. -/
structure Ordered : Prop where
  backend : ∀ b, ∀ e ∈ s.history b, e.backend = b
  configured : ∀ b, ∀ e ∈ s.history b, b ∈ s.backends
  sorted : ∀ b, (s.history b).Pairwise fun x y => x.clusterTime ≤ y.clusterTime
  distinct : ∀ b, ((s.history b).map StoreChangeEvent.eventID).Nodup

structure Tracked : Prop where
  known : ∀ e ∈ s.delivered, e ∈ s.history e.backend
  reached : ∀ e ∈ s.delivered, ∃ t, s.sub.lastClusterTime e.backend = some t ∧ e.clusterTime ≤ t
  marked : ∀ e ∈ s.delivered, s.sub.lastClusterTime e.backend = some e.clusterTime → e.eventID ∈ s.sub.deliveredIDs e.backend
  named : ∀ b, ∀ id ∈ s.sub.deliveredIDs b, ∃ e ∈ s.delivered, e.backend = b ∧ e.eventID = id
  origin : ∀ b t, s.sub.lastClusterTime b = some t →
    (∃ e ∈ s.delivered, e.backend = b ∧ e.clusterTime = t) ∨ ∃ p ∈ s.after, ∃ pos ∈ p b, pos.clusterTime = t
  position : ∀ b, (s.sub.currentPos b).map Position.clusterTime = s.sub.lastClusterTime b
  apart : s.delivered.Pairwise fun x y => x.backend = y.backend → x.clusterTime ≤ y.clusterTime ∧ x.eventID ≠ y.eventID
  before : ∀ i e p, s.sent[i]? = some (e, p) → ∀ x, s.Owed x → x.backend = e.backend → x.clusterTime < e.clusterTime →
    x ∈ s.delivered.take i
  progress : ∀ (i : Nat) (e : StoreChangeEvent) (p : Progress), s.sent[i]? = some (e, p) → ∀ b, ∀ pos ∈ p b,
    (∃ f ∈ s.delivered, f.backend = b ∧ f.clusterTime = pos.clusterTime) ∨
      ∃ q ∈ s.after, ∃ start ∈ q b, start.clusterTime = pos.clusterTime
  saved : ∀ i e p, s.sent[i]? = some (e, p) → ∀ x, s.Owed x → x ∉ s.delivered.take (i + 1) → ∀ pos ∈ p x.backend,
    pos.clusterTime ≤ x.clusterTime

structure Grouped : Prop where
  mode : s.sub.startFromNow = s.after.isNone
  idle : s.sub.startFromNow = false → ∀ b, s.sub.admissionGroups b = none
  empty : s.sub.startFromNow = true → ∀ b, s.sub.admissionGroups b = none → s.broadcasts b = []
  first : ∀ b g, s.sub.admissionGroups b = some g → ∃ e rest, s.broadcasts b = e :: rest ∧ e.clusterTime = g.clusterTime
  ids : ∀ b g, s.sub.admissionGroups b = some g → ∀ x ∈ s.broadcasts b, x.clusterTime = g.clusterTime → x.eventID ∈ g.eventIDs

end Subscription

theorem getElem?_concat {α : Type} {l : List α} {a x : α} {i : Nat} (h : (l ++ [a])[i]? = some x) :
    l[i]? = some x ∨ i = l.length ∧ x = a := by
  rcases lt_trichotomy i l.length with hLt | rfl | hGt
  · rw [getElem?_append_left hLt] at h
    exact .inl h
  · rw [getElem?_concat_length] at h
    exact .inr ⟨rfl, (some.inj h).symm⟩
  · rw [getElem?_eq_none (by simp; omega)] at h
    cases h

section Delivery

variable {s : Subscriber} {e : StoreChangeEvent}

theorem Subscriber.le_of_shouldSend (h : s.shouldSend e = true) {t : ClusterTime}
    (ht : s.lastClusterTime e.backend = some t) : t ≤ e.clusterTime ∧ (t = e.clusterTime → e.eventID ∉ s.deliveredIDs e.backend) := by
  rw [shouldSend, ht] at h
  dsimp only at h
  split at h
  · cases h
  rename_i hNot
  refine ⟨not_lt.mp hNot, ?_⟩
  rintro rfl
  rw [if_neg (lt_irrefl _)] at h
  exact of_decide_eq_true h

theorem Subscriber.of_not_shouldSend (h : s.shouldSend e = false) : ∃ t, s.lastClusterTime e.backend = some t ∧
    (e.clusterTime < t ∨ e.clusterTime = t ∧ e.eventID ∈ s.deliveredIDs e.backend) := by
  rw [shouldSend] at h
  split at h
  · cases h
  rename_i last hLast
  refine ⟨last, hLast, ?_⟩
  split at h
  · exact .inl (by assumption)
  split at h
  · cases h
  · rename_i hGe hLe
    exact .inr ⟨le_antisymm (not_lt.mp hLe) (not_lt.mp hGe), by simpa using h⟩

end Delivery

namespace Subscription

variable {s : Subscription} {e : StoreChangeEvent}

variable {b : Bytes}

theorem Ordered.eq_of_eventID (hOrdered : s.Ordered) {x y : StoreChangeEvent} (hx : x ∈ s.history b) (hy : y ∈ s.history b)
    (h : x.eventID = y.eventID) : x = y :=
  inj_on_of_nodup_map (hOrdered.distinct b) hx hy h

variable {x : StoreChangeEvent}

theorem owed_history (h : s.Owed x) : x ∈ s.history x.backend := by
  have hBase : ∀ y ∈ s.base x.backend, y ∈ s.earlier x.backend := by
    intro y hy
    unfold base at hy
    split at hy
    · exact hy
    · cases hy
  simp only [Owed, history, mem_append] at h ⊢
  exact h.1.imp_left (Or.imp_left (hBase x))

theorem mem_delivered (h : x ∈ s.delivered) : ∃ (i : Nat) (p : Progress), s.sent[i]? = some (x, p) := by
  obtain ⟨⟨e, p⟩, hMem, rfl⟩ := List.mem_map.mp h
  obtain ⟨i, hi⟩ := mem_iff_getElem?.mp hMem
  exact ⟨i, p, hi⟩

theorem Tracked.gapless (h : s.Tracked) (he : e ∈ s.delivered) (hx : s.Owed x)
    (hBackend : x.backend = e.backend) (hLt : x.clusterTime < e.clusterTime) : x ∈ s.delivered := by
  obtain ⟨i, p, hi⟩ := mem_delivered he
  exact mem_of_mem_take (h.before i e p hi x hx hBackend hLt)

theorem Tracked.position_of (h : s.Tracked) {pos : Position} (hPos : s.sub.currentPos b = some pos) :
    s.sub.lastClusterTime b = some pos.clusterTime := by
  rw [← h.position, hPos]
  rfl

theorem Tracked.delivered_of_lt (h : s.Tracked) (hx : s.Owed x) {t : ClusterTime}
    (ht : s.sub.lastClusterTime x.backend = some t) (hLt : x.clusterTime < t) : x ∈ s.delivered := by
  obtain ⟨f, hf, hBackend, rfl⟩ | ⟨p, hp, pos, hPos, rfl⟩ := h.origin _ _ ht
  · exact h.gapless hf hx hBackend.symm hLt
  · exact absurd (hx.2 p hp pos hPos) (not_le.mpr hLt)

theorem Tracked.delivered_of_not_shouldSend (hOrdered : s.Ordered) (h : s.Tracked) (he : s.Owed e)
    (hSkip : s.sub.shouldSend e = false) : e ∈ s.delivered := by
  obtain ⟨t, ht, hLt | ⟨hEq, hId⟩⟩ := Subscriber.of_not_shouldSend hSkip
  · exact h.delivered_of_lt he ht hLt
  obtain ⟨f, hf, hBackend, hSame⟩ := h.named _ _ hId
  have hKnown := h.known f hf
  rw [hBackend] at hKnown
  exact hOrdered.eq_of_eventID hKnown (owed_history he) hSame ▸ hf

theorem deliver_sent (hSend : s.sub.shouldSend e = true) :
    (s.deliver e).sent = s.sent ++ [(e, Function.update s.sub.currentPos e.backend (some e.position))] := by
  simp [deliver, hSend, sent]

theorem deliver_delivered (hSend : s.sub.shouldSend e = true) : (s.deliver e).delivered = s.delivered ++ [e] := by
  simp [delivered, deliver_sent hSend]

theorem deliver_sub (hSend : s.sub.shouldSend e = true) : (s.deliver e).sub = s.sub.updatePosition e := by
  simp [deliver, hSend]

theorem deliver_skip (hSkip : s.sub.shouldSend e = false) : s.deliver e = s := by
  simp [deliver, hSkip]

@[simp] theorem deliver_history (s : Subscription) (e : StoreChangeEvent) : (s.deliver e).history = s.history := by
  unfold deliver
  split <;> rfl

@[simp] theorem deliver_owed (s : Subscription) (e : StoreChangeEvent) : (s.deliver e).Owed = s.Owed := by
  unfold deliver
  split <;> rfl

@[simp] theorem deliver_after (s : Subscription) (e : StoreChangeEvent) : (s.deliver e).after = s.after := by
  unfold deliver
  split <;> rfl

theorem sent_deliver (hSend : s.sub.shouldSend e = true) {i : Nat} {f : StoreChangeEvent} {p : Progress}
    (h : (s.deliver e).sent[i]? = some (f, p)) :
    (s.sent[i]? = some (f, p) ∧ ∀ n ≤ i + 1, (s.deliver e).delivered.take n = s.delivered.take n) ∨
      i = s.delivered.length ∧ f = e ∧ p = Function.update s.sub.currentPos e.backend (some e.position) := by
  have hLength : s.delivered.length = s.sent.length := length_map Prod.fst
  rw [deliver_sent hSend] at h
  obtain hi | ⟨hi, hNew⟩ := getElem?_concat h
  · have hShort := (List.getElem?_eq_some_iff.mp hi).1
    refine .inl ⟨hi, fun n hn => ?_⟩
    rw [deliver_delivered hSend, take_append_of_le_length (by omega)]
  · cases hNew
    exact .inr ⟨hi.trans hLength.symm, rfl, rfl⟩

theorem Tracked.send (hOrdered : s.Ordered) (h : s.Tracked) (he : e ∈ s.history e.backend)
    (hBefore : ∀ x, s.Owed x → x.backend = e.backend → x.clusterTime < e.clusterTime → x ∈ s.delivered)
    (hSend : s.sub.shouldSend e = true) : (s.deliver e).Tracked := by
  have hDelivered := deliver_delivered hSend
  have hSub := deliver_sub hSend
  -- what was delivered of the backend does not lie after the event
  have hLe : ∀ x ∈ s.delivered, x.backend = e.backend → x.clusterTime ≤ e.clusterTime ∧
      (x.clusterTime = e.clusterTime → s.sub.lastClusterTime e.backend = some e.clusterTime) := by
    intro x hx hBackend
    obtain ⟨t, ht, hxt⟩ := h.reached x hx
    rw [hBackend] at ht
    have hte := (Subscriber.le_of_shouldSend hSend ht).1
    refine ⟨hxt.trans hte, fun hEq => ?_⟩
    rw [ht, le_antisymm hte (hEq ▸ hxt)]
  have hNew : e ∈ (s.deliver e).delivered := by simp [hDelivered]
  have hOld : ∀ {P : StoreChangeEvent → Prop}, (∃ f ∈ s.delivered, P f) → ∃ f ∈ (s.deliver e).delivered, P f := by
    rintro P ⟨f, hf, hP⟩
    rw [hDelivered]
    exact ⟨f, mem_append_left _ hf, hP⟩
  refine ⟨?_, ?_, ?_, ?_, ?_, ?_, ?_, ?_, ?_, ?_⟩
  · rw [hDelivered, deliver_history]
    exact forall_mem_push h.known he
  · rw [hDelivered, hSub]
    refine forall_mem_push (fun x hx => ?_) ⟨e.clusterTime, update_self _ _ _, le_rfl⟩
    simp only [Subscriber.updatePosition]
    by_cases hBackend : x.backend = e.backend
    · rw [hBackend, update_self]
      exact ⟨_, rfl, (hLe x hx hBackend).1⟩
    · rw [update_of_ne hBackend]
      exact h.reached x hx
  · rw [hDelivered, hSub]
    simp only [Subscriber.updatePosition]
    refine forall_mem_push (fun x hx => ?_) fun _ => by simp
    by_cases hBackend : x.backend = e.backend
    · rw [hBackend, update_self, update_self]
      intro hEq
      have hLast := (hLe x hx hBackend).2 (some.inj hEq).symm
      have hMarked := h.marked x hx (by rw [hBackend, hLast, some.inj hEq])
      rw [hBackend] at hMarked
      rw [if_pos hLast]
      exact mem_cons_of_mem _ hMarked
    · rw [update_of_ne hBackend, update_of_ne hBackend]
      exact h.marked x hx
  · intro b id hId
    rw [hSub] at hId
    simp only [Subscriber.updatePosition] at hId
    rcases eq_or_ne b e.backend with rfl | hb
    · rw [update_self] at hId
      obtain rfl | hId := mem_cons.mp hId
      · exact ⟨e, hNew, rfl, rfl⟩
      split at hId
      · exact hOld (h.named _ _ hId)
      · cases hId
    · rw [update_of_ne hb] at hId
      exact hOld (h.named b id hId)
  · intro b t ht
    rw [deliver_after]
    rw [hSub] at ht
    simp only [Subscriber.updatePosition] at ht
    rcases eq_or_ne b e.backend with rfl | hb
    · rw [update_self] at ht
      exact .inl ⟨e, hNew, rfl, some.inj ht⟩
    · rw [update_of_ne hb] at ht
      exact (h.origin b t ht).imp_left hOld
  · intro b
    rw [hSub]
    simp only [Subscriber.updatePosition]
    rcases eq_or_ne b e.backend with rfl | hb
    · rw [update_self, update_self]
      rfl
    · rw [update_of_ne hb, update_of_ne hb]
      exact h.position b
  · rw [hDelivered]
    refine pairwise_push h.apart fun x hx hBackend => ⟨(hLe x hx hBackend).1, fun hId => ?_⟩
    have hKnown := h.known x hx
    rw [hBackend] at hKnown
    cases hOrdered.eq_of_eventID hKnown he hId
    have hLast := (hLe e hx rfl).2 rfl
    exact (Subscriber.le_of_shouldSend hSend hLast).2 rfl (h.marked e hx hLast)
  · intro i f p hi x hx hBackend hLt
    rw [deliver_owed] at hx
    obtain ⟨hi, hTake⟩ | ⟨rfl, rfl, -⟩ := sent_deliver hSend hi
    · rw [hTake i (Nat.le_succ i)]
      exact h.before i f p hi x hx hBackend hLt
    · rw [hDelivered, take_left]
      exact hBefore x hx hBackend hLt
  · intro i f p hi b pos hPos
    rw [deliver_after]
    obtain ⟨hi, -⟩ | ⟨-, -, rfl⟩ := sent_deliver hSend hi
    · exact (h.progress i f p hi b pos hPos).imp_left hOld
    rcases eq_or_ne b e.backend with rfl | hb
    · rw [update_self] at hPos
      cases hPos
      exact .inl ⟨e, hNew, rfl, rfl⟩
    · rw [update_of_ne hb] at hPos
      exact (h.origin b _ (h.position_of hPos)).imp_left hOld
  · intro i f p hi x hx hNot pos hPos
    rw [deliver_owed] at hx
    obtain ⟨hi, hTake⟩ | ⟨rfl, rfl, rfl⟩ := sent_deliver hSend hi
    · rw [hTake _ le_rfl] at hNot
      exact h.saved i f p hi x hx hNot pos hPos
    rw [hDelivered, take_of_length_le (by simp)] at hNot
    by_contra hLt
    refine hNot (mem_append_left _ ?_)
    by_cases hBackend : x.backend = f.backend
    · rw [hBackend, update_self] at hPos
      cases hPos
      exact hBefore x hx hBackend (not_le.mp hLt)
    · rw [update_of_ne hBackend] at hPos
      exact h.delivered_of_lt hx (h.position_of hPos) (not_le.mp hLt)

theorem Tracked.deliver (hOrdered : s.Ordered) (h : s.Tracked) (he : e ∈ s.history e.backend)
    (hBefore : ∀ x, s.Owed x → x.backend = e.backend → x.clusterTime < e.clusterTime → x ∈ s.delivered) :
    (s.deliver e).Tracked := by
  cases hSend : s.sub.shouldSend e with
  | true => exact h.send hOrdered he hBefore hSend
  | false => rwa [deliver_skip hSend]

theorem delivered_subset_deliver (h : x ∈ s.delivered) : x ∈ (s.deliver e).delivered := by
  cases hSend : s.sub.shouldSend e with
  | true =>
    rw [deliver_delivered hSend]
    exact mem_append_left _ h
  | false => rwa [deliver_skip hSend]

theorem Tracked.mem_deliver (hOrdered : s.Ordered) (h : s.Tracked) (he : s.Owed e) : e ∈ (s.deliver e).delivered := by
  cases hSend : s.sub.shouldSend e with
  | true =>
    rw [deliver_delivered hSend]
    simp
  | false =>
    rw [deliver_skip hSend]
    exact h.delivered_of_not_shouldSend hOrdered he hSend

end Subscription

end Syntrix.Puller
