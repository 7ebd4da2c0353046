import Syntrix.Puller.Fence

/-! # Readiness is honest

Whenever the status reports that a subscription is ready, its consumer has consumed an admission of the
current attempt and generation, and everything that came before the fence of that admission.
-/
namespace Syntrix.Puller

open Lib List Option

namespace SubscriptionStatus

variable {s s' : SubscriptionStatus} {now : Nat}

structure Agrees (s s' : SubscriptionStatus) : Prop where
  transport : s'.transport = s.transport
  generation : s'.generation = s.generation
  state : s'.state = s.state
  terminal : s'.terminal = s.terminal

theorem expire_spec (s : SubscriptionStatus) (now : Nat) :
    Agrees s (s.expire now) ∧ ((s.expire now).consumed = true → s.consumed = true) := by
  unfold expire
  split
  · exact ⟨⟨rfl, rfl, rfl, rfl⟩, nofun⟩
  · exact ⟨⟨rfl, rfl, rfl, rfl⟩, id⟩

theorem receive_spec {e e' : ControlFrame} (h : s.receive now e = some (s', e')) :
    s.terminal = false ∧ e.transportGeneration = s.transport ∧ s.generation ≤ e.admissionGeneration ∧
      s'.transport = s.transport ∧ s'.generation = e.admissionGeneration ∧ s'.state = e.admissionState ∧
      s'.terminal = s.terminal ∧
      (s'.consumed = true → s.consumed = true ∧ s.generation = e.admissionGeneration ∧ e.admissionState = .admitted) := by
  obtain ⟨hAccepted, h⟩ := ite_none_left_eq_some.mp h
  split at h
  · cases h
  cases h
  simp only [Bool.or_eq_true, not_or, bne_iff_ne, ne_eq, not_not, decide_eq_true_eq, beq_iff_eq, not_lt] at hAccepted
  obtain ⟨⟨⟨hTerminal, hTransport⟩, -⟩, hGeneration⟩ := hAccepted
  refine ⟨by simpa using hTerminal, hTransport, hGeneration, rfl, rfl, rfl, rfl, fun hConsumed => ?_⟩
  split at hConsumed
  · cases hConsumed
  rename_i hSame
  simp only [Bool.or_eq_true, not_or, bne_iff_ne, ne_eq, not_not] at hSame
  exact ⟨hConsumed, hSame.1.1, hSame.2⟩

theorem observe_spec (s : SubscriptionStatus) (now : Nat) (e : ControlFrame) :
    Agrees s (s.observe now e) ∧ ((s.observe now e).consumed = true → s.consumed = true ∨
      e.transportGeneration = s.transport ∧ e.admissionGeneration = s.generation ∧ e.admissionState = .admitted) := by
  obtain ⟨hAgrees, hConsumed⟩ := expire_spec s now
  unfold observe
  dsimp only
  split
  · exact ⟨hAgrees, fun h => .inl (hConsumed h)⟩
  rename_i hCurrent
  simp only [Bool.or_eq_true, not_or, bne_iff_ne, ne_eq, not_not] at hCurrent
  obtain ⟨⟨⟨⟨⟨⟨-, hTransport⟩, hGeneration⟩, -⟩, -⟩, -⟩, -⟩ := hCurrent
  split
  · rename_i hAdmitted
    refine ⟨{ hAgrees with }, fun _ => .inr ?_⟩
    refine ⟨hTransport.trans hAgrees.transport, hGeneration.trans hAgrees.generation, ?_⟩
    simp only [Bool.and_eq_true, beq_iff_eq] at hAdmitted
    exact hAdmitted.1
  · exact ⟨hAgrees, fun h => .inl (hConsumed h)⟩

end SubscriptionStatus

namespace Admission

variable (s : Admission)

def arrivals : List Arrival := s.consumed ++ s.queue

/-- The status has since been told of nothing but admissions of the same generation. -/
def UndisturbedSince (receipt transport generation : Nat) : Prop :=
  ∀ i x, receipt < i → s.notices[i]? = some x → ∃ c, x = .control transport c ∧ c.state = .admitted ∧ c.generation = generation

/-- The consumer has consumed an admission of the current attempt and generation, with what came before it,
and the status has not been told otherwise since. -/
structure Honest : Prop where
  admitted : ∃ (sub : Subscription) (k : Nat) (arrival : Arrival) (c : Control) (i : Nat), s.attempt = some sub ∧
    s.consumed[k]? = some arrival ∧ arrival.item = .control c ∧ c.state = .admitted ∧
    arrival.transport = s.status.transport ∧ c.generation = s.status.generation ∧
    (∀ b, ∀ e ∈ c.fence b, ∃ p, ∃ x ∈ s.consumed.take k, x.transport = s.status.transport ∧ x.item = .event e p) ∧
    sub.out[i]? = some (.control c) ∧
    (∀ item ∈ sub.out.take i, ∃ x ∈ s.consumed.take k, x.transport = s.status.transport ∧ x.item = item) ∧
    s.notices[arrival.receipt]? = some (.control s.status.transport c) ∧
    s.UndisturbedSince arrival.receipt s.status.transport s.status.generation

def Ready : Prop := (s.status.snapshot s.clock).2.ready = true

/-- Captures keep their order, and a replay passes over what is not broadcast yet only at its end. -/
def Orderly : AdmissionAction → Prop
  | .subscribe backends after capacity earlier unsent =>
    (Subscription.start true backends after capacity earlier unsent).Ordered
  | .serve a => ∀ sub ∈ s.attempt, sub.Admissible a
  | _ => True

structure Sound : Prop where
  serves : ∀ sub ∈ s.attempt, sub.Serves ∧ s.received ≤ sub.out.length ∧
    (s.arrivals.filter fun x => x.transport = s.status.transport).map Arrival.item = sub.out.take s.received
  transport : s.attempt.isSome = true → s.transport = s.status.transport
  idle : s.attempt = none → ∀ x ∈ s.arrivals, x.transport ≠ s.status.transport
  bounds : ∀ x ∈ s.arrivals, x.transport ≤ s.status.transport
  generation : ∀ x ∈ s.arrivals, x.transport = s.status.transport → ∀ c, x.item = .control c → c.generation ≤ s.status.generation
  receipts : ∀ x ∈ s.arrivals, x.transport = s.status.transport → ∀ c, x.item = .control c → c.state = .admitted →
    c.generation = s.status.generation → s.notices[x.receipt]? = some (.control s.status.transport c) ∧
      s.UndisturbedSince x.receipt s.status.transport s.status.generation
  ready : s.status.consumed = true → ∃ x ∈ s.consumed, x.transport = s.status.transport ∧
    ∃ c, x.item = .control c ∧ c.state = .admitted ∧ c.generation = s.status.generation

section Sound

variable {s s' : Admission}

variable (h : s.Sound)

include h

theorem Sound.honest (hConsumed : s.status.consumed = true) : s.Honest := by
  obtain ⟨x, hx, hTransport, c, hItem, hState, hGeneration⟩ := h.ready hConsumed
  obtain ⟨k, hk⟩ := mem_iff_getElem?.mp hx
  have hShort : k < s.consumed.length := (List.getElem?_eq_some_iff.mp hk).1
  have hArrival : s.arrivals[k]? = some x := by rw [arrivals, getElem?_append_left hShort, hk]
  have hBefore : s.arrivals.take k = s.consumed.take k := take_append_of_le_length hShort.le
  have hMem : x ∈ s.arrivals := mem_of_getElem? hArrival
  cases hAttempt : s.attempt with
  | none => exact absurd hTransport (h.idle hAttempt x hMem)
  | some sub =>
    obtain ⟨hServes, -, hFifo⟩ := h.serves sub hAttempt
    -- the place of the admission in what the attempt sent
    obtain ⟨hPlace, hPrefix⟩ := filter_getElem? (p := fun y => decide (y.transport = s.status.transport)) hArrival
      (decide_eq_true hTransport)
    rw [hBefore] at hPlace hPrefix
    set i := ((s.consumed.take k).filter fun y => decide (y.transport = s.status.transport)).length with hi
    have hOut : (sub.out.take s.received)[i]? = some (.control c) := by rw [← hFifo, getElem?_map, hPlace, ← hItem]; rfl
    have hReceived : i < s.received := by
      by_contra hNot
      rw [getElem?_eq_none ((length_take_le _ _).trans (not_lt.mp hNot))] at hOut
      cases hOut
    rw [getElem?_take_of_lt hReceived] at hOut
    have hPrior : sub.out.take i =
        ((s.consumed.take k).filter fun y => decide (y.transport = s.status.transport)).map Arrival.item := by
      rw [← hPrefix, map_take, hFifo, take_take, min_eq_left hReceived.le]
    have hConsumedBefore : ∀ item ∈ sub.out.take i, ∃ y ∈ s.consumed.take k, y.transport = s.status.transport ∧ y.item = item := by
      intro item hItem
      rw [hPrior] at hItem
      obtain ⟨y, hy, rfl⟩ := List.mem_map.mp hItem
      obtain ⟨hy, hSame⟩ := mem_filter.mp hy
      exact ⟨y, hy, of_decide_eq_true hSame, rfl⟩
    obtain ⟨hNotice, hUndisturbed⟩ := h.receipts x hMem hTransport c hItem hState hGeneration
    refine ⟨sub, k, x, c, i, hAttempt, hk, hItem, hState, hTransport, hGeneration, fun b e he => ?_, hOut, hConsumedBefore,
      hNotice, hUndisturbed⟩
    obtain ⟨p, hp⟩ := hServes.fenced.announced i c hOut hState b e he
    exact ⟨p, hConsumedBefore _ hp⟩

theorem Sound.agrees {status : SubscriptionStatus} (hAgrees : s.status.Agrees status)
    (hConsumed : status.consumed = true → s.status.consumed = true) : Sound { s with status := status } := by
  obtain ⟨hTransport, hGeneration, -, -⟩ := hAgrees
  refine ⟨?_, ?_, ?_, ?_, ?_, ?_, ?_⟩
  · rw [hTransport]
    exact h.serves
  · rw [hTransport]
    exact h.transport
  · rw [hTransport]
    exact h.idle
  · rw [hTransport]
    exact h.bounds
  · rw [hTransport, hGeneration]
    exact h.generation
  · rw [hTransport, hGeneration]
    exact h.receipts
  · intro hTrue
    obtain ⟨x, hx, hCurrent⟩ := h.ready (hConsumed hTrue)
    refine ⟨x, hx, ?_⟩
    rw [hTransport, hGeneration]
    exact hCurrent

theorem Sound.renew (hTransport : s'.status.transport = s.status.transport + 1)
    (hArrivals : s'.arrivals = s.arrivals) (hConsumed : s'.status.consumed = false) (hReceived : s'.received = 0 ∨ s'.attempt = none)
    (hServes : ∀ sub ∈ s'.attempt, sub.Serves) (hAttempt : s'.attempt.isSome = true → s'.transport = s'.status.transport) :
    s'.Sound := by
  have hOld : ∀ x ∈ s'.arrivals, x.transport < s'.status.transport := by
    intro x hx
    rw [hArrivals] at hx
    have hLe := h.bounds x hx
    omega
  have hNone : ∀ x ∈ s'.arrivals, x.transport ≠ s'.status.transport := fun x hx => (hOld x hx).ne
  refine ⟨fun sub hSub => ?_, hAttempt, fun _ => hNone, fun x hx => (hOld x hx).le, ?_, ?_, ?_⟩
  · have hZero : s'.received = 0 := hReceived.resolve_right (by rw [hSub]; nofun)
    refine ⟨hServes sub hSub, by omega, ?_⟩
    rw [hZero, take_zero, filter_eq_nil_iff.mpr, map_nil]
    intro x hx
    simpa using hNone x hx
  · exact fun x hx hCurrent => absurd hCurrent (hNone x hx)
  · exact fun x hx hCurrent => absurd hCurrent (hNone x hx)
  · rw [hConsumed]
    nofun

variable {sub : Subscription}

theorem Sound.arrive {item : Item} (hAttempt : s.attempt = some sub) (hItem : sub.out[s.received]? = some item)
    (arrival : Arrival) (hArrival : arrival.item = item) (hTransport : arrival.transport = s.transport)
    (hQueue : s'.arrivals = s.arrivals ++ [arrival]) (hReceived : s'.received = s.received + 1)
    (hStatus : s'.status.transport = s.status.transport) (hSame : s'.attempt = s.attempt) :
    ∀ sub ∈ s'.attempt, sub.Serves ∧ s'.received ≤ sub.out.length ∧
      (s'.arrivals.filter fun x => x.transport = s'.status.transport).map Arrival.item = sub.out.take s'.received := by
  rw [hSame, hAttempt]
  rintro _ ⟨⟩
  obtain ⟨hServes, -, hFifo⟩ := h.serves sub hAttempt
  have hCurrent : s.transport = s.status.transport := h.transport (by rw [hAttempt]; rfl)
  have hLt : s.received < sub.out.length := (List.getElem?_eq_some_iff.mp hItem).1
  refine ⟨hServes, by omega, ?_⟩
  rw [hQueue, hStatus, hReceived, filter_append, map_append, hFifo, take_add_one, hItem]
  simp [hTransport, hCurrent, hArrival]

theorem Sound.ingress_event {e : StoreChangeEvent} {p : Progress} (hAttempt : s.attempt = some sub)
    (hItem : sub.out[s.received]? = some (.event e p)) : (s.ingress (.event e p)).Sound := by
  have hCurrent : s.transport = s.status.transport := h.transport (by rw [hAttempt]; rfl)
  have hQueue : (s.ingress (.event e p)).arrivals =
      s.arrivals ++ [⟨s.transport, .event e p, none, s.notices.length⟩] := (append_assoc _ _ _).symm
  have hOther : ∀ x ∈ (s.ingress (.event e p)).arrivals, ∀ c, x.item = .control c → x ∈ s.arrivals := by
    intro x hx c hc
    rw [hQueue] at hx
    rcases mem_push.mp hx with hx | rfl
    · exact hx
    · cases hc
  refine ⟨h.arrive hAttempt hItem _ rfl rfl hQueue rfl rfl rfl, h.transport, ?_, fun x hx => ?_, ?_, ?_, h.ready⟩
  · intro hNone
    cases hAttempt.symm.trans hNone
  · rw [hQueue] at hx
    rcases mem_push.mp hx with hx | rfl
    · exact h.bounds x hx
    · exact hCurrent.le
  · exact fun x hx hSame c hc => h.generation x (hOther x hx c hc) hSame c hc
  · exact fun x hx hSame c hc => h.receipts x (hOther x hx c hc) hSame c hc

theorem Sound.sent_before {item : Item} (hAttempt : s.attempt = some sub) (hItem : sub.out[s.received]? = some item)
    {x : Arrival} (hx : x ∈ s.arrivals) (hCurrent : x.transport = s.status.transport) : Subscription.Follows x.item item := by
  obtain ⟨hServes, -, hFifo⟩ := h.serves sub hAttempt
  have hMem : x.item ∈ sub.out.take s.received := by
    rw [← hFifo]
    exact List.mem_map_of_mem (mem_filter.mpr ⟨hx, decide_eq_true hCurrent⟩)
  have hSorted := hServes.graded.sorted
  obtain ⟨hLt, rfl⟩ := List.getElem?_eq_some_iff.mp hItem
  rw [← take_append_drop s.received sub.out, drop_eq_getElem_cons hLt] at hSorted
  exact (pairwise_append.mp hSorted).2.2 _ hMem _ mem_cons_self

theorem Sound.ingress_control {c : Control} (hAttempt : s.attempt = some sub)
    (hItem : sub.out[s.received]? = some (.control c)) (hTerminal : (s.ingress (.control c)).status.terminal = false) :
    (s.ingress (.control c)).Sound := by
  have hCurrent : s.transport = s.status.transport := h.transport (by rw [hAttempt]; rfl)
  unfold ingress at hTerminal ⊢
  dsimp only at hTerminal ⊢
  cases hReceive : s.status.receive s.clock (frame s.transport none c) with
  | none =>
    rw [hReceive] at hTerminal
    simp only [disconnect, SubscriptionStatus.fail] at hTerminal
    split at hTerminal
    · rename_i hTrue
      exact absurd (hTrue.symm.trans hTerminal) (by decide)
    · cases hTerminal
  | some received =>
    obtain ⟨status, frame⟩ := received
    obtain ⟨-, -, hLe, hTransport, hGeneration, hState, -, hConsumed⟩ := SubscriptionStatus.receive_spec hReceive
    have hQueue : arrivals { s with
        status := status
        received := s.received + 1
        queue := s.queue ++ [⟨s.transport, .control c, frame.admissionReceived, s.notices.length⟩]
        notices := s.notices ++ [.control s.transport c] } =
        s.arrivals ++ [⟨s.transport, .control c, frame.admissionReceived, s.notices.length⟩] := (append_assoc _ _ _).symm
    have hGen : status.generation = c.generation := hGeneration
    refine ⟨h.arrive hAttempt hItem _ rfl rfl hQueue rfl hTransport rfl, fun _ => hCurrent.trans hTransport.symm, ?_, ?_, ?_, ?_, ?_⟩
    · intro hNone
      cases hAttempt.symm.trans hNone
    · intro x hx
      rw [hTransport]
      rw [hQueue] at hx
      rcases mem_push.mp hx with hx | rfl
      · exact h.bounds x hx
      · exact hCurrent.le
    · intro x hx hSame c' hc'
      rw [hTransport] at hSame
      rw [hQueue] at hx
      rw [hGen]
      obtain hx | hx := mem_append.mp hx
      · exact (h.generation x hx hSame c' hc').trans hLe
      rw [mem_singleton.mp hx] at hc'
      cases hc'
      exact le_rfl
    · intro x hx hSame c' hc' hAdmitted hCurrentGen
      rw [hTransport] at hSame ⊢
      rw [hGen] at hCurrentGen ⊢
      rw [hQueue] at hx
      obtain hx | hx := mem_append.mp hx
      · -- an older admission of the same generation is followed by an admission
        have hOld : c'.generation = s.status.generation :=
          le_antisymm (h.generation x hx hSame c' hc') (hCurrentGen ▸ hLe)
        have hNew : c.state = .admitted :=
          (h.sent_before hAttempt hItem hx hSame c' c hc' rfl).2 hAdmitted hCurrentGen.symm
        obtain ⟨hNotice, hUndisturbed⟩ := h.receipts x hx hSame c' hc' hAdmitted hOld
        have hShort : x.receipt < s.notices.length := (List.getElem?_eq_some_iff.mp hNotice).1
        refine ⟨by rw [getElem?_append_left hShort, hNotice], fun i y hi hy => ?_⟩
        obtain hy | ⟨-, rfl⟩ := getElem?_concat hy
        · obtain ⟨d, rfl, hd, hdGen⟩ := hUndisturbed i y hi hy
          exact ⟨d, rfl, hd, hdGen.trans (hOld.symm.trans hCurrentGen)⟩
        · exact ⟨c, by rw [hCurrent], hNew, rfl⟩
      · rw [mem_singleton.mp hx] at hc' ⊢
        cases hc'
        refine ⟨by rw [getElem?_concat_length, hCurrent], fun i y hi hy => ?_⟩
        rw [getElem?_eq_none (by simpa using hi)] at hy
        cases hy
    · intro hTrue
      obtain ⟨hOld, hOldGen, -⟩ := hConsumed hTrue
      obtain ⟨x, hx, hSame, c', hc', hAdmitted, hGen'⟩ := h.ready hOld
      refine ⟨x, hx, hSame.trans hTransport.symm, c', hc', hAdmitted, ?_⟩
      rw [hGen, hGen', hOldGen]
      rfl

theorem Sound.consume {arrival : Arrival} {rest : List Arrival} (hQueue : s.queue = arrival :: rest) :
    (s.consume arrival rest).Sound := by
  have hArrivals : (s.consume arrival rest).arrivals = s.arrivals := by
    simp [arrivals, Admission.consume, hQueue]
  have hSpec : SubscriptionStatus.Agrees s.status (s.consume arrival rest).status ∧
      ((s.consume arrival rest).status.consumed = true → s.status.consumed = true ∨
        ∃ c, arrival.item = .control c ∧ arrival.transport = s.status.transport ∧ c.generation = s.status.generation ∧
          c.state = .admitted) := by
    unfold Admission.consume
    cases hItem : arrival.item with
    | event e p => exact ⟨⟨rfl, rfl, rfl, rfl⟩, fun hTrue => .inl hTrue⟩
    | control c =>
      obtain ⟨hAgrees, hConsumed⟩ :=
        SubscriptionStatus.observe_spec s.status s.clock (frame arrival.transport arrival.received c)
      refine ⟨hAgrees, fun hTrue => (hConsumed hTrue).imp_right ?_⟩
      rintro ⟨hTransport, hGeneration, hState⟩
      exact ⟨c, rfl, hTransport, hGeneration, hState⟩
  obtain ⟨⟨hTransport, hGeneration, -, -⟩, hConsumed⟩ := hSpec
  refine ⟨?_, ?_, ?_, ?_, ?_, ?_, ?_⟩
  · rw [hArrivals, hTransport]
    exact h.serves
  · rw [hTransport]
    exact h.transport
  · rw [hArrivals, hTransport]
    exact h.idle
  · rw [hArrivals, hTransport]
    exact h.bounds
  · rw [hArrivals, hTransport, hGeneration]
    exact h.generation
  · rw [hArrivals, hTransport, hGeneration]
    exact h.receipts
  · rw [hTransport, hGeneration]
    intro hTrue
    obtain hOld | ⟨c, hItem, hSame, hGen, hState⟩ := hConsumed hTrue
    · obtain ⟨x, hx, hRest⟩ := h.ready hOld
      exact ⟨x, mem_append_left _ hx, hRest⟩
    · exact ⟨arrival, mem_append_right _ (mem_singleton_self _), hSame, c, hItem, hState, hGen⟩

theorem Sound.serve {sub sub' : Subscription} {a : SubscriptionAction} (hAttempt : s.attempt = some sub)
    (hAllowed : sub.Admissible a) (hStep : sub.step a = some sub') : Sound { s with attempt := some sub' } := by
  obtain ⟨hServes, hReceived, hFifo⟩ := h.serves sub hAttempt
  obtain ⟨more, hOut⟩ := Subscription.step_out_isPrefix hStep
  refine ⟨?_, fun _ => h.transport (by rw [hAttempt]; rfl), nofun, h.bounds, h.generation, h.receipts, h.ready⟩
  rintro _ ⟨⟩
  refine ⟨hServes.step hAllowed hStep, ?_, ?_⟩
  · rw [← hOut, length_append]
    exact hReceived.trans (Nat.le_add_right _ _)
  · rw [← hOut, take_append_of_le_length hReceived]
    exact hFifo

omit h

theorem fail_spec (status : SubscriptionStatus) (err : Bytes) (terminal : Bool) :
    (status.fail err terminal).terminal = false → status.terminal = false ∧
      (status.fail err terminal).transport = status.transport + 1 ∧ (status.fail err terminal).consumed = false := by
  intro hTerminal
  unfold SubscriptionStatus.fail at hTerminal ⊢
  split at hTerminal
  · rename_i hTrue
    exact absurd (hTrue.symm.trans hTerminal) (by decide)
  rename_i hFalse
  rw [if_neg hFalse]
  exact ⟨by simpa using hFalse, rfl, rfl⟩

theorem ingress_terminal (s : Admission) (item : Item) (h : (s.ingress item).status.terminal = false) :
    s.status.terminal = false := by
  unfold ingress at h
  split at h
  · exact h
  split at h
  · exact (fail_spec _ _ _ h).1
  · rename_i hReceive
    exact (SubscriptionStatus.receive_spec hReceive).1

theorem Sound.step {a : AdmissionAction} (hSound : s.status.terminal = false → s.Sound) (hAllowed : s.Orderly a)
    (hStep : s.step a = some s') (hTerminal : s'.status.terminal = false) : s'.Sound := by
  cases a with
  | wait duration =>
    cases hStep
    obtain ⟨h₁, h₂, h₃, h₄, h₅, h₆, h₇⟩ := hSound hTerminal
    exact ⟨h₁, h₂, h₃, h₄, h₅, h₆, h₇⟩
  | expire | snapshot =>
    cases hStep
    obtain ⟨hAgrees, hConsumed⟩ := SubscriptionStatus.expire_spec s.status s.clock
    exact (hSound (hAgrees.terminal.symm.trans hTerminal)).agrees hAgrees hConsumed
  | subscribe backends after capacity earlier unsent =>
    simp only [Admission.step] at hStep
    split at hStep
    · cases hStep
    cases hStep
    have hLive : s.status.terminal = false := by
      cases hOld : s.status.terminal with
      | true => simp [SubscriptionStatus.beginAttempt, hOld] at hTerminal
      | false => rfl
    have hBegin : s.status.beginAttempt.transport = s.status.transport + 1 ∧ s.status.beginAttempt.consumed = false := by
      simp [SubscriptionStatus.beginAttempt, hLive]
    refine (hSound hLive).renew hBegin.1 rfl hBegin.2 (.inl rfl) ?_ fun _ => rfl
    rintro _ ⟨⟩
    exact Subscription.start_serves hAllowed
  | serve a =>
    simp only [Admission.step, bind_eq_bind, bind_eq_some_iff] at hStep
    obtain ⟨sub, hAttempt, sub', hSub, hEq⟩ := hStep
    cases hEq
    exact (hSound hTerminal).serve hAttempt (hAllowed sub hAttempt) hSub
  | receive =>
    simp only [Admission.step, bind_eq_bind, bind_eq_some_iff] at hStep
    obtain ⟨sub, hAttempt, item, hItem, hEq⟩ := hStep
    cases hEq
    have hOld := hSound (ingress_terminal s item hTerminal)
    cases item with
    | event e p => exact hOld.ingress_event hAttempt hItem
    | control c => exact hOld.ingress_control hAttempt hItem hTerminal
  | consume =>
    simp only [Admission.step] at hStep
    split at hStep
    · cases hStep
    rename_i arrival rest hQueue
    cases hStep
    refine (hSound ?_).consume hQueue
    unfold Admission.consume at hTerminal
    split at hTerminal
    · exact hTerminal
    · exact (SubscriptionStatus.observe_spec _ _ _).1.terminal.symm.trans hTerminal
  | fail err terminal =>
    cases hStep
    obtain ⟨hLive, hTransport, hConsumed⟩ := fail_spec s.status err terminal hTerminal
    exact (hSound hLive).renew hTransport rfl hConsumed (.inr rfl) (fun sub hSub => absurd hSub (not_mem_none sub))
      fun hSome => absurd hSome Bool.false_ne_true
  | cancel err =>
    cases hStep
    unfold SubscriptionStatus.fail at hTerminal
    split at hTerminal
    · rename_i hTrue
      exact absurd (hTrue.symm.trans hTerminal) (by decide)
    · cases hTerminal

end Sound

section Runs

theorem start_sound : start.Sound := by
  have hNone : ∀ x, x ∉ start.arrivals := fun _ => not_mem_nil
  exact ⟨fun sub hSub => absurd hSub (not_mem_none sub), fun hSome => absurd hSome Bool.false_ne_true,
    fun _ x hx => absurd hx (hNone x), fun x hx => absurd hx (hNone x), fun x hx => absurd hx (hNone x),
    fun x hx => absurd hx (hNone x), fun hConsumed => absurd hConsumed Bool.false_ne_true⟩

/-- In an orderly run readiness is honest. -/
theorem orderly_runs_honest {actions : List AdmissionAction} {s : Admission} (h : Runs step Orderly start actions s)
    (hReady : s.Ready) : s.Honest := by
  have hSound : s.status.terminal = false → s.Sound :=
    h.invariant (I := fun s => s.status.terminal = false → s.Sound) (fun _ => start_sound)
      fun _ _ _ hs hAllowed hStep => Sound.step hs hAllowed hStep
  obtain ⟨hAgrees, hConsumed⟩ := SubscriptionStatus.expire_spec s.status s.clock
  simp only [Ready, SubscriptionStatus.snapshot, Bool.and_eq_true, Bool.not_eq_true'] at hReady
  exact (hSound (hAgrees.terminal.symm.trans hReady.2)).honest (hConsumed hReady.1)

def deletion (id : Bytes) (t : UInt32) : StoreChangeEvent where
  eventID := id
  database := text "d"
  mgoColl := text "c"
  mgoDocID := text "k"
  opType := .delete
  fullDocument := none
  updateDesc := none
  clusterTime := ⟨t, 1⟩
  txnNumber := none
  timestamp := 0
  backend := text "m"

def subscribeNow : AdmissionAction := .subscribe [text "m"] none 1 (fun _ => []) fun _ => []

def admission : List SubscriptionAction :=
  [.launch, .check true, .enterLive, .check true, .fence, .look, .pick, .settle, .check true]

/-- Two events are broadcast and overflow the queue; two more are written. The replay passes over the first of
these, which belongs to the group of the first broadcast, and delivers the second. Broadcast afterwards, the
first is taken for a duplicate. -/
def overtaken : List SubscriptionAction :=
  [.write (deletion (text "a") 5), .broadcast (text "m"), .write (deletion (text "b") 5), .broadcast (text "m"),
    .write (deletion (text "c") 5), .write (deletion (text "d") 6), .wake, .check true, .drain, .drain, .beginRecovery,
    .floors, .openScan (text "m"), .merge, .read, .read, .read, .read, .read, .broadcast (text "m"), .enterLive,
    .check true, .fence, .look, .pick, .look, .pick, .settle, .check true]

def lateBroadcast : List AdmissionAction :=
  subscribeNow :: (admission ++ overtaken).map .serve ++ List.replicate 8 .receive ++ List.replicate 8 .consume

/-- The event `c` is not delivered, and admissions of the generation are fenced by it. -/
def withoutC (generation : Nat) : Item → Bool
  | .event e _ => decide (e.eventID ≠ text "c")
  | .control c => decide (c.state = .admitted → c.generation = generation →
      ∃ e ∈ c.fence (text "m"), e.eventID = text "c")

theorem ready_without_broadcast_event : ∃ s : Admission,
    Runs step (fun _ _ => True) start lateBroadcast s ∧ s.Ready ∧ ¬ s.Honest := by
  have hEnd : (lateBroadcast.foldlM step start).map (fun s => (s.status.snapshot s.clock).2.ready &&
      s.consumed.all fun x => withoutC s.status.generation x.item) = some true := by
    decide +kernel
  obtain ⟨s, hFold, hDigest⟩ := Option.map_eq_some_iff.mp hEnd
  obtain ⟨hReady, hAll⟩ := (Bool.and_eq_true_iff ..).mp hDigest
  rw [List.all_eq_true] at hAll
  refine ⟨s, Runs.of_foldlM (fun _ _ _ => trivial) hFold, hReady, ?_⟩
  rintro ⟨sub, k, arrival, c, i, -, hk, hItem, hState, -, hGeneration, hFence, -⟩
  have hControl := hAll arrival (List.mem_of_getElem? hk)
  rw [hItem] at hControl
  obtain ⟨e, he, hId⟩ := of_decide_eq_true hControl hState hGeneration
  obtain ⟨p, x, hx, -, hEvent⟩ := hFence _ e he
  have hOther := hAll x (List.mem_of_mem_take hx)
  rw [hEvent] at hOther
  exact of_decide_eq_true hOther hId

def Checked (s : Admission) : AdmissionAction → Prop
  | .subscribe _ _ _ _ _ => False
  | .serve (.write e) => ∀ sub ∈ s.attempt, sub.Captures e
  | .serve (.broadcast _) => ∀ sub ∈ s.attempt, sub.after.isNone = true
  | .serve .read => False
  | _ => True

instance (s : Admission) : (a : AdmissionAction) → Decidable (s.Checked a)
  | .subscribe _ _ _ _ _ | .serve .read => .isFalse id
  | .serve (.write e) => inferInstanceAs (Decidable (∀ sub ∈ s.attempt, sub.Captures e))
  | .serve (.broadcast _) => inferInstanceAs (Decidable (∀ sub ∈ s.attempt, sub.after.isNone = true))
  | .wait _ | .expire | .serve .launch | .serve (.check _) | .serve (.tick _) | .serve .drain | .serve .beginRecovery
  | .serve .floors | .serve (.openScan _) | .serve .merge | .serve .enterLive | .serve .fence | .serve .look
  | .serve .pick | .serve .settle | .serve .wake | .serve .receive | .serve .stop | .receive | .consume | .fail _ _
  | .cancel _ | .snapshot => .isTrue trivial

theorem Checked.orderly {s : Admission} {a : AdmissionAction} (h : s.Checked a) : s.Orderly a := by
  cases a with
  | subscribe => exact h.elim
  | serve a =>
    intro sub hSub
    cases a with
    | write e => exact h sub hSub
    | broadcast b =>
      intro e _ p hp
      have hNone := h sub hSub
      rw [hp] at hNone
      cases hNone
    | read => exact h.elim
    | _ => trivial
  | _ => trivial

def refresh : List SubscriptionAction :=
  [.write (deletion (text "a") 5), .broadcast (text "m"), .receive, .check true, .enterLive, .tick true, .check true,
    .enterLive, .check true, .fence, .look, .pick, .settle, .check true]

def refreshedAdmission : List AdmissionAction :=
  (admission ++ refresh).map .serve ++ List.replicate 4 .receive ++ List.replicate 4 .consume

theorem orderly_runs_honest_refreshed : ∃ s : Admission,
    Runs step Orderly start (subscribeNow :: refreshedAdmission) s ∧ s.Ready ∧ s.Honest := by
  have hEnd : ((start.step subscribeNow).bind fun s =>
      refreshedAdmission.foldlM (fun s a => if Checked s a then step s a else none) s).map
        (fun s => (s.status.snapshot s.clock).2.ready) = some true := by
    decide +kernel
  obtain ⟨s, hBind, hReady⟩ := Option.map_eq_some_iff.mp hEnd
  obtain ⟨t, hFirst, hFold⟩ := Option.bind_eq_some_iff.mp hBind
  have hOrdered : start.Orderly subscribeNow := ⟨nofun, nofun, fun _ => .nil, fun _ => List.nodup_nil⟩
  have hStart : Runs step Orderly start [subscribeNow] t := .snoc .nil hOrdered hFirst
  have hRuns := hStart.append_checked (fun _ _ => Checked.orderly) hFold
  exact ⟨s, hRuns, hReady, orderly_runs_honest hRuns hReady⟩

end Runs

end Admission

end Syntrix.Puller
