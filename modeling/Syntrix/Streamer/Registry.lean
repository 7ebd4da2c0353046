import Syntrix.Streamer.RemoteStream
import Syntrix.Lib.Tables
import Syntrix.Lib.Lists

/-! # The registry over reconnections

What is active was acknowledged on the transport of the generation that is reported as connected, and what
was unsubscribed does not come back. Every pending registration belongs to the attempt that is being served.
-/
namespace Syntrix.Streamer

open Lib List Option Function Nat

def Phase.result : Phase → Option Bool
  | .abandoning ok => some ok
  | .cleaning ok => some ok
  | .done ok => some ok
  | _ => none

def Call.Acknowledged (s : State) (call : Call) : Prop := (call.entry.attempt, call.entry.id) ∈ s.acknowledged

/-- A registration of an attempt that is being restored is still to be made, is being made, or was
acknowledged; when the attempt is about to connect, all were. -/
def Restored (s : State) : Main → Prop
  | .restoring a requests current =>
    (∀ id ∈ s.active, id ∈ requests ∨ (∃ c call, current = some c ∧ s.calls c = some call ∧ call.entry.id = id) ∨ (a, id) ∈ s.acknowledged) ∧
    ∀ c, current = some c → ∃ call, s.calls c = some call ∧ call.entry.attempt = a ∧
      (call.phase.result = some true → call.entry.id ∈ s.active → (a, call.entry.id) ∈ s.acknowledged)
  | .connecting a => ∀ id ∈ s.active, (a, id) ∈ s.acknowledged
  | _ => True

structure Sound (s : State) : Prop where
  current : ∀ a, s.attempt = some a → s.main.attempt = some a ∧ s.generations[a]? = some s.generation
  reports : s.reported.Pairwise (· < ·) ∧ ∀ g ∈ s.reported, g ≤ s.generation
  increasing : s.generations.Pairwise (· < ·)
  reached : ∀ g ∈ s.generations, g ≤ s.generation
  left : s.attempt = none → ∀ g ∈ s.generations, g < s.generation
  departed : ∀ a, s.main = .leaving a → s.attempt = none
  served : ∀ e ∈ s.pending, s.main.attempt = some e.attempt
  limit : s.pending.card ≤ registrationLimit
  activeLimit : s.active.card + (s.pending.filter fun e => e.restoring = false).card ≤ activeRegistrationLimit
  numbered : ∀ c call, s.calls c = some call → c < s.nextCall
  acknowledged : ∀ c call, s.calls c = some call → call.response = some true → call.Acknowledged s
  withdrawn : ∀ c call, s.calls c = some call → call.withdrawn = true → call.entry.id ∈ s.unsubscribed
  issued : ∀ c call, s.calls c = some call → call.entry.restoring = false → call.entry.id ∈ s.issued
  fresh : ∀ c call, s.calls c = some call → call.entry.restoring = false → call.phase.result = none →
    call.entry.id ∉ s.known ∧ call.entry.id ∉ s.passed
  distinct : ∀ c c' call call', s.calls c = some call → s.calls c' = some call' → call.entry.restoring = false →
    call'.entry.restoring = false → call.entry.id = call'.entry.id → c = c'
  known : s.known ⊆ s.issued
  passed : s.unsubscribed ⊆ s.passed
  unsubscribed : ∀ id ∈ s.unsubscribed, id ∉ s.active
  connected : s.state = .connected → ∃ a, s.attempt = some a ∧ ∀ id ∈ s.active, (a, id) ∈ s.acknowledged
  restored : Restored s s.main
  since : ∀ r receiver, s.receivers r = some receiver → receiver.since ≤ s.generation
  received : ∀ d ∈ s.recv, s.generations[d.attempt]? = some d.generation
  held : ∀ r receiver, s.receivers r = some receiver → ∀ d ∈ receiver.holding, s.generations[d.attempt]? = some d.generation
  returned : ∀ x ∈ s.returned, x.1 ≤ x.2.generation ∧ s.generations[x.2.attempt]? = some x.2.generation

theorem sound_start : Sound start where
  current := by
    rintro a ⟨⟩
    exact ⟨rfl, rfl⟩
  reports := ⟨pairwise_singleton _ _, fun g hg => (mem_singleton.mp hg).le⟩
  increasing := pairwise_singleton _ _
  reached g hg := (mem_singleton.mp hg).le
  left h := nomatch h
  departed _ h := nomatch h
  served _ he := (Finset.notMem_empty _ he).elim
  limit := by simp [start]
  activeLimit := by simp [start]
  numbered _ _ h := by cases h
  acknowledged _ _ h := by cases h
  withdrawn _ _ h := by cases h
  issued _ _ h := by cases h
  fresh _ _ h := by cases h
  distinct _ _ _ _ h := by cases h
  known := Finset.Subset.refl _
  passed := Finset.Subset.refl _
  unsubscribed _ h := (Finset.notMem_empty _ h).elim
  connected _ := ⟨0, rfl, fun _ h => (Finset.notMem_empty _ h).elim⟩
  restored := trivial
  since _ _ h := by cases h
  received _ h := (not_mem_nil h).elim
  held _ _ h := by cases h
  returned _ h := (not_mem_nil h).elim

/-! ## Calls -/

section Calls

variable {s s' : State} {c : Nat} {call call' : Call}

structure Evolves (s : State) (call call' : Call) : Prop where
  entry : call'.entry = call.entry
  response : call'.response = some true → call.response = some true ∨ call.Acknowledged s
  withdrawn : call'.withdrawn = true → call.withdrawn = true ∨ call.entry.id ∈ s.unsubscribed
  undecided : call'.phase.result = none → call.phase.result = none
  decided : call'.phase.result = some true → call.phase.result = some true ∨ call.entry.id ∉ s.active ∨ call.Acknowledged s

theorem Evolves.refl (s : State) (call : Call) : Evolves s call call := ⟨rfl, .inl, .inl, id, .inl⟩

theorem Restored.keep {m : Main} (h : Restored s m) (hActive : ∀ id ∈ s'.active, id ∈ s.active ∨ ∀ a, m.attempt = some a → (a, id) ∈ s'.acknowledged)
    (hAcknowledged : s.acknowledged ⊆ s'.acknowledged) (hCalls : ∀ c call, s.calls c = some call → ∃ call', s'.calls c = some call' ∧ call'.entry = call.entry ∧
      (call'.phase.result = some true → call.phase.result = some true ∨ call.entry.id ∉ s'.active ∨ call.Acknowledged s')) : Restored s' m := by
  cases m with
  | restoring a requests current =>
    obtain ⟨hAll, hCurrent⟩ := h
    refine ⟨fun id hid => ?_, fun c hc => ?_⟩
    · rcases hActive id hid with hOld | hNew
      · rcases hAll id hOld with hRest | ⟨c, call, rfl, hc, rfl⟩ | hAck
        · exact .inl hRest
        · obtain ⟨call', hc', hEntry, -⟩ := hCalls c call hc
          exact .inr (.inl ⟨c, call', rfl, hc', congrArg Entry.id hEntry⟩)
        · exact .inr (.inr (hAcknowledged hAck))
      · exact .inr (.inr (hNew a rfl))
    · obtain ⟨call, hCall, rfl, hDecided⟩ := hCurrent c hc
      obtain ⟨call', hc', hEntry, hResults⟩ := hCalls c call hCall
      refine ⟨call', hc', congrArg Entry.attempt hEntry, fun hResult hid => ?_⟩
      rw [hEntry] at hid ⊢
      rcases hResults hResult with hOld | hGone | hAck
      · exact (hActive _ hid).elim (fun hid => hAcknowledged (hDecided hOld hid)) fun hNew => hNew _ rfl
      · exact absurd hid hGone
      · exact hAck
  | connecting a => exact fun id hid => (hActive id hid).elim (fun hOld => hAcknowledged (h id hOld)) fun hNew => hNew a rfl
  | _ => trivial

/-- A call that is there before or after its evolution is there on both sides. -/
theorem rel_some {α β : Type} {R : α → β → Prop} {x : Option α} {y : Option β} (h : Option.Rel R x y) :
    (∀ a, x = some a → ∃ b, y = some b ∧ R a b) ∧ ∀ b, y = some b → ∃ a, x = some a ∧ R a b := by
  cases h with
  | none => exact ⟨nofun, nofun⟩
  | some hR =>
    refine ⟨?_, ?_⟩
    all_goals
      rintro _ ⟨⟩
      exact ⟨_, rfl, hR⟩

theorem Sound.evolve {calls : Nat → Option Call} (hs : Sound s) (hCalls : ∀ c, Option.Rel (Evolves s) (s.calls c) (calls c)) :
    Sound { s with calls := calls } := by
  have hCame : ∀ {c : Nat} {call' : Call}, calls c = some call' → ∃ call, s.calls c = some call ∧ Evolves s call call' :=
    fun {c} => (rel_some (hCalls c)).2 _
  refine { hs with
    numbered := ?_, acknowledged := ?_, withdrawn := ?_, issued := ?_, fresh := ?_, distinct := ?_
    restored := hs.restored.keep (fun _ => .inl) (fun _ h => h) fun c call hc => by
      obtain ⟨call', hc', hEvolves⟩ := (rel_some (hCalls c)).1 call hc
      exact ⟨call', hc', hEvolves.entry, hEvolves.decided⟩ }
  · intro c call' hc
    obtain ⟨call, hc, -⟩ := hCame hc
    exact hs.numbered c call hc
  · intro c call' hc hResponse
    obtain ⟨call, hc, hEvolves⟩ := hCame hc
    rw [Call.Acknowledged, hEvolves.entry]
    exact (hEvolves.response hResponse).elim (hs.acknowledged c call hc) id
  · intro c call' hc hWithdrawn
    obtain ⟨call, hc, hEvolves⟩ := hCame hc
    rw [hEvolves.entry]
    exact (hEvolves.withdrawn hWithdrawn).elim (hs.withdrawn c call hc) id
  · intro c call' hc
    obtain ⟨call, hc, hEvolves⟩ := hCame hc
    rw [hEvolves.entry]
    exact hs.issued c call hc
  · intro c call' hc hRestoring hResult
    obtain ⟨call, hc, hEvolves⟩ := hCame hc
    rw [hEvolves.entry] at hRestoring ⊢
    exact hs.fresh c call hc hRestoring (hEvolves.undecided hResult)
  · intro c₁ c₂ call₁ call₂ hc₁ hc₂ h₁ h₂ hSame
    obtain ⟨call, hc₁, hEvolves₁⟩ := hCame hc₁
    obtain ⟨call', hc₂, hEvolves₂⟩ := hCame hc₂
    rw [hEvolves₁.entry] at h₁ hSame
    rw [hEvolves₂.entry] at h₂ hSame
    exact hs.distinct c₁ c₂ call call' hc₁ hc₂ h₁ h₂ hSame

theorem Sound.setCall (hs : Sound s) (hc : s.calls c = some call) (hEvolves : Evolves s call call') : Sound (s.setCall c call') := by
  refine hs.evolve fun c' => ?_
  by_cases hSame : c' = c
  · subst hSame
    rw [hc, update_self]
    exact .some hEvolves
  · rw [update_of_ne hSame]
    cases s.calls c' with
    | none => exact .none
    | some other => exact .some (.refl s other)

theorem Sound.mapCalls {f : Nat → Call → Call} (hs : Sound s) (hf : ∀ c call, s.calls c = some call → Evolves s call (f c call)) :
    Sound { s with calls := fun c => (s.calls c).map (f c) } := by
  refine hs.evolve fun c => ?_
  cases hc : s.calls c with
  | none => exact .none
  | some call => exact .some (hf c call hc)

theorem evolves_phase {phase : Phase} (h : phase.result = call.phase.result ∨ phase.result = some false ∨
    (phase.result = some true ∧ (call.entry.id ∉ s.active ∨ call.Acknowledged s))) :
    Evolves s call { call with phase := phase } := by
  refine ⟨rfl, .inl, .inl, fun hNone => ?_, fun hOk => ?_⟩
  · rcases h with h | h | ⟨h, -⟩
    · exact h.symm.trans hNone
    all_goals cases h.symm.trans hNone
  · rcases h with h | h | ⟨-, h⟩
    · exact .inl (h.symm.trans hOk)
    · exact absurd (h.symm.trans hOk) nofun
    · exact .inr h

theorem Sound.register {id : String} {a : Nat} {restoring : Bool} (hs : Sound s)
    (hFresh : restoring = false → id ∈ s.issued ∧ id ∉ s.known ∧ id ∉ s.passed ∧
      ∀ c call, s.calls c = some call → call.entry.restoring = false → call.entry.id ≠ id) : Sound (s.register id a restoring) := by
  have hNew : ∀ {c : Nat} {call : Call}, (s.register id a restoring).calls c = some call →
      s.calls c = some call ∨ (c = s.nextCall ∧ call = { entry := ⟨id, s.nextCall, a, restoring⟩ }) := by
    intro c call hc
    rcases update_eq_some_iff.mp hc with ⟨rfl, ⟨⟩⟩ | ⟨-, hOld⟩
    · exact .inr ⟨rfl, rfl⟩
    · exact .inl hOld
  refine { hs with
    numbered := ?_, acknowledged := ?_, withdrawn := ?_, issued := ?_, fresh := ?_, distinct := ?_
    restored := hs.restored.keep (fun _ => .inl) (fun _ h => h) fun c call hc =>
      ⟨call, (update_of_ne (hs.numbered c call hc).ne _ _).trans hc, rfl, .inl⟩ }
  · intro c call hc
    rcases hNew hc with hOld | ⟨rfl, -⟩
    · exact (hs.numbered c call hOld).trans (lt_succ_self _)
    · exact lt_succ_self _
  · intro c call hc hResponse
    rcases hNew hc with hOld | ⟨rfl, rfl⟩
    · exact hs.acknowledged c call hOld hResponse
    · cases hResponse
  · intro c call hc hWithdrawn
    rcases hNew hc with hOld | ⟨rfl, rfl⟩
    · exact hs.withdrawn c call hOld hWithdrawn
    · cases hWithdrawn
  · intro c call hc hRestoring
    rcases hNew hc with hOld | ⟨rfl, rfl⟩
    · exact hs.issued c call hOld hRestoring
    · exact (hFresh hRestoring).1
  · intro c call hc hRestoring hResult
    rcases hNew hc with hOld | ⟨rfl, rfl⟩
    · exact hs.fresh c call hOld hRestoring hResult
    · exact ⟨(hFresh hRestoring).2.1, (hFresh hRestoring).2.2.1⟩
  · intro c₁ c₂ call₁ call₂ hc₁ hc₂ h₁ h₂ hSame
    rcases hNew hc₁ with hOld₁ | ⟨rfl, rfl⟩ <;> rcases hNew hc₂ with hOld₂ | ⟨rfl, rfl⟩
    · exact hs.distinct c₁ c₂ call₁ call₂ hOld₁ hOld₂ h₁ h₂ hSame
    · exact absurd hSame ((hFresh h₂).2.2.2 c₁ call₁ hOld₁ h₁)
    · exact absurd hSame.symm ((hFresh h₁).2.2.2 c₂ call₂ hOld₂ h₂)
    · rfl

end Calls

/-! ## The steps -/

section Steps

variable {s s' : State} {c : Nat} {call : Call}

variable (hs : Sound s)

include hs

theorem Sound.retire (a : Nat) : Sound (s.retire a) := by
  unfold State.retire
  split
  · exact { hs with
      current := fun _ h => by cases h
      reports := by
        refine ⟨pairwise_push hs.reports.1 fun g hg => Nat.lt_succ_iff.mpr (hs.reports.2 g hg), ?_⟩
        exact forall_mem_push (fun g hg => (hs.reports.2 g hg).trans (le_succ _)) le_rfl
      departed := fun _ _ => rfl
      reached := fun g hg => (hs.reached g hg).trans (le_succ _)
      left := fun _ g hg => Nat.lt_succ_iff.mpr (hs.reached g hg)
      connected := fun h => absurd h nofun
      since := fun r receiver hr => (hs.since r receiver hr).trans (le_succ _) }
  · exact hs

theorem Sound.acknowledge (x : Nat × String) : Sound { s with acknowledged := s.acknowledged ++ [x] } :=
  { hs with
    acknowledged := fun c call hc hr => mem_append_left _ (hs.acknowledged c call hc hr)
    connected := fun h => by
      obtain ⟨a, ha, hAll⟩ := hs.connected h
      exact ⟨a, ha, fun id hid => mem_append_left _ (hAll id hid)⟩
    restored := hs.restored.keep (fun _ => .inl) (subset_append_left _ _) fun _ call hc => ⟨call, hc, rfl, .inl⟩ }

theorem Sound.remove {pending : Finset Entry} (h : pending ⊆ s.pending) : Sound { s with pending := pending } :=
  { hs with
    served := fun e he => hs.served e (h he)
    limit := (Finset.card_le_card h).trans hs.limit
    activeLimit := (Nat.add_le_add_left (Finset.card_le_card (Finset.filter_subset_filter _ h)) _).trans hs.activeLimit }

omit hs in
theorem without_subset (pending : Finset Entry) (id : String) : without pending id ⊆ pending := Finset.filter_subset _ _

theorem Sound.setMain {m : Main} (hAttempt : m.attempt = s.main.attempt) (hLeft : ∀ a, m = .leaving a → s.attempt = none)
    (hRestored : Restored s m) : Sound { s with main := m } :=
  { hs with
    departed := hLeft
    current := fun a ha => ⟨hAttempt.trans (hs.current a ha).1, (hs.current a ha).2⟩
    served := fun e he => hAttempt.trans (hs.served e he)
    restored := hRestored }

variable {id : String}

theorem Sound.subscribe (hStep : subscribeStep s id = some s') : Sound s' := by
  obtain ⟨hNew, hStep⟩ := ite_none_left_eq_some.mp hStep
  rw [not_or] at hNew
  split at hStep
  · cases hStep
  obtain ⟨-, ⟨⟩⟩ := ite_none_right_eq_some.mp hStep
  have hIssued : Sound { s with issued := insert id s.issued } :=
    { hs with
      issued := fun c call hc hr => Finset.mem_insert_of_mem (hs.issued c call hc hr)
      known := hs.known.trans (Finset.subset_insert _ _) }
  refine hIssued.register fun _ => ⟨Finset.mem_insert_self _ _, fun hKnown => hNew.1 (hs.known hKnown), hNew.2, fun c call hc hr hSame => ?_⟩
  exact hNew.1 (hSame ▸ hs.issued c call hc hr)

theorem Sound.keep {closed : Bool} {cancelled : Finset Nat} {sends : Nat → List Operation} {cleaning : Nat → Option String}
    {withdrawals : List (Nat × String)} :
    Sound { s with closed := closed, cancelled := cancelled, sends := sends, cleaning := cleaning, withdrawals := withdrawals } :=
  { hs with }

variable (hc : s.calls c = some call)

include hc

theorem Sound.refuse {phase : Phase} (h : phase.result = some false) : Sound (s.setCall c { call with phase := phase }) :=
  hs.setCall hc (evolves_phase (.inr (.inl h)))

theorem Sound.enter (hStep : enterStep s c call = some s') : Sound s' := by
  unfold enterStep at hStep
  dsimp only at hStep
  split at hStep
  · cases hStep
  rename_i hPhase
  rw [not_not] at hPhase
  split at hStep
  · cases hStep
    exact hs.refuse hc rfl
  rename_i hAttempt
  split at hStep
  · cases hStep
    exact hs.refuse hc rfl
  rename_i hRoom
  split at hStep
  · rename_i hGone
    cases hStep
    exact hs.setCall hc (evolves_phase (.inr (.inr ⟨rfl, .inl hGone.2⟩)))
  cases hStep
  have hMoved : Sound (s.setCall c { call with phase := .sending }) := hs.setCall hc (evolves_phase (.inl (by rw [hPhase]; rfl)))
  rw [not_or, not_not] at hAttempt
  rw [not_or, not_le, not_and, not_le] at hRoom
  have hWithout := Finset.card_le_card (without_subset s.pending call.entry.id)
  have hCard := Finset.card_insert_le call.entry (without s.pending call.entry.id)
  refine { hMoved with served := ?_, limit := ?_, activeLimit := ?_ }
  · intro e he
    rcases Finset.mem_insert.mp he with rfl | hOld
    · exact (hs.current _ hAttempt.1).1
    · exact hs.served e (without_subset _ _ hOld)
  · exact hCard.trans ((succ_le_succ hWithout).trans hRoom.1)
  · dsimp only [State.setCall]
    rw [Finset.filter_insert]
    split
    · rename_i hNew
      have hFull := hRoom.2 hNew
      have hFilter := Finset.card_le_card (Finset.filter_subset (fun e => e.restoring = false) (without s.pending call.entry.id))
      have hInsert := Finset.card_insert_le call.entry ((without s.pending call.entry.id).filter fun e => e.restoring = false)
      omega
    · exact (Nat.add_le_add_left (Finset.card_le_card (Finset.filter_subset_filter _ (without_subset _ _))) _).trans hs.activeLimit

theorem Sound.enqueue (hStep : enqueueStep s c call = some s') : Sound s' := by
  obtain ⟨hPhase, hStep⟩ := ite_none_left_eq_some.mp hStep
  rw [not_not] at hPhase
  split at hStep
  · cases hStep
    exact (hs.setCall hc (evolves_phase (.inl (by rw [hPhase]; rfl)))).keep
  · cases hStep
    exact hs.refuse hc rfl

theorem Sound.proceed (hStep : proceedStep s c call = some s') : Sound s' := by
  unfold proceedStep at hStep
  split at hStep
  · rename_i hPhase _
    cases hStep
    exact hs.setCall hc (evolves_phase (.inl (by rw [hPhase]; rfl)))
  · cases hStep
    exact hs.refuse hc rfl
  · cases hStep

theorem Sound.giveUp (hStep : giveUpStep s c call = some s') : Sound s' := by
  unfold giveUpStep at hStep
  split at hStep
  case h_5 => cases hStep
  all_goals
    obtain ⟨-, ⟨⟩⟩ := ite_none_right_eq_some.mp hStep
    exact hs.refuse hc rfl

theorem Sound.withdraw (hStep : withdrawStep s c call = some s') : Sound s' := by
  obtain ⟨⟨-, hWithdrawn⟩, ⟨⟩⟩ := ite_none_right_eq_some.mp hStep
  exact hs.setCall hc (evolves_phase (.inr (.inr ⟨rfl, .inl (hs.unsubscribed _ (hs.withdrawn c call hc hWithdrawn))⟩)))

theorem Sound.activate (hResult : call.phase.result ≠ none)
    (hAttempt : s.attempt = some call.entry.attempt) (hAcknowledged : call.Acknowledged s) (hPending : call.entry ∈ s.pending)
    (hKnown : call.entry.restoring = true → call.entry.id ∈ s.active)
    (hNew : call.entry.restoring = false → call.entry.id ∉ s.unsubscribed) :
    Sound { s with
      active := insert call.entry.id s.active
      pending := without s.pending call.entry.id
      known := if call.entry.restoring then s.known else insert call.entry.id s.known } := by
  have hRemoved := hs.remove (without_subset s.pending call.entry.id)
  have hOr : ∀ {id : String}, id ∈ insert call.entry.id s.active → id ∈ s.active ∨ id = call.entry.id := fun h =>
    (Finset.mem_insert.mp h).symm
  have hMain := (hs.current _ hAttempt).1
  refine { hRemoved with
    activeLimit := ?_, fresh := ?_, known := ?_, unsubscribed := ?_, connected := ?_
    restored := hs.restored.keep (fun _ hid => (hOr hid).imp_right ?_) (fun _ h => h) fun _ call hc => ⟨call, hc, rfl, .inl⟩ }
  · cases hRestoring : call.entry.restoring with
    | true =>
      rw [Finset.insert_eq_of_mem (hKnown hRestoring)]
      exact hRemoved.activeLimit
    | false =>
      -- the entry leaves the pending registrations for the active ones
      have hLess : ((without s.pending call.entry.id).filter fun e => e.restoring = false).card <
          (s.pending.filter fun e => e.restoring = false).card := by
        refine Finset.card_lt_card (Finset.ssubset_iff_subset_ne.mpr ⟨Finset.filter_subset_filter _ (without_subset _ _), fun hSame => ?_⟩)
        have hMem : call.entry ∈ s.pending.filter fun e => e.restoring = false := Finset.mem_filter.mpr ⟨hPending, hRestoring⟩
        rw [← hSame] at hMem
        exact (Finset.mem_filter.mp (Finset.mem_filter.mp hMem).1).2 rfl
      have hInsert := Finset.card_insert_le call.entry.id s.active
      have hLimit := hs.activeLimit
      dsimp only
      omega
  · intro c' call' hc' hRestoring' hResult'
    obtain ⟨hFresh, hPassed⟩ := hs.fresh c' call' hc' hRestoring' hResult'
    refine ⟨?_, hPassed⟩
    split
    · exact hFresh
    rename_i hRestoring
    rw [Bool.not_eq_true] at hRestoring
    rw [Finset.mem_insert, not_or]
    refine ⟨fun hSame => ?_, hFresh⟩
    cases hs.distinct c' c call' call hc' hc hRestoring' hRestoring hSame
    cases hc'.symm.trans hc
    exact hResult hResult'
  · split
    · exact hs.known
    rename_i hRestoring
    rw [Bool.not_eq_true] at hRestoring
    exact Finset.insert_subset (hs.issued c call hc hRestoring) hs.known
  · intro id hid hActive
    rcases hOr hActive with hOld | rfl
    · exact hs.unsubscribed id hid hOld
    cases hRestoring : call.entry.restoring with
    | true => exact hs.unsubscribed _ hid (hKnown hRestoring)
    | false => exact hNew hRestoring hid
  · intro hState
    obtain ⟨a, ha, hAll⟩ := hs.connected hState
    refine ⟨a, ha, fun id hid => ?_⟩
    rcases hOr hid with hOld | rfl
    · exact hAll id hOld
    · cases hAttempt.symm.trans ha
      exact hAcknowledged
  · rintro rfl a ha
    cases hMain.symm.trans ha
    exact hAcknowledged

theorem Sound.complete (hStep : completeStep s c call = some s') : Sound s' := by
  obtain ⟨hPhase, hStep⟩ := ite_none_left_eq_some.mp hStep
  rw [not_not] at hPhase
  split at hStep
  · cases hStep
  rename_i success hResponse
  split at hStep
  · rename_i hGone
    cases hStep
    exact hs.setCall hc (evolves_phase (.inr (.inr ⟨rfl, .inl hGone.2⟩)))
  rename_i hRestoring
  split at hStep
  · rename_i hCurrent
    split at hStep
    · rename_i hSuccess
      cases hStep
      have hAcknowledged : call.Acknowledged s := hs.acknowledged c call hc (hResponse.trans (congrArg some hSuccess))
      have hMoved : Sound (s.setCall c { call with phase := .done true }) :=
        hs.setCall hc (evolves_phase (.inr (.inr ⟨rfl, .inr hAcknowledged⟩)))
      have hNow : (s.setCall c { call with phase := .done true }).calls c = some { call with phase := .done true } :=
        update_self _ _ _
      have hActivated := hMoved.activate hNow (some_ne_none _) hCurrent.1 hAcknowledged hCurrent.2.2.2.2
        (fun h => by_contra fun hGone => hRestoring ⟨h, hGone⟩)
        (fun h hGone => (hs.fresh c call hc h (by rw [hPhase]; rfl)).2 (hs.passed hGone))
      exact hActivated
    · cases hStep
      exact (hs.refuse hc rfl).remove (without_subset _ _)
  · cases hStep
    exact hs.refuse hc rfl

theorem Sound.abandon (hStep : abandonStep s c call = some s') : Sound s' := by
  unfold abandonStep at hStep
  dsimp only at hStep
  split at hStep
  · rename_i ok hPhase
    have hMoved : ∀ phase : Phase, phase.result = some ok → Sound (s.setCall c { call with phase := phase }) := fun _ h =>
      hs.setCall hc (evolves_phase (.inl (by rw [hPhase]; exact h)))
    split at hStep
    · cases hStep
      exact hMoved _ rfl
    split at hStep
    · cases hStep
      exact (hMoved (.done ok) rfl).remove (without_subset _ _)
    · cases hStep
      exact hMoved _ rfl
  · cases hStep

omit hs in
omit hc in
theorem retire_kept (s : State) (a : Nat) :
    (s.retire a).calls = s.calls ∧ (s.retire a).main = s.main ∧ (s.retire a).receivers = s.receivers := by
  unfold State.retire
  split <;> exact ⟨rfl, rfl, rfl⟩

theorem Sound.clean (hStep : cleanStep s c call = some s') : Sound s' := by
  unfold cleanStep at hStep
  dsimp only at hStep
  split at hStep
  · rename_i ok hPhase
    split at hStep
    · cases hStep
      exact (hs.setCall hc (evolves_phase (.inl (by rw [hPhase]; rfl)))).keep
    · cases hStep
      exact (hs.retire _).setCall ((congrFun (retire_kept s _).1 c).trans hc) (evolves_phase (.inl (by rw [hPhase]; rfl)))
  · cases hStep

omit hc

theorem Sound.unsubscribe (hStep : unsubscribeStep s id = some s') : Sound s' := by
  obtain ⟨hKnown, hStep⟩ := ite_none_left_eq_some.mp hStep
  -- the ID is not that of a subscription under way
  have hOther : ∀ c call, s.calls c = some call → call.entry.restoring = false → call.phase.result = none → call.entry.id ≠ id := by
    rintro c call hc hRestoring hResult rfl
    exact hKnown ⟨hs.issued c call hc hRestoring, (hs.fresh c call hc hRestoring hResult).1⟩
  have hPassed : Sound { s with passed := insert id s.passed } :=
    { hs with
      fresh := fun c call hc hRestoring hResult => by
        obtain ⟨hFresh, hNot⟩ := hs.fresh c call hc hRestoring hResult
        refine ⟨hFresh, ?_⟩
        rw [Finset.mem_insert, not_or]
        exact ⟨hOther c call hc hRestoring hResult, hNot⟩
      passed := hs.passed.trans (Finset.subset_insert _ _) }
  split at hStep
  · cases hStep
    exact hPassed
  cases hStep
  have hErased : Sound { s with
      passed := insert id s.passed, unsubscribed := insert id s.unsubscribed, active := s.active.erase id } :=
    { hPassed with
      activeLimit := (Nat.add_le_add_right (Finset.card_le_card (Finset.erase_subset _ _)) _).trans hs.activeLimit
      withdrawn := fun c call hc hw => Finset.mem_insert_of_mem (hs.withdrawn c call hc hw)
      passed := Finset.insert_subset_insert _ hs.passed
      unsubscribed := fun other hOther hActive => by
        obtain ⟨hNe, hOld⟩ := Finset.mem_erase.mp hActive
        rcases Finset.mem_insert.mp hOther with rfl | hGone
        · exact hNe rfl
        · exact hs.unsubscribed other hGone hOld
      connected := fun h => by
        obtain ⟨a, ha, hAll⟩ := hs.connected h
        exact ⟨a, ha, fun other ho => hAll other (Finset.mem_of_mem_erase ho)⟩
      restored := hs.restored.keep (fun _ h => .inl (Finset.mem_of_mem_erase h)) (fun _ h => h) fun _ call hc => ⟨call, hc, rfl, .inl⟩ }
  refine (hErased.mapCalls (f := fun _ call =>
    if call.entry ∈ s.pending ∧ call.entry.id = id ∧ call.entry.restoring = true then { call with withdrawn := true } else call)
    fun c call _ => ?_).keep
  split
  · rename_i hEntry
    exact ⟨rfl, .inl, fun _ => .inr (hEntry.2.1 ▸ Finset.mem_insert_self _ _), fun h => h, .inl⟩
  · exact .refl _ _

variable {a : Nat}

theorem Sound.sendUnsubscribe (hStep : sendUnsubscribeStep s a id = some s') : Sound s' := by
  obtain ⟨-, hStep⟩ := ite_none_left_eq_some.mp hStep
  dsimp only at hStep
  split at hStep
  · cases hStep
    exact hs.keep
  split at hStep
  · cases hStep
    exact hs.keep
  · cases hStep
    exact Sound.retire hs.keep a

theorem Sound.respond {success : Bool} (hStep : respondStep s a id success = some s') : Sound s' := by
  obtain ⟨-, ⟨⟩⟩ := ite_none_right_eq_some.mp hStep
  have hRead : Sound { s with acknowledged := if success then s.acknowledged ++ [(a, id)] else s.acknowledged } := by
    cases success with
    | true => exact hs.acknowledge (a, id)
    | false => exact hs
  refine hRead.mapCalls (f := fun _ call =>
    if s.attempt = some a ∧ call.entry ∈ s.pending ∧ call.entry.id = id ∧ call.entry.attempt = a ∧ call.response = none then
      { call with response := some success } else call) fun c call _ => ?_
  by_cases hEntry : s.attempt = some a ∧ call.entry ∈ s.pending ∧ call.entry.id = id ∧ call.entry.attempt = a ∧ call.response = none
  · rw [if_pos hEntry]
    obtain ⟨-, -, rfl, rfl, -⟩ := hEntry
    refine ⟨rfl, fun h => .inr ?_, .inl, fun h => h, .inl⟩
    cases h
    exact mem_append_right _ mem_cons_self
  · rw [if_neg hEntry]
    exact .refl _ _

theorem Sound.deliver (hStep : deliverStep s a = some s') : Sound s' := by
  obtain ⟨-, hStep⟩ := ite_none_right_eq_some.mp hStep
  obtain ⟨generation, hGeneration, rfl⟩ := map_eq_some_iff.mp hStep
  exact { hs with received := forall_mem_push hs.received hGeneration }

theorem Sound.answer (operation : Operation) (ok : Bool) : Sound (s.answer operation ok) := by
  cases operation with
  | subscribe c =>
    refine hs.mapCalls (f := fun c' call => if c' = c then { call with written := some ok } else call) fun c' call _ => ?_
    split
    · exact ⟨rfl, .inl, .inl, fun h => h, .inl⟩
    · exact .refl _ _
  | unsubscribe id | cleanup id => exact hs

theorem Sound.write {result : WriteResult} (hStep : writeStep s a result = some s') : Sound s' := by
  obtain ⟨-, hStep⟩ := ite_none_left_eq_some.mp hStep
  split at hStep
  · cases hStep
  rename_i operation rest hSends
  split at hStep
  · obtain ⟨-, ⟨⟩⟩ := ite_none_right_eq_some.mp hStep
    exact Sound.answer hs.keep operation false
  · cases hStep
    exact (Sound.answer hs.keep operation false).retire a
  split at hStep
  · cases hStep
    exact hs.keep
  · cases hStep
    exact Sound.answer hs.keep _ true

theorem Sound.cleaned (hStep : cleanedStep s a = some s') : Sound s' := by
  obtain ⟨id, -, rfl⟩ := map_eq_some_iff.mp hStep
  exact (hs.remove (Finset.filter_subset _ _)).keep

theorem Sound.open {requests : List String} (hStep : openStep s requests = some s') : Sound s' := by
  unfold openStep at hStep
  split at hStep
  · rename_i a hMain
    obtain ⟨⟨-, hRequests⟩, ⟨⟩⟩ := ite_none_right_eq_some.mp hStep
    refine hs.setMain (by rw [hMain]; rfl) nofun ⟨fun id hid => .inl ?_, nofun⟩
    rw [← hRequests] at hid
    exact List.mem_toFinset.mp hid
  · cases hStep

theorem Sound.restore (hStep : restoreStep s = some s') : Sound s' := by
  have hRestored := hs.restored
  unfold restoreStep at hStep
  split at hStep
  · rename_i a id rest hMain
    rw [hMain] at hRestored
    cases hStep
    have hRegistered : Sound (s.register id a true) := hs.register nofun
    have hNew : (s.register id a true).calls s.nextCall = some { entry := ⟨id, s.nextCall, a, true⟩ } := update_self _ _ _
    refine hRegistered.setMain (by rw [show (s.register id a true).main = s.main from rfl, hMain]; rfl) nofun ⟨fun other hOther => ?_, ?_⟩
    · rcases hRestored.1 other hOther with hRequest | ⟨c, call, hc, -⟩ | hAcknowledged
      · rcases mem_cons.mp hRequest with rfl | hRest
        · exact .inr (.inl ⟨s.nextCall, _, rfl, hNew, rfl⟩)
        · exact .inl hRest
      · cases hc
      · exact .inr (.inr hAcknowledged)
    · rintro _ ⟨⟩
      exact ⟨_, hNew, rfl, nofun⟩
  · rename_i a hMain
    rw [hMain] at hRestored
    cases hStep
    refine hs.setMain (by rw [hMain]; rfl) nofun fun id hid => ?_
    rcases hRestored.1 id hid with hRequest | ⟨c, call, hc, -⟩ | hAcknowledged
    · cases hRequest
    · cases hc
    · exact hAcknowledged
  · cases hStep

theorem retire_attempt (hMain : s.main.attempt = some a) : (s.retire a).attempt = none := by
  unfold State.retire
  split
  · rfl
  rename_i hOther
  cases hAttempt : s.attempt with
  | none => rfl
  | some a' =>
    cases hMain.symm.trans (hs.current a' hAttempt).1
    exact absurd hAttempt hOther

theorem Sound.leave (hMain : s.main.attempt = some a) : Sound (s.leave a) := by
  have hLeaving : Sound { s.retire a with main := .leaving a } :=
    (hs.retire a).setMain (by rw [(retire_kept s a).2.1, hMain]; rfl) (fun _ _ => retire_attempt hs hMain) trivial
  exact hLeaving.keep

theorem Sound.restoredStep (hStep : restoredStep s = some s') : Sound s' := by
  have hRestored := hs.restored
  unfold Streamer.restoredStep at hStep
  split at hStep
  · rename_i a rest c hMain
    rw [hMain] at hRestored
    split at hStep
    · rename_i hPhase
      cases hStep
      obtain ⟨call, hc, hDone⟩ := map_eq_some_iff.mp hPhase
      refine hs.setMain (by rw [hMain]; rfl) nofun ⟨fun id hid => ?_, nofun⟩
      rcases hRestored.1 id hid with hRequest | ⟨c', call', hCurrent, hc', rfl⟩ | hAcknowledged
      · exact .inl hRequest
      · cases hCurrent
        obtain ⟨call'', hc'', -, hDecided⟩ := hRestored.2 c rfl
        cases hc.symm.trans hc'
        cases hc.symm.trans hc''
        exact .inr (.inr (hDecided (by rw [hDone]; rfl) hid))
      · exact .inr (.inr hAcknowledged)
    · cases hStep
      exact hs.leave (by rw [hMain]; rfl)
    · cases hStep
  · cases hStep

theorem Sound.connect (hStep : connectStep s = some s') : Sound s' := by
  have hRestored := hs.restored
  unfold connectStep at hStep
  split at hStep
  · rename_i a hMain
    rw [hMain] at hRestored
    have hServing : Sound { s with main := .serving a } := hs.setMain (by rw [hMain]; rfl) nofun trivial
    split at hStep
    · rename_i hCurrent
      cases hStep
      exact { hServing with connected := fun _ => ⟨a, hCurrent.2, hRestored⟩, restored := trivial }
    · cases hStep
      exact hServing
  · cases hStep

theorem Sound.leaveStep (hStep : leaveStep s = some s') : Sound s' := by
  unfold Streamer.leaveStep at hStep
  split at hStep
  · rename_i a hMain
    obtain ⟨-, ⟨⟩⟩ := ite_none_right_eq_some.mp hStep
    exact hs.leave (by rw [hMain]; rfl)
  · cases hStep

theorem Sound.cleanup (hStep : cleanupStep s = some s') : Sound s' := by
  unfold cleanupStep at hStep
  split at hStep
  · rename_i a hMain
    cases hStep
    have hNone : s.attempt = none := hs.departed a hMain
    have hRemoved : Sound { s with pending := s.pending.filter fun e => e.attempt ≠ a } := hs.remove (Finset.filter_subset _ _)
    refine { hRemoved with
      current := fun a' h => by cases hNone.symm.trans h
      departed := nofun
      served := fun e he => ?_
      restored := trivial }
    obtain ⟨hPending, hOther⟩ := Finset.mem_filter.mp he
    have hServed := hs.served e hPending
    rw [hMain] at hServed
    exact absurd (some.inj hServed).symm hOther
  · cases hStep

theorem Sound.idle {m : Main} (hMain : s.main.attempt = none) (hNew : m.attempt = none) : Sound { s with main := m } := by
  refine hs.setMain (hNew.trans hMain.symm) (fun a h => ?_) ?_
  · rw [h] at hNew
    cases hNew
  · cases m <;> trivial

theorem Sound.attempt_none (hMain : s.main.attempt = none) : s.attempt = none := by
  cases hAttempt : s.attempt with
  | none => rfl
  | some a => cases (hs.current a hAttempt).1.symm.trans hMain

theorem Sound.pending_empty (hMain : s.main.attempt = none) : ∀ e, e ∉ s.pending := fun e he =>
  by cases (hs.served e he).symm.trans hMain

theorem Sound.install (hStep : installStep s = some s') : Sound s' := by
  obtain ⟨hMain, ⟨⟩⟩ := ite_none_right_eq_some.mp hStep
  have hNone : s.main.attempt = none := by rw [hMain]; rfl
  have hLeft := hs.left (hs.attempt_none hNone)
  have hGrown : ∀ {i g : Nat}, s.generations[i]? = some g → (s.generations ++ [s.generation])[i]? = some g := fun h => by
    rw [getElem?_append_left (List.getElem?_eq_some_iff.mp h).1]
    exact h
  exact { hs with
    current := by
      rintro a ⟨⟩
      exact ⟨rfl, getElem?_concat_length⟩
    increasing := pairwise_push hs.increasing hLeft
    reached := forall_mem_push hs.reached le_rfl
    left := fun h => by cases h
    departed := nofun
    served := fun e he => absurd he (hs.pending_empty hNone e)
    connected := fun h => by
      obtain ⟨a, ha, -⟩ := hs.connected h
      cases ha.symm.trans (hs.attempt_none hNone)
    restored := trivial
    received := fun d hd => hGrown (hs.received d hd)
    held := fun r receiver hr d hd => hGrown (hs.held r receiver hr d hd)
    returned := fun x hx => ⟨(hs.returned x hx).1, hGrown (hs.returned x hx).2⟩ }

theorem Sound.finish (hStep : finishStep s = some s') : Sound s' := by
  obtain ⟨hMain, ⟨⟩⟩ := ite_none_right_eq_some.mp hStep
  have hNone : s.main.attempt = none := by rw [hMain]; rfl
  have hIdle : Sound { s with main := .finished } := hs.idle hNone rfl
  exact { hIdle with
    current := fun _ h => by cases h
    left := fun _ => hs.left (hs.attempt_none hNone)
    departed := nofun
    connected := nofun
    restored := trivial }

/-! ## Receiving -/

variable {receiver : Receiver}

theorem Sound.receive {r : Nat} {recv : List Delivery} (hSince : receiver.since ≤ s.generation)
    (hHeld : ∀ d ∈ receiver.holding, s.generations[d.attempt]? = some d.generation) (hRecv : recv ⊆ s.recv) :
    Sound { s with recv := recv, receivers := update s.receivers r (some receiver) } := by
  refine { hs with
    since := forall_update hs.since ?_
    received := fun d hd => hs.received d (hRecv hd)
    held := forall_update hs.held ?_ }
  · rintro _ ⟨⟩
    exact hSince
  · rintro _ ⟨⟩
    exact hHeld

theorem Sound.take {r : Nat} (hr : s.receivers r = some receiver) (hStep : takeStep s r receiver = some s') : Sound s' := by
  unfold takeStep at hStep
  split at hStep
  · rename_i d rest hHolding hRecv
    cases hStep
    refine hs.receive (hs.since r receiver hr) ?_ (hRecv ▸ subset_cons_self d rest)
    rintro _ ⟨⟩
    exact hs.received d (hRecv ▸ mem_cons_self)
  · cases hStep

theorem Sound.refresh : Sound s.refresh := by
  unfold State.refresh
  split
  · rename_i a _
    split
    · exact hs.retire a
    · exact hs
  · exact hs

omit hs in
theorem refresh_receivers (s : State) : s.refresh.receivers = s.receivers := by
  unfold State.refresh
  split
  · split
    · exact (retire_kept s _).2.2
    · rfl
  · rfl

theorem Sound.check {r : Nat} (hr : s.receivers r = some receiver) (hStep : checkStep s r receiver = some s') : Sound s' := by
  obtain ⟨d, hHolding, rfl⟩ := map_eq_some_iff.mp hStep
  have hFresh := hs.refresh
  have hr' : s.refresh.receivers r = some receiver := by rw [refresh_receivers, hr]
  have hSince := hFresh.since r receiver hr'
  dsimp only
  split
  · rename_i hCurrent
    exact { hFresh with
      since := forall_update hFresh.since nofun
      held := forall_update hFresh.held nofun
      returned := forall_mem_push hFresh.returned ⟨hCurrent.2 ▸ hSince, hFresh.held r receiver hr' d hHolding⟩ }
  · exact hFresh.receive hSince nofun (List.Subset.refl _)

theorem Sound.next {a : Action} (hStep : step s a = some s') : Sound s' := by
  cases a with
  | subscribe id => exact hs.subscribe hStep
  | enter c => exact bind_step hStep fun _ => hs.enter
  | enqueue c => exact bind_step hStep fun _ => hs.enqueue
  | proceed c => exact bind_step hStep fun _ => hs.proceed
  | expire c =>
    obtain ⟨call, hc, rfl⟩ := map_eq_some_iff.mp hStep
    exact hs.setCall hc ⟨rfl, .inl, .inl, fun h => h, .inl⟩
  | giveUp c => exact bind_step hStep fun _ => hs.giveUp
  | withdraw c => exact bind_step hStep fun _ => hs.withdraw
  | complete c => exact bind_step hStep fun _ => hs.complete
  | abandon c => exact bind_step hStep fun _ => hs.abandon
  | clean c => exact bind_step hStep fun _ => hs.clean
  | unsubscribe id => exact hs.unsubscribe hStep
  | sendUnsubscribe a id => exact hs.sendUnsubscribe hStep
  | respond a id success => exact hs.respond hStep
  | deliver a => exact hs.deliver hStep
  | write a result => exact hs.write hStep
  | cleaned a => exact hs.cleaned hStep
  | retire a =>
    cases hStep
    exact hs.retire a
  | cancel a =>
    obtain ⟨-, ⟨⟩⟩ := ite_none_right_eq_some.mp hStep
    exact hs.keep
  | shutdown =>
    cases hStep
    exact hs.keep
  | «open» requests => exact hs.open hStep
  | restore => exact hs.restore hStep
  | restored => exact hs.restoredStep hStep
  | connect => exact hs.connect hStep
  | leave => exact hs.leaveStep hStep
  | cleanup => exact hs.cleanup hStep
  | dial =>
    obtain ⟨⟨hMain, -⟩, ⟨⟩⟩ := ite_none_right_eq_some.mp hStep
    exact hs.idle (by rw [hMain]; rfl) rfl
  | dialFailed =>
    obtain ⟨hMain, ⟨⟩⟩ := ite_none_right_eq_some.mp hStep
    exact hs.idle (by rw [hMain]; rfl) rfl
  | install => exact hs.install hStep
  | finish => exact hs.finish hStep
  | startRecv r =>
    obtain ⟨-, ⟨⟩⟩ := ite_none_right_eq_some.mp hStep
    exact hs.receive (le_refl _) nofun (List.Subset.refl _)
  | take r => exact bind_step hStep fun _ => hs.take
  | check r => exact bind_step hStep fun _ => hs.check

end Steps

end Syntrix.Streamer
