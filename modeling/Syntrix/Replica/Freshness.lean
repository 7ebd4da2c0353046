import Syntrix.Replica.Exchange
import Syntrix.Lib.Tables

/-! # Accepted edits and older downloads

The native protocol replaces a row that equals its assumed state by whatever is downloaded, and it does
not look at versions. A page read before a push is delivered after the push has settled, and then puts
the content back that the push has replaced.
-/
namespace Syntrix.Replica

open Lib List Option Function

/-! ## What a group of events asks for -/

namespace Exchange

def Shows (record : DataRecord) (c : Commit) : Prop :=
  record.existence = c.existence ∧ (c.deleted = false → record.payload = c.payload)

def Delivered.Tells (d : Delivered) (c : Commit) : Prop :=
  c.version = d.version ∧
    match d.event with
    | .upsert document => c.deleted = false ∧ document.payload = c.payload
    | .leave _ => True
    | .delete _ => c.deleted = true

def Delivered.From (log : Log) (d : Delivered) : Prop := ∃ c, (d.id, c) ∈ log ∧ d.Tells c

def Delivered.Asks (d : Delivered) (record : DataRecord) : Prop :=
  record.logicalId = d.id ∧
    match d.event with
    | .upsert document => record.existence = .live ∧ record.payload = document.payload
    | .leave _ => False
    | .delete _ => record.existence = .deleted

variable {record : DataRecord} {d : Delivered}

theorem Delivered.Asks.shows {c : Commit} (hAsks : d.Asks record) (hTells : d.Tells c) : Shows record c := by
  obtain ⟨event, version⟩ := d
  obtain ⟨hId, hAsks⟩ := hAsks
  obtain ⟨hVersion, hTells⟩ := hTells
  cases event with
  | upsert document =>
    refine ⟨hAsks.1.trans ?_, fun _ => hAsks.2.trans hTells.2⟩
    rw [Commit.existence, hTells.1]
    rfl
  | leave id => exact hAsks.elim
  | delete id =>
    refine ⟨hAsks.trans ?_, fun hLive => absurd (hTells.symm.trans hLive) (by decide)⟩
    rw [Commit.existence, hTells]
    rfl

variable {log : Log}

theorem From.mono (x : String × Commit) (h : d.From log) : d.From (log ++ [x]) := by
  obtain ⟨c, hMem, hTells⟩ := h
  exact ⟨c, mem_append_left _ hMem, hTells⟩

def projectionOf (p : Projection) (id : String) (group : List Delivered) : Projection :=
  (group.map Delivered.event).foldl (Projection.add id) p

def lastSetter (group : List Delivered) : Option Delivered := (group.filter fun d => !d.isLeave).getLast?

theorem projectionOf_snoc (p : Projection) (id : String) (group : List Delivered) (d : Delivered) :
    projectionOf p id (group ++ [d]) = (projectionOf p id group).add id d.event := by
  rw [projectionOf, map_append, foldl_append]
  rfl

variable {group : List Delivered}

theorem projectionOf_spec {p : Projection} {id : String} (hStart : p.desired = none)
    (hIds : ∀ d ∈ group, d.id = id) (h : (projectionOf p id group).desired = some record) :
    (projectionOf p id group).known = true ∧ ∃ d, lastSetter group = some d ∧ d.Asks record := by
  induction group using reverseRecOn with
  | nil => exact absurd (hStart.symm.trans h) nofun
  | append_singleton group d ih =>
    have hIds' : ∀ x ∈ group, x.id = id := fun x hx => hIds x (mem_append_left _ hx)
    have hId : d.id = id := hIds d (mem_append_right _ mem_cons_self)
    obtain ⟨event, version⟩ := d
    rw [projectionOf_snoc] at h ⊢
    cases event with
    | upsert document =>
      cases h
      refine ⟨rfl, ⟨.upsert document, version⟩, ?_, rfl, rfl, rfl⟩
      simp [lastSetter, Delivered.isLeave]
    | leave i =>
      have hSame : lastSetter (group ++ [⟨.leave i, version⟩]) = lastSetter group := by
        simp [lastSetter, Delivered.isLeave]
      rw [hSame]
      simp only [Projection.add] at h ⊢
      split at h
      · obtain ⟨hKnown, d, hd⟩ := ih hIds' h
        exact ⟨by rw [if_pos hKnown]; exact hKnown, d, hd⟩
      · rename_i hUnknown
        exact absurd (ih hIds' h).1 hUnknown
    | delete i =>
      have hLast : lastSetter (group ++ [⟨.delete i, version⟩]) = some ⟨.delete i, version⟩ := by
        simp [lastSetter, Delivered.isLeave]
      simp only [Projection.add] at h ⊢
      split at h
      · rename_i hKnown
        cases h
        exact ⟨by rw [if_pos hKnown]; exact hKnown, _, hLast, hId.symm, rfl⟩
      · rename_i hUnknown
        exact absurd (ih hIds' h).1 hUnknown

variable {s : State}

theorem outgoingOf_spec {generation : Nat} {out : Outgoing} (hIds : ∀ d ∈ group, ∀ e ∈ group, d.id = e.id)
    (h : outgoingOf s generation group = some out) (hDesired : out.desired = some record) :
    ∃ d ∈ group, d.id = out.id ∧ d.version = out.version ∧ d.Asks record := by
  obtain ⟨first, hFirst, h⟩ := bind_eq_some_iff.mp h
  obtain ⟨p, hProject, rfl⟩ := map_eq_some_iff.mp h
  have hFirst := mem_of_mem_head? hFirst
  simp only [project] at hProject
  split at hProject
  · cases hProject
    obtain ⟨_, d, hLast, hAsks⟩ := projectionOf_spec rfl (fun d hd => hIds d hd first hFirst) hDesired
    have hMem : d ∈ group := mem_of_mem_filter (mem_of_getLast? hLast)
    refine ⟨d, hMem, hIds d hMem first hFirst, ?_, hAsks⟩
    change _ = (lastSetter group).elim 0 Delivered.version
    rw [hLast]
    rfl
  · cases hProject

theorem eventsOf_from {matched : String → Commit → Bool} {request : Request} (h : d ∈ eventsOf matched log request) :
    d.From log := by
  cases request with
  | window ids =>
    obtain ⟨id, _, h⟩ := mem_filterMap.mp h
    obtain ⟨c, hFilter, rfl⟩ := map_eq_some_iff.mp h
    obtain ⟨hCurrent, hLive⟩ := filter_eq_some_iff.mp hFilter
    obtain ⟨⟨i, c'⟩, hLast, rfl⟩ := map_eq_some_iff.mp hCurrent
    obtain ⟨hMem, hId⟩ := mem_filter.mp (mem_of_getLast? hLast)
    cases of_decide_eq_true hId
    exact ⟨c', hMem, rfl, (Bool.not_eq_true' _).mp hLive, rfl⟩
  | changes after count =>
    obtain ⟨⟨id, c⟩, hMem, rfl⟩ := List.mem_map.mp h
    have hMem := mem_of_mem_drop (mem_of_mem_take hMem)
    simp only [eventOf]
    split
    · rename_i hDeleted
      exact ⟨c, hMem, rfl, hDeleted⟩
    rename_i hLive
    split
    · exact ⟨c, hMem, rfl, by simpa using hLive, rfl⟩
    · exact ⟨c, hMem, rfl, trivial⟩

theorem groupById_spec {events : List Delivered} (h : group ∈ groupById Delivered.id events) :
    (∀ d ∈ group, d ∈ events) ∧ ∀ d ∈ group, ∀ e ∈ group, d.id = e.id := by
  obtain ⟨i, _, rfl⟩ := List.mem_map.mp h
  refine ⟨fun d hd => mem_of_mem_filter hd, fun d hd e he => ?_⟩
  exact (of_decide_eq_true (mem_filter.mp hd).2).trans (of_decide_eq_true (mem_filter.mp he).2).symm

/-! ## Every row and every delivery comes from the log -/

/-- What is on its way, and every row that was downloaded, holds what the server committed at the version
noted for it; the other rows were written by an edit. -/
structure Backed (s : State) : Prop where
  page : ∀ page ∈ s.page, ∀ group ∈ page.groups, (∀ d ∈ group, d.From s.log) ∧ ∀ d ∈ group, ∀ e ∈ group, d.id = e.id
  outgoing : ∀ out ∈ s.outgoing, ∀ record, out.desired = some record →
    ∃ c, (out.id, c) ∈ s.log ∧ c.version = out.version ∧ Shows record c
  downloaded : ∀ id w, s.provenance id = some w → ∃ row c, s.rows id = some row ∧ (id, c) ∈ s.log ∧ c.version = w ∧
    Shows row.record c
  edited : ∀ id row, s.provenance id = none → s.rows id = some row → row.origin = none

theorem Backed.start : Backed start where
  page _ h := (not_mem_none _ h).elim
  outgoing _ h := (not_mem_nil h).elim
  downloaded _ _ h := by cases h
  edited _ _ _ h := by cases h

theorem Backed.commit (h : Backed s) (x : String × Commit) : Backed { s with log := s.log ++ [x] } where
  page page hPage group hGroup :=
    ⟨fun d hd => From.mono x ((h.page page hPage group hGroup).1 d hd), (h.page page hPage group hGroup).2⟩
  outgoing out hOut record hDesired := by
    obtain ⟨c, hMem, hc⟩ := h.outgoing out hOut record hDesired
    exact ⟨c, mem_append_left _ hMem, hc⟩
  downloaded id w hw := by
    obtain ⟨row, c, hRow, hMem, hc⟩ := h.downloaded id w hw
    exact ⟨row, c, hRow, mem_append_left _ hMem, hc⟩
  edited := h.edited

section Runs

variable {matched : String → Commit → Bool} {merge : String → String → String} {s s' : State}

variable {id : String}

variable {mutation : Mutation} {now token : Nat}

theorem Backed.edit (h : Backed s) (hStep : editStep merge s id token now mutation = some s') : Backed s' := by
  unfold editStep at hStep
  split at hStep
  · cases hStep
    refine ⟨h.page, h.outgoing, fun i w hw => ?_, fun i row hNone hRow => ?_⟩ <;>
      dsimp only at *
    · obtain ⟨-, ⟨⟩⟩ | ⟨hi, hw⟩ := update_eq_some_iff.mp hw
      rw [update_of_ne hi]
      exact h.downloaded i w hw
    · obtain ⟨-, ⟨⟩⟩ | ⟨hi, hRow⟩ := update_eq_some_iff.mp hRow
      · rfl
      · rw [update_of_ne hi] at hNone
        exact h.edited i row hNone hRow
  · cases hStep
    exact h
  · cases hStep

theorem Backed.dispatch (h : Backed s) (hStep : dispatchStep s id = some s') : Backed s' := by
  obtain ⟨change, _, hStep⟩ := bind_eq_some_iff.mp hStep
  obtain ⟨op, _, rfl⟩ := map_eq_some_iff.mp hStep
  cases serve (current s.log id) op with
  | written commit => exact { h.commit (id, commit) with }
  | unchanged | conflict => exact { h with }

theorem Backed.deliver {count : Nat} (h : Backed s) (hStep : deliverStep s count = some s') : Backed s' := by
  unfold deliverStep at hStep
  split at hStep
  · rename_i page hPage _
    cases hStep
    refine ⟨fun page' hPage' group hGroup => ?_, fun out hOut record hDesired => ?_, h.downloaded, h.edited⟩
    · cases hPage'
      exact h.page page hPage group (mem_of_mem_drop hGroup)
    · obtain ⟨group, hGroup, hOut⟩ := mem_filterMap.mp hOut
      obtain ⟨hFrom, hIds⟩ := h.page page hPage group (mem_of_mem_take hGroup)
      obtain ⟨d, hMem, hId, hVersion, hAsks⟩ := outgoingOf_spec hIds hOut hDesired
      obtain ⟨c, hLog, hTells⟩ := hFrom d hMem
      exact ⟨c, hId ▸ hLog, hTells.1.trans hVersion, hAsks.shows hTells⟩
  · cases hStep

theorem Backed.apply (h : Backed s) (hStep : applyStep s now = some s') : Backed s' := by
  unfold applyStep at hStep
  split at hStep
  · cases hStep
  rename_i out rest hOut
  have hRest : ∀ o ∈ rest, o ∈ s.outgoing := fun o ho => hOut ▸ mem_cons_of_mem _ ho
  have hRest : Backed { s with outgoing := rest } := { h with outgoing := fun o ho => h.outgoing o (hRest o ho) }
  split at hStep
  · rename_i record hDesired
    split at hStep
    · cases hStep
      refine ⟨hRest.page, hRest.outgoing, fun i w hw => ?_, fun i row hNone hRow => ?_⟩ <;>
    dsimp only at *
      · obtain ⟨rfl, ⟨⟩⟩ | ⟨hi, hw⟩ := update_eq_some_iff.mp hw
        · rw [update_self]
          obtain ⟨c, hLog, hVersion, hShows⟩ := h.outgoing out (hOut ▸ mem_cons_self) record hDesired
          exact ⟨_, c, rfl, hLog, hVersion, hShows⟩
        · rw [update_of_ne hi]
          exact h.downloaded i w hw
      · obtain ⟨hi, hNone⟩ := update_eq_none hNone
        rw [update_of_ne hi] at hRow
        exact h.edited i row hNone hRow
    · cases hStep
      exact { hRest with }
  · cases hStep
    exact { hRest with }

theorem Backed.finish {activate : Bool} (h : Backed s) (hStep : finishStep s activate = some s') : Backed s' := by
  unfold finishStep at hStep
  split at hStep
  · cases hStep
    exact ⟨nofun, h.outgoing, h.downloaded, h.edited⟩
  · cases hStep

variable {a : Action}

theorem Backed.step (h : Backed s) (hStep : step matched merge s a = some s') : Backed s' := by
  cases a with
  | remote id op =>
    simp only [Exchange.step] at hStep
    split at hStep
    · cases hStep
      exact h.commit _
    · cases hStep
      exact h
  | edit id token now mutation => exact h.edit hStep
  | begin id | preflight id =>
    simp only [Exchange.step, beginStep, preflightStep] at hStep
    split at hStep
    · obtain ⟨_, hStep⟩ := ite_none_right_eq_some.mp hStep
      cases hStep
      exact { h with }
    · cases hStep
  | dispatch id => exact h.dispatch hStep
  | settle id =>
    obtain ⟨change, _, _, ⟨⟩⟩ := bind_guard hStep
    exact { h with }
  | abandon id =>
    cases hStep
    exact { h with }
  | fetch generation request =>
    obtain ⟨_, hStep⟩ := ite_none_right_eq_some.mp hStep
    cases hStep
    refine ⟨fun page hPage group hGroup => ?_, h.outgoing, h.downloaded, h.edited⟩
    cases hPage
    obtain ⟨hMem, hIds⟩ := groupById_spec hGroup
    exact ⟨fun d hd => eventsOf_from (hMem d hd), hIds⟩
  | deliver count => exact h.deliver hStep
  | apply now => exact h.apply hStep
  | finish activate => exact h.finish hStep
  | restart =>
    cases hStep
    exact ⟨fun _ hPage => (not_mem_none _ hPage).elim, fun _ hOut => (not_mem_nil hOut).elim, h.downloaded, h.edited⟩

/-! ## Keeping what was accepted -/

/-- No row holds content the server committed below a version it accepted an edit at. -/
def Kept (s : State) : Prop :=
  ∀ id v, (id, v) ∈ s.accepted → ∀ w, s.provenance id = some w → v ≤ w

def Served.version : Served → Option Nat
  | .written commit => some commit.version
  | _ => none

/-- A row is replaced only by content committed at or above every version accepted for the document, and
an edit is accepted only at a version that the row, if it was downloaded, has reached. -/
def Fresh (s : State) : Action → Prop
  | .apply _ => ∀ out ∈ s.outgoing.head?, ∀ record ∈ out.desired,
      replaces (s.rows out.id) (s.assumed out.id) record = true → ∀ x ∈ s.accepted, x.1 = out.id → x.2 ≤ out.version
  | .dispatch id => ∀ change ∈ s.changes id, ∀ op ∈ operationOf change, ∀ v ∈ (serve (current s.log id) op).version,
      ∀ w ∈ s.provenance id, v ≤ w
  | _ => True

instance (s : State) (a : Action) : Decidable (Fresh s a) := by
  cases a <;> unfold Fresh <;> infer_instance

theorem kept_of_edit (h : Kept s) (hStep : editStep merge s id token now mutation = some s') : Kept s' := by
  unfold editStep at hStep
  split at hStep
  · cases hStep
    intro i v hAccepted w hw
    obtain ⟨-, ⟨⟩⟩ | ⟨-, hw⟩ := update_eq_some_iff.mp hw
    exact h i v hAccepted w hw
  · cases hStep
    exact h
  · cases hStep

theorem kept_dispatch_iff (h : Kept s) (hStep : dispatchStep s id = some s') : Kept s' ↔ Fresh s (.dispatch id) := by
  obtain ⟨change, hChange, hStep⟩ := bind_eq_some_iff.mp hStep
  obtain ⟨op, hOp, rfl⟩ := map_eq_some_iff.mp hStep
  have hFresh : Fresh s (.dispatch id) ↔ ∀ v ∈ (serve (current s.log id) op).version, ∀ w ∈ s.provenance id, v ≤ w := by
    simp only [Fresh, hChange, mem_some_iff, forall_eq', hOp]
  rw [hFresh]
  cases serve (current s.log id) op with
  | written commit =>
    constructor
    · intro hKept v hv w hw
      cases hv
      exact hKept id commit.version (mem_append_right _ mem_cons_self) w hw
    · intro hVersion i v hAccepted w hw
      rcases mem_append.mp hAccepted with hBefore | hNew
      · exact h i v hBefore w hw
      · cases mem_singleton.mp hNew
        exact hVersion commit.version rfl w hw
  | unchanged | conflict => exact iff_of_true h fun _ hv => (not_mem_none _ hv).elim

theorem kept_apply_iff (h : Kept s) (hStep : applyStep s now = some s') : Kept s' ↔ Fresh s (.apply now) := by
  unfold applyStep at hStep
  split at hStep
  · cases hStep
  rename_i out rest hOut
  have hHead : ∀ o, o ∈ s.outgoing.head? ↔ out = o := fun o => by
    rw [hOut]
    exact some_inj
  split at hStep
  · rename_i record hDesired
    split at hStep
    · rename_i hReplaces
      cases hStep
      constructor
      · rintro hKept o ho record' _ _ ⟨i, v⟩ hAccepted rfl
        cases (hHead o).mp ho
        exact hKept out.id v hAccepted out.version (update_self ..)
      · intro hFresh i v hAccepted w hw
        rcases update_eq_some_iff.mp hw with ⟨rfl, ⟨⟩⟩ | ⟨-, hw⟩
        · exact hFresh out ((hHead out).mpr rfl) record hDesired hReplaces (out.id, v) hAccepted rfl
        · exact h i v hAccepted w hw
    · rename_i hIgnored
      cases hStep
      refine ⟨fun _ o ho record' hRecord hReplaces => ?_, fun _ => h⟩
      cases (hHead o).mp ho
      cases hDesired.symm.trans hRecord
      exact absurd hReplaces hIgnored
  · rename_i hNone
    cases hStep
    refine ⟨fun _ o ho record' hRecord => ?_, fun _ => h⟩
    cases (hHead o).mp ho
    cases hNone.symm.trans hRecord

theorem kept_step_iff (h : Kept s) (hStep : step matched merge s a = some s') : Kept s' ↔ Fresh s a := by
  cases a with
  | dispatch id => exact kept_dispatch_iff h hStep
  | apply now => exact kept_apply_iff h hStep
  | edit id token now mutation => exact iff_of_true (kept_of_edit h hStep) trivial
  | remote id op =>
    refine iff_of_true ?_ trivial
    simp only [Exchange.step] at hStep
    split at hStep <;> cases some.inj hStep <;> exact h
  | begin id | preflight id =>
    refine iff_of_true ?_ trivial
    simp only [Exchange.step, beginStep, preflightStep] at hStep
    split at hStep
    · obtain ⟨_, hStep⟩ := ite_none_right_eq_some.mp hStep
      cases hStep
      exact h
    · cases hStep
  | settle id =>
    refine iff_of_true ?_ trivial
    obtain ⟨change, _, _, ⟨⟩⟩ := bind_guard hStep
    exact h
  | fetch generation request =>
    refine iff_of_true ?_ trivial
    obtain ⟨_, hStep⟩ := ite_none_right_eq_some.mp hStep
    cases hStep
    exact h
  | deliver count | finish activate =>
    refine iff_of_true ?_ trivial
    simp only [Exchange.step, deliverStep, finishStep] at hStep
    split at hStep <;> cases hStep
    exact h
  | abandon id | restart =>
    cases hStep
    exact iff_of_true h trivial

theorem kept_start : Kept start := fun _ _ h => (not_mem_nil h).elim

/-- What a read shows is the last local edit, or content committed at or above every version an edit was
accepted at. -/
def Shown (s : State) (id : String) (doc : ReplicaDocument) : Prop :=
  (∃ row, s.rows id = some row ∧ row.origin = none) ∨
    ∃ c, (id, c) ∈ s.log ∧ doc.payload = (if c.deleted then none else some c.payload) ∧ ∀ v, (id, v) ∈ s.accepted → v ≤ c.version

theorem shown_of_read {doc : ReplicaDocument} (hBacked : Backed s) (hKept : Kept s)
    (hRead : s.read id = some doc) : Shown s id doc := by
  unfold State.read Replica.read at hRead
  split at hRead
  · cases hRead
  obtain ⟨row, hRow, hDoc⟩ := bind_eq_some_iff.mp hRead
  cases hProvenance : s.provenance id with
  | none => exact .inl ⟨row, hRow, hBacked.edited id row hProvenance hRow⟩
  | some w =>
    obtain ⟨row', c, hRow', hLog, hVersion, hExistence, hPayload⟩ := hBacked.downloaded id w hProvenance
    refine .inr ⟨c, hLog, ?_, fun v hAccepted => hVersion ▸ hKept id v hAccepted w hProvenance⟩
    rw [Commit.existence] at hExistence
    obtain ⟨_, hDoc⟩ := ite_none_left_eq_some.mp hDoc
    cases hDoc
    cases hDeleted : c.deleted with
    | false | true => simp_all

end Runs

/-- A window is read, a push settles between its deliveries, and the rest of the window follows. -/
def interruptedWindow : List Action :=
  [.remote "x" ⟨.create, "X", none⟩, .remote "y" ⟨.create, "A", none⟩,
    .fetch 0 (.window ["x", "y"]), .deliver 2, .apply 1, .apply 2, .finish true,
    .edit "y" 7 3 (.set "B"),
    .fetch 1 (.window ["x", "y"]), .deliver 1, .apply 4,
    .begin "y", .dispatch "y", .settle "y",
    .deliver 1, .apply 5]

/-- The same window read once the push has settled, after another client has written. -/
def orderlyWindow : List Action :=
  [.remote "y" ⟨.create, "A", none⟩, .fetch 0 (.window ["y"]), .deliver 1, .apply 1, .finish true,
    .edit "y" 7 2 (.set "B"), .begin "y", .dispatch "y", .settle "y",
    .remote "y" ⟨.update, "C", some 2⟩, .fetch 1 (.window ["y"]), .deliver 1, .apply 3]

end Exchange

end Syntrix.Replica
