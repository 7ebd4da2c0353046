import Syntrix.Lib.Runs
import Syntrix.Storage.DocumentStore

/-! # Versions of a document

Any number of clients run operations on one document path. Every write of a live record increments its
version, and a creation starts again with the first one. So a version names one write among those since
the last creation, and a write that asks for a version overwrites the one it names; a version that was
read before the document was deleted and created again may name another write.
-/
namespace Syntrix.Storage

open Lib Model Index List Option Function

inductive Operation where
  | create (database collection docid : Bytes) (data : Document)
  | update (data : Document) (precond : Filter)
  | patch (assign : Document → Bytes → Value → Document) (data : Document) (precond : Filter)
  | delete (precond : Filter)
  | push (database : Bytes) (change : PushChange)

def Operation.program (now : Int64) : Operation → Program Unit
  | .create database collection docid data =>
    (Storage.create (newStoredDoc database collection docid data now)).bind fun _ => .done ()
  | .update data precond => (Storage.update now data precond).bind fun _ => .done ()
  | .patch assign data precond => (Storage.patch now assign data precond).bind fun _ => .done ()
  | .delete precond => (Storage.delete now precond).bind fun _ => .done ()
  | .push database change => (pushChange now database change).bind fun _ => .done ()

/-- A committed write: which creation it follows, the version it asked for and what it overwrote. -/
structure Write where
  lifetime : Nat
  doc : StoredDoc
  base : Option Int64
  overwritten : Row

structure World where
  row : Row
  clients : Nat → Option (Program Unit)
  lifetime : Nat
  log : List Write

inductive WorldAction where
  | start (client : Nat) (operation : Operation) (now : Int64)
  | step (client : Nat)
  /-- Expired tombstones are removed. -/
  | expire

def Access.base : Access → Option Int64
  | .updateOne filter _ => filter.version
  | _ => none

def World.empty : World := ⟨none, fun _ => none, 0, []⟩

/-- Record a write; one that does not change a live record begins a new lifetime. -/
def World.commit (w : World) (a : Access) (doc : StoredDoc) : World :=
  let lifetime := if (live w.row).isNone then w.lifetime + 1 else w.lifetime
  { w with row := some doc, lifetime := lifetime, log := ⟨lifetime, doc, a.base, w.row⟩ :: w.log }

def World.step (w : World) : WorldAction → Option World
  | .start client operation now =>
    if (w.clients client).isNone then
      some { w with clients := Function.update w.clients client (some (operation.program now)) }
    else none
  | .step client =>
    match w.clients client with
    | none => none
    | some (.done _) => some { w with clients := Function.update w.clients client none }
    | some (.access a next) =>
      let w' := { w with clients := Function.update w.clients client (some (next w.row)) }
      match a.write w.row with
      | none => some w'
      | some doc => some (w'.commit a doc)
  | .expire => if w.row.any StoredDoc.deleted then some { w with row := none } else none

section Programs

/-- New records have the first version, and changes of a record leave its version alone. -/
def Access.Keeps : Access → Prop
  | .read => True
  | .insertOne doc => doc.version = 1
  | .replaceTombstone doc => doc.version = 1
  | .updateOne _ change => ∀ doc, (change doc).version = doc.version

def Program.Keeps {α : Type} : Program α → Prop
  | .done _ => True
  | .access a next => a.Keeps ∧ ∀ row, (next row).Keeps

theorem Program.Keeps.bind {α β : Type} {p : Program α} {f : α → Program β} (hp : p.Keeps) (hf : ∀ a, (f a).Keeps) :
    (p.bind f).Keeps := by
  induction p with
  | done a => exact hf a
  | access a next ih => exact ⟨hp.1, fun row => ih row (hp.2 row)⟩

theorem create_keeps {doc : StoredDoc} (h : doc.version = 1) : (create doc).Keeps := by
  refine ⟨h, fun row => ?_⟩
  dsimp only
  split
  · trivial
  refine ⟨trivial, fun row => ?_⟩
  dsimp only
  split
  · exact ⟨h, fun _ => trivial⟩
  · trivial

theorem updateMatching_keeps {filter : Filter} {change : StoredDoc → StoredDoc} {missing : Row → StoreError}
    (h : ∀ doc, (change doc).version = doc.version) : (updateMatching filter change missing).Keeps := by
  refine ⟨h, fun row => ?_⟩
  dsimp only
  split
  · trivial
  · exact ⟨trivial, fun _ => trivial⟩

theorem pushChange_keeps (now : Int64) (database : Bytes) (change : PushChange) : (pushChange now database change).Keeps := by
  have hWrite : ∀ creating, (writePushChange now database change creating).Keeps := by
    intro creating
    unfold writePushChange
    split
    · exact create_keeps rfl
    · split
      all_goals exact updateMatching_keeps fun _ => rfl
  refine ⟨trivial, fun current => ?_⟩
  dsimp only
  split
  · trivial
  split
  · trivial
  split
  · trivial
  split
  · trivial
  refine (hWrite _).bind fun result => ?_
  split
  · trivial
  split
  · trivial
  refine ⟨trivial, fun latest => ?_⟩
  dsimp only
  split
  all_goals trivial

theorem Operation.program_keeps (now : Int64) (operation : Operation) : (operation.program now).Keeps := by
  cases operation with
  | create database collection docid data => exact (create_keeps rfl).bind fun _ => trivial
  | update data precond | patch assign data precond | delete precond =>
    exact (updateMatching_keeps fun _ => rfl).bind fun _ => trivial
  | push database change => exact (pushChange_keeps now database change).bind fun _ => trivial

end Programs

section Invariant

theorem version_increment {v : Int64} (h : v ≠ Int64.maxValue) : (v + 1).toInt = v.toInt + 1 := by
  have hLower := Int64.le_toInt v
  have hUpper := Int64.toInt_lt v
  have hMax : v.toInt ≠ 2 ^ 63 - 1 := fun hEq => h (Int64.toInt_inj.mp (hEq.trans rfl))
  rw [Int64.toInt_add, Int.bmod_eq_of_le]
  · rfl
  all_goals
    have hOne : (1 : Int64).toInt = 1 := rfl
    omega

variable {doc : StoredDoc}

theorem write_spec {a : Access} (hKeeps : a.Keeps) {row : Row} (h : a.write row = some doc) :
    (live row = none ∧ doc.version = 1 ∧ a.base = none) ∨
      ∃ old, row = some old ∧ live row = some old ∧ doc.version.toInt = old.version.toInt + 1 ∧
        ∀ v ∈ a.base, old.version = v := by
  cases a with
  | read => cases h
  | insertOne new =>
    obtain ⟨hNone, h⟩ := ite_none_right_eq_some.mp h
    cases h
    rw [isNone_iff_eq_none] at hNone
    exact .inl ⟨by rw [hNone]; rfl, hKeeps, rfl⟩
  | replaceTombstone new =>
    simp only [Access.write] at h
    split at h
    · rename_i hDeleted
      cases h
      exact .inl ⟨live_of_deleted hDeleted, hKeeps, rfl⟩
    · cases h
  | updateOne filter change =>
    obtain ⟨old, hMatch, hChange⟩ := bind_eq_some_iff.mp h
    obtain ⟨hLive, hMatches⟩ := filter_eq_some_iff.mp hMatch
    obtain ⟨new, hNew, rfl⟩ := map_eq_some_iff.mp hChange
    refine .inr ⟨old, (filter_eq_some_iff.mp hLive).1, hLive, ?_, fun v hv => ?_⟩
    · obtain ⟨hMax, hNew⟩ := ite_none_left_eq_some.mp hNew
      cases hNew
      rw [hKeeps]
      exact version_increment hMax
    · rw [Filter.matches, show filter.version = some v from hv, Bool.and_eq_true] at hMatches
      simpa using hMatches.1

def Apart (x y : Write) : Prop := x.lifetime = y.lifetime → x.doc.version ≠ y.doc.version

/-- A write that asked for a version overwrote the one of its lifetime with that version. -/
def Overwrites (log : List Write) (x : Write) : Prop :=
  ∀ v ∈ x.base, ∃ y ∈ log, y.lifetime = x.lifetime ∧ y.doc.version = v ∧ x.overwritten = some y.doc

structure Versioned (w : World) : Prop where
  programs : ∀ client p, w.clients client = some p → p.Keeps
  lifetimes : ∀ x ∈ w.log, x.lifetime ≤ w.lifetime
  bounded : ∀ x ∈ w.log, x.lifetime = w.lifetime → ∀ doc ∈ w.row, x.doc.version.toInt ≤ doc.version.toInt
  latest : ∀ doc ∈ w.row, ∃ x ∈ w.log, x.lifetime = w.lifetime ∧ x.doc = doc
  apart : w.log.Pairwise Apart
  overwrites : ∀ x ∈ w.log, Overwrites w.log x

theorem versioned_empty : Versioned World.empty :=
  ⟨fun _ _ h => (by cases h), fun _ h => (by cases h), fun _ h => (by cases h), fun _ h => (by cases h), .nil,
    fun _ h => (by cases h)⟩

variable {w : World}

theorem Versioned.clients (h : Versioned w) {clients : Nat → Option (Program Unit)}
    (hClients : ∀ client p, clients client = some p → p.Keeps) : Versioned { w with clients := clients } :=
  { h with programs := hClients }

theorem keeps_update {clients : Nat → Option (Program Unit)} (h : ∀ client p, clients client = some p → p.Keeps)
    {client : Nat} {p : Option (Program Unit)} (hp : ∀ q ∈ p, q.Keeps) :
    ∀ c q, Function.update clients client p c = some q → q.Keeps := by
  intro c q hq
  rcases eq_or_ne c client with rfl | hOther
  · rw [update_self] at hq
    exact hp q hq
  · rw [update_of_ne hOther] at hq
    exact h c q hq

theorem Overwrites.cons {log : List Write} {x : Write} (h : Overwrites log x) (y : Write) : Overwrites (y :: log) x := by
  intro v hv
  obtain ⟨z, hz, hSame⟩ := h v hv
  exact ⟨z, mem_cons_of_mem _ hz, hSame⟩

theorem Versioned.commit (h : Versioned w) {a : Access} (hKeeps : a.Keeps) (hWrite : a.write w.row = some doc) :
    Versioned (w.commit a doc) := by
  obtain ⟨hNone, hVersion, hBase⟩ | ⟨old, hRow, hLive, hVersion, hBase⟩ := write_spec hKeeps hWrite
  · -- a creation: all earlier writes belong to earlier lifetimes
    have hLifetime : w.commit a doc = { w with
        row := some doc, lifetime := w.lifetime + 1, log := ⟨w.lifetime + 1, doc, a.base, w.row⟩ :: w.log } := by
      simp [World.commit, hNone]
    have hEarlier : ∀ x ∈ w.log, x.lifetime ≠ w.lifetime + 1 := by
      intro x hx hEq
      have hLe := h.lifetimes x hx
      omega
    rw [hLifetime]
    refine ⟨h.programs, ?_, ?_, fun d hd => ?_, ?_, ?_⟩
    · intro x hx
      obtain rfl | hx := mem_cons.mp hx
      · exact le_rfl
      · exact (h.lifetimes x hx).trans (Nat.le_succ _)
    · intro x hx hEq d hd
      cases hd
      obtain rfl | hx := mem_cons.mp hx
      · exact le_rfl
      · exact absurd hEq (hEarlier x hx)
    · cases hd
      exact ⟨_, mem_cons_self, rfl, rfl⟩
    · exact pairwise_cons.mpr ⟨fun x hx hEq => absurd hEq.symm (hEarlier x hx), h.apart⟩
    · intro x hx
      obtain rfl | hx := mem_cons.mp hx
      · intro v hv
        rw [show (Write.base _) = none from hBase] at hv
        cases hv
      · exact (h.overwrites x hx).cons _
  · have hLifetime : w.commit a doc = { w with row := some doc, log := ⟨w.lifetime, doc, a.base, w.row⟩ :: w.log } := by
      simp [World.commit, hLive]
    have hSmaller : ∀ x ∈ w.log, x.lifetime = w.lifetime → x.doc.version.toInt < doc.version.toInt := by
      intro x hx hEq
      have hLe := h.bounded x hx hEq old hRow
      omega
    rw [hLifetime]
    refine ⟨h.programs, ?_, ?_, fun d hd => ?_, ?_, ?_⟩
    · intro x hx
      obtain rfl | hx := mem_cons.mp hx
      · exact le_rfl
      · exact h.lifetimes x hx
    · intro x hx hEq d hd
      cases hd
      obtain rfl | hx := mem_cons.mp hx
      · exact le_rfl
      · exact (hSmaller x hx hEq).le
    · cases hd
      exact ⟨_, mem_cons_self, rfl, rfl⟩
    · refine pairwise_cons.mpr ⟨fun x hx hEq hSame => ?_, h.apart⟩
      have hLt := hSmaller x hx hEq.symm
      rw [← show doc.version = x.doc.version from hSame] at hLt
      exact lt_irrefl _ hLt
    · intro x hx
      obtain rfl | hx := mem_cons.mp hx
      · intro v hv
        obtain ⟨y, hy, hSame, hDoc⟩ := h.latest old hRow
        refine ⟨y, mem_cons_of_mem _ hy, hSame, ?_, ?_⟩
        · rw [hDoc]
          exact hBase v hv
        · rw [hDoc]
          exact hRow
      · exact (h.overwrites x hx).cons _

theorem Versioned.step (h : Versioned w) {a : WorldAction} {w' : World} (hStep : w.step a = some w') : Versioned w' := by
  cases a with
  | start client operation now =>
    simp only [World.step] at hStep
    split at hStep
    · cases hStep
      refine h.clients (keeps_update h.programs fun p hp => ?_)
      cases hp
      exact operation.program_keeps now
    · cases hStep
  | step client =>
    simp only [World.step] at hStep
    split at hStep
    · cases hStep
    · cases hStep
      exact h.clients (keeps_update h.programs fun p hp => (by cases hp))
    rename_i a next hProgram
    obtain ⟨hKeeps, hNext⟩ := h.programs client _ hProgram
    have hContinued : Versioned { w with clients := Function.update w.clients client (some (next w.row)) } := by
      refine h.clients (keeps_update h.programs fun p hp => ?_)
      cases hp
      exact hNext w.row
    split at hStep
    · cases hStep
      exact hContinued
    rename_i doc hWrite
    cases hStep
    exact hContinued.commit hKeeps hWrite
  | expire =>
    simp only [World.step] at hStep
    split at hStep
    · cases hStep
      exact { h with bounded := fun _ _ _ _ hd => (by cases hd), latest := fun _ hd => (by cases hd) }
    · cases hStep

end Invariant

/-- Since its creation a version of the document names one write. A write that asks for a version
overwrites that one. -/
theorem versions_unique_in_lifetime {actions : List WorldAction} {w : World}
    (hRun : Runs World.step (fun _ _ => True) World.empty actions w) :
    (w.log.Pairwise fun x y => x.lifetime = y.lifetime → x.doc.version ≠ y.doc.version) ∧
      ∀ x ∈ w.log, ∀ v, x.base = some v → ∃ y ∈ w.log, y.lifetime = x.lifetime ∧ y.doc.version = v ∧
        x.overwritten = some y.doc ∧ ∀ z ∈ w.log, z.lifetime = x.lifetime → z.doc.version = v → z = y := by
  have hVersioned : Versioned w := hRun.invariant versioned_empty fun _ _ _ h _ hStep => h.step hStep
  refine ⟨hVersioned.apart, fun x hx v hv => ?_⟩
  obtain ⟨y, hy, hLifetime, hVersion, hDoc⟩ := hVersioned.overwrites x hx v hv
  refine ⟨y, hy, hLifetime, hVersion, hDoc, fun z hz hSame hEq => ?_⟩
  by_contra hNe
  have hSymm : Std.Symm Apart := ⟨fun a b h hEq => (h hEq.symm).symm⟩
  exact hVersioned.apart.forall hz hy hNe (hSame.trans hLifetime.symm) (hEq.trans hVersion.symm)

variable {w w' : World}

/-! ## No write is lost -/

/-- A write stays in the store until another one takes its place, or it is a tombstone that expires. -/
def Write.Left (y : Write) (row : Row) : Prop := row = some y.doc ∨ row = none ∧ y.doc.deleted = true

/-- A write takes the place of what the one before it left, with the next version or as a new creation. -/
def Write.Follows (x y : Write) : Prop :=
  y.Left x.overwritten ∧
    if (live x.overwritten).isSome then x.lifetime = y.lifetime ∧ x.doc.version.toInt = y.doc.version.toInt + 1
    else x.lifetime = y.lifetime + 1 ∧ x.doc.version = 1

structure World.Linear (w : World) : Prop where
  chain : w.log.IsChain Write.Follows
  last : ∀ y ∈ w.log.head?, y.Left w.row
  lifetime : ∀ y ∈ w.log.head?, y.lifetime = w.lifetime

theorem linear_commit (h : w.Linear) {a : Access} (hKeeps : a.Keeps) {doc : StoredDoc} (hWrite : a.write w.row = some doc) :
    (w.commit a doc).Linear := by
  refine ⟨?_, ?_, ?_⟩
  · rw [World.commit, isChain_cons]
    refine ⟨fun y hy => ⟨h.last y hy, ?_⟩, h.chain⟩
    have hLifetime := h.lifetime y hy
    obtain ⟨hNone, hVersion, -⟩ | ⟨old, hOld, hLive, hVersion, -⟩ := write_spec hKeeps hWrite
    · simp [hNone, hLifetime, hVersion]
    · have hDoc : old = y.doc := by simpa [Write.Left, hOld] using h.last y hy
      simp [hLive, hLifetime, hVersion, hDoc]
  · rintro x ⟨⟩
    exact .inl rfl
  · rintro x ⟨⟩
    rfl

theorem linear_step (h : w.Linear) (hVersioned : Versioned w) {a : WorldAction} (hStep : w.step a = some w') : w'.Linear := by
  cases a with
  | start client operation now =>
    obtain ⟨-, hStep⟩ := ite_none_right_eq_some.mp hStep
    cases hStep
    exact { h with }
  | step client =>
    simp only [World.step] at hStep
    split at hStep
    · cases hStep
    · cases hStep
      exact { h with }
    rename_i access next hProgram
    split at hStep
    · cases hStep
      exact { h with }
    rename_i doc hWrite
    cases hStep
    exact { linear_commit h (hVersioned.programs client _ hProgram).1 hWrite with }
  | expire =>
    obtain ⟨hDeleted, hStep⟩ := ite_none_right_eq_some.mp hStep
    cases hStep
    exact { h with last := fun y hy => by have hLeft := h.last y hy; grind [Write.Left] }

/-- Whatever the clients interleave, every write took the place of the one committed before it. -/
theorem writes_linear {actions : List WorldAction} (hRun : Runs World.step (fun _ _ => True) World.empty actions w) :
    w.log.IsChain Write.Follows ∧ ∀ y ∈ w.log.head?, y.Left w.row := by
  obtain ⟨-, hLinear⟩ := hRun.invariant (I := fun w => Versioned w ∧ w.Linear)
    ⟨versioned_empty, by constructor <;> simp [World.empty]⟩
    fun _ _ _ h _ hStep => ⟨h.1.step hStep, linear_step h.2 h.1 hStep⟩
  exact ⟨hLinear.chain, hLinear.last⟩

/-- A document is created, deleted and created again; then a push asks for the first version. -/
def recreation : List WorldAction :=
  let created := Operation.create (text "db") (text "c") (text "1") []
  [.start 0 created 0, .step 0, .step 0,
    .start 0 (.delete ⟨none, fun _ => true⟩) 1, .step 0, .step 0,
    .start 1 created 2, .step 1, .step 1, .step 1, .step 1,
    .start 0 (.push (text "db") ⟨.update, some 1, text "c", text "1", []⟩) 3, .step 0, .step 0]

theorem recreation_runs : ∃ w, Runs World.step (fun _ _ => True) World.empty recreation w ∧
    w.log.map (fun x => (x.lifetime, x.doc.version, x.base)) =
      [(2, 2, some 1), (2, 1, none), (1, 2, none), (1, 1, none)] :=
  Runs.exists_of_foldlM (by decide +kernel)

theorem recreated_document_reuses_version : ∃ w, Runs World.step (fun _ _ => True) World.empty recreation w ∧
    ¬ (w.log.Pairwise fun x y => x.doc.version ≠ y.doc.version) ∧
      ∃ x ∈ w.log, ∃ y ∈ w.log, y.lifetime < x.lifetime ∧ x.base = some y.doc.version := by
  obtain ⟨w, hRun, hLog⟩ := recreation_runs
  obtain ⟨x, log, hw, hx, hLog⟩ := List.map_eq_cons_iff.mp hLog
  obtain ⟨y, log, rfl, hy, hLog⟩ := List.map_eq_cons_iff.mp hLog
  obtain ⟨z, log, rfl, hz, hLog⟩ := List.map_eq_cons_iff.mp hLog
  obtain ⟨u, log, rfl, hu, hLog⟩ := List.map_eq_cons_iff.mp hLog
  simp only [Prod.mk.injEq] at hx hy hz hu
  refine ⟨w, hRun, fun hDistinct => ?_, x, by simp [hw], u, by simp [hw], ?_, ?_⟩
  · rw [hw] at hDistinct
    exact (List.pairwise_cons.mp (List.pairwise_cons.mp hDistinct).2).1 u (by simp) (hy.2.1.trans hu.2.1.symm)
  · omega
  · rw [hx.2.2, hu.2.1]

theorem versions_unique_in_lifetime_recreation : ∃ w : World, w.log.length = 4 ∧
    (w.log.Pairwise fun x y => x.lifetime = y.lifetime → x.doc.version ≠ y.doc.version) ∧
      ∀ x ∈ w.log, ∀ v, x.base = some v → ∃ y ∈ w.log, y.lifetime = x.lifetime ∧ y.doc.version = v ∧
        x.overwritten = some y.doc ∧ ∀ z ∈ w.log, z.lifetime = x.lifetime → z.doc.version = v → z = y := by
  obtain ⟨w, hRun, hLog⟩ := recreation_runs
  exact ⟨w, by simpa using congrArg List.length hLog, versions_unique_in_lifetime hRun⟩

theorem writes_linear_recreation : ∃ w : World, w.log.length = 4 ∧ w.log.IsChain Write.Follows := by
  obtain ⟨w, hRun, hLog⟩ := recreation_runs
  exact ⟨w, by simpa using congrArg List.length hLog, (writes_linear hRun).1⟩

end Syntrix.Storage
