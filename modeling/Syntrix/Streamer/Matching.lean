import Syntrix.Lib.Result
import Syntrix.Lib.Lists
import Syntrix.Streamer.Manager

/-! # Exact matching

Every list of the manager holds the registered subscriptions that belong in it, in the order in which they
were made. What a match returns is therefore a matter of the registered subscriptions alone.
-/
namespace Syntrix.Streamer

open Lib List Option KeyValue Bool

namespace Manager

section Lists

variable (m : Manager) (sub : Subscriber) (database collection docID : Bytes)

def exactBucket : List Subscriber :=
  (m.exactMatches[database]?.bind fun databaseMap => databaseMap[collection]?.bind fun collMap => collMap[docID]?).getD []

def expressionBucket : List ExpressionSubscriber :=
  (m.expressions[database]?.bind fun databaseMap => databaseMap[collection]?).getD []

theorem exactBucket_addExactMatch : (m.addExactMatch sub).exactBucket database collection docID =
    m.exactBucket database collection docID ++
      if sub.under database collection = true ∧ sub.getDocumentID = docID then [sub] else [] := by
  unfold exactBucket addExactMatch Subscriber.under
  rw [bind_insert]
  by_cases hDatabase : sub.database = database
  · subst hDatabase
    rw [if_pos rfl, bind_insert]
    by_cases hCollection : sub.collection = collection
    · subst hCollection
      rw [if_pos rfl, KeyValue.getElem?_insert]
      by_cases hKey : sub.getDocumentID = docID
      · subst hKey
        simp [getElem?_getD_empty, bind_assoc]
      · simp [getElem?_getD_empty, bind_assoc, hKey]
    · simp [KeyValue.getElem?_getD_empty, bind_assoc, hCollection]
  · simp [hDatabase]

theorem removeExactMatch_frame : m.removeExactMatch sub = { m with exactMatches := (m.removeExactMatch sub).exactMatches } := by
  unfold removeExactMatch
  split
  · rfl
  · split <;> rfl

theorem removeExpressionMatch_frame :
    m.removeExpressionMatch sub = { m with expressions := (m.removeExpressionMatch sub).expressions } := by
  unfold removeExpressionMatch
  split <;> rfl

theorem exactBucket_removeExactMatch : (m.removeExactMatch sub).exactBucket database collection docID =
    if sub.under database collection = true ∧ sub.getDocumentID = docID then
      (m.exactBucket database collection docID).eraseP fun s => decide (s.id = sub.id)
    else m.exactBucket database collection docID := by
  cases hDatabaseMap : m.exactMatches[sub.database]? with
  | none =>
    simp only [removeExactMatch, hDatabaseMap]
    by_cases hDatabase : sub.database = database
    · subst hDatabase
      simp [exactBucket, hDatabaseMap]
    · simp [Subscriber.under, hDatabase]
  | some databaseMap =>
    cases hCollMap : databaseMap[sub.collection]? with
    | none =>
      simp only [removeExactMatch, hDatabaseMap, hCollMap]
      by_cases hUnder : sub.database = database ∧ sub.collection = collection
      · obtain ⟨rfl, rfl⟩ := hUnder
        simp [exactBucket, hDatabaseMap, hCollMap]
      · simp [Subscriber.under, hUnder]
    | some collMap =>
      simp only [removeExactMatch, hDatabaseMap, hCollMap, exactBucket]
      rw [bind_keep _ _ _ _ fun hEmpty => by rw [Std.TreeMap.getElem?_of_isEmpty hEmpty]; rfl]
      by_cases hDatabase : sub.database = database
      · subst hDatabase
        rw [if_pos rfl, bind_keep _ _ _ _ fun hEmpty => by exact Std.TreeMap.getElem?_of_isEmpty hEmpty, hDatabaseMap, bind_some]
        by_cases hCollection : sub.collection = collection
        · subst hCollection
          rw [if_pos rfl, getD_keep, hCollMap, bind_some]
          by_cases hKey : sub.getDocumentID = docID
          · simp [Subscriber.under, hKey]
          · simp [hKey]
        · simp [Subscriber.under, hCollection]
      · simp [Subscriber.under, hDatabase]

theorem expressionBucket_addExpressionMatch {m' : Manager} (h : m.addExpressionMatch sub = .ok m') :
    ∃ program, m.compileProtoFilters sub.filters = .ok program ∧ m'.expressionBucket database collection =
      m.expressionBucket database collection ++ if sub.under database collection = true then [⟨sub, program⟩] else [] := by
  obtain ⟨program, hProgram, rfl⟩ := map_eq_ok h
  refine ⟨program, hProgram, ?_⟩
  unfold expressionBucket Subscriber.under
  rw [bind_insert]
  by_cases hDatabase : sub.database = database
  · subst hDatabase
    rw [if_pos rfl, KeyValue.getElem?_insert]
    by_cases hCollection : sub.collection = collection
    · subst hCollection
      simp [getElem?_getD_empty]
    · simp [getElem?_getD_empty, hCollection]
  · simp [hDatabase]

theorem expressionBucket_removeExpressionMatch : (m.removeExpressionMatch sub).expressionBucket database collection =
    if sub.under database collection = true then
      (m.expressionBucket database collection).eraseP fun s => decide (s.subscriber.id = sub.id)
    else m.expressionBucket database collection := by
  cases hDatabaseMap : m.expressions[sub.database]? with
  | none =>
    simp only [removeExpressionMatch, hDatabaseMap]
    by_cases hDatabase : sub.database = database
    · subst hDatabase
      simp [expressionBucket, hDatabaseMap]
    · simp [Subscriber.under, hDatabase]
  | some databaseMap =>
    simp only [removeExpressionMatch, hDatabaseMap, expressionBucket]
    rw [bind_keep _ _ _ _ fun hEmpty => by exact Std.TreeMap.getElem?_of_isEmpty hEmpty]
    by_cases hDatabase : sub.database = database
    · subst hDatabase
      rw [if_pos rfl, getD_keep, hDatabaseMap, bind_some]
      by_cases hCollection : sub.collection = collection
      all_goals simp [Subscriber.under, hCollection]
    · simp [Subscriber.under, hDatabase]

end Lists

/-! ## What the lists hold -/

structure Indexed (m : Manager) (subs : List Subscriber) : Prop where
  unique : (subs.map Subscriber.id).Nodup
  all : ∀ id sub, m.allSubs[id]? = some sub ↔ sub ∈ subs ∧ sub.id = id
  exact : ∀ database collection docID, m.exactBucket database collection docID =
    subs.filter fun s => s.inExact && s.under database collection && decide (s.getDocumentID = docID)
  expression : ∀ database collection, (m.expressionBucket database collection).map ExpressionSubscriber.subscriber =
    subs.filter fun s => !s.inExact && s.under database collection
  compiled : ∀ database collection, ∀ e ∈ m.expressionBucket database collection,
    m.compileProtoFilters e.subscriber.filters = .ok e.program

def Held (m : Manager) (subs : List Subscriber) : Prop :=
  ∀ gatewayID id sub, (m.subscriptionsOf gatewayID)[id]? = some sub ↔ sub ∈ subs ∧ sub.gatewayID = gatewayID ∧ sub.id = id

section Steps

variable {m : Manager} {subs : List Subscriber} {sub : Subscriber}

theorem Indexed.isSome_iff (h : m.Indexed subs) (id : Bytes) : m.allSubs[id]?.isSome = true ↔ id ∈ subs.map Subscriber.id := by
  rw [isSome_iff_exists, List.mem_map]
  exact exists_congr (h.all id)

theorem nodup_map_concat (h : (subs.map Subscriber.id).Nodup) (hFresh : sub.id ∉ subs.map Subscriber.id) :
    ((subs ++ [sub]).map Subscriber.id).Nodup := by
  rw [map_append]
  exact pairwise_push h fun id hId hSame => hFresh (hSame ▸ hId)

theorem all_concat (h : m.Indexed subs) (hFresh : sub.id ∉ subs.map Subscriber.id) (id : Bytes) (s : Subscriber) :
    (m.allSubs.insert sub.id sub)[id]? = some s ↔ s ∈ subs ++ [sub] ∧ s.id = id := by
  rw [KeyValue.getElem?_insert, mem_append, mem_singleton]
  split
  · rename_i hId
    subst hId
    refine ⟨fun hs => ⟨.inr (some.inj hs).symm, by rw [some.inj hs]⟩, ?_⟩
    rintro ⟨hs | rfl, hId⟩
    · exact absurd (hId ▸ List.mem_map_of_mem hs) hFresh
    · rfl
  · rename_i hId
    rw [h.all]
    refine ⟨fun hs => ⟨.inl hs.1, hs.2⟩, ?_⟩
    rintro ⟨hs | rfl, hs'⟩
    · exact ⟨hs, hs'⟩
    · exact absurd hs' hId

theorem Indexed.addExactMatch (h : m.Indexed subs) (hFresh : sub.id ∉ subs.map Subscriber.id) (hExact : sub.inExact = true) :
    ((m.note sub).addExactMatch sub).Indexed (subs ++ [sub]) where
  unique := nodup_map_concat h.unique hFresh
  all := all_concat h hFresh
  exact database collection docID := by
    rw [exactBucket_addExactMatch, filter_append, ← h.exact]
    congr 1
    by_cases hKey : sub.under database collection = true ∧ sub.getDocumentID = docID
    · simp [hExact, hKey]
    · rw [if_neg hKey]
      simpa [hExact] using hKey
  expression database collection := by
    rw [filter_append, ← h.expression]
    simp [hExact, expressionBucket, Manager.addExactMatch, note]
  compiled database collection := h.compiled database collection

theorem Indexed.addExpressionMatch {m' : Manager} (h : m.Indexed subs) (hFresh : sub.id ∉ subs.map Subscriber.id)
    (hExact : sub.inExact = false) (hAdd : (m.note sub).addExpressionMatch sub = .ok m') : m'.Indexed (subs ++ [sub]) := by
  have hBucket := fun database collection => expressionBucket_addExpressionMatch (m.note sub) sub database collection hAdd
  obtain ⟨program, -, rfl⟩ := map_eq_ok hAdd
  refine ⟨nodup_map_concat h.unique hFresh, all_concat h hFresh, ?_, ?_, ?_⟩
  · intro database collection docID
    rw [filter_append, ← h.exact]
    simp [hExact, exactBucket, note]
  · intro database collection
    obtain ⟨program, -, hEq⟩ := hBucket database collection
    rw [hEq, map_append, filter_append, ← h.expression]
    congr 1
    by_cases hKey : sub.under database collection = true
    all_goals simp [hExact, hKey]
  · intro database collection e he
    obtain ⟨program, hProgram, hEq⟩ := hBucket database collection
    rw [hEq, mem_append] at he
    rcases he with he | he
    · exact h.compiled database collection e he
    split at he
    · obtain rfl := mem_singleton.mp he
      exact hProgram
    · cases he

theorem filter_id_ne (h : (subs.map Subscriber.id).Nodup) (hSub : sub ∈ subs) {p : Subscriber → Bool} (hOther : p sub = false) :
    (subs.filter fun s => decide (s.id ≠ sub.id)).filter p = subs.filter p := by
  rw [List.filter_filter]
  refine filter_congr fun s hs => ?_
  by_cases hId : s.id = sub.id
  · rw [inj_on_of_nodup_map h hs hSub hId, hOther, Bool.false_and]
  · simp [hId]

theorem filter_eraseP (h : (subs.map Subscriber.id).Nodup) (p : Subscriber → Bool) (id : Bytes) :
    (subs.filter p).eraseP (fun s => decide (s.id = id)) = (subs.filter fun s => decide (s.id ≠ id)).filter p := by
  rw [eraseP_key (h.sublist (filter_sublist.map _)), List.filter_filter, List.filter_filter]
  exact filter_congr fun s _ => and_comm _ _

theorem all_erase (h : m.Indexed subs) (dropped id : Bytes) (s : Subscriber) :
    (m.allSubs.erase dropped)[id]? = some s ↔ s ∈ subs.filter (fun s => decide (s.id ≠ dropped)) ∧ s.id = id := by
  rw [getElem?_erase, mem_filter, decide_eq_true_iff]
  split
  · rename_i hId
    exact ⟨fun hs => (by cases hs), fun hs => absurd (hs.2.trans hId.symm) hs.1.2⟩
  rename_i hId
  rw [h.all]
  exact ⟨fun hs => ⟨⟨hs.1, fun hs' => hId (hs'.symm.trans hs.2)⟩, hs.2⟩, fun hs => ⟨hs.1.1, hs.2⟩⟩

theorem Indexed.removeMatch (h : m.Indexed subs) (hSub : sub ∈ subs) :
    ((m.removeMatch sub).forget sub.id).Indexed (subs.filter fun s => decide (s.id ≠ sub.id)) := by
  have hUnique : ((subs.filter fun s => decide (s.id ≠ sub.id)).map Subscriber.id).Nodup :=
    h.unique.sublist (filter_sublist.map _)
  cases hExact : sub.inExact with
  | true =>
    have hRemove : m.removeMatch sub = m.removeExactMatch sub :=
      if_pos (by simpa [Subscriber.inExact, List.isEmpty_iff, length_eq_zero_iff] using hExact)
    have hOthers := removeExactMatch_frame m sub
    rw [hRemove]
    refine ⟨hUnique, ?_, ?_, ?_, ?_⟩
    · intro id s
      rw [hOthers]
      exact all_erase h sub.id id s
    · intro database collection docID
      refine (exactBucket_removeExactMatch m sub database collection docID).trans ?_
      rw [h.exact]
      split
      · exact filter_eraseP h.unique _ sub.id
      rename_i hKey
      refine (filter_id_ne h.unique hSub ?_).symm
      simpa [hExact] using hKey
    · intro database collection
      rw [hOthers]
      exact (h.expression database collection).trans (filter_id_ne h.unique hSub (by rw [hExact]; rfl)).symm
    · rw [hOthers]
      exact h.compiled
  | false =>
    have hRemove : m.removeMatch sub = m.removeExpressionMatch sub :=
      if_neg (by simpa [Subscriber.inExact, List.isEmpty_iff, length_eq_zero_iff] using hExact)
    have hOthers := removeExpressionMatch_frame m sub
    have hBucket := expressionBucket_removeExpressionMatch m sub
    rw [hRemove]
    refine ⟨hUnique, ?_, ?_, ?_, ?_⟩
    · intro id s
      rw [hOthers]
      exact all_erase h sub.id id s
    · intro database collection docID
      rw [hOthers]
      exact (h.exact database collection docID).trans (filter_id_ne h.unique hSub (by rw [hExact]; rfl)).symm
    · intro database collection
      refine (congrArg _ (hBucket database collection)).trans ?_
      split
      · have hErased := filter_eraseP h.unique (fun s => !s.inExact && s.under database collection) sub.id
        rw [← h.expression, eraseP_map] at hErased
        exact hErased
      · rename_i hKey
        refine (h.expression database collection).trans (filter_id_ne h.unique hSub ?_).symm
        simpa [hExact] using hKey
    · intro database collection e he
      have hMem : e ∈ (m.removeExpressionMatch sub).expressionBucket database collection := he
      rw [hBucket] at hMem
      have hOld : e ∈ m.expressionBucket database collection := by
        split at hMem
        · exact mem_of_mem_eraseP hMem
        · exact hMem
      rw [hOthers]
      exact h.compiled database collection e hOld

theorem removeMatch_frame : (m.removeMatch sub).gateways = m.gateways ∧ (m.removeMatch sub).celCompiler = m.celCompiler := by
  unfold removeMatch
  split
  · rw [removeExactMatch_frame]
    exact ⟨rfl, rfl⟩
  · rw [removeExpressionMatch_frame]
    exact ⟨rfl, rfl⟩

theorem Indexed.removeAll (h : m.Indexed subs) {listed : List Subscriber} (hUnique : (listed.map Subscriber.id).Nodup)
    (hListed : ∀ sub ∈ listed, sub ∈ subs) :
    (listed.foldl (fun m sub => (m.removeMatch sub).forget sub.id) m).Indexed
      (subs.filter fun s => decide (s.id ∉ listed.map Subscriber.id)) := by
  induction listed generalizing m subs with
  | nil => simpa using h
  | cons sub listed ih =>
    obtain ⟨hFresh, hUnique⟩ := nodup_cons.mp hUnique
    have hRest : ∀ s ∈ listed, s ∈ subs.filter fun s => decide (s.id ≠ sub.id) := by
      intro s hs
      refine mem_filter.mpr ⟨hListed s (mem_cons_of_mem _ hs), decide_eq_true fun hId => hFresh ?_⟩
      rw [← hId]
      exact List.mem_map_of_mem hs
    have hAll := ih (h.removeMatch (hListed sub mem_cons_self)) hUnique hRest
    rw [List.filter_filter] at hAll
    rw [foldl_cons]
    convert hAll using 3 with s
    simp [Bool.and_comm]

theorem removeAll_frame (listed : List Subscriber) : let m' := listed.foldl (fun m sub => (m.removeMatch sub).forget sub.id) m
    m'.gateways = m.gateways ∧ m'.celCompiler = m.celCompiler := by
  induction listed generalizing m with
  | nil => exact ⟨rfl, rfl⟩
  | cons sub listed ih =>
    obtain ⟨hGateways, hCompiler⟩ := @removeMatch_frame m sub
    obtain ⟨hGateways', hCompiler'⟩ := @ih ((m.removeMatch sub).forget sub.id)
    exact ⟨hGateways'.trans hGateways, hCompiler'.trans hCompiler⟩

/-! ## What the gateways hold -/

theorem Held.note (h : m.Held subs) (hFresh : sub.id ∉ subs.map Subscriber.id) : (m.note sub).Held (subs ++ [sub]) := by
  intro gatewayID id s
  unfold subscriptionsOf Manager.note
  rw [getElem?_getD_empty, bind_insert, mem_append, mem_singleton]
  by_cases hGateway : sub.gatewayID = gatewayID
  · subst hGateway
    rw [if_pos rfl, KeyValue.getElem?_insert]
    by_cases hId : sub.id = id
    · subst hId
      rw [if_pos rfl, some_inj]
      constructor
      · rintro rfl
        exact ⟨.inr rfl, rfl, rfl⟩
      · rintro ⟨hs | rfl, -, hId⟩
        · exact absurd (hId ▸ List.mem_map_of_mem hs) hFresh
        · rfl
    · rw [if_neg hId]
      refine (h sub.gatewayID id s).trans (and_congr_left fun hs => ?_)
      refine (or_iff_left ?_).symm
      rintro rfl
      exact hId hs.2
  · rw [if_neg hGateway, ← getElem?_getD_empty]
    refine (h gatewayID id s).trans (and_congr_left fun hs => ?_)
    refine (or_iff_left ?_).symm
    rintro rfl
    exact hGateway hs.1

theorem Held.erase (h : m.Held subs) (sub : Subscriber) (hSub : ∀ s ∈ subs, s.id = sub.id → s.gatewayID = sub.gatewayID) :
    ({ m with gateways := m.gateways.insert sub.gatewayID ((m.subscriptionsOf sub.gatewayID).erase sub.id) } : Manager).Held
      (subs.filter fun s => decide (s.id ≠ sub.id)) := by
  intro gatewayID id s
  rw [mem_filter, decide_eq_true_iff]
  show ((m.gateways.insert sub.gatewayID ((m.subscriptionsOf sub.gatewayID).erase sub.id))[gatewayID]?.getD ∅)[id]? = some s ↔ _
  rw [getElem?_getD_empty, bind_insert]
  by_cases hGateway : sub.gatewayID = gatewayID
  · subst hGateway
    rw [if_pos rfl, getElem?_erase]
    by_cases hId : sub.id = id
    · rw [if_pos hId]
      exact ⟨fun hs => (by cases hs), fun hs => absurd (hs.2.2.trans hId.symm) hs.1.2⟩
    · rw [if_neg hId, h]
      exact ⟨fun hs => ⟨⟨hs.1, fun hs' => hId (hs'.symm.trans hs.2.2)⟩, hs.2⟩, fun hs => ⟨hs.1.1, hs.2⟩⟩
  · rw [if_neg hGateway, ← getElem?_getD_empty]
    refine (h gatewayID id s).trans ⟨fun hs => ⟨⟨hs.1, fun hId => hGateway ?_⟩, hs.2⟩, fun hs => ⟨hs.1.1, hs.2⟩⟩
    exact (hSub s hs.1 hId).symm.trans hs.2.1

theorem Held.unregister (h : m.Held subs) (gateway : Bytes) :
    ({ m with gateways := m.gateways.erase gateway } : Manager).Held (subs.filter fun s => decide (s.gatewayID ≠ gateway)) := by
  intro gatewayID id s
  rw [mem_filter, decide_eq_true_iff]
  show ((m.gateways.erase gateway)[gatewayID]?.getD ∅)[id]? = some s ↔ _
  rw [getElem?_erase]
  by_cases hGateway : gateway = gatewayID
  · subst hGateway
    rw [if_pos rfl]
    exact ⟨fun hs => (by cases Std.TreeMap.getElem?_emptyc.symm.trans hs), fun hs => absurd hs.2.1 hs.1.2⟩
  · rw [if_neg hGateway]
    refine (h gatewayID id s).trans ⟨fun hs => ⟨⟨hs.1, fun hs' => hGateway (hs'.symm.trans hs.2.1)⟩, hs.2⟩, fun hs => ⟨hs.1.1, hs.2⟩⟩

/-! ## Calls -/

structure Sound (m : Manager) (subs : List Subscriber) : Prop extends m.Indexed subs where
  held : m.Held subs

/-- Subscriptions are registered by a successful call and leave with their ID or their gateway. -/
def registered (m : Manager) (subs : List Subscriber) : ManagerCall → List Subscriber
  | .subscribe gatewayID req => if (m.subscribe gatewayID req).2.success then subs ++ [newSubscriber gatewayID req] else subs
  | .unsubscribe subscriptionID => subs.filter fun s => decide (s.id ≠ subscriptionID)
  | .unregisterGateway gatewayID _ => subs.filter fun s => decide (s.gatewayID ≠ gatewayID)

theorem subscribe_cases (m : Manager) (gatewayID : Bytes) (req : SubscribeRequest) (r : Manager × SubscribeResponse)
    (hCall : m.subscribe gatewayID req = r) : let sub := newSubscriber gatewayID req
    (m.allSubs[req.subscriptionId]?.isSome = true ∧ r.1 = m ∧ r.2.success = false) ∨
      m.allSubs[req.subscriptionId]?.isSome = false ∧
        ((sub.inExact = true ∧ r.1 = (m.note sub).addExactMatch sub ∧ r.2.success = true) ∨
          (sub.inExact = false ∧ (m.note sub).addExpressionMatch sub = .ok r.1 ∧ r.2.success = true) ∨
          (sub.inExact = false ∧ (∃ err, m.compileProtoFilters sub.filters = .error err) ∧ r.1 = (m.note sub).rollback sub ∧
            r.2.success = false)) := by
  intro sub
  subst hCall
  unfold subscribe
  split
  · rename_i hExists
    exact .inl ⟨hExists, rfl, rfl⟩
  rename_i hExists
  refine .inr ⟨not_eq_true _ ▸ hExists, ?_⟩
  dsimp only
  split
  · rename_i hMatch
    exact .inl ⟨by rw [Subscriber.inExact, hMatch, Bool.true_or], rfl, rfl⟩
  rename_i hMatch
  split
  · rename_i hFilters
    have hExact : sub.inExact = false := by
      simp only [Subscriber.inExact, or_eq_false_iff, isEmpty_eq_false_iff]
      exact ⟨not_eq_true _ ▸ hMatch, length_pos_iff.mp hFilters⟩
    cases hAdd : (m.note sub).addExpressionMatch sub with
    | ok m' => exact .inr (.inl ⟨hExact, rfl, rfl⟩)
    | error err =>
      refine .inr (.inr ⟨hExact, ?_, rfl, rfl⟩)
      unfold addExpressionMatch at hAdd
      cases hCompile : m.compileProtoFilters sub.filters with
      | error err => exact ⟨err, rfl⟩
      | ok program =>
        have hNoted : (m.note sub).compileProtoFilters sub.filters = .ok program := hCompile
        rw [hNoted] at hAdd
        cases hAdd
  · rename_i hFilters
    refine .inl ⟨?_, rfl, rfl⟩
    have hEmpty : sub.filters = [] := eq_nil_of_length_eq_zero (Nat.eq_zero_of_not_pos hFilters)
    rw [Subscriber.inExact, hEmpty, isEmpty_nil, Bool.or_true]

theorem Indexed.rollback (h : m.Indexed subs) (hFresh : sub.id ∉ subs.map Subscriber.id) : ((m.note sub).rollback sub).Indexed subs := by
  refine { h with all := ?_ }
  intro id s
  show ((m.allSubs.insert sub.id sub).erase sub.id)[id]? = some s ↔ _
  rw [KeyValue.getElem?_erase, KeyValue.getElem?_insert, ← h.all]
  by_cases hId : sub.id = id
  · rw [if_pos hId, h.all]
    refine ⟨fun hs => (by cases hs), fun hs => absurd ?_ hFresh⟩
    rw [hId, ← hs.2]
    exact List.mem_map_of_mem hs.1
  · rw [if_neg hId, if_neg hId]

theorem filter_id_ne_of_fresh {id : Bytes} (hFresh : id ∉ subs.map Subscriber.id) : subs.filter (fun s => decide (s.id ≠ id)) = subs := by
  refine filter_eq_self.mpr fun s hs => decide_eq_true ?_
  rintro rfl
  exact hFresh (List.mem_map_of_mem hs)

theorem Held.rollback (h : m.Held subs) (hFresh : sub.id ∉ subs.map Subscriber.id) : ((m.note sub).rollback sub).Held subs := by
  have hErased := (h.note hFresh).erase sub fun s hs hId => ?_
  · rw [filter_append, filter_id_ne_of_fresh hFresh, filter_cons_of_neg (by simp), filter_nil, append_nil] at hErased
    exact hErased
  · rcases mem_append.mp hs with hs | hs
    · exact absurd (hId ▸ List.mem_map_of_mem hs) hFresh
    · rw [mem_singleton.mp hs]

theorem Sound.subscribe (h : m.Sound subs) (gatewayID : Bytes) (req : SubscribeRequest) :
    (m.subscribe gatewayID req).1.Sound (m.registered subs (.subscribe gatewayID req)) := by
  rw [registered]
  obtain ⟨-, hSame, hFail⟩ | ⟨hNew, hCase⟩ := subscribe_cases m gatewayID req _ rfl
  · rw [hFail, hSame]
    exact h
  have hFresh : (newSubscriber gatewayID req).id ∉ subs.map Subscriber.id := by
    rw [← h.isSome_iff]
    exact eq_false_iff.mp hNew
  obtain ⟨hExact, hNext, hDone⟩ | ⟨hExact, hNext, hDone⟩ | ⟨-, -, hNext, hFail⟩ := hCase
  · rw [hDone, hNext]
    exact ⟨h.addExactMatch hFresh hExact, h.held.note hFresh⟩
  · rw [hDone]
    refine ⟨h.addExpressionMatch hFresh hExact hNext, ?_⟩
    have hHeld := h.held.note hFresh
    obtain ⟨program, -, hEq⟩ := map_eq_ok hNext
    rw [← hEq]
    exact hHeld
  · rw [hFail, hNext]
    exact ⟨h.rollback hFresh, h.held.rollback hFresh⟩

theorem Sound.unsubscribe (h : m.Sound subs) (subscriptionID : Bytes) :
    (m.unsubscribe subscriptionID).1.Sound (m.registered subs (.unsubscribe subscriptionID)) := by
  unfold Manager.unsubscribe registered
  cases hFound : m.allSubs[subscriptionID]? with
  | none =>
    dsimp only
    have hFresh : subscriptionID ∉ subs.map Subscriber.id := by
      rw [← h.isSome_iff, hFound]
      exact false_ne_true
    rwa [filter_id_ne_of_fresh hFresh]
  | some sub =>
    dsimp only
    obtain ⟨hSub, rfl⟩ := (h.all _ _).mp hFound
    have hGateway : (m.subscriptionsOf sub.gatewayID)[sub.id]? = some sub := (h.held _ _ _).mpr ⟨hSub, rfl, rfl⟩
    cases hGw : m.gateways[sub.gatewayID]? with
    | none =>
      rw [subscriptionsOf, hGw] at hGateway
      cases Std.TreeMap.getElem?_emptyc.symm.trans hGateway
    | some gw =>
      have hIndexed : ({ m with gateways := m.gateways.insert sub.gatewayID (gw.erase sub.id) } : Manager).Indexed subs :=
        { h with }
      have hHeld := h.held.erase sub fun s hs hId => by rw [inj_on_of_nodup_map h.unique hs hSub hId]
      refine ⟨hIndexed.removeMatch hSub, ?_⟩
      rw [subscriptionsOf, hGw] at hHeld
      intro gatewayID id s
      show (Option.getD (Manager.gateways (Manager.removeMatch _ sub))[gatewayID]? ∅)[id]? = some s ↔ _
      rw [removeMatch_frame.1]
      exact hHeld gatewayID id s

variable {gatewayID : Bytes}

theorem Held.listed (h : m.Held subs) {listed : List Subscriber}
    (hListed : listed.Perm ((m.subscriptionsOf gatewayID).toList.map Prod.snd)) :
    (listed.map Subscriber.id).Nodup ∧ ∀ s, s ∈ listed ↔ s ∈ subs ∧ s.gatewayID = gatewayID := by
  have hKeys : ∀ x ∈ (m.subscriptionsOf gatewayID).toList, x.2 ∈ subs ∧ x.2.gatewayID = gatewayID ∧ x.2.id = x.1 :=
    fun x hx => (h gatewayID x.1 x.2).mp (mem_toList.mp hx)
  refine ⟨(hListed.map Subscriber.id).nodup_iff.mpr ?_, fun s => ?_⟩
  · rw [List.map_map, Nodup, pairwise_map]
    refine (toList_sorted _).imp_of_mem fun {x y} hx hy hLt hSame => hLt.ne ?_
    rw [← (hKeys x hx).2.2, ← (hKeys y hy).2.2]
    exact hSame
  · rw [hListed.mem_iff, List.mem_map]
    constructor
    · rintro ⟨x, hx, rfl⟩
      exact ⟨(hKeys x hx).1, (hKeys x hx).2.1⟩
    · rintro ⟨hs, hGateway⟩
      exact ⟨(s.id, s), mem_toList.mpr ((h gatewayID s.id s).mpr ⟨hs, hGateway, rfl⟩), rfl⟩

theorem Sound.unregisterGateway (h : m.Sound subs) {listed : List Subscriber}
    (hListed : listed.Perm ((m.subscriptionsOf gatewayID).toList.map Prod.snd)) :
    (m.unregisterGateway gatewayID listed).Sound (subs.filter fun s => decide (s.gatewayID ≠ gatewayID)) := by
  obtain ⟨hUnique, hMem⟩ := h.held.listed hListed
  unfold Manager.unregisterGateway
  cases hGw : m.gateways[gatewayID]? with
  | none =>
    have hNone : subs.filter (fun s => decide (s.gatewayID ≠ gatewayID)) = subs := by
      refine filter_eq_self.mpr fun s hs => decide_eq_true fun hGateway => ?_
      have hHeld := (h.held gatewayID s.id s).mpr ⟨hs, hGateway, rfl⟩
      rw [subscriptionsOf, hGw] at hHeld
      cases Std.TreeMap.getElem?_emptyc.symm.trans hHeld
    rwa [hNone]
  | some gw =>
    dsimp only
    have hDropped : subs.filter (fun s => decide (s.gatewayID ≠ gatewayID)) =
        subs.filter fun s => decide (s.id ∉ listed.map Subscriber.id) := by
      refine filter_congr fun s hs => decide_eq_decide.mpr (not_congr ⟨fun hGateway => ?_, fun hId => ?_⟩)
      · exact List.mem_map_of_mem ((hMem s).mpr ⟨hs, hGateway⟩)
      · obtain ⟨s', hs', hSame⟩ := List.mem_map.mp hId
        obtain ⟨hs', hGateway⟩ := (hMem s').mp hs'
        rwa [← inj_on_of_nodup_map h.unique hs' hs hSame]
    have hIndexed := h.removeAll hUnique fun s hs => ((hMem s).mp hs).1
    rw [← hDropped] at hIndexed
    refine ⟨{ hIndexed with }, ?_⟩
    rw [(removeAll_frame listed).1]
    exact h.held.unregister gatewayID

variable {call : ManagerCall}

theorem Sound.apply (h : m.Sound subs) (hPossible : m.Possible call) : (m.apply call).Sound (m.registered subs call) := by
  cases call with
  | subscribe gatewayID req => exact h.subscribe gatewayID req
  | unsubscribe subscriptionID => exact h.unsubscribe subscriptionID
  | unregisterGateway gatewayID listed => exact h.unregisterGateway hPossible

theorem celCompiler_apply (call : ManagerCall) : (m.apply call).celCompiler = m.celCompiler := by
  cases call with
  | subscribe gatewayID req =>
    obtain ⟨-, hNext, -⟩ | ⟨-, ⟨-, hNext, -⟩ | ⟨-, hNext, -⟩ | ⟨-, -, hNext, -⟩⟩ := subscribe_cases m gatewayID req _ rfl
    · exact (congrArg celCompiler hNext).trans rfl
    · exact (congrArg celCompiler hNext).trans rfl
    · obtain ⟨program, -, hEq⟩ := map_eq_ok hNext
      exact (congrArg celCompiler hEq.symm).trans rfl
    · exact (congrArg celCompiler hNext).trans rfl
  | unsubscribe subscriptionID =>
    unfold apply Manager.unsubscribe
    dsimp only
    split
    · rfl
    · exact removeMatch_frame.2
  | unregisterGateway gatewayID listed =>
    unfold apply Manager.unregisterGateway
    dsimp only
    split
    · rfl
    · exact (removeAll_frame listed).2

/-! ## Runs -/

def applyAll (m : Manager) (calls : List ManagerCall) : Manager := calls.foldl apply m

def registeredAll (m : Manager) (subs : List Subscriber) : List ManagerCall → List Subscriber
  | [] => subs
  | call :: calls => (m.apply call).registeredAll (m.registered subs call) calls

def PossibleAll (m : Manager) : List ManagerCall → Prop
  | [] => True
  | call :: calls => m.Possible call ∧ (m.apply call).PossibleAll calls

theorem Sound.applyAll (h : m.Sound subs) {calls : List ManagerCall} (hPossible : m.PossibleAll calls) :
    (m.applyAll calls).Sound (m.registeredAll subs calls) := by
  induction calls generalizing m subs with
  | nil => exact h
  | cons call calls ih => exact ih (h.apply hPossible.1) hPossible.2

theorem Sound.new (celCompiler : Option CELCompiler) : (Manager.new celCompiler).Sound [] where
  unique := nodup_nil
  all id sub := by simp [Manager.new]
  exact database collection docID := by simp [Manager.new, exactBucket]
  expression database collection := by simp [Manager.new, expressionBucket]
  compiled database collection e he := by simp [Manager.new, expressionBucket] at he
  held gatewayID id sub := by simp [Manager.new, subscriptionsOf]

theorem Indexed.success_iff (h : m.Indexed subs) (gatewayID : Bytes) (req : SubscribeRequest) :
    (m.subscribe gatewayID req).2.success = true ↔ req.subscriptionId ∉ subs.map Subscriber.id ∧
      ((newSubscriber gatewayID req).inExact = true ∨ ∃ program, m.compileProtoFilters req.filters = .ok program) := by
  rw [← h.isSome_iff]
  obtain ⟨hExists, -, hFail⟩ | ⟨hNew, ⟨hExact, -, hDone⟩ | ⟨-, hNext, hDone⟩ | ⟨hExact, ⟨err, hCompile⟩, -, hFail⟩⟩ :=
    subscribe_cases m gatewayID req _ rfl
  · simp [hExists, hFail]
  · simp [hNew, hDone, hExact]
  · obtain ⟨program, hProgram, -⟩ := map_eq_ok hNext
    rw [hDone, hNew]
    exact iff_of_true rfl ⟨false_ne_true, .inr ⟨program, hProgram⟩⟩
  · have hFilters : m.compileProtoFilters req.filters = .error err := hCompile
    simp [hFail, hExact, hFilters]

section Same

variable {m' : Manager}

theorem Sound.registered_eq (h : m.Sound subs) (h' : m'.Sound subs) (hCompiler : m.celCompiler = m'.celCompiler) (call : ManagerCall) :
    m.registered subs call = m'.registered subs call := by
  cases call with
  | subscribe gatewayID req =>
    have hSame : (m.subscribe gatewayID req).2.success = (m'.subscribe gatewayID req).2.success := by
      rw [Bool.eq_iff_iff, h.success_iff, h'.success_iff, compileProtoFilters, hCompiler]
      rfl
    rw [registered, registered, hSame]
  | unsubscribe subscriptionID => rfl
  | unregisterGateway gatewayID listed => rfl

theorem Sound.possible (h : m.Sound subs) (h' : m'.Sound subs) {call : ManagerCall} (hPossible : m.Possible call) : m'.Possible call := by
  cases call with
  | subscribe gatewayID req | unsubscribe subscriptionID => trivial
  | unregisterGateway gatewayID listed =>
    have hNodup : ∀ gw : GatewaySubscriptions, gw.toList.Nodup :=
      fun gw => (toList_sorted gw).imp fun hLt hSame => hLt.ne (congrArg Prod.fst hSame)
    refine Perm.trans hPossible (Perm.map _ ((perm_ext_iff_of_nodup (hNodup _) (hNodup _)).mpr ?_))
    rintro ⟨id, sub⟩
    rw [KeyValue.mem_toList, KeyValue.mem_toList, h.held, h'.held]

theorem Sound.registeredAll_eq (h : m.Sound subs) (h' : m'.Sound subs) (hCompiler : m.celCompiler = m'.celCompiler)
    {calls : List ManagerCall} (hPossible : m.PossibleAll calls) :
    m'.PossibleAll calls ∧ m.registeredAll subs calls = m'.registeredAll subs calls := by
  induction calls generalizing m m' subs with
  | nil => exact ⟨trivial, rfl⟩
  | cons call calls ih =>
    have hCall := h.possible h' hPossible.1
    have hEq := h.registered_eq h' hCompiler call
    have hNext := h'.apply hCall
    rw [← hEq] at hNext
    obtain ⟨hRest, hAll⟩ := ih (h.apply hPossible.1) hNext (by rw [celCompiler_apply, celCompiler_apply, hCompiler]) hPossible.2
    refine ⟨⟨hCall, hRest⟩, ?_⟩
    rw [registeredAll, registeredAll, hAll, hEq]

end Same

theorem celCompiler_applyAll (calls : List ManagerCall) : (m.applyAll calls).celCompiler = m.celCompiler := by
  induction calls generalizing m with
  | nil => rfl
  | cons call calls ih => exact ih.trans (celCompiler_apply call)

theorem Indexed.registered_of_fails (h : m.Indexed subs) (hFails : m.Fails call) : m.registered subs call = subs := by
  cases call with
  | subscribe gatewayID req =>
    have hFail : (m.subscribe gatewayID req).2.success = false := hFails
    rw [registered, hFail, if_neg Bool.false_ne_true]
  | unsubscribe subscriptionID =>
    have hMissing : m.allSubs[subscriptionID]? = none := by
      unfold Fails Manager.unsubscribe at hFails
      dsimp only at hFails
      split at hFails
      · assumption
      · cases hFails
    refine filter_id_ne_of_fresh ?_
    rw [← h.isSome_iff, hMissing]
    exact false_ne_true
  | unregisterGateway gatewayID listed => cases hFails

end Steps

end Manager

end Syntrix.Streamer
