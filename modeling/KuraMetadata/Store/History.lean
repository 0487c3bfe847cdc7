import KuraMetadata.Store.Restore

/-! # The event history as a record of the data

Folding the retained events over the values as they were at some revision gives the values of
now, and every event tells the binding it has replaced. -/

namespace KuraMetadata

variable {s t : InMemoryMetadataStore} {calls : List Call} {initial : Int}

namespace InMemoryMetadataStore

open Std List

variable {values values' : ValueMap} {events : List WatchEvent} {s s' : InMemoryMetadataStore}
variable {batch : Option EventBatch} {compact : Int} {history : List EventBatch}

/-! ## Replaying events -/

/-- One event over the values: fails if the event's previous value is not what the key is bound
to. -/
def applyEvent (values : ValueMap) (event : WatchEvent) : Option ValueMap :=
  match event.mutation with
  | .put current previous =>
    if values[current.key]? = previous then some (values.insert current.key current) else none
  | .erase previous =>
    if values[previous.key]? = some previous then some (values.erase previous.key) else none

def replay (values : ValueMap) (events : List WatchEvent) : Option ValueMap :=
  events.foldlM applyEvent values

theorem replay_append {events' : List WatchEvent} (h : replay values events = some values') :
    replay values (events ++ events') = replay values' events' := by
  rw [replay, foldlM_append, show events.foldlM applyEvent values = some values' from h]
  rfl

theorem replay_snoc {event : WatchEvent} (h : replay values events = some values') :
    replay values (events ++ [event]) = applyEvent values' event := by
  rw [replay_append h, replay, foldlM_cons]
  exact bind_pure _

/-- Edits do to the values what their events say. -/
theorem Edits.replay {revision : Int} {leases leases' : LeaseMap}
    (edits : Edits revision values leases events values' leases') (index : Indexed values leases) :
    replay values events = some values' := by
  induction edits with
  | nil => rfl
  | put edits _ _ _ _ _ ih =>
    rw [replay_snoc ih]
    exact if_pos rfl
  | erase edits bound _ ih =>
    have hkey := (index.edits edits).keyed bound
    rw [replay_snoc ih]
    show (if _ then _ else _) = _
    rw [hkey, if_pos bound]

/-- A cleanup's events delete its values one by one. -/
theorem replay_eraseEvents {revision : Int} {deleted : List KeyValue}
    (distinct : deleted.Pairwise fun a b => a.key ≠ b.key)
    (bound : ∀ value ∈ deleted, values[value.key]? = some value) :
    replay values (eraseEvents revision deleted) = some (eraseValues values deleted) := by
  induction deleted generalizing values with
  | nil => rfl
  | cons value deleted ih =>
    rw [pairwise_cons] at distinct
    have hfirst : applyEvent values ⟨revision, .erase value⟩ = some (values.erase value.key) :=
      if_pos (bound value mem_cons_self)
    show (applyEvent values ⟨revision, .erase value⟩ >>= fun values =>
      replay values (eraseEvents revision deleted)) = _
    rw [hfirst]
    refine ih distinct.2 fun later hlater => ?_
    rw [ExtTreeMap.getElem?_erase_of_ne (distinct.1 later hlater)]
    exact bound later (mem_cons_of_mem _ hlater)

/-- The events a call has published. -/
def batchEvents (batch : Option EventBatch) : List WatchEvent := (batch.map (·.events)).getD []

theorem Change.replay (change : Change s batch s') (index : Indexed s.values s.leases) :
    replay s.values (batchEvents batch) = some s'.values := by
  rcases change with change | watchers
  swap
  · rfl
  cases change with
  | ticked _ | granted _ _ _ _ _ | renewed _ _ _ => rfl
  | edited _ _ edits => exact edits.replay index
  | cleaned _ _ distinct found =>
    refine replay_eraseEvents (sortedByKey_distinct index distinct found) fun value hvalue => ?_
    exact ((mem_sortedByKey index found).mp hvalue).1

/-! ## The retained batches -/

/-- The batches after a revision. -/
def batchesAfter (revision : Int) (history : List EventBatch) : List EventBatch :=
  history.filter fun batch => revision < batch.revision

theorem batchesAfter_append (revision : Int) (history history' : List EventBatch) :
    batchesAfter revision (history ++ history')
      = batchesAfter revision history ++ batchesAfter revision history' :=
  filter_append _ _

section

variable {revision : Int} (h : Consecutive compact history revision)
include h

theorem Consecutive.le : compact ≤ revision := by
  induction history generalizing compact with
  | nil => exact Int.le_of_eq h
  | cons first history ih =>
    have := ih h.2.2
    omega

theorem Consecutive.mem {batch : EventBatch} (hbatch : batch ∈ history) :
    compact < batch.revision ∧ batch.revision ≤ revision
      ∧ ∀ event ∈ batch.events, event.revision = batch.revision := by
  induction history generalizing compact with
  | nil => cases hbatch
  | cons first history ih =>
    obtain ⟨hfirst, hevents, hrest⟩ := h
    rcases mem_cons.mp hbatch with rfl | hbatch
    · exact ⟨by omega, hfirst ▸ hrest.le, hevents⟩
    · obtain ⟨hlt, hle, hevents⟩ := ih hrest hbatch
      exact ⟨by omega, hle, hevents⟩

theorem Consecutive.pairwise :
    history.Pairwise fun earlier later => earlier.revision < later.revision := by
  induction history generalizing compact with
  | nil => exact List.Pairwise.nil
  | cons first history ih =>
    obtain ⟨hfirst, -, hrest⟩ := h
    refine pairwise_cons.mpr ⟨fun later hlater => ?_, ih hrest⟩
    rw [hfirst]
    exact (hrest.mem hlater).1

theorem Consecutive.batchesAfter_self : batchesAfter revision history = [] := by
  refine filter_eq_nil_iff.mpr fun batch hbatch => ?_
  have := (h.mem hbatch).2.1
  simpa using this

/-- Trimming only raises the compact revision, and drops only batches up to it. -/
theorem Consecutive.trim_batchesAfter (limit : Nat) (bound : Int) :
    compact ≤ (trimHistory limit compact history).1
      ∧ ((trimHistory limit compact history).1 ≤ bound →
        batchesAfter bound (trimHistory limit compact history).2 = batchesAfter bound history) := by
  induction history generalizing compact with
  | nil => exact ⟨le_rfl, fun _ => rfl⟩
  | cons batch history ih =>
    obtain ⟨hbatch, -, hrest⟩ := h
    unfold trimHistory
    split
    · obtain ⟨hle, hkept⟩ := ih hrest
      rw [hbatch]
      refine ⟨by omega, fun hbound => ?_⟩
      rw [hkept hbound, batchesAfter, batchesAfter, filter_cons_of_neg]
      simp only [decide_eq_true_eq]
      omega
    · exact ⟨le_rfl, fun _ => rfl⟩

end

/-- A publication appends its batch, and what it drops is not after the compact revision. -/
theorem WellFormed.publish_batchesAfter (h : WellFormed initial s) (bound : Int)
    (hevents : ∀ event ∈ events, event.revision = s.revision + 1) :
    s.compactRevision ≤ (s.stageWatchPublication ⟨s.revision + 1, events⟩).compactRevision
      ∧ ((s.stageWatchPublication ⟨s.revision + 1, events⟩).compactRevision ≤ bound →
        batchesAfter bound (s.stageWatchPublication ⟨s.revision + 1, events⟩).history
          = batchesAfter bound (s.history ++ [⟨s.revision + 1, events⟩])) := by
  have happended : Consecutive s.compactRevision (s.history ++ [⟨s.revision + 1, events⟩])
      (s.revision + 1) := h.history.append rfl hevents
  exact happended.trim_batchesAfter s.limits.maxWatchHistoryRevisions bound

theorem Change.batchesAfter (change : Change s batch s') (h : WellFormed initial s) (bound : Int) :
    s.compactRevision ≤ s'.compactRevision ∧ (s'.compactRevision ≤ bound →
        batchesAfter bound s'.history = batchesAfter bound (s.history ++ batch.toList)) := by
  rcases change with change | watchers
  swap
  · exact ⟨le_rfl, fun _ => by rw [Option.toList_none, append_nil]⟩
  cases change with
  | ticked _ | granted _ _ _ _ _ | renewed _ _ _ =>
    exact ⟨le_rfl, fun _ => by rw [Option.toList_none, append_nil]⟩
  | edited _ _ edits => exact h.publish_batchesAfter bound edits.event_revision
  | cleaned => exact h.publish_batchesAfter bound eraseEvents_revision

theorem Change.revision (change : Change s batch s') :
    s'.revision = s.revision ∧ batch = none
      ∨ s'.revision = s.revision + 1 ∧ ∃ events, batch = some ⟨s.revision + 1, events⟩
        ∧ ∀ event ∈ events, event.revision = s.revision + 1 := by
  rcases change with change | watchers
  swap
  · exact .inl ⟨rfl, rfl⟩
  cases change with
  | ticked _ | granted _ _ _ _ _ | renewed _ _ _ => exact .inl ⟨rfl, rfl⟩
  | edited _ _ edits => exact .inr ⟨rfl, _, rfl, edits.event_revision⟩
  | cleaned => exact .inr ⟨rfl, _, rfl, eraseEvents_revision⟩

/-! ## The dates of a key -/

/-- When the key of a value was created, how often it was put since, and when it was put last. -/
def KeyValue.dates (value : KeyValue) : Int × Int × Int :=
  (value.createRevision, value.version, value.modRevision)

/-- What an event makes of the dates of a key, by its kind and its revision alone. -/
def dateEvent (key : ByteSequence) (dates : Option (Int × Int × Int)) (event : WatchEvent) :
    Option (Int × Int × Int) :=
  match event.mutation with
  | .put current _ =>
    if current.key = key then
      some ((dates.map (·.1)).getD event.revision, (dates.map (·.2.1 + 1)).getD 1, event.revision)
    else dates
  | .erase previous => if previous.key = key then none else dates

theorem Edits.dates {revision : Int} {leases leases' : LeaseMap}
    (edits : Edits revision values leases events values' leases') (index : Indexed values leases)
    (key : ByteSequence) :
    values'[key]?.map KeyValue.dates
      = events.foldl (dateEvent key) (values[key]?.map KeyValue.dates) := by
  induction edits with
  | nil => rfl
  | @put events values' _ _ _ changed value leaseId edits _ _ _ _ _ ih =>
    rw [foldl_concat, ← ih]
    by_cases hkey : changed = key
    · subst hkey
      rw [ExtTreeMap.getElem?_insert_self]
      cases h : values'[changed]? <;> simp [dateEvent, putEvent, rebind, KeyValue.dates, h]
    · rw [ExtTreeMap.getElem?_insert_of_ne hkey]
      simp [dateEvent, putEvent, rebind, hkey]
  | @erase events values' _ _ changed erased edits bound _ ih =>
    rw [foldl_concat, ← ih]
    have hchanged := (index.edits edits).keyed bound
    by_cases hkey : changed = key
    · subst hkey
      simp [dateEvent, hchanged]
    · rw [ExtTreeMap.getElem?_erase_of_ne hkey]
      simp [dateEvent, hchanged, hkey]

theorem eraseEvents_dates {revision : Int} (deleted : List KeyValue) (key : ByteSequence) :
    (eraseValues values deleted)[key]?.map KeyValue.dates
      = (eraseEvents revision deleted).foldl (dateEvent key) (values[key]?.map KeyValue.dates) := by
  induction deleted generalizing values with
  | nil => rfl
  | cons value deleted ih =>
    refine ih.trans ?_
    rw [eraseEvents, eraseEvents, map_cons, foldl_cons]
    congr 1
    by_cases hkey : value.key = key
    · simp [dateEvent, hkey]
    · rw [ExtTreeMap.getElem?_erase_of_ne hkey]
      simp [dateEvent, hkey]

theorem Change.dates (change : Change s batch s') (index : Indexed s.values s.leases)
    (key : ByteSequence) :
    s'.values[key]?.map KeyValue.dates
      = (batchEvents batch).foldl (dateEvent key) (s.values[key]?.map KeyValue.dates) := by
  rcases change with change | watchers
  swap
  · rfl
  cases change with
  | ticked _ | granted _ _ _ _ _ | renewed _ _ _ => rfl
  | edited _ _ edits => exact edits.dates index key
  | cleaned _ _ _ _ => exact eraseEvents_dates _ key

end InMemoryMetadataStore

/-! ## Runs -/

open InMemoryMetadataStore

/-- The batches the calls have published. -/
def published (calls : List Call) : List EventBatch := calls.filterMap Call.batch

theorem filterMap_snoc {α β : Type} (f : α → Option β) (l : List α) (a : α) :
    (l ++ [a]).filterMap f = l.filterMap f ++ (f a).toList := by
  rw [List.filterMap_append]
  cases h : f a with
  | none | some b => simp [h]

theorem published_snoc (calls : List Call) (call : Call) :
    published (calls ++ [call]) = published calls ++ call.batch.toList :=
  filterMap_snoc Call.batch calls call

/-- The batches of a run take its revision from its first to its last. -/
theorem Run.consecutive (run : Run s calls t) :
    Consecutive s.revision (published calls) t.revision := by
  induction run with
  | nil => rfl
  | @snoc calls t run operation ih =>
    rw [published_snoc]
    rcases (Call.mk t operation).change.revision with
      ⟨hrevision, hnone⟩ | ⟨hrevision, events, hsome, hevents⟩
    · rw [hnone, Option.toList_none, List.append_nil, hrevision]
      exact ih
    · rw [hsome, Option.toList_some, hrevision]
      exact ih.append rfl hevents

theorem Run.revision_le (run : Run s calls t) : s.revision ≤ t.revision :=
  run.consecutive.le

theorem published_append (calls calls' : List Call) :
    published (calls ++ calls') = published calls ++ published calls' :=
  List.filterMap_append

theorem Run.batchesAfter_published (run : Run s calls t) :
    batchesAfter s.revision (published calls) = published calls :=
  List.filter_eq_self.mpr fun batch hbatch => by
    simpa using (run.consecutive.mem hbatch).1

/-- The batches published since a state record what has happened to the values since. -/
theorem Run.replays (run : Run s calls t) (h : WellFormed initial s) :
    replay s.values ((published calls).flatMap (·.events)) = some t.values := by
  induction run with
  | nil => rfl
  | @snoc calls t run operation ih =>
    rw [published_snoc, List.flatMap_append, replay_append ih,
      ← (Call.mk t operation).change.replay (run.wellFormed h).index]
    cases (Call.mk t operation).batch with
    | none => rfl
    | some batch => simp [batchEvents]

/-- The history holds every batch of the run that has not been compacted. -/
theorem Run.batchesAfter (run : Run s calls t) (h : WellFormed initial s) (bound : Int) :
    s.compactRevision ≤ t.compactRevision ∧ (t.compactRevision ≤ bound →
        batchesAfter bound t.history = batchesAfter bound (s.history ++ published calls)) := by
  induction run with
  | nil => exact ⟨le_rfl, fun _ => by rw [published, List.filterMap_nil, List.append_nil]⟩
  | @snoc calls t run operation ih =>
    obtain ⟨hle, hbatches⟩ := ih
    obtain ⟨hle', hbatches'⟩ := (Call.mk t operation).change.batchesAfter (run.wellFormed h) bound
    refine ⟨hle.trans hle', fun hcompact => ?_⟩
    rw [hbatches' hcompact, published_snoc, ← List.append_assoc, batchesAfter_append,
      hbatches (hle'.trans hcompact), ← batchesAfter_append]

theorem Call.revision_after (call : Call) :
    call.after.revision = call.before.revision
      ∨ call.after.revision = call.before.revision + 1 := by
  rcases call.change.revision with ⟨h, -⟩ | ⟨h, -⟩
  · exact .inl h
  · exact .inr h

/-- A run passes through every revision from its first to its last. -/
theorem Run.visits (run : Run s calls t) {revision : Int} (hle : s.revision ≤ revision)
    (hge : revision ≤ t.revision) :
    ∃ earlier later u, calls = earlier ++ later ∧ Run s earlier u ∧ u.revision = revision := by
  induction run with
  | nil => exact ⟨[], [], s, rfl, Run.nil, by omega⟩
  | @snoc calls t run operation ih =>
    by_cases hbefore : revision ≤ t.revision
    · obtain ⟨earlier, later, u, rfl, hu, hrevision⟩ := ih hbefore
      exact ⟨earlier, later ++ [⟨t, operation⟩], u, List.append_assoc _ _ _, hu, hrevision⟩
    · refine ⟨calls ++ [⟨t, operation⟩], [], _, (List.append_nil _).symm, run.snoc operation, ?_⟩
      have : _ = t.revision ∨ _ = t.revision + 1 := (Call.mk t operation).revision_after
      omega

/-- For every retained revision, the events after it take the values of that revision to the
values of now, and each of them tells the binding it has replaced. -/
theorem history_complete {revision : Int}
    (opened : Opened s) (run : Run s calls t) (hcompact : t.compactRevision ≤ revision)
    (hrevision : revision ≤ t.revision) :
    (∃ earlier later u, calls = earlier ++ later ∧ Run s earlier u ∧ u.revision = revision)
      ∧ ∀ earlier later u, calls = earlier ++ later → Run s earlier u → u.revision = revision →
        replay u.values ((batchesAfter revision t.history).flatMap (·.events)) = some t.values := by
  have hwell := opened.wellFormed
  constructor
  · refine run.visits ?_ hrevision
    rw [← opened.fresh.2.2]
    exact (run.batchesAfter hwell revision).1.trans hcompact
  · rintro earlier later u rfl hu rfl
    obtain ⟨u', hu', hlater⟩ := run.split rfl
    obtain rfl := hu.unique hu'
    have hwell' := hu.wellFormed hwell
    rw [(hlater.batchesAfter hwell' _).2 hcompact, batchesAfter_append,
      hwell'.history.batchesAfter_self, List.nil_append, hlater.batchesAfter_published]
    exact hlater.replays hwell'

/-- The overwrite and the expiry of `leaseLife` are told by the two batches after revision 1. -/
theorem history_complete_leaseLife :
    (batchesAfter 1 (stateAfter emptyStore leaseLife).history).length = 2
      ∧ replay (stateAfter emptyStore (leaseLife.take 2)).values
          ((batchesAfter 1 (stateAfter emptyStore leaseLife).history).flatMap (·.events))
        = some (stateAfter emptyStore leaseLife).values := by
  have hsplit := callsFrom_append emptyStore (leaseLife.take 2) (leaseLife.drop 2)
  rw [List.take_append_drop] at hsplit
  exact ⟨by decide +kernel,
    (history_complete emptyStore_opened (Run.of_operations emptyStore leaseLife)
      (by decide +kernel) (by decide +kernel)).2 _ _ _ hsplit
      (Run.of_operations emptyStore (leaseLife.take 2)) (by decide +kernel)⟩

/-- **Keys are dated by their events.** In every run the create revision, the version and the
last revision of every key are what the published events count up, each put by one. -/
theorem dates_follow_events (opened : Opened s) (run : Run s calls t) (key : ByteSequence) :
    t.values[key]?.map KeyValue.dates = ((published calls).flatMap (·.events)).foldl (dateEvent key)
      (s.values[key]?.map KeyValue.dates) := by
  induction run with
  | nil => rfl
  | @snoc calls t run operation ih =>
    have hdates := (Call.mk t operation).change.dates (run.wellFormed opened.wellFormed).index key
    rw [published_snoc, List.flatMap_append, List.foldl_append, ← ih]
    refine hdates.trans ?_
    cases (Call.mk t operation).batch with
    | none => rfl
    | some batch => simp [batchEvents]

/-- The second key of `leaseLife` was put a second time. -/
theorem dates_follow_events_leaseLife :
    (stateAfter emptyStore leaseLife).values[([2] : ByteSequence)]?.map KeyValue.dates
      = some (1, 2, 2)
      ∧ ((published (callsFrom emptyStore leaseLife)).flatMap (·.events)).foldl (dateEvent [2]) none
        = some (1, 2, 2) := by
  have hdates := dates_follow_events emptyStore_opened (Run.of_operations emptyStore leaseLife) [2]
  have hend : (stateAfter emptyStore leaseLife).values[([2] : ByteSequence)]?.map KeyValue.dates
      = some (1, 2, 2) := by decide +kernel
  exact ⟨hend, hdates.symm.trans hend⟩

end KuraMetadata
