import KuraMetadata.Store.History

/-! # Watch streams

The responses of one watch, polled or pending, against the batches published so far. The same
relation is met by the replay of the history at the creation of a watch and by the delivery of
each later batch, so that where the one ends and the other begins does not show. -/

namespace KuraMetadata.InMemoryMetadataStore

open List

variable {compact : Int} {batches : List EventBatch}

/-! ## What a watch is owed -/

/-- The batches from a revision on. -/
def batchesFrom (start : Int) (batches : List EventBatch) : List EventBatch :=
  batches.filter fun batch => start ≤ batch.revision

theorem batchesFrom_eq_batchesAfter (start : Int) (batches : List EventBatch) :
    batchesFrom start batches = batchesAfter (start - 1) batches := by
  refine filter_congr fun batch _ => ?_
  rw [decide_eq_decide]
  omega

/-- The events of a batch that a watch asks for. -/
def matching (request : WatchRequest) (batch : EventBatch) : List WatchEvent :=
  batch.events.filter (watchMatches request)

/-- The batches with events for the watch, each with its revision and these events. -/
def owed (request : WatchRequest) (start : Int) (batches : List EventBatch) :
    List (Int × List WatchEvent) :=
  ((batchesFrom start batches).map fun batch => (batch.revision, matching request batch)).filter
    fun delivery => !delivery.2.isEmpty

/-- The responses with events, each with its revision and its events. -/
def deliveries (responses : List WatchResponse) : List (Int × List WatchEvent) :=
  (responses.map fun response => (response.header.revision, response.events)).filter
    fun delivery => !delivery.2.isEmpty

theorem deliveries_append (responses responses' : List WatchResponse) :
    deliveries (responses ++ responses') = deliveries responses ++ deliveries responses' := by
  rw [deliveries, map_append, filter_append]
  rfl

theorem owed_append (request : WatchRequest) (start : Int) (batches batches' : List EventBatch) :
    owed request start (batches ++ batches')
      = owed request start batches ++ owed request start batches' := by
  rw [owed, batchesFrom, filter_append, map_append, filter_append]
  rfl

/-- The events delivered, whatever empty responses stand between them. -/
theorem deliveries_events (responses : List WatchResponse) :
    (deliveries responses).flatMap Prod.snd = responses.flatMap (·.events) := by
  induction responses with
  | nil => rfl
  | cons response responses ih =>
    rw [flatMap_cons, ← ih, deliveries, map_cons]
    cases h : response.events with
    | nil | cons event events => simp [deliveries]

theorem owed_events (request : WatchRequest) (start : Int) (batches : List EventBatch) :
    (owed request start batches).flatMap Prod.snd
      = (batchesFrom start batches).flatMap (matching request) := by
  rw [owed]
  induction batchesFrom start batches with
  | nil => rfl
  | cons batch batches ih =>
    rw [flatMap_cons, ← ih, map_cons]
    cases h : matching request batch with
    | nil | cons event events => simp

/-- What is owed up to a revision is owed for the batches up to it. -/
theorem owed_filter (request : WatchRequest) (start bound : Int) (batches : List EventBatch) :
    (owed request start batches).filter (fun delivery => delivery.1 ≤ bound)
      = owed request start (batches.filter fun batch => batch.revision ≤ bound) := by
  rw [owed, owed, batchesFrom, batchesFrom, filter_comm, filter_map, filter_comm]
  rfl

/-- What is owed up to a revision and what is owed from the next on. -/
theorem Consecutive.owed_split {revision start last : Int}
    (h : Consecutive compact batches revision) (request : WatchRequest)
    (started : start ≤ last + 1) :
    owed request start batches
      = owed request start (batches.filter fun batch => batch.revision ≤ last)
        ++ owed request (last + 1) batches := by
  have hsorted : batches.Pairwise fun earlier later =>
      decide (later.revision ≤ last) = true → decide (earlier.revision ≤ last) = true := by
    refine h.pairwise.imp fun {earlier later} hlt => ?_
    simp only [decide_eq_true_eq]
    omega
  have hlater : batchesFrom start (batches.filter fun batch => !decide (batch.revision ≤ last))
      = batchesFrom (last + 1) batches := by
    rw [batchesFrom, batchesFrom, filter_filter]
    refine filter_congr fun batch _ => ?_
    rw [Bool.eq_iff_iff]
    simp only [Bool.and_eq_true, Bool.not_eq_true', decide_eq_true_eq, decide_eq_false_iff_not]
    omega
  conv_lhs => rw [← takeWhile_append_dropWhile (p := fun batch => decide (batch.revision ≤ last))
    (l := batches)]
  rw [owed_append, List.takeWhile_eq_filter hsorted, List.dropWhile_eq_filter hsorted]
  congr 1
  rw [owed, hlater, owed]

/-! ## Streams -/

/-- The response a batch makes for a watch, if any. -/
def responseTo (request : WatchRequest) (id : Int) (batch : EventBatch) : Option WatchResponse :=
  if (matching request batch).isEmpty && !request.progressNotifications then none
  else some { header := { revision := batch.revision }, id, events := matching request batch }

/-- The responses of a watch that starts at `start`, when the batches up to `revision` are out:
every response with events is one batch's share, these come in order, and a response stands
behind all events up to its revision. -/
structure Stream (request : WatchRequest) (start : Int) (batches : List EventBatch) (revision : Int)
    (responses : List WatchResponse) : Prop where
  exact : deliveries responses = owed request start batches
  ordered : responses.Pairwise fun earlier later =>
    earlier.header.revision ≤ later.header.revision
      ∧ (later.events ≠ [] → earlier.header.revision < later.header.revision)
  bounded : ∀ response ∈ responses,
    start ≤ response.header.revision + 1 ∧ response.header.revision ≤ revision

variable {request : WatchRequest} {start revision : Int}
variable {responses : List WatchResponse} {batch : EventBatch}

theorem Stream.nil : Stream request start [] revision [] :=
  ⟨rfl, List.Pairwise.nil, fun _ hresponse => by cases hresponse⟩

section

variable (h : Stream request start batches revision responses)
include h

/-- A response at the present revision may follow; if it has events, only at a new revision. -/
theorem Stream.ordered_snoc {response : WatchResponse} (hle : revision ≤ response.header.revision)
    (hlt : response.events ≠ [] → revision < response.header.revision) :
    (responses ++ [response]).Pairwise fun earlier later =>
      earlier.header.revision ≤ later.header.revision
        ∧ (later.events ≠ [] → earlier.header.revision < later.header.revision) := by
  refine pairwise_append.mpr ⟨h.ordered, pairwise_singleton _ _, ?_⟩
  intro earlier hearlier later hlater
  obtain rfl := mem_singleton.mp hlater
  have hbound := (h.bounded earlier hearlier).2
  exact ⟨hbound.trans hle, fun hevents => hbound.trans_lt (hlt hevents)⟩

theorem Stream.progress (started : start ≤ revision + 1) (id : Int) :
    Stream request start batches revision
      (responses ++ [{ header := { revision }, id }]) := by
  refine ⟨?_, h.ordered_snoc le_rfl fun hevents => absurd rfl hevents,
    forall_mem_concat h.bounded ⟨started, le_rfl⟩⟩
  rw [deliveries_append, h.exact]
  exact append_nil _

/-- The next batch reaches the stream in one response, or in none if the watch does not ask for
it. -/
theorem Stream.deliver
    (hnext : batch.revision = revision + 1) (started : start ≤ batch.revision) (id : Int) :
    Stream request start (batches ++ [batch]) batch.revision
      (responses ++ (responseTo request id batch).toList) := by
  have howed : owed request start [batch]
      = [(batch.revision, matching request batch)].filter fun delivery => !delivery.2.isEmpty := by
    rw [owed, batchesFrom, filter_cons_of_pos (by simpa using started)]
    rfl
  have hearlier : ∀ response ∈ responses,
      start ≤ response.header.revision + 1 ∧ response.header.revision ≤ batch.revision := by
    intro response hresponse
    obtain ⟨hge, hle⟩ := h.bounded response hresponse
    exact ⟨hge, by omega⟩
  unfold responseTo
  split
  · rename_i hskip
    have hempty : (matching request batch).isEmpty = true := (Bool.and_eq_true_iff.mp hskip).1
    rw [Option.toList_none, append_nil]
    refine ⟨?_, h.ordered, hearlier⟩
    rw [h.exact, owed_append, howed, filter_cons_of_neg (by simp [hempty])]
    exact (append_nil _).symm
  · rw [Option.toList_some]
    refine ⟨?_, h.ordered_snoc (by show revision ≤ batch.revision; omega)
      (fun _ => by show revision < batch.revision; omega),
      forall_mem_concat hearlier ⟨by show start ≤ batch.revision + 1; omega, le_rfl⟩⟩
    rw [deliveries_append, owed_append, h.exact, howed]
    rfl

/-- A batch before the start of the watch does not reach it. -/
theorem Stream.skip (hnext : batch.revision = revision + 1) (hbefore : batch.revision < start) :
    Stream request start (batches ++ [batch]) batch.revision responses := by
  refine ⟨?_, h.ordered, fun response hresponse => ?_⟩
  · have hnone : owed request start [batch] = [] := by
      rw [owed, batchesFrom, filter_cons_of_neg (by simpa using hbefore)]
      rfl
    rw [owed_append, hnone, append_nil]
    exact h.exact
  · obtain ⟨hge, hle⟩ := h.bounded response hresponse
    exact ⟨hge, by omega⟩

end

/-- The responses a history makes for a watch. -/
def replayed (request : WatchRequest) (start id : Int) (history : List EventBatch) :
    List WatchResponse :=
  (batchesFrom start history).filterMap (responseTo request id)

theorem replayed_cons (request : WatchRequest) (start id : Int) (batch : EventBatch)
    (history : List EventBatch) :
    replayed request start id (batch :: history)
      = replayed request start id [batch] ++ replayed request start id history := by
  rw [replayed, batchesFrom, ← singleton_append, filter_append, filterMap_append]
  rfl

theorem replayed_singleton (request : WatchRequest) (start id : Int) (batch : EventBatch) :
    replayed request start id [batch]
      = if start ≤ batch.revision then (responseTo request id batch).toList else [] := by
  rw [replayed, batchesFrom]
  split
  · rename_i hstart
    rw [filter_cons_of_pos (by simpa using hstart), filter_nil]
    cases hresponse : responseTo request id batch <;> simp [hresponse]
  · rename_i hstart
    rw [filter_cons_of_neg (by simpa using hstart)]
    rfl

theorem Stream.replay {history : List EventBatch}
    (h : Stream request start batches compact responses)
    (hhistory : Consecutive compact history revision) (id : Int) :
    Stream request start (batches ++ history) revision
      (responses ++ replayed request start id history) := by
  induction history generalizing compact batches responses with
  | nil =>
    obtain rfl : compact = revision := hhistory
    rw [append_nil, show replayed request start id [] = [] from rfl, append_nil]
    exact h
  | cons batch history ih =>
    obtain ⟨hnext, -, hrest⟩ := hhistory
    rw [← hnext] at hrest
    rw [replayed_cons, replayed_singleton, ← append_assoc, ← singleton_append,
      ← append_assoc]
    split
    · rename_i hstart
      exact ih (h.deliver hnext hstart id) hrest
    · rename_i hstart
      rw [append_nil]
      exact ih (h.skip hnext (Int.not_le.mp hstart)) hrest

/-! ## Reading a stream -/

/-- An event up to the revision of a response without events has come in an earlier one. -/
theorem Stream.before_progress (h : Stream request start batches revision responses)
    {before after : List WatchResponse} {progress : WatchResponse}
    (hsplit : responses = before ++ progress :: after) (hempty : progress.events = [])
    {event : WatchEvent} (hbatch : batch ∈ batchesFrom start batches)
    (hevent : event ∈ matching request batch) (hle : batch.revision ≤ progress.header.revision) :
    ∃ response ∈ before, event ∈ response.events := by
  have hdelivery : (batch.revision, matching request batch) ∈ deliveries responses := by
    rw [h.exact, owed, mem_filter]
    refine ⟨mem_map_of_mem hbatch, ?_⟩
    cases hshare : matching request batch with
    | nil =>
      rw [hshare] at hevent
      cases hevent
    | cons _ _ => rfl
  obtain ⟨hresponse, -⟩ := mem_filter.mp hdelivery
  obtain ⟨response, hresponse, heq⟩ := mem_map.mp hresponse
  obtain ⟨hrevision, hshare⟩ := Prod.mk.inj heq
  have hin : event ∈ response.events := by
    rw [hshare]
    exact hevent
  -- Neither the response without events nor one behind it can be the one with this event.
  rw [hsplit, mem_append, mem_cons] at hresponse
  rcases hresponse with hresponse | rfl | hresponse
  · exact ⟨response, hresponse, hin⟩
  · rw [hempty] at hin
    cases hin
  · have hordered := h.ordered
    rw [hsplit, pairwise_append, pairwise_cons] at hordered
    have := (hordered.2.1.1 response hresponse).2 (ne_nil_of_mem hin)
    omega

/-- The deliveries up to the last response read are what is owed up to its revision. -/
theorem Stream.read {polled pending : List WatchResponse} {last : WatchResponse}
    (h : Stream request start batches revision (polled ++ pending))
    (hlast : polled.getLast? = some last) :
    deliveries polled
      = owed request start (batches.filter fun batch => batch.revision ≤ last.header.revision) := by
  obtain ⟨polled, rfl⟩ := getLast?_eq_some_iff.mp hlast
  have hordered := pairwise_append.mp h.ordered
  have hpolled : ∀ delivery ∈ deliveries (polled ++ [last]), delivery.1 ≤ last.header.revision := by
    intro delivery hdelivery
    obtain ⟨response, hresponse, rfl⟩ := mem_map.mp (mem_filter.mp hdelivery).1
    rcases mem_append.mp hresponse with hresponse | hresponse
    · exact ((pairwise_append.mp hordered.1).2.2 response hresponse last mem_cons_self).1
    · rw [mem_singleton.mp hresponse]
  have hpending : ∀ delivery ∈ deliveries pending, last.header.revision < delivery.1 := by
    intro delivery hdelivery
    obtain ⟨hmem, hevents⟩ := mem_filter.mp hdelivery
    obtain ⟨response, hresponse, rfl⟩ := mem_map.mp hmem
    refine (hordered.2.2 last (mem_append_right _ mem_cons_self) response hresponse).2 ?_
    intro hnil
    simp [hnil] at hevents
  have hfilter : (deliveries (polled ++ [last] ++ pending)).filter
      (fun delivery => delivery.1 ≤ last.header.revision) = deliveries (polled ++ [last]) := by
    rw [deliveries_append, filter_append,
      filter_eq_self.mpr fun delivery hdelivery => by simpa using hpolled delivery hdelivery,
      filter_eq_nil_iff.mpr fun delivery hdelivery => by simpa using hpending delivery hdelivery,
      append_nil]
  rw [← hfilter, h.exact, owed_filter]

end KuraMetadata.InMemoryMetadataStore
