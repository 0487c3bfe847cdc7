import KuraMetadata.Store.Streams

/-! # Watches over runs

What each call does to one watch that is neither cancelled nor overflowed, and from it that the
responses of the watch are a stream. -/

namespace KuraMetadata

open InMemoryMetadataStore Std List Except Option

variable {state state' : WatchState} {id start : Int} {s t : InMemoryMetadataStore}
variable {batch : Option EventBatch} {call : Call} {request : WatchRequest}
variable {batches : List EventBatch} {pending : List WatchResponse} {calls : List Call}
variable {reply : Reply}

namespace Call

/-- The response a poll of the watch has returned. -/
def polled (call : Call) (id : Int) : Option WatchResponse :=
  match call.operation, call.reply with
  | .pollWatch polledId, some (.pollWatch response) => if polledId = id then response else none
  | _, _ => none

/-- The call has created a watch with the id. -/
def Creates (call : Call) (id : Int) : Prop :=
  ∃ request response, call.operation = .createWatch request ∧ request.id = id
    ∧ call.reply = some (.createWatch response)

instance (call : Call) (id : Int) : Decidable (call.Creates id) :=
  decidable_of_iff
    ((match call.operation, call.reply with
      | .createWatch request, some (.createWatch _) => decide (request.id = id)
      | _, _ => false) = true) <| by
    unfold Call.Creates
    split
    · rename_i request response hoperation hreply
      rw [hoperation, hreply, decide_eq_true_eq]
      constructor
      · exact fun hid => ⟨request, response, rfl, hid, rfl⟩
      · rintro ⟨_, _, hcall, hid, _⟩
        cases hcall
        exact hid
    · rename_i hother
      constructor
      · exact fun h => (Bool.false_ne_true h).elim
      · rintro ⟨request, response, hoperation, _, hreply⟩
        exact (hother request response hoperation hreply).elim

end Call

namespace InMemoryMetadataStore

variable {limits : StoreLimits}

/-! ## The parts of an operation that touch a watch -/

theorem replayBatch_eq_ok {batch : EventBatch} (h : replayBatch limits state batch = .ok state') :
    state'.request = state.request ∧ state'.terminal = state.terminal
      ∧ state'.pending = state.pending
        ++ replayed state.request state.request.startRevision state.request.id [batch] := by
  rw [replayed_singleton]
  unfold replayBatch at h
  split at h
  · rename_i hbefore
    obtain rfl := pure_eq_ok.mp h
    rw [if_neg (Int.not_le.mpr hbefore), append_nil]
    exact ⟨rfl, rfl, rfl⟩
  · rename_i hstart
    rw [if_pos (Int.not_lt.mp hstart), responseTo, matching]
    dsimp only at h
    split at h
    · rename_i hskip
      obtain rfl := pure_eq_ok.mp h
      rw [if_pos hskip, toList_none, append_nil]
      exact ⟨rfl, rfl, rfl⟩
    · rename_i hkeep
      rw [throw_eq_error, ite_error_eq_ok, pure_eq_ok] at h
      obtain ⟨-, rfl⟩ := h
      rw [if_neg hkeep]
      exact ⟨rfl, rfl, rfl⟩

theorem replayHistory_eq_ok {history : List EventBatch}
    (h : history.foldlM (replayBatch limits) state = .ok state') :
    state'.request = state.request ∧ state'.terminal = state.terminal
      ∧ state'.pending = state.pending
        ++ replayed state.request state.request.startRevision state.request.id history := by
  induction history generalizing state with
  | nil =>
    obtain rfl := pure_eq_ok.mp h
    exact ⟨rfl, rfl, (append_nil _).symm⟩
  | cons batch history ih =>
    simp only [foldlM_cons, bind_eq_ok] at h
    obtain ⟨next, hnext, h⟩ := h
    obtain ⟨hrequest, hterminal, hpending⟩ := replayBatch_eq_ok hnext
    obtain ⟨hrequest', hterminal', hpending'⟩ := ih h
    refine ⟨hrequest'.trans hrequest, hterminal'.trans hterminal, ?_⟩
    rw [hpending', hrequest, hpending, replayed_cons _ _ _ batch history, append_assoc]

/-- A watch that has not overflowed has taken the response to the batch. -/
theorem deliver_active {batch : EventBatch} (h : (deliver limits batch id state).terminal = none) :
    state.terminal = none ∧ (deliver limits batch id state).request = state.request
      ∧ (deliver limits batch id state).pending
        = state.pending ++ (responseTo state.request id batch).toList := by
  rw [responseTo, matching]
  unfold deliver at h ⊢
  split at h
  · rename_i hterminal
    rw [h] at hterminal
    cases hterminal
  · rename_i hactive
    have hnone : state.terminal = none := by simpa using hactive
    rw [if_neg hactive]
    dsimp only at h ⊢
    split at h
    · rename_i hskip
      rw [if_pos hskip, if_pos hskip, toList_none, append_nil]
      exact ⟨hnone, rfl, rfl⟩
    · rename_i hkeep
      rw [if_neg hkeep, if_neg hkeep]
      split at h
      · cases h
      · rename_i hroom
        rw [if_neg hroom]
        exact ⟨hnone, rfl, rfl⟩

theorem effectiveStart_eq_ok {startRevision : Int}
    (h : s.effectiveStart startRevision = .ok start) :
    s.compactRevision < start ∧ start ≤ s.revision + 1
      ∧ (startRevision ≠ 0 → start = startRevision) := by
  simp only [effectiveStart, bind_eq_ok, throw_eq_error, error_bind,
    ite_error_eq_ok, pure_eq_ok, Int.not_le] at h
  obtain ⟨start', hstart, hcompact, hfuture, rfl⟩ := h
  refine ⟨hcompact, ?_, fun hnonzero => ?_⟩
  · by_contra hlt
    exact hfuture ⟨by omega, .inr (by omega)⟩
  · rw [if_neg hnonzero, pure_eq_ok] at hstart
    exact hstart.symm

theorem DataChange.watchers {s' : InMemoryMetadataStore} (change : DataChange s batch s') :
    batch = none ∧ s'.watchers = s.watchers
      ∨ ∃ b, batch = some b ∧ s'.watchers = s.watchers.map (deliver s.limits b) := by
  cases change with
  | ticked _ => exact .inl ⟨rfl, rfl⟩
  | granted _ _ _ _ _ => exact .inl ⟨rfl, rfl⟩
  | renewed _ _ _ => exact .inl ⟨rfl, rfl⟩
  | edited _ _ _ => exact .inr ⟨_, rfl, rfl⟩
  | cleaned _ _ _ _ => exact .inr ⟨_, rfl, rfl⟩

end InMemoryMetadataStore

/-! ## One call and one watch -/

/-- What a call does to the pending responses of a watch: its batch, what a poll has taken, and
the queue before and after. -/
inductive WatchStep (request : WatchRequest) (id revision : Int) :
    Option EventBatch → Option WatchResponse → List WatchResponse → List WatchResponse → Prop
  | idle (pending : List WatchResponse) : WatchStep request id revision none none pending pending
  | polled (first : WatchResponse) (pending : List WatchResponse) :
      WatchStep request id revision none (some first) (first :: pending) pending
  | progress (pending : List WatchResponse) :
      WatchStep request id revision none none pending
        (pending ++ [{ header := { revision }, id }])
  | delivered (batch : EventBatch) (pending : List WatchResponse) :
      WatchStep request id revision (some batch) none pending
        (pending ++ (responseTo request id batch).toList)

namespace Call

variable {operation : Operation}

theorem polled_eq_none (h : ∀ id, operation ≠ .pollWatch id) :
    (Call.mk s operation).polled id = none := by
  unfold Call.polled
  split
  · rename_i heq _
    exact absurd heq (h _)
  · rfl

theorem polled_eq {response : Option WatchResponse}
    (h : (Operation.pollWatch id).run s = .ok (.pollWatch response, batch) t) :
    (Call.mk s (.pollWatch id)).polled id = response := by
  unfold Call.polled
  rw [(of_run_eq_ok h).2.2]
  exact if_pos rfl

theorem polled_other {other : Int} (h : id ≠ other) :
    (Call.mk s (.pollWatch id)).polled other = none := by
  unfold Call.polled
  split
  · rename_i heq _
    cases heq
    exact if_neg h
  · rfl

/-- How a call that returns has left a watch that it leaves active. -/
theorem watchStep_of_run (h : operation.run s = .ok (reply, batch) t)
    (hcreates : ¬ (Call.mk s operation).Creates id)
    (hfound : t.watchers[id]? = some state') (hactive : state'.terminal = none) :
    ∃ state, s.watchers[id]? = some state ∧ state.terminal = none ∧ state'.request = state.request
      ∧ WatchStep state.request id s.revision batch ((Call.mk s operation).polled id) state.pending
          state'.pending := by
  cases hdata : operation.watches with
  | false =>
    have hpolled : (Call.mk s operation).polled id = none := by
      refine polled_eq_none fun polledId heq => ?_
      rw [heq] at hdata
      cases hdata
    rw [hpolled]
    rcases (run_dataChange h hdata).watchers with ⟨rfl, hwatchers⟩ | ⟨b, rfl, hwatchers⟩
    · rw [hwatchers] at hfound
      exact ⟨state', hfound, hactive, rfl, WatchStep.idle _⟩
    · rw [hwatchers, ExtTreeMap.getElem?_map, map_eq_some_iff] at hfound
      obtain ⟨state, hstate, rfl⟩ := hfound
      obtain ⟨hnone, hrequest, hpending⟩ := deliver_active hactive
      rw [hpending]
      exact ⟨state, hstate, hnone, hrequest, WatchStep.delivered b _⟩
  | true =>
    cases operation
    case createWatch request =>
      rw [polled_eq_none fun _ heq => by cases heq]
      obtain ⟨response, _, hrun, hresult⟩ := EStateM.bind_eq_ok.mp h
      cases hresult
      obtain ⟨start, created, -, -, rfl⟩ := createWatch_eq_ok hrun
      rcases ExtTreeMap.getElem?_insert_eq_some.mp hfound with ⟨hid, -⟩ | ⟨-, hfound⟩
      · exact absurd ⟨request, response, rfl, hid, (of_run_eq_ok h).2.2⟩ hcreates
      · exact ⟨state', hfound, hactive, rfl, WatchStep.idle _⟩
    case pollWatch polledId =>
      obtain ⟨response, _, hrun, hresult⟩ := EStateM.bind_eq_ok.mp h
      cases hresult
      obtain ⟨state, hstate, ⟨-, -, rfl⟩ | ⟨-, -, rfl, rfl⟩
        | ⟨hnone, first, pending, hpending, rfl, rfl⟩⟩ :=
        pollWatch_eq_ok hrun
      · -- a watch that has ended is removed with its last response
        obtain ⟨hne, hfound⟩ := ExtTreeMap.getElem?_erase_eq_some.mp hfound
        rw [polled_other hne]
        exact ⟨state', hfound, hactive, rfl, WatchStep.idle _⟩
      · have hpolled : (Call.mk t (.pollWatch polledId)).polled id = none := by
          by_cases hid : polledId = id
          · subst hid
            exact polled_eq h
          · exact polled_other hid
        rw [hpolled]
        exact ⟨state', hfound, hactive, rfl, WatchStep.idle _⟩
      · rcases ExtTreeMap.getElem?_insert_eq_some.mp hfound with ⟨rfl, rfl⟩ | ⟨hne, hfound⟩
        · rw [polled_eq h]
          refine ⟨state, hstate, hnone, rfl, ?_⟩
          rw [hpending]
          exact WatchStep.polled first pending
        · rw [polled_other hne]
          exact ⟨state', hfound, hactive, rfl, WatchStep.idle _⟩
    case requestWatchProgress progressId =>
      rw [polled_eq_none fun _ heq => by cases heq]
      obtain ⟨_, _, hrun, hresult⟩ := EStateM.bind_eq_ok.mp h
      cases hresult
      obtain ⟨state, hstate, ⟨-, rfl⟩ | ⟨-, rfl⟩ | ⟨hnone, rfl⟩⟩ := requestWatchProgress_eq_ok hrun
      · exact ⟨state', hfound, hactive, rfl, WatchStep.idle _⟩
      · rcases ExtTreeMap.getElem?_insert_eq_some.mp hfound with ⟨rfl, rfl⟩ | ⟨hne, hfound⟩
        · cases hactive
        · exact ⟨state', hfound, hactive, rfl, WatchStep.idle _⟩
      · rcases ExtTreeMap.getElem?_insert_eq_some.mp hfound with ⟨rfl, rfl⟩ | ⟨hne, hfound⟩
        · exact ⟨state, hstate, hnone, rfl, WatchStep.progress _⟩
        · exact ⟨state', hfound, hactive, rfl, WatchStep.idle _⟩
    case cancelWatch cancelledId =>
      rw [polled_eq_none fun _ heq => by cases heq]
      obtain ⟨_, _, hrun, hresult⟩ := EStateM.bind_eq_ok.mp h
      cases hresult
      rw [cancelWatch_eq_ok hrun] at hfound
      obtain ⟨hne, hfound⟩ := ExtTreeMap.getElem?_erase_eq_some.mp hfound
      exact ⟨state', hfound, hactive, rfl, WatchStep.idle _⟩
    all_goals cases hdata

theorem watchStep (hcreates : ¬ call.Creates id)
    (hfound : call.after.watchers[id]? = some state') (hactive : state'.terminal = none) :
    ∃ state, call.before.watchers[id]? = some state ∧ state.terminal = none
      ∧ state'.request = state.request
      ∧ WatchStep state.request id call.before.revision call.batch (call.polled id) state.pending
          state'.pending := by
  obtain ⟨s, operation⟩ := call
  cases h : operation.run s with
  | ok result t =>
    obtain ⟨reply, batch⟩ := result
    obtain ⟨hafter, hbatch, -⟩ := of_run_eq_ok h
    rw [hafter] at hfound
    rw [hbatch]
    exact watchStep_of_run h hcreates hfound hactive
  | error e t =>
    obtain ⟨hafter, hbatch, hreply⟩ := of_run_eq_error h
    have hpolled : (Call.mk s operation).polled id = none := by
      unfold Call.polled
      rw [hreply]
      cases operation <;> rfl
    rw [hafter, atomic_run operation s e t h] at hfound
    rw [hbatch, hpolled]
    exact ⟨state', hfound, hactive, rfl, WatchStep.idle _⟩

end Call

/-! ## A watch over a run -/

/-- The responses polls of the watch have returned. -/
def polledBy (id : Int) (calls : List Call) : List WatchResponse :=
  calls.filterMap fun call => call.polled id

/-- A step of the watch continues its stream. -/
theorem InMemoryMetadataStore.Stream.step {revision revision' : Int} {taken : Option WatchResponse}
    {polled pending' : List WatchResponse}
    (h : Stream request start batches revision (polled ++ pending))
    (started : start ≤ revision + 1)
    (hstep : WatchStep request id revision batch taken pending pending')
    (hrevision : revision' = revision ∧ batch = none
      ∨ revision' = revision + 1 ∧ ∃ events, batch = some ⟨revision + 1, events⟩
        ∧ ∀ event ∈ events, event.revision = revision + 1) :
    Stream request start (batches ++ batch.toList) revision'
      (polled ++ taken.toList ++ pending') := by
  rcases hrevision with ⟨rfl, rfl⟩ | ⟨rfl, events, rfl, -⟩
  · rw [toList_none, append_nil]
    cases hstep with
    | idle _ =>
      rw [toList_none, append_nil]
      exact h
    | polled first _ =>
      rw [toList_some, append_assoc]
      exact h
    | progress _ =>
      rw [toList_none, append_nil, ← append_assoc]
      exact h.progress started id
  · cases hstep with
    | delivered _ _ =>
      rw [toList_none, append_nil, ← append_assoc]
      exact h.deliver rfl started id

/-- As long as it is active, the responses of a watch are a stream. -/
theorem Run.stream (run : Run s calls t)
    (hcreates : ∀ call ∈ calls, ¬ call.Creates id) (started : start ≤ s.revision + 1)
    (base : ∀ {state : WatchState}, s.watchers[id]? = some state → state.terminal = none →
      state.request = request ∧ Stream request start batches s.revision state.pending)
    (hfound : t.watchers[id]? = some state) (hactive : state.terminal = none) :
    state.request = request ∧ Stream request start (batches ++ published calls) t.revision
          (polledBy id calls ++ state.pending) := by
  induction run generalizing state with
  | nil =>
    rw [published, filterMap_nil, append_nil]
    exact base hfound hactive
  | @snoc calls t run operation ih =>
    obtain ⟨before, hbefore, hactive', hrequest, hstep⟩ :=
      Call.watchStep (hcreates _ (mem_append_right _ mem_cons_self)) hfound hactive
    obtain ⟨hrequest', hstream⟩ :=
      ih (fun call hcall => hcreates call (mem_append_left _ hcall)) hbefore hactive'
    refine ⟨hrequest.trans hrequest', ?_⟩
    have hstarted : start ≤ t.revision + 1 := by
      have := run.revision_le
      omega
    rw [hrequest'] at hstep
    rw [published_snoc, polledBy, filterMap_snoc, ← append_assoc]
    exact hstream.step hstarted hstep (Call.mk t operation).change.revision

/-- A watch just created has been replayed the history, which is all of the run from its start
on. -/
theorem Run.stream_created {u : InMemoryMetadataStore}
    {response : WatchResponse} (opened : Opened s) (run : Run s calls t)
    (hcreate : createWatch request t = .ok response u) :
    ∃ start, t.effectiveStart request.startRevision = .ok start ∧ start ≤ t.revision + 1
      ∧ u.revision = t.revision
      ∧ ∀ {state : WatchState}, u.watchers[request.id]? = some state →
        state.request = { request with startRevision := start }
          ∧ Stream { request with startRevision := start } start (published calls) t.revision
              state.pending := by
  obtain ⟨start, created, hstart, hreplay, rfl⟩ := createWatch_eq_ok hcreate
  obtain ⟨hcompact, hbound, -⟩ := effectiveStart_eq_ok hstart
  refine ⟨start, hstart, hbound, rfl, fun {state} hstate => ?_⟩
  have hcreated : state = created := by
    rw [show (_ : WatchMap)[_]? = some created from ExtTreeMap.getElem?_insert_self] at hstate
    exact (Option.some.inj hstate).symm
  obtain ⟨hrequest, -, hpending⟩ := replayHistory_eq_ok hreplay
  subst hcreated
  refine ⟨hrequest, ?_⟩
  have hwell := run.wellFormed opened.wellFormed
  have hstream : Stream { request with startRevision := start } start t.history t.revision
      state.pending := by
    rw [hpending]
    exact Stream.nil.replay hwell.history request.id
  refine ⟨hstream.exact.trans ?_, hstream.ordered, hstream.bounded⟩
  have hretained := (run.batchesAfter opened.wellFormed (start - 1)).2 (by omega)
  rw [opened.fresh.1, nil_append] at hretained
  rw [owed, owed, batchesFrom_eq_batchesAfter, batchesFrom_eq_batchesAfter, hretained]

/-- Among the calls one has created a watch, with `start` as its effective start, that is still
active in `t`: its responses are those polled since and those pending. -/
def Watching (calls : List Call) (t : InMemoryMetadataStore) (request : WatchRequest) (start : Int)
    (polled pending : List WatchResponse) : Prop :=
  ∃ earlier create later response state, calls = earlier ++ create :: later
    ∧ create.operation = .createWatch request ∧ create.reply = some (.createWatch response)
    ∧ create.before.effectiveStart request.startRevision = .ok start
    ∧ (∀ call ∈ later, ¬ call.Creates request.id)
    ∧ t.watchers[request.id]? = some state ∧ state.terminal = none
    ∧ polled = polledBy request.id later ∧ pending = state.pending

theorem Watching.prepend {calls' : List Call} {polled : List WatchResponse}
    (h : Watching calls' t request start polled pending) :
    Watching (calls ++ calls') t request start polled pending := by
  obtain ⟨earlier, create, later, response, state, rfl, h⟩ := h
  exact ⟨calls ++ earlier, create, later, response, state, (append_assoc _ _ _).symm, h⟩

theorem Call.run_of_reply (h : call.reply = some reply) :
    call.operation.run call.before = .ok (reply, call.batch) call.after := by
  unfold Call.reply at h
  unfold Call.after Call.batch
  show call.outcome = _
  cases houtcome : call.outcome with
  | ok result t =>
    rw [houtcome] at h
    cases h
    rfl
  | error e t =>
    rw [houtcome] at h
    cases h

/-- The responses of a watch are the stream of all batches of the run from its start on. -/
theorem Watching.stream {polled : List WatchResponse}
    (watching : Watching calls t request start polled pending) (opened : Opened s)
    (run : Run s calls t) :
    s.revision < start ∧ (request.startRevision ≠ 0 → start = request.startRevision)
      ∧ Stream { request with startRevision := start } start (published calls) t.revision
          (polled ++ pending) := by
  obtain ⟨earlier, create, later, response, state, rfl, hoperation, hreply, hstart, hcreates,
    hfound, hactive, rfl, rfl⟩ := watching
  obtain ⟨u, hearlier, hrest⟩ := run.split rfl
  obtain ⟨u', hcreate, hlater⟩ := hrest.split (singleton_append (l := later)).symm
  obtain ⟨rfl, rfl⟩ := hcreate.singleton
  have hrun := Call.run_of_reply hreply
  rw [hoperation] at hrun
  obtain ⟨_, after, hrun, hresult⟩ := EStateM.bind_eq_ok.mp hrun
  obtain ⟨hreturned, rfl⟩ := EStateM.Result.ok.inj hresult
  have hbatch : create.batch = none := (Prod.mk.inj hreturned).2.symm
  obtain ⟨start', hstart', hbound, hrevision, hcreated⟩ := hearlier.stream_created opened hrun
  obtain rfl : start = start' := Except.ok.inj (hstart.symm.trans hstart')
  obtain ⟨hcompact, -, hrequested⟩ := effectiveStart_eq_ok hstart
  obtain ⟨hopened, -⟩ := hearlier.batchesAfter opened.wellFormed start
  have hpublished :
      published (earlier ++ create :: later) = published earlier ++ published later := by
    rw [published_append, published, published, published, filterMap_cons_none hbatch]
  rw [hpublished]
  refine ⟨?_, hrequested, ?_⟩
  · rw [← opened.fresh.2.2]
    omega
  · refine (hlater.stream hcreates (by omega) (fun hstate _ => ?_) hfound hactive).2
    obtain ⟨hrequest, hstream⟩ := hcreated hstate
    rw [hrevision]
    exact ⟨hrequest, hstream⟩

/-- A watch that asks for the same keys and events is owed the same. -/
theorem owed_congr {request' : WatchRequest} (hrange : request'.range = request.range)
    (hfilter : request'.filter = request.filter) (start : Int) (batches : List EventBatch) :
    owed request' start batches = owed request start batches := by
  have hmatches : watchMatches request' = watchMatches request := by
    funext event
    unfold watchMatches
    rw [hrange, hfilter]
  unfold owed matching
  rw [hmatches]

/-- The responses of a watch, polled and pending, are exactly the batches from its start on, each
in one response with the events the watch asks for; they come in order; a response without events
comes behind every event up to its revision; and a watch created anew behind the last response
polled goes on with the events that have not been polled. -/
theorem watch_streams
    {polled pending : List WatchResponse} (opened : Opened s) (run : Run s calls t)
    (watching : Watching calls t request start polled pending) :
    deliveries (polled ++ pending) = owed request start (published calls)
      ∧ (polled ++ pending).flatMap (·.events)
          = (batchesFrom start (published calls)).flatMap (matching request)
      ∧ (polled ++ pending).Pairwise (fun earlier later =>
          earlier.header.revision ≤ later.header.revision)
      ∧ (∀ before progress after, polled ++ pending = before ++ progress :: after →
          progress.events = [] → ∀ batch ∈ batchesFrom start (published calls),
            ∀ event ∈ matching request batch, event.revision ≤ progress.header.revision →
              ∃ response ∈ before, event ∈ response.events)
      ∧ ∀ last, polled.getLast? = some last →
          ∀ {calls' t' request' start' polled' pending'}, Run t calls' t' →
            Watching calls' t' request' start' polled' pending' →
            request'.range = request.range → request'.filter = request.filter →
            request'.startRevision = last.header.revision + 1 →
            deliveries polled ++ deliveries (polled' ++ pending')
              = owed request start (published (calls ++ calls')) := by
  obtain ⟨hfresh, -, stream⟩ := watching.stream opened run
  have hexact : deliveries (polled ++ pending) = owed request start (published calls) :=
    stream.exact
  refine ⟨hexact, ?_, stream.ordered.imp And.left, ?_, ?_⟩
  · rw [← deliveries_events, hexact, owed_events]
  · intro before progress after hsplit hempty batch hbatch event hevent hle
    refine stream.before_progress hsplit hempty hbatch hevent ?_
    have hevents := (run.consecutive.mem (mem_of_mem_filter hbatch)).2.2
    rwa [hevents event (mem_of_mem_filter hevent)] at hle
  · intro last hlast calls' t' request' start' polled' pending' run' watching' hrange hfilter
      hresume
    obtain ⟨hge, hle⟩ := stream.bounded last (mem_append_left _ (mem_of_getLast? hlast))
    have hnonneg : 0 ≤ s.revision := opened.wellFormed.opened.1
    obtain ⟨-, hstart', stream'⟩ := watching'.prepend.stream opened (run.trans run')
    obtain rfl : start' = last.header.revision + 1 := (hstart' (by omega)).trans hresume
    have hresumed : deliveries (polled' ++ pending')
        = owed request (last.header.revision + 1) (published (calls ++ calls')) :=
      stream'.exact.trans (owed_congr hrange hfilter _ _)
    have hlater : (published calls').filter (fun batch => batch.revision ≤ last.header.revision)
        = [] := by
      refine filter_eq_nil_iff.mpr fun batch hbatch => ?_
      have := (run'.consecutive.mem hbatch).1
      rw [decide_eq_true_eq]
      omega
    -- what was read ends at `last`, and the second watch starts right after it
    calc deliveries polled ++ deliveries (polled' ++ pending')
        = owed request start ((published calls).filter fun batch =>
              batch.revision ≤ last.header.revision)
            ++ owed request (last.header.revision + 1) (published (calls ++ calls')) := by
          rw [stream.read hlast, hresumed]
          rfl
      _ = owed request start ((published (calls ++ calls')).filter fun batch =>
              batch.revision ≤ last.header.revision)
            ++ owed request (last.header.revision + 1) (published (calls ++ calls')) := by
          rw [published_append, filter_append, hlater, append_nil]
      _ = owed request start (published (calls ++ calls')) :=
          ((run.trans run').consecutive.owed_split request hge).symm

/-- A watch of the keys from 1 to 5. -/
def lowKeys (startRevision : Int) : WatchRequest :=
  { id := 1, range := ⟨[1], [5]⟩, startRevision }

/-- Of the three puts the watch asks for two, and only the first has been polled. -/
def watched : List Operation :=
  [.createWatch (lowKeys 0), .put [2] [7], .put [9] [7], .requestWatchProgress 1, .put [3] [7],
   .pollWatch 1]

def resumed : List Operation := [.cancelWatch 1, .createWatch (lowKeys 2)]

/-- The response to the put of a new key. -/
def responseToPut (key : UInt8) (revision : Int) : WatchResponse :=
  let value : KeyValue :=
    { key := [key], value := [7], version := 1, createRevision := revision,
      modRevision := revision, leaseId := 0 }
  { header := { revision }, id := 1, events := [⟨revision, .put value none⟩] }

theorem watching_watched :
    Watching (callsFrom emptyStore watched) (stateAfter emptyStore watched) (lowKeys 0) 1
      [responseToPut 2 1] [{ header := { revision := 2 }, id := 1 }, responseToPut 3 3] :=
  ⟨[], _, _, { header := { revision := 0 }, id := 1 },
    { request := lowKeys 1,
      pending := [{ header := { revision := 2 }, id := 1 }, responseToPut 3 3] },
    rfl, rfl, by decide +kernel, by decide +kernel, by decide +kernel, by decide +kernel, rfl,
    by decide +kernel, rfl⟩

theorem watching_resumed : Watching (callsFrom (stateAfter emptyStore watched) resumed)
      (stateAfter (stateAfter emptyStore watched) resumed) (lowKeys 2) 2 [] [responseToPut 3 3] :=
  ⟨[⟨stateAfter emptyStore watched, .cancelWatch 1⟩], _, [],
    { header := { revision := 3 }, id := 1 },
    { request := lowKeys 2, pending := [responseToPut 3 3] },
    rfl, rfl, by decide +kernel, by decide +kernel, by decide +kernel, by decide +kernel, rfl,
    rfl, rfl⟩

/-- The put behind the progress response is pending when the watch is cancelled, and comes again
in the watch created behind the response polled. -/
theorem watch_streams_resumed :
    deliveries [responseToPut 2 1] ++ deliveries ([] ++ [responseToPut 3 3])
      = owed (lowKeys 0) 1 (published (callsFrom emptyStore watched
          ++ callsFrom (stateAfter emptyStore watched) resumed)) :=
  (watch_streams emptyStore_opened (Run.of_operations emptyStore watched)
    watching_watched).2.2.2.2 (responseToPut 2 1) rfl (Run.of_operations _ resumed) watching_resumed
    rfl rfl rfl

end KuraMetadata
