import KuraMetadata.Raft.Cluster
import KuraMetadata.Library.Except

/-! # What a step of the cluster does

The adapter of a node hands one or more inputs to its core in one event: the event itself, the
completions of restores, the events it had queued, and what its configuration asks for.
`Turn.Path` is such a sequence of calls, and `Cluster.Change` lists what a step of the cluster
can do in these terms. -/

namespace KuraMetadata.Election

open Cluster List Except

variable {event : NodeEvent} {r : NodeStep} {node : SimulationNode}

/-! ## Calls -/

/-- An input that completes no disk request: a message among the `events`, or one that nobody
sent. The core is idle, except when the adapter reports a restore. -/
structure Usual (events : List NodeEvent) (c : Core) (input : Input) : Prop where
  records : input.records = []
  message : ∀ sender m, input = .ofMessage sender m → .message sender m ∈ events
  idle : c.waitingForPersistence = false ∨
    ∃ requestId index, input = .raftSnapshotRestored requestId index

/-- A sequence of calls with usual inputs. -/
inductive Turn.Path (events : List NodeEvent) (t : Turn) : Turn → Prop where
  | refl : Path events t t
  | tail {t₁ t₂ : Turn} {input : Input} {result : StepResult} (h : Path events t t₁)
      (hu : Usual events t₁.core input) (hc : t₁.callCore input = .ok (t₂, result)) :
      Path events t t₂

section

variable {events events' : List NodeEvent} {t t₁ t₂ : Turn} {input : Input}
  {result : StepResult} {config : SimulationConfig} {next next' : Nat}

theorem Turn.callCore_eq_ok (h : t.callCore input = .ok (t₁, result)) :
    t.core.step input = .ok (t₁.core, result) ∧
      t₁.actions = t.actions ++ result.effects.filterMap Effect.action? ∧
      t₁.calls = t.calls ++ [⟨t.core, input, result, t₁.core⟩] := by
  simp only [Turn.callCore] at h
  split at h
  case h_1 => cases h
  case h_2 hs =>
    cases h
    exact ⟨hs, rfl, rfl⟩

theorem Usual.mono (h : Usual events t.core input) (hsub : events ⊆ events') :
    Usual events' t.core input :=
  ⟨h.records, fun sender m hm => hsub (h.message sender m hm), h.idle⟩

theorem Turn.Path.mono (h : Path events t t₁) (hsub : events ⊆ events') : Path events' t t₁ := by
  induction h with
  | refl => exact .refl
  | tail _ hu hc ih => exact ih.tail (hu.mono hsub) hc

theorem Turn.Path.trans (h : Path events t t₁) (h' : Path events t₁ t₂) : Path events t t₂ := by
  induction h' with
  | refl => exact h
  | tail _ hu hc ih => exact ih.tail hu hc

theorem Turn.Path.induction {P : Turn → Prop}
    (hstep : ∀ {t t' : Turn} {input : Input} {result : StepResult}, P t →
      Usual events t.core input → t.callCore input = .ok (t', result) → P t')
    (h : Path events t t₁) (ht : P t) : P t₁ := by
  induction h with
  | refl => exact ht
  | tail _ hu hc ih => exact hstep ih hu hc

theorem usual_restored (events : List NodeEvent) (c : Core) (requestId index : Nat) :
    Usual events c (.raftSnapshotRestored requestId index) where
  records := rfl
  message _ m h := by cases m <;> cases h
  idle := .inr ⟨requestId, index, rfl⟩

theorem Turn.callAll_path {inputs : List Input}
    (hr : ∀ input ∈ inputs, ∃ requestId index, input = .raftSnapshotRestored requestId index)
    (h : t.callAll inputs = .ok t₁) : Path events t t₁ := by
  induction inputs generalizing t with
  | nil =>
    cases h
    exact .refl
  | cons input rest ih =>
    simp only [Turn.callAll, bind_eq_ok, Prod.exists] at h
    obtain ⟨t₂, result, hc, h⟩ := h
    obtain ⟨requestId, index, rfl⟩ := hr input (by simp)
    refine (Turn.Path.refl.tail (usual_restored events t.core requestId index) hc).trans ?_
    exact ih (fun input hi => hr input (by simp [hi])) h

theorem Turn.call_eq_ok (events : List NodeEvent) (h : t.call input = .ok t₁) :
    ∃ t₂ result, t.callCore input = .ok (t₂, result) ∧ Path events t₂ t₁ := by
  simp only [Turn.call, bind_eq_ok, Prod.exists] at h
  obtain ⟨t₂, result, hc, h⟩ := h
  refine ⟨t₂, result, hc, Turn.callAll_path ?_ h⟩
  intro input hi
  obtain ⟨e, _, he⟩ := mem_filterMap.mp hi
  cases e <;> cases he
  exact ⟨_, _, rfl⟩

theorem Turn.call_path (hu : Usual events t.core input) (h : t.call input = .ok t₁) :
    Path events t t₁ := by
  obtain ⟨t₂, result, hc, hp⟩ := Turn.call_eq_ok events h
  exact (Turn.Path.refl.tail hu hc).trans hp

/-- An input of an idle core that is no message and completes nothing. -/
theorem usual_of_idle (hi : t.core.waitingForPersistence = false) (hr : input.records = [])
    (hm : ∀ sender m, input ≠ .ofMessage sender m) : Usual events t.core input :=
  ⟨hr, fun sender m h => absurd h (hm sender m), .inl hi⟩

/-! ## Events -/

theorem Turn.handleRunning_path (hmem : event ∈ events)
    (hi : t.core.waitingForPersistence = false) (hp : event.isPersisted = false)
    (h : t.handleRunning event = .ok t₁) : Path events t t₁ := by
  cases event with
  | start => cases h
  | message sender message =>
    refine Turn.call_path ⟨by cases message <;> rfl, fun sender' m hm => ?_, .inl hi⟩ h
    cases message <;> cases m <;> cases hm <;> exact hmem
  | timer timerId =>
    simp only [Turn.handleRunning] at h
    split at h
    · exact Turn.call_path (usual_of_idle hi rfl fun _ m hm => by cases m <;> cases hm) h
    · exact Turn.call_path (usual_of_idle hi rfl fun _ m hm => by cases m <;> cases hm) h
  | persisted => cases hp

theorem Turn.drain_path {queued rest : List NodeEvent}
    (hq : ∀ event ∈ queued, event.isPersisted = false)
    (h : t.drain queued = .ok (t₁, rest)) : Path queued t t₁ ∧ rest ⊆ queued := by
  induction queued generalizing t with
  | nil =>
    cases h
    exact ⟨.refl, List.Subset.refl _⟩
  | cons event queued ih =>
    simp only [Turn.drain] at h
    split at h
    case isTrue =>
      cases h
      exact ⟨.refl, List.Subset.refl _⟩
    case isFalse hi =>
      obtain ⟨t₂, h₂, h⟩ := bind_eq_ok.mp h
      obtain ⟨hpath, hsub⟩ := ih (fun event he => hq event (by simp [he])) h
      refine ⟨?_, fun e he => mem_cons_of_mem _ (hsub he)⟩
      refine Turn.Path.trans ?_ (hpath.mono (subset_cons_self _ _))
      exact Turn.handleRunning_path (by simp) (by simpa using hi) (hq event (by simp)) h₂

theorem Turn.propose_path (h : t.propose config next = .ok (t₁, next')) : Path events t t₁ := by
  simp only [Turn.propose] at h
  split at h
  case h_2 =>
    cases h
    exact .refl
  case h_1 =>
    split at h
    case isFalse =>
      cases h
      exact .refl
    case isTrue hi =>
      simp only [bind_eq_ok, pure_eq_ok, Prod.mk.injEq] at h
      obtain ⟨_, hc, rfl, _⟩ := h
      exact Turn.call_path (usual_of_idle hi.2 rfl fun _ m hm => by cases m <;> cases hm) hc

theorem Turn.createSnapshot_path (h : t.createSnapshot config next = .ok (t₁, next')) :
    Path events t t₁ := by
  simp only [Turn.createSnapshot] at h
  split at h
  case h_2 =>
    cases h
    exact .refl
  case h_1 =>
    split at h
    case isFalse =>
      cases h
      exact .refl
    case isTrue hi =>
      simp only [bind_eq_ok, pure_eq_ok, Prod.mk.injEq] at h
      obtain ⟨_, hc, rfl, _⟩ := h
      exact Turn.call_path (usual_of_idle hi.1 rfl fun _ m hm => by cases m <;> cases hm) hc

theorem Turn.read_path (h : t.read config next = .ok (t₁, next')) : Path events t t₁ := by
  simp only [Turn.read, bind_eq_ok] at h
  obtain ⟨committed, _, h⟩ := h
  split at h
  case h_2 =>
    cases h
    exact .refl
  case h_1 =>
    split at h
    case isFalse =>
      cases h
      exact .refl
    case isTrue hi =>
      simp only [bind_eq_ok, pure_eq_ok, Prod.mk.injEq] at h
      obtain ⟨_, hc, rfl, _⟩ := h
      exact Turn.call_path (usual_of_idle hi.2.1 rfl fun _ m hm => by cases m <;> cases hm) hc

/-! ## The adapter -/

/-- What a turn makes of a node. -/
structure SimulationNode.After (node : SimulationNode) (t : Turn) (r : NodeStep) : Prop where
  core : r.node.core = some t.core
  queued : r.node.queued ⊆ node.queued
  actions : r.actions = t.actions
  calls : r.calls = t.calls

variable {core : Core}

theorem SimulationNode.run_eq_ok (hq : ∀ event ∈ node.queued, event.isPersisted = false)
    (h : node.run core event = .ok r) :
    ∃ t₁ t, Turn.handleRunning { core := core } event = .ok t₁ ∧ t₁.Path node.queued t ∧
      node.After t r := by
  simp only [SimulationNode.run, bind_eq_ok, pure_eq_ok, Prod.exists] at h
  obtain ⟨t₁, h₁, t₂, rest, h₂, t₃, _, h₃, t₄, _, h₄, t₅, _, h₅, rfl⟩ := h
  obtain ⟨hpath, hsub⟩ := Turn.drain_path hq h₂
  refine ⟨t₁, t₅, h₁, ?_, ⟨rfl, hsub, rfl, rfl⟩⟩
  exact ((hpath.trans (Turn.propose_path h₃)).trans (Turn.createSnapshot_path h₄)).trans
    (Turn.read_path h₅)

theorem SimulationNode.submit_eq_ok {client : ClientInput} (hcore : node.core = some core)
    (h : node.submit client = .ok r) :
    ∃ t, Turn.Path [] { core := core } t ∧ node.After t r := by
  simp only [SimulationNode.submit, hcore] at h
  split at h
  case isTrue => cases h
  case isFalse hi =>
    simp only [bind_eq_ok, pure_eq_ok] at h
    obtain ⟨t, hc, rfl⟩ := h
    refine ⟨t, Turn.call_path ?_ hc, ⟨rfl, List.Subset.refl _, rfl, rfl⟩⟩
    refine usual_of_idle (by simpa using hi) (by cases client <;> rfl) fun _ m hm => ?_
    cases client <;> cases m <;> cases hm

end

/-! ## The cluster -/

/-- The messages and the disk requests among the actions of the node `n`. -/
def sentBy (n : NodeId) (actions : List NodeAction) : List Envelope :=
  actions.filterMap fun
    | .send dest message => some ⟨n, dest, message⟩
    | _ => none

def askedBy (actions : List NodeAction) : List DurableRecord :=
  actions.filterMap fun
    | .persist record => some record
    | _ => none

/-- The cluster after the actions of the node `n`. -/
def Cluster.acted (s : Cluster) (n : NodeId) (host : Host) (actions : List NodeAction) :
    Cluster where
  hosts m := if m = n then { host with outstanding := host.outstanding ++ askedBy actions }
    else s.hosts m
  network := s.network ++ sentBy n actions

/-- Every request has an identifier of its own. -/
def Distinct (records : List DurableRecord) : Prop :=
  (records.map DurableRecord.requestId).Nodup

section

variable {τ : Topology} {s s' : Cluster} {n : NodeId} {host : Host} {actions : List NodeAction}
variable {calls : List Call}

theorem Cluster.setHost_setHost (s : Cluster) (n : NodeId) (host host' : Host) :
    (s.setHost n host).setHost n host' = s.setHost n host' := by
  simp only [setHost, Cluster.mk.injEq, and_true]
  funext m
  split <;> rfl

@[simp]
theorem Cluster.setHost_self (s : Cluster) (n : NodeId) (host : Host) :
    (s.setHost n host).hosts n = host := by
  simp [setHost]

theorem Cluster.acted_setHost (s : Cluster) (n : NodeId) (host host' : Host)
    (actions : List NodeAction) :
    (s.setHost n host).acted n host' actions = s.acted n host' actions := by
  simp only [acted, setHost, Cluster.mk.injEq, and_true]
  funext m
  split <;> rfl

theorem Cluster.acted_nil (s : Cluster) (n : NodeId) (host : Host) :
    s.acted n host [] = s.setHost n host := by
  simp [acted, setHost, askedBy, sentBy]

theorem Cluster.processActions_eq_ok (h : (s.setHost n host).processActions τ n actions = .ok s') :
    s' = s.acted n host actions ∧
      (Distinct host.outstanding → Distinct (host.outstanding ++ askedBy actions)) := by
  induction actions generalizing s host with
  | nil =>
    cases h
    exact ⟨(s.acted_nil n host).symm, by simp [askedBy]⟩
  | cons action rest ih =>
    simp only [processActions, bind_eq_ok] at h
    obtain ⟨s₁, h₁, h⟩ := h
    cases action with
    | send dest message =>
      simp only [processAction] at h₁
      split at h₁
      case isFalse => cases h₁
      case isTrue =>
        cases h₁
        obtain ⟨rfl, hd⟩ := ih (s := { s with network := s.network ++ [⟨n, dest, message⟩] }) h
        refine ⟨?_, by simpa [askedBy] using hd⟩
        simp [acted, sentBy, askedBy]
    | persist record =>
      simp only [processAction, setHost, if_true] at h₁
      obtain ⟨hnew, h₁⟩ := Except.ite_error_eq_ok.mp h₁
      cases h₁
      have h' : (s.setHost n { host with
          outstanding := host.outstanding ++ [record] }).processActions τ n rest = .ok s' := by
        rw [← setHost_setHost s n host]
        exact h
      obtain ⟨rfl, hd⟩ := ih h'
      refine ⟨?_, fun hdist => ?_⟩
      · simp [acted, sentBy, askedBy]
      · have := hd (by
          rw [Distinct, map_append, nodup_append]
          refine ⟨hdist, by simp, ?_⟩
          rintro x hx y hy rfl
          simp only [map_cons, map_nil, mem_singleton] at hy
          exact hnew (hy ▸ hx))
        simpa [askedBy] using this
    | setTimer | cancelTimer =>
      cases h₁
      obtain ⟨rfl, hd⟩ := ih h
      exact ⟨by simp [acted, sentBy, askedBy], by simpa [askedBy] using hd⟩

/-- The node a restart puts in place. -/
def Topology.fresh (τ : Topology) (n : NodeId) : SimulationNode :=
  { expected := n, config := τ.config n }

/-- What a step of the cluster can do. -/
inductive Cluster.Change (τ : Topology) (s : Cluster) : NodeId → Cluster → List Call → Prop where
  /-- An event for a node that is down. -/
  | ignored {n : NodeId} : Change τ s n s []
  /-- A completion for a node that is down. -/
  | lost {n : NodeId} {record : DurableRecord} (hdown : (s.hosts n).adapter = none)
      (hrecord : record ∈ (s.hosts n).outstanding) {s' : Cluster} : Change τ s n s' []
  | crashed {n : NodeId} :
      Change τ s n (s.setHost n { s.hosts n with adapter := none, outstanding := [] }) []
  | restarted {n : NodeId} (hdown : (s.hosts n).adapter = none) :
      Change τ s n (s.setHost n { s.hosts n with adapter := some (τ.fresh n) }) []
  | queued {n : NodeId} {node : SimulationNode} {core : Core} {event : NodeEvent}
      (hnode : (s.hosts n).adapter = some node) (hcore : node.core = some core)
      (hp : event.isPersisted = false)
      (hsent : ∀ sender m, event = .message sender m → ⟨sender, n, m⟩ ∈ s.network) :
      Change τ s n (s.setHost n { s.hosts n with
        adapter := some { node with queued := node.queued ++ [event] } }) []
  | started {n : NodeId} {node : SimulationNode} {c₀ core : Core} {result : StepResult}
      (hmember : n ∈ τ.nodes) (hnode : (s.hosts n).adapter = some node)
      (hcore : node.core = none)
      (hmake : node.config.rebuild n (τ.peers n) (s.hosts n).durable = .ok c₀)
      (hstart : c₀.start = .ok (core, result))
      (hdist : Distinct (s.hosts n).outstanding →
        Distinct ((s.hosts n).outstanding ++ askedBy (result.effects.filterMap Effect.action?))) :
      Change τ s n (s.acted n { s.hosts n with adapter := some { node with core := some core } }
        (result.effects.filterMap Effect.action?)) []
  /-- A turn of a running node. -/
  | turned {n : NodeId} {node : SimulationNode} {core : Core} {t : Turn} {r : NodeStep}
      {events : List NodeEvent} (hnode : (s.hosts n).adapter = some node)
      (hcore : node.core = some core)
      (hsent : ∀ sender m, .message sender m ∈ events →
        .message sender m ∈ node.queued ∨ ⟨sender, n, m⟩ ∈ s.network)
      (hpath : Turn.Path events { core := core } t) (hafter : node.After t r)
      (hdist : Distinct (s.hosts n).outstanding →
        Distinct ((s.hosts n).outstanding ++ askedBy r.actions)) :
      Change τ s n (s.acted n { s.hosts n with adapter := some r.node } r.actions) r.calls
  /-- A turn that begins with the completion of a disk request. -/
  | persisted {n : NodeId} {node : SimulationNode} {core : Core} {t₁ t : Turn} {r : NodeStep}
      {record : DurableRecord} {input : Input} {result : StepResult}
      (hnode : (s.hosts n).adapter = some node) (hcore : node.core = some core)
      (hrecord : record ∈ (s.hosts n).outstanding)
      (hinput : core.completion? record.requestId = some input)
      (hcall : Turn.callCore { core := core } input = .ok (t₁, result))
      (hpath : t₁.Path node.queued t) (hafter : node.After t r)
      (hdist : Distinct ((s.hosts n).outstanding.erase record) →
        Distinct ((s.hosts n).outstanding.erase record ++ askedBy r.actions)) :
      Change τ s n (s.acted n {
        adapter := some r.node
        durable := (s.hosts n).durable ++ [record]
        outstanding := (s.hosts n).outstanding.erase record } r.actions) r.calls

/-- Nothing but messages and timers waits in the queue of a node. -/
def Cluster.Tidy (s : Cluster) : Prop :=
  ∀ n node, (s.hosts n).adapter = some node → ∀ event ∈ node.queued, event.isPersisted = false

theorem Cluster.finish_eq_ok (h : s.finish τ n r = .ok (s', calls)) :
    s' = s.acted n { s.hosts n with adapter := some r.node } r.actions ∧ calls = r.calls ∧
      (Distinct (s.hosts n).outstanding →
        Distinct ((s.hosts n).outstanding ++ askedBy r.actions)) := by
  simp only [finish, bind_eq_ok, pure_eq_ok, Prod.mk.injEq] at h
  obtain ⟨_, h, rfl, rfl⟩ := h
  obtain ⟨rfl, hd⟩ := processActions_eq_ok h
  exact ⟨rfl, rfl, hd⟩

/-- An event that is no completion, handed to a node that has started. -/
theorem Cluster.deliver_change (ht : s.Tidy)
    (hp : event.isPersisted = false) (hnode : (s.hosts n).adapter = some node)
    (hstart : ∀ self peers records, event ≠ .start self peers records)
    (hsent : ∀ sender m, event = .message sender m → ⟨sender, n, m⟩ ∈ s.network)
    (h : s.deliverEvent τ n event = .ok (s', calls)) : Cluster.Change τ s n s' calls := by
  simp only [deliverEvent, hnode, bind_eq_ok] at h
  obtain ⟨r, hr, h⟩ := h
  obtain ⟨rfl, rfl, hd⟩ := finish_eq_ok h
  cases hcore : node.core with
  | none =>
    cases event with
    | start self peers records => exact absurd rfl (hstart self peers records)
    | _ =>
      simp only [SimulationNode.step, hcore] at hr
      cases hr
  | some core =>
    have hstep : (if core.waitingForPersistence ∧ event.isPersisted = false then
          .ok { node := { node with queued := node.queued ++ [event] } }
        else node.run core event) = Except.ok r := by
      cases event with
      | start self peers records => exact absurd rfl (hstart self peers records)
      | _ =>
        simp only [SimulationNode.step, hcore] at hr
        rw [hcore]
        exact hr
    split at hstep
    case isTrue =>
      cases hstep
      rw [acted_nil]
      exact .queued hnode hcore hp hsent
    case isFalse hi =>
      obtain ⟨t₁, t, h₁, hpath, hafter⟩ := SimulationNode.run_eq_ok (ht n node hnode) hstep
      refine @Change.turned _ _ _ _ _ _ _ (event :: node.queued) hnode hcore ?_ ?_ hafter hd
      · intro sender m hm
        rcases mem_cons.mp hm with hm | hm
        · exact .inr (hsent sender m hm.symm)
        · exact .inl hm
      · refine Turn.Path.trans ?_ (hpath.mono (subset_cons_self _ _))
        refine Turn.handleRunning_path (by simp) ?_ hp h₁
        simpa [hp] using hi

theorem Cluster.start_change (hmember : n ∈ τ.nodes)
    (hnode : (s.hosts n).adapter = some node)
    (h : s.deliverEvent τ n (.start n (τ.peers n) (s.hosts n).durable) = .ok (s', calls)) :
    Cluster.Change τ s n s' calls := by
  simp only [deliverEvent, hnode, bind_eq_ok, SimulationNode.step,
    pure_eq_ok, Prod.exists, SimulationNode.handleStart, Except.ite_error_eq_ok] at h
  obtain ⟨r, ⟨node', actions, ⟨hcore, c₀, hmake, hr⟩, rfl⟩, h⟩ := h
  obtain ⟨rfl, rfl, hd⟩ := finish_eq_ok h
  split at hr
  case h_1 => cases hr
  case h_2 core result hstart =>
    simp only [pure_eq_ok, Prod.mk.injEq] at hr
    obtain ⟨rfl, rfl⟩ := hr
    exact .started hmember hnode (by simpa using (not_or.mp hcore).1) hmake hstart hd

theorem Cluster.persisted_change {record : DurableRecord} (ht : s.Tidy)
    (hrecord : record ∈ (s.hosts n).outstanding) (h : (s.setHost n { s.hosts n with
        durable := (s.hosts n).durable ++ [record]
        outstanding := (s.hosts n).outstanding.erase record }).deliverEvent τ n
      (.persisted record.requestId) = .ok (s', calls)) : Cluster.Change τ s n s' calls := by
  cases hnode : (s.hosts n).adapter with
  | none =>
    simp only [deliverEvent, setHost_self, hnode] at h
    cases h
    exact .lost hnode hrecord
  | some node =>
    simp only [deliverEvent, setHost_self, hnode, bind_eq_ok,
      SimulationNode.step] at h
    obtain ⟨r, hr, h⟩ := h
    cases hcore : node.core with
    | none =>
      simp only [hcore] at hr
      cases hr
    | some core =>
      simp only [hcore, NodeEvent.isPersisted, Bool.true_eq_false, and_false, if_false] at hr
      obtain ⟨t₁, t, h₁, hpath, hafter⟩ := SimulationNode.run_eq_ok (ht n node hnode) hr
      simp only [Turn.handleRunning] at h₁
      split at h₁
      case h_2 => cases h₁
      case h_1 input hinput =>
        obtain ⟨t₂, result, hcall, hrest⟩ := Turn.call_eq_ok node.queued h₁
        obtain ⟨rfl, rfl, hd⟩ := finish_eq_ok h
        rw [acted_setHost]
        simp only [setHost_self] at hd ⊢
        exact .persisted hnode hcore hrecord hinput hcall (hrest.trans hpath) hafter hd

/-- **What a step of the cluster does.** -/
theorem Cluster.step_change {action : Action} (ht : s.Tidy)
    (h : s.step τ action = .ok (s', calls)) : Cluster.Change τ s action.node s' calls := by
  have hdown : ∀ {n : NodeId} {event : NodeEvent}, (s.hosts n).adapter = none →
      s.deliverEvent τ n event = .ok (s', calls) → Cluster.Change τ s n s' calls := by
    intro n event hnone h
    simp only [deliverEvent, hnone] at h
    cases h
    exact .ignored
  cases action with
  | start n =>
    simp only [Cluster.step] at h
    split at h
    case isFalse => cases h
    case isTrue hmember =>
      cases hnode : (s.hosts n).adapter with
      | none => exact hdown hnode h
      | some node => exact start_change hmember hnode h
  | deliver envelope =>
    simp only [Cluster.step] at h
    split at h
    case isFalse => cases h
    case isTrue hmem =>
      cases hnode : (s.hosts envelope.dest).adapter with
      | none => exact hdown hnode h
      | some node =>
        refine deliver_change ht rfl hnode (by simp) ?_ h
        intro sender m hm
        cases hm
        exact hmem
  | timer n timerId =>
    cases hnode : (s.hosts n).adapter with
    | none => exact hdown hnode h
    | some node => exact deliver_change ht rfl hnode (by simp) (by simp) h
  | persisted n requestId =>
    simp only [Cluster.step] at h
    split at h
    case h_1 => cases h
    case h_2 record hfind =>
      have hid : record.requestId = requestId := by simpa using find?_some hfind
      rw [← hid] at h
      exact persisted_change ht (mem_of_find?_eq_some hfind) h
  | submit n client =>
    simp only [Cluster.step] at h
    split at h
    case h_1 =>
      cases h
      exact .ignored
    case h_2 node hnode =>
      obtain ⟨r, hr, h⟩ := bind_eq_ok.mp h
      obtain ⟨rfl, rfl, hd⟩ := finish_eq_ok h
      cases hcore : node.core with
      | none =>
        simp only [SimulationNode.submit, hcore] at hr
        cases hr
      | some core =>
        obtain ⟨t, hpath, hafter⟩ := SimulationNode.submit_eq_ok hcore hr
        exact .turned hnode hcore (by simp) hpath hafter hd
  | crash n =>
    simp only [Cluster.step] at h
    split at h
    case isTrue => cases h
    case isFalse =>
      cases h
      exact .crashed
  | restart n =>
    simp only [Cluster.step] at h
    split at h
    case isTrue => cases h
    case isFalse hdown' =>
      cases h
      exact .restarted (Option.not_isSome_iff_eq_none.mp hdown')

end

end KuraMetadata.Election
