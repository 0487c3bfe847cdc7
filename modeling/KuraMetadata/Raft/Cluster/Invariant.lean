import KuraMetadata.Raft.Cluster.Turns
import KuraMetadata.Raft.Core.Requests
import KuraMetadata.Raft.Replica.Step

/-! # A history for every run

`Safe τ H s` says that the history `H` describes the cluster `s`: every core, every disk and
every message. A step of the cluster extends the history (`Safe.change`), so every run has a
history, and every core the run shows was described by a part of it (`Run.history`). -/

namespace KuraMetadata.Replica

open List

open Figure2 (State)
open Election (Core Effect Input Record Recovered StepResult Topology Host Cluster SimulationNode
  NodeEvent NodeAction DurableRecord Envelope Turn Call CoreRun Moment Run Usual sentBy askedBy
  Distinct)
open Consensus (History QuorumSystem majorities)

variable {actions : List NodeAction} {τ : Topology} {result : StepResult} {host : Host}
variable {n m : NodeId} {node : SimulationNode} {c : Core} {disk : Recovered} {H H' : Hist}

/-! ## Quorums -/

/-- The quorums of a cluster are the majorities of its nodes. -/
def quorums (τ : Topology) : QuorumSystem NodeId := majorities τ.nodes.toFinset

theorem quorate {s : State} (hn : n ∈ τ.nodes) (hnode : s.node = n)
    (hpeers : s.peers = τ.peers n) : Quorate (quorums τ) s := by
  intro Q hQ hcard
  have hnodes : insert s.node s.peers.toFinset = τ.nodes.toFinset := by
    ext m
    rw [hnode, hpeers]
    simp only [Finset.mem_insert, mem_toFinset, Topology.peers, mem_filter,
      decide_eq_true_eq]
    constructor
    · rintro (rfl | ⟨hm, _⟩)
      · exact hn
      · exact hm
    · intro hm
      by_cases h : m = n
      · exact .inl h
      · exact .inr ⟨hm, h⟩
  have hlength : s.peers.length + 1 = τ.nodes.length := by
    have hcount : (τ.nodes.filter fun m => m ≠ n) = τ.nodes.erase n := by
      rw [τ.nodup.erase_eq_filter]
      exact filter_congr fun m _ => by simp [bne, Bool.beq_eq_decide_eq]
    rw [hpeers, Topology.peers, hcount, length_erase_of_mem hn]
    have := length_pos_of_mem hn
    omega
  refine ⟨hnodes ▸ hQ, ?_⟩
  rw [toFinset_card_of_nodup τ.nodup, ← hlength]
  rw [Figure2.majority] at hcard
  omega

/-! ## Cores -/

/-- The history describes a running core. -/
structure CoreSafe (τ : Topology) (H : Hist) (n : NodeId) (disk : Recovered) (c : Core) :
    Prop where
  member : n ∈ τ.nodes
  node : c.state.node = n
  peers : c.state.peers = τ.peers n
  run : ∃ a calls, CoreRun a calls c
  tracks : ∃ F, Tracks H (quorums τ) c F
  holds : Holds c disk

/-- A part of the history describes the core. -/
def Seen (τ : Topology) (H : Hist) (n : NodeId) (c : Core) : Prop :=
  ∃ H₀ F, H₀.Le H ∧ H₀.Valid (quorums τ) ∧ Indexed H₀ ∧ c.state.node = n ∧
    Tracks H₀ (quorums τ) c F

/-- Parts of the history describe the core before and after a call. -/
structure CallSeen (τ : Topology) (H : Hist) (n : NodeId) (call : Call) : Prop where
  run : ∃ a calls, CoreRun a (calls ++ [call]) call.after
  before : Seen τ H n call.before
  after : Seen τ H n call.after

section

variable {c c' : Core} {input : Input}

theorem Seen.mono (hle : H.Le H') (h : Seen τ H n c) : Seen τ H' n c := by
  obtain ⟨H₀, F, hle₀, h⟩ := h
  exact ⟨H₀, F, hle₀.trans hle, h⟩

variable (hv : H.Valid (quorums τ))
include hv

theorem CoreSafe.seen (hi : Indexed H) (h : CoreSafe τ H n disk c) :
    Seen τ H n c := by
  obtain ⟨F, hF⟩ := h.tracks
  exact ⟨H, F, .refl H, hv, hi, h.node, hF⟩

theorem CoreSafe.mono (hl : History.Local m H H')
    (hne : n ≠ m) (h : CoreSafe τ H n disk c) : CoreSafe τ H' n disk c := by
  obtain ⟨F, hF⟩ := h.tracks
  exact { h with tracks := ⟨F, hF.mono hv (h.node ▸ hl.sameFor hne)⟩ }

theorem Stored.mono_of_ne (hl : History.Local m H H')
    (hne : n ≠ m) (h : Stored H n disk) : Stored H' n disk :=
  h.mono hv hl.toLe (hl.term_of_ne n hne) (funext fun T => hl.vote_of_ne n T hne)
    (hl.log_of_ne n hne)

theorem CoreSafe.call (hi : Indexed H) (h : CoreSafe τ H n disk c)
    (hst : Stored H n disk) (ho : Offered H n c input)
    (hs : c.step input = .ok (c', result)) :
    ∃ H', Extends (quorums τ) n H H' ∧ CoreSafe τ H' n (absorbAll disk input.records) c' ∧
      Stored H' n (absorbAll disk input.records) ∧
      ∀ e ∈ result.effects, ∀ dest m, e.message? = some (dest, m) → Sent H' n dest m := by
  obtain ⟨hmember, hnode, hpeers, ⟨a, calls, hrun⟩, ⟨F, hF⟩, hholds⟩ := h
  have hq := quorate hmember hnode hpeers
  subst hnode
  obtain ⟨⟨hn', hp'⟩, H', hr⟩ := hF.step hv hi hq hst hholds ho hs
  exact ⟨H', hr.toExtends, ⟨hmember, hn', hp'.trans hpeers, ⟨a, _, hrun.step hs⟩, hr.tracks,
    hr.holds⟩, hr.stored, hr.sent⟩

end

/-! ## Turns -/

/-- The history after a few calls of the node `n`: `out` is what was outstanding before the
actions of the turn. -/
structure TurnSafe (τ : Topology) (H₀ H : Hist) (n : NodeId) (disk : Recovered)
    (out : List DurableRecord) (t : Turn) : Prop extends Extends (quorums τ) n H₀ H where
  core : CoreSafe τ H n disk t.core
  stored : Stored H n disk
  sent : ∀ envelope ∈ sentBy n t.actions, Sent H n envelope.dest envelope.message
  awaits : ∀ q, t.core.Awaits q → q ∈ out ++ askedBy t.actions
  calls : ∀ call ∈ t.calls, CallSeen τ H n call

section

variable {H₀ H : Hist}
  {out : List DurableRecord} {t t' : Turn} {input : Input}
  {events : List NodeEvent}

theorem mem_sentBy {envelope : Envelope} :
    envelope ∈ sentBy n actions ↔
      envelope.source = n ∧ .send envelope.dest envelope.message ∈ actions := by
  simp only [sentBy, mem_filterMap]
  constructor
  · rintro ⟨action, ha, h⟩
    cases action <;> cases h
    exact ⟨rfl, ha⟩
  · rintro ⟨rfl, ha⟩
    exact ⟨_, ha, rfl⟩

theorem mem_askedBy {q : DurableRecord} : q ∈ askedBy actions ↔ .persist q ∈ actions := by
  simp only [askedBy, mem_filterMap]
  constructor
  · rintro ⟨action, ha, h⟩
    cases action <;> cases h
    exact ha
  · exact fun ha => ⟨_, ha, rfl⟩

theorem message?_of_action? {e : Effect} {dest : NodeId} {m : Message}
    (h : e.action? = some (.send dest m)) : e.message? = some (dest, m) := by
  cases e <;> cases h <;> rfl

/-- The input of a usual call is one a node may rely on. -/
theorem offered_of_usual {F : List LogEntry} (hnode : c.state.node = n)
    (hF : Tracks H (quorums τ) c F) (hu : Usual events c input)
    (hheard : ∀ sender m, .message sender m ∈ events → Sent H sender n m) :
    Offered H n c input where
  heard sender m hm := hheard sender m (hu.message sender m hm)
  early := by
    rcases hu.idle with hi | ⟨_, _, rfl⟩
    · cases input with
      | receiveInstallSnapshot => simp_all [Core.installsEarly, Core.waitingForPersistence]
      | _ => rfl
    · rfl
  own q hq := by
    subst hq
    rcases hu.idle with hi | ⟨_, _, h⟩
    · simp_all [Core.waitingForPersistence]
    · cases h
  waiting x hx := hnode ▸ hF.install x hx

theorem TurnSafe.call (h : TurnSafe τ H₀ H n disk out t) (ho : Offered H n t.core input)
    (hc : t.callCore input = .ok (t', result)) {out' : List DurableRecord}
    (hout : ∀ q ∈ out ++ askedBy t.actions, q.record ∉ input.records →
      q ∈ out' ++ askedBy t.actions) :
    ∃ H', TurnSafe τ H₀ H' n (absorbAll disk input.records) out' t' := by
  obtain ⟨hs, hactions, hcalls⟩ := Turn.callCore_eq_ok hc
  obtain ⟨H', he, hcore, hst, hsent⟩ := h.core.call h.valid h.indexed h.stored ho hs
  obtain ⟨F, hF⟩ := h.core.tracks
  refine ⟨H', ⟨h.toExtends.trans he, hcore, hst, ?_, ?_, ?_⟩⟩
  · intro envelope hmem
    rw [mem_sentBy, hactions, mem_append] at hmem
    obtain ⟨hsource, hmem | hmem⟩ := hmem
    · exact (h.sent envelope (mem_sentBy.mpr ⟨hsource, hmem⟩)).mono h.valid he.locally.toLe
    · obtain ⟨e, hmem, ha⟩ := mem_filterMap.mp hmem
      exact hsent e hmem _ _ (message?_of_action? ha)
  · intro q hq
    rw [hactions, mem_append, mem_askedBy, mem_append]
    rcases hF.orderly.step_awaits hs hq with ⟨hq, hnot⟩ | ⟨e, hmem, ha⟩
    · rcases mem_append.mp (hout q (h.awaits q hq) hnot) with hq | hq
      · exact .inl hq
      · exact .inr (.inl (mem_askedBy.mp hq))
    · exact .inr (.inr (mem_filterMap.mpr ⟨e, hmem, ha⟩))
  · intro call hmem
    rw [hcalls, mem_append, mem_singleton] at hmem
    rcases hmem with hmem | rfl
    · obtain ⟨hrun, hb, ha⟩ := h.calls call hmem
      exact ⟨hrun, hb.mono he.locally.toLe, ha.mono he.locally.toLe⟩
    · obtain ⟨a, calls, hrun⟩ := h.core.run
      exact ⟨⟨a, calls, hrun.step hs⟩, (h.core.seen h.valid h.indexed).mono he.locally.toLe,
        hcore.seen he.valid he.indexed⟩

theorem TurnSafe.path (hv : H₀.Valid (quorums τ)) (h : TurnSafe τ H₀ H n disk out t)
    (hheard : ∀ sender m, .message sender m ∈ events → Sent H₀ sender n m)
    (hp : Turn.Path events t t') : ∃ H', TurnSafe τ H₀ H' n disk out t' := by
  refine hp.induction (P := fun t => ∃ H', TurnSafe τ H₀ H' n disk out t) ?_ ⟨H, h⟩
  rintro t t' input result ⟨H, h⟩ hu hc
  obtain ⟨F, hF⟩ := h.core.tracks
  have ho := offered_of_usual h.core.node hF hu fun sender m hm =>
    (hheard sender m hm).mono hv h.locally.toLe
  obtain ⟨H', h'⟩ : ∃ H', TurnSafe τ H₀ H' n (absorbAll disk input.records) out t' :=
    h.call ho hc fun q hq _ => hq
  rw [hu.records] at h'
  exact ⟨H', h'⟩

theorem CoreSafe.turn (hv : H.Valid (quorums τ)) (hi : Indexed H)
    (h : CoreSafe τ H n disk c) (hst : Stored H n disk) (hout : ∀ q, c.Awaits q → q ∈ out) :
    TurnSafe τ H H n disk out { core := c } where
  valid := hv
  indexed := hi
  locally := .refl n H
  core := h
  stored := hst
  sent _ hmem := by simp [sentBy] at hmem
  awaits q hq := mem_append_left _ (hout q hq)
  calls _ hmem := by simp at hmem

theorem CoreSafe.persisted (hv : H.Valid (quorums τ)) (hi : Indexed H)
    (h : CoreSafe τ H n disk c) (hst : Stored H n disk) (hout : ∀ q, c.Awaits q → q ∈ out)
    (hdist : Distinct out) {record : DurableRecord} (hrecord : record ∈ out)
    (hinput : c.completion? record.requestId = some input)
    (hc : Turn.callCore { core := c } input = .ok (t, result)) :
    ∃ H', TurnSafe τ H H' n (absorb disk record.record) (out.erase record) t := by
  obtain ⟨r, hr, hrecords⟩ := Election.Core.completion?_eq_some hinput
  -- The awaited request is the one that was completed.
  have hsame : r = record.record := by
    have := inj_on_of_nodup_map hdist (hout _ hr) hrecord rfl
    rw [← this]
  rw [hsame] at hrecords
  obtain ⟨F, hF⟩ := h.tracks
  have ho : Offered H n c input := by
    refine ⟨fun sender m hm => ?_, ?_, ?_, fun x hx => h.node ▸ hF.install x hx⟩
    · subst hm
      cases m <;> cases hrecords
    · cases input <;> first | rfl | cases hrecords
    · rintro q rfl
      cases hrecords
  have hnew : ∀ q ∈ out ++ askedBy [], q.record ∉ input.records →
      q ∈ out.erase record ++ askedBy [] := by
    intro q hq hnot
    have hq : q ∈ out := by simpa [askedBy] using hq
    refine mem_append_left _ ((mem_erase_of_ne ?_).mpr hq)
    rintro rfl
    exact hnot (by simp [hrecords])
  obtain ⟨H', h'⟩ := (h.turn hv hi hst hout).call ho hc hnew
  rw [hrecords] at h'
  exact ⟨H', h'⟩

end

/-! ## Clusters -/

/-- What the completed disk requests of a host add up to. -/
def diskOf (host : Host) : Recovered := absorbAll {} (host.durable.map DurableRecord.record)

/-- The history describes a node that is up. -/
structure NodeSafe (τ : Topology) (H : Hist) (network : List Envelope) (n : NodeId)
    (disk : Recovered) (out : List DurableRecord) (node : SimulationNode) : Prop where
  queued : ∀ event ∈ node.queued, event.isPersisted = false
  heard : ∀ sender m, .message sender m ∈ node.queued → ⟨sender, n, m⟩ ∈ network
  core : ∀ c, node.core = some c → CoreSafe τ H n disk c ∧ ∀ q, c.Awaits q → q ∈ out

structure HostSafe (τ : Topology) (H : Hist) (network : List Envelope) (n : NodeId)
    (host : Host) : Prop where
  stored : Stored H n (diskOf host)
  distinct : Distinct host.outstanding
  down : host.adapter = none → host.outstanding = []
  node : ∀ node, host.adapter = some node →
    NodeSafe τ H network n (diskOf host) host.outstanding node

/-- The history describes the cluster. -/
structure Safe (τ : Topology) (H : Hist) (s : Cluster) : Prop where
  valid : H.Valid (quorums τ)
  indexed : Indexed H
  network : ∀ envelope ∈ s.network, Sent H envelope.source envelope.dest envelope.message
  hosts : ∀ n, HostSafe τ H s.network n (s.hosts n)

section

variable {s s' : Cluster} {network : List Envelope}

theorem Safe.tidy (h : Safe τ H s) : s.Tidy := fun n node hnode =>
  ((h.hosts n).node node hnode).queued

theorem HostSafe.mono {network' : List Envelope}
    (hv : H.Valid (quorums τ)) (hl : History.Local m H H') (hne : n ≠ m)
    (hsub : network ⊆ network') (h : HostSafe τ H network n host) :
    HostSafe τ H' network' n host where
  stored := h.stored.mono_of_ne hv hl hne
  __ := h
  node node hnode := by
    obtain ⟨hq, hh, hcore⟩ := h.node node hnode
    exact ⟨hq, fun sender m hm => hsub (hh sender m hm),
      fun c hc => ⟨(hcore c hc).1.mono hv hl hne, (hcore c hc).2⟩⟩

theorem Safe.setHost (h : Safe τ H s) (hhost : HostSafe τ H s.network n host) :
    Safe τ H (s.setHost n host) where
  __ := h
  hosts m := by
    simp only [Cluster.setHost]
    split
    case isTrue hm => exact hm ▸ hhost
    case isFalse => exact h.hosts m

theorem Safe.acted (h : Safe τ H s) (he : Extends (quorums τ) n H H')
    (hsent : ∀ envelope ∈ sentBy n actions, Sent H' n envelope.dest envelope.message)
    (hhost : HostSafe τ H' (s.network ++ sentBy n actions) n
      { host with outstanding := host.outstanding ++ askedBy actions }) :
    Safe τ H' (s.acted n host actions) where
  valid := he.valid
  indexed := he.indexed
  network envelope hmem := by
    rcases mem_append.mp hmem with hmem | hmem
    · exact (h.network envelope hmem).mono h.valid he.locally.toLe
    · rw [(mem_sentBy.mp hmem).1]
      exact hsent envelope hmem
  hosts m := by
    simp only [Cluster.acted]
    split
    case isTrue hm => exact hm ▸ hhost
    case isFalse hm =>
      exact (h.hosts m).mono h.valid he.locally hm (subset_append_left _ _)

theorem TurnSafe.acted {t : Turn} {r : Election.NodeStep}
    (h : Safe τ H s) (hnode : NodeSafe τ H s.network n (diskOf (s.hosts n))
      (s.hosts n).outstanding node)
    (ht : TurnSafe τ H H' n (diskOf host) host.outstanding t) (hafter : node.After t r)
    (hadapter : host.adapter = some r.node)
    (hdist : Distinct (host.outstanding ++ askedBy r.actions)) :
    Safe τ H' (s.acted n host r.actions) := by
  rw [hafter.actions] at hdist ⊢
  refine h.acted ht.toExtends ht.sent ⟨ht.stored, hdist, ?_, ?_⟩
  · intro hnone
    have : host.adapter = none := hnone
    rw [hadapter] at this
    cases this
  · intro node' hnode'
    have hnode' : host.adapter = some node' := hnode'
    obtain rfl : r.node = node' := Option.some.inj (hadapter.symm.trans hnode')
    refine ⟨fun event he => hnode.queued event (hafter.queued he), fun sender m hm => ?_, ?_⟩
    · exact mem_append_left _ (hnode.heard sender m (hafter.queued hm))
    · intro c hc
      rw [hafter.core] at hc
      cases hc
      exact ⟨ht.core, ht.awaits⟩

theorem askedBy_bookkeeping {effects : List Effect} (h : ∀ e ∈ effects, e.bookkeeping = true) :
    askedBy (effects.filterMap Effect.action?) = [] ∧
      sentBy n (effects.filterMap Effect.action?) = [] := by
  have hkind : ∀ action ∈ effects.filterMap Effect.action?, (∀ q, action ≠ .persist q) ∧
      ∀ dest m, action ≠ .send dest m := by
    intro action ha
    obtain ⟨e, he, ha⟩ := mem_filterMap.mp ha
    have := h e he
    cases e <;> cases ha <;> first
      | (simp; done)
      | cases this
  refine ⟨List.eq_nil_iff_forall_not_mem.mpr fun q hq => ?_,
    List.eq_nil_iff_forall_not_mem.mpr fun envelope hm => ?_⟩
  · exact (hkind _ (mem_askedBy.mp hq)).1 q rfl
  · exact (hkind _ (mem_sentBy.mp hm).2).2 _ _ rfl

theorem Safe.started {c₀ core : Core}
    (h : Safe τ H s) (hmember : n ∈ τ.nodes) (hnode : (s.hosts n).adapter = some node)
    (hmake : node.config.rebuild n (τ.peers n) (s.hosts n).durable = .ok c₀)
    (hstart : c₀.start = .ok (core, result)) :
    Safe τ H (s.acted n { s.hosts n with adapter := some { node with core := some core } }
      (result.effects.filterMap Effect.action?)) := by
  simp only [Election.SimulationConfig.rebuild, Except.bind_eq_ok] at hmake
  obtain ⟨disk, hread, hmake⟩ := hmake
  have hdisk : disk = diskOf (s.hosts n) := readAll_eq_ok hread
  subst hdisk
  obtain ⟨hst, hdist, _, hnodes⟩ := h.hosts n
  obtain ⟨hF, hholds, hn, hp⟩ := hst.restart h.valid h.indexed hmake hstart
  obtain ⟨_, hrec, _, hlog, happ, hsnap, _⟩ := Election.Core.make_eq_ok hmake
  obtain ⟨hsame, hbook⟩ := Election.Core.start_eq_ok hstart
  obtain ⟨hnone, hnone'⟩ := askedBy_bookkeeping (n := n) hbook
  refine h.acted ⟨h.valid, h.indexed, .refl n H⟩ (by rw [hnone']; simp) ⟨hst, ?_, ?_, ?_⟩
  · rw [hnone, append_nil]
    exact hdist
  · rintro ⟨⟩
  · rintro node' ⟨⟩
    obtain ⟨hq, hh, _⟩ := hnodes node hnode
    refine ⟨hq, fun sender m hm => mem_append_left _ (hh sender m hm), ?_⟩
    rintro c ⟨⟩
    refine ⟨⟨hmember, hn, hp, ⟨_, _, .start hmake hstart⟩, ⟨_, hF⟩, hholds⟩, fun q hq => ?_⟩
    cases hq with
    | log hp => cases (hsame.pendingLog.trans hlog).symm.trans hp
    | snapshot hp => cases (hsame.pendingSnapshot.trans hsnap).symm.trans hp
    | hardState hp =>
      obtain ⟨_, _, _, _, _, _, hpend, _⟩ := Election.recoverState_eq_ok hrec
      rw [hsame.state] at hp
      cases hpend.symm.trans hp
    | application hp => cases (hsame.pendingApplication.trans happ).symm.trans hp

/-- **A step of the cluster extends the history.** -/
theorem Safe.change {calls : List Call} (h : Safe τ H s)
    (hc : Election.Cluster.Change τ s n s' calls) :
    ∃ H', H.Le H' ∧ Safe τ H' s' ∧ ∀ call ∈ calls, CallSeen τ H' n call := by
  obtain ⟨hst, hdist, hdown, hnodes⟩ := h.hosts n
  cases hc with
  | ignored => exact ⟨H, .refl H, h, by simp⟩
  | lost hnone hrecord =>
    rw [hdown hnone] at hrecord
    cases hrecord
  | crashed =>
    refine ⟨H, .refl H, h.setHost ⟨hst, ?_, fun _ => rfl, ?_⟩, by simp⟩
    · simp [Distinct]
    · rintro node ⟨⟩
  | restarted hnone =>
    refine ⟨H, .refl H, h.setHost ⟨hst, hdist, ?_, ?_⟩, by simp⟩
    · rintro ⟨⟩
    · rintro node ⟨⟩
      refine ⟨?_, ?_, ?_⟩
      · rintro event ⟨⟩
      · rintro sender m ⟨⟩
      · rintro c ⟨⟩
  | @queued node core event hnode hcore hp hsent =>
    refine ⟨H, .refl H, h.setHost ⟨hst, hdist, ?_, ?_⟩, by simp⟩
    · rintro ⟨⟩
    · rintro node' ⟨⟩
      obtain ⟨hq, hh, hsafe⟩ := hnodes node hnode
      refine ⟨forall_mem_concat hq hp, fun sender m hm => ?_, hsafe⟩
      rcases mem_append.mp hm with hm | hm
      · exact hh sender m hm
      · exact hsent sender m (mem_singleton.mp hm).symm
  | started hmember hnode _ hmake hstart =>
    exact ⟨H, .refl H, h.started hmember hnode hmake hstart, by simp⟩
  | @turned node core t r events hnode hcore hsent hpath hafter hdist' =>
    obtain ⟨hsafe, hawaits⟩ := (hnodes node hnode).core core hcore
    have hheard : ∀ sender m, .message sender m ∈ events → Sent H sender n m := by
      intro sender m hm
      rcases hsent sender m hm with hm | hm
      · exact h.network _ ((hnodes node hnode).heard sender m hm)
      · exact h.network _ hm
    obtain ⟨H', ht⟩ := (hsafe.turn h.valid h.indexed hst hawaits).path h.valid hheard hpath
    refine ⟨H', ht.locally.toLe, ht.acted h (hnodes node hnode) hafter rfl (hdist' hdist), ?_⟩
    rw [hafter.calls]
    exact ht.calls
  | @persisted node core t₁ t r record input result hnode hcore hrecord hinput hcall hpath hafter
      hdist' =>
    obtain ⟨hsafe, hawaits⟩ := (hnodes node hnode).core core hcore
    -- the record first reaches the disk, then the core is told
    obtain ⟨H₁, ht₁⟩ := hsafe.persisted h.valid h.indexed hst hawaits hdist hrecord hinput hcall
    obtain ⟨H', ht⟩ := ht₁.path h.valid
      (fun sender m hm => h.network _ ((hnodes node hnode).heard sender m hm)) hpath
    have hdisk : absorb (diskOf (s.hosts n)) record.record = diskOf {
        adapter := some r.node
        durable := (s.hosts n).durable ++ [record]
        outstanding := (s.hosts n).outstanding.erase record } := by
      simp [diskOf, absorbAll]
    rw [hdisk] at ht
    refine ⟨H', ht.locally.toLe, ht.acted h (hnodes node hnode) hafter rfl (hdist' ?_), ?_⟩
    · exact hdist.sublist (List.erase_sublist.map _)
    · rw [hafter.calls]
      exact ht.calls

/-! ## Runs -/

theorem Safe.init (τ : Topology) : Safe τ History.empty (Cluster.init τ) where
  valid := History.empty_valid (quorums τ)
  indexed T i e he := by simp [History.empty] at he
  network _ hmem := by simp [Cluster.init] at hmem
  hosts n := by
    refine ⟨.empty n, by simp [Distinct, Cluster.init], fun _ => rfl, ?_⟩
    rintro node ⟨⟩
    refine ⟨?_, ?_, ?_⟩
    · rintro event ⟨⟩
    · rintro sender m ⟨⟩
    · rintro c ⟨⟩

end

end KuraMetadata.Replica

namespace KuraMetadata.Election

/-- The core of a node that is up and has started. -/
def Cluster.core? (s : Cluster) (n : NodeId) : Option Core :=
  (s.hosts n).adapter.bind fun node => node.core

/-- The core of the node `n` is `c` after the step, or before or after a call within it. -/
def Moment.Shows (m : Moment) (n : NodeId) (c : Core) : Prop :=
  m.post.core? n = some c ∨
    (m.action.node = n ∧ ∃ call ∈ m.calls, c = call.before ∨ c = call.after)

end KuraMetadata.Election

namespace KuraMetadata.Replica

open Election (Core Topology Cluster Moment Run)
open Consensus (History)

variable {τ : Topology} {H : Hist} {s : Cluster}

theorem Safe.core {n : NodeId} {c : Core} (h : Safe τ H s) (hc : s.core? n = some c) :
    CoreSafe τ H n (diskOf (s.hosts n)) c := by
  obtain ⟨node, hnode, hcore⟩ := Option.bind_eq_some_iff.mp hc
  exact (((h.hosts n).node node hnode).core c hcore).1

/-- **Every run has a history.** -/
theorem run_history {moments : List Moment} (run : Run τ moments s) :
    ∃ H, Safe τ H s ∧ (∀ m ∈ moments, ∀ n c, m.Shows n c → Seen τ H n c) ∧
      ∀ m ∈ moments, ∀ call ∈ m.calls, CallSeen τ H m.action.node call := by
  induction run with
  | init => exact ⟨History.empty, .init τ, by simp, by simp⟩
  | @step moments s s' action calls run hstep ih =>
    obtain ⟨H, h, hseen, hcalls⟩ := ih
    obtain ⟨H', hle, h', hnew⟩ := h.change (Election.Cluster.step_change h.tidy hstep)
    refine ⟨H', h', fun m hm n c hshow => ?_, fun m hm call hcall => ?_⟩
    · rcases List.mem_append.mp hm with hm | hm
      · exact (hseen m hm n c hshow).mono hle
      · rw [List.mem_singleton.mp hm] at hshow
        rcases hshow with hcore | ⟨rfl, call, hcall, rfl | rfl⟩
        · exact (h'.core hcore).seen h'.valid h'.indexed
        · exact (hnew call hcall).before
        · exact (hnew call hcall).after
    · rcases List.mem_append.mp hm with hm | hm
      · obtain ⟨hs, hb, ha⟩ := hcalls m hm call hcall
        exact ⟨hs, hb.mono hle, ha.mono hle⟩
      · obtain rfl := List.mem_singleton.mp hm
        exact hnew call hcall

end KuraMetadata.Replica
