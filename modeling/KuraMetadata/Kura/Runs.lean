import KuraMetadata.Kura.Tables

/-! # Runs of the world

Soundness is kept by every step, so a property of a table holds in all runs if each `TableStep`
keeps it. -/

namespace KuraMetadata.Kura

open Std InMemoryMetadataStore List Option

variable {catalogs : Nat → Identifier} {allowed : World → Action → Prop} {initial : Int}
variable {w w' : World} {action : Action} {operation : ClientOperation} {program : Program Outcome}
variable {p : Nat} {before : InMemoryMetadataStore} {process : Process}

/-! ## One step -/

theorem step_change (h : w.step catalogs action = some w') :
    ∃ batch, Change w.store batch w'.store := by
  cases action with
  | start process operation =>
    obtain ⟨-, ⟨⟩⟩ := ite_none_right_eq_some.mp h
    rw [settle_store]
    exact ⟨none, Change.refl _⟩
  | advance process tick =>
    simp only [World.step] at h
    split at h
    · cases h
      rw [settle_store]
      exact answer_change w tick _
    · cases h
  | expire tick =>
    cases h
    have hchange := Call.change ⟨w.store, .expireLeases tick⟩
    unfold Call.after Call.outcome Operation.run at hchange
    rw [EStateM.state_bind_pure] at hchange
    exact ⟨_, hchange⟩
  | other operation =>
    obtain ⟨-, ⟨⟩⟩ := ite_none_right_eq_some.mp h
    exact ⟨_, Call.change ⟨w.store, operation⟩⟩

/-- How a step has come to settle a process with a program: it has started the operation, or it
has answered the call the process was at. -/
inductive Settling (catalogs : Nat → Identifier) (w : World) (p : Nat)
    (operation : ClientOperation) : Action → World → Program Outcome → Prop
  | started (holds : w.holds operation = true) :
      Settling catalogs w p operation (.start p operation) w (operation.program catalogs)
  | answered {request : Request} {next : Except ClientException (Answer request) → Program Outcome}
      {tick : Nat} (running : w.processes[p]? = some ⟨operation, .call request next⟩) :
      Settling catalogs w p operation (.advance p tick) (w.answer tick request).2
        (next (w.answer tick request).1)

/-- A step settles one process or leaves all processes and reports alone. -/
theorem step_settles (h : w.step catalogs action = some w') :
    (w'.finished = w.finished ∧ w'.processes = w.processes ∧ ∀ p tick, action ≠ .advance p tick)
      ∨ ∃ v p operation program before tick, w' = World.settle v p operation program before tick
        ∧ v.finished = w.finished ∧ v.processes = w.processes
        ∧ Settling catalogs w p operation action v program := by
  cases action with
  | start process operation =>
    obtain ⟨⟨-, holds⟩, ⟨⟩⟩ := ite_none_right_eq_some.mp h
    exact .inr ⟨_, _, _, _, _, _, rfl, rfl, rfl, Settling.started holds⟩
  | advance process tick =>
    simp only [World.step] at h
    split at h
    · rename_i operation request next running
      cases h
      obtain ⟨hfinished, hprocesses⟩ := answer_frame w tick request
      exact .inr ⟨_, _, _, _, _, _, rfl, hfinished, hprocesses, Settling.answered running⟩
    · cases h
  | expire tick =>
    cases h
    exact .inl ⟨rfl, rfl, fun p tick h => by cases h⟩
  | other operation =>
    obtain ⟨-, ⟨⟩⟩ := ite_none_right_eq_some.mp h
    exact .inl ⟨rfl, rfl, fun p tick h => by cases h⟩

theorem settle_processes {q : Nat} {tick : Nat}
    (h : (w.settle p operation program before tick).processes[q]? = some process) :
    (q ≠ p ∧ w.processes[q]? = some process)
      ∨ (q = p ∧ process = ⟨operation, program⟩
        ∧ ∃ request next, program = .call request next) := by
  cases program with
  | done outcome =>
    obtain ⟨hne, hq⟩ := ExtTreeMap.getElem?_erase_eq_some.mp h
    exact .inl ⟨hne.symm, hq⟩
  | call request next =>
    rcases ExtTreeMap.getElem?_insert_eq_some.mp h with ⟨heq, rfl⟩ | ⟨hne, hq⟩
    · exact .inr ⟨heq.symm, rfl, request, next, rfl⟩
    · exact .inl ⟨hne.symm, hq⟩

/-- A process after a step was there before and is not the one that advanced, or the step has
settled it. -/
theorem process_of_step {q : Nat} (h : w.step catalogs action = some w')
    (hq : w'.processes[q]? = some process) :
    (w.processes[q]? = some process ∧ ∀ tick, action ≠ .advance q tick)
      ∨ ∃ v operation program before tick, process = ⟨operation, program⟩
        ∧ w' = World.settle v q operation program before tick
        ∧ Settling catalogs w q operation action v program := by
  rcases step_settles h with
    ⟨-, hprocesses, hidle⟩ | ⟨v, p, operation, program, before, tick, rfl, -, hprocesses, horigin⟩
  · rw [hprocesses] at hq
    exact .inl ⟨hq, hidle q⟩
  rcases settle_processes hq with ⟨hne, hq⟩ | ⟨rfl, rfl, -⟩
  · rw [hprocesses] at hq
    refine .inl ⟨hq, fun tick haction => ?_⟩
    subst haction
    cases horigin
    exact hne rfl
  · exact .inr ⟨v, operation, program, before, tick, rfl, rfl, horigin⟩

theorem settle_finished (w : World) (p : Nat) (operation : ClientOperation)
    (program : Program Outcome) (before : InMemoryMetadataStore) (tick : Nat) :
    w.finished <+: (w.settle p operation program before tick).finished := by
  cases program with
  | done outcome => exact prefix_append _ _
  | call request next => exact prefix_rfl

@[simp]
theorem settle_sequences (w : World) (p : Nat) (operation : ClientOperation)
    (program : Program Outcome) (before : InMemoryMetadataStore) (tick : Nat) :
    (w.settle p operation program before tick).sequences = w.sequences := by
  cases program <;> rfl

theorem step_finished (h : w.step catalogs action = some w') : w.finished <+: w'.finished := by
  rcases step_settles h with ⟨hfinished, -⟩ | ⟨v, _, _, _, _, _, rfl, hfinished, -, -⟩
  · rw [hfinished]
  · rw [← hfinished]
    exact settle_finished _ _ _ _ _ _

theorem holds_of_finished (h : w.finished <+: w'.finished) (holds : w.holds operation = true) :
    w'.holds operation = true := by
  have hwriters : w.writers <+: w'.writers := h.filterMap _
  have hsessions : w.sessions <+: w'.sessions := h.filterMap _
  cases operation with
  | publishSnapshot client guard expectedRevision pointer =>
    exact decide_eq_true (hwriters.subset (of_decide_eq_true holds))
  | keepAlive session | close session =>
    exact decide_eq_true (hsessions.subset (of_decide_eq_true holds))
  | acquireWriter | registerReader | awaitSnapshotChange | collectSnapshot | currentSnapshot =>
    rfl

theorem program_writer (operation : ClientOperation) :
    (operation.program catalogs).Returns fun outcome =>
      ∀ guard, outcome = .writer guard → IsTableRoot guard.tablePrefix := by
  have hplain : ∀ {α : Type} (p : Program α) {f : α → Outcome}, (∀ a guard, f a ≠ .writer guard) →
      (p >>= fun a => pure (f a)).Returns fun outcome =>
        ∀ guard, outcome = .writer guard → IsTableRoot guard.tablePrefix := by
    intro α p f hf
    exact p.returns_true.bind fun a _ guard h => absurd h (hf a guard)
  cases operation with
  | acquireWriter client tableId ttl =>
    refine Calls.Returns.bind (P := fun guard => IsTableRoot guard.tablePrefix) ?_ ?_
    · unfold acquireWriter
      split
      · trivial
      refine Calls.Returns.bind (Calls.returns_ofExcept fun root h => h) fun root htable => ?_
      refine (Calls.returns_true _).bind fun current _ => ?_
      refine (Calls.returns_true _).bind fun granted _ => ?_
      refine (Calls.returns_true _).bind fun claim _ => ?_
      split
      · exact (Calls.returns_true _).bind fun _ _ => trivial
      · exact isTableRoot_of_tablePrefix htable
    · rintro guard hguard _ ⟨⟩
      exact hguard
  | publishSnapshot | registerReader | awaitSnapshotChange | collectSnapshot | currentSnapshot
  | keepAlive | close => exact hplain _ fun a guard h => by cases h

/-! ## Soundness -/

theorem mem_writers_settle {tick : Nat}
    {guard : WriterGuard} (h : guard ∈ (w.settle p operation program before tick).writers) :
    guard ∈ w.writers ∨ program = .done (.ok (.writer guard)) := by
  cases program with
  | call request next => exact .inl h
  | done outcome =>
    simp only [World.settle, World.writers, filterMap_append, mem_append,
      mem_filterMap, mem_singleton, exists_eq_left] at h
    refine h.imp (fun h => mem_filterMap.mpr h) fun h => ?_
    split at h
    · cases h
      simp_all
    · cases h

/-- Where the process that a step settles stands. -/
theorem Sound.within {v : World} (sound : Sound catalogs initial w)
    (h : Settling catalogs w p operation action v program) :
    (operation.program catalogs).Within inProcess program ∧ w.holds operation = true := by
  cases h with
  | started holds => exact ⟨Calls.Within.refl _, holds⟩
  | answered running =>
    obtain ⟨hwithin, holds⟩ := sound.running running
    exact ⟨hwithin.next (answer_inProcess _ _ _), holds⟩

theorem Sound.step (sound : Sound catalogs initial w) (h : w.step catalogs action = some w') :
    Sound catalogs initial w' := by
  obtain ⟨_, hchange⟩ := step_change h
  have hkept : ∀ {p : Nat} {process : Process}, w.processes[p]? = some process →
      (process.operation.program catalogs).Within inProcess process.program
        ∧ w'.holds process.operation = true := fun hp =>
    ⟨(sound.running hp).1, holds_of_finished (step_finished h) (sound.running hp).2⟩
  refine ⟨sound.store.change hchange, fun {q process} hq => ?_, fun guard hguard => ?_⟩
  · rcases process_of_step h hq with ⟨hq, -⟩ | ⟨_, _, _, _, _, rfl, -, horigin⟩
    · exact hkept hq
    · obtain ⟨hwithin, holds⟩ := sound.within horigin
      exact ⟨hwithin, holds_of_finished (step_finished h) holds⟩
  · rcases step_settles h with ⟨hsame, -⟩ | ⟨v, _, operation, _, _, _, rfl, hsame, -, horigin⟩
    · rw [writers_of_finished hsame] at hguard
      exact sound.writers guard hguard
    · rcases mem_writers_settle hguard with hguard | rfl
      · rw [writers_of_finished hsame] at hguard
        exact sound.writers guard hguard
      · exact (program_writer operation).of_within (sound.within horigin).1 guard rfl

/-! ## Runs -/

theorem Sound.opened {store : InMemoryMetadataStore} (opened : Opened store) :
    Sound catalogs store.revision { store } := by
  refine ⟨opened.wellFormed, fun {p process} hp => ?_, forall_mem_nil _⟩
  rw [ExtTreeMap.getElem?_empty] at hp
  cases hp

theorem Sound.reaches (sound : Sound catalogs initial w) (run : Reaches catalogs allowed w w') :
    Sound catalogs initial w' := by
  induction run with
  | refl => exact sound
  | snoc _ _ hstep ih => exact ih.step hstep

/-- What the steps on a table keep holds in every run. -/
theorem Sound.table_induct {root : ByteSequence} {P : World → Prop}
    (sound : Sound catalogs initial w)
    (hroot : IsTableRoot root) (run : Reaches catalogs allowed w w') (init : P w)
    (step : ∀ {v v' : World} {action : Action}, Sound catalogs initial v →
      Sound catalogs initial v' → allowed v action → v.step catalogs action = some v' →
      TableStep catalogs root v action v' → P v → P v') : P w' := by
  induction run with
  | refl => exact init
  | snoc run hallowed hstep ih =>
    have hsound := sound.reaches run
    exact step hsound (hsound.step hstep) hallowed hstep (hsound.tableStep hroot hstep) ih

/-! ## Scripts -/

/-- The world after the actions, if each of them passes the check and can be taken. -/
def World.play (catalogs : Nat → Identifier) (check : World → Action → Bool) :
    World → List Action → Option World
  | w, [] => some w
  | w, action :: actions =>
    if check w action then
      (w.step catalogs action).bind fun w' => World.play catalogs check w' actions
    else none

theorem Reaches.of_play {check : World → Action → Bool} {actions : List Action}
    (hcheck : ∀ w action, check w action = true → allowed w action)
    (h : World.play catalogs check w actions = some w') : Reaches catalogs allowed w w' := by
  suffices hrun : ∀ v, Reaches catalogs allowed w v →
      World.play catalogs check v actions = some w' → Reaches catalogs allowed w w' from
    hrun w Reaches.refl h
  clear h
  induction actions with
  | nil =>
    intro v run h
    cases h
    exact run
  | cons action actions ih =>
    intro v run h
    simp only [World.play, ite_none_right_eq_some, bind_eq_some_iff] at h
    obtain ⟨hchecked, v', hstep, h⟩ := h
    exact ih v' (run.snoc (hcheck v action hchecked) hstep) h

/-- Clients of one catalog. -/
def oneCatalog (_ : Nat) : Identifier := ⟨ascii ['c'], by decide +kernel⟩

def someTable : ByteSequence := ascii ['t']

def someRoot : ByteSequence := tableRoot (ascii ['c']) someTable

theorem isTableRoot_someRoot : IsTableRoot someRoot :=
  ⟨ascii ['c'], someTable, by decide +kernel, by decide +kernel, rfl⟩

/-- A pointer to the snapshot with the id. -/
def somePointer (snapshotId : ByteSequence) : SnapshotPointer :=
  { snapshotId, manifestUri := ascii ['m'], schemaId := ascii ['s'], integrityHash := ascii ['h'] }

end KuraMetadata.Kura
