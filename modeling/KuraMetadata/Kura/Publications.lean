import KuraMetadata.Kura.Runs
import KuraMetadata.Store.History

/-! # Publications on one table

The publications on a table form one chain: each expects the revision of the one before it, and
each is made while its guard's lease holds the writer key. The invariant is that the current key
was modified last by the last publication; nothing else writes it, and it is attached to no
lease. -/

namespace KuraMetadata.Kura

open Std InMemoryMetadataStore List
open ExtTreeMap (getElem?_insert_of_ne getElem?_insert_self)

variable {catalogs : Nat → Identifier} {initial first : Int} {w w' : World} {root : ByteSequence}
variable {publications : List Publication} {publication : Publication} {action : Action}
variable {store : InMemoryMetadataStore}

/-! ## Chains -/

/-- Each publication expects the revision of the one before it, the first one `first`. -/
def Chained (first : Int) : List Publication → Prop
  | [] => True
  | publication :: publications =>
    publication.expectedRevision = first ∧ Chained publication.revision publications

/-- The revision of the last publication. -/
def lastRevision (first : Int) : List Publication → Int
  | [] => first
  | publication :: publications => lastRevision publication.revision publications

theorem lastRevision_append (first : Int) (publications : List Publication)
    (publication : Publication) :
    lastRevision first (publications ++ [publication]) = publication.revision := by
  induction publications generalizing first with
  | nil => rfl
  | cons _ publications ih => exact ih _

theorem Chained.append (h : Chained first publications)
    (hnext : publication.expectedRevision = lastRevision first publications) :
    Chained first (publications ++ [publication]) := by
  induction publications generalizing first with
  | nil => exact ⟨hnext, trivial⟩
  | cons earlier publications ih => exact ⟨h.1, ih h.2 hnext⟩

theorem Chained.expected_increasing (h : Chained first publications)
    (hrevisions : (first :: publications.map (·.revision)).Pairwise (· < ·)) :
    (publications.map (·.expectedRevision)).Pairwise (· < ·)
      ∧ ∀ publication ∈ publications, first ≤ publication.expectedRevision := by
  induction publications generalizing first with
  | nil => exact ⟨List.Pairwise.nil, forall_mem_nil _⟩
  | cons publication publications ih =>
    obtain ⟨hexpected, hrest⟩ := h
    rw [map_cons, pairwise_cons] at hrevisions
    obtain ⟨hfirst, hrevisions⟩ := hrevisions
    obtain ⟨hincreasing, hbounds⟩ := ih hrest hrevisions
    have hbefore : first < publication.revision := hfirst _ mem_cons_self
    refine ⟨?_, ?_⟩
    · rw [map_cons, pairwise_cons]
      refine ⟨fun expected hmem => ?_, hincreasing⟩
      obtain ⟨later, hlater, rfl⟩ := mem_map.mp hmem
      have := hbounds later hlater
      omega
    · intro later hlater
      rcases mem_cons.mp hlater with rfl | hlater
      · exact hexpected.ge
      · have := hbounds later hlater
        omega

/-! ## Fencing -/

/-- When the publication was made, the writer key was attached to its guard's lease, and that
generation of the lease had not expired. -/
def Fenced (root : ByteSequence) (publication : Publication) : Prop :=
  Live publication.before publication.guard.lease publication.tick
    ∧ ∃ writer lease, publication.before.values[writerKey root]? = some writer
      ∧ writer.leaseId = publication.guard.lease.id
      ∧ publication.before.leases[publication.guard.lease.id]? = some lease
      ∧ writerKey root ∈ lease.attachedKeys

theorem fenced_of_owned (wf : WellFormed initial publication.before)
    (live : Live publication.before publication.guard.lease publication.tick)
    (owned : ∃ writer, publication.before.values[writerKey root]? = some writer
      ∧ writer.leaseId = publication.guard.lease.id) : Fenced root publication := by
  obtain ⟨writer, hwriter, hleased⟩ := owned
  have hne : writer.leaseId ≠ 0 := hleased ▸ live.id_ne_zero wf
  obtain ⟨lease, hlease, hattached⟩ := wf.index.attached hwriter hne
  rw [hleased] at hlease
  exact ⟨live, writer, lease, hwriter, hleased, hlease, hattached⟩

/-! ## The invariant -/

/-- The publications on a table, against what the store holds. -/
structure Publishing (root : ByteSequence) (w : World) : Prop where
  chained : Chained 0 (w.publications root)
  fenced : ∀ publication ∈ w.publications root, Fenced root publication
  current : (w.store.values[currentKey root]?.map (·.modRevision)).getD 0
    = lastRevision 0 (w.publications root)
  unleased : ∀ {value : KeyValue}, w.store.values[currentKey root]? = some value →
    value.leaseId = 0
  increasing : (0 :: (w.publications root).map (·.revision)).Pairwise (· < ·)
  past : ∀ publication ∈ w.publications root, publication.revision ≤ w.store.revision

theorem step_revision_le (h : w.step catalogs action = some w') :
    w.store.revision ≤ w'.store.revision := by
  obtain ⟨batch, hchange⟩ := step_change h
  rcases hchange.revision with ⟨hrevision, -⟩ | ⟨hrevision, -⟩ <;> omega

/-- A step that publishes nothing and leaves the current key alone. -/
theorem Publishing.of_kept (h : Publishing root w)
    (kept : w'.store.values[currentKey root]? = w.store.values[currentKey root]?)
    (publications : w'.publications root = w.publications root)
    (revision : w.store.revision ≤ w'.store.revision) : Publishing root w' := by
  constructor
  · rw [publications]
    exact h.chained
  · rw [publications]
    exact h.fenced
  · rw [publications, kept]
    exact h.current
  · rw [kept]
    exact h.unleased
  · rw [publications]
    exact h.increasing
  · rw [publications]
    exact fun publication hmem => (h.past publication hmem).trans revision

theorem Publishing.step (sound : Sound catalogs initial w)
    (sound' : Sound catalogs initial w') (h : Publishing root w)
    (hstep : w.step catalogs action = some w')
    (step : TableStep catalogs root w action w') : Publishing root w' := by
  have hrevision := step_revision_le hstep
  cases step with
  | quiet kept reports =>
    exact h.of_kept (kept _ (isPrefix_currentKey root)) (congrArg Reports.publications reports)
      hrevision
  | claimed running table live free leased values reports =>
    refine h.of_kept ?_ (congrArg Reports.publications reports) hrevision
    rw [values, getElem?_insert_of_ne (currentKey_ne_writerKey root).symm]
  | registered running table encodes live found reads leased values reports =>
    refine h.of_kept ?_ (congrArg Reports.publications reports) hrevision
    rw [values, getElem?_insert_of_ne (currentKey_ne_readerKey root _).symm]
  | collected running table range unreferenced values reports =>
    refine h.of_kept ?_ (congrArg Reports.publications reports) hrevision
    rw [values, if_neg (currentKey_ne_snapshotKey root _)]
  | released removed origin reports =>
    -- the current key belongs to no lease, so no cleanup removes it
    refine h.of_kept (Option.ext fun value => ?_) (congrArg Reports.publications reports) hrevision
    rw [removed.2]
    refine ⟨And.left, fun hvalue => ⟨hvalue, ?_⟩⟩
    rw [h.unleased hvalue]
    exact removed.1
  | @published _ tick _ guard expectedRevision _ _ current _ _ running held table encodes live
      expected owned values currentValue snapshotValue reports =>
    have publications : w'.publications root = w.publications root
        ++ [⟨guard, expectedRevision, w.store.revision + 1, w.store, tick⟩] :=
      congrArg Reports.publications reports
    have hcurrent : w'.store.values[currentKey root]? = some current := by
      rw [values, getElem?_insert_of_ne (currentKey_ne_snapshotKey root _).symm,
        getElem?_insert_self]
    have hnow : w.store.revision + 1 ≤ w'.store.revision :=
      currentValue.2.2 ▸ (sound'.store.dated hcurrent).2.present
    have hnonneg := sound.store.opened
    constructor
    · rw [publications]
      exact h.chained.append (expected.symm.trans h.current)
    · rw [publications]
      exact forall_mem_concat h.fenced (fenced_of_owned sound.store live owned)
    · rw [publications, lastRevision_append, hcurrent]
      exact currentValue.2.2
    · intro value hvalue
      rw [hcurrent] at hvalue
      cases hvalue
      exact currentValue.2.1
    · rw [publications, map_append, ← cons_append, pairwise_append]
      refine ⟨h.increasing, pairwise_singleton _ _, fun revision hmem later hlater => ?_⟩
      rw [mem_singleton.mp hlater]
      rcases mem_cons.mp hmem with rfl | hmem
      · show (0 : Int) < w.store.revision + 1
        omega
      · obtain ⟨publication, hpublication, rfl⟩ := mem_map.mp hmem
        have := h.past publication hpublication
        show publication.revision < w.store.revision + 1
        omega
    · rw [publications]
      exact forall_mem_concat (fun publication hmem => (h.past publication hmem).trans hrevision)
        hnow

/-- A table that has never been written. -/
def Untouched (root : ByteSequence) (s : InMemoryMetadataStore) : Prop :=
  ∀ key, root <+: key → s.values[key]? = none

theorem Publishing.opened (untouched : Untouched root store) : Publishing root { store } := by
  have hnone : store.values[currentKey root]? = none := untouched _ (isPrefix_currentKey root)
  refine ⟨trivial, forall_mem_nil _, ?_, fun {value} hvalue => ?_, pairwise_singleton _ _,
    forall_mem_nil _⟩
  · show (store.values[currentKey root]?.map (·.modRevision)).getD 0 = 0
    rw [hnone]
    rfl
  · have : store.values[currentKey root]? = some value := hvalue
    rw [hnone] at this
    cases this

/-- However the operations of the clients, the closing of guards and the expiry of leases are
interleaved, the publications reported on a table are one chain from revision 0, each of them
made while the writer key was attached to its guard's unexpired lease, and no two of them expect
the same revision. -/
theorem publications_fenced_chain (opened : Opened store)
    (hroot : IsTableRoot root) (untouched : Untouched root store)
    (run : Reaches catalogs anything { store } w) :
    Chained 0 (w.publications root)
      ∧ (∀ publication ∈ w.publications root, Fenced root publication)
      ∧ ((w.publications root).map (·.expectedRevision)).Nodup := by
  have hinvariant : Publishing root w :=
    (Sound.opened opened).table_induct hroot run (Publishing.opened untouched)
      fun sound sound' _ hstep step h => h.step sound sound' hstep step
  refine ⟨hinvariant.chained, hinvariant.fenced, ?_⟩
  have hincreasing := (hinvariant.chained.expected_increasing hinvariant.increasing).1
  exact hincreasing.imp fun hlt => hlt.ne

theorem untouched_emptyStore : Untouched root emptyStore := fun _ _ => ExtTreeMap.getElem?_empty

/-- A writer publishes twice and closes its guard, and the next one publishes on. -/
def twoWriters : List Action :=
  [.start 0 (.acquireWriter 0 someTable 10), .advance 0 1, .advance 0 1, .advance 0 1,
   .start 1 (.publishSnapshot 0 ⟨⟨1, 1⟩, someRoot, 0⟩ 0 (somePointer (ascii ['1']))),
   .advance 1 2, .advance 1 2,
   .start 2 (.publishSnapshot 0 ⟨⟨1, 1⟩, someRoot, 0⟩ 2 (somePointer (ascii ['2']))),
   .advance 2 3, .advance 2 3,
   .start 3 (.close ⟨1, 1⟩), .advance 3 4, .advance 3 4,
   .start 4 (.acquireWriter 1 someTable 10), .advance 4 5, .advance 4 5, .advance 4 5,
   .start 5 (.publishSnapshot 1 ⟨⟨2, 2⟩, someRoot, 3⟩ 3 (somePointer (ascii ['3']))),
   .advance 5 6, .advance 5 6]

theorem publications_fenced_chain_twoWriters :
    ∃ w : World, (w.publications someRoot).map (·.expectedRevision) = [0, 2, 3]
      ∧ Chained 0 (w.publications someRoot)
      ∧ ∀ publication ∈ w.publications someRoot, Fenced someRoot publication := by
  have hplay : (World.play oneCatalog (fun _ _ => true) { store := emptyStore } twoWriters).map
      (fun w => (w.publications someRoot).map (·.expectedRevision)) = some [0, 2, 3] := by
    decide +kernel
  obtain ⟨w, hw, hexpected⟩ := Option.map_eq_some_iff.mp hplay
  have run : Reaches oneCatalog anything { store := emptyStore } w :=
    Reaches.of_play (fun _ _ _ => trivial) hw
  obtain ⟨hchained, hfenced, -⟩ :=
    publications_fenced_chain emptyStore_opened isTableRoot_someRoot untouched_emptyStore run
  exact ⟨w, hexpected, hchained, hfenced⟩

/-! ## Collection of snapshots

A snapshot that the current pointer or a reader refers to stays. Collection checks both under
the backend's mutex, so the invariant only has to be kept by each call: a publication writes the
snapshot with the pointer, a registration checks that its snapshot is there, and the removal of
leases takes readers but no snapshot. -/

/-- What the current pointer and the readers of the table refer to is there. -/
structure Retained (root : ByteSequence) (s : InMemoryMetadataStore) : Prop where
  current : ∀ {value : KeyValue}, s.values[currentKey root]? = some value →
    ∃ pointer snapshot, decodePointer value.value = .ok pointer
      ∧ s.values[snapshotKey root pointer.snapshotId]? = some snapshot
      ∧ snapshot.value = value.value
  readers : ∀ {readerId : ByteSequence} {reader : KeyValue},
    s.values[readerKey root readerId]? = some reader →
    ∃ snapshot, s.values[snapshotKey root reader.value]? = some snapshot

/-- The invariant: besides, neither the current pointer nor a snapshot is attached to a lease. -/
structure Referenced (root : ByteSequence) (s : InMemoryMetadataStore) : Prop where
  retained : Retained root s
  current : ∀ {value : KeyValue}, s.values[currentKey root]? = some value → value.leaseId = 0
  snapshots : ∀ {id : ByteSequence} {snapshot : KeyValue},
    s.values[snapshotKey root id]? = some snapshot → snapshot.leaseId = 0

section

variable {s s' : InMemoryMetadataStore} (h : Referenced root s)
include h

/-- A change that leaves the current pointer and the snapshots alone and adds no reader. -/
theorem Referenced.of_kept (current : s'.values[currentKey root]? = s.values[currentKey root]?)
    (snapshots : ∀ id, s'.values[snapshotKey root id]? = s.values[snapshotKey root id]?)
    (readers : ∀ id reader, s'.values[readerKey root id]? = some reader →
      ∃ snapshot, s.values[snapshotKey root reader.value]? = some snapshot) :
    Referenced root s' := by
  refine ⟨⟨fun {value} hvalue => ?_, fun {id reader} hreader => ?_⟩, fun {value} hvalue => ?_,
    fun {id snapshot} hsnapshot => ?_⟩
  · rw [current] at hvalue
    obtain ⟨pointer, snapshot, hdecode, hsnapshot, hsame⟩ := h.retained.current hvalue
    exact ⟨pointer, snapshot, hdecode, by rw [snapshots, hsnapshot], hsame⟩
  · rw [snapshots]
    exact readers id reader hreader
  · rw [current] at hvalue
    exact h.current hvalue
  · rw [snapshots] at hsnapshot
    exact h.snapshots hsnapshot

theorem Referenced.released {ids : List Int}
    (removed : Released ids s s') : Referenced root s' := by
  have hkept : ∀ {key : ByteSequence}, (∀ value, s.values[key]? = some value → value.leaseId = 0) →
      s'.values[key]? = s.values[key]? := by
    intro key hzero
    refine Option.ext fun value => ?_
    rw [removed.2]
    refine ⟨And.left, fun hvalue => ⟨hvalue, ?_⟩⟩
    rw [hzero value hvalue]
    exact removed.1
  refine h.of_kept (hkept fun _ hvalue => h.current hvalue)
    (fun id => hkept fun _ hvalue => h.snapshots hvalue) fun id reader hreader => ?_
  exact h.retained.readers (removed.2.mp hreader).1

theorem Referenced.collected {snapshotId readersEnd : ByteSequence}
    (range : prefixRangeEnd (readersRoot root) = some readersEnd)
    (unreferenced : Unreferenced s (currentKey root) (readersRoot root) readersEnd snapshotId)
    (values : ∀ key, s'.values[key]?
      = if key = snapshotKey root snapshotId then none else s.values[key]?) :
    Referenced root s' := by
  have hcurrent : s'.values[currentKey root]? = s.values[currentKey root]? := by
    rw [values, if_neg (currentKey_ne_snapshotKey root _)]
  have hreader : ∀ id, s'.values[readerKey root id]? = s.values[readerKey root id]? := by
    intro id
    rw [values, if_neg (snapshotKey_ne_readerKey root _ _).symm]
  have hsnapshot : ∀ id, id ≠ snapshotId →
      s'.values[snapshotKey root id]? = s.values[snapshotKey root id]? := by
    intro id hne
    rw [values, if_neg (by rwa [snapshotKey_inj])]
  refine ⟨⟨fun {value} hvalue => ?_, fun {id reader} hvalue => ?_⟩, fun {value} hvalue => ?_,
    fun {id snapshot} hvalue => ?_⟩
  · rw [hcurrent] at hvalue
    obtain ⟨pointer, snapshot, hdecode, hfound, hsame⟩ := h.retained.current hvalue
    obtain ⟨pointer', hdecode', hne⟩ := unreferenced.current hvalue
    rw [hdecode] at hdecode'
    cases hdecode'
    exact ⟨pointer, snapshot, hdecode, by rw [hsnapshot _ hne, hfound], hsame⟩
  · rw [hreader] at hvalue
    have hinside := (containsKey_prefixRange range (readerKey root id)).mpr (prefix_append _ _)
    rw [hsnapshot _ (unreferenced.readers hvalue hinside)]
    exact h.retained.readers hvalue
  · rw [hcurrent] at hvalue
    exact h.current hvalue
  · rw [values] at hvalue
    split at hvalue
    · cases hvalue
    · exact h.snapshots hvalue

theorem Referenced.published {pointer : SnapshotPointer} {encoded : ByteSequence}
    {current snapshot : KeyValue}
    (encodes : encodePointer pointer = .ok encoded)
    (values : s'.values = (s.values.insert (currentKey root) current).insert
      (snapshotKey root pointer.snapshotId) snapshot)
    (currentValue : current.value = encoded ∧ current.leaseId = 0)
    (snapshotValue : snapshot.value = encoded ∧ snapshot.leaseId = 0) :
    Referenced root s' := by
  have hcurrent : s'.values[currentKey root]? = some current := by
    rw [values, getElem?_insert_of_ne (currentKey_ne_snapshotKey root _).symm,
      getElem?_insert_self]
  have hsnapshot : ∀ id, s'.values[snapshotKey root id]?
      = if pointer.snapshotId = id then some snapshot else s.values[snapshotKey root id]? := by
    intro id
    rw [values, ExtTreeMap.getElem?_insert_eq,
      getElem?_insert_of_ne (currentKey_ne_snapshotKey root id)]
    exact if_congr (snapshotKey_inj _ _ _) rfl rfl
  have hreader : ∀ id, s'.values[readerKey root id]? = s.values[readerKey root id]? := by
    intro id
    rw [values, getElem?_insert_of_ne (snapshotKey_ne_readerKey root _ _),
      getElem?_insert_of_ne (currentKey_ne_readerKey root id)]
  refine ⟨⟨fun {value} hvalue => ?_, fun {id reader} hvalue => ?_⟩, fun {value} hvalue => ?_,
    fun {id value} hvalue => ?_⟩
  · rw [hcurrent] at hvalue
    cases hvalue
    refine ⟨pointer, snapshot, ?_, by rw [hsnapshot, if_pos rfl], ?_⟩
    · rw [currentValue.1, decodePointer_encoded encodes]
    · rw [snapshotValue.1, currentValue.1]
  · rw [hreader] at hvalue
    rw [hsnapshot]
    split
    · exact ⟨snapshot, rfl⟩
    · exact h.retained.readers hvalue
  · rw [hcurrent] at hvalue
    cases hvalue
    exact currentValue.2
  · rw [hsnapshot] at hvalue
    split at hvalue
    · cases hvalue
      exact snapshotValue.2
    · exact h.snapshots hvalue

end

theorem Referenced.step (h : Referenced root w.store)
    (step : TableStep catalogs root w action w') : Referenced root w'.store := by
  cases step with
  | quiet kept reports =>
    refine h.of_kept (kept _ (isPrefix_currentKey root))
      (fun id => kept _ (isPrefix_snapshotKey root id)) fun id reader hreader => ?_
    rw [kept _ (isPrefix_readerKey root id)] at hreader
    exact h.retained.readers hreader
  | claimed running table live free leased values reports =>
    have hkept : ∀ key, key ≠ writerKey root → w'.store.values[key]? = w.store.values[key]? := by
      intro key hne
      rw [values, getElem?_insert_of_ne hne.symm]
    refine h.of_kept (hkept _ (currentKey_ne_writerKey root))
      (fun id => hkept _ (writerKey_ne_snapshotKey root id).symm) fun id reader hreader => ?_
    rw [hkept _ (writerKey_ne_readerKey root id).symm] at hreader
    exact h.retained.readers hreader
  | published running held table encodes live expected owned values currentValue snapshotValue
      reports =>
    exact h.published encodes values ⟨currentValue.1, currentValue.2.1⟩ snapshotValue
  | registered running table encodes live found reads leased values reports =>
    refine h.of_kept ?_ (fun id => ?_) fun id reader hreader => ?_
    · rw [values, getElem?_insert_of_ne (currentKey_ne_readerKey root _).symm]
    · rw [values, getElem?_insert_of_ne (snapshotKey_ne_readerKey root _ _).symm]
    · rw [values, ExtTreeMap.getElem?_insert_eq_some] at hreader
      rcases hreader with ⟨-, rfl⟩ | ⟨-, hreader⟩
      · obtain ⟨value, hvalue, -⟩ := found
        rw [reads]
        exact ⟨value, hvalue⟩
      · exact h.retained.readers hreader
  | collected running table range unreferenced values reports =>
    exact h.collected range unreferenced values
  | released removed origin reports => exact h.released removed

theorem Referenced.untouched (untouched : Untouched root store) : Referenced root store := by
  refine ⟨⟨fun {value} hvalue => ?_, fun {id reader} hvalue => ?_⟩, fun {value} hvalue => ?_,
    fun {id value} hvalue => ?_⟩
  all_goals
    rw [untouched] at hvalue
    · cases hvalue
    · first
      | exact isPrefix_currentKey root
      | exact isPrefix_readerKey root _
      | exact isPrefix_snapshotKey root _

/-- In every reachable state and for every table: the snapshot of the current pointer is there
with the same bytes, and so is the snapshot of every reader. -/
theorem referenced_snapshots_retained (opened : Opened store)
    (hroot : IsTableRoot root) (untouched : Untouched root store)
    (run : Reaches catalogs anything { store } w) : Retained root w.store := by
  have hinvariant : Referenced root w.store :=
    (Sound.opened opened).table_induct (P := fun w => Referenced root w.store) hroot run
      (Referenced.untouched untouched) fun _ _ _ _ step h => h.step step
  exact hinvariant.retained

/-- A reader registers the first snapshot of a table. -/
def registration : List Action :=
  [.start 0 (.acquireWriter 0 someTable 10), .advance 0 1, .advance 0 1, .advance 0 1,
   .start 1 (.publishSnapshot 0 ⟨⟨1, 1⟩, someRoot, 0⟩ 0 (somePointer (ascii ['1']))),
   .advance 1 2, .advance 1 2,
   .start 2 (.registerReader 1 someTable (somePointer (ascii ['1'])) 10),
   .advance 2 3, .advance 2 3, .advance 2 3]

/-- A second snapshot is published, and the first one is not collected. -/
def readerStays : List Action :=
  registration ++
    [.start 3 (.publishSnapshot 0 ⟨⟨1, 1⟩, someRoot, 0⟩ 2 (somePointer (ascii ['2']))),
     .advance 3 4, .advance 3 4,
     .start 4 (.collectSnapshot 0 someTable (ascii ['1'])), .advance 4 5]

theorem referenced_snapshots_retained_readerStays :
    ∃ w : World, w.finished.getLast?.map (·.outcome) = some (.ok (.collected false))
      ∧ w.store.values[readerKey someRoot (readerIdOf 1 1)]?.map (·.value) = some (ascii ['1'])
      ∧ Retained someRoot w.store := by
  have hplay : (World.play oneCatalog (fun _ _ => true) { store := emptyStore } readerStays).map
      (fun w => (w.finished.getLast?.map (·.outcome),
        w.store.values[readerKey someRoot (readerIdOf 1 1)]?.map (·.value)))
        = some (some (.ok (.collected false)), some (ascii ['1'])) := by
    decide +kernel
  obtain ⟨w, hw, hend⟩ := Option.map_eq_some_iff.mp hplay
  obtain ⟨houtcome, hreader⟩ := Prod.mk.inj hend
  have run : Reaches oneCatalog anything { store := emptyStore } w :=
    Reaches.of_play (fun _ _ _ => trivial) hw
  exact ⟨w, houtcome, hreader, referenced_snapshots_retained emptyStore_opened
    isTableRoot_someRoot untouched_emptyStore run⟩

end KuraMetadata.Kura
