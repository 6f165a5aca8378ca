import Mathlib.Data.List.Sort
import PinnedTree.Proofs.Prune.Foretelling
import PinnedTree.Proofs.RunState.Saving

namespace PinnedTree.Prune

open PinnedTree.Action

variable {root : Location} {top : DiskPath} {table : PinTable} {d : Disk} {w w' : World}
  {candidates : List Candidate} {candidate : Candidate} {entries : List PrunedEntry}
  {state left : RunState} {id : String} {destination : Destination} {action : PruneAction}

/-- Inner destinations come first, and those that are equally deep in the order of their ids. -/
def Before (a b : PrunedEntry) : Prop :=
  b.destination.names.length < a.destination.names.length ∨
    (b.destination.names.length = a.destination.names.length ∧ a.id < b.id)

instance : Std.Irrefl Before where
  irrefl a before := by
    rcases before with less | ⟨-, less⟩
    · exact Nat.lt_irrefl _ less
    · exact String.lt_irrefl _ less

instance : Std.Antisymm Before where
  antisymm a b before after := by
    rcases before with less | ⟨same, less⟩ <;> rcases after with less' | ⟨same', less'⟩
    · omega
    · omega
    · omega
    · exact absurd less' (String.lt_asymm less)

theorem candidates_sorted (state : RunState) (table : PinTable) :
    (Prune.candidates state table).Pairwise fun a b =>
      b.depth < a.depth ∨ (b.depth = a.depth ∧ a.id < b.id) := by
  refine pairwise_mergeSort_key Candidate.depth ?_
  rw [List.pairwise_map]
  exact state.ordered.filter _

/-- The state in which the records are left of the ids that the table lists, and of those that are
reported as kept. -/
def remaining (table : PinTable) (state : RunState) (report : PruneReport) : RunState :=
  ⟨state.records.filter fun record => table.contains record.1 ||
    report.entries.any fun entry => entry.id = record.1 && entry.action = .kept,
    state.ordered.filter _⟩

theorem pairwise_lines {α : Type} (line : String → Destination → α)
    {r : Candidate → Candidate → Prop} {s : α → α → Prop} (ordered : candidates.Pairwise r)
    (said : ∀ a b x y, r ⟨a, some x⟩ ⟨b, some y⟩ → s (line a x) (line b y)) :
    (candidates.filterMap fun candidate =>
      candidate.destination.map (line candidate.id)).Pairwise s := by
  refine ordered.filterMap _ ?_
  rintro ⟨_, placed⟩ ⟨_, placed'⟩ related _ found _ found'
  obtain ⟨_, rfl, rfl⟩ := Option.map_eq_some_iff.mp found
  obtain ⟨_, rfl, rfl⟩ := Option.map_eq_some_iff.mp found'
  exact said _ _ _ _ related

def Candidate.stays (table : PinTable) (candidate : Candidate) : Bool :=
  candidate.destination.any (inUse table)

theorem judge_kept (ran : (judge root table false id destination).exec w = (.ok action, w')) :
    action = .kept ↔ inUse table destination = true := by
  unfold judge at ran
  cases used : inUse table destination with
  | true =>
    cases used ▸ ran
    simp
  | false =>
    rw [used, if_neg (by simp), remove, exec_observe_bind] at ran
    simp only [Bool.false_eq_true, iff_false]
    rintro rfl
    cases owned : owns w.disk (destination.place root) id <;> rw [owned] at ran
    · cases ran
    · simp only [Bool.not_true, Bool.false_eq_true, if_false, exec_bind] at ran
      split at ran <;> cases ran

/-- What has become of some candidates: there is a line about each destination, and of the records
those stay which the table still uses. -/
structure Settled (table : PinTable) (state : RunState) (candidates : List Candidate)
    (entries : List PrunedEntry) (left : RunState) : Prop where
  lines : entries.map (fun entry => (entry.id, entry.destination)) = candidates.filterMap
    fun candidate => candidate.destination.map fun destination => (candidate.id, destination)
  kept : ∀ entry ∈ entries, entry.action = .kept ↔ inUse table entry.destination = true
  records : left.records = state.records.filter fun record =>
    candidates.all fun candidate => candidate.id ≠ record.1 || candidate.stays table

theorem handle_settles (ran : (handle root table false state candidates).exec w
    = (.ok (entries, left), w')) : Settled table state candidates entries left := by
  induction candidates generalizing state w entries with
  | nil =>
    cases ran
    exact ⟨rfl, by simp, by simp⟩
  | cons candidate rest ih =>
    obtain ⟨id, _ | destination⟩ := candidate
    · obtain ⟨lines, kept, records⟩ := ih ran
      refine ⟨lines, kept, ?_⟩
      simp [records, RunState.erase, List.filter_filter, Candidate.stays, Bool.and_comm, eq_comm]
    · rw [handle_some, exec_bind] at ran
      rcases judged : (judge root table false id destination).exec w with ⟨_ | action, w₁⟩ <;>
        rw [judged] at ran
      · cases ran
      simp only [exec_bind] at ran
      rcases handled : (handle root table false (if action = .kept then state else state.erase id)
        rest).exec w₁ with ⟨_ | ⟨more, last⟩, w₂⟩ <;> rw [handled] at ran <;> cases ran
      obtain ⟨lines, kept, records⟩ := ih handled
      have one := judge_kept judged
      refine ⟨by simp [lines], List.forall_mem_cons.mpr ⟨one, kept⟩, ?_⟩
      rw [records]
      by_cases stays : action = .kept
      · simp [stays, Candidate.stays, one.mp stays]
      · simp [stays, Candidate.stays, Bool.eq_false_iff.mpr (mt one.mpr stays), RunState.erase,
          List.filter_filter, Bool.and_comm, eq_comm]

theorem candidate_unique {other : Candidate} (member : candidate ∈ Prune.candidates state table)
    (listed : other ∈ Prune.candidates state table) (same : other.id = candidate.id) :
    other = candidate := by
  obtain ⟨-, record, found, placed⟩ := mem_candidates_iff.mp member
  obtain ⟨-, record', found', placed'⟩ := mem_candidates_iff.mp listed
  obtain ⟨id, destination⟩ := candidate
  obtain ⟨id', destination'⟩ := other
  cases same
  cases found.symm.trans found'
  exact congrArg _ (placed'.trans placed.symm)

theorem all_stay_iff (member : candidate ∈ Prune.candidates state table) :
    ((Prune.candidates state table).all fun other => other.id ≠ candidate.id || other.stays table)
      = candidate.stays table := by
  rw [Bool.eq_iff_iff, List.all_eq_true]
  constructor
  · intro each
    simpa using each candidate member
  · intro stays other listed
    by_cases same : other.id = candidate.id
    · rw [candidate_unique member listed same, stays]
      simp
    · simp [same]

namespace Settled

variable {report : PruneReport}

theorem mem_iff (settled : Settled table state candidates entries left) :
    (∃ action, ⟨id, destination, action⟩ ∈ entries) ↔ ⟨id, some destination⟩ ∈ candidates := by
  have listed : (id, destination) ∈ entries.map (fun entry => (entry.id, entry.destination)) ↔
      ∃ action, ⟨id, destination, action⟩ ∈ entries := by
    rw [List.mem_map]
    constructor
    · rintro ⟨⟨_, _, action⟩, member, ⟨⟩⟩
      exact ⟨action, member⟩
    · rintro ⟨action, member⟩
      exact ⟨_, member, rfl⟩
  rw [← listed, settled.lines, List.mem_filterMap]
  constructor
  · rintro ⟨⟨_, placed⟩, member, same⟩
    obtain ⟨_, rfl, ⟨⟩⟩ := Option.map_eq_some_iff.mp same
    exact member
  · exact fun member => ⟨_, member, rfl⟩

theorem mem_left (settled : Settled table state (Prune.candidates state table) entries left) :
    candidate ∈ Prune.candidates left table ↔
      candidate ∈ Prune.candidates state table ∧ candidate.stays table = true := by
  have held : left.get? candidate.id = if (Prune.candidates state table).all fun other =>
      other.id ≠ candidate.id || other.stays table then state.get? candidate.id else none := by
    rw [RunState.get?, settled.records, lookup_filter_key (q := fun id =>
      (Prune.candidates state table).all fun other => other.id ≠ id || other.stays table)]
    rfl
  constructor
  · intro member
    obtain ⟨absent, record, found, placed⟩ := mem_candidates_iff.mp member
    rw [held] at found
    split at found
    · rename_i stay
      have listed := mem_candidates_iff.mpr ⟨absent, record, found, placed⟩
      exact ⟨listed, (all_stay_iff listed).symm.trans stay⟩
    · cases found
  · rintro ⟨member, stays⟩
    obtain ⟨absent, record, found, placed⟩ := mem_candidates_iff.mp member
    refine mem_candidates_iff.mpr ⟨absent, record, ?_, placed⟩
    rw [held, all_stay_iff member, if_pos stays, found]

theorem ordered (settled : Settled table state (Prune.candidates state table) entries left) :
    entries.Pairwise Before := by
  have pairs : (entries.map fun entry => (entry.id, entry.destination)).Pairwise fun a b =>
      b.2.names.length < a.2.names.length ∨ (b.2.names.length = a.2.names.length ∧ a.1 < b.1) := by
    rw [settled.lines]
    exact pairwise_lines Prod.mk (candidates_sorted state table) fun _ _ _ _ before => before
  rw [List.pairwise_map] at pairs
  exact pairs

theorem stays_iff (settled : Settled table state (Prune.candidates state table) entries left)
    (member : candidate ∈ Prune.candidates state table) : candidate.stays table =
      entries.any fun entry => entry.id = candidate.id && entry.action = .kept := by
  rw [Bool.eq_iff_iff, List.any_eq_true]
  constructor
  · intro stays
    obtain ⟨id, _ | destination⟩ := candidate
    · cases stays
    obtain ⟨action, listed⟩ := settled.mem_iff.mpr member
    have kept := (settled.kept _ listed).mpr stays
    exact ⟨_, listed, by simpa using kept⟩
  · rintro ⟨entry, listed, named⟩
    simp only [Bool.and_eq_true, decide_eq_true_eq] at named
    have there := settled.mem_iff.mp ⟨entry.action, listed⟩
    rw [← candidate_unique member there named.1]
    exact (settled.kept _ listed).mp named.2

/-- What is left are the records of the ids that the table lists, and of those that are reported as
kept. -/
theorem left_eq (settled : Settled table state (Prune.candidates state table) report.entries left) :
    left = remaining table state report := by
  have same : left.records = (remaining table state report).records := by
    refine settled.records.trans (List.filter_congr fun record recorded => ?_)
    cases listed : table.contains record.1 with
    | true =>
      rw [Bool.true_or, List.all_eq_true]
      intro other member
      have absent := (mem_candidates_iff.mp member).1
      have apart : other.id ≠ record.1 := fun same => by
        rw [same, listed] at absent
        cases absent
      simp [apart]
    | false =>
      have member : (⟨record.1, (PlacedPin.destinationOf record.1 record.2.path).toOption⟩ :
          Candidate) ∈ Prune.candidates state table := mem_candidates_iff.mpr
        ⟨listed, record.2, Text.lookup_of_mem state.ordered recorded, rfl⟩
      rw [Bool.false_or, ← settled.stays_iff member]
      exact all_stay_iff member
  obtain ⟨records, ordered⟩ := left
  cases same
  rfl

end Settled

def standing (report : PruneReport) : PruneReport :=
  ⟨false, report.entries.filter (·.action = .kept)⟩

def keptLine (id : String) (destination : Destination) : PrunedEntry := ⟨id, destination, .kept⟩

def keptLines (candidates : List Candidate) : List PrunedEntry :=
  candidates.filterMap fun candidate => candidate.destination.map (keptLine candidate.id)

theorem exec_handle_kept (stay : ∀ candidate ∈ candidates, candidate.stays table = true) :
    (handle root table false state candidates).exec w
      = (.ok (keptLines candidates, state), w) := by
  induction candidates with
  | nil => rfl
  | cons candidate rest ih =>
    obtain ⟨here, later⟩ := List.forall_mem_cons.mp stay
    obtain ⟨id, _ | destination⟩ := candidate
    · cases here
    have used : inUse table destination = true := here
    have judged : (judge root table false id destination).exec w = (.ok .kept, w) := by
      rw [judge, if_pos used]
      rfl
    rw [handle_some, exec_bind_ok judged, if_pos rfl, exec_bind_ok (ih later)]
    rfl

theorem mem_keptLines : ⟨id, destination, action⟩ ∈ keptLines candidates ↔
    ⟨id, some destination⟩ ∈ candidates ∧ action = .kept := by
  rw [keptLines, List.mem_filterMap]
  constructor
  · rintro ⟨⟨_, placed⟩, member, found⟩
    obtain ⟨_, rfl, ⟨⟩⟩ := Option.map_eq_some_iff.mp found
    exact ⟨member, rfl⟩
  · rintro ⟨member, rfl⟩
    exact ⟨_, member, rfl⟩

theorem Settled.keptLines_eq
    (settled : Settled table state (Prune.candidates state table) entries left) :
    keptLines (Prune.candidates left table) = entries.filter (·.action = .kept) := by
  have ordered : (keptLines (Prune.candidates left table)).Pairwise Before :=
    pairwise_lines keptLine (candidates_sorted left table) fun _ _ _ _ before => before
  refine ordered.eq_of_mem_iff (settled.ordered.filter _) fun ⟨id, destination, action⟩ => ?_
  rw [mem_keptLines, settled.mem_left, ← settled.mem_iff, List.mem_filter, decide_eq_true_eq]
  constructor
  · rintro ⟨⟨⟨action', listed⟩, stays⟩, rfl⟩
    have kept : action' = .kept := (settled.kept _ listed).mpr stays
    exact ⟨kept ▸ listed, rfl⟩
  · rintro ⟨listed, kept⟩
    exact ⟨⟨⟨action, listed⟩, (settled.kept _ listed).mp kept⟩, kept⟩

def Recorded (root : Location) (state : RunState) (d : Disk) : Prop :=
  ∃ p mode, d.resolve true (Layout.stateFile root) = .ok (.taken p (.file state.text.toUTF8 mode))

theorem exec_run_kept {before : World} (saved : RunState.Saved root left before w)
    (loaded : RunState.load w.disk root = .ok left)
    (stay : ∀ candidate ∈ Prune.candidates left table, candidate.stays table = true) :
    ∃ w', (run root table false).exec w
        = (.ok ⟨false, keptLines (Prune.candidates left table)⟩, w') ∧
      Recorded root left w'.disk ∧ ∀ q, w'.disk.look q = w.disk.look q := by
  obtain ⟨w', again, same⟩ := saved.again
  obtain ⟨p, mode, found, -⟩ := (RunState.saved_of_save again).file
  refine ⟨w', ?_, ⟨p, mode, found⟩, same⟩
  have asked : (query (RunState.load · root)).exec w = (.ok left, w) := by
    rw [exec_query, loaded]
  unfold run
  rw [exec_bind_ok asked, exec_bind_ok (exec_handle_kept stay)]
  exact exec_bind_ok again

theorem saved_of_grown {before later : World} (saved : RunState.Saved root left before w)
    (grown : w.disk.Grown later.disk) : RunState.Saved root left before later where
  file := by
    obtain ⟨p, mode, found, fresh⟩ := saved.file
    exact ⟨p, mode, grown.leads _ _ _ found, fresh⟩
  staging := grown.leadsToDir saved.staging
  backup := grown.leadsToDir saved.backup

theorem load_of_saved {before : World} {read : RunState} (saved : RunState.Saved root left before w)
    (loaded : RunState.load w.disk root = .ok read) : RunState.load w.disk root = .ok left := by
  obtain ⟨p, mode, found, -⟩ := saved.file
  have stat : w.disk.stat (Layout.stateFile root) = .ok (.file left.text.toUTF8 mode) := by
    simp [Disk.stat, found, bind, Except.bind, pure, Except.pure]
  exact RunState.load_of_stat _ stat (RunState.readable_of_stat stat loaded)

theorem Settled.prune_again {before later w₁ : World} {read : RunState} {report : PruneReport}
    (settled : Settled table state (Prune.candidates state table) report.entries left)
    (saved : RunState.Saved root left before w') (next : later.disk = w'.disk)
    (locked : (Layout.lock root).exec later = (.ok (), w₁))
    (loaded : RunState.load w₁.disk root = .ok read) :
    ∃ w₂, (prune root table false).exec later = (.ok (standing report), w₂) ∧
      Recorded root left w₂.disk ∧ ∀ q, w₂.disk.look q = w₁.disk.look q := by
  have grown : w'.disk.Grown w₁.disk := by
    have grows := Layout.lock_grows root later
    rwa [Action.Grows, locked, next] at grows
  have saved₁ := saved_of_grown saved grown
  obtain ⟨w₂, ran, recorded, same⟩ : ∃ w', (run root table false).exec w₁ = _ ∧ _ :=
    exec_run_kept saved₁ (load_of_saved saved₁ loaded)
      fun _ member => (settled.mem_left.mp member).2
  obtain ⟨w₃, whole, unlocked⟩ := Layout.exec_whileLocked locked ran
  refine ⟨w₃, ?_, unlocked ▸ recorded, unlocked ▸ same⟩
  rw [prune, if_neg (by simp), whole, settled.keptLines_eq]
  rfl

theorem Plain.next {w₁ w₂ : World} (plain : Plain root top table w.disk)
    (locked : (Layout.lock root).exec w = (.ok (), w₁))
    (loaded : RunState.load w₁.disk root = .ok state)
    (handled : (handle root table false state (Prune.candidates state table)).exec w₁
      = (.ok (entries, left), w₂)) (saved : (left.save root).exec w₂ = (.ok (), w')) :
    RunState.load w.disk root = .ok state ∧ RunState.load w'.disk root = .ok left ∧
      ∃ c m, w'.disk.resolve true (Layout.lockFile root)
        = .ok (.taken (Layout.place top "lock") (.file c m)) ∧ mayWrite m = true := by
  have taken := (Layout.lock_ensures plain.sited).ends
  rw [locked] at taken
  obtain ⟨prepared, done⟩ := taken
  obtain ⟨-, callable, c, m, file, writable⟩ := done rfl
  have sited₁ := prepared.sited plain.sited
  have found : RunState.load w.disk root = .ok state :=
    (plain.load_locked prepared).symm.trans loaded
  have clear : ∀ candidate ∈ Prune.candidates state table, ∀ destination,
      candidate.destination = some destination → w₁.disk.Clear top destination.names :=
    fun candidate member destination placed r under other =>
      prepared.no_link (plain.clear state found candidate member destination placed r under other)
  have handling : (handle root table false state (Prune.candidates state table)).Ensures
      (fun _ => True) _ w₁ := handle_ensures sited₁.sound sited₁.rooted clear
  have ended := handling.ends
  rw [handled] at ended
  obtain ⟨reaped, -⟩ := ended entries left rfl
  have spared (name : String) :
      w₂.disk.look (Layout.place top name) = w₁.disk.look (Layout.place top name) :=
    reaped.kept _ fun cleared => cleared.not_housed (Layout.place_inside top name)
  have sited₂ : Layout.Sited root top w₂.disk :=
    ⟨reaped.sound, reaped.rooted sited₁.rooted, reaped.part.no_link sited₁.directory,
      reaped.part.no_link sited₁.lock, reaped.part.no_link sited₁.record⟩
  obtain ⟨sited', stands⟩ := Layout.sited_of_save sited₂ saved
  have named : IsName "state.toml" := by decide
  have written := (Layout.save_ensures sited₂ left).ends
  rw [saved] at written
  obtain ⟨callable', ⟨mode, record, grants⟩, -⟩ := written.2 rfl
  have readable : mayRead mode = true := by
    cases grants with
    | made _ => decide
    | kept stood _ =>
      rw [spared] at stood
      exact RunState.readable_of_load (sited₁.straight named) sited₁.sound callable' stood loaded
  have lockable : Layout.Lockable root top w'.disk :=
    ⟨callable, c, m, stands _ _ (Layout.place_ne (by decide)) ((spared _).trans file), writable⟩
  exact ⟨found, RunState.load_saved (sited'.straight named) sited'.sound callable' record readable,
    Layout.resolve_lock sited' lockable⟩

/-- The state that a run finds once it has the lock; a file that stood before is still the same. -/
def Finds (root : Location) (w : World) (state : RunState) : Prop :=
  (∃ w₁, (Layout.lock root).exec w = (.ok (), w₁) ∧ RunState.load w₁.disk root = .ok state) ∧
    (w.disk.leadsSomewhere (Layout.stateFile root) = true → RunState.load w.disk root = .ok state)

/-- A report with one line about each id that has left the table and whose record names a
destination, inner destinations first. -/
structure Tells (table : PinTable) (state : RunState) (report : PruneReport) : Prop where
  real : report.dryRun = false
  listed : ∀ id destination, (∃ action, ⟨id, destination, action⟩ ∈ report.entries) ↔
    table.contains id = false ∧ ∃ record, state.get? id = some record ∧
      PlacedPin.destinationOf id record.path = .ok destination
  once : (report.entries.map (·.id)).Nodup
  ordered : report.entries.Pairwise Before

theorem Settled.tells {report : PruneReport} (real : report.dryRun = false)
    (settled : Settled table state (Prune.candidates state table) report.entries left) :
    Tells table state report where
  real := real
  listed id destination := settled.mem_iff.trans mem_candidates
  once := by
    have apart : (report.entries.map fun entry => (entry.id, entry.destination)).Pairwise
        fun a b => a.1 ≠ b.1 := by
      rw [settled.lines]
      exact pairwise_lines Prod.mk (candidates_ordered state table) fun _ _ _ _ both => both.1
    rw [List.pairwise_map] at apart
    exact List.pairwise_map.mpr apart
  ordered := settled.ordered

theorem finds_of_locked {w₁ : World} (locked : (Layout.lock root).exec w = (.ok (), w₁))
    (loaded : RunState.load w₁.disk root = .ok state) : Finds root w state := by
  refine ⟨⟨w₁, locked, loaded⟩, fun leads => ?_⟩
  have grown : w.disk.Grown w₁.disk := by
    have grows := Layout.lock_grows root w
    rwa [Action.Grows, locked] at grows
  rw [← loaded]
  refine (RunState.load_congr_stat ?_).symm
  cases found : w.disk.resolve true (Layout.stateFile root) with
  | error fault => simp [Disk.leadsSomewhere, Disk.stat, found, bind, Except.bind] at leads
  | ok place =>
    cases place with
    | free p => simp [Disk.leadsSomewhere, Disk.stat, found, bind, Except.bind, throw, throwThe,
        MonadExceptOf.throw] at leads
    | taken p node => rw [Disk.stat, Disk.stat, found, grown.leads _ _ _ found]

/-- A run that ends with a report tells once of each id that has left the table and whose record
names a destination. It leaves the records of the ids that the table lists, and of those that it
reports as kept, as they are, and drops the others. The next run, if it can take the lock and read
the record, reports the kept ones again, removes nothing and records the same. On a disk without
links on the ways to recorded destinations and among the program's own files, it can. -/
theorem prune_settles {report : PruneReport}
    (ran : (prune root table false).exec w = (.ok report, w')) :
    ∃ state, Finds root w state ∧ Tells table state report ∧
      Recorded root (remaining table state report) w'.disk ∧
      (∀ later w₁ read, later.disk = w'.disk → (Layout.lock root).exec later = (.ok (), w₁) →
        RunState.load w₁.disk root = .ok read →
        ∃ w₂, (prune root table false).exec later = (.ok (standing report), w₂) ∧
          Recorded root (remaining table state report) w₂.disk ∧
          ∀ q node, w'.disk.look q = some node → w₂.disk.look q = some node) ∧
      ∀ top, Plain root top table w.disk → RunState.load w.disk root = .ok state ∧
        ∀ later, later.disk = w'.disk → Layout.place top "lock" ∉ later.locks →
          ∃ w₂, (prune root table false).exec later = (.ok (standing report), w₂) ∧
            Recorded root (remaining table state report) w₂.disk ∧
            ∀ q, w₂.disk.look q = w'.disk.look q := by
  rw [prune, if_neg (by simp)] at ran
  obtain ⟨w₁, w₂, locked, ran, unlocked⟩ := Layout.whileLocked_ok ran
  obtain ⟨real, state, left, w₃, loaded, handled, saved⟩ := run_ok ran
  have settled := handle_settles handled
  have written := RunState.saved_of_save saved
  refine ⟨state, finds_of_locked locked loaded, settled.tells real, ?_⟩
  rw [unlocked, ← settled.left_eq]
  refine ⟨?_, ?_, ?_⟩
  · obtain ⟨p, mode, found, -⟩ := written.file
    exact ⟨p, mode, found⟩
  · intro later w₄ read next lockedNext loadedNext
    obtain ⟨w₅, again, recorded, same⟩ := settled.prune_again written next lockedNext loadedNext
    have grows := Layout.lock_grows root later
    rw [Action.Grows, lockedNext, next] at grows
    exact ⟨w₅, again, recorded, fun q node there => (same q).trans (grows.stands q node there)⟩
  · intro top plain
    obtain ⟨found, loadedNext, c, m, leads, writable⟩ := plain.next locked loaded handled saved
    refine ⟨found, fun later next free => ?_⟩
    rw [← next] at leads loadedNext
    have rooms : later.disk.leadsToDir (Layout.staging root) = true ∧
        later.disk.leadsToDir (Layout.backup root) = true := by
      rw [next]
      exact ⟨written.staging, written.backup⟩
    obtain ⟨w₅, again, recorded, same⟩ := settled.prune_again written next
      (Layout.exec_lock rooms leads writable free) loadedNext
    exact ⟨w₅, again, recorded, fun q => next ▸ same q⟩

def innerTable : PinTable := ⟨[⟨"inner", "fake:", "r1", "z/c/d"⟩]⟩

def heldReport : PruneReport :=
  ⟨false, sharedReport.entries.map ({ · with action := .kept })⟩

theorem held_ran : ∃ w', (prune (.ofText "root") innerTable false).exec { disk := sharedDisk }
    = (.ok heldReport, w') :=
  ⟨_, Prod.fst_eq_iff.mp (by decide +kernel : ((prune (.ofText "root") innerTable false).exec
    { disk := sharedDisk }).1 = .ok heldReport)⟩

theorem held_plain : Plain (.ofText "root") ["root"] innerTable sharedDisk :=
  .of_check shared_plain.sited (by decide +kernel)

/-- The next run keeps the record, too. -/
theorem held_settles : ∃ (w' : World) (state : RunState),
    (prune (.ofText "root") innerTable false).exec { disk := sharedDisk } = (.ok heldReport, w') ∧
      RunState.load sharedDisk (.ofText "root") = .ok state ∧ Tells innerTable state heldReport ∧
      ∃ w₂, (prune (.ofText "root") innerTable false).exec { disk := w'.disk }
          = (.ok heldReport, w₂) ∧
        ∀ q, w₂.disk.look q = w'.disk.look q := by
  obtain ⟨w', ran⟩ := held_ran
  obtain ⟨state, -, tells, -, -, plain⟩ := prune_settles ran
  obtain ⟨loaded, again⟩ := plain ["root"] held_plain
  obtain ⟨w₂, next, -, same⟩ := again { disk := w'.disk } rfl (by simp)
  exact ⟨w', state, ran, loaded, tells, w₂, next, same⟩

def lockDisk : Disk where
  home := []
  nodes := [(["root"], .dir), (["root", ".depsync"], .dir),
    (["root", ".depsync", "state.toml"], .file (recordOf "a").text.toUTF8 0o644),
    (["root", ".depsync", "lock"], .link "../a/.depsync.json"), (["root", "a"], .dir),
    (["root", "a", ".depsync.json"], markerNode "gone")]
  distinct := by decide

/-- A run may remove the file that the next one would have to lock. -/
theorem lockDisk_unsettled : (emptied "root" lockDisk).1 = .ok recordedReport ∧
    ((prune (.ofText "root") ⟨[]⟩ false).exec (emptied "root" lockDisk).2).1
      = .error (.state "root/.depsync/lock" (.errno .noEntry)) := by
  decide +kernel

end PinnedTree.Prune
