import Mathlib.Data.Prod.Basic
import PinnedTree.Proofs.Prune.Confinement

namespace PinnedTree.Prune

open PinnedTree.Action

variable {root : Location} {top : DiskPath} {table : PinTable} {d e : Disk} {w : World}
  {candidates : List Candidate} {entries : List PrunedEntry} {state : RunState} {id other : String}
  {destination outer : Destination}

def verdict (root : Location) (table : PinTable) (d : Disk) (id : String)
    (destination : Destination) : PruneAction :=
  if inUse table destination then .kept
  else if owns d (destination.place root) id then .wouldRemove
  else .forgotten

def forecast (root : Location) (table : PinTable) (d : Disk) (candidates : List Candidate) :
    List PrunedEntry :=
  candidates.filterMap fun candidate => candidate.destination.map fun destination =>
    ⟨candidate.id, destination, verdict root table d candidate.id destination⟩

theorem exec_judge_dry : (judge root table true id destination).exec w
    = (.ok (verdict root table w.disk id destination), w) := by
  unfold judge verdict
  split
  · rfl
  · unfold remove
    rw [exec_observe_bind]
    cases owns w.disk (destination.place root) id <;> rfl

theorem exec_handle_dry : ∃ left, (handle root table true state candidates).exec w
    = (.ok (forecast root table w.disk candidates, left), w) := by
  induction candidates generalizing state with
  | nil => exact ⟨state, rfl⟩
  | cons candidate rest ih =>
    obtain ⟨id, _ | destination⟩ := candidate
    · obtain ⟨left, ran⟩ := @ih (state.erase id)
      exact ⟨left, ran⟩
    · rw [handle_some, exec_bind_ok exec_judge_dry]
      obtain ⟨left, ran⟩ := @ih (if verdict root table w.disk id destination = .kept then state
        else state.erase id)
      refine ⟨left, ?_⟩
      rw [exec_bind_ok ran]
      rfl

theorem exec_prune_dry (root : Location) (table : PinTable) (w : World) :
    (prune root table true).exec w = ((RunState.load w.disk root).map fun state =>
      ⟨true, forecast root table w.disk (Prune.candidates state table)⟩, w) := by
  have ran : (run root table true).exec w = ((RunState.load w.disk root).map fun state =>
      ⟨true, forecast root table w.disk (Prune.candidates state table)⟩, w) := by
    unfold run
    rw [exec_bind, exec_query]
    cases RunState.load w.disk root with
    | error fault => rfl
    | ok state =>
      obtain ⟨left, ran⟩ := @exec_handle_dry root table w (Prune.candidates state table) state
      simp only [exec_bind_ok ran]
      rfl
  exact ran

/-- A line of a dry run comes true in the line of a real run about the same id: what it would remove
is removed, and nothing else is. -/
structure ComesTrue (foretold done : PrunedEntry) : Prop where
  id : done.id = foretold.id
  destination : done.destination = foretold.destination
  action : (foretold.action = .wouldRemove ∧ done.action = .removed) ∨
    (foretold.action = .forgotten ∧ done.action = .forgotten) ∨
    (foretold.action = .kept ∧ done.action = .kept)

structure Unmoved (top : DiskPath) (d : Disk) (destination : Destination) : Prop where
  clear : d.Clear top destination.names
  marker : ∀ target, d.look (top ++ (destination.names ++ [markerFile])) ≠ some (.link target)

theorem Unmoved.of_part (unmoved : Unmoved top d destination) (part : e.Part d) :
    Unmoved top e destination :=
  ⟨fun r under other => part.no_link (unmoved.clear r under other), part.no_link unmoved.marker⟩

theorem Unmoved.of_prepared (unmoved : Unmoved top d destination)
    (prepared : Layout.Prepared top d e) : Unmoved top e destination :=
  ⟨fun r under other => prepared.no_link (unmoved.clear r under other),
    prepared.no_link unmoved.marker⟩

theorem Unmoved.straight (unmoved : Unmoved top d destination) (rooted : d.Rooted root top) :
    d.Straight root top destination.names :=
  ⟨rooted, destination.plain, destination.nonempty, unmoved.clear⟩

theorem owns_iff_stands (unmoved : Unmoved top d destination) (sound : d.Sound)
    (rooted : d.Rooted root top) : owns d (destination.place root) id = true ↔
      (root.Callable destination.names ∧ root.Callable (destination.names ++ [markerFile])) ∧
        d.look (top ++ destination.names) = some .dir ∧
        ∃ revision, d.Certifies (top ++ destination.names) id revision := by
  have straight := unmoved.straight rooted
  have stats := straight.linkStat_ok sound .dir
  constructor
  · intro owned
    obtain ⟨marker, ⟨stands, read⟩, named⟩ := owns_iff.mp owned
    obtain ⟨callable, isDir⟩ := stats.mp stands
    have inner := straight.concat markerFile_isName (by simp [isDir])
    have certifies := Disk.certifies_of_read inner sound unmoved.marker read
    exact ⟨⟨callable, ((Disk.read_marker_iff inner sound unmoved.marker).mp read).1⟩, isDir,
      marker.revision, named ▸ certifies⟩
  · rintro ⟨⟨callable, callableMarker⟩, isDir, revision, certifies⟩
    have inner := straight.concat markerFile_isName (by simp [isDir])
    obtain ⟨marker, read, named, -⟩ := certifies.read inner sound callableMarker
    exact owns_iff.mpr ⟨marker, ⟨stats.mpr ⟨callable, isDir⟩, read⟩, named⟩

theorem Reaped.owns (reaped : Reaped top entries d e) (unmoved : Unmoved top d destination)
    (sound : d.Sound) (rooted : d.Rooted root top)
    (beside : ∀ entry ∈ entries, entry.action = .removed →
      ¬ entry.destination.names <+: destination.names ++ [markerFile])
    (owned : owns d (destination.place root) id = true) :
    owns e (destination.place root) id = true := by
  obtain ⟨callable, isDir, revision, certifies⟩ := (owns_iff_stands unmoved sound rooted).mp owned
  have kept : ∀ names, names <+: destination.names ++ [markerFile] →
      e.look (top ++ names) = d.look (top ++ names) := by
    intro names above
    refine reaped.kept _ ?_
    rintro ⟨entry, member, removed, under⟩
    exact beside entry member removed (((List.prefix_append_right_inj top).mp under).trans above)
  refine (owns_iff_stands (unmoved.of_part reaped.part) reaped.sound (reaped.rooted rooted)).mpr
    ⟨callable, (kept _ (List.prefix_append _ _)).trans isDir, revision, certifies.congr ?_⟩
  rw [List.append_assoc]
  exact kept _ (List.prefix_refl _)

theorem not_above (unmoved : Unmoved top d destination) (unmovedOuter : Unmoved top d outer)
    (sound : d.Sound) (rooted : d.Rooted root top)
    (owned : owns d (destination.place root) id = true)
    (ownedOuter : owns d (outer.place root) other = true) (foreign : other ≠ id)
    (deep : destination.names.length ≤ outer.names.length) :
    ¬ outer.names <+: destination.names ++ [markerFile] := by
  intro above
  obtain ⟨-, -, revision, certifies⟩ := (owns_iff_stands unmoved sound rooted).mp owned
  obtain ⟨-, isDir, revision', certifies'⟩ :=
    (owns_iff_stands unmovedOuter sound rooted).mp ownedOuter
  rcases List.prefix_concat_iff.mp above with whole | above
  · obtain ⟨content, mode, _, _, file, -⟩ := certifies
    rw [whole, ← List.append_assoc, file] at isDir
    cases isDir
  · rw [above.eq_of_length_le deep] at certifies'
    exact foreign (certifies'.unique certifies).1

theorem judge_comes_true (straight : w.disk.Straight root top destination.names)
    (sound : w.disk.Sound) :
    (judge root table false id destination).Ensures (fun _ => True)
      (fun r e => ∀ action, r = .ok action →
        ComesTrue ⟨id, destination, verdict root table w.disk id destination⟩
          ⟨id, destination, action⟩ ∧
        Reaped top [⟨id, destination, action⟩] w.disk e ∧
        (action = .removed → owns w.disk (destination.place root) id = true)) w := by
  unfold judge verdict
  cases used : inUse table destination with
  | true =>
    refine ensures_pure trivial ?_
    rintro _ ⟨⟩
    exact ⟨⟨rfl, rfl, .inr (.inr ⟨rfl, rfl⟩)⟩, (Reaped.none sound).cons_still (by simp), by simp⟩
  | false =>
    refine (((remove_ensures straight sound).keeping sound).unwatched).mono ?_
    rintro r e ⟨holds, sound', home⟩ action done
    rcases holds action done with ⟨rfl, same, foreign⟩ | ⟨rfl, owned, gone, kept⟩
    · have still : Reaped top [⟨id, destination, .forgotten⟩] w.disk w.disk :=
        (Reaped.none sound).cons_still (by simp)
      exact ⟨⟨rfl, rfl, .inr (.inl ⟨by simp [foreign], rfl⟩)⟩, same ▸ still, by simp⟩
    · exact ⟨⟨rfl, rfl, .inl ⟨by simp [owned], rfl⟩⟩,
        .cons_removed rfl home gone kept (.none sound'), fun _ => owned⟩

/-- What was foretold of the candidates on one disk comes true on another, if each of them is owned
on both or on neither. -/
theorem handle_comes_true (sound : w.disk.Sound) (rooted : w.disk.Rooted root top)
    (unmoved : ∀ c ∈ candidates, ∀ destination, c.destination = some destination →
      Unmoved top w.disk destination)
    (ordered : candidates.Pairwise fun a b => a.id ≠ b.id ∧ b.depth ≤ a.depth)
    (alike : ∀ c ∈ candidates, ∀ destination, c.destination = some destination →
      owns w.disk (destination.place root) c.id = owns d (destination.place root) c.id) :
    (handle root table false state candidates).Ensures (fun _ => True)
      (fun r _ => ∀ entries left, r = .ok (entries, left) →
        List.Forall₂ ComesTrue (forecast root table d candidates) entries) w := by
  induction candidates generalizing state w with
  | nil =>
    refine ensures_pure trivial ?_
    rintro entries left ⟨⟩
    exact .nil
  | cons candidate rest ih =>
    obtain ⟨id, destination⟩ := candidate
    obtain ⟨first, later⟩ := List.pairwise_cons.mp ordered
    have unmoved' := fun c member => unmoved c (List.mem_cons_of_mem _ member)
    have alike' := fun c member => alike c (List.mem_cons_of_mem _ member)
    cases destination with
    | none => exact ih sound rooted unmoved' later alike'
    | some destination =>
      have here := unmoved _ List.mem_cons_self destination rfl
      have same : verdict root table d id destination = verdict root table w.disk id destination := by
        simp only [verdict, alike _ List.mem_cons_self destination rfl]
      rw [handle_some]
      refine (judge_comes_true (here.straight rooted) sound).andThen sound ?_
        fun _ _ _ _ _ => by simp
      intro action w₁ sound₁ _ judged
      obtain ⟨comes, reaped, owned⟩ := judged action rfl
      have alike₁ : ∀ c ∈ rest, ∀ inner, c.destination = some inner →
          owns w₁.disk (inner.place root) c.id = owns d (inner.place root) c.id := by
        intro c member inner placed
        rw [← alike' c member inner placed, Bool.eq_iff_iff]
        refine ⟨owns_of_part reaped.part, fun still =>
          reaped.owns (unmoved' c member inner placed) sound rooted ?_ still⟩
        intro entry listed removed
        obtain rfl := List.mem_singleton.mp listed
        obtain ⟨apart, deep⟩ := first c member
        refine not_above (unmoved' c member inner placed) here sound rooted still
          (owned removed) apart ?_
        simpa [Candidate.depth, placed] using deep
      refine (ih sound₁ (reaped.rooted rooted)
        (fun c member inner placed => (unmoved' c member inner placed).of_part reaped.part) later
        alike₁).bind ?_ (by simp)
      rintro ⟨entries, final⟩ w₂ onward
      refine ensures_pure trivial ?_
      rintro _ _ ⟨⟩
      rw [← same] at comes
      exact .cons comes (onward entries final rfl)

theorem candidates_ordered (state : RunState) (table : PinTable) :
    (Prune.candidates state table).Pairwise fun a b => a.id ≠ b.id ∧ b.depth ≤ a.depth := by
  unfold Prune.candidates
  generalize listed : (state.records.filter fun record => !table.contains record.1).map
    (fun record => (⟨record.1, (PlacedPin.destinationOf record.1 record.2.path).toOption⟩ :
      Candidate)) = found
  have apart : found.Pairwise fun a b => a.id ≠ b.id := by
    rw [← listed, List.pairwise_map]
    refine (state.ordered.filter _).imp ?_
    intro a b less same
    have named : a.1 = b.1 := same
    exact String.lt_irrefl _ (named ▸ less)
  have sorted := @List.pairwise_mergeSort _ (fun a b : Candidate => decide (b.depth ≤ a.depth))
    (by simp; omega) (by simp; omega) found
  have still := (List.mergeSort_perm found fun a b => decide (b.depth ≤ a.depth)).symm.pairwise
    apart Ne.symm
  exact (still.and sorted).imp fun both => ⟨both.1, by simpa using both.2⟩

/-- A disk on which no link stands on the way to a destination that is recorded under an id which
has left the table, nor in the place of its marker, and the program's own files are no links. -/
structure Predictable (root : Location) (top : DiskPath) (table : PinTable) (d : Disk) : Prop
    extends Plain root top table d where
  markers : ∀ state, RunState.load d root = .ok state →
    ∀ candidate ∈ Prune.candidates state table, ∀ destination,
      candidate.destination = some destination →
        ∀ target, d.look (top ++ (destination.names ++ [markerFile])) ≠ some (.link target)

theorem Predictable.unmoved (predictable : Predictable root top table d)
    (loaded : RunState.load d root = .ok state) :
    ∀ c ∈ Prune.candidates state table, ∀ destination, c.destination = some destination →
      Unmoved top d destination := fun c member destination placed =>
  ⟨predictable.clear state loaded c member destination placed,
    predictable.markers state loaded c member destination placed⟩

theorem owns_prepared (prepared : Layout.Prepared top d e) (unmoved : Unmoved top d destination)
    (sited : Layout.Sited root top d) :
    owns e (destination.place root) id = owns d (destination.place root) id := by
  have same (rest : List String) : e.look (top ++ (destination.names ++ rest))
      = d.look (top ++ (destination.names ++ rest)) :=
    prepared.elsewhere (Layout.outside destination rest)
  have unmoved' := unmoved.of_prepared prepared
  have marker (revision : String) : e.Certifies (top ++ destination.names) id revision ↔
      d.Certifies (top ++ destination.names) id revision := by
    have alike := same [markerFile]
    rw [← List.append_assoc] at alike
    exact ⟨fun stands => stands.congr alike.symm, fun stands => stands.congr alike⟩
  rw [Bool.eq_iff_iff, owns_iff_stands unmoved' prepared.sound (prepared.sited sited).rooted,
    owns_iff_stands unmoved sited.sound sited.rooted]
  simp only [marker, show e.look (top ++ destination.names) = d.look (top ++ destination.names) by
    simpa using same []]

/-- A run that ends with a report has handled the candidates of the state that it loaded, and has
saved what is left of it. -/
theorem run_ok {report : PruneReport} {w' : World}
    (ran : (run root table false).exec w = (.ok report, w')) :
    report.dryRun = false ∧ ∃ state left w₁, RunState.load w.disk root = .ok state ∧
      (handle root table false state (Prune.candidates state table)).exec w
        = (.ok (report.entries, left), w₁) ∧ (left.save root).exec w₁ = (.ok (), w') := by
  unfold run at ran
  rw [exec_bind, exec_query] at ran
  cases loaded : RunState.load w.disk root with
  | error fault =>
    rw [loaded] at ran
    cases ran
  | ok state =>
    simp only [loaded, exec_bind] at ran
    rcases handled : (handle root table false state (Prune.candidates state table)).exec w
      with ⟨r, w₁⟩
    rw [handled] at ran
    rcases r with fault | ⟨entries, left⟩
    · cases ran
    · rcases saved : (left.save root).exec w₁ with ⟨r, w₂⟩
      simp only [Bool.not_false, if_true, exec_bind, saved] at ran
      cases r with
      | error fault => cases ran
      | ok _ =>
        cases ran
        exact ⟨rfl, state, left, w₁, rfl, handled, saved⟩

/-- A dry run leaves everything as it is, whatever stands on the disk, and if the real run ends with
a report, each line of it is what the dry run has foretold in the same place. -/
theorem prune_foretold (root : Location) (table : PinTable) (w : World) :
    ((prune root table true).exec w).2 = w ∧
    ∀ top, Predictable root top table w.disk → ∀ report w',
      (prune root table false).exec w = (.ok report, w') →
      ∃ foretold, ((prune root table true).exec w).1 = .ok foretold ∧
        List.Forall₂ ComesTrue foretold.entries report.entries := by
  rw [exec_prune_dry]
  refine ⟨rfl, fun top predictable report w' ran => ?_⟩
  rw [prune, if_neg (by simp)] at ran
  obtain ⟨w₁, w₂, locked, ran, -⟩ := Layout.whileLocked_ok ran
  obtain ⟨-, state, left, w₃, found, handled, -⟩ := run_ok ran
  have prepared : Layout.Prepared top w.disk w₁.disk := by
    have taken := (Layout.lock_ensures predictable.sited).ends
    rw [locked] at taken
    exact taken.1
  have loaded : RunState.load w.disk root = .ok state :=
    (predictable.load_locked prepared).symm.trans found
  have unmoved := predictable.unmoved loaded
  have sited := prepared.sited predictable.sited
  have comes : (handle root table false state (candidates state table)).Ensures (fun _ => True) _ w₁ :=
    handle_comes_true sited.sound sited.rooted
      (fun c member destination placed =>
        (unmoved c member destination placed).of_prepared prepared)
      (candidates_ordered state table) (fun c member destination placed =>
        owns_prepared prepared (unmoved c member destination placed) predictable.sited)
  replace comes := comes.ends
  rw [handled] at comes
  rw [loaded]
  exact ⟨_, rfl, comes _ _ rfl⟩

theorem shared_unlinked : ∀ state, RunState.load sharedDisk (.ofText "root") = .ok state →
    ∀ candidate ∈ Prune.candidates state ⟨[]⟩, ∀ destination,
      candidate.destination = some destination →
      sharedDisk.linkless (["root"] ++ (destination.names ++ [markerFile])) = true :=
  of_all_candidates (by decide +kernel)

theorem shared_predictable : Predictable (.ofText "root") ["root"] ⟨[]⟩ sharedDisk where
  toPlain := shared_plain
  markers state loaded candidate member destination placed := Disk.linkless_iff.mp
    (shared_unlinked state loaded candidate member destination placed)

/-- A dry run tells that the recorded checkout will go. -/
theorem shared_foretold : ∃ foretold,
    ((prune (.ofText "root") ⟨[]⟩ true).exec { disk := sharedDisk }).1 = .ok foretold ∧
      List.Forall₂ ComesTrue foretold.entries sharedReport.entries :=
  (prune_foretold (.ofText "root") ⟨[]⟩ { disk := sharedDisk }).2 ["root"] shared_predictable
    sharedReport _ shared_ran

def pairedDisk : Disk where
  home := []
  nodes := [(["root"], .dir), (["root", ".depsync"], .dir),
    (["root", ".depsync", "state.toml"], .file pairedState.text.toUTF8 0o644),
    (["root", "a"], .dir), (["root", "a", ".depsync.json"], markerNode "gone"),
    (["root", "b"], .dir), (["root", "b", ".depsync.json"], markerNode "other")]
  distinct := by decide

def pairedCandidates : List Candidate :=
  [⟨"gone", some Transaction.outerDestination⟩, ⟨"other", some otherDestination⟩]

theorem candidates_paired : Prune.candidates pairedState ⟨[]⟩ = pairedCandidates := by
  have recorded : (pairedState.records.filter fun record => !PinTable.contains ⟨[]⟩ record.1).map
      (fun record => (⟨record.1, (PlacedPin.destinationOf record.1 record.2.path).toOption⟩ :
        Candidate)) = pairedCandidates := by
    decide +kernel
  unfold Prune.candidates
  rw [recorded]
  exact List.mergeSort_of_pairwise (by decide +kernel)

def told (root : String) (d : Disk) (dryRun : Bool) : Except SyncError (List (String × PruneAction)) :=
  ((prune (.ofText root) ⟨[]⟩ dryRun).exec { disk := d }).1.map fun report =>
    report.entries.map fun entry => (entry.id, entry.action)

theorem load_paired : RunState.load pairedDisk (.ofText "root/a/..") = .ok pairedState :=
  RunState.load_of_stat 0o644 (by decide +kernel) (by decide)

theorem told_paired_dry : told "root/a/.." pairedDisk true
    = .ok [("gone", .wouldRemove), ("other", .wouldRemove)] := by
  unfold told
  rw [exec_prune_dry]
  dsimp only
  rw [load_paired]
  simp only [Except.map, candidates_paired]
  decide +kernel

def pairedRun : Action SyncError PruneReport := do
  let (entries, left) ← handle (.ofText "root/a/..") ⟨[]⟩ false pairedState pairedCandidates
  left.save (.ofText "root/a/..")
  return ⟨false, entries⟩

theorem told_paired : told "root/a/.." pairedDisk false
    = .ok [("gone", .removed), ("other", .forgotten)] := by
  let root := Location.ofText "root/a/.."
  let w₁ := ((Layout.lock root).exec { disk := pairedDisk }).2
  have locked : (Layout.lock root).exec { disk := pairedDisk } = (.ok (), w₁) :=
    Prod.fst_eq_iff.mp (by decide +kernel)
  have loaded : RunState.load w₁.disk root = .ok pairedState :=
    RunState.load_of_stat 0o644 (by decide +kernel) (by decide)
  have same : (run root ⟨[]⟩ false).exec w₁ = pairedRun.exec w₁ := by
    unfold run pairedRun
    rw [exec_bind, exec_query, loaded]
    dsimp only
    rw [candidates_paired]
    rfl
  have done : (pairedRun.exec w₁).1.map (fun report =>
      report.entries.map fun entry => (entry.id, entry.action))
        = .ok [("gone", .removed), ("other", .forgotten)] := by
    decide +kernel
  rcases ran : pairedRun.exec w₁ with ⟨r, w₂⟩
  rw [ran] at done
  cases r with
  | error fault => cases done
  | ok report =>
    obtain ⟨w', whole, -⟩ := Layout.exec_whileLocked locked (same.trans ran)
    unfold told prune
    rw [if_neg (by simp), whole]
    exact done

/-- A root with a recorded checkout, in which the record is a link through a room that is missing. -/
def strayDisk : Disk where
  home := []
  nodes := [(["root"], .dir), (["root", ".depsync"], .dir),
    (["root", ".depsync", "state.toml"], .link "staging/../../m"),
    (["root", "m"], .file (recordOf "a").text.toUTF8 0o644),
    (["root", "a"], .dir), (["root", "a", ".depsync.json"], markerNode "gone")]
  distinct := by decide

/-- A marker that is a link may lead somewhere only during the real run, and so may a record that is
a link, or a root that is spelled through what is missing; and a root that is spelled through a
checkout leads nowhere once that is removed. -/
theorem recordedLink_unforeseen :
    ((recordedDisk (.link "../.depsync/staging/../../m")).Clear ["root"] ["a"] ∧
      told "root" (recordedDisk (.link "../.depsync/staging/../../m")) true
        = .ok [("gone", .forgotten)] ∧
      told "root" (recordedDisk (.link "../.depsync/staging/../../m")) false
        = .ok [("gone", .removed)]) ∧
    (told "root" strayDisk true = .ok [] ∧ told "root" strayDisk false = .ok [("gone", .removed)]) ∧
    (told "x/../root" (recordedDisk (markerNode "gone")) true = .ok [] ∧
      told "x/../root" (recordedDisk (markerNode "gone")) false = .ok [("gone", .removed)]) ∧
    (told "root/a/.." pairedDisk true = .ok [("gone", .wouldRemove), ("other", .wouldRemove)] ∧
      told "root/a/.." pairedDisk false = .ok [("gone", .removed), ("other", .forgotten)]) :=
  ⟨by decide +kernel, by decide +kernel, by decide +kernel, told_paired_dry, told_paired⟩

end PinnedTree.Prune
