import Mathlib.Data.Prod.Basic
import PinnedTree.Proofs.Prune
import PinnedTree.Proofs.Transaction.Atomicity

namespace PinnedTree.Prune

variable {root : Location} {top q : DiskPath} {table : PinTable} {d e : Disk} {w w' : World}
  {report : PruneReport} {entry : PrunedEntry} {state : RunState}

/-- What allows a destination to be removed: its id has left the table, the record names it, its
directory holds a marker for that id, and no destination of the table lies at or below it. -/
structure Sanctioned (root : Location) (top : DiskPath) (table : PinTable) (state : RunState)
    (d : Disk) (entry : PrunedEntry) : Prop where
  absent : table.contains entry.id = false
  recorded : ∃ record, state.get? entry.id = some record ∧
    PlacedPin.destinationOf entry.id record.path = .ok entry.destination
  isDir : d.look (top ++ entry.destination.names) = some .dir
  owned : (∀ target, d.look (top ++ (entry.destination.names ++ [markerFile]))
    ≠ some (.link target)) → owns d (entry.destination.place root) entry.id = true
  unused : ∀ pin ∈ table.pins, ∀ live,
    PlacedPin.destinationOf pin.id pin.destination = .ok live →
      ¬ entry.destination.names <+: live.names

theorem Cleared.not_housed {entries : List PrunedEntry} (cleared : Cleared top entries q) :
    ¬ top ++ [stateDirectory] <+: q := by
  obtain ⟨entry, -, -, rest, rfl⟩ := cleared
  rw [List.append_assoc]
  exact Layout.outside entry.destination rest

theorem Justified.sanctioned {locked : Disk} (justified : Justified root top table locked entry)
    (prepared : Layout.Prepared top d locked)
    (straight : d.Straight root top entry.destination.names) (sound : d.Sound)
    (listed : ⟨entry.id, some entry.destination⟩ ∈ candidates state table) :
    Sanctioned root top table state d entry := by
  obtain ⟨seen, soundSeen, rooted, part, owned⟩ := justified.owned
  obtain ⟨marker, ⟨stands, read⟩, names⟩ := owns_iff.mp owned
  obtain ⟨absent, recorded⟩ := mem_candidates.mp listed
  have straightSeen : seen.Straight root top entry.destination.names :=
    ⟨rooted, straight.plain, straight.inner, fun r under other =>
      part.no_link (prepared.no_link (straight.clear r under other))⟩
  obtain ⟨callable, isDirSeen⟩ := (straightSeen.linkStat_ok soundSeen _).mp stands
  -- outside the program's own directory nothing came in when the lock was taken
  have before : ∀ rest node, seen.look (top ++ (entry.destination.names ++ rest)) = some node →
      d.look (top ++ (entry.destination.names ++ rest)) = some node := by
    intro rest node held
    have locked := part.found _ _ held
    rwa [prepared.elsewhere (Layout.outside entry.destination rest)] at locked
  have isDir : d.look (top ++ entry.destination.names) = some .dir := by
    have held := before [] .dir
    rw [List.append_nil] at held
    exact held isDirSeen
  refine ⟨absent, recorded, isDir, fun unlinked => ?_, fun pin member live placed =>
    not_below_of_unused justified.unused member placed⟩
  have unlinkedSeen := part.no_link (prepared.no_link unlinked)
  obtain ⟨callableMarker, content, mode, text, file, rest⟩ := (Disk.read_marker_iff
    (straightSeen.concat markerFile_isName (by simp [isDirSeen])) soundSeen unlinkedSeen).mp read
  have readBefore := (Disk.read_marker_iff
    (straight.concat markerFile_isName (by simp [isDir])) sound unlinked).mpr
    ⟨callableMarker, content, mode, text, before _ _ file, rest⟩
  exact owns_iff.mpr ⟨marker, ⟨(straight.linkStat_ok sound _).mpr ⟨callable, isDir⟩, readBefore⟩,
    names⟩

theorem Plain.straight (plain : Plain root top table d) (loaded : RunState.load d root = .ok state)
    {id : String} {destination : Destination}
    (listed : ⟨id, some destination⟩ ∈ candidates state table) :
    d.Straight root top destination.names :=
  ⟨plain.sited.rooted, destination.plain, destination.nonempty,
    plain.clear state loaded _ listed destination rfl⟩

/-- A run removes exactly the trees that it reports as removed, and each of them for a reason. -/
theorem prune_exact (plain : Plain root top table w.disk)
    (ran : (prune root table false).exec w = (.ok report, w')) :
    (∀ q, ¬ top ++ [stateDirectory] <+: q →
      (Cleared top report.entries q → w'.disk.look q = none) ∧
      (¬ Cleared top report.entries q → w'.disk.look q = w.disk.look q)) ∧
    ∃ state, RunState.load w.disk root = .ok state ∧
      ∀ entry ∈ report.entries, entry.action = .removed →
        Sanctioned root top table state w.disk entry := by
  have ended := (prune_ensures plain).ends
  rw [ran] at ended
  obtain @⟨state, locked, pruned, loaded, prepared, reaped, saved, listed, justified⟩ :=
    ended report rfl
  constructor
  · intro q outside
    have last : w'.disk.look q = pruned.look q := saved.elsewhere q outside
    have first : locked.look q = w.disk.look q := prepared.elsewhere outside
    exact ⟨fun cleared => last.trans (reaped.gone q cleared),
      fun spared => last.trans ((reaped.kept q spared).trans first)⟩
  · refine ⟨state, loaded, fun entry member removed => ?_⟩
    exact (justified entry member removed).sanctioned prepared
      (plain.straight loaded (listed entry member)) plain.sited.sound (listed entry member)

def markerNode (id : String) : Node :=
  .file (Marker.text ⟨id, "r1", "fake:", "fake", "then"⟩).toUTF8 0o644

theorem noRecord_ordered : Text.InOrder ([] : List (String × StateRecord)) := .nil

def recordOf (path : String) : RunState :=
  (⟨[], noRecord_ordered⟩ : RunState).insert "gone" ⟨path, "r1", "fake:"⟩

def otherDestination : Destination := ⟨["b"], by decide, by decide, by decide⟩

def pairedState : RunState := (recordOf "a").insert "other" ⟨"b", "r1", "fake:"⟩

def sharedDisk : Disk where
  home := []
  nodes := [(["root"], .dir), (["root", ".depsync"], .dir),
    (["root", ".depsync", "state.toml"], .file (recordOf "z/c").text.toUTF8 0o644),
    (["root", "z"], .dir), (["root", "z", ".depsync.json"], markerNode "other"),
    (["root", "z", "c"], .dir), (["root", "z", "c", ".depsync.json"], markerNode "gone")]
  distinct := by decide

def sharedReport : PruneReport :=
  ⟨false, [⟨"gone", ⟨["z", "c"], by decide, by decide, by decide⟩, .removed⟩]⟩

def emptied (root : String) (d : Disk) : Except SyncError PruneReport × World :=
  (prune (.ofText root) ⟨[]⟩ false).exec { disk := d }

theorem shared_plain : Plain (.ofText "root") ["root"] ⟨[]⟩ sharedDisk := by
  refine .of_check ⟨by decide +kernel, .of_segments ?_ ?_ ?_ ?_, ?_, ?_, ?_⟩ (by decide +kernel)
  · decide
  · decide
  · decide
  · decide +kernel
  · exact Disk.linkless_iff.mp (by decide +kernel)
  · exact Disk.linkless_iff.mp (by decide +kernel)
  · exact Disk.linkless_iff.mp (by decide +kernel)

theorem shared_reports : (emptied "root" sharedDisk).1 = .ok sharedReport := by decide +kernel

theorem shared_ran : (prune (.ofText "root") ⟨[]⟩ false).exec { disk := sharedDisk }
    = (.ok sharedReport, (emptied "root" sharedDisk).2) := Prod.fst_eq_iff.mp shared_reports

/-- The recorded checkout goes, and nothing else does. -/
theorem shared_exact : (∀ q, ¬ ["root", stateDirectory] <+: q →
      (Cleared ["root"] sharedReport.entries q →
        (emptied "root" sharedDisk).2.disk.look q = none) ∧
      (¬ Cleared ["root"] sharedReport.entries q →
        (emptied "root" sharedDisk).2.disk.look q = sharedDisk.look q)) ∧
    ∃ state, RunState.load sharedDisk (.ofText "root") = .ok state ∧
      ∀ entry ∈ sharedReport.entries, entry.action = .removed →
        Sanctioned (.ofText "root") ["root"] ⟨[]⟩ state sharedDisk entry :=
  prune_exact (w := { disk := sharedDisk }) shared_plain shared_ran

def recordedDisk (marker : Node) : Disk where
  home := []
  nodes := [(["root"], .dir), (["root", ".depsync"], .dir),
    (["root", ".depsync", "state.toml"], .file (recordOf "a").text.toUTF8 0o644),
    (["root", "m"], markerNode "gone"), (["root", "a"], .dir),
    (["root", "a", ".depsync.json"], marker)]
  distinct := by simp

def linkedDisk : Disk where
  home := []
  nodes := [(["root"], .dir), (["root", ".depsync"], .dir),
    (["root", ".depsync", "state.toml"], .link "../keep"), (["root", "keep"], .file .empty 0o644)]
  distinct := by decide

def recordedReport : PruneReport :=
  ⟨false, [⟨"gone", Transaction.outerDestination, .removed⟩]⟩

/-- More changes than is reported where the record is a link, the root is missing, or the root is
spelled through the checkout; and a marker that is a link may lead somewhere only during the run. -/
theorem prune_inexact :
    ((emptied "root" linkedDisk).1 = .ok ⟨false, []⟩ ∧
      (emptied "root" linkedDisk).2.disk.look ["root", "keep"] ≠ linkedDisk.look ["root", "keep"]) ∧
    ((emptied "root" (.empty [])).1 = .ok ⟨false, []⟩ ∧
      (emptied "root" (.empty [])).2.disk.look ["root"] ≠ (Disk.empty []).look ["root"]) ∧
    ((emptied "root/a/.." (recordedDisk (markerNode "gone"))).1 = .ok recordedReport ∧
      (emptied "root/a/.." (recordedDisk (markerNode "gone"))).2.disk.look ["root", "a"] ≠ none) ∧
    ((emptied "root" (recordedDisk (.link "../.depsync/staging/../../m"))).1 = .ok recordedReport ∧
      owns (recordedDisk (.link "../.depsync/staging/../../m")) (.ofText "root/a") "gone" = false) := by
  decide +kernel

theorem agree_seen {locked seen : Disk} (prepared : Layout.Prepared top d locked)
    (part : seen.Part locked) : d.Agree seen where
  home := part.home.trans prepared.home
  same q node other stood stands := by
    have still := prepared.stands stood
    have found := part.found q other stands
    exact Option.some.inj (found.symm.trans still)

/-- A directory with a marker for an id that is not reported as removed stays as it is, apart from
removed directories inside it, unless it lies inside one that is removed. -/
theorem prune_spares (plain : Plain root top table w.disk)
    (ran : (prune root table false).exec w = (.ok report, w')) (destination : Destination)
    (marker : Marker) (marked : Marker.read w.disk (destination.place root) = .ok (some marker))
    (foreign : ∀ entry ∈ report.entries, entry.action = .removed → entry.id ≠ marker.id)
    (apart : ∀ entry ∈ report.entries, entry.action = .removed →
      ¬ Disk.Inside entry.destination.names destination.names)
    (rest : List String) (elsewhere : ∀ entry ∈ report.entries, entry.action = .removed →
      Disk.Inside destination.names entry.destination.names →
        ¬ entry.destination.names <+: destination.names ++ rest) :
    w'.disk.look (top ++ (destination.names ++ rest))
      = w.disk.look (top ++ (destination.names ++ rest)) := by
  have ended := (prune_ensures plain).ends
  rw [ran] at ended
  obtain @⟨state, locked, pruned, loaded, prepared, reaped, saved, listed, justified⟩ :=
    ended report rfl
  have outside : ¬ top ++ [stateDirectory] <+: top ++ (destination.names ++ rest) :=
    Layout.outside destination rest
  have spared : ¬ Cleared top report.entries (top ++ (destination.names ++ rest)) := by
    rintro ⟨entry, member, removed, under⟩
    have below := (List.prefix_append_right_inj top).mp under
    by_cases same : entry.destination.names = destination.names
    · obtain ⟨seen, -, -, part, owned⟩ := (justified entry member removed).owned
      obtain ⟨other, ⟨-, read⟩, owner⟩ := owns_iff.mp owned
      rw [Destination.place, same] at read
      have one := (agree_seen prepared part).marker marked read
      exact foreign entry member removed (owner.symm.trans (congrArg Marker.id one))
    · rcases List.prefix_or_prefix_of_prefix below (List.prefix_append _ _) with outer | inner
      · exact apart entry member removed ⟨outer, Ne.symm same⟩
      · exact elsewhere entry member removed ⟨inner, same⟩ below
  have last : w'.disk.look _ = pruned.look _ := saved.elsewhere _ outside
  have first : locked.look _ = w.disk.look _ := prepared.elsewhere outside
  exact last.trans ((reaped.kept _ spared).trans first)

def sharedDestination : Destination := ⟨["z"], by decide, by decide, by decide⟩

/-- The checkout around it keeps its marker. -/
theorem shared_spared : (emptied "root" sharedDisk).2.disk.look ["root", "z", markerFile]
    = sharedDisk.look ["root", "z", markerFile] := by
  refine prune_spares (w := { disk := sharedDisk }) shared_plain shared_ran sharedDestination
    ⟨"other", "r1", "fake:", "fake", "then"⟩ (by decide +kernel) ?_ ?_ [markerFile] ?_
  · simp [sharedReport]
  · simp [sharedReport, sharedDestination, Disk.Inside]
  · simp [sharedReport, sharedDestination, markerFile]

end PinnedTree.Prune
