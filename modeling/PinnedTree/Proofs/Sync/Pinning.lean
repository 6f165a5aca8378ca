import Mathlib.Data.List.Perm.Lattice
import PinnedTree.Proofs.Plan.Decision
import PinnedTree.Proofs.Plan.Groups
import PinnedTree.Proofs.RunState
import PinnedTree.Proofs.Sync.Run

namespace PinnedTree.Sync

open Transaction

/-- Markers stand in files: no destination lies in the place of a marker, and no link stands there
or is put there. -/
structure Markable (root : Location) (top : DiskPath) (chosen : List PlacedPin)
    (visits : List Visit) (d : Disk) : Prop where
  named : ∀ p ∈ chosen, markerFile ∉ p.destination.names
  plain : ∀ p ∈ chosen, ∀ target,
    d.look (top ++ p.destination.names ++ [markerFile]) ≠ some (.link target)
  staged : ∀ visit ∈ visits, ∀ new ∈ visit.brought root top, ∀ q ∈ chosen, ∀ rest,
    q.destination.names = visit.pin.destination.names ++ rest → rest ≠ [] →
    ∀ target, new (rest ++ [markerFile]) ≠ some (.link target)

namespace Terrain

/-- No destination lies in the place of a marker, and no new content has a link there. -/
structure Marks (t : Terrain) : Prop where
  named : ∀ p ∈ t.chosen, markerFile ∉ p.destination.names
  staged : ∀ p new, t.stock p new → ∀ q ∈ t.chosen, ∀ rest,
    q.destination.names = p.destination.names ++ rest → rest ≠ [] →
    ∀ target, new (rest ++ [markerFile]) ≠ some (.link target)

variable {t : Terrain} {d e f : Disk} {p q : PlannedPin} {adopt : Bool} {outcome : Outcome}

theorem reconsider_current {root : Location} : reconsider d root adopt p = .ok .current ↔
    ∃ marker, (d.linkStat (p.destination.place root) = .ok .dir ∧
      Marker.read d (p.destination.place root) = .ok (some marker)) ∧
      marker.id = p.pin.id ∧ marker.revision = p.pin.revision := by
  have asked : reconsider d root adopt p = .ok .current ↔ ∃ marker,
      Inspection.ofOuter d (p.destination.place root) p.nested = .ok (.marked marker) ∧
        marker.id = p.pin.id ∧ marker.revision = p.pin.revision := by
    unfold reconsider
    cases Inspection.ofOuter d (p.destination.place root) p.nested with
    | error e => simp [Except.mapError, bind, Except.bind]
    | ok found =>
      have decided := @decideAction_current p.pin.id p.pin.revision found adopt
      cases answer : decideAction p.pin.id p.pin.revision found adopt with
      | error conflict => simp_all [Except.mapError, bind, Except.bind]
      | ok action => simp_all [Except.mapError, bind, Except.bind]
  simp only [asked, Inspection.ofOuter_marked, Inspection.ofPlace_marked]

theorem markerPlace_eq (t : Terrain) (p : PlannedPin) :
    t.top ++ p.destination.names ++ [markerFile] = t.top ++ (p.destination.names ++ [markerFile]) :=
  List.append_assoc _ _ _

theorem Orderly.straight_marker (orderly : t.Orderly d) (surveyed : t.Surveyed)
    (member : p ∈ t.pins) : d.Straight t.root t.top (p.destination.names ++ [markerFile]) :=
  have straight := (Site.Near.refl orderly.sound).straight_destination (orderly.ready surveyed member)
  straight.concat markerFile_isName (orderly.plain p member)

theorem Handled.certifies (handled : t.Handled adopt p d e outcome) (orderly : t.Orderly d)
    (surveyed : t.Surveyed) (member : p ∈ t.pins)
    (unlinked : ∀ target,
      d.look (t.top ++ p.destination.names ++ [markerFile]) ≠ some (.link target))
    (success : outcome.isFailure = false) :
    e.Certifies (t.top ++ p.destination.names) p.pin.id p.pin.revision := by
  cases handled with
  | current same found =>
    obtain ⟨marker, ⟨-, read⟩, id, revision⟩ := reconsider_current.mp found
    rw [markerPlace_eq] at unlinked
    rw [same, ← id, ← revision]
    exact Disk.certifies_of_read (orderly.straight_marker surveyed member) orderly.sound unlinked
      read
  | failed quiet swept => cases success
  | renewed _ renewal _ =>
    obtain ⟨clock, file⟩ := marker_new surveyed member renewal.marked renewal.done.each
      renewal.done.content
    exact Disk.certifies_written (by decide) file

theorem marker_beside (named : markerFile ∉ p.destination.names)
    (apart : ¬ p.destination.names <+: q.destination.names) :
    ¬ (t.site p).destination <+: t.top ++ q.destination.names ++ [markerFile] := by
  rw [markerPlace_eq]
  intro under
  rcases List.prefix_concat_iff.mp ((List.prefix_append_right_inj t.top).mp under) with same | inner
  · have whole : p.destination.names = q.destination.names ++ [markerFile] := same
    exact named (by simp [whole])
  · exact apart inner

theorem Handled.keeps_marker (handled : t.Handled adopt p d e outcome) (orderly : t.Orderly d)
    (surveyed : t.Surveyed) (member : p ∈ t.pins) (named : markerFile ∉ p.destination.names)
    (apart : ¬ p.destination.names <+: q.destination.names)
    (certifies : d.Certifies (t.top ++ q.destination.names) q.pin.id q.pin.revision) :
    e.Certifies (t.top ++ q.destination.names) q.pin.id q.pin.revision := by
  refine certifies.congr ?_
  have ready := orderly.ready surveyed member
  rcases (handled.near orderly.sound).beside ready (markerPlace_eq t q ▸ Layout.outside _ _)
    (marker_beside named apart) with same | ⟨free, -⟩
  · exact same
  · exact absurd free certifies.stands

theorem Handled.marker_plain (handled : t.Handled adopt p d e outcome) (orderly : t.Orderly d)
    (surveyed : t.Surveyed) (marks : t.Marks) (memberP : p ∈ t.pins)
    (memberQ : q ∈ t.pins) (apart : ¬ q.destination.names <+: p.destination.names)
    (plain : ∀ target, d.look (t.top ++ q.destination.names ++ [markerFile]) ≠ some (.link target))
    (target : String) : e.look (t.top ++ q.destination.names ++ [markerFile]) ≠ some (.link target) := by
  have chosenP : p.toPlacedPin ∈ t.chosen := List.mem_map_of_mem memberP
  have chosenQ : q.toPlacedPin ∈ t.chosen := List.mem_map_of_mem memberQ
  have ready := orderly.ready surveyed memberP
  have near := handled.near orderly.sound
  by_cases inner : p.destination.names <+: q.destination.names
  · obtain ⟨rest, whole⟩ := inner
    have filled : rest ≠ [] := fun none => apart (by simp [← whole, none])
    have place : t.top ++ q.destination.names ++ [markerFile]
        = (t.site p).destination ++ (rest ++ [markerFile]) := by
      simp [Site.destination, site, siteOf, ← whole]
    rw [place] at plain ⊢
    cases handled.shows with
    | old same => rw [same]; exact plain target
    | gone none => simp [none]
    | new marked stocked each content =>
      rename_i new carried
      by_cases covered : Covered carried (rest ++ [markerFile])
      · rw [content.kept _ covered]
        exact plain target
      · rcases content.fresh _ covered with same | ⟨-, made, -⟩
        · rw [same]
          exact marks.staged p new stocked _ chosenQ rest whole.symm filled target
        · simp [made]
  · rcases near.beside ready (markerPlace_eq t q ▸ Layout.outside _ _)
      (marker_beside (marks.named _ chosenP) inner) with same | ⟨-, made, -⟩
    · rw [same]
      exact plain target
    · rw [made]
      simp

theorem own_untouched {name : String} (ready : (t.site p).Ready d) :
    ¬ (t.site p).Touches (t.own name) := by
  have room : [stateDirectory, name] <+: [stateDirectory, name, ""] := by simp
  exact ready.own_untouched room (by simp)

theorem Handled.record (handled : t.Handled adopt p d e outcome) (orderly : t.Orderly d)
    (surveyed : t.Surveyed) (member : p ∈ t.pins) :
    e.look (t.own "state.toml") = d.look (t.own "state.toml") := by
  have ready := orderly.ready surveyed member
  rcases (handled.near orderly.sound).elsewhere _ (own_untouched ready)
    with same | ⟨-, -, above | above⟩
  · exact same
  · exact absurd above (ready.apart_own ["state.toml"]).2
  · rw [own, Site.staged, Site.stagingNames] at above
    simp [site, siteOf, List.prefix_append_right_inj] at above

theorem Handled.laid (handled : t.Handled adopt p d e outcome) (orderly : t.Orderly d)
    (surveyed : t.Surveyed) (member : p ∈ t.pins) (laid : t.Laid d) : t.Laid e := by
  have ready := orderly.ready surveyed member
  refine laid.kept fun name node _ stands => ?_
  rcases (handled.near orderly.sound).elsewhere _ (own_untouched ready) with same | ⟨free, -⟩
  · exact same.trans stands
  · cases free.symm.trans stands

/-- What a line of the report says about a pin, and that its marker stands if it did not fail. -/
def Accounted (t : Terrain) (d : Disk) (p : PlannedPin) (row : EntryReport) : Prop :=
  ∃ outcome, row = entryReport p outcome ∧ (outcome.isFailure = false →
    d.Certifies (t.top ++ p.destination.names) p.pin.id p.pin.revision)

/-- Between two pins of a sequence: those that are done have their lines and markers, those that are
left have no link in the place of theirs, and the record is as it was. -/
structure Accounts (t : Terrain) (sequence : List PlannedPin) (record : Option Node)
    (left : List PlannedPin) (rows : List EntryReport) (d : Disk) : Prop where
  done : ∃ done, done ++ left = sequence ∧ List.Forall₂ (t.Accounted d) done rows
  plain : ∀ q ∈ left, ∀ target,
    d.look (t.top ++ q.destination.names ++ [markerFile]) ≠ some (.link target)
  record : d.look (t.own "state.toml") = record
  laid : t.Laid d

theorem Accounts.ended {sequence : List PlannedPin} {record : Option Node}
    {rows : List EntryReport} (accounts : t.Accounts sequence record [] rows d)
    (once : (sequence.map (·.pin.id)).Nodup) : (rows.map (·.id)).Nodup ∧
      ∀ row ∈ rows, ∃ p ∈ sequence, t.Accounted d p row := by
  obtain ⟨done, rfl, accounted⟩ := accounts.done
  rw [List.append_nil] at once ⊢
  refine ⟨?_, fun row member => forall₂_of_mem accounted member⟩
  have ids : done.map (·.pin.id) = rows.map (·.id) := by
    rw [← List.forall₂_eq_eq_eq, List.forall₂_map_left_iff, List.forall₂_map_right_iff]
    refine accounted.imp ?_
    rintro p row ⟨outcome, rfl, -⟩
    rfl
  exact ids ▸ once

theorem carries_accounts {sequence : List PlannedPin} {record : Option Node}
    (surveyed : t.Surveyed) (marks : t.Marks)
    (listed : ∀ p ∈ sequence, p ∈ t.pins)
    (ordered : sequence.Pairwise fun earlier later =>
      ¬ later.destination.names <+: earlier.destination.names) :
    t.Carries adopt (fun _ => True) (t.Accounts sequence record) where
  furnished _ _ _ := trivial
  during _ _ _ _ := trivial
  handled := by
    rintro p left rows d e outcome member orderly - ⟨⟨done, rfl, accounted⟩, plain, same, laid⟩
      handled
    have named := marks.named _ (List.mem_map_of_mem member)
    obtain ⟨-, later, apart⟩ := List.pairwise_append.mp ordered
    refine ⟨⟨done ++ [p], by simp, ?_⟩, fun q waiting => ?_, ?_,
      handled.laid orderly surveyed member laid⟩
    · refine List.rel_append ?_ (.cons ⟨outcome, rfl, ?_⟩ .nil)
      · have earlier := (List.forall₂_and_left _ _).mpr ⟨fun q before => apart q before p (by simp),
          accounted⟩
        refine earlier.imp ?_
        rintro q row ⟨beside, outcome, line, certifies⟩
        exact ⟨outcome, line, fun success =>
          handled.keeps_marker orderly surveyed member named beside (certifies success)⟩
      · exact handled.certifies orderly surveyed member (plain p (by simp))
    · exact handled.marker_plain orderly surveyed marks member
        (listed q (by simp [waiting])) ((List.pairwise_cons.mp later).1 q waiting)
        (plain q (List.mem_cons_of_mem _ waiting))
    · exact (handled.record orderly surveyed member).trans same

theorem Concluded.loads {table : PinTable} {report : SyncReport}
    {J : List PlannedPin → List EntryReport → Disk → Prop} (orderly : t.Orderly d)
    (record : ∀ {rows f}, J [] rows f → f.look (t.own "state.toml") = d.look (t.own "state.toml"))
    (concluded : t.Concluded table J report e) :
    ∃ before mode, RunState.load d t.root = .ok before ∧
      RunState.load e t.root = .ok (recorded table report before) ∧
      e.look (t.own "state.toml")
        = some (.file (recorded table report before).text.toUTF8 mode) ∧ mayWrite mode = true := by
  cases concluded with
  | intro lines orderly' holds furnished loaded callable saved grants stood =>
    rename_i rows d' state mode
    have named : IsName "state.toml" := by decide
    have straight := orderly'.straight_room named
    refine ⟨state, mode, ?_, ?_, saved, ?_⟩
    · have unlinked := orderly.own [stateDirectory, "state.toml"] (by simp)
      rw [← loaded]
      exact (RunState.load_congr (orderly.straight_room named) orderly.sound unlinked straight
        orderly'.sound (record holds)).symm
    · refine RunState.load_saved (furnished.orderly.straight_room named) furnished.orderly.sound
        callable saved ?_
      cases grants with
      | made free => decide
      | kept stood writable =>
        exact RunState.readable_of_load straight orderly'.sound callable stood loaded
    · cases grants with
      | made free => decide
      | kept stood writable => exact writable

end Terrain

variable {table : PinTable} {report : SyncReport} {entries : List EntryReport} {state : RunState}

def recordEntry (table : PinTable) (state : RunState) (entry : EntryReport) : RunState :=
  match table.get? entry.id with
  | some pin => state.insert pin.id ⟨entry.destination, pin.revision, pin.locator⟩
  | none => state

theorem recordEntry_other {entry : EntryReport} {id : String} (other : entry.id ≠ id) :
    (recordEntry table state entry).get? id = state.get? id := by
  unfold recordEntry
  split
  · rename_i pin found
    have same : pin.id = entry.id := by simpa using List.find?_some found
    rw [RunState.get?_insert, if_neg fun here => other (same.symm.trans here.symm)]
  · rfl

theorem foldl_recordEntry_other {id : String} (others : ∀ entry ∈ entries, entry.id ≠ id) :
    (entries.foldl (recordEntry table) state).get? id = state.get? id := by
  induction entries generalizing state with
  | nil => rfl
  | cons entry rest ih =>
    rw [List.forall_mem_cons] at others
    rw [List.foldl_cons, ih others.2, recordEntry_other others.1]

theorem foldl_recordEntry_mem {entry : EntryReport} {pin : Pin} (member : entry ∈ entries)
    (once : (entries.map (·.id)).Nodup) (found : table.get? entry.id = some pin) :
    (entries.foldl (recordEntry table) state).get? entry.id
      = some ⟨entry.destination, pin.revision, pin.locator⟩ := by
  induction entries generalizing state with
  | nil => cases member
  | cons first rest ih =>
    obtain ⟨fresh, once⟩ := List.nodup_cons.mp once
    rw [List.foldl_cons]
    rcases List.mem_cons.mp member with rfl | later
    · have same : pin.id = entry.id := by simpa using List.find?_some found
      have others : ∀ other ∈ rest, other.id ≠ entry.id := fun other there here =>
        fresh (List.mem_map.mpr ⟨other, there, here⟩)
      rw [foldl_recordEntry_other others, recordEntry, found]
      simp [RunState.get?_insert, same]
    · exact ih later once

theorem recorded_mem {row : EntryReport} {pin : Pin} (once : (entries.map (·.id)).Nodup)
    (member : row ∈ entries) (success : row.outcome.isFailure = false)
    (found : table.get? row.id = some pin) :
    (recorded table (.ofEntries false entries) state).get? row.id
      = some ⟨row.destination, pin.revision, pin.locator⟩ := by
  have sorted := List.mergeSort_perm entries fun a b => a.id ≤ b.id
  refine foldl_recordEntry_mem ?_ ?_ found
  · exact List.mem_filter.mpr ⟨sorted.mem_iff.mpr member, by simp [success]⟩
  · exact ((sorted.map _).nodup_iff.mpr once).sublist (List.filter_sublist.map _)

theorem recorded_other {id : String}
    (failures : ∀ row ∈ (SyncReport.ofEntries false entries).entries, row.id = id →
      row.outcome.isFailure = true) :
    (recorded table (.ofEntries false entries) state).get? id = state.get? id := by
  refine foldl_recordEntry_other fun entry member same => ?_
  obtain ⟨listed, success⟩ := List.mem_filter.mp member
  simp [failures entry listed same] at success

variable {root : Location} {options : SyncOptions} {backends : List Backend}
  {observer : Observer} {top : DiskPath} {placed : List PlacedPin} {w : World}

/-- The order in which a pool handles the pins of a plan: each of them once, and none after one that
lies inside it. -/
theorem sequence_of_build {plan : Plan} {d : Disk}
    (build : Plan.build d root table backends options.filter options.adoptUnmanaged = .ok plan)
    {order : List Nat} (interleaves : Groups.Interleaves plan.groups order) :
    (order.filterMap (plan.pins[·]?)).Perm plan.pins ∧
      (order.filterMap (plan.pins[·]?)).Pairwise
        fun earlier later => ¬ later.destination.names <+: earlier.destination.names :=
  Groups.Interleaves.pins (Plan.distinct_of_build build) interleaves

theorem ids_of_build {plan : Plan} {d : Disk} (valid : table.validate backends = .ok placed)
    (build : Plan.build d root table backends options.filter options.adoptUnmanaged = .ok plan) :
    (plan.pins.map (·.pin.id)).Nodup := by
  obtain ⟨-, selected, -, -⟩ := Terrain.of_build [] [] valid build
  have same : plan.pins.map (·.pin.id)
      = (placed.filter (Plan.selects options.filter)).map (·.pin.id) := by
    rw [← selected, List.map_map]
    rfl
  rw [same]
  exact List.pairwise_map.mpr ((PinTable.validate_ok valid).1.ids.filter _)

theorem Markable.marks {plan : Plan} {visits : List Visit} {chosen : List PlacedPin} {d : Disk}
    (markable : Markable root top chosen visits d) (rooted : plan.root = root)
    (selected : plan.pins.map (·.toPlacedPin) = chosen) :
    (Terrain.ofPlan top placed plan visits).Marks := by
  subst rooted selected
  refine ⟨markable.named, ?_⟩
  rintro _ new ⟨visit, listed, rfl, brought⟩
  exact markable.staged visit listed new brought

section

variable {visits : List Visit}
  (toured : visits = journey root table options backends observer w)

include toured

/-- A run that ends with a report has accounted for the pins of its plan, and kept what each of them
keeps. -/
theorem Setting.accounts_keeping {J : List EntryReport → Disk → Prop}
    (setting : Setting root table options backends observer top placed w)
    (pooled : ∀ groups, Groups.Interleaves groups (options.schedule groups))
    (markable : Markable root top (placed.filter (Plan.selects options.filter)) visits w.disk)
    (real : options.dryRun = false)
    (reported : ((PinnedTree.sync root table options backends observer).exec w).1 = .ok report)
    (start : ∀ e, (∀ q, ¬ top ++ [stateDirectory] <+: q → e.look q = w.disk.look q) → J [] e)
    (carries : ∀ plan,
      Plan.build w.disk root table backends options.filter options.adoptUnmanaged = .ok plan →
      (Terrain.ofPlan top placed plan visits).Carries options.adoptUnmanaged (fun _ => True)
        fun _ => J) :
    ∃ plan, Plan.build w.disk root table backends options.filter options.adoptUnmanaged = .ok plan ∧
      (Terrain.ofPlan top placed plan visits).Concluded table (fun left rows d =>
        (Terrain.ofPlan top placed plan visits).Accounts
          ((options.schedule plan.groups).filterMap (plan.pins[·]?))
          (w.disk.look (top ++ [stateDirectory, "state.toml"])) left rows d ∧ J rows d)
        report ((PinnedTree.sync root table options backends observer).exec w).2.disk := by
  cases build : Plan.build w.disk root table backends options.filter options.adoptUnmanaged with
  | error fault =>
    obtain ⟨⟨fault, impossible⟩, -⟩ := (Setting.refused build).ends
    cases reported.symm.trans impossible
  | ok plan =>
    obtain ⟨rooted, selected, surveyed, -⟩ := setting.planned build visits
    obtain ⟨perm, ordered⟩ := sequence_of_build build (pooled _)
    have accounted : (Terrain.ofPlan top placed plan visits).Carries options.adoptUnmanaged
        (fun _ => True) ((Terrain.ofPlan top placed plan visits).Accounts
          ((options.schedule plan.groups).filterMap (plan.pins[·]?))
          (w.disk.look (top ++ [stateDirectory, "state.toml"]))) :=
      Terrain.carries_accounts surveyed (markable.marks rooted selected)
        (fun p member => perm.subset member) ordered
    refine ⟨plan, rfl, (setting.sync build toured trivial (fun _ _ => trivial) ?_
      (accounted.both (carries plan build))).ends report reported real⟩
    intro e prepared laid
    refine ⟨⟨⟨[], rfl, .nil⟩, fun q waiting => ?_, prepared.record, laid⟩,
      start e prepared.elsewhere⟩
    have same := prepared.elsewhere _ (Layout.outside q.destination [markerFile])
    rw [Terrain.markerPlace_eq, same, ← Terrain.markerPlace_eq]
    exact markable.plain q.toPlacedPin (selected ▸ List.mem_map_of_mem (perm.subset waiting))

theorem Setting.accounts
    (setting : Setting root table options backends observer top placed w)
    (pooled : ∀ groups, Groups.Interleaves groups (options.schedule groups))
    (markable : Markable root top (placed.filter (Plan.selects options.filter)) visits w.disk)
    (real : options.dryRun = false)
    (reported : ((PinnedTree.sync root table options backends observer).exec w).1 = .ok report) :
    ∃ plan, Plan.build w.disk root table backends options.filter options.adoptUnmanaged = .ok plan ∧
      (Terrain.ofPlan top placed plan visits).Concluded table
        ((Terrain.ofPlan top placed plan visits).Accounts
          ((options.schedule plan.groups).filterMap (plan.pins[·]?))
          (w.disk.look (top ++ [stateDirectory, "state.toml"]))) report
        ((PinnedTree.sync root table options backends observer).exec w).2.disk := by
  have idle : ∀ plan, Plan.build w.disk root table backends options.filter options.adoptUnmanaged
      = .ok plan → (Terrain.ofPlan top placed plan visits).Carries options.adoptUnmanaged
        (fun _ => True) fun _ _ _ => True := fun _ _ =>
    ⟨fun _ _ _ => trivial, fun _ _ _ _ => trivial, fun _ _ _ _ _ => trivial⟩
  obtain ⟨plan, build, concluded⟩ := setting.accounts_keeping toured (J := fun _ _ => True) pooled
    markable real reported (fun _ _ => trivial) idle
  exact ⟨plan, build, concluded.mono fun _ _ holds => holds.1⟩

end

/-- What a run reports as in place has its marker at the destination and its record, and the records
of all other ids are as they were. -/
theorem sync_pins (setting : Setting root table options backends observer top placed w)
    (pooled : ∀ groups, Groups.Interleaves groups (options.schedule groups))
    (markable : Markable root top (placed.filter (Plan.selects options.filter))
      (journey root table options backends observer w) w.disk)
    (real : options.dryRun = false)
    (reported : ((sync root table options backends observer).exec w).1 = .ok report) :
    ∃ before after, RunState.load w.disk root = .ok before ∧
      RunState.load ((sync root table options backends observer).exec w).2.disk root = .ok after ∧
      (∀ row ∈ report.entries, row.outcome.isFailure = false →
        ∃ p ∈ placed.filter (Plan.selects options.filter), row.id = p.pin.id ∧
          ((sync root table options backends observer).exec w).2.disk.Certifies
            (top ++ p.destination.names) p.pin.id p.pin.revision ∧
          after.get? row.id = some ⟨p.destination.text, p.pin.revision, p.pin.locator⟩) ∧
      ∀ id, (∀ row ∈ report.entries, row.id = id → row.outcome.isFailure = true) →
        after.get? id = before.get? id := by
  obtain ⟨plan, build, concluded⟩ := setting.accounts rfl pooled markable real reported
  obtain ⟨rfl, selected, -, orderly⟩ := setting.planned build
    (journey root table options backends observer w)
  obtain ⟨perm, -⟩ := sequence_of_build build (pooled _)
  obtain ⟨before, _, loaded, saved, -⟩ := concluded.loads orderly fun holds => holds.record
  cases concluded with
  | intro lines _ holds furnished _ _ _ _ _ =>
    subst lines
    obtain ⟨once, each⟩ := holds.ended ((perm.map _).nodup_iff.mpr (ids_of_build setting.valid build))
    refine ⟨before, _, loaded, saved, fun row listed success => ?_, fun id => recorded_other⟩
    have member := (List.mergeSort_perm _ _).mem_iff.mp listed
    obtain ⟨p, waiting, outcome, rfl, certifies⟩ := each row member
    have inPlan : p.toPlacedPin ∈ placed.filter (Plan.selects options.filter) :=
      selected ▸ List.mem_map_of_mem (perm.subset waiting)
    refine ⟨p.toPlacedPin, inPlan, rfl, (certifies success).congr ?_, ?_⟩
    · rw [Terrain.markerPlace_eq]
      exact furnished.elsewhere _ (Layout.outside p.destination [markerFile])
    · exact recorded_mem once member success
        (PinTable.get?_of_valid setting.valid (List.mem_filter.mp inPlan).1)

theorem nestedRun_markable :
    Markable (.ofText "root") ["root"] ([outerPin, innerPin].filter (Plan.selects outerOnly.filter))
      (journey (.ofText "root") nestedTable outerOnly fileBackends noObserver
        { disk := mirrorsDisk }) mirrorsDisk := by
  have only : [outerPin, innerPin].filter (Plan.selects outerOnly.filter) = [outerPin] := rfl
  rw [only]
  refine ⟨?_, ?_, ?_⟩
  · intro p member
    obtain rfl := List.mem_singleton.mp member
    decide
  · intro p member
    obtain rfl := List.mem_singleton.mp member
    exact Disk.linkless_iff.mp (by decide +kernel)
  · intro visit member new _ q memberQ rest whole filled
    obtain rfl := List.mem_singleton.mp memberQ
    have about : visit.pin.destination = outerDestination :=
      congrArg PlacedPin.destination (outer_of_journey member)
    rw [about] at whole
    exact absurd (List.append_cancel_left (whole.symm.trans (List.append_nil _).symm)) filled

/-- The outer pin is in place and recorded. -/
theorem nestedRun_pins : ∃ before after, RunState.load mirrorsDisk (.ofText "root") = .ok before ∧
    RunState.load ((sync (.ofText "root") nestedTable outerOnly fileBackends
      noObserver).exec { disk := mirrorsDisk }).2.disk (.ofText "root") = .ok after ∧
    (∀ row ∈ nestedReport.entries, row.outcome.isFailure = false →
      ∃ p ∈ [outerPin, innerPin].filter (Plan.selects outerOnly.filter), row.id = p.pin.id ∧
        ((sync (.ofText "root") nestedTable outerOnly fileBackends
          noObserver).exec { disk := mirrorsDisk }).2.disk.Certifies
          (["root"] ++ p.destination.names) p.pin.id p.pin.revision ∧
        after.get? row.id = some ⟨p.destination.text, p.pin.revision, p.pin.locator⟩) ∧
    ∀ id, (∀ row ∈ nestedReport.entries, row.id = id → row.outcome.isFailure = true) →
      after.get? id = before.get? id :=
  sync_pins (w := { disk := mirrorsDisk }) nested_setting Groups.interleaves_flatten
    nestedRun_markable rfl nestedRun_reports

end PinnedTree.Sync
