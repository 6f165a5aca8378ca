import PinnedTree.Proofs.Sync.Foretelling
import PinnedTree.Proofs.Sync.Isolation

namespace PinnedTree.Sync

open Transaction

def Unsigned (kept outer : PlacedPin) (new : DiskPath → Option Node) : Prop :=
  ∀ rest, rest ≠ [] → kept.destination.names = outer.destination.names ++ rest →
    new (rest ++ [markerFile]) = none

def Signed (kept : PlacedPin) (top : DiskPath) (d : Disk) : Prop :=
  ∃ node, node ≠ .dir ∧ d.look (top ++ (kept.destination.names ++ [markerFile])) = some node

theorem Signed.congr {kept : PlacedPin} {top : DiskPath} {d e : Disk} (signed : Signed kept top d)
    (same : e.look (top ++ (kept.destination.names ++ [markerFile]))
      = d.look (top ++ (kept.destination.names ++ [markerFile]))) : Signed kept top e := by
  obtain ⟨node, file, stands⟩ := signed
  exact ⟨node, file, same.trans stands⟩

namespace Terrain

variable {t : Terrain} {p : PlannedPin} {kept : PlacedPin} {adopt : Bool} {outcome : Outcome}
  {d e : Disk} {rows : List EntryReport}

theorem Orderly.signed (orderly : t.Orderly d) (surveyed : t.Surveyed) (member : p ∈ t.pins)
    (found : reconsider d t.root adopt p = .ok .current) : Signed p.toPlacedPin t.top d := by
  obtain ⟨marker, ⟨-, read⟩, -⟩ := reconsider_current.mp found
  by_cases linked : ∃ target,
      d.look (t.top ++ (p.destination.names ++ [markerFile])) = some (.link target)
  · obtain ⟨target, link⟩ := linked
    exact ⟨.link target, by simp, link⟩
  · obtain ⟨content, mode, -, -, file, -⟩ := Disk.certifies_of_read
      (orderly.straight_marker surveyed member) orderly.sound (not_exists.mp linked) read
    exact ⟨.file content mode, by simp, by simpa using file⟩

theorem Handled.signed (handled : t.Handled adopt p d e outcome) (orderly : t.Orderly d)
    (surveyed : t.Surveyed) (member : p ∈ t.pins)
    (unsigned : ∀ new, t.stock p new → Unsigned kept p.toPlacedPin new)
    (other : p.destination ≠ kept.destination) (signed : Signed kept t.top e) :
    Signed kept t.top d := by
  obtain ⟨node, file, stands⟩ := signed
  rcases handled.shows.origin (handled.near orderly.sound).opened (orderly.ready surveyed member)
    (Layout.outside kept.destination [markerFile]) stands with
    old | dir | ⟨new, below, marked, stocked, place, fresh⟩
  · exact ⟨node, file, old⟩
  · exact absurd dir file
  · rw [Site.destination, List.append_assoc] at place
    have whole : kept.destination.names ++ [markerFile] = p.destination.names ++ below :=
      List.append_cancel_left place
    rcases List.eq_nil_or_concat below with rfl | ⟨rest, last, rfl⟩
    · exact absurd (Option.some.inj (fresh.symm.trans marked.isDir)) file
    · rw [List.concat_eq_append, ← List.append_assoc] at whole
      obtain ⟨outer, rfl⟩ := List.append_singleton_inj.mp whole
      have filled : rest ≠ [] := by
        rintro rfl
        exact other (Destination.eq_of_names (by simpa using outer.symm))
      rw [List.concat_eq_append, unsigned new stocked rest filled outer] at fresh
      cases fresh

/-- Where new content takes the place of a tree that has a marker afterwards, the tree was brought
along. -/
theorem Renewal.covers {new : DiskPath → Option Node} {carried : List (List String)}
    (renewal : t.Renewal p d new carried e) (surveyed : t.Surveyed) (member : p ∈ t.pins)
    (listed : kept ∈ t.placed) (unsigned : Unsigned kept p.toPlacedPin new)
    (signed : Signed kept t.top e) {rest : List String}
    (outer : p.destination.names ++ rest = kept.destination.names) (filled : rest ≠ []) :
    Covered carried rest := by
  obtain ⟨node, file, stands⟩ := signed
  rw [show t.top ++ (kept.destination.names ++ [markerFile])
    = (t.site p).destination ++ (rest ++ [markerFile]) by
      simp [Site.destination, site, siteOf, ← outer]] at stands
  by_cases covered : Covered carried (rest ++ [markerFile])
  · obtain ⟨c, brought, under⟩ := covered
    rcases List.prefix_concat_iff.mp under with whole | within
    · -- the pin itself is nested there, so its marker's place is not
      have known : kept.destination ∈ t.all := List.mem_map_of_mem listed
      obtain ⟨c', nested, leads⟩ := Destination.nestedIn_covers known outer.symm filled
      have among : c ∈ p.destination.nestedIn t.all :=
        surveyed.nested p member ▸ (renewal.done.each c brought).listed
      have longer : c' ≠ c := fun same => by
        have bound := leads.length_le
        rw [same, whole, List.length_append, List.length_singleton] at bound
        omega
      exact absurd (leads.trans (whole ▸ List.prefix_append rest [markerFile]))
        (Destination.nestedIn_ne nested among longer).1
    · exact ⟨c, brought, within⟩
  · rcases renewal.done.content.fresh _ covered with fresh | ⟨-, made, -⟩
    · rw [stands, unsigned rest filled outer.symm] at fresh
      cases fresh
    · exact absurd (Option.some.inj (stands.symm.trans made)) file

/-- What is left of a run is about pins that do not contain this one, once it was found current; and
while it waits, its tree stands if its marker does. -/
structure Attended (t : Terrain) (kept : PlacedPin) (d₀ : Disk) (left : List PlannedPin)
    (rows : List EntryReport) (d : Disk) : Prop where
  ordered : left.Pairwise fun earlier later =>
    ¬ later.destination.names <+: earlier.destination.names
  waiting : (∃ q ∈ left, q.toPlacedPin = kept) → Signed kept t.top d →
    Signed kept t.top d₀ ∧ kept.Spared t.top t.placed t.chosen rows d₀ d
  current : ∀ row ∈ rows, row.id = kept.pin.id → row.outcome = .alreadyCurrent →
    (∀ q ∈ left, ¬ q.destination.names <+: kept.destination.names) ∧
      Signed kept t.top d₀ ∧ kept.Spared t.top t.placed t.chosen rows d₀ d

theorem carries_attended {backends : List Backend} (d₀ : Disk)
    (arranged : Arranged backends t.placed) (surveyed : t.Surveyed) (listed : kept ∈ t.placed)
    (unsigned : ∀ p new, t.stock p new → Unsigned kept p.toPlacedPin new) :
    t.Carries adopt (fun _ => True) (t.Attended kept d₀) where
  furnished _ _ _ := trivial
  during _ _ _ _ := trivial
  handled := by
    intro p left rows d e outcome member orderly _ attended handled
    obtain ⟨later, ordered⟩ := List.pairwise_cons.mp attended.ordered
    have extend : kept.Spared t.top t.placed t.chosen rows d₀ d →
        kept.Spared t.top t.placed t.chosen [entryReport p outcome] d e →
        kept.Spared t.top t.placed t.chosen (rows ++ [entryReport p outcome]) d₀ e :=
      fun before last => before.trans
        (last.mono fun row only => List.mem_append_right _ only)
        fun row earlier => List.mem_append_left _ earlier
    refine ⟨ordered, ?_, ?_⟩
    · rintro ⟨q, waits, rfl⟩ signed
      have other : p.destination ≠ q.destination := fun same =>
        later q waits (same ▸ List.prefix_refl _)
      obtain ⟨signed₀, before⟩ := attended.waiting ⟨q, List.mem_cons_of_mem _ waits, rfl⟩
        (handled.signed orderly surveyed member (unsigned p) other signed)
      refine ⟨signed₀, extend before (handled.spared_covered orderly surveyed member
        (fun same => absurd same other) fun renewal rest filled outer => ?_)⟩
      exact renewal.covers surveyed member listed (unsigned p _ renewal.stocked) signed outer filled
    · intro row among id current
      rcases List.mem_append.mp among with earlier | last
      · obtain ⟨apart, signed₀, before⟩ := attended.current row earlier id current
        have beside := apart p List.mem_cons_self
        refine ⟨fun q waits => apart q (List.mem_cons_of_mem _ waits), signed₀, extend before
          (handled.spared_covered orderly surveyed member
            (fun same => absurd (same ▸ List.prefix_refl _) beside) fun _ rest _ outer => ?_)⟩
        exact absurd ⟨rest, outer⟩ beside
      · obtain rfl := List.mem_singleton.mp last
        obtain rfl : p.toPlacedPin = kept :=
          arranged.same_of_id (surveyed.listed p member) listed id
        obtain rfl : outcome = .alreadyCurrent := current
        cases handled with
        | current same found =>
          obtain ⟨signed₀, before⟩ := attended.waiting ⟨p, List.mem_cons_self, rfl⟩
            (orderly.signed surveyed member found)
          exact ⟨later, signed₀, extend before (same ▸ .refl)⟩
        | renewed _ _ _ _ other => exact absurd rfl other

end Terrain

variable {root : Location} {table : PinTable} {options : SyncOptions} {backends : List Backend}
  {observer : Observer} {top : DiskPath} {placed : List PlacedPin} {w : World}

/-- A pin that is reported as current had its marker before the run, and has the tree that stood
there, apart from other pins inside it. -/
theorem sync_attends {report : SyncReport} {kept : PlacedPin}
    (setting : Setting root table options backends observer top placed w)
    (pooled : ∀ groups, Groups.Interleaves groups (options.schedule groups))
    (unsigned : ∀ visit ∈ journey root table options backends observer w,
      ∀ new ∈ visit.brought root top, Unsigned kept visit.pin.toPlacedPin new)
    (listed : kept ∈ placed)
    (reported : ((sync root table options backends observer).exec w).1 = .ok report)
    {row : EntryReport} (among : row ∈ report.entries) (id : row.id = kept.pin.id)
    (current : row.outcome = .alreadyCurrent) :
    Signed kept top w.disk ∧
      kept.Spared top placed (placed.filter (Plan.selects options.filter)) report.entries w.disk
        ((sync root table options backends observer).exec w).2.disk := by
  cases build : Plan.build w.disk root table backends options.filter options.adoptUnmanaged with
  | error fault =>
    obtain ⟨⟨fault, impossible⟩, -⟩ := (Setting.refused build).ends
    cases reported.symm.trans impossible
  | ok plan =>
    obtain ⟨rooted, selected, surveyed, orderly⟩ := setting.planned build
      (journey root table options backends observer w)
    have arranged := (PinTable.validate_ok setting.valid).1
    cases dry : options.dryRun with
    | true =>
      obtain ⟨-, plan', build', rfl⟩ := (exec_dry setting.passive dry).2 report reported
      obtain rfl : plan = plan' := Except.ok.inj (build.symm.trans build')
      obtain ⟨p, member, rfl⟩ := List.mem_map.mp (List.mem_mergeSort.mp among)
      obtain rfl : p.toPlacedPin = kept :=
        arranged.same_of_id (surveyed.listed p member) listed id
      have found := reconsider_of_build build p member
      have expected : p.action = .current := by
        cases action : p.action with
        | current => rfl
        | fetch => simp [entryReport, action, foreseen] at current
        | update old => simp [entryReport, action, foreseen] at current
      refine ⟨orderly.signed surveyed member (expected ▸ found), ?_⟩
      rw [(exec_dry setting.passive dry).1]
      exact .refl
    | false =>
      obtain ⟨perm, ordered⟩ := sequence_of_build build (pooled _)
      have free : ∀ p new, (Terrain.ofPlan top placed plan
          (journey root table options backends observer w)).stock p new →
            Unsigned kept p.toPlacedPin new := by
        rintro _ new ⟨visit, member, rfl, brought⟩
        rw [rooted] at brought
        exact unsigned visit member new brought
      have ensured := setting.sync build rfl trivial (fun _ _ => trivial)
        (fun e prepared _ => ⟨ordered, fun _ signed =>
          ⟨signed.congr (prepared.elsewhere _ (Layout.outside _ _)).symm, prepared.toFurnished.spared⟩,
          fun _ impossible => by cases impossible⟩)
        (Terrain.carries_attended w.disk arranged surveyed listed free)
      cases ensured.ends report reported dry with
      | intro lines _ holds furnished =>
        subst lines
        obtain ⟨-, signed, spared⟩ := holds.current row (List.mem_mergeSort.mp among) id current
        rw [← selected]
        exact ⟨signed, (spared.trans furnished.spared fun _ member => member).mono
          fun row => List.mem_mergeSort.mpr⟩

end PinnedTree.Sync
