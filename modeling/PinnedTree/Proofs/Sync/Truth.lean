import PinnedTree.Proofs.Sync.Confinement
import PinnedTree.Proofs.Transaction.Interruption

namespace PinnedTree.Sync

open PinnedTree.Action Transaction

/-- The trees that were ever put together, with their markers, and the id and the revision that they
were for. -/
abbrev History := String → String → (DiskPath → Option Node) → Prop

def Proper (q : PlacedPin) (all : List Destination) (r : List String) : Prop :=
  ∀ c ∈ q.destination.nestedIn all, ¬ c <+: r

/-- What stands at a destination, apart from the marker and the nested destinations, is a tree and
the directories that lead to nested destinations. -/
def Whole (q : PlacedPin) (all : List Destination) (top : DiskPath)
    (tree : DiskPath → Option Node) (d : Disk) : Prop :=
  ∀ r, r ≠ [markerFile] → Proper q all r →
    d.look (top ++ q.destination.names ++ r) = tree r ∨
      (tree r = none ∧ d.look (top ++ q.destination.names ++ r) = some .dir ∧
        ∃ c ∈ q.destination.nestedIn all, r <+: c ∧ r ≠ c)

def Sincere (history : History) (q : PlacedPin) (all : List Destination) (top : DiskPath)
    (d : Disk) : Prop :=
  ∀ revision, d.Vouches (top ++ q.destination.names) q.pin.id revision →
    ∃ tree, history q.pin.id revision tree ∧ Whole q all top tree d

def Truthful (history : History) (top : DiskPath) (placed : List PlacedPin) (d : Disk) : Prop :=
  ∀ q ∈ placed, Sincere history q (placed.map (·.destination)) top d

/-- What is put together in a run is part of the history, and has no marker file in it but its own. -/
def Honest (history : History) (root : Location) (top : DiskPath) (visits : List Visit) : Prop :=
  ∀ visit ∈ visits, ∀ new ∈ visit.brought root top,
    history visit.pin.pin.id visit.pin.pin.revision new ∧
      ∀ r, r ≠ [] → ∀ c m, new (r ++ [markerFile]) ≠ some (.file c m)

variable {history : History} {top : DiskPath} {d e f : Disk} {q : PlacedPin} {all : List Destination}
  {w : World}

theorem Sincere.congr (sincere : Sincere history q all top d)
    (same : SameTree (top ++ q.destination.names) d e) : Sincere history q all top e := by
  intro revision vouches
  obtain ⟨tree, known, whole⟩ := sincere revision (vouches.congr (same _).symm)
  exact ⟨tree, known, fun r other proper => by rw [same]; exact whole r other proper⟩

namespace Terrain

variable {t : Terrain} {p : PlannedPin} {adopt : Bool} {outcome : Outcome} {rest : List String}

def Honest (t : Terrain) (history : History) : Prop :=
  ∀ p new, t.stock p new → history p.pin.id p.pin.revision new ∧
    ∀ r, r ≠ [] → ∀ c m, new (r ++ [markerFile]) ≠ some (.file c m)

/-- A pin keeps what its own marker says true: it has its old tree with the old marker, the new
tree with the new one, or nothing. -/
theorem Shows.sincere_self (shows : t.Shows p d e) (surveyed : t.Surveyed) (member : p ∈ t.pins)
    (honest : t.Honest history) (sincere : Sincere history p.toPlacedPin t.all t.top d) :
    Sincere history p.toPlacedPin t.all t.top e := by
  have nested : p.nested = p.destination.nestedIn t.all := surveyed.nested p member
  cases shows with
  | old same => exact sincere.congr same
  | gone none =>
    intro revision vouches
    obtain ⟨c, m, file⟩ := vouches.file
    cases (none [markerFile]).symm.trans file
  | new marked stocked each content =>
    rename_i new carried
    intro revision vouches
    obtain ⟨clock, file⟩ := marker_new surveyed member marked each content
    obtain ⟨-, rfl⟩ := (Disk.vouches_iff file).mp vouches
    refine ⟨new, (honest p new stocked).1, fun r _ proper => ?_⟩
    have away : ¬ Covered carried r := by
      rintro ⟨c, taken, under⟩
      exact proper c (nested ▸ (each c taken).listed) under
    refine (content.fresh r away).imp_right ?_
    rintro ⟨absent, made, c, listed, under, short, -⟩
    exact ⟨absent, made, c, nested ▸ listed, under, short⟩

theorem Shows.sincere_inner (shows : t.Shows p d e) (surveyed : t.Surveyed) (member : p ∈ t.pins)
    (honest : t.Honest history) (listed : q.destination ∈ t.all)
    (inner : q.destination.names = p.destination.names ++ rest) (filled : rest ≠ [])
    (sincere : Sincere history q t.all t.top d) : Sincere history q t.all t.top e := by
  have nested : p.nested = p.destination.nestedIn t.all := surveyed.nested p member
  have place : ∀ r, t.top ++ q.destination.names ++ r = (t.site p).destination ++ (rest ++ r) := by
    simp [Site.destination, site, siteOf, inner]
  cases shows with
  | old same => exact sincere.congr fun r => by rw [place, same]
  | gone none =>
    intro revision vouches
    obtain ⟨c, m, file⟩ := vouches.file
    rw [place, none] at file
    cases file
  | new marked stocked each content =>
    rename_i new carried
    by_cases covered : Covered carried rest
    · obtain ⟨c, taken, under⟩ := covered
      refine sincere.congr fun r => ?_
      rw [place, content.kept _ ⟨c, taken, under.trans (List.prefix_append _ _)⟩]
    · intro revision vouches
      obtain ⟨content', m, file⟩ := vouches.file
      have free : ¬ Covered carried (rest ++ [markerFile]) := by
        rintro ⟨c, taken, under⟩
        have among : c ∈ p.destination.nestedIn t.all := nested ▸ (each c taken).listed
        rcases List.prefix_concat_iff.mp under with whole | short
        · obtain ⟨above, topmost, leads⟩ := Destination.nestedIn_covers listed inner filled
          have other : above ≠ c := by
            rintro rfl
            have longer := leads.length_le
            rw [whole, List.length_append, List.length_singleton] at longer
            omega
          exact (Destination.nestedIn_ne topmost among other).1
            (whole ▸ leads.trans (List.prefix_append _ _))
        · exact covered ⟨c, taken, short⟩
      rw [place] at file
      rcases content.fresh _ free with fresh | ⟨-, made, -⟩
      · exact absurd (fresh.symm.trans file) ((honest p new stocked).2 rest filled content' m)
      · cases made.symm.trans file

/-- Beside the destination that is handled a marker stays what it is, and so does the tree around
it, but for directories that lead to that destination. -/
theorem Shows.sincere_beside (shows : t.Shows p d e) (near : (t.site p).opened.Near d e)
    (ready : (t.site p).Ready d) (surveyed : t.Surveyed) (member : p ∈ t.pins)
    (away : ¬ p.destination.names <+: q.destination.names)
    (sincere : Sincere history q t.all t.top d) : Sincere history q t.all t.top e := by
  have beside : ∀ r, ¬ p.destination.names <+: q.destination.names ++ r →
      e.look (t.top ++ q.destination.names ++ r) = d.look (t.top ++ q.destination.names ++ r) ∨
        (d.look (t.top ++ q.destination.names ++ r) = none ∧
          e.look (t.top ++ q.destination.names ++ r) = some .dir ∧
          q.destination.names ++ r <+: p.destination.names) := by
    intro r apart
    rw [List.append_assoc]
    rcases near.beside ready.opened (Layout.outside q.destination r)
      (fun leads => apart ((List.prefix_append_right_inj t.top).mp leads)) with same | ⟨free, made, leads, -⟩
    · exact .inl same
    · exact .inr ⟨free, made, (List.prefix_append_right_inj t.top).mp leads⟩
  -- a destination inside this one has a nested place above it
  have inner : ∀ r, p.destination.names <+: q.destination.names ++ r → ∃ rest,
      p.destination.names = q.destination.names ++ rest ∧ rest ≠ [] ∧ rest <+: r ∧
        ∃ c ∈ q.destination.nestedIn t.all, c <+: rest := by
    intro r under
    obtain ⟨rest, whole⟩ := (List.prefix_or_prefix_of_prefix under
      (List.prefix_append q.destination.names r)).resolve_left away
    have filled : rest ≠ [] := by
      rintro rfl
      exact away (by simp [← whole])
    refine ⟨rest, whole.symm, filled, ?_, ?_⟩
    · exact (List.prefix_append_right_inj q.destination.names).mp (whole ▸ under)
    · exact Destination.nestedIn_covers (surveyed.destination_mem member) whole.symm filled
  intro revision vouches
  have before : d.Vouches (t.top ++ q.destination.names) q.pin.id revision := by
    obtain ⟨c, m, file⟩ := vouches.file
    by_cases under : p.destination.names <+: q.destination.names ++ [markerFile]
    · obtain ⟨rest, whole, filled, short, -⟩ := inner _ under
      have last : rest = [markerFile] :=
        short.eq_of_length_le (List.length_pos_of_ne_nil filled)
      have place : t.top ++ q.destination.names ++ [markerFile] = (t.site p).destination ++ [] := by
        simp [Site.destination, site, siteOf, whole, last]
      refine vouches.congr ?_
      rw [place] at file ⊢
      cases shows with
      | old same => exact (same []).symm
      | gone none => cases (none []).symm.trans file
      | new marked stocked each content =>
        have isDir := content.isDir ready each marked.isDir
        rw [List.append_nil] at file
        cases isDir.symm.trans file
    · rcases beside _ under with same | ⟨-, made, -⟩
      · exact vouches.congr same.symm
      · cases made.symm.trans file
  obtain ⟨tree, known, whole⟩ := sincere revision before
  refine ⟨tree, known, fun r other proper => ?_⟩
  have apart : ¬ p.destination.names <+: q.destination.names ++ r := fun under => by
    obtain ⟨rest, -, -, short, c, among, leads⟩ := inner r under
    exact proper c among (leads.trans short)
  rcases beside r apart with same | ⟨free, made, leads⟩
  · rw [same]
    exact whole r other proper
  · have absent : tree r = none := by
      rcases whole r other proper with same | ⟨absent, -⟩
      · exact same.symm.trans free
      · exact absent
    refine .inr ⟨absent, made, ?_⟩
    obtain ⟨more, place⟩ := leads
    rw [List.append_assoc] at place
    have filled : r ++ more ≠ [] := fun none => away (by simp [← place, none])
    obtain ⟨c, among, above⟩ :=
      Destination.nestedIn_covers (surveyed.destination_mem member) place.symm filled
    rcases List.prefix_or_prefix_of_prefix above (List.prefix_append r more) with short | long
    · exact absurd short (proper c among)
    · exact ⟨c, among, long, fun same => proper c among (same ▸ List.prefix_refl _)⟩

theorem Shows.truthful {backends : List Backend} (shows : t.Shows p d e)
    (near : (t.site p).opened.Near d e) (orderly : t.Orderly d) (arranged : Arranged backends t.placed)
    (surveyed : t.Surveyed) (member : p ∈ t.pins) (honest : t.Honest history)
    (truthful : Truthful history t.top t.placed d) : Truthful history t.top t.placed e := by
  intro q placed
  have sincere := truthful q placed
  by_cases under : p.destination.names <+: q.destination.names
  · obtain ⟨rest, inner⟩ := under
    by_cases filled : rest = []
    · rw [filled, List.append_nil] at inner
      obtain rfl := arranged.same_of_destination (surveyed.listed p member) placed
        (Destination.eq_of_names inner)
      exact shows.sincere_self surveyed member honest sincere
    · exact shows.sincere_inner surveyed member honest (List.mem_map_of_mem placed) inner.symm
        filled sincere
  · exact shows.sincere_beside near (orderly.ready surveyed member) surveyed member under sincere

theorem Furnished.truthful (furnished : t.Furnished d e)
    (truthful : Truthful history t.top t.placed d) : Truthful history t.top t.placed e :=
  fun q placed => (truthful q placed).congr fun r => by
    rw [List.append_assoc]
    exact furnished.elsewhere _ (Layout.outside q.destination r)

theorem Shows.congr (shows : t.Shows p d e) (same : SameTree (t.site p).destination e f) :
    t.Shows p d f := by
  cases shows with
  | old old => exact .old fun r => (same r).trans (old r)
  | gone none => exact .gone fun r => (same r).trans (none r)
  | new marked stocked each content => exact .new marked stocked each (content.congr same)

/-- Clearing up after a run that was cut off while a pin was handled leaves the old tree or the new
one, and all else as it was then. -/
theorem During.recover {path : String} (during : t.During p d w.disk) (orderly : t.Orderly d)
    (surveyed : t.Surveyed) (member : p ∈ t.pins) (written : t.root = .ofText path) :
    (Recovery.recover t.root).Ensures (fun _ => True)
      (fun _ f => (t.site p).opened.Near d f ∧ t.Shows p d f) w := by
  have ready := (orderly.ready surveyed member).opened
  have idle : (t.site p).opened.Idle d := { orderly.idle p with }
  have hosts : (t.site p).opened.Hosts (jobOf t.root p) := { t.site_hosts p with }
  have dotless : '.' ∉ (t.site p).opened.slot.toList :=
    notMem_slotName _ (by decide) (by decide) (by decide)
  have settled : (t.site p).opened.Settled d (Site.noteOf (jobOf t.root p)) w.disk →
      (Recovery.recover t.root).Ensures (fun _ => True)
        (fun _ f => (t.site p).opened.Near d f ∧ t.Shows p d f) w := fun settled =>
    (settled.recover ready idle hosts written dotless).mono fun r f keeps =>
      ⟨keeps.toNear, during.shows.congr keeps.same⟩
  rcases during with quiet | ⟨new, marked, stocked, quiet | aside | ⟨_, placed⟩ | ⟨_, done⟩⟩
  · exact settled (quiet.isSettled idle)
  · exact settled (quiet.isSettled idle)
  · exact (aside.recover ready idle hosts written dotless (orderly.plain p member)).mono
      fun r f keeps => ⟨keeps.toNear, .old keeps.same⟩
  · exact settled (placed.isSettled ready idle marked.isDir)
  · exact settled (done.isSettled ready idle marked.isDir)

def Trusty (history : History) (t : Terrain) (e : Disk) : Prop :=
  Truthful history t.top t.placed e ∧ ∀ restarted : World, restarted.disk = e →
    Truthful history t.top t.placed ((Recovery.recover t.root).exec restarted).2.disk

theorem Orderly.trusty (orderly : t.Orderly d) (truthful : Truthful history t.top t.placed d) :
    t.Trusty history d := by
  refine ⟨truthful, ?_⟩
  rintro restarted rfl
  obtain ⟨n, still⟩ := orderly.recover
  rw [still]
  exact truthful

theorem carries_trusty {backends : List Backend} {path : String} (written : t.root = .ofText path)
    (arranged : Arranged backends t.placed) (surveyed : t.Surveyed)
    (honest : t.Honest history) :
    t.Carries adopt (t.Trusty history) fun _ _ d => Truthful history t.top t.placed d where
  furnished _ truthful furnished := furnished.orderly.trusty (furnished.truthful truthful)
  during member orderly truthful handling := by
    have during := handling.1
    refine ⟨during.shows.truthful during.near orderly arranged surveyed member honest truthful, ?_⟩
    rintro restarted rfl
    obtain ⟨near, shows⟩ := (during.recover orderly surveyed member written).ends
    exact shows.truthful near orderly arranged surveyed member honest truthful
  handled member orderly _ truthful handled :=
    handled.shows.truthful (handled.near orderly.sound).opened orderly arranged surveyed member honest
      truthful

end Terrain

variable {path : String} {table : PinTable} {options : SyncOptions} {backends : List Backend}
  {observer : Observer} {placed : List PlacedPin}

/-- At every moment of a run the markers tell the truth if they did so before it, and also if the run
is cut off then and the next one clears up. -/
theorem sync_truthful
    (setting : Setting (.ofText path) table options backends observer top placed w)
    (honest : Honest history (.ofText path) top
      (journey (.ofText path) table options backends observer w))
    (truthful : Truthful history top placed w.disk) (count : Nat) :
    Truthful history top placed
        (interrupted (.ofText path) table options backends observer w count) ∧
      ∀ restarted : World, restarted.disk
          = interrupted (.ofText path) table options backends observer w count →
        Truthful history top placed
          ((Recovery.recover (.ofText path)).exec restarted).2.disk := by
  cases build : Plan.build w.disk (.ofText path) table backends options.filter
      options.adoptUnmanaged with
  | error fault =>
    have refused : (sync (.ofText path) table options backends observer).Ensures (· = w.disk) _ w :=
      Setting.refused build
    have still : interrupted (.ofText path) table options backends observer w count = w.disk :=
      refused.cut count
    have orderly : (⟨.ofText path, top, placed, [], fun _ _ => False⟩ : Terrain).Orderly w.disk :=
      ⟨setting.grounds, by simp⟩
    rw [still]
    exact orderly.trusty truthful
  | ok plan =>
    obtain ⟨rooted, -, surveyed, orderly⟩ := setting.planned build
      (journey (.ofText path) table options backends observer w)
    have told : (Terrain.ofPlan top placed plan
        (journey (.ofText path) table options backends observer w)).Honest history := by
      rintro _ new ⟨visit, member, rfl, brought⟩
      rw [rooted] at brought
      exact honest visit member new brought
    have arranged := (PinTable.validate_ok setting.valid).1
    have trusty := (setting.sync build rfl (orderly.trusty truthful)
      (fun e prepared => prepared.orderly.trusty (prepared.toFurnished.truthful truthful))
      (fun e prepared _ => prepared.toFurnished.truthful truthful)
      (Terrain.carries_trusty rooted arranged surveyed told)).cut count
    exact ⟨trusty.1, rooted ▸ trusty.2⟩

def nestedHistory : History := fun id revision tree =>
  ∃ visit ∈ journey (.ofText "root") nestedTable outerOnly fileBackends noObserver
      { disk := mirrorsDisk }, visit.pin.pin.id = id ∧ visit.pin.pin.revision = revision ∧
    tree ∈ visit.brought (.ofText "root") ["root"]

theorem nestedRun_honest : Honest nestedHistory (.ofText "root") ["root"]
    (journey (.ofText "root") nestedTable outerOnly fileBackends noObserver
      { disk := mirrorsDisk }) := by
  intro visit member new brought
  refine ⟨⟨visit, member, rfl, rfl, brought⟩, fun r filled c m file => ?_⟩
  -- the one marker that is put together is that of the content itself
  have among := ((nestedRun_brings visit member).mem brought file).1
  obtain ⟨name, rest, rfl⟩ := List.exists_cons_of_ne_nil filled
  simp [nestedPaths] at among

theorem mirrorsDisk_truthful : Truthful nestedHistory ["root"] [outerPin, innerPin] mirrorsDisk := by
  intro q placed revision vouches
  obtain ⟨c, m, file⟩ := vouches.file
  have unmarked : ∀ q ∈ [outerPin, innerPin],
      mirrorsDisk.look (["root"] ++ q.destination.names ++ [markerFile]) = none := by decide
  cases (unmarked q placed).symm.trans file

/-- The markers tell the truth when the new content has just come into place. -/
theorem nestedRun_truthful :
    ((nestedMoment 12).look ["root", "a", ".depsync.json"] ≠ none ∧
      (nestedMoment 12).look ["root", "a", "p", "q"] = none) ∧
    Truthful nestedHistory ["root"] [outerPin, innerPin] (nestedMoment 12) ∧
      ∀ restarted : World, restarted.disk = nestedMoment 12 →
        Truthful nestedHistory ["root"] [outerPin, innerPin]
          ((Recovery.recover (.ofText "root")).exec restarted).2.disk :=
  ⟨nestedMoment_between.2, sync_truthful nested_setting nestedRun_honest mirrorsDisk_truthful 12⟩

end PinnedTree.Sync
