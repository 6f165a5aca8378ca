import PinnedTree.Proofs.Sync.Run

namespace PinnedTree

namespace PlacedPin

def Yielded (kept : PlacedPin) (placed : List PlacedPin) (rows : List EntryReport)
    (r : List String) : Prop :=
  ∃ inner ∈ placed, Disk.Inside kept.destination.names inner.destination.names ∧
    inner.destination.names <+: kept.destination.names ++ r ∧
    ∃ row ∈ rows, row.id = inner.pin.id ∧ row.outcome.isFailure = false

def Leads (kept : PlacedPin) (chosen : List PlacedPin) (r : List String) : Prop :=
  ∃ inner ∈ chosen, Disk.Inside kept.destination.names inner.destination.names ∧
    kept.destination.names ++ r <+: inner.destination.names

/-- The tree of a pin is as it was, apart from the pins in it that did not fail and directories
that lead to pins in it. -/
def Spared (kept : PlacedPin) (top : DiskPath) (placed chosen : List PlacedPin)
    (rows : List EntryReport) (d e : Disk) : Prop :=
  ∀ r, e.look (top ++ (kept.destination.names ++ r)) = d.look (top ++ (kept.destination.names ++ r)) ∨
    kept.Yielded placed rows r ∨
    (d.look (top ++ (kept.destination.names ++ r)) = none ∧
      e.look (top ++ (kept.destination.names ++ r)) = some .dir ∧ kept.Leads chosen r)

/-- Whether a path of a pin's tree is as it was, or belongs or leads to another pin in it that did not
fail. -/
def Unharmed (kept : PlacedPin) (top : DiskPath) (placed : List PlacedPin) (rows : List EntryReport)
    (d e : Disk) (r : List String) : Prop :=
  e.look (top ++ (kept.destination.names ++ r)) = d.look (top ++ (kept.destination.names ++ r)) ∨
    ∃ inner ∈ placed, Disk.Inside kept.destination.names inner.destination.names ∧
      (inner.destination.names <+: kept.destination.names ++ r ∨
        kept.destination.names ++ r <+: inner.destination.names) ∧
      ∃ row ∈ rows, row.id = inner.pin.id ∧ row.outcome.isFailure = false

instance (kept : PlacedPin) (top : DiskPath) (placed : List PlacedPin) (rows : List EntryReport)
    (d e : Disk) (r : List String) : Decidable (kept.Unharmed top placed rows d e r) :=
  inferInstanceAs (Decidable (_ ∨ ∃ inner ∈ placed, _ ∧ _ ∧ ∃ row ∈ rows, _))

variable {kept : PlacedPin} {top : DiskPath} {placed chosen : List PlacedPin}
  {rows more : List EntryReport} {d e f : Disk} {r : List String}

theorem Yielded.mono (yielded : kept.Yielded placed rows r) (subset : ∀ row ∈ rows, row ∈ more) :
    kept.Yielded placed more r := by
  obtain ⟨inner, listed, inside, under, row, member, holds⟩ := yielded
  exact ⟨inner, listed, inside, under, row, subset row member, holds⟩

theorem Spared.mono (spared : kept.Spared top placed chosen rows d e)
    (subset : ∀ row ∈ rows, row ∈ more) : kept.Spared top placed chosen more d e :=
  fun r => (spared r).imp_right (.imp_left (·.mono subset))

theorem not_yielded_nil : ¬ kept.Yielded placed rows [] := by
  rintro ⟨inner, -, inside, under, -⟩
  rw [List.append_nil] at under
  exact inside.not_under under

theorem Spared.refl : kept.Spared top placed chosen rows d d := fun _ => .inl rfl

theorem Spared.stands (spared : kept.Spared top placed chosen rows d e)
    (stood : d.look (top ++ kept.destination.names) ≠ none) :
    e.look (top ++ kept.destination.names) ≠ none := by
  have here := spared []
  rw [List.append_nil] at here
  rcases here with same | yielded | ⟨free, -⟩
  · rwa [same]
  · exact absurd yielded not_yielded_nil
  · exact absurd free stood

theorem Spared.trans (first : kept.Spared top placed chosen rows d e)
    (second : kept.Spared top placed chosen more e f) (subset : ∀ row ∈ rows, row ∈ more) :
    kept.Spared top placed chosen more d f := by
  intro r
  rcases second r with same | yielded | ⟨free, made, leads⟩
  · rw [same]
    exact (first r).imp_right (.imp_left (·.mono subset))
  · exact .inr (.inl yielded)
  · rcases first r with same | yielded | ⟨-, stands, -⟩
    · exact .inr (.inr ⟨same.symm.trans free, made, leads⟩)
    · exact .inr (.inl (yielded.mono subset))
    · cases stands.symm.trans free

end PlacedPin

namespace Sync

open PinnedTree.Action Transaction

variable {root : Location} {table : PinTable} {options : SyncOptions} {backends : List Backend}
  {observer : Observer} {top : DiskPath} {placed : List PlacedPin} {w : World}

/-- New content of a pin leaves the place free in which another one's tree stands, and there is a name
for that place while the content is exchanged. -/
def Unclaimed (kept : PlacedPin) (root : Location) (all : List Destination) (outer : PlacedPin)
    (new : DiskPath → Option Node) : Prop :=
  ∀ c ∈ outer.destination.nestedIn all, outer.destination.names ++ c <+: kept.destination.names →
    new c = none ∧ root.Callable ([stateDirectory, "backup", slotName outer.pin.id] ++ c)

namespace Terrain

variable {t : Terrain} {p : PlannedPin} {kept : PlacedPin} {adopt : Bool} {outcome : Outcome}
  {d e : Disk} {rows : List EntryReport}

theorem near_spared (near : (t.site p).Near d e) (ready : (t.site p).Ready d) (member : p ∈ t.pins)
    (within : ∀ r, p.destination.names <+: kept.destination.names ++ r →
      e.look (t.top ++ (kept.destination.names ++ r))
          = d.look (t.top ++ (kept.destination.names ++ r)) ∨ kept.Yielded t.placed rows r) :
    kept.Spared t.top t.placed t.chosen rows d e := by
  intro r
  by_cases under : p.destination.names <+: kept.destination.names ++ r
  · exact (within r under).imp_right .inl
  · have away : ¬ (t.site p).destination <+: t.top ++ (kept.destination.names ++ r) := fun leads =>
      under ((List.prefix_append_right_inj t.top).mp leads)
    rcases near.beside ready (Layout.outside kept.destination r) away with same | ⟨free, made, above, other⟩
    · exact .inl same
    · have leads : kept.destination.names ++ r <+: p.destination.names :=
        (List.prefix_append_right_inj t.top).mp above
      refine .inr (.inr ⟨free, made, p.toPlacedPin, List.mem_map_of_mem member, ⟨?_, ?_⟩, leads⟩)
      · exact (List.prefix_append _ r).trans leads
      · intro same
        have longer := leads.length_le
        rw [← same, List.length_append] at longer
        obtain rfl : r = [] := List.length_eq_zero_iff.mp (by omega)
        exact other (by simp [Site.destination, site, siteOf, same])

theorem Renewal.nested_settled {new : DiskPath → Option Node} {carried : List (List String)}
    (renewal : t.Renewal p d new carried e) (surveyed : t.Surveyed) (member : p ∈ t.pins)
    (listed : kept ∈ t.placed) (unclaimed : Unclaimed kept t.root t.all p.toPlacedPin new)
    {rest : List String} (outer : p.destination.names ++ rest = kept.destination.names)
    (filled : rest ≠ []) :
    ∃ c, c <+: rest ∧ (c ∈ carried ∨ d.look ((t.site p).destination ++ c) = none) := by
  have known : kept.destination ∈ t.all := List.mem_map_of_mem listed
  obtain ⟨c, nested, leads⟩ := Destination.nestedIn_covers known outer.symm filled
  obtain ⟨free, callable⟩ := unclaimed c nested
    (outer ▸ (List.prefix_append_right_inj _).mpr leads)
  have among : c ∈ p.nested := (surveyed.nested p member).symm ▸ nested
  rcases renewal.done.settled c among with carried | gone | taken | long
  · exact ⟨c, leads, .inl carried⟩
  · exact ⟨c, leads, .inr gone⟩
  · exact absurd free taken
  · exact absurd callable long

theorem Handled.spared_covered (handled : t.Handled adopt p d e outcome) (orderly : t.Orderly d)
    (surveyed : t.Surveyed) (member : p ∈ t.pins)
    (distinct : p.destination = kept.destination →
      outcome.isFailure = true ∨ outcome = .alreadyCurrent)
    (covered : ∀ {new carried}, t.Renewal p d new carried e → ∀ rest, rest ≠ [] →
      p.destination.names ++ rest = kept.destination.names → Covered carried rest) :
    kept.Spared t.top t.placed t.chosen [entryReport p outcome] d e := by
  have ready := orderly.ready surveyed member
  refine near_spared (handled.near orderly.sound) ready member fun r under => ?_
  obtain ⟨below, whole⟩ := under
  have place : t.top ++ (kept.destination.names ++ r) = (t.site p).destination ++ below := by
    simp [Site.destination, site, siteOf, ← whole]
  rw [place]
  cases handled with
  | current same => exact .inl (by rw [same])
  | failed quiet => exact .inl (quiet.old below)
  | renewed success renewal _ _ fresh =>
    by_cases inner : kept.destination.names <+: p.destination.names
    · have apart : p.destination.names ≠ kept.destination.names := fun same => by
        rcases distinct (Destination.eq_of_names same) with failed | current
        · rw [failed] at success
          cases success
        · exact fresh current
      exact .inr ⟨p.toPlacedPin, surveyed.listed p member, ⟨inner, apart⟩, ⟨below, whole⟩,
        entryReport p outcome, List.mem_singleton_self _, rfl, success⟩
    · obtain ⟨rest, outer⟩ : p.destination.names <+: kept.destination.names :=
        (List.prefix_or_prefix_of_prefix ⟨below, whole⟩ (List.prefix_append _ r)).resolve_right inner
      have filled : rest ≠ [] := fun none => inner (by simp [← outer, none])
      obtain ⟨c, carried, leads⟩ := covered renewal rest filled outer
      refine .inl (renewal.done.content.kept below ⟨c, carried, leads.trans ?_⟩)
      exact (List.prefix_append_right_inj p.destination.names).mp
        ⟨r, by rw [whole, ← outer, List.append_assoc]⟩

theorem Handled.spared (handled : t.Handled adopt p d e outcome) (orderly : t.Orderly d)
    (surveyed : t.Surveyed) (member : p ∈ t.pins) (listed : kept ∈ t.placed)
    (distinct : p.destination = kept.destination → outcome.isFailure = true)
    (unclaimed : ∀ new, t.stock p new → Unclaimed kept t.root t.all p.toPlacedPin new)
    (stands : d.look (t.top ++ kept.destination.names) ≠ none) :
    kept.Spared t.top t.placed t.chosen [entryReport p outcome] d e := by
  refine handled.spared_covered orderly surveyed member (fun same => .inl (distinct same)) ?_
  intro new carried renewal rest filled outer
  obtain ⟨c, leads, brought | gone⟩ := renewal.nested_settled surveyed member listed
    (unclaimed new renewal.stocked) outer filled
  · exact ⟨c, brought, leads⟩
  · obtain ⟨beyond, rfl⟩ := leads
    have none := orderly.sound.none_under gone (List.prefix_append _ beyond)
    exact absurd (by simpa [Site.destination, site, siteOf, ← outer] using none) stands

theorem Furnished.spared (furnished : t.Furnished d e) :
    kept.Spared t.top t.placed t.chosen rows d e :=
  fun r => .inl (furnished.elsewhere _ (Layout.outside kept.destination r))

def Isolates (t : Terrain) (kept : PlacedPin) (d₀ : Disk) (rows : List EntryReport) (d : Disk) :
    Prop :=
  (∀ row ∈ rows, row.id = kept.pin.id → row.outcome.isFailure = true) →
    kept.Spared t.top t.placed t.chosen rows d₀ d

theorem carries_isolates {backends : List Backend} {d₀ : Disk}
    (arranged : Arranged backends t.placed) (surveyed : t.Surveyed) (listed : kept ∈ t.placed)
    (unclaimed : ∀ p new, t.stock p new → Unclaimed kept t.root t.all p.toPlacedPin new)
    (stood : d₀.look (t.top ++ kept.destination.names) ≠ none) :
    t.Carries adopt (fun _ => True) fun _ rows d => t.Isolates kept d₀ rows d where
  furnished _ _ _ := trivial
  during _ _ _ _ := trivial
  handled := by
    intro p left rows d e outcome member orderly _ holds handled failures
    have before := holds fun row earlier => failures row (List.mem_append_left _ earlier)
    refine before.trans ?_ fun row earlier => List.mem_append_left _ earlier
    have last := handled.spared orderly surveyed member listed ?_
      (unclaimed p) (before.stands stood)
    · exact last.mono fun row only => List.mem_append_right _ only
    · intro same
      have alike := arranged.same_of_destination (surveyed.listed p member) listed same
      exact failures (entryReport p outcome) (by simp) (congrArg (·.pin.id) alike)

end Terrain

theorem nestedRun_unclaimed : ∀ visit ∈ journey (.ofText "root") nestedTable outerOnly fileBackends
    noObserver { disk := mirrorsDisk }, ∀ new ∈ visit.brought (.ofText "root") ["root"],
      Unclaimed innerPin (.ofText "root") ([outerPin, innerPin].map (·.destination))
        visit.pin.toPlacedPin new := by
  intro visit member new brought
  rw [outer_of_journey member]
  intro c nested _
  obtain rfl : c = ["p", "q"] := by
    have only : outerPin.destination.nestedIn ([outerPin, innerPin].map (·.destination))
        = [["p", "q"]] := by decide +kernel
    rw [List.map_cons, List.map_cons, List.map_nil] at nested only
    exact List.mem_singleton.mp (only ▸ nested)
  constructor
  · cases stands : new ["p", "q"] with
    | none => rfl
    | some node =>
      have among := ((nestedRun_brings visit member).mem brought stands).1
      simp [nestedPaths] at among
  · unfold Location.Callable
    decide +kernel

def pinAt (backend : Backend) (id : String) (destination : Destination) : PlacedPin :=
  ⟨⟨id, "fake:", "r1", destination.text⟩, destination, backend⟩

structure Scene where
  root : String := "root"
  options : SyncOptions
  backend : Backend
  placed : List PlacedPin
  kept : PlacedPin
  nodes : List (DiskPath × Node)
  distinct : (["root"] :: nodes.map (·.1)).Nodup

namespace Scene

def disk (scene : Scene) : Disk := ⟨[], (["root"], .dir) :: scene.nodes, scene.distinct⟩

def pinTable (scene : Scene) : PinTable := ⟨scene.placed.map (·.pin)⟩

/-- The run ends with a report, and changes the tree of a pin that failed or that it was not about
where no other pin lies that did not fail. -/
def Harms (scene : Scene) : Prop :=
  scene.pinTable.validate [scene.backend] = .ok scene.placed ∧ scene.kept ∈ scene.placed ∧
    scene.disk.look (["root"] ++ scene.kept.destination.names) ≠ none ∧
    scene.options.dryRun = false ∧
    ∃ report w, (sync (.ofText scene.root) scene.pinTable scene.options [scene.backend]
        noObserver).exec { disk := scene.disk } = (.ok report, w) ∧
      (∀ row ∈ report.entries, row.id = scene.kept.pin.id → row.outcome.isFailure = true) ∧
      ∃ r, ¬ scene.kept.Unharmed ["root"] scene.placed report.entries scene.disk w.disk r

theorem harms_of_replay {scene : Scene} (rows : List EntryReport) (r : List String)
    (valid : scene.pinTable.validate [scene.backend] = .ok scene.placed)
    (listed : scene.kept ∈ scene.placed)
    (settled : scene.disk.look (["root"] ++ scene.kept.destination.names) ≠ none ∧
      scene.options.dryRun = false ∧ scene.options.parallelism ≠ 0 ∧
      (rows.Pairwise fun a b => a.id < b.id) ∧
      ∀ row ∈ rows, row.id = scene.kept.pin.id → row.outcome.isFailure = true)
    (replayed : (replay (.ofText scene.root) scene.pinTable scene.options [scene.backend] noObserver rows
      { disk := scene.disk }).any (fun replayed => replayed.1.map Visit.row = rows ∧
        ¬ scene.kept.Unharmed ["root"] scene.placed rows scene.disk replayed.2.disk r) = true) :
    scene.Harms := by
  obtain ⟨stood, real, busy, ordered, failures⟩ := settled
  obtain ⟨w, ran, harmed⟩ := exec_sync (P := fun _ w =>
    ¬ scene.kept.Unharmed ["root"] scene.placed rows scene.disk w.disk r) busy real replayed
      (.refl rows) ordered
  exact ⟨valid, listed, stood, real, ⟨false, rows⟩, w, ran, failures, r, harmed⟩

end Scene

section

variable (backend : Backend)

def wholePin : PlacedPin := pinAt backend "whole" outerDestination

def partPin : PlacedPin := pinAt backend "part" ⟨["a", "p"], by decide, by decide, by decide⟩

def withinPin : PlacedPin := pinAt backend "within" ⟨["a", "b", "c"], by decide, by decide, by decide⟩

def apartPin : PlacedPin := pinAt backend "apart" ⟨["y", "c"], by decide, by decide, by decide⟩

end

def fetchedRow (id path : String) : EntryReport := ⟨id, path, "r1", "single", .fetchedNew⟩

def claimedPlace : Scene where
  options := { filter := some ⟨["whole"]⟩ }
  backend := .single "p" "in the way"
  placed := [wholePin (.single "p" "in the way"), partPin (.single "p" "in the way")]
  kept := partPin (.single "p" "in the way")
  nodes := [(["root", "a"], .dir), (["root", "a", "p"], .dir)]
  distinct := by decide

theorem claimedPlace_harms : claimedPlace.Harms :=
  Scene.harms_of_replay [fetchedRow "whole" "a"] [] rfl (by simp [claimedPlace]) (by decide)
    (by decide +kernel)

def meddling : Backend where
  name := "single"
  handles _ := true
  fetch _ := Action.reporting .io (Files.writeText (.ofText "root/a/more") "")

def meddled : Scene where
  options := { filter := some ⟨["apart"]⟩ }
  backend := meddling
  placed := [wholePin meddling, apartPin meddling]
  kept := wholePin meddling
  nodes := [(["root", "a"], .dir)]
  distinct := by decide +kernel

theorem meddled_harms : meddled.Harms :=
  Scene.harms_of_replay [fetchedRow "apart" "y/c"] ["more"] rfl (by simp [meddled]) (by decide)
    (by decide +kernel)

/-- An earlier run was cut off when the old content of a nested pin had just moved aside. -/
def cutShort : Scene where
  options := { filter := some ⟨[]⟩ }
  backend := .single "new" "content"
  placed := [wholePin (.single "new" "content"), partPin (.single "new" "content")]
  kept := wholePin (.single "new" "content")
  nodes := [(["root", "a"], .dir), (["root", ".depsync"], .dir),
    (["root", ".depsync", "backup"], .dir), (["root", ".depsync", "backup", "part"], .dir),
    (["root", ".depsync", "backup", "part.json"],
      .file (journalText "part" ⟨"root", ["a", "p"]⟩).toUTF8 0o644)]
  distinct := by decide +kernel

theorem cutShort_harms : cutShort.Harms :=
  Scene.harms_of_replay [] ["p"] rfl (by simp [cutShort]) (by decide) (by decide +kernel)

/-- A link on the way to a nested destination leads to another checkout when it has moved aside. -/
def linkedWay : Scene where
  options := { filter := some ⟨["whole"]⟩, adoptUnmanaged := true }
  backend := .single "new" "content"
  placed := [wholePin (.single "new" "content"), withinPin (.single "new" "content"),
    apartPin (.single "new" "content")]
  kept := apartPin (.single "new" "content")
  nodes := [(["root", "a"], .dir), (["root", "a", "b"], .link "../../../y"), (["root", "y"], .dir),
    (["root", "y", "c"], .dir)]
  distinct := by decide +kernel

theorem linkedWay_harms : linkedWay.Harms :=
  Scene.harms_of_replay [⟨"whole", "a", "r1", "single", .updated none⟩] [] rfl (by simp [linkedWay])
    (by decide) (by decide +kernel)

def linking : Backend where
  name := "single"
  handles _ := true
  fetch request :=
    Action.reporting .io (Action.changeOnce (·.makeLink "../y" (request.staging / "b")))

def linkedContent : Scene where
  options := { filter := some ⟨["whole", "within"]⟩ }
  backend := linking
  placed := [wholePin linking, withinPin linking, apartPin linking]
  kept := apartPin linking
  nodes := [(["root", "y"], .dir), (["root", "y", "c"], .dir)]
  distinct := by decide +kernel

theorem linkedContent_harms : linkedContent.Harms :=
  Scene.harms_of_replay [fetchedRow "whole" "a", fetchedRow "within" "a/b/c"] [markerFile] rfl
    (by simp [linkedContent]) (by decide) (by decide +kernel)

/-- The root is written with a way through the destination. -/
def windingRoot : Scene where
  root := "root/a/.."
  options := { adoptUnmanaged := true }
  backend := .single "new" "content"
  placed := [wholePin (.single "new" "content")]
  kept := wholePin (.single "new" "content")
  nodes := [(["root", "a"], .dir), (["root", "a", "f"], .file .empty 0o644)]
  distinct := by decide +kernel

theorem windingRoot_harms : windingRoot.Harms :=
  Scene.harms_of_replay [⟨"whole", "a", "r1", "single",
    .failed (.fetch "io: No such file or directory (os error 2)")⟩] ["f"] rfl
    (by simp [windingRoot]) (by decide) (by decide +kernel)

def linkedPlace (name target : String) (distinct : (["root"] :: [["root", "a"], ["root", "a", "f"],
    ["root", ".depsync"], ["root", ".depsync", name]]).Nodup) : Scene where
  options := { filter := some ⟨[]⟩ }
  backend := .single "new" "content"
  placed := [wholePin (.single "new" "content")]
  kept := wholePin (.single "new" "content")
  nodes := [(["root", "a"], .dir), (["root", "a", "f"], .file .empty 0o644),
    (["root", ".depsync"], .dir), (["root", ".depsync", name], .link target)]
  distinct := distinct

end Sync

end PinnedTree
