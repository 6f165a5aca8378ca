import PinnedTree.Proofs.Sync.Run

namespace PinnedTree.Sync

open PinnedTree.Action Transaction

variable {root : Location} {table : PinTable} {options : SyncOptions} {backends : List Backend}
  {observer : Observer} {top : DiskPath} {placed : List PlacedPin} {w : World} {d e : Disk}

def interrupted (root : Location) (table : PinTable) (options : SyncOptions)
    (backends : List Backend) (observer : Observer) (w : World) (count : Nat) : Disk :=
  Step.applyAll w.disk ((((sync root table options backends observer).exec w).2.history.drop
    w.history.length).take count)

def Confined (top : DiskPath) (d e : Disk) : Prop := ∀ p, ¬ Disk.Inside top p → e.look p = d.look p

theorem Confined.trans {f : Disk} (first : Confined top d e) (second : Confined top e f) :
    Confined top d f := fun p outside => (second p outside).trans (first p outside)

theorem Confined.of_elsewhere
    (elsewhere : ∀ q, ¬ top ++ [stateDirectory] <+: q → e.look q = d.look q) : Confined top d e :=
  fun q outside => elsewhere q fun own => outside (Layout.inside_of_own own)

namespace Terrain

variable {t : Terrain} {p : PlannedPin} {adopt : Bool} {outcome : Outcome}

theorem confined_near (near : (t.site p).opened.Near d e) (ready : (t.site p).Ready d) :
    Confined t.top d e := by
  intro q outside
  rcases near.elsewhere q fun touched => outside (ready.opened.inside_top touched) with same | ⟨free, -, leads⟩
  · exact same
  · have under : q <+: t.top := by
      have both : ∀ names, q <+: t.top ++ names → q <+: t.top := by
        intro names leads
        rcases List.prefix_or_prefix_of_prefix leads (List.prefix_append t.top names) with short | long
        · exact short
        · exact not_not.mp fun other => outside ⟨long, fun same => other (same ▸ List.prefix_refl _)⟩
      exact leads.elim (both _) (both _)
    cases ready.rooted.isDir.symm.trans (ready.sound.none_under free under)

theorem Furnished.confined (furnished : t.Furnished d e) : Confined t.top d e :=
  .of_elsewhere furnished.elsewhere

def Reachable (t : Terrain) (e : Disk) : Prop :=
  ∀ q ∈ t.pins, ∀ r, r <+: q.destination.names → ∀ target, e.look (t.top ++ r) ≠ some (.link target)

theorem Orderly.reachable (orderly : t.Orderly d) (surveyed : t.Surveyed) : t.Reachable d := by
  intro q chosen r under
  by_cases whole : r = q.destination.names
  · exact whole ▸ orderly.plain q chosen
  · exact orderly.clear _ (surveyed.destination_mem chosen) r under whole

theorem carries_confined (surveyed : t.Surveyed) (unlinked : t.Unlinked) (d₀ : Disk) :
    t.Carries adopt (fun e => Confined t.top d₀ e ∧ t.Reachable e)
      fun _ _ d => Confined t.top d₀ d where
  furnished orderly holds furnished :=
    ⟨holds.trans furnished.confined, furnished.orderly.reachable surveyed⟩
  during member orderly holds handling := by
    have during := handling.1
    have ready := orderly.ready surveyed member
    refine ⟨holds.trans (confined_near during.near ready), fun q chosen r under => ?_⟩
    exact during.shows.no_link during.near ready
      (unlinked _ member _ (surveyed.destination_mem chosen)) under
      (orderly.reachable surveyed q chosen r under)
  handled member orderly _ holds handled :=
    holds.trans (confined_near (handled.near orderly.sound).opened (orderly.ready surveyed member))

end Terrain

/-- At every moment of a run, everything outside the root is as it was before. A selected pin is
never reached through a link: where one stands at its destination or on the way to it the run has
changed nothing and never will. -/
theorem sync_confined
    (setting : Setting root table options backends observer top placed w) (count : Nat) :
    Confined top w.disk (interrupted root table options backends observer w count) ∧
      ∀ q ∈ placed, Plan.selects options.filter q = true → ∀ r, r <+: q.destination.names →
        ∀ target, (interrupted root table options backends observer w count).look (top ++ r)
            = some (.link target) →
          ∀ n, interrupted root table options backends observer w n = w.disk := by
  have same : Confined top w.disk w.disk := fun _ _ => rfl
  cases build : Plan.build w.disk root table backends options.filter options.adoptUnmanaged with
  | error fault =>
    have refused : (sync root table options backends observer).Ensures (· = w.disk) _ w :=
      Setting.refused build
    have still : ∀ n, interrupted root table options backends observer w n = w.disk := refused.cut
    exact ⟨by rw [still]; exact same, fun _ _ _ _ _ _ _ => still⟩
  | ok plan =>
    obtain ⟨rooted, listed, surveyed, orderly⟩ := setting.planned build
      (journey root table options backends observer w)
    have supplied := setting.supplied
    rw [← rooted] at supplied
    have unlinked := supplied.unlinked
    rw [rooted] at unlinked
    obtain ⟨confined, reachable⟩ := (setting.sync build rfl ⟨same, orderly.reachable surveyed⟩
      (fun e prepared =>
        ⟨prepared.toFurnished.confined, prepared.orderly.reachable surveyed⟩)
      (fun e prepared _ => prepared.toFurnished.confined)
      (Terrain.carries_confined surveyed unlinked w.disk)).cut count
    refine ⟨confined, fun q member chosen r under target link => ?_⟩
    have planned : q ∈ plan.pins.map (·.toPlacedPin) :=
      listed ▸ List.mem_filter.mpr ⟨member, chosen⟩
    obtain ⟨p, taken, rfl⟩ := List.mem_map.mp planned
    exact absurd link (reachable p taken r under target)

def nestedMoment (count : Nat) : Disk :=
  interrupted (.ofText "root") nestedTable outerOnly fileBackends noObserver
    { disk := mirrorsDisk } count

theorem nestedMoment_between : (nestedMoment 12).look ["root", "a", "new"] ≠ none ∧
    (nestedMoment 12).look ["root", "a", ".depsync.json"] ≠ none ∧
      (nestedMoment 12).look ["root", "a", "p", "q"] = none := by
  decide +kernel

/-- A moment at which the new content is in place and the inner checkout still stands aside. -/
theorem nestedRun_confined :
    ((nestedMoment 12).look ["root", "a", "new"] ≠ none ∧
      (nestedMoment 12).look ["root", "a", "p", "q"] = none) ∧
    Confined ["root"] mirrorsDisk (nestedMoment 12) ∧
      ∀ q ∈ [outerPin, innerPin], Plan.selects outerOnly.filter q = true →
        ∀ r, r <+: q.destination.names → ∀ target,
          (nestedMoment 12).look (["root"] ++ r) = some (.link target) →
            ∀ n, nestedMoment n = mirrorsDisk :=
  ⟨⟨nestedMoment_between.1, nestedMoment_between.2.2⟩, sync_confined nested_setting 12⟩

end PinnedTree.Sync
