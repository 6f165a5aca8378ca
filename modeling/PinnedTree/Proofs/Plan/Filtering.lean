import PinnedTree.Proofs.Plan.Build
import PinnedTree.Proofs.Plan.Components

namespace PinnedTree.Plan

variable {d : Disk} {root : Location} {table : PinTable} {backends : List Backend} {adopt : Bool}
  {filter : IdFilter} {full plan : Plan} {placed : List PlacedPin}

theorem checkFilter_of_known (known : ∀ id ∈ filter.ids, table.contains id = true) :
    checkFilter table filter = .ok () := by
  have none : filter.ids.find? (fun id => !table.contains id) = none :=
    List.find?_eq_none.mpr fun id member => by simp [known id member]
  rw [checkFilter, none]

def restrict (plan : Plan) (filter : IdFilter) : Plan :=
  ⟨plan.root, plan.pins.filter fun p => filter.matches? p.pin.id⟩

theorem build_restrict (known : ∀ id ∈ filter.ids, table.contains id = true)
    (made : build d root table backends none adopt = .ok full) :
    build d root table backends (some filter) adopt = .ok (full.restrict filter) := by
  obtain ⟨placed, valid, rooted, each⟩ := build_ok made
  have whole : placed.filter (selects none) = placed := by simp [selects]
  rw [whole] at each
  have kept : List.Forall₂ (fun p planned =>
      ofPlaced d root (placed.map (·.destination)) adopt p = .ok planned)
      (placed.filter (selects (some filter))) (full.restrict filter).pins := by
    refine List.rel_filter (fun p planned made => ?_) each
    rw [(ofPlaced_ok made).1.symm]
    rfl
  simp only [build, valid, checkFilter_of_known known, mapM_of_forall₂ kept, bind, Except.bind, pure,
    Except.pure, restrict, rooted]

def Together (plan : Plan) (p q : PlannedPin) : Prop :=
  ∃ group ∈ plan.groups, ∃ i ∈ group, ∃ j ∈ group,
    plan.pins[i]? = some p ∧ plan.pins[j]? = some q

theorem together_iff {p q : PlannedPin} (distinct : (plan.pins.map (·.destination)).Nodup) :
    plan.Together p q ↔ p ∈ plan.pins ∧ q ∈ plan.pins ∧ ∃ outer ∈ plan.pins,
      outer.destination.names <+: p.destination.names ∧
      outer.destination.names <+: q.destination.names := by
  constructor
  · rintro ⟨group, member, i, inI, j, inJ, foundP, foundQ⟩
    exact ⟨List.mem_of_getElem? foundP, List.mem_of_getElem? foundQ,
      (grouped_iff_share distinct foundP foundQ).mp ⟨group, member, inI, inJ⟩⟩
  · rintro ⟨memberP, memberQ, share⟩
    obtain ⟨i, foundP⟩ := List.mem_iff_getElem?.mp memberP
    obtain ⟨j, foundQ⟩ := List.mem_iff_getElem?.mp memberQ
    obtain ⟨group, member, inI, inJ⟩ := (grouped_iff_share distinct foundP foundQ).mpr share
    exact ⟨group, member, i, inI, j, inJ, foundP, foundQ⟩

theorem Together.of_restrict {p q : PlannedPin} (together : (full.restrict filter).Together p q)
    (distinct : ((full.restrict filter).pins.map (·.destination)).Nodup)
    (distinct' : (full.pins.map (·.destination)).Nodup) : full.Together p q := by
  obtain ⟨memberP, memberQ, outer, member, holds⟩ := (together_iff distinct).mp together
  exact (together_iff distinct').mpr ⟨(List.mem_filter.mp memberP).1, (List.mem_filter.mp memberQ).1,
    outer, (List.mem_filter.mp member).1, holds⟩

/-- A plan with a filter has just the selected pins of the plan without one, as they are there, and no
groups that go beyond those. If it cannot be made, the one without a filter cannot either. -/
theorem build_filtered (d : Disk) (root : Location) (backends : List Backend) (adopt : Bool)
    (known : ∀ id ∈ filter.ids, table.contains id = true) :
    (∀ full, build d root table backends none adopt = .ok full →
      ∃ plan, build d root table backends (some filter) adopt = .ok plan ∧
        plan.root = full.root ∧
        plan.pins = full.pins.filter (fun p => filter.matches? p.pin.id) ∧
        ∀ p q, plan.Together p q → full.Together p q) ∧
    ∀ e, build d root table backends (some filter) adopt = .error e →
      ∃ e', build d root table backends none adopt = .error e' := by
  constructor
  · intro full made
    have restricted := build_restrict known made
    exact ⟨_, restricted, rfl, rfl, fun p q together =>
      together.of_restrict (distinct_of_build restricted) (distinct_of_build made)⟩
  · intro e failed
    cases made : build d root table backends none adopt with
    | error e' => exact ⟨e', rfl⟩
    | ok full => cases failed.symm.trans (build_restrict known made)

def layeredTable : PinTable := ⟨[⟨"inner", "fake:", "r1", "lib/x"⟩, ⟨"outer", "fake:", "r1", "lib"⟩,
  ⟨"other", "fake:", "r1", "bin"⟩]⟩

def layeredDisk : Disk := ⟨[], [(["root"], .dir), (["root", "lib"], .dir)], by decide⟩

/-- The outer pin keeps its nested place, though the inner pin was not selected. -/
theorem layeredTable_filtered : ∃ full plan,
    build layeredDisk (.ofText "root") layeredTable [.single "p" "text"] none false = .ok full ∧
    build layeredDisk (.ofText "root") layeredTable [.single "p" "text"]
      (some ⟨["other", "outer"]⟩) false = .ok plan ∧
    plan.pins = full.pins.filter (fun p => IdFilter.matches? ⟨["other", "outer"]⟩ p.pin.id) ∧
    plan.pins.map (fun p => (p.pin.id, p.nested)) = [("outer", [["x"]]), ("other", [])] ∧
    ∀ p q, plan.Together p q → full.Together p q := by
  have accepted : (build layeredDisk (.ofText "root") layeredTable [.single "p" "text"] none
      false).isOk = true := by decide +kernel
  have seen : (build layeredDisk (.ofText "root") layeredTable [.single "p" "text"]
      (some ⟨["other", "outer"]⟩) false).map (fun plan => plan.pins.map fun p => (p.pin.id, p.nested))
        = .ok [("outer", [["x"]]), ("other", [])] := by decide +kernel
  have known : ∀ id ∈ (⟨["other", "outer"]⟩ : IdFilter).ids, layeredTable.contains id = true := by
    decide
  cases made : build layeredDisk (.ofText "root") layeredTable [.single "p" "text"] none false with
  | error e =>
    rw [made] at accepted
    cases accepted
  | ok full =>
    obtain ⟨plan, filtered, -, pins, together⟩ := (build_filtered layeredDisk (.ofText "root")
      [.single "p" "text"] false known).1 full made
    rw [filtered] at seen
    exact ⟨full, plan, rfl, filtered, pins, Except.ok.inj seen, together⟩

end PinnedTree.Plan
