import Mathlib.Logic.Relation
import PinnedTree.Proofs.Backend
import PinnedTree.Proofs.Plan.Groups

namespace PinnedTree

namespace Groups

variable {all : List Destination} {i j k : Nat}

def Share (all : List Destination) (i j : Nat) : Prop :=
  ∃ outer ∈ all, ∃ a b, all[i]? = some a ∧ all[j]? = some b ∧
    outer.names <+: a.names ∧ outer.names <+: b.names

theorem Share.symm (share : Share all i j) : Share all j i := by
  obtain ⟨outer, member, a, b, foundA, foundB, holdsA, holdsB⟩ := share
  exact ⟨outer, member, b, a, foundB, foundA, holdsB, holdsA⟩

theorem Share.trans (first : Share all i j) (second : Share all j k) : Share all i k := by
  obtain ⟨outer, member, a, b, foundA, foundB, holdsA, holdsB⟩ := first
  obtain ⟨other, member', b', c, foundB', foundC, holdsB', holdsC⟩ := second
  cases foundB.symm.trans foundB'
  -- both hold the middle one, so one of them holds the other
  rcases List.prefix_or_prefix_of_prefix holdsB holdsB' with under | under
  · exact ⟨outer, member, a, c, foundA, foundC, holdsA, under.trans holdsC⟩
  · exact ⟨other, member', a, c, foundA, foundC, under.trans holdsA, holdsC⟩

theorem share_self (bound : i < all.length) : Share all i i :=
  ⟨all[i], List.getElem_mem bound, all[i], all[i], List.getElem?_eq_getElem bound,
    List.getElem?_eq_getElem bound, List.prefix_refl _, List.prefix_refl _⟩

theorem share_of_encloses (inside : encloses all i j = true) : Share all i j := by
  obtain ⟨outer, inner, foundI, foundJ, -, holds⟩ := encloses_iff.mp inside
  exact ⟨outer, List.mem_of_getElem? foundI, outer, inner, foundI, foundJ, List.prefix_refl _,
    holds⟩

namespace Classes

variable {c : Classes} {n : Nat} {pairs : List (Nat × Nat)} {related : Nat → Nat → Prop}

def Respects (c : Classes) (n : Nat) (related : Nat → Nat → Prop) : Prop :=
  ∀ i < n, ∀ j < n, c.find i = c.find j → related i j

theorem respects_discrete (same : ∀ i < n, related i i) : (discrete n).Respects n related := by
  intro i boundI j boundJ found
  have find : ∀ k < n, (discrete n).find k = k := by
    intro k bound
    simp [Classes.find, discrete, List.getD_eq_getElem?_getD, bound]
  rw [find i boundI, find j boundJ] at found
  exact found ▸ same i boundI

theorem Respects.merge (respects : c.Respects n related) (covers : c.Covers n)
    (symm : ∀ {i j}, related i j → related j i)
    (trans : ∀ {i j k}, related i j → related j k → related i k) (boundI : i < n) (boundJ : j < n)
    (joined : related i j) : (c.merge i j).Respects n related := by
  obtain ⟨-, still⟩ | ⟨lower, upper, which, label⟩ := c.merge_label i j
  · rw [still]
    exact respects
  intro x boundX y boundY same
  have find : ∀ z < n, (c.merge i j).find z = if c.find z = lower then upper else c.find z := by
    intro z bound
    rw [find_congr label, find_attach (covers.length ▸ bound)]
  rw [find x boundX, find y boundY] at same
  -- an index of the lower class is related to each one of the upper class
  have across : ∀ a < n, ∀ b < n, c.find a = lower → upper = c.find b → related a b := by
    intro a boundA b boundB low high
    rcases which with ⟨rfl, rfl⟩ | ⟨rfl, rfl⟩
    · exact trans (respects a boundA i boundI low) (trans joined (respects j boundJ b boundB high))
    · exact trans (respects a boundA j boundJ low)
        (trans (symm joined) (respects i boundI b boundB high))
  by_cases lowX : c.find x = lower
  · by_cases lowY : c.find y = lower
    · exact respects x boundX y boundY (lowX.trans lowY.symm)
    · rw [if_pos lowX, if_neg lowY] at same
      exact across x boundX y boundY lowX same
  · by_cases lowY : c.find y = lower
    · rw [if_neg lowX, if_pos lowY] at same
      exact symm (across y boundY x boundX lowY same.symm)
    · rw [if_neg lowX, if_neg lowY] at same
      exact respects x boundX y boundY same

theorem Respects.merge_all (respects : c.Respects n related) (covers : c.Covers n)
    (symm : ∀ {i j}, related i j → related j i)
    (trans : ∀ {i j k}, related i j → related j k → related i k)
    (bounds : ∀ p ∈ pairs, p.1 < n ∧ p.2 < n) (joined : ∀ p ∈ pairs, related p.1 p.2) :
    (pairs.foldl (fun c p => c.merge p.1 p.2) c).Respects n related := by
  induction pairs generalizing c with
  | nil => exact respects
  | cons p rest ih =>
    obtain ⟨boundI, boundJ⟩ := bounds p (by simp)
    exact ih (respects.merge covers symm trans boundI boundJ (joined p (by simp)))
      (covers.merge boundI boundJ).1 (fun q member => bounds q (by simp [member]))
      fun q member => joined q (by simp [member])

end Classes

theorem find_eq_of_holds {outer inner : Destination} (foundI : all[i]? = some outer)
    (foundJ : all[j]? = some inner) (holds : outer.names <+: inner.names) :
    (classes all).find i = (classes all).find j := by
  by_cases same : i = j
  · rw [same]
  · exact (classes_joined all).2 i j (encloses_iff.mpr ⟨outer, inner, foundI, foundJ, same, holds⟩)

theorem find_eq_iff (boundI : i < all.length) (boundJ : j < all.length) :
    (classes all).find i = (classes all).find j ↔ Share all i j := by
  constructor
  · intro same
    have apart : (Classes.discrete all.length).Respects all.length (Share all) :=
      Classes.respects_discrete fun _ => share_self
    have respects := apart.merge_all (Classes.covers_discrete all.length) Share.symm Share.trans
      (fun _ => nestings_lt) fun _ member => share_of_encloses (mem_nestings.mp member)
    rw [← classes_eq] at respects
    exact respects i boundI j boundJ same
  · rintro ⟨outer, member, a, b, foundA, foundB, holdsA, holdsB⟩
    obtain ⟨k, bound, rfl⟩ := List.getElem_of_mem member
    have found := List.getElem?_eq_getElem bound
    exact (find_eq_of_holds found foundA holdsA).symm.trans (find_eq_of_holds found foundB holdsB)

theorem grouped_iff (distinct : all.Nodup) (boundI : i < all.length) (boundJ : j < all.length) :
    (∃ group ∈ ofDestinations all, i ∈ group ∧ j ∈ group) ↔
      (classes all).find i = (classes all).find j := by
  have listed := (outerFirst_settled distinct).2
  constructor
  · rintro ⟨group, member, memberI, memberJ⟩
    obtain ⟨-, l, -, rfl⟩ := (mem_ofDestinations distinct).mp member
    have labelI := (List.mem_filter.mp memberI).2
    have labelJ := (List.mem_filter.mp memberJ).2
    rw [decide_eq_true_eq] at labelI labelJ
    exact labelI.trans labelJ.symm
  · intro same
    have inGroup : ∀ k < all.length, (classes all).find k = (classes all).find j →
        k ∈ (outerFirst all).filter fun k => (classes all).find k = (classes all).find j :=
      fun k bound alike => List.mem_filter.mpr ⟨(listed k).mpr bound, by simpa using alike⟩
    refine ⟨_, (mem_ofDestinations distinct).mpr ⟨List.ne_nil_of_mem (inGroup j boundJ rfl), _,
      (classes_joined all).1.bounded j boundJ, rfl⟩, inGroup i boundI same, inGroup j boundJ rfl⟩

theorem outer_before (distinct : all.Nodup) {group : List Nat} (member : group ∈ ofDestinations all)
    (listed : j ∈ group) (inside : encloses all i j = true) :
    i ∈ group ∧ group.idxOf i < group.idxOf j := by
  obtain ⟨-, l, -, rfl⟩ := (mem_ofDestinations distinct).mp member
  obtain ⟨settled, all_listed⟩ := outerFirst_settled distinct
  have boundI : i < all.length := (nestings_lt (mem_nestings.mpr inside)).1
  have label := (List.mem_filter.mp listed).2
  rw [decide_eq_true_eq] at label
  have here : i ∈ (outerFirst all).filter fun k => (classes all).find k = l := by
    refine List.mem_filter.mpr ⟨(all_listed i).mpr boundI, ?_⟩
    rw [decide_eq_true_eq, (classes_joined all).2 i j inside, label]
  refine ⟨here, ?_⟩
  have ordered := settled.ordered.filter fun k => (classes all).find k = l
  rw [List.pairwise_iff_getElem] at ordered
  have placeI := List.idxOf_lt_length_of_mem here
  have placeJ := List.idxOf_lt_length_of_mem listed
  by_contra after
  rcases Nat.lt_or_eq_of_le (Nat.le_of_not_lt after) with before | same
  · have apart := ordered _ _ placeJ placeI before
    rw [List.getElem_idxOf, List.getElem_idxOf, inside] at apart
    cases apart
  · exact encloses_ne inside ((List.idxOf_inj here).mp same.symm)

theorem acyclic (distinct : all.Nodup) :
    ¬ Relation.TransGen (fun i j => encloses all i j = true) i i := by
  intro circle
  have closed : ∀ {i j}, Relation.TransGen (fun i j => encloses all i j = true) i j →
      encloses all i j = true := by
    intro i j chain
    induction chain with
    | single inside => exact inside
    | tail _ inside ih => exact encloses_trans distinct ih inside
  exact encloses_ne (closed circle) rfl

end Groups

namespace Plan

/-- The groups of a plan are the components of its destinations, each with outer ones first. -/
structure WellGrouped (plan : Plan) : Prop where
  once : plan.groups.flatten.Perm (List.range plan.pins.length)
  together : ∀ i j p q, plan.pins[i]? = some p → plan.pins[j]? = some q →
    ((∃ group ∈ plan.groups, i ∈ group ∧ j ∈ group) ↔
      ∃ outer ∈ plan.pins, outer.destination.names <+: p.destination.names ∧
        outer.destination.names <+: q.destination.names)
  ordered : ∀ group ∈ plan.groups, ∀ i j p q, plan.pins[i]? = some p → plan.pins[j]? = some q →
    j ∈ group → p.destination.names <+: q.destination.names → p.destination ≠ q.destination →
      i ∈ group ∧ group.idxOf i < group.idxOf j
  acyclic : ∀ i, ¬ Relation.TransGen
    (fun i j => Groups.encloses (plan.pins.map (·.destination)) i j = true) i i
  searched : Groups.topological? (plan.pins.map (·.destination)) ≠ none

theorem grouped_iff_share {plan : Plan} (distinct : (plan.pins.map (·.destination)).Nodup) {i j : Nat}
    {p q : PlannedPin} (foundP : plan.pins[i]? = some p) (foundQ : plan.pins[j]? = some q) :
    (∃ group ∈ plan.groups, i ∈ group ∧ j ∈ group) ↔
      ∃ outer ∈ plan.pins, outer.destination.names <+: p.destination.names ∧
        outer.destination.names <+: q.destination.names := by
  have boundP := (List.getElem?_eq_some_iff.mp foundP).1
  have boundQ := (List.getElem?_eq_some_iff.mp foundQ).1
  rw [groups, Groups.grouped_iff distinct (by simpa using boundP) (by simpa using boundQ),
    Groups.find_eq_iff (by simpa using boundP) (by simpa using boundQ)]
  simp [Groups.Share, foundP, foundQ]

/-- Pins with distinct destinations are grouped by the outermost destinations they lie in. -/
theorem wellGrouped_of_distinct (plan : Plan) (distinct : (plan.pins.map (·.destination)).Nodup) :
    plan.WellGrouped where
  once := by
    have whole := Groups.flatten_perm distinct
    rwa [List.length_map] at whole
  together _ _ _ _ := grouped_iff_share distinct
  ordered group member i j p q foundP foundQ listed holds other := by
    refine Groups.outer_before distinct member listed (Groups.encloses_iff.mpr ⟨p.destination,
      q.destination, by simp [foundP], by simp [foundQ], ?_, holds⟩)
    rintro rfl
    cases foundP.symm.trans foundQ
    exact other rfl
  acyclic _ := Groups.acyclic distinct
  searched := by simp [Groups.topological?_eq distinct]

def fetched (id : String) (destination : Destination) : PlannedPin where
  pin := ⟨id, "fake:", "r1", destination.text⟩
  destination := destination
  backend := .single "p" "text"
  action := .fetch
  nested := []

def threeLevels : Plan where
  root := .ofText "root"
  pins := [fetched "inner" ⟨["deps", "core", "json"], by decide, by decide, by decide⟩,
    fetched "other" ⟨["tools"], by decide, by decide, by decide⟩,
    fetched "middle" ⟨["deps", "core"], by decide, by decide, by decide⟩,
    fetched "outer" ⟨["deps"], by decide, by decide, by decide⟩,
    fetched "sibling" ⟨["deps-extra"], by decide, by decide, by decide⟩]

theorem threeLevels_wellGrouped :
    (threeLevels.pins.map (·.destination)).Nodup ∧ threeLevels.WellGrouped :=
  have distinct : (threeLevels.pins.map (·.destination)).Nodup := by decide
  ⟨distinct, wellGrouped_of_distinct threeLevels distinct⟩

example : threeLevels.groups = [[1], [3, 2, 0], [4]] := by decide +kernel

end Plan

end PinnedTree
