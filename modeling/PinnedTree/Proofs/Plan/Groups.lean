import Mathlib.Data.List.Lemmas
import Mathlib.Data.List.Nodup
import Mathlib.Data.List.Pairwise
import Mathlib.Data.List.Perm.Basic
import PinnedTree.Plan

namespace PinnedTree.Groups

variable {all : List Destination} {i j k levels : Nat} {done : List Nat}

theorem encloses_iff : encloses all i j = true ↔ ∃ outer inner, all[i]? = some outer ∧
    all[j]? = some inner ∧ i ≠ j ∧ outer.names <+: inner.names := by
  unfold encloses
  cases all[i]? <;> cases all[j]? <;> simp [Destination.within]

theorem mem_enclosed : j ∈ enclosed all i ↔ encloses all i j = true := by
  simp only [enclosed, List.mem_filter, List.mem_range, and_iff_right_iff_imp]
  intro inside
  obtain ⟨_, _, -, found, -⟩ := encloses_iff.mp inside
  exact (List.getElem?_eq_some_iff.mp found).1

theorem lt_of_encloses (inside : encloses all i j = true) : j < all.length :=
  List.mem_range.mp (List.mem_filter.mp (mem_enclosed.mpr inside)).1

theorem encloses_ne (inside : encloses all i j = true) : i ≠ j := by
  obtain ⟨_, _, -, -, other, -⟩ := encloses_iff.mp inside
  exact other

theorem encloses_trans (distinct : all.Nodup) (outer : encloses all i j = true)
    (inner : encloses all j k = true) : encloses all i k = true := by
  obtain ⟨a, b, foundA, foundB, other, first⟩ := encloses_iff.mp outer
  obtain ⟨b', c, foundB', foundC, -, second⟩ := encloses_iff.mp inner
  cases foundB.symm.trans foundB'
  refine encloses_iff.mpr ⟨a, c, foundA, foundC, ?_, first.trans second⟩
  rintro rfl
  cases foundA.symm.trans foundC
  have same : a.names = b.names := first.eq_of_length_le second.length_le
  have alike : a = b := by cases a; cases b; simpa using same
  obtain ⟨bound, rfl⟩ := List.getElem?_eq_some_iff.mp foundA
  obtain ⟨bound', rfl⟩ := List.getElem?_eq_some_iff.mp foundB
  exact other ((distinct.getElem_inj_iff).mp alike)

theorem length_enclosed_lt (distinct : all.Nodup) (inside : encloses all i j = true) :
    (enclosed all j).length < (enclosed all i).length := by
  have deeper : (enclosed all j).Sublist ((enclosed all i).filter (· ≠ j)) := by
    rw [enclosed, enclosed, List.filter_filter]
    refine List.monotone_filter_right _ fun k inner => ?_
    simpa using ⟨(encloses_ne inner).symm, encloses_trans distinct inside inner⟩
  refine deeper.length_le.trans_lt (List.length_filter_lt_length_iff_exists.mpr ⟨j, ?_, by simp⟩)
  exact mem_enclosed.mpr inside

/-- Indices that are done: each of them once, with all that lie inside it after it. -/
structure Settled (all : List Destination) (done : List Nat) : Prop where
  once : done.Nodup
  closed : ∀ i ∈ done, ∀ j, encloses all i j = true → j ∈ done
  ordered : done.Pairwise fun i j => encloses all j i = false

theorem Settled.nil : Settled all [] := ⟨.nil, by simp, .nil⟩

theorem Settled.cons (settled : Settled all done) (fresh : i ∉ done)
    (inner : ∀ j, encloses all i j = true → j ∈ done) : Settled all (i :: done) where
  once := List.nodup_cons.mpr ⟨fresh, settled.once⟩
  closed := by
    intro k member j inside
    rcases List.mem_cons.mp member with rfl | earlier
    · exact List.mem_cons_of_mem _ (inner j inside)
    · exact List.mem_cons_of_mem _ (settled.closed k earlier j inside)
  ordered := by
    refine List.pairwise_cons.mpr ⟨fun j member => ?_, settled.ordered⟩
    by_contra inside
    exact fresh (settled.closed j member i (by simpa using inside))

/-- What one step of the search does: it settles an index, and what else it adds lies inside. -/
structure Reached (all : List Destination) (done : List Nat) (i : Nat) (more : List Nat) :
    Prop where
  settled : Settled all more
  kept : done ⊆ more
  here : i ∈ more
  added : ∀ k ∈ more, k ∈ done ∨ k = i ∨ encloses all i k = true

theorem Settled.seen (settled : Settled all done) (member : i ∈ done) : Reached all done i done :=
  ⟨settled, fun _ => id, member, fun _ => .inl⟩

theorem foldl_reached {visit : List Nat → Nat → List Nat} {targets : List Nat}
    (each : ∀ i ∈ targets, ∀ done, Settled all done → Reached all done i (visit done i))
    (settled : Settled all done) :
    Settled all (targets.foldl visit done) ∧ done ⊆ targets.foldl visit done ∧
      targets ⊆ targets.foldl visit done ∧ ∀ k ∈ targets.foldl visit done,
        k ∈ done ∨ ∃ i ∈ targets, k = i ∨ encloses all i k = true := by
  induction targets generalizing done with
  | nil => exact ⟨settled, fun _ => id, by simp, fun _ => .inl⟩
  | cons i rest ih =>
    have first := each i (by simp) done settled
    obtain ⟨whole, kept, listed, added⟩ :=
      ih (fun j member => each j (List.mem_cons_of_mem _ member)) first.settled
    refine ⟨whole, fun k member => kept (first.kept member), ?_, fun k member => ?_⟩
    · exact List.cons_subset.mpr ⟨kept first.here, listed⟩
    · rcases added k member with early | ⟨j, later, inside⟩
      · rcases first.added k early with before | inside
        · exact .inl before
        · exact .inr ⟨i, by simp, inside⟩
      · exact .inr ⟨j, List.mem_cons_of_mem _ later, inside⟩

theorem finish_reached (distinct : all.Nodup) (settled : Settled all done)
    (enough : (enclosed all i).length ≤ levels) :
    Reached all done i (finish all levels done i) := by
  induction levels generalizing done i with
  | zero =>
    have none : ∀ j, ¬ encloses all i j = true := fun j inside => by
      have listed := mem_enclosed.mpr inside
      rw [List.length_eq_zero_iff.mp (Nat.le_zero.mp enough)] at listed
      cases listed
    rw [finish]
    split
    · rename_i member
      exact settled.seen member
    · rename_i fresh
      exact ⟨settled.cons fresh fun j inside => absurd inside (none j), by simp, by simp,
        fun k member => (List.mem_cons.mp member).symm.imp_right .inl⟩
  | succ levels ih =>
    rw [finish]
    split
    · rename_i member
      exact settled.seen member
    · rename_i fresh
      have each : ∀ j ∈ enclosed all i, ∀ done, Settled all done →
          Reached all done j (finish all levels done j) := fun j member done settled =>
        have fewer := length_enclosed_lt distinct (mem_enclosed.mp member)
        ih settled (by omega)
      obtain ⟨whole, kept, listed, added⟩ := foldl_reached each settled
      have within : ∀ k ∈ (enclosed all i).foldl (finish all levels) done,
          k ∈ done ∨ encloses all i k = true := by
        intro k member
        rcases added k member with before | ⟨j, inner, rfl | inside⟩
        · exact .inl before
        · exact .inr (mem_enclosed.mp inner)
        · exact .inr (encloses_trans distinct (mem_enclosed.mp inner) inside)
      have still : i ∉ (enclosed all i).foldl (finish all levels) done := fun member => by
        rcases within i member with before | inside
        · exact fresh before
        · exact encloses_ne inside rfl
      refine ⟨whole.cons still fun j inside => listed (mem_enclosed.mpr inside),
        fun k member => List.mem_cons_of_mem _ (kept member), by simp, fun k member => ?_⟩
      rcases List.mem_cons.mp member with rfl | earlier
      · exact .inr (.inl rfl)
      · exact (within k earlier).imp_right .inr

theorem outerFirst_settled (distinct : all.Nodup) :
    Settled all (outerFirst all) ∧ ∀ i, i ∈ outerFirst all ↔ i < all.length := by
  have enough : ∀ i, (enclosed all i).length ≤ all.length := fun i =>
    (List.length_filter_le _ _).trans List.length_range.le
  have each : ∀ i ∈ List.range all.length, ∀ done, Settled all done →
      Reached all done i (finish all all.length done i) := fun i _ done settled =>
    finish_reached distinct settled (enough i)
  obtain ⟨settled, -, listed, added⟩ := foldl_reached each .nil
  refine ⟨settled, fun i => ⟨fun member => ?_, fun bound => listed (List.mem_range.mpr bound)⟩⟩
  rcases added i member with impossible | ⟨j, bound, rfl | inside⟩
  · cases impossible
  · exact List.mem_range.mp bound
  · exact lt_of_encloses inside

namespace Classes

variable {c e : Classes} {n lower upper : Nat} {pairs : List (Nat × Nat)}

structure Covers (c : Classes) (n : Nat) : Prop where
  length : c.label.length = n
  bounded : ∀ i < n, c.find i < n

def Coarser (c e : Classes) (n : Nat) : Prop :=
  ∀ i < n, ∀ j < n, c.find i = c.find j → e.find i = e.find j

theorem covers_discrete (n : Nat) : (discrete n).Covers n where
  length := List.length_range
  bounded i bound := by
    have same : (discrete n).find i = i := by
      simp [find, discrete, List.getD_eq_getElem?_getD, bound]
    rwa [same]

theorem find_attach (bound : i < c.label.length) :
    (c.attach lower upper).find i = if c.find i = lower then upper else c.find i := by
  simp [find, attach, List.getD_eq_getElem?_getD, bound]

theorem Covers.attach (covers : c.Covers n) (bound : upper < n) :
    (c.attach lower upper).Covers n where
  length := by simpa [Classes.attach] using covers.length
  bounded i under := by
    rw [find_attach (covers.length ▸ under)]
    split
    · exact bound
    · exact covers.bounded i under

theorem Covers.attach_coarser (covers : c.Covers n) : c.Coarser (c.attach lower upper) n := by
  intro i boundI j boundJ same
  rw [find_attach (covers.length ▸ boundI), find_attach (covers.length ▸ boundJ), same]

theorem find_congr (same : e.label = c.label) : e.find i = c.find i := by
  rw [find, find, same]

theorem merge_label (c : Classes) (i j : Nat) :
    (c.find i = c.find j ∧ c.merge i j = c) ∨ ∃ lower upper,
      (lower = c.find i ∧ upper = c.find j ∨ lower = c.find j ∧ upper = c.find i) ∧
        (c.merge i j).label = (c.attach lower upper).label := by
  unfold merge
  simp only
  split
  · rename_i same
    exact .inl ⟨same, rfl⟩
  · right
    split
    · exact ⟨_, _, .inl ⟨rfl, rfl⟩, rfl⟩
    · split
      · exact ⟨_, _, .inr ⟨rfl, rfl⟩, rfl⟩
      · exact ⟨_, _, .inr ⟨rfl, rfl⟩, rfl⟩

theorem Covers.merge (covers : c.Covers n) (boundI : i < n) (boundJ : j < n) :
    (c.merge i j).Covers n ∧ c.Coarser (c.merge i j) n ∧
      (c.merge i j).find i = (c.merge i j).find j := by
  obtain ⟨same, still⟩ | ⟨lower, upper, which, label⟩ := c.merge_label i j
  · rw [still]
    exact ⟨covers, fun _ _ _ _ => id, same⟩
  · have bound : upper < n := by
      rcases which with ⟨-, rfl⟩ | ⟨-, rfl⟩
      · exact covers.bounded j boundJ
      · exact covers.bounded i boundI
    have attached : (c.attach lower upper).Covers n := covers.attach bound
    refine ⟨⟨label ▸ attached.length, fun k under => ?_⟩, fun x boundX y boundY alike => ?_, ?_⟩
    · rw [find_congr label]
      exact attached.bounded k under
    · rw [find_congr label, find_congr label]
      exact covers.attach_coarser x boundX y boundY alike
    · rw [find_congr label, find_congr label, find_attach (covers.length ▸ boundI),
        find_attach (covers.length ▸ boundJ)]
      rcases which with ⟨rfl, rfl⟩ | ⟨rfl, rfl⟩ <;> simp

theorem Covers.merge_all (covers : c.Covers n) (bounds : ∀ p ∈ pairs, p.1 < n ∧ p.2 < n) :
    (pairs.foldl (fun c p => c.merge p.1 p.2) c).Covers n ∧
      c.Coarser (pairs.foldl (fun c p => c.merge p.1 p.2) c) n ∧
      ∀ p ∈ pairs, (pairs.foldl (fun c p => c.merge p.1 p.2) c).find p.1
        = (pairs.foldl (fun c p => c.merge p.1 p.2) c).find p.2 := by
  induction pairs generalizing c with
  | nil => exact ⟨covers, fun _ _ _ _ => id, by simp⟩
  | cons p rest ih =>
    obtain ⟨boundI, boundJ⟩ := bounds p (by simp)
    obtain ⟨first, coarser, joined⟩ := covers.merge boundI boundJ
    obtain ⟨whole, further, each⟩ := ih first fun q member => bounds q (by simp [member])
    refine ⟨whole, fun i boundI j boundJ same => ?_, fun q member => ?_⟩
    · exact further i boundI j boundJ (coarser i boundI j boundJ same)
    · rcases List.mem_cons.mp member with rfl | later
      · exact further _ boundI _ boundJ joined
      · exact each q later

end Classes

def nestings (all : List Destination) : List (Nat × Nat) :=
  (List.range all.length).flatMap fun i => (enclosed all i).map (i, ·)

theorem mem_nestings : (i, j) ∈ nestings all ↔ encloses all i j = true := by
  simp only [nestings, List.mem_flatMap, List.mem_range, List.mem_map, Prod.mk.injEq,
    mem_enclosed]
  constructor
  · rintro ⟨_, -, _, inside, rfl, rfl⟩
    exact inside
  · intro inside
    obtain ⟨_, _, found, -⟩ := encloses_iff.mp inside
    exact ⟨i, (List.getElem?_eq_some_iff.mp found).1, j, inside, rfl, rfl⟩

theorem nestings_lt {p : Nat × Nat} (member : p ∈ nestings all) :
    p.1 < all.length ∧ p.2 < all.length := by
  have inside := mem_nestings.mp member
  obtain ⟨_, _, found, -⟩ := encloses_iff.mp inside
  exact ⟨(List.getElem?_eq_some_iff.mp found).1, lt_of_encloses inside⟩

theorem classes_eq (all : List Destination) :
    classes all = (nestings all).foldl (fun c p => c.merge p.1 p.2) (.discrete all.length) := by
  simp [classes, nestings, List.foldl_flatMap, List.foldl_map]

theorem classes_joined (all : List Destination) : (classes all).Covers all.length ∧
    ∀ i j, encloses all i j = true → (classes all).find i = (classes all).find j := by
  obtain ⟨covers, -, joined⟩ :=
    (Classes.covers_discrete all.length).merge_all fun _ => nestings_lt
  rw [← classes_eq] at covers joined
  exact ⟨covers, fun i j inside => joined (i, j) (mem_nestings.mpr inside)⟩

theorem topological?_eq (distinct : all.Nodup) : topological? all = some (outerFirst all) :=
  if_pos (outerFirst_settled distinct).1.ordered

theorem mem_ofDestinations (distinct : all.Nodup) {group : List Nat} :
    group ∈ ofDestinations all ↔ group ≠ [] ∧
      ∃ l < all.length, group = (outerFirst all).filter fun i => (classes all).find i = l := by
  simp only [ofDestinations, topological?_eq distinct, Option.getD_some, List.mem_filter,
    List.mem_map, List.mem_range, decide_eq_true_eq]
  constructor
  · rintro ⟨⟨l, bound, rfl⟩, filled⟩
    exact ⟨filled, l, bound, rfl⟩
  · rintro ⟨filled, l, bound, rfl⟩
    exact ⟨⟨l, bound, rfl⟩, filled⟩

theorem flatten_perm (distinct : all.Nodup) :
    (ofDestinations all).flatten.Perm (List.range all.length) := by
  obtain ⟨settled, listed⟩ := outerFirst_settled distinct
  obtain ⟨covers, -⟩ := classes_joined all
  refine (List.perm_ext_iff_of_nodup ?_ List.nodup_range).mpr fun i => ?_
  · refine List.nodup_flatten.mpr ⟨fun group member => ?_, ?_⟩
    · obtain ⟨-, l, -, rfl⟩ := (mem_ofDestinations distinct).mp member
      exact settled.once.filter _
    · rw [ofDestinations, topological?_eq distinct]
      refine List.Pairwise.filter _ (List.pairwise_map.mpr ?_)
      refine List.nodup_range.imp fun {a b} other i memberA memberB => other ?_
      have labelA := (List.mem_filter.mp memberA).2
      have labelB := (List.mem_filter.mp memberB).2
      simp only [decide_eq_true_eq] at labelA labelB
      exact labelA.symm.trans labelB
  · rw [List.mem_flatten, List.mem_range, ← listed i]
    constructor
    · rintro ⟨group, member, inside⟩
      obtain ⟨-, l, -, rfl⟩ := (mem_ofDestinations distinct).mp member
      exact (List.mem_filter.mp inside).1
    · intro member
      have inside : i ∈ (outerFirst all).filter fun j =>
          (classes all).find j = (classes all).find i := List.mem_filter.mpr ⟨member, by simp⟩
      exact ⟨_, (mem_ofDestinations distinct).mpr ⟨List.ne_nil_of_mem inside, _,
        covers.bounded i ((listed i).mp member), rfl⟩, inside⟩

/-- An order in which a pool may come to handle groups: everything once, and the members of each
group one after the other. -/
structure Interleaves (groups : List (List Nat)) (order : List Nat) : Prop where
  perm : order.Perm groups.flatten
  keeps : ∀ group ∈ groups, group.Sublist order

theorem interleaves_flatten (groups : List (List Nat)) : Interleaves groups groups.flatten :=
  ⟨.refl _, fun _ member => List.sublist_flatten_of_mem member⟩

theorem pairwise_idxOf {order : List Nat} (once : order.Nodup) :
    order.Pairwise fun i j => order.idxOf i < order.idxOf j := by
  refine List.pairwise_iff_getElem.mpr fun a b boundA boundB before => ?_
  rwa [once.idxOf_getElem, once.idxOf_getElem]

theorem Interleaves.outer_first {order : List Nat} (distinct : all.Nodup)
    (interleaves : Interleaves (ofDestinations all) order) :
    order.Perm (List.range all.length) ∧ order.Pairwise fun i j => encloses all j i = false := by
  have perm := interleaves.perm.trans (flatten_perm distinct)
  obtain ⟨settled, listed⟩ := outerFirst_settled distinct
  obtain ⟨covers, joined⟩ := classes_joined all
  have once := pairwise_idxOf (perm.nodup_iff.mpr List.nodup_range)
  refine ⟨perm, once.imp_of_mem fun {i j} memberI memberJ before => ?_⟩
  by_contra inside
  have outer : encloses all j i = true := by simpa using inside
  -- both stand in one group, and there the outer one comes first
  have bound : ∀ k ∈ order, k < all.length := fun k member =>
    List.mem_range.mp (perm.subset member)
  have inGroup : ∀ k ∈ order, (classes all).find k = (classes all).find i →
      k ∈ (outerFirst all).filter fun k => (classes all).find k = (classes all).find i :=
    fun k member same => List.mem_filter.mpr ⟨(listed k).mpr (bound k member), by simpa using same⟩
  have group := (mem_ofDestinations distinct).mpr ⟨List.ne_nil_of_mem (inGroup i memberI rfl), _,
    covers.bounded i (bound i memberI), rfl⟩
  have apart := ((settled.ordered.filter _).and (once.sublist (interleaves.keeps _ group))).imp
    fun {a b} => Or.inl (b := encloses all a b = false ∧ order.idxOf b < order.idxOf a)
  have : Std.Symm fun a b => (encloses all b a = false ∧ order.idxOf a < order.idxOf b) ∨
      (encloses all a b = false ∧ order.idxOf b < order.idxOf a) := ⟨fun _ _ => Or.symm⟩
  rcases apart.forall (inGroup i memberI rfl) (inGroup j memberJ (joined j i outer))
    (encloses_ne outer).symm with ⟨free, -⟩ | ⟨-, after⟩
  · exact inside free
  · exact absurd before (Nat.lt_asymm after)

theorem filterMap_range {α : Type} (l : List α) :
    (List.range l.length).filterMap (l[·]?) = l := by
  induction l with
  | nil => rfl
  | cons a rest ih => simpa [List.range_succ_eq_map, List.filterMap_map] using ih

theorem Interleaves.pins {pins : List PlannedPin} {order : List Nat}
    (distinct : (pins.map (·.destination)).Nodup)
    (interleaves : Interleaves (ofDestinations (pins.map (·.destination))) order) :
    (order.filterMap (pins[·]?)).Perm pins ∧ (order.filterMap (pins[·]?)).Pairwise
      fun earlier later => ¬ later.destination.names <+: earlier.destination.names := by
  obtain ⟨perm, outer⟩ := interleaves.outer_first distinct
  rw [List.length_map] at perm
  refine ⟨(perm.filterMap _).trans (.of_eq (filterMap_range pins)), ?_⟩
  have once : order.Nodup := perm.nodup_iff.mpr List.nodup_range
  refine List.pairwise_filterMap.mpr ((once.and outer).imp ?_)
  rintro i j ⟨other, apart⟩ p foundP q foundQ inside
  have encloses : encloses (pins.map (·.destination)) j i = true :=
    encloses_iff.mpr ⟨q.destination, p.destination, by simp [foundQ], by simp [foundP],
      other.symm, inside⟩
  simp [apart] at encloses

end PinnedTree.Groups
