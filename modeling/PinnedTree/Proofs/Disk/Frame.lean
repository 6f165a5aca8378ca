import Mathlib.Tactic.ByContra
import PinnedTree.Disk.Calls
import PinnedTree.Proofs.Disk.Sound

namespace PinnedTree

namespace Step

@[simp] theorem home_apply (d : Disk) (step : Step) : (step.apply d).home = d.home := by
  cases step with
  | makeDir path | makeLink path target => simp only [apply, Disk.put]; split <;> rfl
  | create path mode | write path content | setMode path mode =>
    simp only [apply, Disk.put]
    split
    all_goals first
      | rfl
      | split <;> rfl
  | unlink path | removeDir path | rename source target => rfl

@[simp] theorem home_applyAll (d : Disk) (steps : List Step) :
    (applyAll d steps).home = d.home := by
  induction steps generalizing d with
  | nil => rfl
  | cons step rest ih => simp [ih]

theorem look_applyAll {d : Disk} {steps : List Step} {p : DiskPath}
    (away : ∀ step ∈ steps, ∀ q ∈ step.touched, q ≠ [] ∧ ¬ q <+: p) :
    (applyAll d steps).look p = d.look p := by
  induction steps generalizing d with
  | nil => rfl
  | cons step rest ih =>
    rw [applyAll_cons, ih fun s member => away s (List.mem_cons_of_mem _ member),
      look_apply (away step (by simp))]

theorem AllFit.take {d : Disk} {steps : List Step} (fit : AllFit d steps) (n : Nat) :
    AllFit d (steps.take n) := by
  rw [← List.take_append_drop n steps, allFit_append] at fit
  exact fit.1

end Step

namespace Disk

def Apart (p q : DiskPath) : Prop := ¬ p <+: q ∧ ¬ q <+: p

variable {p q : DiskPath}

theorem Apart.symm (apart : Apart p q) : Apart q p := ⟨apart.2, apart.1⟩

theorem Apart.ne (apart : Apart p q) : p ≠ q := fun same => apart.1 (same ▸ List.prefix_refl p)

theorem Apart.not_under (apart : Apart p q) (rest : DiskPath) : ¬ p <+: q ++ rest := by
  intro under
  rcases List.prefix_or_prefix_of_prefix under (List.prefix_append q rest) with inner | inner
  · exact apart.1 inner
  · exact apart.2 inner

theorem Apart.append (apart : Apart p q) (more rest : DiskPath) :
    Apart (p ++ more) (q ++ rest) :=
  ⟨fun under => apart.not_under rest ((List.prefix_append _ _).trans under),
    fun under => apart.symm.not_under more ((List.prefix_append _ _).trans under)⟩

theorem Apart.extend (apart : Apart p q) (more : DiskPath) : Apart (p ++ more) q := by
  simpa using apart.append more []

theorem Apart.append_ne (apart : Apart p q) (more : DiskPath) : p ++ more ≠ q :=
  fun same => apart.1 (same ▸ List.prefix_append _ _)

theorem Apart.ne_nil (apart : Apart p q) : p ≠ [] := by
  rintro rfl
  exact apart.1 (List.nil_prefix)

theorem apart_append_left {top : DiskPath} : Apart (top ++ p) (top ++ q) ↔ Apart p q := by
  simp [Apart, List.prefix_append_right_inj]

theorem apart_cons {a b : String} (other : a ≠ b) : Apart (a :: p) (b :: q) := by
  simp [Apart, List.cons_prefix_cons, other, other.symm]

def Inside (p q : DiskPath) : Prop := p <+: q ∧ q ≠ p

instance (p q : DiskPath) : Decidable (Inside p q) := by unfold Inside; infer_instance

theorem inside_append {rest : DiskPath} : Inside p (p ++ rest) ↔ rest ≠ [] := by
  simp [Inside]

theorem inside_concat {top : DiskPath} {names : List String} {name : String} :
    Inside (top ++ names) (top ++ (names ++ [name])) := by
  simp [Inside, List.prefix_append_right_inj]

theorem Inside.not_under (inner : Inside p q) : ¬ q <+: p :=
  fun under => inner.2 (under.eq_of_length_le inner.1.length_le)

theorem look_of_unlisted {d : Disk} (unlisted : ∀ entry ∈ d.nodes, ¬ Inside p entry.1)
    (inside : Inside p q) : d.look q = none := by
  have inner : q ≠ [] := by
    rintro rfl
    exact inside.2 (List.prefix_nil.mp inside.1).symm
  rw [look_eq_none_iff inner]
  exact fun node listed => unlisted _ listed inside

theorem look_move_target (d : Disk) (apart : Apart p q) (rest : DiskPath) :
    (d.move p q).look (q ++ rest) = d.look (p ++ rest) := by
  rw [look_move apart.ne_nil apart.symm.ne_nil, if_pos (List.prefix_append _ _), List.drop_left,
    if_neg (apart.symm.not_under rest)]

theorem look_move_source (d : Disk) (apart : Apart p q) (rest : DiskPath) :
    (d.move p q).look (p ++ rest) = none := by
  rw [look_move apart.ne_nil apart.symm.ne_nil, if_neg (apart.symm.not_under rest),
    if_pos (List.prefix_append _ _)]

theorem look_move_other (d : Disk) (apart : Apart p q) {r : DiskPath} (notSource : ¬ p <+: r)
    (notTarget : ¬ q <+: r) : (d.move p q).look r = d.look r := by
  rw [look_move apart.ne_nil apart.symm.ne_nil, if_neg notTarget, if_neg notSource]

theorem look_move_beside (d : Disk) (apart : Apart p q) {c r : DiskPath} (away : ¬ c <+: r) :
    (d.move (p ++ c) (q ++ c)).look (p ++ r) = d.look (p ++ r) ∧
      (d.move (p ++ c) (q ++ c)).look (q ++ r) = d.look (q ++ r) :=
  ⟨look_move_other d (apart.append c c)
      (fun under => away ((List.prefix_append_right_inj _).mp under)) (apart.symm.append c r).1,
    look_move_other d (apart.append c c) (apart.append c r).1
      fun under => away ((List.prefix_append_right_inj _).mp under)⟩

theorem look_move_elsewhere (d : Disk) {x c : DiskPath} (apart : Apart p q) (source : Apart p x)
    (target : Apart q x) (rest : DiskPath) :
    (d.move (p ++ c) (q ++ c)).look (x ++ rest) = d.look (x ++ rest) :=
  look_move_other d (apart.append c c) (source.append c rest).1 (target.append c rest).1

theorem Holds.move_away {d : Disk} (held : d.Holds p) (apart : Apart p q) :
    (d.move p q).Holds p := by
  refine held.congr fun dir name same isDir => ?_
  have above : dir <+: p := ⟨[name], same.symm⟩
  rw [look_move_other d apart, isDir]
  · intro under
    have longer := under.length_le
    rw [same, List.length_append, List.length_singleton] at longer
    exact Nat.not_succ_le_self _ longer
  · exact fun under => apart.2 (under.trans above)

variable {d : Disk} {path : DiskPath}

theorem mem_inside {entry : DiskPath × Node} :
    entry ∈ d.inside path ↔ entry ∈ d.nodes ∧ path <+: entry.1 ∧ entry.1 ≠ path := by
  simp only [inside, List.mem_filter, Bool.and_eq_true, List.isPrefixOf_iff_prefix,
    decide_eq_true_eq]
  constructor
  · rintro ⟨listed, under, longer⟩
    refine ⟨listed, under, ?_⟩
    rintro same
    simp [same] at longer
  · rintro ⟨listed, ⟨rest, same⟩, other⟩
    refine ⟨listed, ⟨rest, same⟩, ?_⟩
    have : rest ≠ [] := by
      rintro rfl
      exact other (by simpa using same.symm)
    have := List.length_pos_iff.mpr this
    simp only [← same, List.length_append]
    omega

theorem mem_inside_path {q : DiskPath} :
    q ∈ (d.inside path).map (·.1) ↔ d.look q ≠ none ∧ path <+: q ∧ q ≠ path := by
  simp only [List.mem_map, mem_inside]
  constructor
  · rintro ⟨⟨q, node⟩, ⟨listed, under, other⟩, rfl⟩
    have inner : q ≠ [] := by
      rintro rfl
      exact other (List.prefix_nil.mp under).symm
    exact ⟨by simp [(look_eq_some_iff inner).mpr listed], under, other⟩
  · rintro ⟨stands, under, other⟩
    have inner : q ≠ [] := by
      rintro rfl
      exact other (List.prefix_nil.mp under).symm
    obtain ⟨node, look⟩ := Option.ne_none_iff_exists'.mp stands
    exact ⟨(q, node), ⟨(look_eq_some_iff inner).mp look, under, other⟩, rfl⟩

theorem remove_in_order {entries : List (DiskPath × Node)}
    (stand : ∀ e ∈ entries, e.1 ≠ [] ∧ d.look e.1 = some e.2)
    (ordered : entries.Pairwise fun a b => b.1.length ≤ a.1.length ∧ a.1 ≠ b.1)
    (closed : ∀ e ∈ entries, ∀ q, e.1 <+: q → q ≠ e.1 → d.look q ≠ none →
      q ∈ entries.map (·.1)) :
    Step.AllFit d (entries.map removalOf) ∧
      ∀ q, (Step.applyAll d (entries.map removalOf)).look q =
        if q ∈ entries.map (·.1) then none else d.look q := by
  induction entries generalizing d with
  | nil => exact ⟨trivial, by simp⟩
  | cons head rest ih =>
    obtain ⟨path, node⟩ := head
    obtain ⟨first, later⟩ := List.pairwise_cons.mp ordered
    obtain ⟨real, stands⟩ := stand _ List.mem_cons_self
    have fits : (removalOf (path, node)).Fits d := by
      cases node with
      | dir =>
        refine ⟨real, stands, fun q under other => ?_⟩
        by_contra present
        have member := closed _ List.mem_cons_self q under other present
        simp only [List.map_cons, List.mem_cons, other, false_or, List.mem_map] at member
        obtain ⟨e, member, rfl⟩ := member
        have short := (first e member).1
        exact other (under.eq_of_length_le short).symm
      | file content mode => exact ⟨_, stands, by simp⟩
      | link target => exact ⟨_, stands, by simp⟩
    have erased : (removalOf (path, node)).apply d = d.erase path := by cases node <;> rfl
    have after : ∀ q, ((removalOf (path, node)).apply d).look q
        = if q = path then none else d.look q := by
      intro q
      rw [erased, look_erase real]
    obtain ⟨fit, look⟩ := ih (d := (removalOf (path, node)).apply d)
      (fun e member => by
        obtain ⟨inner, found⟩ := stand e (List.mem_cons_of_mem _ member)
        exact ⟨inner, by rw [after, if_neg (first e member).2.symm, found]⟩)
      later
      (fun e member q under other present => by
        rw [after] at present
        split at present
        · exact absurd rfl present
        · rename_i different
          have := closed e (List.mem_cons_of_mem _ member) q under other present
          simpa [different] using this)
    refine ⟨⟨fits, fit⟩, fun q => ?_⟩
    rw [List.map_cons, Step.applyAll_cons, look, after]
    simp only [List.map_cons, List.mem_cons]
    by_cases here : q = path <;> by_cases there : q ∈ rest.map (·.1) <;> simp [here, there]

def removed (d : Disk) (path : DiskPath) : List (DiskPath × Node) :=
  ((d.inside path).mergeSort fun a b => b.1.length ≤ a.1.length) ++ [(path, .dir)]

theorem look_removal {entries : List (DiskPath × Node)} (real : ∀ e ∈ entries, e.1 ≠ [])
    (q : DiskPath) :
    (Step.applyAll d (entries.map removalOf)).look q = d.look q ∨
      (q ∈ entries.map (·.1) ∧ (Step.applyAll d (entries.map removalOf)).look q = none) := by
  induction entries generalizing d with
  | nil => exact .inl rfl
  | cons head rest ih =>
    have erased : (removalOf head).apply d = d.erase head.1 := by
      unfold removalOf
      cases head.2 <;> rfl
    rw [List.map_cons, Step.applyAll_cons, erased, List.map_cons]
    rcases ih (d := d.erase head.1) (fun e member => real e (List.mem_cons_of_mem _ member))
      with same | ⟨member, gone⟩
    · rw [same, look_erase (real head (by simp))]
      by_cases here : q = head.1
      · exact .inr ⟨by simp [here], by simp [here]⟩
      · exact .inl (by simp [here])
    · exact .inr ⟨List.mem_cons_of_mem _ member, gone⟩

theorem removalSteps_eq : d.removalSteps path = (d.removed path).map removalOf := by
  simp [removalSteps, removed, removalOf]

theorem mem_removed (stands : d.look path = some .dir) (q : DiskPath) :
    q ∈ (d.removed path).map (·.1) ↔ d.look q ≠ none ∧ path <+: q := by
  simp only [removed, List.map_append, List.mem_append, List.map_cons, List.map_nil,
    List.mem_singleton]
  rw [((List.mergeSort_perm _ _).map _).mem_iff, mem_inside_path]
  by_cases here : q = path
  · simp [here, stands]
  · simp [here]

theorem removalSteps_spec (real : path ≠ []) (stands : d.look path = some .dir) :
    Step.AllFit d (d.removalSteps path) ∧
      ∀ q, (Step.applyAll d (d.removalSteps path)).look q =
        if path <+: q then none else d.look q := by
  rw [removalSteps_eq]
  have perm := List.mergeSort_perm (d.inside path) (fun a b => b.1.length ≤ a.1.length)
  have spec := @remove_in_order d (d.removed path) ?_ ?_ ?_
  · refine ⟨spec.1, fun q => ?_⟩
    simp only [spec.2, mem_removed stands]
    by_cases under : path <+: q
    · by_cases free : d.look q = none <;> simp [under, free]
    · simp [under]
  · intro e member
    simp only [removed, List.mem_append, List.mem_singleton, perm.mem_iff] at member
    rcases member with member | rfl
    · obtain ⟨listed, under, other⟩ := mem_inside.mp member
      have inner : e.1 ≠ [] := by
        intro none
        rw [none] at under other
        exact other (List.prefix_nil.mp under).symm
      exact ⟨inner, (look_eq_some_iff inner).mpr listed⟩
    · exact ⟨real, stands⟩
  · rw [removed, List.pairwise_append]
    refine ⟨?_, List.pairwise_singleton _ _, ?_⟩
    · have sorted := @List.pairwise_mergeSort _ (fun a b : DiskPath × Node =>
        decide (b.1.length ≤ a.1.length)) (by simp; omega) (by simp; omega) (d.inside path)
      have apart : ((d.inside path).mergeSort fun a b => b.1.length ≤ a.1.length).Pairwise
          fun a b => a.1 ≠ b.1 := by
        have nodup := (List.filter_sublist (p := fun entry : DiskPath × Node =>
          path.isPrefixOf entry.1 && path.length < entry.1.length) (l := d.nodes)).map (·.1)
            |>.nodup d.distinct
        exact List.pairwise_map.mp ((perm.map _).nodup_iff.mpr nodup)
      refine (sorted.and apart).imp ?_
      intro a b both
      simpa using both
    · intro e member last here
      rw [List.mem_singleton.mp here]
      rw [perm.mem_iff, mem_inside] at member
      exact ⟨member.2.1.length_le, member.2.2⟩
  · intro e member q under other present
    rw [mem_removed stands]
    refine ⟨present, ?_⟩
    have := (mem_removed stands e.1).mp (List.mem_map_of_mem member)
    exact this.2.trans under

theorem look_removalSteps_take (real : path ≠ []) (stands : d.look path = some .dir) (n : Nat)
    (q : DiskPath) :
    (Step.applyAll d ((d.removalSteps path).take n)).look q = d.look q ∨
      (path <+: q ∧ (Step.applyAll d ((d.removalSteps path).take n)).look q = none) := by
  have under : ∀ e ∈ (d.removed path).take n, path <+: e.1 := fun e member =>
    ((mem_removed stands e.1).mp (List.mem_map_of_mem (List.mem_of_mem_take member))).2
  have inner : ∀ e ∈ (d.removed path).take n, e.1 ≠ [] := by
    intro e member top
    have := under e member
    rw [top] at this
    exact real (List.prefix_nil.mp this)
  rw [removalSteps_eq, ← List.map_take]
  rcases look_removal inner q with same | ⟨member, gone⟩
  · exact .inl same
  · obtain ⟨e, listed, rfl⟩ := List.mem_map.mp member
    exact .inr ⟨under e listed, gone⟩

end Disk

end PinnedTree
