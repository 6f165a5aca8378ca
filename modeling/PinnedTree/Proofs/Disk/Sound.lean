import Mathlib.Data.List.Induction
import Mathlib.Tactic.ByContra
import PinnedTree.Destination
import PinnedTree.Disk.Look
import PinnedTree.Disk.Step

namespace PinnedTree

namespace Disk

def Holds (d : Disk) (p : DiskPath) : Prop :=
  ∃ dir name, p = dir ++ [name] ∧ IsName name ∧ d.look dir = some .dir

def Sound (d : Disk) : Prop := ∀ p, p ≠ [] → d.look p ≠ none → d.Holds p

theorem Holds.ne_nil {d : Disk} {p : DiskPath} (held : d.Holds p) : p ≠ [] := by
  obtain ⟨dir, name, rfl, -, -⟩ := held
  simp

theorem Holds.congr {d e : Disk} {p : DiskPath} (held : d.Holds p)
    (keeps : ∀ dir name, p = dir ++ [name] → d.look dir = some .dir → e.look dir = some .dir) :
    e.Holds p := by
  obtain ⟨dir, name, rfl, plain, stands⟩ := held
  exact ⟨dir, name, rfl, plain, keeps dir name rfl stands⟩

theorem sound_iff {d : Disk} : d.Sound ↔ ∀ entry ∈ d.nodes, entry.1 ≠ [] →
    d.look entry.1.dropLast = some .dir ∧ ∀ name ∈ entry.1.getLast?, IsName name := by
  constructor
  · intro sound entry member inner
    obtain ⟨dir, name, same, plain, isDir⟩ := sound entry.1 inner
      (by simp [(look_eq_some_iff inner).mpr member])
    simp [same, isDir, plain]
  · intro entries p inner stands
    obtain ⟨node, look⟩ := Option.ne_none_iff_exists'.mp stands
    obtain ⟨isDir, plain⟩ := entries (p, node) ((look_eq_some_iff inner).mp look) inner
    refine ⟨p.dropLast, p.getLast inner, (List.dropLast_concat_getLast inner).symm, ?_, isDir⟩
    exact plain _ (List.getLast?_eq_some_getLast inner)

instance (d : Disk) : Decidable d.Sound := decidable_of_iff _ sound_iff.symm

theorem Sound.parent {d : Disk} (sound : d.Sound) {dir : DiskPath} {name : String}
    (stands : d.look (dir ++ [name]) ≠ none) : d.look dir = some .dir ∧ IsName name := by
  obtain ⟨dir', name', same, plain, isDir⟩ := sound _ (by simp) stands
  obtain ⟨rfl, last⟩ := List.append_inj' same rfl
  cases last
  exact ⟨isDir, plain⟩

theorem Sound.above {d : Disk} (sound : d.Sound) {p rest : DiskPath} (inner : rest ≠ [])
    (stands : d.look (p ++ rest) ≠ none) : d.look p = some .dir := by
  induction rest using List.reverseRecOn with
  | nil => exact absurd rfl inner
  | append_singleton rest name ih =>
    rw [← List.append_assoc] at stands
    have held := (sound.parent stands).1
    cases rest with
    | nil => simpa using held
    | cons a more => exact ih (by simp) (by simp [held])

theorem Sound.none_below {d : Disk} (sound : d.Sound) {p rest : DiskPath}
    (free : d.look p = none) : d.look (p ++ rest) = none := by
  cases rest with
  | nil => simpa using free
  | cons a more =>
    by_contra stands
    have held := sound.above (by simp) stands
    simp [free] at held

theorem Sound.none_inside {d : Disk} (sound : d.Sound) {p rest : DiskPath}
    (leaf : d.look p ≠ some .dir) (inner : rest ≠ []) : d.look (p ++ rest) = none := by
  by_contra stands
  exact leaf (sound.above inner stands)

theorem Sound.none_under {d : Disk} (sound : d.Sound) {p q : DiskPath}
    (free : d.look p = none) (under : p <+: q) : d.look q = none := by
  obtain ⟨rest, rfl⟩ := under
  exact sound.none_below free

theorem Sound.isName {d : Disk} (sound : d.Sound) {p : DiskPath} (stands : d.look p ≠ none) :
    ∀ name ∈ p, IsName name := by
  induction p using List.reverseRecOn with
  | nil => simp
  | append_singleton dir last ih =>
    obtain ⟨isDir, plain⟩ := sound.parent stands
    intro name member
    rcases List.mem_append.mp member with member | member
    · exact ih (by simp [isDir]) name member
    · rw [List.mem_singleton.mp member]
      exact plain

end Disk

namespace Step

def Fits (d : Disk) : Step → Prop
  | .makeDir path | .makeLink path _ => d.look path = none ∧ d.Holds path
  | .create path _ => d.Holds path ∧ ∀ node, d.look path = some node → ∃ c m, node = .file c m
  | .write _ _ | .setMode _ _ => True
  | .unlink path => ∃ node, d.look path = some node ∧ node ≠ .dir
  | .removeDir path =>
    path ≠ [] ∧ d.look path = some .dir ∧ ∀ q, path <+: q → q ≠ path → d.look q = none
  | .rename source target =>
    source ≠ [] ∧ ¬ source <+: target ∧ d.Holds target ∧ ∃ node, d.look source = some node ∧
      ∀ old, d.look target = some old →
        (node ≠ .dir ∧ old ≠ .dir) ∨
        (node = .dir ∧ old = .dir ∧ ∀ q, target <+: q → q ≠ target → d.look q = none)

def AllFit : Disk → List Step → Prop
  | _, [] => True
  | d, step :: rest => step.Fits d ∧ AllFit (step.apply d) rest

@[simp] theorem applyAll_nil (d : Disk) : applyAll d [] = d := rfl

@[simp] theorem applyAll_cons (d : Disk) (step : Step) (rest : List Step) :
    applyAll d (step :: rest) = applyAll (step.apply d) rest := rfl

theorem applyAll_append (d : Disk) (first second : List Step) :
    applyAll d (first ++ second) = applyAll (applyAll d first) second :=
  List.foldl_append

theorem allFit_append {d : Disk} {first second : List Step} :
    AllFit d (first ++ second) ↔ AllFit d first ∧ AllFit (applyAll d first) second := by
  induction first generalizing d with
  | nil => simp [AllFit]
  | cons step rest ih => simp [AllFit, ih, and_assoc]

theorem look_apply {d : Disk} {step : Step} {p : DiskPath}
    (away : ∀ q ∈ step.touched, q ≠ [] ∧ ¬ q <+: p) : (step.apply d).look p = d.look p := by
  have apart : ∀ q ∈ step.touched, p ≠ q := by
    rintro q member rfl
    exact (away p member).2 (List.prefix_refl p)
  cases step with
  | makeDir path | makeLink path target =>
    rw [apply, Disk.look_put (away path (by simp [touched])).1, if_neg (apart path (by simp [touched]))]
  | create path mode | write path content | setMode path mode =>
    simp only [apply]
    split
    all_goals first
      | rw [Disk.look_put (away path (by simp [touched])).1,
          if_neg (apart path (by simp [touched]))]
      | rfl
  | unlink path | removeDir path =>
    rw [apply, Disk.look_erase (away path (by simp [touched])).1,
      if_neg (apart path (by simp [touched]))]
  | rename source target =>
    rw [apply, Disk.look_move (away source (by simp [touched])).1
      (away target (by simp [touched])).1, if_neg (away target (by simp [touched])).2,
      if_neg (away source (by simp [touched])).2]

private theorem sound_put {d : Disk} {p : DiskPath} {node : Node} (sound : d.Sound)
    (held : d.Holds p) (same : d.look p = some .dir → node = .dir) : (d.put p node).Sound := by
  have keep : ∀ dir, d.look dir = some .dir → (d.put p node).look dir = some .dir := by
    intro dir stands
    rw [Disk.look_put held.ne_nil]
    split
    · rename_i here
      rw [same (here ▸ stands)]
    · exact stands
  intro q inner stands
  rw [Disk.look_put held.ne_nil] at stands
  by_cases here : q = p
  · exact here ▸ held.congr fun dir _ _ => keep dir
  · rw [if_neg here] at stands
    exact (sound q inner stands).congr fun dir _ _ => keep dir

private theorem sound_erase {d : Disk} {p : DiskPath} (sound : d.Sound) (inner : p ≠ [])
    (empty : ∀ q, p <+: q → q ≠ p → d.look q = none) : (d.erase p).Sound := by
  intro q real stands
  rw [Disk.look_erase inner] at stands
  split at stands
  · exact absurd rfl stands
  · apply (sound q real stands).congr
    rintro dir name rfl isDir
    rw [Disk.look_erase inner, if_neg, isDir]
    rintro rfl
    exact stands (empty _ (List.prefix_append _ _) (by simp))

private theorem sound_move {d : Disk} {a b : DiskPath} (sound : d.Sound)
    (fits : Fits d (.rename a b)) : (d.move a b).Sound := by
  obtain ⟨realA, apart, held, node, standsA, replaced⟩ := fits
  have realB := held.ne_nil
  have away : ∀ dir name, ¬ b <+: dir ++ [name] → ¬ a <+: dir ++ [name] →
      d.look dir = some .dir → (d.move a b).look dir = some .dir := by
    intro dir name notB notA isDir
    rw [Disk.look_move realA realB, if_neg (fun under => notB (under.trans (List.prefix_append _ _))),
      if_neg (fun under => notA (under.trans (List.prefix_append _ _))), isDir]
  intro q real stands
  rw [Disk.look_move realA realB] at stands
  by_cases underB : b <+: q
  · obtain ⟨rest, rfl⟩ := underB
    simp only [List.prefix_append, if_true, List.drop_left] at stands
    cases rest using List.reverseRecOn with
    | nil =>
      simp only [List.append_nil]
      refine held.congr fun dir name same isDir => ?_
      subst same
      have notA : ¬ a <+: dir := fun under => apart (under.trans (List.prefix_append _ _))
      have notB : ¬ dir ++ [name] <+: dir := fun under => by
        have := under.length_le
        simp only [List.length_append, List.length_singleton] at this
        omega
      rw [Disk.look_move realA realB, if_neg notB, if_neg notA, isDir]
    | append_singleton rest name =>
      split at stands
      · exact absurd rfl stands
      · rename_i notB
        rw [← List.append_assoc] at stands
        obtain ⟨isDir, plain⟩ := sound.parent stands
        refine ⟨b ++ rest, name, by simp, plain, ?_⟩
        rw [Disk.look_move realA realB]
        simp only [List.prefix_append, if_true, List.drop_left]
        rw [if_neg, isDir]
        intro under
        exact notB (under.trans ⟨[name], by simp⟩)
  · rw [if_neg underB] at stands
    split at stands
    · exact absurd rfl stands
    · rename_i notA
      apply (sound q real stands).congr
      rintro dir name rfl isDir
      exact away dir name underB notA isDir

theorem Fits.sound {d : Disk} {step : Step} (fits : step.Fits d) (sound : d.Sound) :
    (step.apply d).Sound := by
  cases step with
  | makeDir path => exact sound_put sound fits.2 (by simp [fits.1])
  | makeLink path target => exact sound_put sound fits.2 (by simp [fits.1])
  | create path mode =>
    obtain ⟨held, kind⟩ := fits
    have file : ∀ node : Node, d.look path = some .dir → node = .dir := by
      intro node isDir
      obtain ⟨_, _, impossible⟩ := kind _ isDir
      cases impossible
    simp only [apply]
    split <;> exact sound_put sound held (file _)
  | write path content | setMode path mode =>
    simp only [apply]
    split
    · rename_i stands
      have real : path ≠ [] := by
        rintro rfl
        simp at stands
      exact sound_put sound (sound path real (by simp [stands])) (by simp [stands])
    · exact sound
  | unlink path =>
    obtain ⟨node, stands, kind⟩ := fits
    have inner : path ≠ [] := by
      rintro rfl
      simp only [Disk.look_top, Option.some.injEq] at stands
      exact kind stands.symm
    apply sound_erase sound inner
    intro q under other
    obtain ⟨rest, rfl⟩ := under
    by_contra below
    have isDir := sound.above (by simpa using other) below
    rw [stands, Option.some.injEq] at isDir
    exact kind isDir
  | removeDir path => exact sound_erase sound fits.1 fits.2.2
  | rename source target => exact sound_move sound fits

theorem AllFit.sound {d : Disk} {steps : List Step} (fit : AllFit d steps) (sound : d.Sound) :
    (applyAll d steps).Sound := by
  induction steps generalizing d with
  | nil => exact sound
  | cons step rest ih => exact ih fit.2 (fit.1.sound sound)

end Step

end PinnedTree
