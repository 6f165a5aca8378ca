import Mathlib.Data.List.Basic
import Mathlib.Data.List.Induction
import Mathlib.Data.List.Pairwise
import Mathlib.Tactic.ByContra
import PinnedTree.Path.Part
import PinnedTree.Plan

namespace PinnedTree.Path

namespace Part

theorem before_iff {a b : Part} : a.before b = true ↔
    (∃ x y, a = .name x ∧ b = .name y ∧ x < y) ∨ a.kindRank < b.kindRank := by
  cases a with
  | name x =>
    cases b with
    | name y =>
      refine decide_eq_true_iff.trans ⟨fun less => .inl ⟨x, y, rfl, rfl, less⟩, ?_⟩
      rintro (⟨_, _, ⟨rfl⟩, ⟨rfl⟩, less⟩ | impossible)
      · exact less
      · exact absurd impossible (Nat.lt_irrefl _)
    | _ => simp [before]
  | _ => cases b <;> simp [before]

theorem kindRank_of_not_before {a b : Part} (one : ¬ a.before b = true) (two : ¬ b.before a = true) :
    a.kindRank = b.kindRank := by
  simp only [before_iff, not_or] at one two
  omega

theorem before_total {a b : Part} (other : a ≠ b) : a.before b = true ∨ b.before a = true := by
  by_contra neither
  obtain ⟨one, two⟩ := not_or.mp neither
  have same := kindRank_of_not_before one two
  cases a with
  | name x =>
    cases b with
    | name y =>
      have notLess : ¬ x < y := fun less => one (before_iff.mpr (.inl ⟨x, y, rfl, rfl, less⟩))
      have notMore : ¬ y < x := fun less => two (before_iff.mpr (.inl ⟨y, x, rfl, rfl, less⟩))
      exact other (congrArg name
        (String.le_antisymm (String.not_lt.mp notMore) (String.not_lt.mp notLess)))
    | _ => simp [kindRank] at same
  | _ => cases b <;> simp [kindRank] at same other

theorem before_trans {a b c : Part} (first : a.before b = true) (second : b.before c = true) :
    a.before c = true := by
  rw [before_iff] at first second ⊢
  rcases first with ⟨x, y, rfl, rfl, less⟩ | lower
  · rcases second with ⟨_, z, ⟨rfl⟩, rfl, more⟩ | lower
    · exact .inl ⟨x, z, rfl, rfl, String.lt_trans less more⟩
    · exact .inr lower
  · rcases second with ⟨_, z, rfl, rfl, -⟩ | higher
    · exact .inr lower
    · exact .inr (Nat.lt_trans lower higher)

theorem before_asymm {a b : Part} (less : a.before b = true) : ¬ b.before a = true := by
  rw [before_iff] at less ⊢
  rcases less with ⟨x, y, rfl, rfl, less⟩ | lower
  · rintro (⟨_, _, ⟨rfl⟩, ⟨rfl⟩, more⟩ | impossible)
    · exact String.lt_asymm less more
    · exact Nat.lt_irrefl _ impossible
  · rintro (⟨_, _, rfl, rfl, -⟩ | higher)
    · exact Nat.lt_irrefl _ lower
    · omega

end Part

theorem notAfter_total (first second : List Part) :
    (notAfter first second || notAfter second first) = true := by
  induction first generalizing second with
  | nil => simp [notAfter]
  | cons a as ih =>
    cases second with
    | nil => simp [notAfter]
    | cons b bs =>
      by_cases same : a = b
      · subst same
        simpa [notAfter] using ih bs
      · simp only [notAfter, same, Ne.symm same, if_false, Bool.or_eq_true]
        exact Part.before_total same

theorem notAfter_trans (first second third : List Part) (one : notAfter first second = true)
    (two : notAfter second third = true) : notAfter first third = true := by
  induction first generalizing second third with
  | nil => simp [notAfter]
  | cons a as ih =>
    cases second with
    | nil => simp [notAfter] at one
    | cons b bs =>
      cases third with
      | nil => simp [notAfter] at two
      | cons c cs =>
        simp only [notAfter] at one two ⊢
        split at one
        · rename_i same
          subst same
          split at two
          · rename_i same
            subst same
            simpa using ih _ _ one two
          · rename_i other
            simpa [other] using two
        · rename_i other
          split at two
          · rename_i same
            subst same
            simpa [other] using one
          · have less := Part.before_trans one two
            have apart : a ≠ c := fun same => Part.before_asymm one (same ▸ two)
            simpa [apart] using less

theorem notAfter_append (path : List Part) {rest : List Part} (inner : rest ≠ []) :
    notAfter (path ++ rest) path = false := by
  induction path with
  | nil =>
    obtain ⟨a, as, rfl⟩ := List.exists_cons_of_ne_nil inner
    rfl
  | cons a as ih => simpa [notAfter] using ih

theorem notAfter_append_left (parent first second : List Part) :
    notAfter (parent ++ first) (parent ++ second) = notAfter first second := by
  induction parent with
  | nil => rfl
  | cons a as ih => simpa [notAfter] using ih

variable {α : Type} {key : α → Part}

def keep (key : α → Part) (depth : Nat) (kept : List (List α)) (path : List α) : List (List α) :=
  let rest := path.drop depth
  if kept.any fun k => (k.map key).isPrefixOf (rest.map key) then kept else kept ++ [rest]

/-- What has been kept of some paths: none of them twice, and none inside an earlier one. -/
structure KeptOf (key : α → Part) (rests kept : List (List α)) : Prop where
  listed : kept.Sublist rests
  apart : kept.Pairwise fun a b => ¬ a.map key <+: b.map key
  covers : ∀ rest ∈ rests, ∃ k ∈ kept, k.map key <+: rest.map key

theorem KeptOf.keep {rests kept : List (List α)} (so_far : KeptOf key rests kept) (depth : Nat)
    (path : List α) :
    KeptOf key (rests ++ [path.drop depth]) (Path.keep key depth kept path) := by
  unfold Path.keep
  dsimp only
  split
  · rename_i covered
    obtain ⟨k, member, under⟩ := List.any_eq_true.mp covered
    refine ⟨so_far.listed.trans (List.sublist_append_left _ _), so_far.apart, ?_⟩
    intro rest listed
    rcases List.mem_append.mp listed with listed | last
    · exact so_far.covers rest listed
    · exact ⟨k, member, List.mem_singleton.mp last ▸ List.isPrefixOf_iff_prefix.mp under⟩
  · rename_i free
    refine ⟨so_far.listed.append (List.Sublist.refl _), ?_, ?_⟩
    · rw [List.pairwise_append]
      refine ⟨so_far.apart, List.pairwise_singleton _ _, fun a member b last under => ?_⟩
      rw [List.mem_singleton.mp last] at under
      exact free (List.any_eq_true.mpr ⟨a, member, List.isPrefixOf_iff_prefix.mpr under⟩)
    · intro rest listed
      rcases List.mem_append.mp listed with listed | last
      · obtain ⟨k, member, under⟩ := so_far.covers rest listed
        exact ⟨k, List.mem_append_left _ member, under⟩
      · rw [List.mem_singleton.mp last]
        exact ⟨_, List.mem_append_right _ List.mem_cons_self, List.prefix_refl _⟩

theorem keptOf_foldl (key : α → Part) (depth : Nat) (paths : List (List α)) :
    KeptOf key (paths.map (·.drop depth)) (paths.foldl (keep key depth) []) := by
  induction paths using List.reverseRecOn with
  | nil => exact ⟨List.Sublist.refl _, List.Pairwise.nil, by simp⟩
  | append_singleton paths path ih =>
    rw [List.foldl_append, List.map_append]
    exact ih.keep depth path

def insideSorted (key : α → Part) (parent : List Part) (all : List (List α)) : List (List α) :=
  (all.filter fun path => parent.isPrefixOf (path.map key) && path.map key != parent).mergeSort
    fun a b => notAfter (a.map key) (b.map key)

theorem topmostInside_eq (parent : List Part) (all : List (List α)) :
    topmostInside key parent all
      = (insideSorted key parent all).foldl (keep key parent.length) [] := rfl

theorem mem_insideSorted {parent : List Part} {all : List (List α)} {path : List α} :
    path ∈ insideSorted key parent all ↔
      path ∈ all ∧ parent <+: path.map key ∧ path.map key ≠ parent := by
  simp [insideSorted, List.mem_mergeSort]

theorem insideSorted_sorted (parent : List Part) (all : List (List α)) :
    (insideSorted key parent all).Pairwise fun a b => notAfter (a.map key) (b.map key) = true :=
  List.pairwise_mergeSort (fun a b c => notAfter_trans (a.map key) (b.map key) (c.map key))
    (fun a b => notAfter_total (a.map key) (b.map key)) _

theorem map_drop_of_mem {parent : List Part} {all : List (List α)} {path : List α}
    (member : path ∈ insideSorted key parent all) :
    path.map key = parent ++ (path.drop parent.length).map key ∧ path.drop parent.length ≠ [] := by
  obtain ⟨-, under, other⟩ := mem_insideSorted.mp member
  have whole := (List.prefix_iff_eq_append.mp under).symm
  rw [← List.map_drop] at whole
  refine ⟨whole, fun none => other ?_⟩
  rw [whole, none]
  simp

theorem notAfter_topmostInside (parent : List Part) (all : List (List α)) :
    (topmostInside key parent all).Pairwise fun a b =>
      notAfter (a.map key) (b.map key) = true ∧ ¬ a.map key <+: b.map key := by
  have kept := keptOf_foldl key parent.length (insideSorted key parent all)
  rw [← topmostInside_eq] at kept
  refine List.Pairwise.and ?_ kept.apart
  refine List.Pairwise.sublist kept.listed (List.pairwise_map.mpr ?_)
  refine (insideSorted_sorted parent all).imp_of_mem fun {a b} memberA memberB sorted => ?_
  rwa [(map_drop_of_mem memberA).1, (map_drop_of_mem memberB).1, notAfter_append_left] at sorted

theorem mem_topmostInside {parent : List Part} {all : List (List α)} {c : List α}
    (member : c ∈ topmostInside key parent all) :
    c ≠ [] ∧ ∃ path ∈ all, path.map key = parent ++ c.map key ∧ c = path.drop parent.length := by
  have kept := keptOf_foldl key parent.length (insideSorted key parent all)
  rw [← topmostInside_eq] at kept
  obtain ⟨path, listed, rfl⟩ := List.mem_map.mp (kept.listed.subset member)
  obtain ⟨whole, inner⟩ := map_drop_of_mem listed
  exact ⟨inner, path, (mem_insideSorted.mp listed).1, whole, rfl⟩

theorem topmostInside_covers {parent : List Part} {all : List (List α)} {path : List α}
    (member : path ∈ insideSorted key parent all) :
    ∃ c ∈ topmostInside key parent all, c.map key <+: (path.drop parent.length).map key := by
  have kept := keptOf_foldl key parent.length (insideSorted key parent all)
  rw [← topmostInside_eq] at kept
  exact kept.covers _ (List.mem_map_of_mem member)

theorem keys_topmostInside_apart (parent : List Part) (all : List (List α)) :
    (topmostInside key parent all).Pairwise fun a b =>
      ¬ a.map key <+: b.map key ∧ ¬ b.map key <+: a.map key := by
  refine (notAfter_topmostInside parent all).imp ?_
  rintro a b ⟨sorted, apart⟩
  refine ⟨apart, fun under => ?_⟩
  obtain ⟨rest, whole⟩ := under
  by_cases inner : rest = []
  · exact apart (by simp [← whole, inner])
  · rw [← whole, notAfter_append _ inner] at sorted
    cases sorted

theorem topmostInside_apart (key : α → Part) (parent : List Part) (all : List (List α)) :
    (topmostInside key parent all).Pairwise fun a b => ¬ a <+: b ∧ ¬ b <+: a :=
  (keys_topmostInside_apart parent all).imp fun apart =>
    ⟨fun under => apart.1 (under.map key), fun under => apart.2 (under.map key)⟩

end PinnedTree.Path

namespace PinnedTree.Destination

open PinnedTree.Path

variable {outer inner : Destination} {all : List Destination} {c rest : List String}

theorem name_injective : Function.Injective Part.name := fun _ _ same => Part.name.inj same

theorem mem_nestedIn (member : c ∈ outer.nestedIn all) :
    c ≠ [] ∧ ∃ inner ∈ all, inner.names = outer.names ++ c := by
  obtain ⟨filled, path, listed, whole, -⟩ := mem_topmostInside member
  obtain ⟨inner, member, rfl⟩ := List.mem_map.mp listed
  rw [← List.map_append] at whole
  exact ⟨filled, inner, member, List.map_injective_iff.mpr name_injective whole⟩

theorem nestedIn_plain (member : c ∈ outer.nestedIn all) : ∀ name ∈ c, IsName name := by
  obtain ⟨-, inner, -, whole⟩ := mem_nestedIn member
  intro name named
  exact inner.plain name (whole ▸ List.mem_append_right _ named)

theorem nestedIn_apart (outer : Destination) (all : List Destination) :
    (outer.nestedIn all).Pairwise fun a b => ¬ a <+: b ∧ ¬ b <+: a := topmostInside_apart _ _ _

theorem nestedIn_nodup (outer : Destination) (all : List Destination) :
    (outer.nestedIn all).Nodup :=
  (nestedIn_apart outer all).imp fun apart => by
    rintro rfl
    exact apart.1 (List.prefix_refl _)

theorem nestedIn_ne {a b : List String} (memberA : a ∈ outer.nestedIn all)
    (memberB : b ∈ outer.nestedIn all) (other : a ≠ b) : ¬ a <+: b ∧ ¬ b <+: a :=
  have : Std.Symm fun a b : List String => ¬ a <+: b ∧ ¬ b <+: a := ⟨fun _ _ apart => apart.symm⟩
  (nestedIn_apart outer all).forall memberA memberB other

theorem nestedIn_covers (listed : inner ∈ all) (whole : inner.names = outer.names ++ rest)
    (filled : rest ≠ []) : ∃ c ∈ outer.nestedIn all, c <+: rest := by
  have member : inner.names ∈ insideSorted Part.name (outer.names.map .name)
      (all.map (·.names)) := by
    rw [mem_insideSorted]
    refine ⟨List.mem_map_of_mem listed, ?_, ?_⟩
    · simp [whole]
    · simp [whole, filled]
  obtain ⟨c, kept, under⟩ := topmostInside_covers member
  refine ⟨c, kept, ?_⟩
  rw [List.length_map, whole, List.drop_left] at under
  exact (List.prefix_map_iff_of_injective name_injective).mp under

end PinnedTree.Destination
