import Mathlib.Data.List.Lex
import Mathlib.Data.List.Sort
import PinnedTree.Proofs.Path.Nested
import PinnedTree.Proofs.Path.Parts

namespace PinnedTree.Path

instance : Std.Asymm fun a b : Part => a.before b = true := ⟨fun _ _ => Part.before_asymm⟩

abbrev Precedes : List Part → List Part → Prop := List.Lex fun a b => a.before b = true

theorem precedes_of_notAfter {a b : List Part} (sorted : notAfter a b = true) (other : a ≠ b) :
    Precedes a b := by
  induction a generalizing b with
  | nil =>
    obtain ⟨_, _, rfl⟩ := List.exists_cons_of_ne_nil other.symm
    exact .nil
  | cons a as ih =>
    cases b with
    | nil => cases sorted
    | cons b bs =>
      rw [notAfter] at sorted
      split at sorted
      · rename_i same
        subst same
        exact .cons (ih sorted fun same => other (same ▸ rfl))
      · exact .rel sorted

variable {α : Type} {key : α → Part} {parent : List Part} {all : List (List α)} {c : List Part}

def topmost (key : α → Part) (parent : List Part) (all : List (List α)) : List (List Part) :=
  (topmostInside key parent all).map (·.map key)

theorem topmost_precedes (key : α → Part) (parent : List Part) (all : List (List α)) :
    (topmost key parent all).Pairwise fun a b => Precedes a b ∧ ¬ a <+: b ∧ ¬ b <+: a := by
  refine List.pairwise_map.mpr (((notAfter_topmostInside parent all).and
    (keys_topmostInside_apart parent all)).imp ?_)
  rintro a b ⟨⟨sorted, -⟩, apart⟩
  exact ⟨precedes_of_notAfter sorted fun same => apart.1 (same ▸ List.prefix_refl _), apart⟩

theorem topmost_covers {rest : List Part} (listed : parent ++ rest ∈ all.map (·.map key))
    (filled : rest ≠ []) : ∃ c ∈ topmost key parent all, c <+: rest := by
  obtain ⟨path, member, whole⟩ := List.mem_map.mp listed
  have inside : path ∈ insideSorted key parent all :=
    mem_insideSorted.mpr ⟨member, by simp [whole], by simpa [whole] using filled⟩
  obtain ⟨c, kept, under⟩ := topmostInside_covers inside
  rw [List.map_drop, whole, List.drop_left] at under
  exact ⟨_, List.mem_map_of_mem kept, under⟩

theorem eq_of_prefix {a b : List Part} (memberA : a ∈ topmost key parent all)
    (memberB : b ∈ topmost key parent all) (under : a <+: b) : a = b := by
  by_contra other
  have : Std.Symm fun a b : List Part => ¬ a <+: b ∧ ¬ b <+: a := ⟨fun _ _ apart => apart.symm⟩
  exact (((topmost_precedes key parent all).imp And.right).forall memberA memberB other).1 under

theorem mem_topmost : c ∈ topmost key parent all ↔ c ≠ [] ∧ parent ++ c ∈ all.map (·.map key) ∧
    ∀ inner, inner ≠ [] → inner <+: c → parent ++ inner ∈ all.map (·.map key) → inner = c := by
  have listed : ∀ {c}, c ∈ topmost key parent all →
      c ≠ [] ∧ parent ++ c ∈ all.map (·.map key) := by
    intro c member
    obtain ⟨c, kept, rfl⟩ := List.mem_map.mp member
    obtain ⟨filled, path, there, whole, -⟩ := mem_topmostInside kept
    exact ⟨by simpa using filled, whole ▸ List.mem_map_of_mem there⟩
  constructor
  · intro member
    refine ⟨(listed member).1, (listed member).2, fun inner filled under there => ?_⟩
    obtain ⟨d, kept, above⟩ := topmost_covers there filled
    obtain rfl := eq_of_prefix kept member (above.trans under)
    exact under.eq_of_length_le above.length_le
  · rintro ⟨filled, there, lowest⟩
    obtain ⟨d, kept, under⟩ := topmost_covers there filled
    rw [← lowest d (listed kept).1 under (listed kept).2]
    exact kept

theorem topmost_congr {β : Type} {key' : β → Part} {other : List (List β)}
    (same : ∀ path, path ∈ other.map (·.map key') ↔ path ∈ all.map (·.map key)) :
    topmost key' parent other = topmost key parent all := by
  refine ((topmost_precedes key' parent other).imp And.left).eq_of_mem_iff
    ((topmost_precedes key parent all).imp And.left) fun c => ?_
  simp only [mem_topmost, same]

theorem parts_of_parse (texts : List String) :
    (texts.map Spelling.parse).map (·.map (·.part)) = texts.map parts := List.map_map

theorem parts_directChildren (parent : String) (texts : List String) :
    (directChildren parent texts).map parts
      = topmost (·.part) (parts parent) (texts.map Spelling.parse) := by
  rw [directChildren, topmost, List.map_map]
  refine List.map_congr_left fun c kept => ?_
  obtain ⟨-, path, listed, -, rfl⟩ := mem_topmostInside kept
  obtain ⟨text, -, rfl⟩ := List.mem_map.mp listed
  rw [Function.comp_apply, parts_drop, List.map_drop, map_part_parse]

/-- The children of a parent are in order, and none of them lies in another. Joined to the parent each
of them is a listed path, and what is listed strictly inside the parent lies in exactly one of them.
They are the same, but for their spelling, for every list of the same paths. -/
theorem directChildren_topmost (parent : String) (texts : List String) :
    ((directChildren parent texts).Pairwise fun a b =>
      Precedes (parts a) (parts b) ∧ ¬ parts a <+: parts b ∧ ¬ parts b <+: parts a) ∧
    (∀ child ∈ directChildren parent texts, parts child ≠ [] ∧ ∃ path ∈ texts,
      parts path = parts parent ++ parts child ∧
      parts ((Location.ofText parent).join child).text = parts path) ∧
    (∀ path ∈ texts, ∀ rest, rest ≠ [] → parts path = parts parent ++ rest →
      ∃! child, child ∈ directChildren parent texts ∧ parts child <+: rest) ∧
    ∀ others : List String, (∀ path, path ∈ others.map parts ↔ path ∈ texts.map parts) →
      (directChildren parent others).map parts = (directChildren parent texts).map parts := by
  have same := parts_directChildren parent texts
  have ordered : (directChildren parent texts).Pairwise fun a b =>
      Precedes (parts a) (parts b) ∧ ¬ parts a <+: parts b ∧ ¬ parts b <+: parts a :=
    List.pairwise_map.mp (same ▸ topmost_precedes _ _ _)
  refine ⟨ordered, fun child member => ?_, fun path listed rest filled whole => ?_, fun others alike => ?_⟩
  · obtain ⟨c, kept, rfl⟩ := List.mem_map.mp member
    obtain ⟨filled, spelled, listed, whole, rfl⟩ := mem_topmostInside kept
    obtain ⟨path, there, rfl⟩ := List.mem_map.mp listed
    rw [List.map_drop, map_part_parse] at whole
    have inner : (parts path).drop (parts parent).length ≠ [] := by
      rw [← map_part_parse path, ← List.map_drop]
      exact mt List.map_eq_nil_iff.mp filled
    rw [parts_drop]
    exact ⟨inner, path, there, whole, (parts_join_drop parent path inner).trans whole.symm⟩
  · have listed : parts parent ++ rest ∈ (texts.map Spelling.parse).map (·.map (·.part)) := by
      rw [parts_of_parse, ← whole]
      exact List.mem_map_of_mem listed
    obtain ⟨c, kept, under⟩ := topmost_covers listed filled
    obtain ⟨child, member, rfl⟩ := List.mem_map.mp (same ▸ kept)
    refine ⟨child, ⟨member, under⟩, fun other ⟨member', under'⟩ => ?_⟩
    by_contra differ
    have : Std.Symm fun a b : String => ¬ parts a <+: parts b ∧ ¬ parts b <+: parts a :=
      ⟨fun _ _ apart => apart.symm⟩
    have apart := (ordered.imp And.right).forall member' member differ
    exact (List.prefix_or_prefix_of_prefix under' under).elim apart.1 apart.2
  · rw [same, parts_directChildren]
    exact topmost_congr (by simpa only [parts_of_parse] using alike)

example : directChildren "a" ["a/b-c", "a/b/d", "a", "./a/x", "a//b/."] = ["b", "b-c"] := by
  cbv

end PinnedTree.Path
