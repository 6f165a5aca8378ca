import PinnedTree.Disk.Basic

namespace PinnedTree.Disk

@[simp] theorem look_top (d : Disk) : d.look [] = some .dir := rfl

theorem look_eq_some_iff {d : Disk} {p : DiskPath} {node : Node} (inner : p ≠ []) :
    d.look p = some node ↔ (p, node) ∈ d.nodes := by
  have unique := d.distinct
  unfold List.Nodup at unique
  rw [List.pairwise_map] at unique
  simp only [look, inner, if_false, Option.map_eq_some_iff]
  constructor
  · rintro ⟨⟨q, other⟩, found, rfl⟩
    have here : q = p := by simpa using List.find?_some found
    subst here
    exact List.mem_of_find?_eq_some found
  · intro member
    cases found : d.nodes.find? (·.1 = p) with
    | none =>
      rw [List.find?_eq_none] at found
      exact absurd (by simp) (found _ member)
    | some entry =>
      refine ⟨entry, rfl, ?_⟩
      have here : entry.1 = p := by simpa using List.find?_some found
      have listed := List.mem_of_find?_eq_some found
      by_cases same : entry = (p, node)
      · rw [same]
      · exfalso
        have apart : ∀ a ∈ d.nodes, ∀ b ∈ d.nodes, a ≠ b → a.1 ≠ b.1 := by
          intro a ma b mb differ
          rcases List.getElem_of_mem ma with ⟨i, hi, rfl⟩
          rcases List.getElem_of_mem mb with ⟨j, hj, rfl⟩
          rw [List.pairwise_iff_getElem] at unique
          rcases Nat.lt_trichotomy i j with less | equal | more
          · exact unique i j hi hj less
          · subst equal
            exact absurd rfl differ
          · exact (unique j i hj hi more).symm
        exact apart _ listed _ member same here

theorem look_eq_none_iff {d : Disk} {p : DiskPath} (inner : p ≠ []) :
    d.look p = none ↔ ∀ node, (p, node) ∉ d.nodes := by
  rw [Option.eq_none_iff_forall_ne_some]
  simp only [ne_eq, look_eq_some_iff inner]

theorem look_congr {d e : Disk} {p q : DiskPath} (hp : p ≠ []) (hq : q ≠ [])
    (same : ∀ node, (p, node) ∈ d.nodes ↔ (q, node) ∈ e.nodes) : d.look p = e.look q := by
  apply Option.ext
  intro node
  rw [look_eq_some_iff hp, look_eq_some_iff hq]
  exact same node

theorem mem_nodes_put {d : Disk} {p q : DiskPath} {node other : Node} :
    (q, other) ∈ (d.put p node).nodes ↔
      if q = p then other = node else (q, other) ∈ d.nodes := by
  unfold put
  split
  · rename_i held
    obtain ⟨⟨r, old⟩, listed, rfl⟩ := List.mem_map.mp held
    simp only [List.mem_map]
    constructor
    · rintro ⟨entry, member, found⟩
      by_cases here : entry.1 = r
      · simp only [here, if_true, Prod.mk.injEq] at found
        simp [← found.1, found.2]
      · simp only [here, if_false] at found
        subst found
        simpa [here] using member
    · intro stands
      by_cases here : q = r
      · simp only [here, if_true] at stands
        exact ⟨(r, old), listed, by simp [here, stands]⟩
      · simp only [here, if_false] at stands
        exact ⟨(q, other), stands, by simp [here]⟩
  · rename_i free
    simp only [List.mem_append, List.mem_singleton, Prod.mk.injEq]
    by_cases here : q = p
    · subst here
      simp only [if_true, true_and, or_iff_right_iff_imp]
      intro listed
      exact absurd (List.mem_map.mpr ⟨_, listed, rfl⟩) free
    · simp [here]

theorem look_put {d : Disk} {p q : DiskPath} {node : Node} (inner : p ≠ []) :
    (d.put p node).look q = if q = p then some node else d.look q := by
  by_cases top : q = []
  · subst top
    simp [Ne.symm inner]
  · apply Option.ext
    intro other
    rw [look_eq_some_iff top, mem_nodes_put]
    split
    · simp [eq_comm]
    · rw [look_eq_some_iff top]

theorem look_erase {d : Disk} {p q : DiskPath} (inner : p ≠ []) :
    (d.erase p).look q = if q = p then none else d.look q := by
  by_cases top : q = []
  · subst top
    simp [Ne.symm inner]
  · apply Option.ext
    intro other
    rw [look_eq_some_iff top]
    simp only [erase, List.mem_filter]
    split
    · simp_all
    · rw [look_eq_some_iff top]
      simp_all

/-- After a rename the new path shows what the old one showed, nothing is left at the old path, and
all else is as before. -/
theorem look_move {d : Disk} {src dst q : DiskPath} (hs : src ≠ []) (hd : dst ≠ []) :
    (d.move src dst).look q =
      if dst <+: q then
        if dst <+: src ++ q.drop dst.length then none else d.look (src ++ q.drop dst.length)
      else if src <+: q then none
      else d.look q := by
  by_cases top : q = []
  · subst top
    have hd' : ¬ dst <+: [] := by simpa using hd
    have hs' : ¬ src <+: [] := by simpa using hs
    simp [hd', hs']
  · apply Option.ext
    intro node
    rw [look_eq_some_iff top]
    simp only [move, List.mem_map, List.mem_filter, Bool.not_eq_true', ← Bool.not_eq_true,
      List.isPrefixOf_iff_prefix]
    by_cases under : dst <+: q
    · obtain ⟨rest, rfl⟩ := under
      have inner : src ++ rest ≠ [] := by simp [hs]
      have keep : dst <+: dst ++ rest := ⟨rest, rfl⟩
      simp only [keep, if_true, List.drop_left]
      constructor
      · rintro ⟨⟨p, old⟩, ⟨listed, kept⟩, found⟩
        simp only [Prod.mk.injEq] at found
        obtain ⟨at_new, rfl⟩ := found
        unfold moved at at_new
        split at at_new
        · rename_i left
          obtain ⟨restP, rfl⟩ := List.isPrefixOf_iff_prefix.mp left
          simp only [List.drop_left, List.append_cancel_left_eq] at at_new
          subst at_new
          rw [if_neg kept]
          exact (look_eq_some_iff inner).mpr listed
        · exact absurd ⟨_, at_new.symm⟩ kept
      · intro stands
        split at stands
        · simp at stands
        · rename_i kept
          refine ⟨(src ++ rest, node), ⟨(look_eq_some_iff inner).mp stands, kept⟩, ?_⟩
          simp [moved]
    · rw [if_neg under]
      constructor
      · rintro ⟨⟨p, old⟩, ⟨listed, kept⟩, found⟩
        simp only [Prod.mk.injEq] at found
        obtain ⟨at_new, rfl⟩ := found
        unfold moved at at_new
        split at at_new
        · exact absurd ⟨_, at_new⟩ under
        · rename_i away
          subst at_new
          rw [if_neg (fun left => away (List.isPrefixOf_iff_prefix.mpr left))]
          exact (look_eq_some_iff top).mpr listed
      · intro stands
        split at stands
        · simp at stands
        · rename_i away
          refine ⟨(q, node), ⟨(look_eq_some_iff top).mp stands, under⟩, ?_⟩
          have stays : src.isPrefixOf q = false := by
            rw [← Bool.not_eq_true, List.isPrefixOf_iff_prefix]
            exact away
          simp [moved, stays]

end PinnedTree.Disk
