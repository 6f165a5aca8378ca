namespace PinnedTree.Text

variable {α : Type}

def insertKeyed (key : String) (value : α) : List (String × α) → List (String × α)
  | [] => [(key, value)]
  | (other, held) :: rest =>
    if key < other then (key, value) :: (other, held) :: rest
    else if key = other then (key, value) :: rest
    else (other, held) :: insertKeyed key value rest

/-- Each key comes after all before it. -/
def InOrder (entries : List (String × α)) : Prop := entries.Pairwise fun a b => a.1 < b.1

theorem InOrder.nil : InOrder ([] : List (String × α)) := List.Pairwise.nil

theorem mem_insertKeyed {key : String} {value : α} {entries : List (String × α)}
    {entry : String × α} (member : entry ∈ insertKeyed key value entries) :
    entry = (key, value) ∨ entry ∈ entries := by
  induction entries with
  | nil => simpa [insertKeyed] using member
  | cons head rest ih =>
    simp only [insertKeyed] at member
    split at member
    · simpa using member
    · split at member
      · rcases List.mem_cons.mp member with same | member
        · exact .inl same
        · exact .inr (List.mem_cons_of_mem _ member)
      · rcases List.mem_cons.mp member with same | member
        · exact .inr (same ▸ List.mem_cons_self)
        · rcases ih member with same | member
          · exact .inl same
          · exact .inr (List.mem_cons_of_mem _ member)

theorem InOrder.insertKeyed {key : String} {value : α} {entries : List (String × α)}
    (ordered : InOrder entries) : InOrder (insertKeyed key value entries) := by
  induction entries with
  | nil => exact List.pairwise_singleton _ _
  | cons head rest ih =>
    obtain ⟨first, later⟩ := List.pairwise_cons.mp ordered
    simp only [Text.insertKeyed]
    split
    · rename_i less
      refine List.pairwise_cons.mpr ⟨?_, ordered⟩
      intro entry member
      rcases List.mem_cons.mp member with rfl | member
      · exact less
      · exact String.lt_trans less (first _ member)
    · split
      · rename_i same
        refine List.pairwise_cons.mpr ⟨?_, later⟩
        intro entry member
        exact same ▸ first _ member
      · rename_i notLess notSame
        refine List.pairwise_cons.mpr ⟨?_, ih later⟩
        intro entry member
        rcases mem_insertKeyed member with rfl | member
        · exact String.not_le.mp fun below => notSame (String.le_antisymm below
            (String.not_lt.mp notLess))
        · exact first _ member

theorem InOrder.filter {entries : List (String × α)} (keep : String × α → Bool)
    (ordered : InOrder entries) : InOrder (entries.filter keep) := List.Pairwise.filter _ ordered

end PinnedTree.Text
