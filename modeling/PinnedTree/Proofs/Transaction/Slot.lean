import PinnedTree.Transaction

namespace PinnedTree.Transaction

variable {id : String} {c : Char}

theorem isSlotChar_digit : ∀ n < 16, isSlotChar (Nat.digitChar n) = true := by
  decide

theorem isSlotChar_hexText {words : List UInt32} {c : Char}
    (member : c ∈ (Digest.hexText words).toList) : isSlotChar c = true := by
  rw [Digest.hexText, String.toList_ofList] at member
  obtain ⟨word, -, digit⟩ := List.mem_flatMap.mp member
  obtain ⟨k, -, rfl⟩ := List.mem_map.mp digit
  exact isSlotChar_digit _ (Nat.mod_lt _ (by decide))

theorem isSlotChar_eq (c : Char) : isSlotChar c = c.isAlphanum := by
  have alphanum : c.isAlphanum = (decide ('A'.val ≤ c.val ∧ c.val ≤ 'Z'.val)
    || (decide ('a'.val ≤ c.val) && decide (c.val ≤ 'z'.val))
    || (decide ('0'.val ≤ c.val) && decide (c.val ≤ '9'.val))) := rfl
  rw [alphanum]
  simp only [isSlotChar, Char.le_def, Bool.decide_and]
  rw [Bool.or_assoc, Bool.or_comm, Bool.or_comm (_ && _) (_ && _)]

theorem toList_slotName (id : String) : (slotName id).toList
    = (id.toList.take 48).map (fun c => if isSlotChar c then c else '_') ++ '-' ::
      (Digest.Sha256.hex id.toUTF8).toList.take 12 := by
  simp [slotName]

theorem mem_slotName (member : c ∈ (slotName id).toList) : isSlotChar c = true ∨ c = '_' ∨ c = '-' := by
  rw [toList_slotName] at member
  rcases List.mem_append.mp member with readable | digest
  · obtain ⟨found, -, same⟩ := List.mem_map.mp readable
    split at same
    · rename_i plain
      exact .inl (same ▸ plain)
    · exact .inr (.inl same.symm)
  · rcases List.mem_cons.mp digest with dash | digit
    · exact .inr (.inr dash)
    · exact .inl (isSlotChar_hexText (List.mem_of_mem_take digit))

theorem notMem_slotName (id : String) {c : Char} (other : isSlotChar c = false) (notLow : c ≠ '_')
    (notDash : c ≠ '-') : c ∉ (slotName id).toList := by
  intro member
  rcases mem_slotName member with plain | low | dash
  · rw [other] at plain
    cases plain
  · exact notLow low
  · exact notDash dash

theorem dash_mem_slotName (id : String) : '-' ∈ (slotName id).toList := by
  simp [slotName]

theorem slotName_isName (id : String) : IsName (slotName id) := by
  have dashed := dash_mem_slotName id
  refine ⟨?_, ?_, ?_, notMem_slotName id (by decide) (by decide) (by decide)⟩
  · intro same
    simp [same] at dashed
  · intro same
    simp [same] at dashed
  · intro same
    simp [same] at dashed

theorem length_hexText (words : List UInt32) :
    (Digest.hexText words).toList.length = 8 * words.length := by
  have digits : ∀ word ∈ words, (Digest.hexWord word).length = 8 := fun word _ => by
    simp [Digest.hexWord]
  rw [Digest.hexText, String.toList_ofList, List.length_flatMap,
    List.map_congr_left digits, List.map_const', List.sum_replicate_nat, Nat.mul_comm]

theorem length_slotName (id : String) :
    (slotName id).toList.length = min 48 id.toList.length + 13 := by
  have digest : (Digest.Sha256.hex id.toUTF8).toList.length = 64 := length_hexText _
  simp only [toList_slotName, List.length_append, List.length_map, List.length_cons, List.length_take,
    digest]
  omega

theorem utf8ByteSize_of_narrow {text : String} (narrow : ∀ c ∈ text.toList, c.utf8Size = 1) :
    text.utf8ByteSize = text.toList.length := by
  have bytes : ∀ cs : List Char, (∀ c ∈ cs, c.utf8Size = 1) →
      (String.ofList cs).utf8ByteSize = cs.length := by
    intro cs each
    induction cs with
    | nil => rfl
    | cons c rest ih =>
      rw [List.forall_mem_cons] at each
      rw [String.ofList_cons, String.utf8ByteSize_append, String.utf8ByteSize_singleton, each.1,
        ih each.2, List.length_cons, Nat.add_comm]
  rw [← bytes _ narrow, String.ofList_toList]

theorem utf8Size_slotName (member : c ∈ (slotName id).toList) : c.utf8Size = 1 := by
  have most : ∀ high : Char, high.val ≤ 127 → c ≤ high → c.utf8Size = 1 := fun high narrow below =>
    Char.utf8Size_eq_one_iff.mpr (UInt32.le_trans below narrow)
  rcases mem_slotName member with plain | rfl | rfl
  · simp only [isSlotChar, Bool.or_eq_true, Bool.and_eq_true, decide_eq_true_eq] at plain
    rcases plain with (⟨-, digit⟩ | ⟨-, lower⟩) | ⟨-, upper⟩
    · exact most _ (by decide) digit
    · exact most _ (by decide) lower
    · exact most _ (by decide) upper
  · decide
  · decide

theorem utf8ByteSize_slotName (id : String) :
    (slotName id).utf8ByteSize = min 48 id.toList.length + 13 := by
  rw [utf8ByteSize_of_narrow fun c => utf8Size_slotName, length_slotName]

end PinnedTree.Transaction
