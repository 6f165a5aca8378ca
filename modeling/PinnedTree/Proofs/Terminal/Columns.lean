import Mathlib
import PinnedTree.Terminal.Control

namespace PinnedTree.Terminal

variable {c : Char} {joint : Joint} {next : Option Char} {text front back frame : List Char}
  {room width : Nat}

/-- A character that takes one column wherever it stands, and is no part of a picture. -/
structure Lone (c : Char) : Prop where
  shown : isControl c = false
  narrow : charColumns c = 1
  still : isEmoji c = false ∧ isTextEmoji c = false ∧ takesSkinTone c = false ∧ isSkinTone c = false
  other : c ≠ pictureSelector ∧ c ≠ pictureJoiner

instance : DecidablePred Lone := fun c => decidable_of_iff
  (isControl c = false ∧ charColumns c = 1 ∧ (isEmoji c = false ∧ isTextEmoji c = false ∧
    takesSkinTone c = false ∧ isSkinTone c = false) ∧ (c ≠ pictureSelector ∧ c ≠ pictureJoiner))
  ⟨fun ⟨shown, narrow, still, other⟩ => ⟨shown, narrow, still, other⟩,
    fun ⟨shown, narrow, still, other⟩ => ⟨shown, narrow, still, other⟩⟩

theorem Lone.step (lone : Lone c) : Terminal.step joint c next = (1, .free) := by
  obtain ⟨shown, narrow, ⟨emoji, textEmoji, takesTone, tone⟩, selector, joiner⟩ := lone
  have stays : extendsPicture c joint = false := by
    cases joint <;> simp [extendsPicture, selector, tone]
  have starts : startsPicture c next = false := by simp [startsPicture, emoji, textEmoji, takesTone]
  have carriage : c ≠ '\r' := by
    rintro rfl
    simp [isControl] at shown
  simp [Terminal.step, stays, starts, shown, narrow, joiner, carriage]

theorem Lone.step_before (lone : Lone c) (other : Char) :
    Terminal.step joint other (some c) = Terminal.step joint other none := by
  have starts : startsPicture other (some c) = startsPicture other none := by
    simp [startsPicture, lone.other.1, lone.still.2.2.2]
  have feed : c ≠ '\n' := by
    rintro rfl
    exact absurd lone.shown (by decide)
  simp [Terminal.step, starts, feed]

theorem columnsAfter_lone (lone : Lone c) (text : List Char) :
    columnsAfter joint (c :: text) = 1 + columnsAfter .free text := by
  simp [columnsAfter, lone.step]

theorem columnsAfter_append (lone : Lone c) :
    columnsAfter joint (front ++ c :: back)
      = columnsAfter joint front + (1 + columnsAfter .free back) := by
  induction front generalizing joint with
  | nil => simp [columnsAfter_lone lone, columnsAfter]
  | cons first rest ih =>
    have alike : Terminal.step joint first (rest ++ c :: back).head?
        = Terminal.step joint first rest.head? := by
      cases rest with
      | nil => exact lone.step_before first
      | cons second others => rfl
    simp only [List.cons_append, columnsAfter, alike, ih, Nat.add_assoc]

theorem columnsAfter_frame (frames : ∀ c ∈ frame, Lone c) (back : List Char) :
    columnsAfter .free (frame ++ back) = frame.length + columnsAfter .free back := by
  induction frame with
  | nil => simp
  | cons c rest ih =>
    rw [List.cons_append, columnsAfter_lone (frames c (by simp)),
      ih fun c member => frames c (by simp [member]), List.length_cons]
    omega

theorem columns_framed (frames : ∀ c ∈ frame, Lone c) (filled : frame ≠ []) :
    columnsAfter joint (front ++ (frame ++ back))
      = columnsAfter joint front + (frame.length + columnsAfter .free back) := by
  obtain ⟨c, rest, rfl⟩ := List.exists_cons_of_ne_nil filled
  rw [List.cons_append, columnsAfter_append (frames c (by simp)),
    columnsAfter_frame fun c member => frames c (by simp [member]), List.length_cons]
  omega

def Shown (text : List Char) : Prop := ∀ c ∈ text, isControl c = false

instance (text : List Char) : Decidable (Shown text) :=
  List.decidableBAll (fun c => isControl c = false) text

theorem Shown.not_opens (shown : Shown text) (member : c ∈ text) : opens c = false := by
  have quiet := shown c member
  rw [opens, Bool.or_eq_false_iff, decide_eq_false_iff_not, decide_eq_false_iff_not]
  constructor <;> rintro rfl <;> exact absurd quiet (by decide)

theorem Shown.markedFrom (shown : Shown text) : markedFrom 0 text = text.map (·, false) := by
  induction text with
  | nil => rfl
  | cons c rest ih =>
    simp [Terminal.markedFrom, shown.not_opens (List.mem_cons_self ..),
      ih fun c member => shown c (List.mem_cons_of_mem _ member)]

theorem Shown.pieces (shown : Shown text) (filled : text ≠ []) :
    Terminal.pieces text = [⟨false, text⟩] := by
  rw [Terminal.pieces, shown.markedFrom]
  induction text with
  | nil => exact absurd rfl filled
  | cons c rest ih =>
    cases rest with
    | nil => rfl
    | cons second others =>
      have later := ih (fun c member => shown c (List.mem_cons_of_mem _ member)) (by simp)
      rw [List.map_cons, grouped, later]
      rfl

theorem Shown.shownColumns (shown : Shown text) : Terminal.shownColumns text = columns text := by
  cases text with
  | nil => rfl
  | cons c rest => simp [Terminal.shownColumns, shown.pieces, Piece.columns]

theorem Shown.truncate (shown : Shown text) (wide : width < columns text) :
    Terminal.truncate width text = fitting (width - ellipsis.length) text ++ ellipsis := by
  have filled : text ≠ [] := by
    rintro rfl
    exact absurd wide (Nat.not_lt_zero _)
  have tooLong : ¬ columns text ≤ width - ellipsis.length := by omega
  rw [Terminal.truncate, if_neg (by rw [shown.shownColumns]; omega), shown.pieces filled]
  simp [cutPieces, Piece.columns, tooLong]

theorem fitting_subset : fitting room text ⊆ text := by
  induction text generalizing room with
  | nil => simp [fitting]
  | cons c rest ih =>
    rw [fitting]
    split
    · simp
    · split
      · simp
      · exact List.cons_subset_cons c ih

theorem Shown.truncate_shown (shown : Shown text) (width : Nat) :
    Shown (Terminal.truncate width text) := by
  by_cases fits : columns text ≤ width
  · rwa [Terminal.truncate, if_pos (by rwa [shown.shownColumns])]
  · rw [shown.truncate (by omega)]
    intro c member
    rcases List.mem_append.mp member with kept | dots
    · exact shown c (fitting_subset kept)
    · obtain rfl : c = '.' := by simpa [ellipsis] using dots
      decide

def Simple (c : Char) : Prop :=
  isControl c = false ∧ isEmoji c = false ∧ isTextEmoji c = false ∧ takesSkinTone c = false

instance : DecidablePred Simple := fun _ => inferInstanceAs (Decidable (_ ∧ _))

theorem Simple.step (simple : Simple c) : Terminal.step .free c next = (charColumns c, .free) := by
  obtain ⟨shown, emoji, textEmoji, takesTone⟩ := simple
  have carriage : c ≠ '\r' := by
    rintro rfl
    simp [isControl] at shown
  simp [Terminal.step, extendsPicture, startsPicture, emoji, textEmoji, takesTone, shown, carriage]

theorem columns_simple (simple : ∀ c ∈ text, Simple c) :
    columns text = (text.map charColumns).sum := by
  induction text with
  | nil => rfl
  | cons c rest ih =>
    rw [columns] at ih ⊢
    rw [columnsAfter, (simple c (by simp)).step, List.map_cons, List.sum_cons,
      ← ih fun c member => simple c (by simp [member])]

theorem sum_fitting_le (text : List Char) (room : Nat) :
    ((fitting room text).map charColumns).sum ≤ room := by
  induction text generalizing room with
  | nil => simp [fitting]
  | cons c rest ih =>
    rw [fitting]
    split
    · simp
    · split
      · simp_all
      · have later := ih (room - charColumns c)
        rw [List.map_cons, List.sum_cons]
        omega

theorem shownColumns_truncate_le (simple : ∀ c ∈ text, Simple c) (wide : ellipsis.length ≤ width) :
    shownColumns (truncate width text) ≤ width := by
  have shown : Shown text := fun c member => (simple c member).1
  rw [(shown.truncate_shown width).shownColumns]
  by_cases fits : columns text ≤ width
  · rwa [truncate, if_pos (by rwa [shown.shownColumns])]
  · rw [shown.truncate (by omega), columns_simple]
    · have room := sum_fitting_le text (width - ellipsis.length)
      have dots : (ellipsis.map charColumns).sum = ellipsis.length := by decide
      rw [List.map_append, List.sum_append, dots]
      omega
    · intro c member
      rcases List.mem_append.mp member with kept | dots
      · exact simple c (fitting_subset kept)
      · obtain rfl : c = '.' := by simpa [ellipsis] using dots
        exact ⟨by decide, by decide, by decide, by decide⟩

end PinnedTree.Terminal
