import PinnedTree.Plan.Decision

namespace PinnedTree

variable {d : Disk} {l : Location} {nested : List (List String)} {marker : Marker}

theorem Inspection.ofPlace_marked : ofPlace d l = .ok (.marked marker) ↔
    d.linkStat l = .ok .dir ∧ Marker.read d l = .ok (some marker) := by
  unfold ofPlace
  split
  · rename_i missing
    simp [missing]
  · rename_i fault _ failed
    simp [failed]
  · rename_i isDir
    rw [isDir]
    split
    · rename_i failed
      simp [failed]
    · rename_i found
      simp [found]
    · rename_i absent
      split <;> simp [absent]
  · rename_i node other stands
    have notDir : node ≠ .dir := other
    simp [stands, notDir]

theorem Inspection.ofOuter_marked :
    ofOuter d l nested = .ok (.marked marker) ↔ ofPlace d l = .ok (.marked marker) := by
  unfold ofOuter
  cases found : ofPlace d l with
  | error fault => simp [bind, Except.bind]
  | ok inspected =>
    cases inspected with
    | missing => simp [bind, Except.bind, pure, Except.pure]
    | empty => simp [bind, Except.bind, pure, Except.pure]
    | marked other => simp [bind, Except.bind, pure, Except.pure]
    | unmanaged =>
      simp only [bind, Except.bind, pure, Except.pure]
      split
      · split
        · split
          · simp
          · split <;> simp
        · simp
      · simp

theorem decideAction_current {id revision : String} {found : Inspection} {adopt : Bool} :
    decideAction id revision found adopt = .ok .current ↔
      ∃ marker, found = .marked marker ∧ marker.id = id ∧ marker.revision = revision := by
  cases found with
  | missing => simp [decideAction]
  | empty => simp [decideAction]
  | marked marker =>
    simp only [decideAction, Inspection.marked.injEq, exists_eq_left']
    split
    · rename_i other
      simp [other]
    · rename_i own
      split <;> simp_all
  | unmanaged => cases adopt <;> simp [decideAction]

end PinnedTree
