import Mathlib.Data.List.Forall2
import Mathlib.Data.List.Nodup
import PinnedTree.Report

namespace PinnedTree

namespace SyncReport

variable {R : EntryReport → EntryReport → Prop} {xs ys : List EntryReport}

theorem isSuccess_ofEntries {dryRun : Bool} {rows : List EntryReport} :
    (ofEntries dryRun rows).isSuccess = true ↔ ∀ row ∈ rows, row.outcome.isFailure = false := by
  simp [isSuccess, ofEntries]

theorem forall₂_ofEntries (dry real : Bool) (each : List.Forall₂ R xs ys)
    (ids : ∀ x y, R x y → y.id = x.id) :
    List.Forall₂ R (ofEntries dry xs).entries (ofEntries real ys).entries := by
  -- each list is sorted as a part of the pairs, whose order does not depend on the side
  obtain ⟨long, pairs⟩ := List.forall₂_iff_zip.mp each
  have first : (xs.zip ys).map Prod.fst = xs := List.map_fst_zip (Nat.le_of_eq long)
  have second : (xs.zip ys).map Prod.snd = ys := List.map_snd_zip (Nat.le_of_eq long.symm)
  have sortedFst := List.map_mergeSort (l := xs.zip ys) (f := Prod.fst)
    (r := fun a b => decide (a.1.id ≤ b.1.id)) (s := fun a b => decide (a.id ≤ b.id))
    fun _ _ _ _ => rfl
  have sortedSnd := List.map_mergeSort (l := xs.zip ys) (f := Prod.snd)
    (r := fun a b => decide (a.1.id ≤ b.1.id)) (s := fun a b => decide (a.id ≤ b.id))
    fun a memberA b memberB => by rw [ids _ _ (pairs memberA), ids _ _ (pairs memberB)]
  rw [first] at sortedFst
  rw [second] at sortedSnd
  simp only [ofEntries, ← sortedFst, ← sortedSnd]
  rw [List.forall₂_map_left_iff, List.forall₂_map_right_iff, List.forall₂_same]
  intro pair member
  exact pairs ((List.mergeSort_perm _ _).mem_iff.mp member)

theorem entries_perm (dry : Bool) (xs : List EntryReport) : (ofEntries dry xs).entries.Perm xs :=
  List.mergeSort_perm xs _

theorem sorted_ofEntries (dry : Bool) (xs : List EntryReport) :
    (ofEntries dry xs).entries.Pairwise fun a b => a.id ≤ b.id := by
  have sorted : (ofEntries dry xs).entries.Pairwise fun a b => decide (a.id ≤ b.id) = true :=
    List.pairwise_mergeSort (fun a b c => by simpa using String.le_trans)
      (fun a b => by simpa using String.le_total a.id b.id) xs
  exact sorted.imp of_decide_eq_true

theorem ofEntries_perm (dry : Bool) (perm : xs.Perm ys) (once : (xs.map (·.id)).Nodup) :
    ofEntries dry xs = ofEntries dry ys := by
  have alike : (ofEntries dry xs).entries.Perm (ofEntries dry ys).entries :=
    ((entries_perm dry xs).trans perm).trans (entries_perm dry ys).symm
  have same : (ofEntries dry xs).entries = (ofEntries dry ys).entries := by
    refine alike.eq_of_pairwise (fun a b memberA memberB below above => ?_)
      (sorted_ofEntries dry xs) (sorted_ofEntries dry ys)
    rw [(entries_perm dry _).mem_iff] at memberA memberB
    exact List.inj_on_of_nodup_map once memberA (perm.mem_iff.mpr memberB)
      (String.le_antisymm below above)
  exact congrArg (SyncReport.mk dry) same

theorem ofEntries_of_ordered (dry : Bool) (perm : xs.Perm ys)
    (ordered : xs.Pairwise fun a b => a.id < b.id) : ofEntries dry ys = ⟨dry, xs⟩ := by
  have once : (xs.map (·.id)).Nodup := by
    refine List.pairwise_map.mpr (ordered.imp fun {a b} less same => ?_)
    rw [same] at less
    exact String.lt_irrefl _ less
  have sorted : xs.Pairwise fun a b => decide (a.id ≤ b.id) = true :=
    ordered.imp fun {a b} less => decide_eq_true
      ((String.le_total a.id b.id).resolve_right (String.not_le.mpr less))
  rw [← ofEntries_perm dry perm once, ofEntries, List.mergeSort_of_pairwise sorted]

theorem ordered_ofEntries (dry : Bool) (once : (xs.map (·.id)).Nodup) :
    (ofEntries dry xs).entries.Pairwise fun a b => a.id < b.id := by
  have apart : (ofEntries dry xs).entries.Pairwise fun a b => a.id ≠ b.id :=
    List.pairwise_map.mp (((entries_perm dry xs).map _).nodup_iff.mpr once)
  refine ((sorted_ofEntries dry xs).and apart).imp fun {a b} ⟨least, other⟩ => ?_
  exact String.not_le.mp fun reverse => other (String.le_antisymm least reverse)

variable (report : SyncReport)

theorem isSuccess_iff_failures : report.isSuccess = true ↔ report.failures = [] := by
  simp [isSuccess, failures]

theorem isSuccess_iff_failed : report.isSuccess = true ↔ report.summary.failed = 0 := by
  simp [isSuccess, summary, count]

theorem count_or {kind other : Outcome → Bool}
    (apart : ∀ outcome, kind outcome = true → other outcome = false) :
    report.count (fun outcome => kind outcome || other outcome)
      = report.count kind + report.count other := by
  simp only [count]
  induction report.entries with
  | nil => rfl
  | cons entry rest ih =>
    simp only [List.countP_cons, ih]
    cases here : kind entry.outcome with
    | true => simp only [apart _ here, Bool.or_false, Bool.false_eq_true, if_true, if_false]; omega
    | false => simp only [Bool.false_or, Bool.false_eq_true, if_false]; omega

theorem summary_total : report.summary.current + report.summary.fetched + report.summary.updated
    + report.summary.pending + report.summary.failed = report.entries.length := by
  simp only [summary]
  -- the kinds are counted together, as one kind that every outcome is of
  rw [← count_or, ← count_or, ← count_or, ← count_or, count, List.countP_eq_length]
  · intro entry _
    cases entry.outcome <;> rfl
  all_goals
    intro outcome kind
    cases outcome <;> first | rfl | cases kind

theorem cancelled_le_failed : report.summary.cancelled ≤ report.summary.failed := by
  refine List.countP_mono_left fun entry _ cancelled => ?_
  rw [decide_eq_true_eq.mp cancelled]
  rfl

def labelled (label : String) : Nat := (report.entries.map (·.outcome.label)).count label

theorem labelled_eq (label : String) :
    report.labelled label = report.count (·.label == label) := by
  rw [labelled, List.count_eq_countP, List.countP_map]
  rfl

/-- The summary counts the lines of each label, pins that would be fetched with those that would be
updated. -/
theorem summary_labelled : report.summary.current = report.labelled "already-current" ∧
    report.summary.fetched = report.labelled "fetched-new" ∧
    report.summary.updated = report.labelled "updated" ∧
    report.summary.pending = report.labelled "would-fetch" + report.labelled "would-update" ∧
    report.summary.failed = report.labelled "failed" := by
  have same : ∀ {kind other : Outcome → Bool}, (∀ outcome, kind outcome = other outcome) →
      report.count kind = report.count other := fun each => by rw [funext each]
  simp only [labelled_eq, summary]
  rw [← count_or]
  · refine ⟨same ?_, same ?_, same ?_, same ?_, same ?_⟩ <;> rintro (_ | _ | _ | _ | _ | _) <;> rfl
  · rintro (_ | _ | _ | _ | _ | _) label <;> first | rfl | cases label

end SyncReport

end PinnedTree
