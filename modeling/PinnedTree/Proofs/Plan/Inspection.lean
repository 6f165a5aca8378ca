import PinnedTree.Plan.Decision
import PinnedTree.Proofs.Disk.Alike
import PinnedTree.Proofs.Marker
import PinnedTree.Proofs.Plan.Vacancy
import PinnedTree.Proofs.Transaction.Phases

namespace PinnedTree

open Transaction

variable {d e : Disk} {root : Location} {top p : DiskPath} {names : List String}

theorem Disk.Open.sameWay (opened : d.Open top names) (opened' : e.Open top names)
    (same : e.look (top ++ names) = d.look (top ++ names)) : d.SameWay e top names := by
  intro r under _
  by_cases whole : r = names
  · exact whole ▸ same
  · rw [opened r under whole, opened' r under whole]

theorem Transaction.SameTree.mem_namesIn (same : SameTree p d e) (name : String) :
    name ∈ e.namesIn p ↔ name ∈ d.namesIn p := by
  rw [Disk.mem_namesIn, Disk.mem_namesIn, same]

theorem Transaction.SameTree.namesIn_nil (same : SameTree p d e) :
    e.namesIn p = [] ↔ d.namesIn p = [] := by
  simp only [List.eq_nil_iff_forall_not_mem, same.mem_namesIn]

theorem Disk.readText_congr {l : Location} (same : e.stat l = d.stat l) :
    e.readText l = d.readText l := by
  unfold readText readBytes
  rw [same]

namespace Inspection

variable {found other : Inspection} {nested : List (List String)}

theorem ofPlace_of_free (straight : d.Straight root top names) (sound : d.Sound)
    (free : d.look (top ++ names) = none) (inspected : ofPlace d (root.below names) = .ok found) :
    found = .missing := by
  have nothing : ∀ node, d.linkStat (root.below names) ≠ .ok node := by
    intro node stands
    cases free.symm.trans ((straight.linkStat_ok sound node).mp stands).2
  unfold ofPlace at inspected
  split at inspected
  · exact (Except.ok.inj inspected).symm
  · cases inspected
  · rename_i isDir
    exact absurd isDir (nothing .dir)
  · rename_i node _ stands
    exact absurd stands (nothing node)

theorem ofPlace_congr (straight : d.Straight root top names) (straight' : e.Straight root top names)
    (sound : d.Sound) (sound' : e.Sound) (same : SameTree (top ++ names) d e)
    (marker : ∀ target, d.look (top ++ (names ++ [markerFile])) ≠ some (.link target))
    (stands : d.look (top ++ names) ≠ none) :
    ofPlace e (root.below names) = ofPlace d (root.below names) := by
  have here : e.look (top ++ names) = d.look (top ++ names) := by simpa using same []
  have stands' : e.look (top ++ names) ≠ none := here ▸ stands
  have way := (sound.opened stands).sameWay (sound'.opened stands') here
  unfold ofPlace
  rw [straight.linkStat_same straight' way]
  cases answer : d.linkStat (root.below names) with
  | error fault => cases fault <;> first | rfl | (rename_i cause; cases cause <;> rfl)
  | ok node =>
    cases node with
    | file | link => rfl
    | dir =>
      obtain ⟨callable, isDir⟩ := (straight.linkStat_ok sound .dir).mp answer
      have plain : ∀ target, d.look (top ++ names) ≠ some (.link target) := by simp [isDir]
      have plain' : ∀ target, e.look (top ++ names) ≠ some (.link target) := by simp [here, isDir]
      have below : (root.below names) / markerFile = root.below (names ++ [markerFile]) := by
        simp [Location.child, Location.below]
      have further : d.SameWay e top (names ++ [markerFile]) := by
        intro r under filled
        rcases List.prefix_concat_iff.mp under with rfl | within
        · simpa using same [markerFile]
        · exact way r within filled
      have text := Disk.readText_congr ((straight.concat markerFile_isName plain).stat_same
        (straight'.concat markerFile_isName plain') further marker)
      have read : Marker.read e (root.below names) = Marker.read d (root.below names) := by
        unfold Marker.read
        rw [below, text]
      have listed := straight.list plain callable isDir sound
      have listed' := straight'.list plain' callable (here.trans isDir) sound'
      have none := same.namesIn_nil
      simp only [read, listed, listed']
      cases Marker.read d (root.below names) with
      | error fault => rfl
      | ok marked =>
        cases marked with
        | some marker => rfl
        | none =>
          generalize d.namesIn (top ++ names) = inner, e.namesIn (top ++ names) = inner' at none
          cases inner <;> cases inner' <;> simp at none ⊢

theorem vacant_congr (same : SameTree p d e) : Vacant e p nested ↔ Vacant d p nested := by
  simp only [Vacant, same _]

theorem ofOuter_of_free (straight : d.Straight root top names) (sound : d.Sound)
    (free : d.look (top ++ names) = none)
    (inspected : ofOuter d (root.below names) nested = .ok found) : found = .missing := by
  unfold ofOuter at inspected
  cases inner : ofPlace d (root.below names) with
  | error fault => simp [inner, bind, Except.bind] at inspected
  | ok first =>
    obtain rfl := ofPlace_of_free straight sound free inner
    simpa [inner, bind, Except.bind, pure, Except.pure, eq_comm] using inspected

theorem ofOuter_congr (straight : d.Straight root top names) (straight' : e.Straight root top names)
    (sound : d.Sound) (sound' : e.Sound) (same : SameTree (top ++ names) d e)
    (inner : ∀ n ∈ nested, n ≠ [])
    (plain : ∀ target, d.look (top ++ names) ≠ some (.link target))
    (marker : ∀ target, d.look (top ++ (names ++ [markerFile])) ≠ some (.link target))
    (one : ofOuter d (root.below names) nested = .ok found)
    (two : ofOuter e (root.below names) nested = .ok other) : other = found := by
  have here : e.look (top ++ names) = d.look (top ++ names) := by simpa using same []
  by_cases free : d.look (top ++ names) = none
  · rw [ofOuter_of_free straight sound free one, ofOuter_of_free straight' sound' (here.trans free) two]
  have inspected := ofPlace_congr straight straight' sound sound' same marker free
  have way := (sound.opened free).sameWay (sound'.opened (here ▸ free)) here
  have resolved := straight.resolve_follow_same straight' way plain
  by_cases through : ofPlace d (root.below names) = .ok .unmanaged ∧ nested ≠ [] ∧
      ∃ p, d.resolve true (root.below names) = .ok (.taken p .dir)
  · obtain ⟨seen, some_nested, p, leads⟩ := through
    obtain rfl : p = top ++ names := by
      rw [straight.resolve_follow plain] at leads
      have found := ((straight.resolve _).mp leads).2.2
      unfold Disk.placeAt at found
      split at found <;> cases found
      rfl
    have vacant : Vacant e (top ++ names) nested ↔ Vacant d (top ++ names) nested := vacant_congr same
    have first := ofOuter_of_leads sound inner some_nested leads seen
    have second := ofOuter_of_leads sound' inner some_nested (resolved.trans leads)
      (inspected.trans seen)
    rw [one] at first
    rw [two] at second
    obtain ⟨rfl, empty⟩ | ⟨rfl, filled⟩ : found = .empty ∧ Vacant d (top ++ names) nested ∨
        found = .unmanaged ∧ ¬ Vacant d (top ++ names) nested := by simpa using first
    · simpa [vacant, empty] using second
    · simpa [vacant, filled] using second
  · have idle : ofPlace d (root.below names) = .ok .unmanaged → nested ≠ [] →
        ∀ p, d.resolve true (root.below names) ≠ .ok (.taken p .dir) :=
      fun seen some_nested p leads => through ⟨seen, some_nested, p, leads⟩
    have first := ofOuter_eq_ofPlace idle
    have second := ofOuter_eq_ofPlace (inspected ▸ resolved ▸ idle)
    exact Except.ok.inj (two.symm.trans (second.trans (inspected.trans (first.symm.trans one))))

end Inspection

end PinnedTree
