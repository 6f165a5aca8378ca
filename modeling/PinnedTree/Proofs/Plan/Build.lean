import Mathlib.Data.List.Pairwise
import PinnedTree.Plan
import PinnedTree.Proofs.Disk.Calls
import PinnedTree.Proofs.Lists
import PinnedTree.Proofs.Plan.Validation

namespace PinnedTree

/-- Pins of which no two share an id or a destination, each with the backend for its locator. -/
structure Arranged (backends : List Backend) (placed : List PlacedPin) : Prop where
  ids : placed.Pairwise fun a b => a.pin.id ≠ b.pin.id
  apart : placed.Pairwise fun a b => a.destination ≠ b.destination
  resolved : ∀ p ∈ placed, Backend.resolve? backends p.pin.locator = some p.backend

theorem Destination.eq_of_names {a b : Destination} (same : a.names = b.names) : a = b := by
  cases a
  cases b
  simpa using same

namespace Destination

theorem significant_text (destination : Destination) :
    significant destination.text = destination.names := by
  have cut : Text.split '/' destination.text = destination.names :=
    Text.split_of_joined destination.nonempty (fun name listed => (destination.plain name listed).2.2.2)
      String.toList_ofList
  rw [significant, cut, List.filter_eq_self]
  intro name member
  obtain ⟨filled, moving, -, -⟩ := destination.plain name member
  simp [filled, moving]

theorem text_unanchored (destination : Destination) :
    Text.startsWith destination.text "/" = false := by
  obtain ⟨name, rest, same⟩ := List.exists_cons_of_ne_nil destination.nonempty
  obtain ⟨filled, -, -, unslashed⟩ := destination.plain name (by simp [same])
  cases letters : name.toList with
  | nil => exact absurd (String.toList_eq_nil_iff.mp letters) filled
  | cons first more =>
    have other : '/' ≠ first := by
      rintro rfl
      exact unslashed (by simp [letters])
    rw [text, Text.join, Text.startsWith, String.toList_ofList, same]
    cases rest <;> simp [Text.joined, letters, List.isPrefixOf, other]

theorem parse_text (destination : Destination) : parse destination.text = .ok destination := by
  have stays : ".." ∉ destination.names := fun member => (destination.plain _ member).2.2.1 rfl
  unfold parse
  simp only [significant_text, text_unanchored, stays, destination.nonempty, destination.unreserved]
  simp

theorem text_injective {a b : Destination} (same : a.text = b.text) : a = b :=
  eq_of_names (by rw [← significant_text a, same, significant_text])

end Destination

namespace Arranged

variable {backends : List Backend} {placed : List PlacedPin} {a b : PlacedPin}

theorem same_of_id (arranged : Arranged backends placed) (memberA : a ∈ placed)
    (memberB : b ∈ placed) (same : a.pin.id = b.pin.id) : a = b := by
  by_contra other
  have : Std.Symm fun a b : PlacedPin => a.pin.id ≠ b.pin.id := ⟨fun _ _ differ => differ.symm⟩
  exact arranged.ids.forall memberA memberB other same

theorem same_of_destination (arranged : Arranged backends placed) (memberA : a ∈ placed)
    (memberB : b ∈ placed) (same : a.destination = b.destination) : a = b := by
  by_contra other
  have : Std.Symm fun a b : PlacedPin => a.destination ≠ b.destination :=
    ⟨fun _ _ differ => differ.symm⟩
  exact arranged.apart.forall memberA memberB other same

end Arranged

theorem PinTable.validate_ok {table : PinTable} {backends : List Backend} {placed : List PlacedPin}
    (valid : table.validate backends = .ok placed) :
    Arranged backends placed ∧ placed.map (·.pin) = table.pins := by
  obtain ⟨places, sound⟩ := validate_places valid
  have pins := PlacedPin.Places.pins_eq places
  have parsed := PlacedPin.Places.parsed places
  obtain ⟨-, ids, -, -, apart, -⟩ := pins ▸ sound
  rw [List.pairwise_map] at ids apart
  refine ⟨⟨ids, apart.imp_of_mem fun memberA memberB apart same => ?_, fun p member => ?_⟩, pins⟩
  · exact apart _ (parsed _ memberA) (same ▸ parsed _ memberB)
  · obtain ⟨_, -, place⟩ := forall₂_of_mem places member
    exact place.resolved

theorem PinTable.destinationOf_of_valid {table : PinTable} {backends : List Backend}
    {placed : List PlacedPin} {p : PlacedPin} (valid : table.validate backends = .ok placed)
    (listed : p ∈ placed) :
    PlacedPin.destinationOf p.pin.id p.pin.destination = .ok p.destination :=
  PlacedPin.destinationOf_ok.mpr (PlacedPin.Places.parsed (validate_places valid).1 p listed)

theorem PinTable.get?_of_valid {table : PinTable} {backends : List Backend}
    {placed : List PlacedPin} {p : PlacedPin} (valid : table.validate backends = .ok placed)
    (listed : p ∈ placed) : table.get? p.pin.id = some p.pin := by
  obtain ⟨arranged, pins⟩ := validate_ok valid
  have member : p.pin ∈ table.pins := pins ▸ List.mem_map_of_mem listed
  cases found : table.get? p.pin.id with
  | none => exact absurd (List.find?_eq_none.mp found _ member) (by simp)
  | some pin =>
    have same : pin.id = p.pin.id := by simpa using List.find?_some found
    obtain ⟨q, there, rfl⟩ := List.mem_map.mp (pins ▸ List.mem_of_find?_eq_some found :
      pin ∈ placed.map (·.pin))
    rw [arranged.same_of_id there listed same]

namespace Plan

variable {d : Disk} {root : Location} {all : List Destination} {adopt : Bool} {placed : PlacedPin}
  {planned : PlannedPin}

theorem checkNoLink_ok {top : DiskPath} {pin : Pin} {above names : List String} (sound : d.Sound)
    (rooted : d.Rooted root top) (plain : ∀ name ∈ above ++ names, IsName name)
    (clear : ∀ r, r <+: above → ∀ target, d.look (top ++ r) ≠ some (.link target))
    (checked : checkNoLink d root pin above names = .ok ()) :
    ∀ r, r <+: above ++ names → ∀ target, d.look (top ++ r) ≠ some (.link target) := by
  induction names generalizing above with
  | nil => simpa using clear
  | cons name rest ih =>
    have straight : d.Straight root top (above ++ [name]) := by
      refine ⟨rooted, fun n member => plain n ?_, by simp, fun r under other => ?_⟩
      · simp only [List.mem_append, List.mem_cons] at member ⊢
        tauto
      · rcases List.prefix_concat_iff.mp under with same | inner
        · exact absurd same other
        · exact clear r inner
    have onward : (∀ target, d.look (top ++ (above ++ [name])) ≠ some (.link target)) →
        ∀ r, r <+: above ++ [name] → ∀ target, d.look (top ++ r) ≠ some (.link target) := by
      intro last r under
      rcases List.prefix_concat_iff.mp under with rfl | inner
      · exact last
      · exact clear r inner
    have whole : above ++ name :: rest = above ++ [name] ++ rest := by simp
    rw [whole] at plain ⊢
    simp only [checkNoLink] at checked
    split at checked
    · cases checked
    · rename_i node notLink found
      refine ih plain (onward fun target link => ?_) checked
      unfold Disk.linkStat at found
      cases resolved : d.resolve false (root.below (above ++ [name])) with
      | error fault => simp [resolved, bind, Except.bind] at found
      | ok place =>
        rw [((straight.resolve place).mp resolved).2.2, Disk.placeAt, link] at resolved
        simp only [resolved, bind, Except.bind, pure, Except.pure, Except.ok.injEq] at found
        exact notLink target found.symm
    · rename_i missing
      have gone := straight.linkStat_missing sound missing
      intro r under target link
      rcases List.prefix_or_prefix_of_prefix under (List.prefix_append _ rest) with inner | below
      · exact onward (by simp [gone]) r inner target link
      · rw [sound.none_under gone ((List.prefix_append_right_inj _).mpr below)] at link
        cases link
    · cases checked

theorem checkNoLink_dirs {pin : Pin} {above names : List String}
    (dirs : ∀ r, r <+: names → r ≠ [] → d.linkStat (root.below (above ++ r)) = .ok .dir) :
    checkNoLink d root pin above names = .ok () := by
  induction names generalizing above with
  | nil => rfl
  | cons name rest ih =>
    have first := dirs [name] (by simp) (by simp)
    simp only [checkNoLink, first]
    refine ih fun r under filled => ?_
    rw [List.append_assoc]
    exact dirs (name :: r) (by simpa using under) (by simp)

theorem ofPlaced_ok (made : ofPlaced d root all adopt placed = .ok planned) :
    planned.toPlacedPin = placed ∧ planned.nested = placed.destination.nestedIn all ∧
      checkNoLink d root placed.pin [] placed.destination.names = .ok () := by
  simp only [ofPlaced, bind, Except.bind, pure, Except.pure] at made
  split at made
  · cases made
  · rename_i clear
    split at made
    · cases made
    · split at made
      · cases made
      · cases made
        exact ⟨rfl, rfl, clear⟩

/-- What the pins of a plan are: those pins of the table that were selected, with the destinations
nested in theirs. -/
theorem build_ok {table : PinTable} {backends : List Backend} {filter : Option IdFilter}
    {plan : Plan} (made : build d root table backends filter adopt = .ok plan) :
    ∃ placed, table.validate backends = .ok placed ∧ plan.root = root ∧
      List.Forall₂ (fun p planned =>
        ofPlaced d root (placed.map (·.destination)) adopt p = .ok planned)
        (placed.filter (selects filter)) plan.pins := by
  unfold build at made
  cases valid : table.validate backends with
  | error e => simp [valid, bind, Except.bind] at made
  | ok placed =>
    generalize whole : placed.map (·.destination) = all
    have planned : ∀ checked : Except ConfigError Unit, (do
        checked
        let pins ← (placed.filter (selects filter)).mapM (ofPlaced d root all adopt)
        return (⟨root, pins⟩ : Plan)) = .ok plan → plan.root = root ∧
          (placed.filter (selects filter)).mapM (ofPlaced d root all adopt) = .ok plan.pins := by
      intro checked made
      cases checked with
      | error e => simp [bind, Except.bind] at made
      | ok _ =>
        simp only [bind, Except.bind, pure, Except.pure] at made
        split at made
        · cases made
        · rename_i pins listed
          cases made
          exact ⟨rfl, listed⟩
    simp only [valid, bind, Except.bind] at made
    rw [whole] at made
    refine ⟨placed, rfl, ?_⟩
    rw [whole]
    cases filter with
    | none => exact (planned (.ok ()) made).imp_right mapM_ok
    | some filter => exact (planned _ made).imp_right mapM_ok

theorem selected_of_build {table : PinTable} {backends : List Backend} {filter : Option IdFilter}
    {plan : Plan} {placed : List PlacedPin} (valid : table.validate backends = .ok placed)
    (made : build d root table backends filter adopt = .ok plan) :
    plan.pins.map (·.toPlacedPin) = placed.filter (selects filter) := by
  obtain ⟨_, valid', -, each⟩ := build_ok made
  cases valid.symm.trans valid'
  rw [← List.forall₂_eq_eq_eq, List.forall₂_map_left_iff]
  exact each.flip.imp fun p q made => (ofPlaced_ok made).1

theorem distinct_of_build {table : PinTable} {backends : List Backend} {filter : Option IdFilter}
    {plan : Plan} (made : build d root table backends filter adopt = .ok plan) :
    (plan.pins.map (·.destination)).Nodup := by
  obtain ⟨placed, valid, -, -⟩ := build_ok made
  have same : plan.pins.map (·.destination) = (placed.filter (selects filter)).map (·.destination) := by
    rw [← selected_of_build valid made, List.map_map]
    rfl
  rw [same]
  exact List.pairwise_map.mpr ((PinTable.validate_ok valid).1.apart.filter _)

theorem mapM_of_ok {ε α β : Type} {f : α → Except ε β} {g : α → β} {l : List α}
    (each : ∀ a ∈ l, f a = .ok (g a)) : l.mapM f = .ok (l.map g) := by
  refine mapM_of_forall₂ (List.forall₂_map_right_iff.mpr ?_)
  exact List.forall₂_same.mpr each

theorem build_again {e : Disk} {table : PinTable} {backends : List Backend}
    {filter : Option IdFilter} {plan : Plan} {placed : List PlacedPin}
    {again : PlacedPin → PlannedPin}
    (made : build d root table backends filter adopt = .ok plan)
    (valid : table.validate backends = .ok placed)
    (each : ∀ p ∈ placed.filter (selects filter),
      ofPlaced e root (placed.map (·.destination)) adopt p = .ok (again p)) :
    build e root table backends filter adopt
      = .ok ⟨root, (placed.filter (selects filter)).map again⟩ := by
  have mapped := mapM_of_ok each
  unfold build at made ⊢
  simp only [valid, bind, Except.bind] at made ⊢
  cases filter with
  | none => simp only [pure, Except.pure, mapped]
  | some filter =>
    cases checked : checkFilter table filter with
    | error fault => simp [checked] at made
    | ok _ => simp only [checked, mapped, pure, Except.pure]

end Plan

end PinnedTree
