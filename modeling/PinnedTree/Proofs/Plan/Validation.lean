import Mathlib.Data.List.Forall2
import Mathlib.Data.List.Induction
import Mathlib.Data.List.Pairwise
import PinnedTree.Plan.Validation
import PinnedTree.Proofs.Lists

namespace PinnedTree

variable {backends : List Backend} {earlier pins : List Pin} {pin first : Pin} {e : ConfigError}

inductive Rule
  | idGiven
  | idUnused
  | revisionGiven
  | pathAccepted
  | placeFree
  | locatorClaimed

namespace Rule

def all : List Rule :=
  [idGiven, idUnused, revisionGiven, pathAccepted, placeFree, locatorClaimed]

theorem forall_mem_all {holds : Rule → Prop} : (∀ rule ∈ all, holds rule) ↔ ∀ rule, holds rule :=
  ⟨fun each rule => each rule (by cases rule <;> simp [all]), fun each rule _ => each rule⟩

/-- A pin breaks a rule, by itself or because of the pins before it, and this is the error for it. -/
def Breaks (backends : List Backend) (earlier : List Pin) (pin : Pin) : Rule → ConfigError → Prop
  | idGiven, e => e = .emptyId ∧ pin.id = ""
  | idUnused, e => e = .duplicateId pin.id ∧ ∃ first ∈ earlier, first.id = pin.id
  | revisionGiven, e => e = .emptyRevision pin.id ∧ pin.revision = ""
  | pathAccepted, e => PlacedPin.destinationOf pin.id pin.destination = .error e
  | placeFree, e => ∃ first ∈ earlier, ∃ destination,
      Destination.parse first.destination = .ok destination ∧
      Destination.parse pin.destination = .ok destination ∧
      e = .overlappingPath first.id pin.id destination.text
  | locatorClaimed, e => e = .noBackend pin.id pin.locator ∧
      ∀ backend ∈ backends, backend.handles pin.locator = false

end Rule

def Pin.Keeps (backends : List Backend) (earlier : List Pin) (pin : Pin) : Prop :=
  ∀ rule e, ¬ Rule.Breaks backends earlier pin rule e

def FirstBroken (breaks : Rule → ConfigError → Prop) : List Rule → ConfigError → Prop
  | [], _ => False
  | rule :: rest, e => breaks rule e ∨ (∀ other, ¬ breaks rule other) ∧ FirstBroken breaks rest e

def KeptBy (backends : List Backend) (pins : List Pin) : Prop :=
  ∀ before pin, before ++ [pin] <+: pins → pin.Keeps backends before

def RefusedFor (backends : List Backend) (pins : List Pin) (e : ConfigError) : Prop :=
  ∃ earlier pin later, pins = earlier ++ pin :: later ∧ KeptBy backends earlier ∧
    FirstBroken (Rule.Breaks backends earlier pin) Rule.all e

/-- A table that can be relied on: ids and revisions are given, every path names a destination, no two
pins share an id or a destination, and some backend claims every locator. -/
structure SoundPins (backends : List Backend) (pins : List Pin) : Prop where
  named : ∀ pin ∈ pins, pin.id ≠ ""
  ids : pins.Pairwise fun a b => a.id ≠ b.id
  revised : ∀ pin ∈ pins, pin.revision ≠ ""
  placed : ∀ pin ∈ pins, ∃ destination, Destination.parse pin.destination = .ok destination
  apart : pins.Pairwise fun a b => ∀ destination,
    Destination.parse a.destination = .ok destination →
    Destination.parse b.destination ≠ .ok destination
  claimed : ∀ pin ∈ pins, ∃ backend ∈ backends, backend.handles pin.locator = true

/-- A pin with the destination that its path names and the first backend that claims its locator. -/
structure PlacedPin.Places (backends : List Backend) (pin : Pin) (p : PlacedPin) : Prop where
  same : p.pin = pin
  destination : Destination.parse pin.destination = .ok p.destination
  backend : ∃ before after, backends = before ++ p.backend :: after ∧
    p.backend.handles pin.locator = true ∧
    ∀ other ∈ before, other.handles pin.locator = false

theorem PlacedPin.destinationOf_ok {id raw : String} {destination : Destination} :
    destinationOf id raw = .ok destination ↔ Destination.parse raw = .ok destination := by
  unfold destinationOf
  cases Destination.parse raw <;> simp [Except.mapError]

theorem keptBy_nil (backends : List Backend) : KeptBy backends [] := by
  intro before pin under
  simp at under

theorem keptBy_concat :
    KeptBy backends (earlier ++ [pin]) ↔ KeptBy backends earlier ∧ pin.Keeps backends earlier := by
  constructor
  · exact fun kept => ⟨fun before other under => kept before other (under.trans (List.prefix_append ..)),
      kept earlier pin (List.prefix_refl _)⟩
  · rintro ⟨kept, last⟩ before other under
    rcases List.prefix_concat_iff.mp under with same | under
    · obtain ⟨rfl, rfl⟩ : before = earlier ∧ other = pin := by simpa using same
      exact last
    · exact kept before other under

theorem Pin.keeps_iff : pin.Keeps backends earlier ↔ pin.id ≠ "" ∧
    (∀ first ∈ earlier, first.id ≠ pin.id) ∧ pin.revision ≠ "" ∧
    (∃ destination, Destination.parse pin.destination = .ok destination) ∧
    (∀ first ∈ earlier, ∀ destination, Destination.parse first.destination = .ok destination →
      Destination.parse pin.destination ≠ .ok destination) ∧
    ∃ backend ∈ backends, backend.handles pin.locator = true := by
  have path : (∀ e, ¬ Rule.Breaks backends earlier pin .pathAccepted e) ↔
      ∃ destination, Destination.parse pin.destination = .ok destination := by
    simp only [Rule.Breaks, PlacedPin.destinationOf]
    cases Destination.parse pin.destination <;> simp [Except.mapError]
  have place : (∀ e, ¬ Rule.Breaks backends earlier pin .placeFree e) ↔
      ∀ first ∈ earlier, ∀ destination, Destination.parse first.destination = .ok destination →
        Destination.parse pin.destination ≠ .ok destination :=
    ⟨fun kept first member destination there here => kept _ ⟨first, member, destination, there, here, rfl⟩,
      fun apart e ⟨first, member, destination, there, here, _⟩ =>
        apart first member destination there here⟩
  rw [Pin.Keeps, ← Rule.forall_mem_all]
  simp only [Rule.all, List.forall_mem_cons, path, place]
  simp [Rule.Breaks]

theorem soundPins_concat : SoundPins backends (earlier ++ [pin]) ↔
    SoundPins backends earlier ∧ pin.Keeps backends earlier := by
  rw [Pin.keeps_iff]
  constructor
  · rintro ⟨named, ids, revised, placed, apart, claimed⟩
    simp only [List.pairwise_append, List.forall_mem_append, List.forall_mem_singleton]
      at named ids revised placed apart claimed
    exact ⟨⟨named.1, ids.1, revised.1, placed.1, apart.1, claimed.1⟩,
      named.2, ids.2.2, revised.2, placed.2, apart.2.2, claimed.2⟩
  · rintro ⟨⟨named, ids, revised, placed, apart, claimed⟩, named', ids', revised', placed', apart',
      claimed'⟩
    constructor <;> simp only [List.pairwise_append, List.forall_mem_append, List.forall_mem_singleton]
    · exact ⟨named, named'⟩
    · exact ⟨ids, List.pairwise_singleton .., ids'⟩
    · exact ⟨revised, revised'⟩
    · exact ⟨placed, placed'⟩
    · exact ⟨apart, List.pairwise_singleton .., apart'⟩
    · exact ⟨claimed, claimed'⟩

theorem keptBy_iff : KeptBy backends pins ↔ SoundPins backends pins := by
  induction pins using List.reverseRecOn with
  | nil => exact iff_of_true (keptBy_nil backends) (by constructor <;> simp)
  | append_singleton earlier pin ih => rw [keptBy_concat, soundPins_concat, ih]

theorem SoundPins.same_of_destination {a b : Pin} {destination : Destination}
    (sound : SoundPins backends pins) (memberA : a ∈ pins) (memberB : b ∈ pins)
    (placeA : Destination.parse a.destination = .ok destination)
    (placeB : Destination.parse b.destination = .ok destination) : a = b := by
  by_contra other
  have : Std.Symm fun a b : Pin => ∀ destination, Destination.parse a.destination = .ok destination →
      Destination.parse b.destination ≠ .ok destination :=
    ⟨fun _ _ differ destination there here => differ destination here there⟩
  exact sound.apart.forall memberA memberB other destination placeA placeB

theorem Rule.Breaks.unique {rule : Rule} {e' : ConfigError} (kept : KeptBy backends earlier)
    (one : rule.Breaks backends earlier pin e) (two : rule.Breaks backends earlier pin e') :
    e = e' := by
  cases rule with
  | pathAccepted => exact Except.error.inj (one.symm.trans two)
  | placeFree =>
    obtain ⟨first, member, destination, there, here, rfl⟩ := one
    obtain ⟨first', member', destination', there', here', rfl⟩ := two
    cases here.symm.trans here'
    rw [(keptBy_iff.mp kept).same_of_destination member member' there there']
  | idGiven | idUnused | revisionGiven | locatorClaimed => exact one.1.trans two.1.symm

namespace FirstBroken

variable {breaks : Rule → ConfigError → Prop} {rules : List Rule} {e' : ConfigError}

theorem broken (first : FirstBroken breaks rules e) : ∃ rule, breaks rule e := by
  induction rules with
  | nil => cases first
  | cons rule rest ih =>
    rcases first with now | ⟨-, later⟩
    · exact ⟨rule, now⟩
    · exact ih later

theorem unique (functional : ∀ rule e e', breaks rule e → breaks rule e' → e = e')
    (one : FirstBroken breaks rules e) (two : FirstBroken breaks rules e') : e = e' := by
  induction rules with
  | nil => cases one
  | cons rule rest ih =>
    rcases one with one | ⟨kept, one⟩ <;> rcases two with two | ⟨kept', two⟩
    · exact functional rule e e' one two
    · exact absurd one (kept' e)
    · exact absurd two (kept e')
    · exact ih one two

end FirstBroken

theorem KeptBy.same_of_prefix {earlier' : List Pin} {pin' : Pin} (kept : KeptBy backends earlier')
    (broken : FirstBroken (Rule.Breaks backends earlier pin) Rule.all e)
    (under : earlier ++ [pin] <+: earlier' ++ [pin']) : earlier = earlier' ∧ pin = pin' := by
  rcases List.prefix_concat_iff.mp under with same | inner
  · simpa using same
  · obtain ⟨rule, breaks⟩ := broken.broken
    exact absurd breaks (kept earlier pin inner rule e)

namespace RefusedFor

theorem not_keptBy (refused : RefusedFor backends pins e) : ¬ KeptBy backends pins := by
  obtain ⟨earlier, pin, later, rfl, -, first⟩ := refused
  obtain ⟨rule, broken⟩ := first.broken
  exact fun kept => kept earlier pin (by simp) rule e broken

theorem unique {e' : ConfigError} (one : RefusedFor backends pins e)
    (two : RefusedFor backends pins e') : e = e' := by
  obtain ⟨earlier, pin, later, whole, kept, first⟩ := one
  obtain ⟨earlier', pin', later', whole', kept', first'⟩ := two
  have under : earlier ++ [pin] <+: pins := by simp [whole]
  have under' : earlier' ++ [pin'] <+: pins := by simp [whole']
  obtain ⟨rfl, rfl⟩ : earlier = earlier' ∧ pin = pin' := by
    rcases List.prefix_or_prefix_of_prefix under under' with one | two
    · exact kept'.same_of_prefix first one
    · obtain ⟨rfl, rfl⟩ := kept.same_of_prefix first' two
      exact ⟨rfl, rfl⟩
  have functional : ∀ rule e e', Rule.Breaks backends earlier pin rule e →
      Rule.Breaks backends earlier pin rule e' → e = e' := fun _ _ _ => Rule.Breaks.unique kept
  exact first.unique functional first'

end RefusedFor

/-- What a check of some rules comes to: all of them are kept and something is made, or the first that
is not tells the error. -/
def Judged {α : Type} (breaks : Rule → ConfigError → Prop) (made : α → Prop)
    (result : Except ConfigError α) (rules : List Rule) : Prop :=
  (∃ a, result = .ok a ∧ made a ∧ ∀ rule ∈ rules, ∀ e, ¬ breaks rule e) ∨
    ∃ e, result = .error e ∧ FirstBroken breaks rules e

namespace Judged

variable {α : Type} {breaks : Rule → ConfigError → Prop} {made : α → Prop} {a : α}
  {result : Except ConfigError α} {rule : Rule} {rules : List Rule}

theorem refuse (broken : breaks rule e) : Judged breaks made (.error e) (rule :: rules) :=
  .inr ⟨e, rfl, .inl broken⟩

theorem pass (kept : ∀ e, ¬ breaks rule e) (rest : Judged breaks made result rules) :
    Judged breaks made result (rule :: rules) := by
  obtain ⟨a, ran, good, each⟩ | ⟨e, failed, first⟩ := rest
  · exact .inl ⟨a, ran, good, by simpa using ⟨kept, each⟩⟩
  · exact .inr ⟨e, failed, .inr ⟨kept, first⟩⟩

theorem accept (good : made a) : Judged breaks made (.ok a) [] := .inl ⟨a, rfl, good, by simp⟩

end Judged

namespace PlacedPin

variable {done : List PlacedPin}

theorem ofPin_judged (backends : List Backend) (pin : Pin)
    (placed : ∀ p ∈ done, Destination.parse p.pin.destination = .ok p.destination) :
    Judged (Rule.Breaks backends (done.map (·.pin)) pin) (Places backends pin)
      (ofPin backends done pin) Rule.all := by
  unfold ofPin
  by_cases named : pin.id = ""
  · rw [if_pos (by simpa using named)]
    exact .refuse ⟨rfl, named⟩
  rw [if_neg (by simpa using named)]
  refine .pass (fun e breaks => named breaks.2) ?_
  by_cases used : ∃ p ∈ done, p.pin.id = pin.id
  · rw [if_pos (by simpa using used)]
    exact .refuse ⟨rfl, by simpa using used⟩
  rw [if_neg (by simpa using used)]
  refine .pass (fun e breaks => used (by simpa using breaks.2)) ?_
  by_cases revised : pin.revision = ""
  · rw [if_pos (by simpa using revised)]
    exact .refuse ⟨rfl, revised⟩
  rw [if_neg (by simpa using revised)]
  refine .pass (fun e breaks => revised breaks.2) ?_
  cases parsed : destinationOf pin.id pin.destination with
  | error e => exact .refuse parsed
  | ok destination =>
    refine .pass (fun e breaks => by cases parsed.symm.trans breaks) ?_
    have accepted := destinationOf_ok.mp parsed
    simp only [bind, Except.bind]
    cases taken : done.find? (·.destination = destination) with
    | some first =>
      have listed := List.mem_of_find?_eq_some taken
      obtain rfl : first.destination = destination := by simpa using List.find?_some taken
      exact .refuse ⟨first.pin, List.mem_map_of_mem listed, _, placed first listed, accepted, rfl⟩
    | none =>
      refine .pass ?_ ?_
      · rintro e ⟨_, member, other, there, same, -⟩
        obtain ⟨first, listed, rfl⟩ := List.mem_map.mp member
        cases accepted.symm.trans same
        cases (placed first listed).symm.trans there
        simpa using List.find?_eq_none.mp taken first listed
      cases resolved : Backend.resolve? backends pin.locator with
      | none => exact .refuse ⟨rfl, by simpa using List.find?_eq_none.mp resolved⟩
      | some backend =>
        obtain ⟨handles, before, after, whole, others⟩ := List.find?_eq_some_iff_append.mp resolved
        refine .pass (fun e breaks => ?_) (.accept ⟨rfl, accepted, before, after, whole, handles, ?_⟩)
        · rw [breaks.2 backend (by simp [whole])] at handles
          cases handles
        · simpa using others

theorem Places.resolved {p : PlacedPin} (places : Places backends pin p) :
    Backend.resolve? backends p.pin.locator = some p.backend := by
  obtain ⟨before, after, whole, handles, others⟩ := places.backend
  rw [places.same]
  exact List.find?_eq_some_iff_append.mpr ⟨handles, before, after, whole, by simpa using others⟩

theorem Places.pins_eq (places : List.Forall₂ (Places backends) earlier done) :
    done.map (·.pin) = earlier := by
  induction places with
  | nil => rfl
  | cons first _ ih => rw [List.map_cons, first.same, ih]

theorem Places.parsed (places : List.Forall₂ (Places backends) earlier done) :
    ∀ p ∈ done, Destination.parse p.pin.destination = .ok p.destination := by
  intro p member
  obtain ⟨pin, -, place⟩ := forall₂_of_mem places member
  exact place.same ▸ place.destination

theorem ofPins_judged (pins : List Pin) (kept : KeptBy backends earlier)
    (places : List.Forall₂ (Places backends) earlier done) :
    (∃ placed, ofPins backends done pins = .ok placed ∧
      List.Forall₂ (Places backends) (earlier ++ pins) placed ∧ KeptBy backends (earlier ++ pins)) ∨
    ∃ e, ofPins backends done pins = .error e ∧ RefusedFor backends (earlier ++ pins) e := by
  induction pins generalizing earlier done with
  | nil => exact .inl ⟨done, rfl, by simpa using ⟨places, kept⟩⟩
  | cons pin rest ih =>
    have whole : earlier ++ pin :: rest = earlier ++ [pin] ++ rest := by simp
    have judged := ofPin_judged backends pin (Places.parsed places)
    rw [Places.pins_eq places] at judged
    obtain ⟨p, first, place, keeps⟩ | ⟨e, first, broken⟩ := judged
    · have kept := keptBy_concat.mpr ⟨kept, Rule.forall_mem_all.mp keeps⟩
      have places := List.rel_append places (.cons place .nil)
      simpa only [ofPins, first, bind, Except.bind, whole] using ih kept places
    · exact .inr ⟨e, by simp [ofPins, first, bind, Except.bind], earlier, pin, rest, rfl, kept, broken⟩

end PlacedPin

namespace PinTable

theorem validate_judged (table : PinTable) (backends : List Backend) :
    (∃ placed, table.validate backends = .ok placed ∧
      List.Forall₂ (PlacedPin.Places backends) table.pins placed ∧ KeptBy backends table.pins) ∨
    ∃ e, table.validate backends = .error e ∧ RefusedFor backends table.pins e :=
  PlacedPin.ofPins_judged table.pins (keptBy_nil backends) .nil

theorem validate_places {table : PinTable} {placed : List PlacedPin}
    (valid : table.validate backends = .ok placed) :
    List.Forall₂ (PlacedPin.Places backends) table.pins placed ∧ SoundPins backends table.pins := by
  obtain ⟨same, ran, places, kept⟩ | ⟨e, failed, -⟩ := table.validate_judged backends
  · cases ran.symm.trans valid
    exact ⟨places, keptBy_iff.mp kept⟩
  · cases failed.symm.trans valid

/-- A table is accepted exactly if it is sound, and then its pins are placed in their order. Otherwise
the error is that of the first pin that breaks a rule, for the first rule that it breaks. -/
theorem validate_exact (table : PinTable) (backends : List Backend) :
    ((∃ placed, table.validate backends = .ok placed) ↔ SoundPins backends table.pins) ∧
    (∀ placed, table.validate backends = .ok placed →
      List.Forall₂ (PlacedPin.Places backends) table.pins placed) ∧
    ∀ e, table.validate backends = .error e ↔ RefusedFor backends table.pins e := by
  obtain ⟨placed, ran, places, kept⟩ | ⟨e, failed, refused⟩ := table.validate_judged backends
  · refine ⟨iff_of_true ⟨placed, ran⟩ (keptBy_iff.mp kept), fun other again => ?_, fun e => ?_⟩
    · cases ran.symm.trans again
      exact places
    · exact iff_of_false (by simp [ran]) fun refused => refused.not_keptBy kept
  · refine ⟨iff_of_false (by simp [failed]) fun sound => ?_, by simp [failed], fun other => ?_⟩
    · exact refused.not_keptBy (keptBy_iff.mpr sound)
    · rw [failed, Except.error.injEq]
      exact ⟨fun same => same ▸ refused, fun again => refused.unique again⟩

end PinTable

end PinnedTree
