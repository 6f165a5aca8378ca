import Mathlib.Data.List.Forall2
import Mathlib.Data.List.Perm.Basic
import PinnedTree.Proofs.Lists
import PinnedTree.Proofs.Text.Keyed
import PinnedTree.Table.Documents

namespace PinnedTree

abbrev PinFields := List (String × Option String)

def Datum.ofField : Option String → Datum
  | some value => .text value
  | none => .absent

def Datum.ofFields (fields : PinFields) : List (String × Datum) :=
  fields.map fun field => (field.1, Datum.ofField field.2)

namespace ListedPin

/-- The ways to give one part of a pin: under one of its names; a part that is left out may also
stand there with nothing. -/
inductive Part (names : List String) : Option String → PinFields → Prop
  | text {name value : String} (named : name ∈ names) : Part names (some value) [(name, some value)]
  | nothing {name : String} (named : name ∈ names) : Part names none [(name, none)]
  | omitted : Part names none []

def GivenBy (listed : ListedPin) (fields : PinFields) : Prop :=
  ∃ id revision destination locator,
    Part idNames listed.id id ∧ Part revisionNames (some listed.revision) revision ∧
      Part destinationNames (some listed.destination) destination ∧
      Part locatorNames listed.locator locator ∧
      fields.Perm (id ++ (revision ++ (destination ++ locator)))

variable {names others : List String} {given : Option String} {value : String}
  {part fields more : PinFields} {listed : ListedPin}

theorem GivenBy.perm (givenBy : listed.GivenBy fields) (perm : more.Perm fields) :
    listed.GivenBy more := by
  obtain ⟨id, revision, destination, locator, hasId, hasRevision, hasDestination, hasLocator, same⟩ :=
    givenBy
  exact ⟨id, revision, destination, locator, hasId, hasRevision, hasDestination, hasLocator,
    perm.trans same⟩

theorem Part.named (isPart : Part names given part) : ∀ field ∈ part, field.1 ∈ names := by
  cases isPart with
  | text named => simpa using named
  | nothing named => simpa using named
  | omitted => simp

theorem Part.once (isPart : Part names given part) : (part.map (·.1)).Nodup := by
  cases isPart
  all_goals simp

theorem named_append (named : ∀ field ∈ part, field.1 ∈ names)
    (named' : ∀ field ∈ more, field.1 ∈ others) :
    ∀ field ∈ part ++ more, field.1 ∈ names ++ others := by
  intro field member
  rw [List.mem_append] at member ⊢
  rcases member with here | here
  · exact .inl (named field here)
  · exact .inr (named' field here)

theorem once_append (once : (part.map (·.1)).Nodup) (once' : (more.map (·.1)).Nodup)
    (named : ∀ field ∈ part, field.1 ∈ names) (named' : ∀ field ∈ more, field.1 ∈ others)
    (apart : ∀ name ∈ names, name ∉ others) : ((part ++ more).map (·.1)).Nodup := by
  rw [List.map_append, List.nodup_append]
  refine ⟨once, once', ?_⟩
  rintro name here other there rfl
  obtain ⟨field, member, same⟩ := List.mem_map.mp here
  obtain ⟨field', member', rfl⟩ := List.mem_map.mp there
  exact apart _ (named field member) (same ▸ named' field' member')

theorem giving_append (names : List String) (members members' : List (String × Datum)) :
    giving names (members ++ members') = giving names members ++ giving names members' := by
  simp [giving]

theorem giving_own (named : ∀ field ∈ part, field.1 ∈ names) :
    giving names (Datum.ofFields part) = part.map fun field => Datum.ofField field.2 := by
  have all : (Datum.ofFields part).filter (·.1 ∈ names) = Datum.ofFields part := by
    rw [List.filter_eq_self]
    intro member listed
    obtain ⟨field, there, rfl⟩ := List.mem_map.mp listed
    simpa using named field there
  rw [giving, all, Datum.ofFields, List.map_map]
  rfl

theorem giving_other (named : ∀ field ∈ part, field.1 ∈ others)
    (apart : ∀ name ∈ others, name ∉ names) : giving names (Datum.ofFields part) = [] := by
  have none : (Datum.ofFields part).filter (·.1 ∈ names) = [] := by
    rw [List.filter_eq_nil_iff]
    intro member listed
    obtain ⟨field, there, rfl⟩ := List.mem_map.mp listed
    simpa using apart _ (named field there)
  rw [giving, none, List.map_nil]

theorem atMostOnce?_part (isPart : Part names given part) {members : List (String × Datum)}
    (same : (giving names members).Perm (part.map fun field => Datum.ofField field.2)) :
    atMostOnce? names members = some given := by
  cases isPart with
  | text => rw [atMostOnce?, List.perm_singleton.mp same]; rfl
  | nothing => rw [atMostOnce?, List.perm_singleton.mp same]; rfl
  | omitted => rw [atMostOnce?, List.perm_nil.mp same]

theorem once?_part (isPart : Part names (some value) part) {members : List (String × Datum)}
    (same : (giving names members).Perm (part.map fun field => Datum.ofField field.2)) :
    once? names members = some value := by
  cases isPart with
  | text => rw [once?, List.perm_singleton.mp same]; rfl

theorem ofMembers?_given (givenBy : listed.GivenBy fields) :
    ofMembers? (Datum.ofFields fields) = some listed := by
  obtain ⟨id, revision, destination, locator, hasId, hasRevision, hasDestination, hasLocator, perm⟩ :=
    givenBy
  have members : (Datum.ofFields fields).Perm (Datum.ofFields id ++ (Datum.ofFields revision ++
      (Datum.ofFields destination ++ Datum.ofFields locator))) := by
    simpa [Datum.ofFields] using perm.map fun field => (field.1, Datum.ofField field.2)
  have given : ∀ names, (giving names (Datum.ofFields fields)).Perm (giving names (Datum.ofFields id)
      ++ (giving names (Datum.ofFields revision) ++ (giving names (Datum.ofFields destination)
      ++ giving names (Datum.ofFields locator)))) := by
    intro names
    rw [← giving_append, ← giving_append, ← giving_append]
    exact (members.filter (·.1 ∈ names)).map (·.2)
  have ids := given idNames
  rw [giving_own hasId.named, giving_other hasRevision.named (by decide),
    giving_other hasDestination.named (by decide), giving_other hasLocator.named (by decide)] at ids
  have revisions := given revisionNames
  rw [giving_other hasId.named (by decide), giving_own hasRevision.named,
    giving_other hasDestination.named (by decide), giving_other hasLocator.named (by decide)]
    at revisions
  have destinations := given destinationNames
  rw [giving_other hasId.named (by decide), giving_other hasRevision.named (by decide),
    giving_own hasDestination.named, giving_other hasLocator.named (by decide)] at destinations
  have locators := given locatorNames
  rw [giving_other hasId.named (by decide), giving_other hasRevision.named (by decide),
    giving_other hasDestination.named (by decide), giving_own hasLocator.named] at locators
  simp only [List.append_nil, List.nil_append] at ids revisions destinations locators
  have named := named_append hasId.named
    (named_append hasRevision.named (named_append hasDestination.named hasLocator.named))
  have known : (Datum.ofFields fields).all (fun member => decide (member.1 ∈ idNames ++
      revisionNames ++ destinationNames ++ locatorNames)) = true := by
    rw [List.all_eq_true]
    intro member listed
    obtain ⟨field, there, rfl⟩ := List.mem_map.mp listed
    rw [List.append_assoc, List.append_assoc]
    exact decide_eq_true (named field (perm.mem_iff.mp there))
  simp only [ofMembers?, known, if_true, atMostOnce?_part hasId ids, once?_part hasRevision revisions,
    once?_part hasDestination destinations, atMostOnce?_part hasLocator locators]
  rfl

theorem GivenBy.distinct (givenBy : listed.GivenBy fields) : (fields.map (·.1)).Nodup := by
  obtain ⟨id, revision, destination, locator, hasId, hasRevision, hasDestination, hasLocator, perm⟩ :=
    givenBy
  rw [(perm.map (·.1)).nodup_iff]
  have two := once_append hasDestination.once hasLocator.once hasDestination.named hasLocator.named
    (by decide)
  have namedTwo := named_append hasDestination.named hasLocator.named
  have three := once_append hasRevision.once two hasRevision.named namedTwo (by decide)
  exact once_append hasId.once three hasId.named (named_append hasRevision.named namedTwo)
    (by decide)

end ListedPin

namespace PinTable

open ListedPin

variable {entries : List (String × ListedPin)} {listed : List ListedPin} {items : List Datum}
  {members : List (String × Datum)}

def strays (entry : String × ListedPin) : Bool := entry.2.id.any (· ≠ entry.1)

/-- The table of pins under their ids; the first of them that gives itself another id is refused. -/
def ofIds (entries : List (String × ListedPin)) : Except TableError PinTable :=
  match entries.find? strays with
  | some entry => .error (.keyMismatch entry.1 (entry.2.id.getD ""))
  | none => .ok ⟨entries.map fun entry => entry.2.pin entry.1⟩

theorem mapM_some {α β : Type} {f : β → Option α} {as : List α} {bs : List β}
    (each : List.Forall₂ (fun a b => f b = some a) as bs) : bs.mapM f = some as := by
  induction each with
  | nil => rfl
  | cons first rest ih =>
    rw [List.mapM_cons, first, ih]
    rfl

theorem ofKeyed_first (entries : List (String × ListedPin)) :
    ofKeyed entries
      = match entries.find? strays with
        | some entry => .error (.keyMismatch entry.1 (entry.2.id.getD ""))
        | none => .ok (entries.map fun entry => entry.2.pin entry.1) := by
  induction entries with
  | nil => rfl
  | cons entry entries ih =>
    obtain ⟨key, entry⟩ := entry
    have onward : strays (key, entry) = false →
        (do return entry.pin key :: (← ofKeyed entries) : Except TableDefect (List Pin))
          = match ((key, entry) :: entries).find? strays with
            | some entry => .error (.keyMismatch entry.1 (entry.2.id.getD ""))
            | none => .ok (((key, entry) :: entries).map fun entry => entry.2.pin entry.1) := by
      intro agrees
      rw [ih, List.find?_cons_of_neg (by simp [agrees])]
      cases entries.find? strays <;> rfl
    rw [ofKeyed]
    split
    · rename_i id given
      split
      · rename_i same
        exact onward (by simp [strays, given, same])
      · rename_i other
        have differs : strays (key, entry) = true := by simp [strays, given, other]
        rw [List.find?_cons_of_pos differs]
        simp [given]
    · rename_i given
      exact onward (by simp [strays, given])

theorem ofFormed_list (each : List.Forall₂ (fun pin item => ofDatum? item = some pin) listed items) :
    hasForm (.list items) = true ∧
      ofFormed (.list items) = .ok ⟨listed.map fun entry => entry.pin (entry.id.getD "")⟩ := by
  simp only [hasForm, ofFormed, ofDatum, mapM_some each]
  exact ⟨trivial, rfl⟩

theorem ofFormed_fields (each : List.Forall₂ (fun entry member => member.1 = entry.1 ∧
      ofDatum? member.2 = some entry.2) entries members) :
    hasForm (.fields members) = true ∧ ofFormed (.fields members) = ofIds entries := by
  have read : members.mapM (fun member => (ofDatum? member.2).map (member.1, ·)) = some entries :=
    mapM_some (each.imp fun entry member same => by rw [same.2, same.1]; rfl)
  simp only [hasForm, ofFormed, ofDatum, read, ofKeyed_first, ofIds]
  cases entries.find? strays <;> exact ⟨rfl, rfl⟩

end PinTable

end PinnedTree
