import PinnedTree.Proofs.Files
import PinnedTree.Transaction

namespace PinnedTree.Transaction

/-- A root with the directory it leads to, the slot of a pin, and the names of the destination below
the root and of those nested in it. In a shared room something may also change beside the directory
that a backend is given. -/
structure Site where
  root : Location
  top : DiskPath
  slot : String
  dest : List String
  nested : List (List String)
  shared : Bool := true

namespace Site

variable (s : Site)

def opened : Site := { s with shared := true }

def stagingNames : List String := [stateDirectory, "staging", s.slot]

def backupNames : List String := [stateDirectory, "backup", s.slot]

def journalNames : List String := [stateDirectory, "backup", journalName s.slot]

def destination : DiskPath := s.top ++ s.dest

def workshop : DiskPath := s.top ++ [stateDirectory, "staging"]

def staged : DiskPath := s.top ++ s.stagingNames

def aside : DiskPath := s.top ++ s.backupNames

def journal : DiskPath := s.top ++ s.journalNames

def Room (p : DiskPath) : Prop :=
  Disk.Inside s.workshop p ∧ (s.shared = true ∨ s.staged <+: p)

def Touches (p : DiskPath) : Prop :=
  s.Room p ∨ s.aside <+: p ∨ s.journal <+: p ∨ s.destination <+: p

/-- What has to hold of a disk before: no link stands where the program keeps its state, or on the
way to the destination and to what is nested in it. -/
structure Ready (d : Disk) : Prop where
  sound : d.Sound
  rooted : d.Rooted s.root s.top
  slotted : IsName s.slot
  inner : s.dest ≠ []
  plain : ∀ name ∈ s.dest, IsName name
  unreserved : s.dest.head? ≠ some stateDirectory
  nestedInner : ∀ c ∈ s.nested, c ≠ []
  nestedPlain : ∀ c ∈ s.nested, ∀ name ∈ c, IsName name
  nestedOnce : s.nested.Nodup
  nestedApart : ∀ a ∈ s.nested, ∀ b ∈ s.nested, a ≠ b → Disk.Apart a b
  clear : d.Clear s.top s.dest
  nestedClear : ∀ c ∈ s.nested, d.Clear s.top (s.dest ++ c)
  own : ∀ names ∈ [[stateDirectory], [stateDirectory, "staging"], [stateDirectory, "backup"],
    s.stagingNames, s.journalNames], ∀ target, d.look (s.top ++ names) ≠ some (.link target)

/-- A disk like another, except at and below the places that may change and for directories that
lead to them. -/
structure Near (d e : Disk) : Prop where
  sound : e.Sound
  home : e.home = d.home
  elsewhere : ∀ p, ¬ s.Touches p → e.look p = d.look p ∨
    (d.look p = none ∧ e.look p = some .dir ∧ (p <+: s.destination ∨ p <+: s.staged))

variable {s} {d e f : Disk} {names : List String}

theorem Ready.head (ready : s.Ready d) :
    ∃ first rest, s.dest = first :: rest ∧ first ≠ stateDirectory := by
  obtain ⟨first, rest, same⟩ := List.exists_cons_of_ne_nil ready.inner
  refine ⟨first, rest, same, ?_⟩
  have := ready.unreserved
  simpa [same] using this

theorem Ready.apart_own (ready : s.Ready d) (rest : List String) :
    Disk.Apart s.destination (s.top ++ stateDirectory :: rest) := by
  obtain ⟨first, more, same, other⟩ := ready.head
  rw [destination, same, Disk.apart_append_left]
  exact Disk.apart_cons other

theorem Ready.destination_aside (ready : s.Ready d) : Disk.Apart s.destination s.aside :=
  ready.apart_own _

theorem Ready.destination_staged (ready : s.Ready d) : Disk.Apart s.destination s.staged :=
  ready.apart_own _

theorem Ready.destination_journal (ready : s.Ready d) : Disk.Apart s.destination s.journal :=
  ready.apart_own _

theorem Ready.destination_workshop (ready : s.Ready d) : Disk.Apart s.destination s.workshop :=
  ready.apart_own _

theorem staged_aside (s : Site) : Disk.Apart s.staged s.aside := by
  simp [Disk.Apart, staged, aside, stagingNames, backupNames, List.prefix_append_right_inj,
    List.cons_prefix_cons]

theorem staged_journal (s : Site) : Disk.Apart s.staged s.journal := by
  simp [Disk.Apart, staged, journal, stagingNames, journalNames, List.prefix_append_right_inj,
    List.cons_prefix_cons]

theorem journalName_ne (slot : String) : journalName slot ≠ slot := by
  intro same
  have := congrArg (fun text => text.toList.length) same
  simp [journalName] at this

theorem aside_journal (s : Site) : Disk.Apart s.aside s.journal := by
  simp [Disk.Apart, aside, journal, backupNames, journalNames, List.prefix_append_right_inj,
    List.cons_prefix_cons, journalName_ne, Ne.symm (journalName_ne s.slot)]

theorem aside_workshop (s : Site) : Disk.Apart s.aside s.workshop := by
  simp [Disk.Apart, aside, workshop, backupNames, List.prefix_append_right_inj,
    List.cons_prefix_cons]

theorem staged_eq (s : Site) : s.staged = s.workshop ++ [s.slot] := by
  simp [staged, workshop, stagingNames]

theorem workshop_staged (s : Site) : Disk.Inside s.workshop s.staged := by
  simp [Disk.Inside, workshop, staged, stagingNames, List.prefix_append_right_inj]

theorem room_staged (s : Site) (rest : DiskPath) : s.Room (s.staged ++ rest) :=
  ⟨⟨s.workshop_staged.1.trans (List.prefix_append _ _), fun same =>
    s.workshop_staged.not_under (same ▸ List.prefix_append _ _)⟩, .inr (List.prefix_append _ _)⟩

theorem touches_staged (s : Site) (rest : DiskPath) : s.Touches (s.staged ++ rest) :=
  .inl (s.room_staged rest)

theorem touches_aside (s : Site) (rest : DiskPath) : s.Touches (s.aside ++ rest) :=
  .inr (.inl (List.prefix_append _ _))

theorem touches_journal (s : Site) (rest : DiskPath) : s.Touches (s.journal ++ rest) :=
  .inr (.inr (.inl (List.prefix_append _ _)))

theorem touches_destination (s : Site) (rest : DiskPath) : s.Touches (s.destination ++ rest) :=
  .inr (.inr (.inr (List.prefix_append _ _)))

theorem Ready.inside_top (ready : s.Ready d) {p : DiskPath} (touched : s.Touches p) :
    Disk.Inside s.top p := by
  have proper : ∀ names : List String, names ≠ [] → s.top ++ names <+: p → Disk.Inside s.top p := by
    rintro names inner ⟨rest, rfl⟩
    simp [Disk.Inside, inner]
  rcases touched with ⟨⟨under, -⟩, -⟩ | under | under | under
  · exact proper _ (by simp) under
  · exact proper _ (by simp [backupNames]) under
  · exact proper _ (by simp [journalNames]) under
  · exact proper _ ready.inner under

theorem Ready.way_untouched (ready : s.Ready d) {r : List String} (under : r <+: s.dest)
    (other : r ≠ s.dest) : ¬ s.Touches (s.top ++ r) := by
  have own : ∀ rest : List String, ¬ s.top ++ stateDirectory :: rest <+: s.top ++ r := by
    intro rest inside
    apply (ready.apart_own rest).2
    exact inside.trans ((List.prefix_append_right_inj _).mpr under)
  rintro (⟨⟨inside, -⟩, -⟩ | inside | inside | inside)
  · exact own _ inside
  · exact own _ inside
  · exact own _ inside
  · have longer := (List.prefix_append_right_inj s.top).mp inside
    exact other (under.eq_of_length_le longer.length_le)

theorem Ready.own_untouched (ready : s.Ready d) {room name : String} {r : List String}
    (under : r <+: [stateDirectory, room, name]) (other : r ≠ [stateDirectory, room, name]) :
    ¬ s.Touches (s.top ++ r) := by
  have short : r.length ≤ 2 := by
    have := under.length_le
    by_contra long
    exact other (under.eq_of_length_le (by simp at this ⊢; omega))
  rintro (⟨⟨inside, longer⟩, -⟩ | inside | inside | inside)
  · have le := inside.length_le
    simp only [workshop, List.length_append, List.length_cons, List.length_nil] at le
    exact longer (inside.eq_of_length_le (by simp [workshop]; omega)).symm
  · have := inside.length_le
    simp [aside, backupNames] at this
    omega
  · have := inside.length_le
    simp [journal, journalNames] at this
    omega
  · cases r with
    | nil =>
      have := inside.length_le
      simp only [destination, List.length_append, List.length_nil] at this
      exact ready.inner (List.length_eq_zero_iff.mp (by omega))
    | cons first rest =>
      obtain ⟨rfl, -⟩ := List.cons_prefix_cons.mp under
      exact (ready.apart_own rest).1 inside

theorem Ready.no_link_own (ready : s.Ready d) {room : String}
    (rooms : room = "staging" ∨ room = "backup") {r : List String} {name : String}
    (under : r <+: [stateDirectory, room, name]) (other : r ≠ [stateDirectory, room, name])
    (target : String) : d.look (s.top ++ r) ≠ some (.link target) := by
  rcases r with - | ⟨first, - | ⟨second, - | ⟨third, rest⟩⟩⟩
  · simp [ready.rooted.isDir]
  · obtain ⟨rfl, -⟩ := List.cons_prefix_cons.mp under
    exact ready.own _ (by simp) target
  · obtain ⟨rfl, inner⟩ := List.cons_prefix_cons.mp under
    obtain ⟨rfl, -⟩ := List.cons_prefix_cons.mp inner
    exact ready.own _ (by rcases rooms with rfl | rfl <;> simp) target
  · exact absurd (under.eq_of_length_le (by simp)) other

theorem Room.opened {p : DiskPath} (inner : s.Room p) : s.opened.Room p := ⟨inner.1, .inl rfl⟩

theorem Touches.opened {p : DiskPath} (touched : s.Touches p) : s.opened.Touches p :=
  Or.imp_left Room.opened touched

theorem Ready.opened (ready : s.Ready d) : s.opened.Ready d := { ready with }

theorem Near.opened (near : s.Near d e) : s.opened.Near d e where
  sound := near.sound
  home := near.home
  elsewhere p outside := near.elsewhere p fun touched => outside touched.opened

theorem Near.refl (sound : d.Sound) : s.Near d d := ⟨sound, rfl, fun _ _ => .inl rfl⟩

theorem Near.of_same (near : s.Near d e) (sound : f.Sound) (home : f.home = e.home)
    (same : ∀ p, ¬ s.Touches p → f.look p = e.look p) : s.Near d f where
  sound := sound
  home := home.trans near.home
  elsewhere p outside := by
    rw [same p outside]
    exact near.elsewhere p outside

theorem Near.built {goal : DiskPath} (near : s.Near d e) (built : e.Built f goal) (sound : f.Sound)
    (home : f.home = e.home)
    (leads : ∀ p, p <+: goal → ¬ s.Touches p → p <+: s.destination ∨ p <+: s.staged) :
    s.Near d f where
  sound := sound
  home := home.trans near.home
  elsewhere p outside := by
    rcases built p with same | ⟨free, made, under⟩
    · rw [same]
      exact near.elsewhere p outside
    · rcases near.elsewhere p outside with same | ⟨-, made', -⟩
      · exact .inr ⟨same ▸ free, made, leads p under outside⟩
      · rw [free] at made'
        cases made'

theorem Near.no_link {p : DiskPath} (near : s.Near d e) (outside : ¬ s.Touches p)
    (plain : ∀ target, d.look p ≠ some (.link target)) (target : String) :
    e.look p ≠ some (.link target) := by
  rcases near.elsewhere p outside with same | ⟨-, made, -⟩
  · rw [same]
    exact plain target
  · simp [made]

theorem Near.rooted (near : s.Near d e) (ready : s.Ready d) : e.Rooted s.root s.top := by
  refine ready.rooted.congr near.home fun p outside => ?_
  have untouched : ¬ s.Touches p := fun touched => outside (ready.inside_top touched)
  rcases near.elsewhere p untouched with same | ⟨free, -, under⟩
  · exact same
  · exfalso
    have comparable : s.top <+: p ∨ p <+: s.top := by
      rcases under with under | under
      · exact List.prefix_or_prefix_of_prefix (List.prefix_append _ _) under
      · exact List.prefix_or_prefix_of_prefix (List.prefix_append _ _) under
    rcases comparable with below | above
    · refine outside ⟨below, ?_⟩
      rintro rfl
      simp [ready.rooted.isDir] at free
    · have := ready.sound.none_under free above
      simp [ready.rooted.isDir] at this

theorem Near.straight_destination (near : s.Near d e) (ready : s.Ready d) :
    e.Straight s.root s.top s.dest where
  rooted := near.rooted ready
  plain := ready.plain
  inner := ready.inner
  clear _ under other := near.no_link (ready.way_untouched under other) (ready.clear _ under other)

theorem stateDirectory_isName : IsName stateDirectory := by decide

theorem journalName_isName {slot : String} (slotted : IsName slot) : IsName (journalName slot) := by
  obtain ⟨-, -, -, unslashed⟩ := slotted
  have letters : (journalName slot).toList = slot.toList ++ ['.', 'j', 's', 'o', 'n'] := by
    simp [journalName]
  refine ⟨?_, ?_, ?_, ?_⟩
  · intro same
    simp [same] at letters
  · intro same
    have := congrArg List.length letters
    simp [same] at this
  · intro same
    have := congrArg List.length letters
    simp [same] at this
  · simp [letters, unslashed]

theorem Ready.callable_aside (ready : s.Ready d) (callable : s.root.Callable s.journalNames) :
    s.root.Callable s.backupNames := by
  have written : s.root.Callable ([stateDirectory, "backup"] ++ [s.slot ++ ".json"]) := callable
  refine written.shorten ?_
  have room : IsName "backup" := by decide
  simp [stateDirectory_isName, room, ready.slotted]

theorem Near.straight_own (near : s.Near d e) (ready : s.Ready d) {room name : String}
    (rooms : room = "staging" ∨ room = "backup") (named : IsName name) :
    e.Straight s.root s.top [stateDirectory, room, name] where
  rooted := near.rooted ready
  plain := by
    have roomName : IsName room := by rcases rooms with rfl | rfl <;> decide
    simp [stateDirectory_isName, roomName, named]
  inner := by simp
  clear _ under other := near.no_link (ready.own_untouched under other)
    (ready.no_link_own rooms under other)

theorem Near.straight_staged (near : s.Near d e) (ready : s.Ready d) :
    e.Straight s.root s.top s.stagingNames := near.straight_own ready (.inl rfl) ready.slotted

theorem Near.straight_aside (near : s.Near d e) (ready : s.Ready d) :
    e.Straight s.root s.top s.backupNames := near.straight_own ready (.inr rfl) ready.slotted

theorem Near.straight_journal (near : s.Near d e) (ready : s.Ready d) :
    e.Straight s.root s.top s.journalNames :=
  near.straight_own ready (.inr rfl) (journalName_isName ready.slotted)

end Site

end PinnedTree.Transaction
