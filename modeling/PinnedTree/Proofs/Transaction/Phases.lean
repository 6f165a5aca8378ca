import PinnedTree.Proofs.Transaction.Site

namespace PinnedTree.Transaction

variable {s : Site} {d e f : Disk} {new : DiskPath → Option Node} {note : ByteArray}
  {carried : List (List String)} {c : List String}

def SameTree (p : DiskPath) (d e : Disk) : Prop := ∀ r, e.look (p ++ r) = d.look (p ++ r)

theorem SameTree.below {p : DiskPath} (same : SameTree p d e) (r : DiskPath) :
    SameTree (p ++ r) d e := fun rest => by
  rw [List.append_assoc]
  exact same _

def Covered (carried : List (List String)) (r : DiskPath) : Prop := ∃ c ∈ carried, c <+: r

theorem covered_cons {r : DiskPath} : Covered (c :: carried) r ↔ c <+: r ∨ Covered carried r := by
  simp [Covered]

theorem not_prefix_dropLast (inner : c ≠ []) : ¬ c <+: c.dropLast := by
  intro under
  have longer := under.length_le
  have positive := List.length_pos_iff.mpr inner
  rw [List.length_dropLast] at longer
  omega

namespace Site

structure Fresh (s : Site) (new : DiskPath → Option Node) : Prop where
  isDir : new [] = some .dir
  hollow : ∀ r rest, new r = none → new (r ++ rest) = none
  clear : ∀ c ∈ s.nested, ∀ r, r <+: c → r ≠ c → ∀ target, new r ≠ some (.link target)

/-- The new content, with nested trees of the old one and directories that lead to them. -/
structure Overlaid (s : Site) (d : Disk) (new : DiskPath → Option Node)
    (carried : List (List String)) (e : Disk) : Prop where
  kept : ∀ r, Covered carried r → e.look (s.destination ++ r) = d.look (s.destination ++ r)
  fresh : ∀ r, ¬ Covered carried r → e.look (s.destination ++ r) = new r ∨
    (new r = none ∧ e.look (s.destination ++ r) = some .dir ∧
      ∃ c ∈ s.nested, r <+: c ∧ r ≠ c ∧ d.look (s.destination ++ c) ≠ none)

def Noted (s : Site) (d : Disk) (note : ByteArray) (e : Disk) : Prop :=
  d.look s.journal = none →
    e.look s.journal = some (.file note Files.plainMode) ∧ s.root.Callable s.journalNames

/-- A journal is being written, about content that is about to move or has come back. -/
structure Announced (s : Site) (d e : Disk) : Prop where
  here : s.root.Callable s.dest
  stood : d.look s.destination ≠ none
  written : s.root.Callable s.journalNames ∧ ∃ c m, e.look s.journal = some (.file c m)
  cleared : (∀ target, d.look s.aside ≠ some (.link target)) → e.look s.aside = none

structure Quiet (s : Site) (d e : Disk) : Prop extends s.Near d e where
  old : ∀ r, e.look (s.destination ++ r) = d.look (s.destination ++ r)
  bare : ∀ r, e.look (s.aside ++ r) = d.look (s.aside ++ r) ∨ e.look (s.aside ++ r) = none
  silent : d.look s.journal = none → e.look s.journal ≠ none → s.Announced d e

structure Movable (s : Site) (d : Disk) : Prop where
  stood : d.look s.destination ≠ none
  here : s.root.Callable s.dest
  there : s.root.Callable s.backupNames

structure Aside (s : Site) (d : Disk) (note : ByteArray) (e : Disk) : Prop
    extends s.Near d e, s.Movable d where
  held : e.Holds s.destination
  gone : ∀ r, e.look (s.destination ++ r) = none
  kept : ∀ r, e.look (s.aside ++ r) = d.look (s.destination ++ r)
  noted : s.Noted d note e

structure Carried (s : Site) (d : Disk) (new : DiskPath → Option Node) (c : List String) :
    Prop where
  listed : c ∈ s.nested
  stood : d.look (s.destination ++ c) ≠ none
  absent : new c = none
  here : s.root.Callable (s.dest ++ c)
  there : s.root.Callable (s.backupNames ++ c)

/-- The new content is in place, with some nested trees; the rest of the old one stands aside. -/
structure Placed (s : Site) (d : Disk) (new : DiskPath → Option Node) (note : ByteArray)
    (carried : List (List String)) (e : Disk) : Prop extends s.Near d e, s.Movable d where
  back : s.root.Callable s.stagingNames
  room : e.look s.workshop = some .dir
  once : carried.Nodup
  each : ∀ c ∈ carried, s.Carried d new c
  content : s.Overlaid d new carried e
  rest : ∀ r, ¬ Covered carried r → e.look (s.aside ++ r) = d.look (s.destination ++ r)
  taken : ∀ r, Covered carried r → e.look (s.aside ++ r) = none
  emptied : ∀ r, e.look (s.staged ++ r) = none
  noted : s.Noted d note e

/-- The new content is in place, with all nested trees that it has no room of its own for. -/
structure Done (s : Site) (d : Disk) (new : DiskPath → Option Node) (note : ByteArray)
    (carried : List (List String)) (e : Disk) : Prop extends s.Near d e where
  here : s.root.Callable s.dest
  each : ∀ c ∈ carried, s.Carried d new c
  settled : ∀ c ∈ s.nested, c ∈ carried ∨ d.look (s.destination ++ c) = none ∨ new c ≠ none ∨
    ¬ s.root.Callable (s.backupNames ++ c)
  content : s.Overlaid d new carried e
  taken : ∀ r, Covered carried r → e.look (s.aside ++ r) = none
  emptied : e.look s.staged = none
  leftover : ∀ r, e.look (s.aside ++ r) = none ∨
    e.look (s.aside ++ r) = d.look (s.aside ++ r) ∧
      (d.look s.journal = none → e.look s.journal = none) ∨
    s.root.Callable s.backupNames ∧ e.look (s.aside ++ r) = d.look (s.destination ++ r)
  noted : d.look s.journal = none → e.look s.journal = none ∨
    e.look s.journal = some (.file note Files.plainMode) ∧ s.root.Callable s.journalNames

theorem destination_append (s : Site) (r : List String) :
    s.destination ++ r = s.top ++ (s.dest ++ r) := List.append_assoc _ _ _

theorem aside_append (s : Site) (r : List String) :
    s.aside ++ r = s.top ++ (s.backupNames ++ r) := List.append_assoc _ _ _

theorem untouched_iff {p : DiskPath} : ¬ s.Touches p ↔
    ¬ s.Room p ∧ ¬ s.aside <+: p ∧ ¬ s.journal <+: p ∧ ¬ s.destination <+: p := by
  simp [Touches]

theorem Announced.congr (announced : s.Announced d e) (journal : f.look s.journal = e.look s.journal)
    (aside : f.look s.aside = e.look s.aside ∨ f.look s.aside = none) : s.Announced d f where
  here := announced.here
  stood := announced.stood
  written := ⟨announced.written.1, journal ▸ announced.written.2⟩
  cleared plain := by
    rcases aside with same | gone
    · rw [same, announced.cleared plain]
    · exact gone

/-- Outside the directory of the program's state and the destination nothing changes but for
directories that lead to the destination. -/
theorem Near.beside (near : s.Near d e) (ready : s.Ready d) {p : DiskPath}
    (outside : ¬ s.top ++ [stateDirectory] <+: p) (away : ¬ s.destination <+: p) :
    e.look p = d.look p ∨
      (d.look p = none ∧ e.look p = some .dir ∧ Disk.Inside p s.destination) := by
  have own : ∀ rest, ¬ s.top ++ stateDirectory :: rest <+: p := fun rest inner =>
    outside (List.IsPrefix.trans (by simp [List.prefix_append_right_inj]) inner)
  rcases near.elsewhere p (untouched_iff.mpr ⟨fun inner => own _ inner.1.1, own _, own _, away⟩)
    with same | ⟨free, made, above | above⟩
  · exact .inl same
  · exact .inr ⟨free, made, above, fun same => away (same ▸ List.prefix_refl _)⟩
  · exfalso
    rcases List.prefix_or_prefix_of_prefix above (List.prefix_append _ _) with high | low
    · have gone := ready.sound.none_under free high
      simp [ready.rooted.isDir] at gone
    · obtain ⟨rest, rfl⟩ := low
      have within := (List.prefix_append_right_inj s.top).mp above
      rcases rest with - | ⟨first, rest⟩
      · simp [ready.rooted.isDir] at free
      · obtain ⟨rfl, -⟩ := List.cons_prefix_cons.mp within
        exact own rest (List.prefix_refl _)

theorem Near.move {p q : DiskPath} (near : s.Near d e) (sound : (e.move p q).Sound)
    (apart : Disk.Apart p q) (source : ∀ r, s.Touches (p ++ r)) (target : ∀ r, s.Touches (q ++ r)) :
    s.Near d (e.move p q) := by
  refine near.of_same sound rfl fun r outside => Disk.look_move_other e apart ?_ ?_
  · rintro ⟨rest, rfl⟩
    exact outside (source rest)
  · rintro ⟨rest, rfl⟩
    exact outside (target rest)

theorem Noted.move {p q : DiskPath} (noted : s.Noted d note e) (apart : Disk.Apart p q)
    (source : Disk.Apart p s.journal) (target : Disk.Apart q s.journal) :
    s.Noted d note (e.move p q) := by
  intro free
  rw [Disk.look_move_other e apart source.1 target.1]
  exact noted free

theorem Ready.covered_apart (ready : s.Ready d) (each : ∀ c ∈ carried, s.Carried d new c)
    (listed : c ∈ s.nested) {r : List String} (under : r <+: c) (other : r ≠ c) :
    ¬ Covered carried r := by
  rintro ⟨k, member, above⟩
  by_cases same : k = c
  · subst same
    exact other (under.eq_of_length_le above.length_le)
  · exact (ready.nestedApart k (each k member).listed c listed same).1 (above.trans under)

theorem Ready.not_covered (ready : s.Ready d) (each : ∀ c ∈ carried, s.Carried d new c)
    (listed : c ∈ s.nested) (notCarried : c ∉ carried) (r : List String) :
    ¬ Covered carried (c ++ r) := by
  rintro ⟨k, member, above⟩
  have other : k ≠ c := fun same => notCarried (same ▸ member)
  exact (ready.nestedApart k (each k member).listed c listed other).not_under r above

theorem Quiet.moveAside (quiet : s.Quiet d e) (ready : s.Ready d) (noted : s.Noted d note e)
    (moves : e.Moves s.root s.top s.dest s.backupNames) :
    s.Aside d note (e.move s.destination s.aside) := by
  obtain ⟨here, there, fits⟩ := moves
  have apart := ready.destination_aside
  have sound := fits.sound quiet.sound
  obtain ⟨-, -, -, node, stands, -⟩ := id fits
  have stood : e.look s.destination = some node := stands
  have old := quiet.old []
  rw [List.append_nil] at old
  refine ⟨quiet.toNear.move sound apart s.touches_destination s.touches_aside,
    ⟨by rw [← old, stood]; simp, here, there⟩,
    (quiet.sound _ apart.ne_nil (by simp [stood])).move_away apart, ?_, ?_, ?_⟩
  · exact fun r => Disk.look_move_source e apart r
  · intro r
    rw [Disk.look_move_target e apart, quiet.old]
  · exact noted.move apart ready.destination_journal s.aside_journal

theorem Aside.moveBack (aside : s.Aside d note e) (ready : s.Ready d) :
    e.Moves s.root s.top s.backupNames s.dest ∧ s.Quiet d (e.move s.aside s.destination) := by
  have apart := ready.destination_aside
  have stands := aside.kept []
  rw [List.append_nil, List.append_nil] at stands
  obtain ⟨node, stood⟩ := Option.ne_none_iff_exists'.mp aside.stood
  have fits : (Step.rename s.aside s.destination).Fits e := by
    refine ⟨apart.symm.ne_nil, apart.2, aside.held, node, by rw [stands, stood], ?_⟩
    intro old found
    have gone := aside.gone []
    rw [List.append_nil, found] at gone
    cases gone
  have moved := Disk.look_move_target e apart.symm
  have left := Disk.look_move_source e apart.symm
  refine ⟨⟨aside.there, aside.here, fits⟩,
    aside.toNear.move (fits.sound aside.sound) apart.symm s.touches_aside s.touches_destination,
    fun r => by rw [moved, aside.kept], fun r => .inr (left r), fun free _ => ?_⟩
  have noted := aside.noted.move apart.symm s.aside_journal ready.destination_journal free
  refine ⟨aside.here, aside.stood, ⟨noted.2, note, _, noted.1⟩, fun _ => ?_⟩
  simpa using left []

theorem Aside.moveIn (aside : s.Aside d note e) (ready : s.Ready d) (fresh : s.Fresh new)
    (staged : ∀ r, e.look (s.staged ++ r) = new r)
    (moves : e.Moves s.root s.top s.stagingNames s.dest) :
    s.Placed d new note [] (e.move s.staged s.destination) := by
  obtain ⟨back, -, fits⟩ := moves
  have apart := ready.destination_staged.symm
  have uncovered : ∀ r, ¬ Covered [] r := by simp [Covered]
  have stands := staged []
  rw [List.append_nil, fresh.isDir] at stands
  have room : e.look s.workshop = some .dir := by
    apply aside.sound.above (List.cons_ne_nil s.slot [])
    rw [← s.staged_eq, stands]
    simp
  have moved := Disk.look_move_target e apart
  have sidelined : ∀ r, (e.move s.staged s.destination).look (s.aside ++ r)
      = e.look (s.aside ++ r) := fun r => Disk.look_move_other e apart
    (s.staged_aside.not_under r) (ready.destination_aside.not_under r)
  refine ⟨aside.toNear.move (fits.sound aside.sound) apart s.touches_staged s.touches_destination,
    aside.toMovable, back, ?_, List.nodup_nil, by simp, ⟨?_, ?_⟩, ?_, ?_, ?_, ?_⟩
  · rw [Disk.look_move_other e apart s.workshop_staged.not_under ready.destination_workshop.1,
      room]
  · exact fun r covered => absurd covered (uncovered r)
  · exact fun r _ => .inl (by rw [moved, staged])
  · exact fun r _ => by rw [sidelined, aside.kept]
  · exact fun r covered => absurd covered (uncovered r)
  · exact fun r => Disk.look_move_source e apart r
  · exact aside.noted.move apart s.staged_journal ready.destination_journal

theorem Overlaid.isDir (content : s.Overlaid d new carried e) (ready : s.Ready d)
    (each : ∀ c ∈ carried, s.Carried d new c) (isDir : new [] = some .dir) :
    e.look s.destination = some .dir := by
  have uncovered : ¬ Covered carried [] := by
    rintro ⟨c, member, under⟩
    exact ready.nestedInner c (each c member).listed (List.prefix_nil.mp under)
  rcases content.fresh [] uncovered with same | ⟨-, made, -⟩
  · rw [List.append_nil] at same
    rw [same, isDir]
  · rwa [List.append_nil] at made

theorem Placed.moveOut (placed : s.Placed d new note [] e) (ready : s.Ready d)
    (fresh : s.Fresh new) : e.Moves s.root s.top s.dest s.stagingNames ∧
      s.Aside d note (e.move s.destination s.staged) := by
  have apart := ready.destination_staged
  have uncovered : ∀ r, ¬ Covered [] r := by simp [Covered]
  have stands : e.look s.destination = some .dir := by
    rcases placed.content.fresh [] (uncovered _) with same | ⟨-, made, -⟩
    · rwa [List.append_nil, fresh.isDir] at same
    · rwa [List.append_nil] at made
  have fits : (Step.rename s.destination s.staged).Fits e := by
    refine ⟨apart.ne_nil, apart.1, ?_, .dir, stands, ?_⟩
    · exact ⟨s.workshop, s.slot, s.staged_eq, ready.slotted,
        placed.room⟩
    · intro old found
      have gone := placed.emptied []
      rw [List.append_nil, found] at gone
      cases gone
  have held : e.Holds s.destination :=
    placed.sound _ apart.ne_nil (by simp [stands])
  refine ⟨⟨placed.here, placed.back, fits⟩,
    placed.toNear.move (fits.sound placed.sound) apart s.touches_destination s.touches_staged,
    placed.toMovable, held.move_away apart, ?_, ?_, ?_⟩
  · exact fun r => Disk.look_move_source e apart r
  · intro r
    rw [Disk.look_move_other e apart (ready.destination_aside.not_under r)
      (s.staged_aside.not_under r), placed.rest r (uncovered r)]
  · exact placed.noted.move apart ready.destination_journal s.staged_journal

theorem Placed.straight_new (placed : s.Placed d new note carried e) (ready : s.Ready d)
    (fresh : s.Fresh new) (listed : c ∈ s.nested) :
    e.Straight s.root s.top (s.dest ++ c) := by
  refine (placed.straight_destination ready).append (ready.nestedPlain c listed) ?_
  intro r under other target
  rw [← destination_append]
  rcases placed.content.fresh r (ready.covered_apart placed.each listed under other)
    with same | ⟨-, made, -⟩
  · rw [same]
    exact fresh.clear c listed r under other target
  · simp [made]

theorem Placed.straight_old (placed : s.Placed d new note carried e) (ready : s.Ready d)
    (listed : c ∈ s.nested) : e.Straight s.root s.top (s.backupNames ++ c) := by
  refine (placed.straight_aside ready).append (ready.nestedPlain c listed) ?_
  intro r under other target
  rw [← aside_append, placed.rest r (ready.covered_apart placed.each listed under other),
    destination_append]
  exact ready.nestedClear c listed (s.dest ++ r) ((List.prefix_append_right_inj _).mpr under)
    (by simpa using other) target

theorem Placed.built (placed : s.Placed d new note carried e) (ready : s.Ready d)
    (listed : c ∈ s.nested) (stood : d.look (s.destination ++ c) ≠ none)
    (built : e.Built f (s.destination ++ c.dropLast)) (sound : f.Sound) (home : f.home = e.home) :
    s.Placed d new note carried f := by
  have inner := ready.nestedInner c listed
  have under : c.dropLast <+: c := List.dropLast_prefix c
  have other : c.dropLast ≠ c := fun same =>
    not_prefix_dropLast inner (by simp only [same, List.prefix_refl])
  have same : ∀ p, ¬ p <+: s.destination ++ c.dropLast → f.look p = e.look p := fun p away =>
    built.away away
  have elsewhere : ∀ p, ¬ s.Touches p → p <+: s.destination ++ c.dropLast →
      p <+: s.destination ∨ p <+: s.staged := by
    intro p outside leads
    rcases List.prefix_or_prefix_of_prefix leads (List.prefix_append _ _) with above | below
    · exact .inl above
    · exact absurd (.inr (.inr (.inr below))) outside
  have sidelined : ∀ r, f.look (s.aside ++ r) = e.look (s.aside ++ r) := fun r =>
    same _ ((ready.destination_aside.symm.append r c.dropLast).1)
  refine ⟨placed.toNear.built built sound home fun p leads outside => elsewhere p outside leads,
    placed.toMovable, placed.back, built.stands placed.room, placed.once, placed.each, ⟨?_, ?_⟩,
    fun r uncovered => by rw [sidelined, placed.rest r uncovered],
    fun r covered => by rw [sidelined, placed.taken r covered], ?_, ?_⟩
  · intro r covered
    rw [same, placed.content.kept r covered]
    intro leads
    have within := (List.prefix_append_right_inj _).mp leads
    refine ready.covered_apart placed.each listed (within.trans under) ?_ covered
    rintro rfl
    exact other (under.eq_of_length_le within.length_le)
  · intro r uncovered
    rcases built (s.destination ++ r) with same | ⟨free, made, leads⟩
    · rw [same]
      exact placed.content.fresh r uncovered
    · have within := (List.prefix_append_right_inj _).mp leads
      right
      refine ⟨?_, made, c, listed, within.trans under, ?_, stood⟩
      · rcases placed.content.fresh r uncovered with same | ⟨-, made', -⟩
        · rw [← same, free]
        · rw [free] at made'
          cases made'
      · rintro rfl
        exact other (under.eq_of_length_le within.length_le)
  · intro r
    rw [same, placed.emptied]
    exact (ready.destination_staged.symm.append r c.dropLast).1
  · intro free
    refine ⟨?_, (placed.noted free).2⟩
    rw [same, (placed.noted free).1]
    have := (ready.destination_journal.symm.append [] c.dropLast).1
    rwa [List.append_nil] at this

theorem Placed.carry (placed : s.Placed d new note carried e) (ready : s.Ready d)
    (listed : c ∈ s.nested) (notCarried : c ∉ carried)
    (free : e.look (s.destination ++ c) = none)
    (moves : e.Moves s.root s.top (s.backupNames ++ c) (s.dest ++ c)) :
    s.Placed d new note (c :: carried) (e.move (s.aside ++ c) (s.destination ++ c)) := by
  obtain ⟨there, here, fits⟩ := moves
  have apart := ready.destination_aside.symm.append c c
  rw [← destination_append, ← aside_append] at fits
  have uncovered := ready.not_covered placed.each listed notCarried
  have whole := uncovered []
  rw [List.append_nil] at whole
  have carriable : s.Carried d new c := by
    refine ⟨listed, ?_, ?_, here, there⟩
    · obtain ⟨-, -, -, node, stands, -⟩ := fits
      rw [← placed.rest c whole, stands]
      simp
    · rcases placed.content.fresh c whole with same | ⟨-, made, -⟩
      · rw [← same, free]
      · rw [free] at made
        cases made
  have moved := Disk.look_move_target e apart
  have left := Disk.look_move_source e apart
  have beside := fun (r : DiskPath) (away : ¬ c <+: r) =>
    Disk.look_move_beside e ready.destination_aside.symm away
  refine ⟨placed.toNear.move (fits.sound placed.sound) apart
      (fun r => by rw [List.append_assoc]; exact s.touches_aside _)
      (fun r => by rw [List.append_assoc]; exact s.touches_destination _),
    placed.toMovable, placed.back, ?_, List.nodup_cons.mpr ⟨notCarried, placed.once⟩,
    List.forall_mem_cons.mpr ⟨carriable, placed.each⟩, ⟨?_, ?_⟩, ?_, ?_, ?_, ?_⟩
  · have still := Disk.look_move_elsewhere e (c := c) ready.destination_aside.symm
      s.aside_workshop ready.destination_workshop []
    rwa [List.append_nil, placed.room] at still
  · intro r covered
    by_cases under : c <+: r
    · obtain ⟨rest, rfl⟩ := under
      rw [← List.append_assoc, moved, List.append_assoc, placed.rest _ (uncovered rest),
        List.append_assoc]
    · rw [(beside r under).2]
      exact placed.content.kept r ((covered_cons.mp covered).resolve_left under)
  · intro r away
    obtain ⟨under, notCovered⟩ := not_or.mp (covered_cons.not.mp away)
    rw [(beside r under).2]
    exact placed.content.fresh r notCovered
  · intro r away
    obtain ⟨under, notCovered⟩ := not_or.mp (covered_cons.not.mp away)
    rw [(beside r under).1, placed.rest r notCovered]
  · intro r covered
    by_cases under : c <+: r
    · obtain ⟨rest, rfl⟩ := under
      rw [← List.append_assoc, left]
    · rw [(beside r under).1]
      exact placed.taken r ((covered_cons.mp covered).resolve_left under)
  · intro r
    rw [Disk.look_move_elsewhere e ready.destination_aside.symm s.staged_aside.symm
      ready.destination_staged, placed.emptied]
  · refine placed.noted.move apart ?_ ?_
    · have := s.aside_journal.append c []
      rwa [List.append_nil] at this
    · have := ready.destination_journal.append c []
      rwa [List.append_nil] at this

theorem Placed.carryBack (placed : s.Placed d new note (c :: carried) e) (ready : s.Ready d)
    (fresh : s.Fresh new) :
    e.Moves s.root s.top (s.dest ++ c) (s.backupNames ++ c) ∧
      s.Placed d new note carried (e.move (s.destination ++ c) (s.aside ++ c)) := by
  obtain ⟨notCarried, once⟩ := List.nodup_cons.mp placed.once
  obtain ⟨carriable, each⟩ := List.forall_mem_cons.mp placed.each
  have listed := carriable.listed
  have apart := ready.destination_aside.append c c
  have uncovered := ready.not_covered each listed notCarried
  have covered : Covered (c :: carried) c := covered_cons.mpr (.inl (List.prefix_refl c))
  obtain ⟨node, stood⟩ := Option.ne_none_iff_exists'.mp carriable.stood
  have fits : (Step.rename (s.destination ++ c) (s.aside ++ c)).Fits e := by
    obtain ⟨init, last, rfl⟩ : ∃ init last, c = init ++ [last] :=
      ⟨_, _, (List.dropLast_concat_getLast (ready.nestedInner c listed)).symm⟩
    refine ⟨apart.ne_nil, apart.1, ⟨s.aside ++ init, last, by simp,
      ready.nestedPlain _ listed last (by simp), ?_⟩, node, ?_, ?_⟩
    · rw [placed.rest init]
      · have there : d.look (s.destination ++ init ++ [last]) ≠ none := by
          rw [List.append_assoc, stood]
          simp
        exact (ready.sound.parent there).1
      · exact ready.covered_apart placed.each listed (List.prefix_append _ _) (by simp)
    · rw [placed.content.kept _ covered, stood]
    · intro old found
      rw [placed.taken _ covered] at found
      cases found
  have moved := Disk.look_move_target e apart
  have left := Disk.look_move_source e apart
  have beside := fun (r : DiskPath) (away : ¬ c <+: r) =>
    Disk.look_move_beside e ready.destination_aside away
  refine ⟨⟨carriable.here, carriable.there, by
      rwa [destination_append, aside_append] at fits⟩,
    placed.toNear.move (fits.sound placed.sound) apart
      (fun r => by rw [List.append_assoc]; exact s.touches_destination _)
      (fun r => by rw [List.append_assoc]; exact s.touches_aside _),
    placed.toMovable, placed.back, ?_, once, each, ⟨?_, ?_⟩, ?_, ?_, ?_, ?_⟩
  · have still := Disk.look_move_elsewhere e (c := c) ready.destination_aside
      ready.destination_workshop s.aside_workshop []
    rwa [List.append_nil, placed.room] at still
  · intro r still
    have away : ¬ c <+: r := by
      rintro ⟨rest, rfl⟩
      exact uncovered rest still
    rw [(beside r away).1]
    exact placed.content.kept r (covered_cons.mpr (.inr still))
  · intro r away
    by_cases under : c <+: r
    · obtain ⟨rest, rfl⟩ := under
      left
      rw [← List.append_assoc, left, fresh.hollow c rest carriable.absent]
    · rw [(beside r under).1]
      exact placed.content.fresh r (covered_cons.not.mpr (not_or.mpr ⟨under, away⟩))
  · intro r away
    by_cases under : c <+: r
    · obtain ⟨rest, rfl⟩ := under
      rw [← List.append_assoc, moved, List.append_assoc, placed.content.kept _
        (covered_cons.mpr (.inl (List.prefix_append _ _)))]
    · rw [(beside r under).2]
      exact placed.rest r (covered_cons.not.mpr (not_or.mpr ⟨under, away⟩))
  · intro r still
    have away : ¬ c <+: r := by
      rintro ⟨rest, rfl⟩
      exact uncovered rest still
    rw [(beside r away).2]
    exact placed.taken r (covered_cons.mpr (.inr still))
  · intro r
    rw [Disk.look_move_elsewhere e ready.destination_aside ready.destination_staged
      s.staged_aside.symm, placed.emptied]
  · refine placed.noted.move apart ?_ ?_
    · have := ready.destination_journal.append c []
      rwa [List.append_nil] at this
    · have := s.aside_journal.append c []
      rwa [List.append_nil] at this

theorem Placed.done (placed : s.Placed d new note carried e)
    (settled : ∀ c ∈ s.nested, c ∈ carried ∨ d.look (s.destination ++ c) = none ∨ new c ≠ none ∨
      ¬ s.root.Callable (s.backupNames ++ c)) : s.Done d new note carried e :=
  ⟨placed.toNear, placed.here, placed.each, settled, placed.content, placed.taken,
    by simpa using placed.emptied [], fun r => by
      by_cases covered : Covered carried r
      · exact .inl (placed.taken r covered)
      · exact .inr (.inr ⟨placed.there, placed.rest r covered⟩),
    fun free => .inr (placed.noted free)⟩

theorem Quiet.moveIn (quiet : s.Quiet d e) (ready : s.Ready d)
    (staged : ∀ r, e.look (s.staged ++ r) = new r) (free : e.look s.destination = none)
    (moves : e.Moves s.root s.top s.stagingNames s.dest) :
    s.Done d new note [] (e.move s.staged s.destination) := by
  obtain ⟨-, here, fits⟩ := moves
  have apart := ready.destination_staged.symm
  have uncovered : ∀ r, ¬ Covered [] r := by simp [Covered]
  have missing : d.look s.destination = none := by
    rw [← free]
    simpa using (quiet.old []).symm
  have unnoted : d.look s.journal = none →
      (e.move s.staged s.destination).look s.journal = none := by
    intro silent
    have still := Disk.look_move_other e apart (s.staged_journal.not_under [])
      (ready.destination_journal.not_under [])
    rw [List.append_nil] at still
    rw [still]
    by_contra written
    exact (quiet.silent silent written).stood missing
  refine ⟨quiet.toNear.move (fits.sound quiet.sound) apart s.touches_staged s.touches_destination,
    here, by simp, fun c _ => .inr (.inl (ready.sound.none_below missing)), ⟨?_, ?_⟩, ?_, ?_, ?_,
    ?_⟩
  · exact fun r covered => absurd covered (uncovered r)
  · exact fun r _ => .inl (by rw [Disk.look_move_target e apart, staged])
  · exact fun r covered => absurd covered (uncovered r)
  · simpa using Disk.look_move_source e apart []
  · intro r
    have still := Disk.look_move_other e apart (s.staged_aside.not_under r)
      (ready.destination_aside.not_under r)
    rw [still]
    rcases quiet.bare r with same | gone
    · exact .inr (.inl ⟨same, unnoted⟩)
    · exact .inl gone
  · exact fun silent => .inl (unnoted silent)

theorem Near.pruned {path : DiskPath} (near : s.Near d e) (pruned : e.Pruned f path)
    (sound : f.Sound) (home : f.home = e.home) (touched : ∀ r, s.Touches (path ++ r)) :
    s.Near d f := by
  refine near.of_same sound home fun p outside => ?_
  rcases pruned p with same | ⟨⟨rest, rfl⟩, -⟩
  · exact same
  · exact absurd (touched rest) outside

theorem look_pruned {path p : DiskPath} (pruned : e.Pruned f path) (apart : Disk.Apart p path)
    (r : DiskPath) : f.look (p ++ r) = e.look (p ++ r) := by
  rcases pruned (p ++ r) with same | ⟨under, -⟩
  · exact same
  · exact absurd under (apart.symm.not_under r)

theorem Quiet.pruned {path : DiskPath} (quiet : s.Quiet d e) (pruned : e.Pruned f path)
    (sound : f.Sound) (home : f.home = e.home) (touched : ∀ r, s.Touches (path ++ r))
    (apart : Disk.Apart s.destination path) : s.Quiet d f where
  toNear := quiet.toNear.pruned pruned sound home touched
  old r := by rw [look_pruned pruned apart, quiet.old]
  bare r := by
    rcases pruned (s.aside ++ r) with same | ⟨-, gone⟩
    · rw [same]
      exact quiet.bare r
    · exact .inr gone
  silent free written := by
    have same := (pruned s.journal).resolve_right fun gone => written gone.2
    exact (quiet.silent free (same ▸ written)).congr same ((pruned s.aside).imp_right And.right)

theorem Done.pruned {path : DiskPath} (done : s.Done d new note carried e) (pruned : e.Pruned f path)
    (sound : f.Sound) (home : f.home = e.home) (touched : ∀ r, s.Touches (path ++ r))
    (apart : Disk.Apart s.destination path) : s.Done d new note carried f where
  toNear := done.toNear.pruned pruned sound home touched
  here := done.here
  each := done.each
  settled := done.settled
  content := by
    have same := look_pruned pruned apart
    exact ⟨fun r covered => by rw [same, done.content.kept r covered],
      fun r away => by simpa only [same] using done.content.fresh r away⟩
  taken r covered := by
    rcases pruned (s.aside ++ r) with same | ⟨-, gone⟩
    · rw [same, done.taken r covered]
    · exact gone
  emptied := by
    rcases pruned s.staged with same | ⟨-, gone⟩
    · rw [same, done.emptied]
    · exact gone
  leftover r := by
    rcases pruned (s.aside ++ r) with same | ⟨-, gone⟩
    · rw [same]
      refine (done.leftover r).imp_right (Or.imp_left fun ⟨old, unnoted⟩ => ⟨old, fun free => ?_⟩)
      rcases pruned s.journal with still | ⟨-, none⟩
      · exact still.trans (unnoted free)
      · exact none
    · exact .inl gone
  noted free := by
    rcases pruned s.journal with same | ⟨-, gone⟩
    · rw [same]
      exact done.noted free
    · exact .inl gone

theorem Quiet.write (quiet : s.Quiet d e) (ready : s.Ready d) (sound : f.Sound)
    (home : f.home = e.home) (same : ∀ q, q ≠ s.journal → f.look q = e.look q)
    (journal : f.look s.journal = e.look s.journal ∨ s.Announced d f) : s.Quiet d f where
  toNear := quiet.toNear.of_same sound home fun p outside =>
    same p fun journal => outside (.inr (.inr (.inl (journal ▸ List.prefix_refl _))))
  old r := by
    rw [same _ (ready.destination_journal.append_ne r), quiet.old]
  bare r := by
    rw [same _ (s.aside_journal.append_ne r)]
    exact quiet.bare r
  silent free written := by
    rcases journal with still | announced
    · have aside := same _ s.aside_journal.ne
      exact (quiet.silent free (still ▸ written)).congr still (.inl aside)
    · exact announced

theorem Quiet.built (quiet : s.Quiet d e) (ready : s.Ready d) {goal : DiskPath}
    (under : Disk.Inside goal s.destination) (built : e.Built f goal) (sound : f.Sound)
    (home : f.home = e.home) : s.Quiet d f := by
  have same : ∀ p, ¬ p <+: s.destination → f.look p = e.look p := fun p away =>
    built.away fun leads => away (leads.trans under.1)
  refine ⟨quiet.toNear.built built sound home fun p leads _ => .inl (leads.trans under.1), ?_, ?_,
    ?_⟩
  · intro r
    rcases built (s.destination ++ r) with same | ⟨-, -, leads⟩
    · rw [same, quiet.old]
    · exact absurd ((List.prefix_append _ _).trans leads) under.not_under
  · intro r
    have apart := ready.destination_aside.append [] r
    rw [List.append_nil] at apart
    rw [same _ apart.2]
    exact quiet.bare r
  · intro free written
    have journal := same _ ready.destination_journal.2
    exact (quiet.silent free (journal ▸ written)).congr journal
      (.inl (same _ ready.destination_aside.2))

end Site

end PinnedTree.Transaction
