import PinnedTree.Proofs.Disk.Written
import PinnedTree.Proofs.Json.RoundTrip
import PinnedTree.Proofs.Transaction.Materialize
import PinnedTree.Proofs.Transaction.Slot
import PinnedTree.Recovery

namespace PinnedTree

theorem Path.stemAndExtension_journalName {slot : String} (filled : slot ≠ "") :
    stemAndExtension (Transaction.journalName slot) = (slot, some "json") := by
  have letters : (Transaction.journalName slot).toList.reverse
      = "nosj".toList ++ '.' :: slot.toList.reverse := by
    simp [Transaction.journalName]
  simp only [stemAndExtension, Text.cutLast?, letters]
  simp [filled]

theorem Path.stemAndExtension_dotless {name : String} (dotless : '.' ∉ name.toList) :
    stemAndExtension name = (name, none) := by
  simp [stemAndExtension, Text.cutLast?, dotless]

namespace Recovery

open PinnedTree.Action Transaction

theorem journalForm_parse (id destination : String) :
    journalForm.parse (Json.Write.compact [("id", id), ("destination", destination)])
      = .ok [("id", id), ("destination", destination)] :=
  Json.parse_compact rfl rfl (by decide)

theorem readJournal_noted {d : Disk} {l destination : Location} {id : String}
    (stands : d.stat l = .ok (.file (journalText id destination).toUTF8 Files.plainMode)) :
    readJournal d l = some ⟨id, destination.text⟩ := by
  have readable : mayRead Files.plainMode = true := by decide
  have text : d.readText l = .ok (journalText id destination) := by
    simp only [Disk.readText, Disk.readBytes, stands, bind, Except.bind, readable, if_true, pure,
      Except.pure, fromUTF8?_toUTF8]
  simp only [readJournal, text, journalText, String.toList_ofList, journalForm_parse]
  rfl

theorem stat_of_readJournal {d : Disk} {l : Location} {journal : Journal}
    (found : readJournal d l = some journal) : ∃ node, d.stat l = .ok node := by
  cases stands : d.stat l with
  | ok node => exact ⟨node, rfl⟩
  | error fault =>
    simp [readJournal, Disk.readText, Disk.readBytes, stands, bind, Except.bind] at found

end Recovery

namespace Transaction.Site

open PinnedTree.Action Recovery

variable {s : Site} {d e f : Disk} {new : DiskPath → Option Node} {note : ByteArray} {w : World}
  {job : Job} {carried : List (List String)} {path : String} {room name : String}

def Tidy (s : Site) (d : Disk) : Prop :=
  ∀ room ∈ ["staging", "backup"], ∀ p, Disk.Inside (s.top ++ [stateDirectory, room]) p →
    d.look p = none

/-- Nothing is left of earlier work but files that stood where content came to stand. -/
structure Idle (s : Site) (d : Disk) : Prop where
  staging : ∀ p, Disk.Inside s.workshop p → d.look p = none
  backup : ∀ name, d.look (s.top ++ [stateDirectory, "backup", name]) ≠ none →
    '.' ∉ name.toList ∧ ∃ c m, d.look (s.top ++ [stateDirectory, "backup", name]) = some (.file c m)

/-- The destination as it is, with nothing aside, no journal, or the new content in place. -/
structure Settled (s : Site) (d : Disk) (note : ByteArray) (e : Disk) : Prop
    extends s.Near d e where
  settled : e.look s.aside = none ∨ e.look s.journal = none ∨
    s.root.Callable s.dest ∧ e.look s.destination ≠ none ∧
      e.look s.journal = some (.file note Files.plainMode)

theorem Tidy.idle (tidy : s.Tidy d) : s.Idle d where
  staging := tidy "staging" (by simp)
  backup name stands := absurd (tidy "backup" (by simp) _ (by
    simp [Disk.Inside, List.prefix_append_right_inj])) stands

theorem Idle.journal (idle : s.Idle d) : d.look s.journal = none := by
  by_contra stands
  exact (idle.backup _ stands).1 (by simp [journalName])

theorem Idle.aside (idle : s.Idle d) (target : String) : d.look s.aside ≠ some (.link target) := by
  intro link
  change d.look (s.top ++ [stateDirectory, "backup", s.slot]) = _ at link
  obtain ⟨-, c, m, file⟩ := idle.backup s.slot (by simp [link])
  rw [link] at file
  cases file

theorem Quiet.isSettled (quiet : s.Quiet d e) (idle : s.Idle d) : s.Settled d note e := by
  refine ⟨quiet.toNear, ?_⟩
  by_cases silent : e.look s.journal = none
  · exact .inr (.inl silent)
  · exact .inl ((quiet.silent idle.journal silent).cleared idle.aside)

theorem Placed.isSettled (placed : s.Placed d new note carried e) (ready : s.Ready d)
    (idle : s.Idle d) (isDir : new [] = some .dir) : s.Settled d note e := by
  refine ⟨placed.toNear, .inr (.inr ⟨placed.here, ?_, (placed.noted idle.journal).1⟩)⟩
  simp [placed.content.isDir ready placed.each isDir]

theorem Done.isSettled (done : s.Done d new note carried e) (ready : s.Ready d) (idle : s.Idle d)
    (isDir : new [] = some .dir) : s.Settled d note e := by
  refine ⟨done.toNear, .inr ((done.noted idle.journal).imp_right fun noted =>
    ⟨done.here, ?_, noted.1⟩)⟩
  simp [done.content.isDir ready done.each isDir]

/-- Old content stands aside and can go back, and its journal, if it is there, is complete. -/
structure Sidelined (s : Site) (note : ByteArray) (e : Disk) : Prop where
  there : s.root.Callable s.backupNames
  here : s.root.Callable s.dest
  held : e.Holds s.destination
  noted : ∀ journal, e.look s.journal = some journal → journal = .file note Files.plainMode

/-- As long as nothing has moved, nothing stands aside but what earlier work left, and no journal is
beside it. -/
theorem Quiet.sidelined (quiet : s.Quiet d e) (idle : s.Idle d) {r : List String} {node : Node}
    (stands : e.look (s.aside ++ r) = some node) :
    d.look (s.aside ++ r) = some node ∧ e.look s.journal = none := by
  rcases quiet.bare r with same | gone
  · refine ⟨same.symm.trans stands, ?_⟩
    by_contra written
    have cleared := (quiet.silent idle.journal written).cleared idle.aside
    cases (quiet.sound.none_below cleared).symm.trans stands
  · cases gone.symm.trans stands

theorem Phase.sidelined (phase : s.Phase d new note e) (ready : s.Ready d) (idle : s.Idle d)
    (isDir : new [] = some .dir) {r : List String} {node : Node}
    (stands : e.look (s.aside ++ r) = some node) :
    d.look (s.aside ++ r) = some node ∧ e.look s.journal = none ∨
      s.Sidelined note e ∧ d.look (s.destination ++ r) = some node := by
  have held : ∀ {carried : List (List String)}, s.Near d e → (∀ c ∈ carried, s.Carried d new c) →
      s.Overlaid d new carried e → e.Holds s.destination := fun near each content =>
    near.sound _ ready.destination_aside.ne_nil (by simp [content.isDir ready each isDir])
  rcases phase with quiet | aside | ⟨carried, placed⟩ | ⟨carried, done⟩
  · exact .inl (quiet.sidelined idle stands)
  · refine .inr ⟨⟨aside.there, aside.here, aside.held, fun journal found => ?_⟩,
      (aside.kept r).symm.trans stands⟩
    exact Option.some.inj (found.symm.trans (aside.noted idle.journal).1)
  · by_cases covered : Covered carried r
    · cases (placed.taken r covered).symm.trans stands
    · refine .inr ⟨⟨placed.there, placed.here, held placed.toNear placed.each placed.content,
        fun journal found => ?_⟩, (placed.rest r covered).symm.trans stands⟩
      exact Option.some.inj (found.symm.trans (placed.noted idle.journal).1)
  · rcases done.leftover r with gone | ⟨same, unnoted⟩ | ⟨there, same⟩
    · cases gone.symm.trans stands
    · exact .inl ⟨same.symm.trans stands, unnoted idle.journal⟩
    · refine .inr ⟨⟨there, done.here, held done.toNear done.each done.content,
        fun journal found => ?_⟩, same.symm.trans stands⟩
      rcases done.noted idle.journal with none | ⟨noted, -⟩
      · cases none.symm.trans found
      · exact Option.some.inj (found.symm.trans noted)

theorem Settled.pruned {p : DiskPath} (settled : s.Settled d note e) (pruned : e.Pruned f p)
    (sound : f.Sound) (home : f.home = e.home) (touched : ∀ r, s.Touches (p ++ r))
    (apart : Disk.Apart s.destination p) : s.Settled d note f where
  toNear := settled.toNear.pruned pruned sound home touched
  settled := by
    have gone : ∀ q, e.look q = none → f.look q = none := fun q none => by
      rcases pruned q with same | ⟨-, gone⟩
      · rw [same, none]
      · exact gone
    rcases settled.settled with empty | silent | ⟨here, stands, noted⟩
    · exact .inl (gone _ empty)
    · exact .inr (.inl (gone _ silent))
    · have still := look_pruned pruned apart []
      rw [List.append_nil] at still
      rcases pruned s.journal with same | ⟨-, none⟩
      · exact .inr (.inr ⟨here, still ▸ stands, same.trans noted⟩)
      · exact .inr (.inl none)

theorem Settled.putBack (settled : s.Settled d (noteOf job) w.disk) (ready : s.Ready d)
    (hosts : s.Hosts job) (written : s.root = .ofText path) {journal : Journal}
    (found : readJournal w.disk (s.root.below s.journalNames) = some journal) :
    (Recovery.putBack (s.root.below s.backupNames) journal).Ensures (fun _ => True)
      (fun r e => r = .ok false ∧ e = w.disk) w := by
  refine ensures_observe_bind (ensures_observe_bind ?_)
  have stays : (w.disk.leadsSomewhere (s.root.below s.backupNames)
      && !w.disk.holdsSomething (.ofText journal.destination)) = false := by
    obtain ⟨node, stat⟩ := stat_of_readJournal found
    have seen : (∀ target, w.disk.look s.journal ≠ some (.link target)) →
        w.disk.look s.journal = some node := fun unlinked =>
      (((settled.straight_journal ready).stat_ok settled.sound unlinked node).mp stat).2
    rcases settled.settled with bare | silent | ⟨here, stands, text⟩
    · have nowhere := ((settled.straight_aside ready).leadsSomewhere settled.sound
        (fun target => by rw [← Site.aside, bare]; simp)).not.mpr fun both => both.2 bare
      simp [nowhere]
    · have impossible := seen (by simp [silent])
      rw [silent] at impossible
      cases impossible
    · have look := seen (by simp [text])
      rw [text, Option.some.injEq] at look
      rw [readJournal_noted (look ▸ stat), Option.some.injEq] at found
      have straight := settled.straight_destination ready
      have holds := (straight.holdsSomething settled.sound).mpr ⟨here, stands⟩
      rw [written] at straight holds
      rw [← straight.holdsSomething_written] at holds
      have place : Location.ofText journal.destination = .written path s.dest := by
        rw [← found, hosts.destination, written]
        rfl
      simp [place, holds]
  rw [stays]
  exact ensures_pure trivial ⟨rfl, rfl⟩

theorem Settled.followJournals (settled : s.Settled d (noteOf job) w.disk) (ready : s.Ready d)
    (hosts : s.Hosts job) (written : s.root = .ofText path) {names : List String}
    (only : ∀ name ∈ names, '.' ∉ name.toList ∨ name = journalName s.slot) :
    (Recovery.followJournals (Layout.backup s.root) names).Ensures (fun _ => True)
      (fun _ f => s.Settled d (noteOf job) f ∧
        ∀ r, f.look (s.destination ++ r) = w.disk.look (s.destination ++ r)) w := by
  induction names generalizing w with
  | nil => exact ensures_pure trivial ⟨settled, fun _ => rfl⟩
  | cons name rest ih =>
    obtain ⟨here, others⟩ := List.forall_mem_cons.mp only
    rcases here with plain | rfl
    · rw [Recovery.followJournals, Path.stemAndExtension_dotless plain]
      exact ih settled others
    · have onward : ∀ (restored : Bool) (w₁ : World), w₁.disk = w.disk →
          (do Files.removeFile (s.root.below s.journalNames)
              let count ← Recovery.followJournals (Layout.backup s.root) rest
              pure (count + if restored = true then 1 else 0) : Action IoFault Nat).Ensures
            (fun _ => True)
            (fun _ f => s.Settled d (noteOf job) f ∧
              ∀ r, f.look (s.destination ++ r) = w.disk.look (s.destination ++ r)) w₁ := by
        intro restored w₁ same
        have settled₁ : s.Settled d (noteOf job) w₁.disk := same ▸ settled
        have removed := (Files.removeFile_ensures (settled₁.straight_journal ready)
          settled₁.sound).keeping settled₁.sound
        have still : ∀ f : Disk, w₁.disk.Pruned f s.journal ∧ f.Sound ∧ f.home = w₁.disk.home →
            s.Settled d (noteOf job) f ∧
              ∀ r, f.look (s.destination ++ r) = w.disk.look (s.destination ++ r) := by
          rintro f ⟨pruned, sound, home⟩
          refine ⟨settled₁.pruned pruned sound home s.touches_journal ready.destination_journal,
            fun r => ?_⟩
          rw [look_pruned pruned ready.destination_journal, same]
        refine (removed.weaken fun _ _ => trivial).bind ?_ fun _ f holds => still f holds
        rintro ⟨⟩ w₂ holds
        obtain ⟨settled₂, same₂⟩ := still _ holds
        refine (ih settled₂ others).bind ?_ ?_
        · rintro count w₃ ⟨settled₃, same₃⟩
          exact ensures_pure trivial ⟨settled₃, fun r => (same₃ r).trans (same₂ r)⟩
        · rintro fault f ⟨settled₃, same₃⟩
          exact ⟨settled₃, fun r => (same₃ r).trans (same₂ r)⟩
      simp only [Recovery.followJournals,
        Path.stemAndExtension_journalName ready.slotted.1, journal_eq, backup_eq]
      refine ensures_observe_bind ?_
      cases found : readJournal w.disk (s.root.below s.journalNames) with
      | none => exact onward false w rfl
      | some journal =>
        refine (settled.putBack ready hosts written found).bind ?_ (by simp)
        rintro restored w₁ ⟨-, same⟩
        exact onward restored w₁ same

theorem Aside.putBack (aside : s.Aside d note w.disk) (ready : s.Ready d)
    (written : s.root = .ofText path) (unlinked : ∀ target, d.look s.destination ≠ some (.link target))
    {journal : Journal} (place : Location.ofText journal.destination = .written path s.dest) :
    (Recovery.putBack (s.root.below s.backupNames) journal).Ensures (fun _ => True)
      (fun r e => r = .ok true ∧ s.Quiet d e) w := by
  have straight := aside.straight_destination ready
  rw [written] at straight
  refine ensures_observe_bind (ensures_observe_bind ?_)
  have stands : w.disk.look s.aside = d.look s.destination := by simpa using aside.kept []
  have leads : w.disk.leadsSomewhere (s.root.below s.backupNames) = true := by
    refine ((aside.straight_aside ready).leadsSomewhere aside.sound ?_).mpr ⟨aside.there, ?_⟩
    · exact fun target => stands ▸ unlinked target
    · exact stands ▸ aside.stood
  have free : w.disk.holdsSomething (.ofText journal.destination) = false := by
    rw [place, straight.holdsSomething_written, ← Bool.not_eq_true,
      straight.holdsSomething aside.sound]
    have gone := aside.gone []
    rw [List.append_nil] at gone
    exact fun both => both.2 gone
  rw [leads, free, place]
  refine (Files.makeParents_written straight (straight.open_of_holds aside.sound aside.held)
    (written ▸ aside.here)).weaken (fun _ _ => trivial) |>.bind ?_ (by simp)
  rintro ⟨⟩ w₁ ⟨-, same⟩
  rw [← same] at aside straight
  obtain ⟨moves, back⟩ := aside.moveBack ready
  have other : s.backupNames ≠ s.dest := fun same =>
    ready.destination_aside.ne (by simp [destination, Site.aside, same])
  have renamed := Files.rename_ensures (aside.straight_aside ready)
    (aside.straight_destination ready) aside.sound other
  have target : w₁.disk.rename (s.root.below s.backupNames) (.written path s.dest)
      = w₁.disk.rename (s.root.below s.backupNames) (s.root.below s.dest) := by
    rw [straight.rename_written, written]
  have moved : (Files.rename (s.root.below s.backupNames) (.written path s.dest)).Ensures
      (fun _ => True) (fun r e => r = .ok () ∧ s.Quiet d e) w₁ := by
    refine ensures_change_congr target ((renamed.weaken fun _ _ => trivial).mono ?_)
    rintro r e (⟨-, stuck, -⟩ | ⟨done, -, rfl⟩)
    · exact absurd moves stuck
    · exact ⟨done, back⟩
  refine moved.bind ?_ (by simp)
  rintro ⟨⟩ w₂ ⟨-, quiet⟩
  exact ensures_pure trivial ⟨rfl, quiet⟩

theorem Aside.followJournals (aside : s.Aside d (noteOf job) w.disk) (ready : s.Ready d)
    (hosts : s.Hosts job) (written : s.root = .ofText path) (idle : s.Idle d)
    (unlinked : ∀ target, d.look s.destination ≠ some (.link target))
    {names : List String} (only : ∀ name ∈ names, '.' ∉ name.toList ∨ name = journalName s.slot)
    (listed : journalName s.slot ∈ names) :
    (Recovery.followJournals (Layout.backup s.root) names).Ensures (fun _ => True)
      (fun _ f => s.Settled d (noteOf job) f ∧
        ∀ r, f.look (s.destination ++ r) = d.look (s.destination ++ r)) w := by
  have settle : ∀ f : Disk, s.Quiet d f → s.Settled d (noteOf job) f ∧
      ∀ r, f.look (s.destination ++ r) = d.look (s.destination ++ r) := fun f quiet =>
    ⟨quiet.isSettled idle, quiet.old⟩
  induction names with
  | nil => simp at listed
  | cons name rest ih =>
    obtain ⟨here, others⟩ := List.forall_mem_cons.mp only
    rcases here with plain | rfl
    · rw [Recovery.followJournals, Path.stemAndExtension_dotless plain]
      refine ih others ((List.mem_cons.mp listed).resolve_left ?_)
      rintro rfl
      simp [journalName] at plain
    · obtain ⟨text, callable⟩ := aside.noted idle.journal
      have stat := ((aside.straight_journal ready).stat_ok aside.sound
        (fun target link => by rw [Site.journal, link] at text; cases text) _).mpr ⟨callable, text⟩
      simp only [Recovery.followJournals,
        Path.stemAndExtension_journalName ready.slotted.1, journal_eq, backup_eq]
      refine ensures_observe_bind ?_
      rw [readJournal_noted stat]
      refine (aside.putBack ready written unlinked ?_).bind ?_ (by simp)
      · rw [hosts.destination, written]
        rfl
      rintro restored w₁ ⟨-, quiet⟩
      refine ((quiet.removeFile ready).weaken fun _ _ => trivial).bind ?_
        fun _ f quiet => settle f quiet
      rintro ⟨⟩ w₂ quiet₂
      obtain ⟨settled, same⟩ := settle _ quiet₂
      refine (settled.followJournals ready hosts written others).bind ?_ ?_
      · rintro count w₃ ⟨settled₃, same₃⟩
        exact ensures_pure trivial ⟨settled₃, fun r => (same₃ r).trans (same r)⟩
      · rintro fault f ⟨settled₃, same₃⟩
        exact ⟨settled₃, fun r => (same₃ r).trans (same r)⟩

theorem Near.straight_room (near : s.Near d e) (ready : s.Ready d)
    (rooms : room = "staging" ∨ room = "backup") :
    e.Straight s.root s.top [stateDirectory, room] := by
  have whole := near.straight_own ready rooms ready.slotted
  exact (show e.Straight s.root s.top ([stateDirectory, room] ++ [s.slot]) from whole).init
    (by simp)

theorem Near.unlinked_room (near : s.Near d e) (ready : s.Ready d)
    (rooms : room = "staging" ∨ room = "backup") (target : String) :
    e.look (s.top ++ [stateDirectory, room]) ≠ some (.link target) := by
  have whole := near.straight_own ready rooms ready.slotted
  exact (show e.Straight s.root s.top ([stateDirectory, room] ++ [s.slot]) from whole).unlinked_init
    target

structure Keeps (s : Site) (d e f : Disk) : Prop extends s.Near d f where
  same : ∀ r, f.look (s.destination ++ r) = e.look (s.destination ++ r)

theorem Keeps.pruned {g : Disk} {p : DiskPath} (keeps : s.Keeps d e f) (pruned : f.Pruned g p)
    (sound : g.Sound) (home : g.home = f.home) (touched : ∀ r, s.Touches (p ++ r))
    (apart : Disk.Apart s.destination p) : s.Keeps d e g where
  toNear := keeps.toNear.pruned pruned sound home touched
  same r := by rw [look_pruned pruned apart, keeps.same]

def Removable (s : Site) (room name : String) : Prop :=
  IsName name ∧ ∀ r, s.Touches (s.top ++ [stateDirectory, room, name] ++ r)

structure Spared (s : Site) (d : Disk) (room name : String) : Prop where
  plain : IsName name
  outside : ¬ s.Touches (s.top ++ [stateDirectory, room, name])
  file : ∃ c m, d.look (s.top ++ [stateDirectory, room, name]) = some (.file c m)

theorem Near.spared (near : s.Near d e) (ready : s.Ready d) (rooms : room = "staging" ∨ room = "backup")
    (spared : s.Spared d room name) :
    e.leadsToDir (s.root.below [stateDirectory, room] / name) = false := by
  obtain ⟨c, m, stands⟩ := spared.file
  have look : e.look (s.top ++ [stateDirectory, room, name]) = some (.file c m) := by
    rcases near.elsewhere _ spared.outside with same | ⟨free, -⟩
    · rw [same, stands]
    · rw [stands] at free
      cases free
  have place : s.root.below [stateDirectory, room] / name
      = s.root.below [stateDirectory, room, name] := by
    simp [Location.child, Location.below]
  rw [place, ← Bool.not_eq_true,
    (near.straight_own ready rooms spared.plain).leadsToDir near.sound (by simp [look])]
  simp [look]

theorem Keeps.removeAll (keeps : s.Keeps d e w.disk) (ready : s.Ready d)
    (rooms : room = "staging" ∨ room = "backup") (removable : s.Removable room name) :
    (Files.removeAll (s.root.below [stateDirectory, room] / name)).Ensures (fun _ => True)
      (fun _ f => s.Keeps d e f) w := by
  have place : s.root.below [stateDirectory, room] / name
      = s.root.below [stateDirectory, room, name] := by
    simp [Location.child, Location.below]
  rw [place]
  refine (((Files.removeAll_ensures (keeps.straight_own ready rooms removable.1)
    keeps.sound).keeping keeps.sound).weaken fun _ _ => trivial).mono ?_
  rintro r f ⟨⟨pruned, -⟩, sound, home⟩
  exact keeps.pruned pruned sound home removable.2 (ready.apart_own _)

theorem Keeps.removeFile (keeps : s.Keeps d e w.disk) (ready : s.Ready d)
    (rooms : room = "staging" ∨ room = "backup") (removable : s.Removable room name) :
    (Files.removeFile (s.root.below [stateDirectory, room] / name)).Ensures (fun _ => True)
      (fun _ f => s.Keeps d e f) w := by
  have place : s.root.below [stateDirectory, room] / name
      = s.root.below [stateDirectory, room, name] := by
    simp [Location.child, Location.below]
  rw [place]
  refine (((Files.removeFile_ensures (keeps.straight_own ready rooms removable.1)
    keeps.sound).keeping keeps.sound).weaken fun _ _ => trivial).mono ?_
  rintro r f ⟨pruned, sound, home⟩
  exact keeps.pruned pruned sound home removable.2 (ready.apart_own _)

theorem Keeps.removeDirs (keeps : s.Keeps d e w.disk) (ready : s.Ready d)
    (rooms : room = "staging" ∨ room = "backup") {names : List String}
    (sorted : ∀ name ∈ names, s.Removable room name ∨ s.Spared d room name) :
    (Recovery.removeDirs (s.root.below [stateDirectory, room]) names).Ensures (fun _ => True)
      (fun _ f => s.Keeps d e f) w := by
  induction names generalizing w with
  | nil => exact ensures_pure trivial keeps
  | cons name rest ih =>
    obtain ⟨here, others⟩ := List.forall_mem_cons.mp sorted
    rw [Recovery.removeDirs]
    refine ensures_observe_bind ?_
    split
    · rename_i leads
      rcases here with removable | spared
      · exact (keeps.removeAll ready rooms removable).bind (fun _ w₁ keeps₁ => ih keeps₁ others)
          fun _ _ keeps₁ => keeps₁
      · rw [keeps.toNear.spared ready rooms spared] at leads
        cases leads
    · exact ih keeps others

theorem Keeps.removeEverything (keeps : s.Keeps d e w.disk) (ready : s.Ready d)
    (rooms : room = "staging" ∨ room = "backup") {names : List String}
    (removable : ∀ name ∈ names, s.Removable room name) :
    (Recovery.removeEverything (s.root.below [stateDirectory, room]) names).Ensures (fun _ => True)
      (fun _ f => s.Keeps d e f) w := by
  induction names generalizing w with
  | nil => exact ensures_pure trivial keeps
  | cons name rest ih =>
    obtain ⟨here, others⟩ := List.forall_mem_cons.mp removable
    rw [Recovery.removeEverything]
    refine ensures_observe_bind ?_
    split
    · exact (keeps.removeAll ready rooms here).bind (fun _ w₁ keeps₁ => ih keeps₁ others)
        fun _ _ keeps₁ => keeps₁
    · exact (keeps.removeFile ready rooms here).bind (fun _ w₁ keeps₁ => ih keeps₁ others)
        fun _ _ keeps₁ => keeps₁

theorem Near.staging_removable (near : s.Near d e) (ready : s.Ready d) (idle : s.Idle d)
    (member : name ∈ e.namesIn (s.top ++ [stateDirectory, "staging"])) :
    s.Removable "staging" name := by
  have stands := Disk.mem_namesIn.mp member
  have place : s.top ++ [stateDirectory, "staging"] ++ [name]
      = s.top ++ [stateDirectory, "staging", name] := by simp
  have inside : ∀ r, Disk.Inside s.workshop (s.top ++ [stateDirectory, "staging", name] ++ r) := by
    simp [Disk.Inside, workshop, List.prefix_append_right_inj]
  refine ⟨near.sound.isName stands name (by simp), fun r => .inl ⟨inside r, ?_⟩⟩
  by_contra apart
  obtain ⟨-, notSlot⟩ := not_or.mp apart
  have other : ¬ s.slot = name := by
    rintro rfl
    exact notSlot (List.prefix_append _ _)
  rw [place] at stands
  have outside : ¬ s.Touches (s.top ++ [stateDirectory, "staging", name]) := by
    rw [untouched_iff]
    refine ⟨fun inner => ?_, ?_, ?_, (ready.apart_own ["staging", name]).1⟩
    · rcases inner.2 with shared | under
      · exact apart (.inl shared)
      · simp [staged, stagingNames, List.prefix_append_right_inj, List.cons_prefix_cons,
          other] at under
    · simp [Site.aside, backupNames, List.prefix_append_right_inj, List.cons_prefix_cons]
    · simp [Site.journal, journalNames, List.prefix_append_right_inj, List.cons_prefix_cons]
  rcases near.elsewhere _ outside with same | ⟨-, -, leads | leads⟩
  · rw [same] at stands
    exact stands (idle.staging _ (by simpa using inside []))
  · exact (ready.apart_own ["staging", name]).2 leads
  · simp [Site.staged, stagingNames, List.prefix_append_right_inj, List.cons_prefix_cons,
      Ne.symm other] at leads

theorem Near.backup_sorted (near : s.Near d e) (ready : s.Ready d) (idle : s.Idle d)
    (member : name ∈ e.namesIn (s.top ++ [stateDirectory, "backup"])) :
    name = s.slot ∨ name = journalName s.slot ∨ s.Spared d "backup" name ∧ '.' ∉ name.toList := by
  have stands := Disk.mem_namesIn.mp member
  by_contra other
  obtain ⟨notSlot, notJournal, notSpared⟩ := by simpa only [not_or] using other
  have away := ready.apart_own ["backup", name]
  have place : s.top ++ [stateDirectory, "backup"] ++ [name]
      = s.top ++ [stateDirectory, "backup", name] := by simp
  have named := near.sound.isName stands name (by simp)
  rw [place] at stands
  have outside : ¬ s.Touches (s.top ++ [stateDirectory, "backup", name]) := by
    rw [untouched_iff]
    refine ⟨fun inner => ?_, ?_, ?_, away.1⟩
    · simpa [Disk.Inside, workshop, List.prefix_append_right_inj, List.cons_prefix_cons]
        using inner.1
    · simpa [Site.aside, backupNames, List.prefix_append_right_inj, List.cons_prefix_cons] using
        Ne.symm notSlot
    · simpa [Site.journal, journalNames, List.prefix_append_right_inj, List.cons_prefix_cons] using
        Ne.symm notJournal
  rcases near.elsewhere _ outside with same | ⟨-, -, leads | leads⟩
  · rw [same] at stands
    obtain ⟨dotless, file⟩ := idle.backup name stands
    exact notSpared ⟨⟨named, outside, file⟩, dotless⟩
  · exact away.2 leads
  · simp [Site.staged, stagingNames, List.prefix_append_right_inj, List.cons_prefix_cons] at leads

theorem Near.backup_names (near : s.Near d e) (ready : s.Ready d) (idle : s.Idle d)
    (dotless : '.' ∉ s.slot.toList)
    (member : name ∈ e.namesIn (s.top ++ [stateDirectory, "backup"])) :
    '.' ∉ name.toList ∨ name = journalName s.slot := by
  rcases near.backup_sorted ready idle member with rfl | rfl | ⟨-, plain⟩
  · exact .inl dotless
  · exact .inr rfl
  · exact .inl plain

theorem Near.backup_removable (near : s.Near d e) (ready : s.Ready d) (idle : s.Idle d)
    (member : name ∈ e.namesIn (s.top ++ [stateDirectory, "backup"])) :
    s.Removable "backup" name ∨ s.Spared d "backup" name := by
  rcases near.backup_sorted ready idle member with rfl | rfl | ⟨spared, -⟩
  · exact .inl ⟨ready.slotted, s.touches_aside⟩
  · exact .inl ⟨journalName_isName ready.slotted, s.touches_journal⟩
  · exact .inr spared

theorem backup_room (root : Location) :
    Layout.backup root = root.below [stateDirectory, "backup"] := by
  simp [Layout.backup, Layout.directory, Location.child, Location.below]

theorem staging_room (root : Location) :
    Layout.staging root = root.below [stateDirectory, "staging"] := by
  simp [Layout.staging, Layout.directory, Location.child, Location.below]

theorem Near.listed (near : s.Near d w.disk) (ready : s.Ready d)
    (rooms : room = "staging" ∨ room = "backup")
    (leads : w.disk.leadsToDir (s.root.below [stateDirectory, room]) = true) :
    w.disk.list (s.root.below [stateDirectory, room])
      = .ok (w.disk.namesIn (s.top ++ [stateDirectory, room])) := by
  have straight := near.straight_room ready rooms
  have unlinked := near.unlinked_room ready rooms
  obtain ⟨callable, isDir⟩ := (straight.leadsToDir near.sound unlinked).mp leads
  exact straight.list unlinked callable isDir near.sound

theorem leadsToDir_of_list {l : Location} {names : List String} (found : d.list l = .ok names) :
    d.leadsToDir l = true := by
  simp only [Disk.list, bind, Except.bind] at found
  cases resolved : d.resolve true l with
  | error fault => simp [resolved] at found
  | ok place =>
    cases place with
    | free q => simp [resolved, throw, throwThe, MonadExceptOf.throw] at found
    | taken q node =>
      cases node with
      | dir => simp [Disk.leadsToDir, Disk.stat, resolved, bind, Except.bind, pure, Except.pure]
      | file content mode => simp [resolved, throw, throwThe, MonadExceptOf.throw] at found
      | link target => simp [resolved, throw, throwThe, MonadExceptOf.throw] at found

theorem Near.query_room (near : s.Near d w.disk) (ready : s.Ready d)
    (rooms : room = "staging" ∨ room = "backup") :
    (query (·.list (s.root.below [stateDirectory, room])) :
        Action IoFault (List String)).Ensures (fun _ => True)
      (fun r f => f = w.disk ∧
        ∀ names, r = .ok names → names = w.disk.namesIn (s.top ++ [stateDirectory, room])) w := by
  refine ensures_query trivial ⟨rfl, fun names found => ?_⟩
  rw [near.listed ready rooms (leadsToDir_of_list found), Except.ok.injEq] at found
  exact found.symm

theorem Keeps.recoverStaging (keeps : s.Keeps d e w.disk) (ready : s.Ready d) (idle : s.Idle d)
    (restored : Nat) :
    (do if ← observe (·.leadsToDir (Layout.staging s.root)) then
          Recovery.removeEverything (Layout.staging s.root) (← query (·.list (Layout.staging s.root)))
        return restored : Action IoFault Nat).Ensures (fun _ => True) (fun _ f => s.Keeps d e f)
      w := by
  refine ensures_observe_bind ?_
  rw [staging_room]
  dsimp only
  split
  · refine (keeps.query_room ready (.inl rfl)).bind ?_ fun _ _ ⟨same, _⟩ => same ▸ keeps
    rintro names w₁ ⟨same, found⟩
    obtain rfl := found names rfl
    have keeps₁ : s.Keeps d e w₁.disk := same ▸ keeps
    refine (keeps₁.removeEverything ready (.inl rfl) fun name member =>
      keeps.staging_removable ready idle member).bind ?_ fun _ _ keeps₂ => keeps₂
    exact fun _ w₂ keeps₂ => ensures_pure trivial keeps₂
  · exact ensures_pure trivial keeps

theorem Near.recover (near : s.Near d w.disk) (ready : s.Ready d) (idle : s.Idle d)
    (followed : ∀ w₁ : World, w₁.disk = w.disk →
      (Recovery.followJournals (Layout.backup s.root)
          (w.disk.namesIn (s.top ++ [stateDirectory, "backup"]))).Ensures (fun _ => True)
        (fun _ f => s.Keeps d e f) w₁)
    (alone : w.disk.leadsToDir (Layout.backup s.root) = false → s.Keeps d e w.disk) :
    (Recovery.recover s.root).Ensures (fun _ => True) (fun _ f => s.Keeps d e f) w := by
  refine ensures_observe_bind ?_
  split
  · rename_i leads
    have asked : (query (·.list (Layout.backup s.root)) : Action IoFault (List String)).Ensures
        (fun _ => True) (fun r f => f = w.disk ∧
          r = .ok (w.disk.namesIn (s.top ++ [stateDirectory, "backup"]))) w := by
      rw [backup_room] at leads ⊢
      exact ensures_query trivial ⟨rfl, near.listed ready (.inr rfl) leads⟩
    refine asked.bind ?_ (by simp)
    rintro _ w₁ ⟨same, ⟨⟩⟩
    refine (followed w₁ same).bind ?_ fun _ _ keeps => keeps
    intro restored w₂ keeps₂
    have asked₂ := keeps₂.query_room ready (.inr rfl)
    rw [← backup_room] at asked₂
    refine asked₂.bind ?_ fun _ _ ⟨same, _⟩ => same ▸ keeps₂
    rintro names w₃ ⟨same₃, found⟩
    obtain rfl := found names rfl
    have keeps₃ : s.Keeps d e w₃.disk := same₃ ▸ keeps₂
    have removed := keeps₃.removeDirs ready (.inr rfl) fun name member =>
      keeps₂.backup_removable ready idle member
    rw [← backup_room] at removed
    refine removed.bind ?_ fun _ _ keeps => keeps
    intro _ w₄ keeps₄
    exact keeps₄.recoverStaging ready idle restored
  · rename_i apart
    exact (alone (by simpa using apart)).recoverStaging ready idle 0

theorem Settled.recover (settled : s.Settled d (noteOf job) w.disk) (ready : s.Ready d)
    (idle : s.Idle d) (hosts : s.Hosts job) (written : s.root = .ofText path)
    (dotless : '.' ∉ s.slot.toList) :
    (Recovery.recover s.root).Ensures (fun _ => True)
      (fun _ f => s.Keeps d w.disk f) w := by
  refine settled.toNear.recover ready idle ?_ fun _ => ⟨settled.toNear, fun _ => rfl⟩
  intro w₁ same
  refine ((same ▸ settled : s.Settled d (noteOf job) w₁.disk).followJournals ready hosts written
    fun name member => settled.backup_names ready idle dotless member).mono ?_
  rintro r f ⟨settled₁, same₁⟩
  exact ⟨settled₁.toNear, fun r => by rw [same₁, same]⟩

theorem Aside.recover (aside : s.Aside d (noteOf job) w.disk) (ready : s.Ready d)
    (idle : s.Idle d) (hosts : s.Hosts job) (written : s.root = .ofText path)
    (dotless : '.' ∉ s.slot.toList) (unlinked : ∀ target, d.look s.destination ≠ some (.link target)) :
    (Recovery.recover s.root).Ensures (fun _ => True) (fun _ f => s.Keeps d d f) w := by
  have straight := aside.straight_room ready (.inr rfl)
  have noLink := aside.unlinked_room ready (.inr rfl)
  have noted := (aside.noted idle.journal).1
  have place : s.journal = s.top ++ [stateDirectory, "backup"] ++ [journalName s.slot] := by
    simp [Site.journal, journalNames]
  have isDir : w.disk.look (s.top ++ [stateDirectory, "backup"]) = some .dir := by
    apply aside.sound.above (List.cons_ne_nil (journalName s.slot) [])
    rw [← place, noted]
    simp
  have callable : s.root.Callable [stateDirectory, "backup"] :=
    (show s.root.Callable ([stateDirectory, "backup"] ++ [s.slot]) from aside.there).init (by simp)
      straight.plain
  have leads : w.disk.leadsToDir (Layout.backup s.root) = true := by
    rw [backup_room]
    exact (straight.leadsToDir aside.sound noLink).mpr ⟨callable, isDir⟩
  refine aside.toNear.recover ready idle ?_ (by simp [leads])
  intro w₁ same
  refine ((same ▸ aside : s.Aside d (noteOf job) w₁.disk).followJournals ready hosts written
    idle unlinked (fun name member => aside.backup_names ready idle dotless member) ?_).mono ?_
  · rw [Disk.mem_namesIn, ← place, noted]
    simp
  · rintro r f ⟨settled₁, same₁⟩
    exact ⟨settled₁.toNear, same₁⟩

end Transaction.Site

end PinnedTree
