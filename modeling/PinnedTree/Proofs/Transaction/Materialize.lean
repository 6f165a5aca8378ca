import PinnedTree.Proofs.Backend
import PinnedTree.Proofs.Marker
import PinnedTree.Proofs.Transaction.Swap

namespace PinnedTree.Transaction

open PinnedTree.Action

variable {s : Site} {d e f : Disk} {new : DiskPath → Option Node} {note : ByteArray} {w : World}
  {job : Job} {carried : List (List String)}

namespace Site

theorem staging_eq (s : Site) : Layout.staging s.root / s.slot = s.root.below s.stagingNames := by
  simp [Layout.staging, Layout.directory, Location.child, Location.below, stagingNames]

theorem backup_eq (s : Site) : Layout.backup s.root / s.slot = s.root.below s.backupNames := by
  simp [Layout.backup, Layout.directory, Location.child, Location.below, backupNames]

theorem journal_eq (s : Site) :
    Layout.backup s.root / journalName s.slot = s.root.below s.journalNames := by
  simp [Layout.backup, Layout.directory, Location.child, Location.below, journalNames]

/-- Nothing has changed but in the room where content is put together, and on the way to it. -/
structure Aloof (s : Site) (d e : Disk) : Prop where
  sound : e.Sound
  home : e.home = d.home
  elsewhere : ∀ p, ¬ s.Room p → e.look p = d.look p ∨
    (d.look p = none ∧ e.look p = some .dir ∧ p <+: s.staged)

theorem Aloof.refl (sound : d.Sound) : s.Aloof d d := ⟨sound, rfl, fun _ _ => .inl rfl⟩

theorem Aloof.near (aloof : s.Aloof d e) : s.Near d e where
  sound := aloof.sound
  home := aloof.home
  elsewhere p outside := by
    rcases aloof.elsewhere p (untouched_iff.mp outside).1 with same | ⟨free, made, under⟩
    · exact .inl same
    · exact .inr ⟨free, made, .inr under⟩

theorem Aloof.opened (aloof : s.Aloof d e) : s.opened.Aloof d e where
  sound := aloof.sound
  home := aloof.home
  elsewhere p outside := aloof.elsewhere p fun inner => outside inner.opened

theorem Quiet.opened (quiet : s.Quiet d e) : s.opened.Quiet d e :=
  { quiet with
    toNear := quiet.toNear.opened
    silent := fun free written => { quiet.silent free written with } }

theorem Phase.opened (phase : s.Phase d new note e) : s.opened.Phase d new note e := by
  rcases phase with quiet | aside | ⟨carried, placed⟩ | ⟨carried, done⟩
  · exact .inl quiet.opened
  · exact .inr (.inl { aside with toNear := aside.toNear.opened })
  · exact .inr (.inr (.inl ⟨carried, { placed with
      toNear := placed.toNear.opened
      each := fun c member => { placed.each c member with }
      content := { placed.content with } }⟩))
  · exact .inr (.inr (.inr ⟨carried, { done with
      toNear := done.toNear.opened
      each := fun c member => { done.each c member with }
      content := { done.content with } }⟩))

theorem Aloof.apart (aloof : s.Aloof d e) {p : DiskPath} (outside : ¬ s.Room p)
    (away : ¬ p <+: s.staged) : e.look p = d.look p := by
  rcases aloof.elsewhere p outside with same | ⟨-, -, under⟩
  · exact same
  · exact absurd under away

theorem Aloof.of_same (aloof : s.Aloof d e) (sound : f.Sound) (home : f.home = e.home)
    (same : ∀ p, ¬ s.Room p → f.look p = e.look p) : s.Aloof d f where
  sound := sound
  home := home.trans aloof.home
  elsewhere p outside := by
    rw [same p outside]
    exact aloof.elsewhere p outside

theorem Aloof.pruned (aloof : s.Aloof d e) (pruned : e.Pruned f s.staged) (sound : f.Sound)
    (home : f.home = e.home) : s.Aloof d f := by
  refine aloof.of_same sound home fun p outside => ?_
  rcases pruned p with same | ⟨⟨rest, rfl⟩, -⟩
  · exact same
  · exact absurd (s.room_staged rest) outside

theorem Aloof.built (aloof : s.Aloof d e) (built : e.Built f s.staged) (sound : f.Sound)
    (home : f.home = e.home) : s.Aloof d f where
  sound := sound
  home := home.trans aloof.home
  elsewhere p outside := by
    rcases built p with same | ⟨free, made, under⟩
    · rw [same]
      exact aloof.elsewhere p outside
    · rcases aloof.elsewhere p outside with same | ⟨-, made', -⟩
      · exact .inr ⟨same ▸ free, made, under⟩
      · rw [free] at made'
        cases made'

theorem not_room {p : DiskPath} (apart : Disk.Apart p s.workshop) (r : DiskPath) :
    ¬ s.Room (p ++ r) :=
  fun inner => apart.symm.not_under r inner.1.1

theorem Aloof.look_destination (aloof : s.Aloof d e) (ready : s.Ready d) (r : DiskPath) :
    e.look (s.destination ++ r) = d.look (s.destination ++ r) := by
  have apart := (ready.destination_staged.append r []).1
  rw [List.append_nil] at apart
  exact aloof.apart (not_room ready.destination_workshop r) apart

theorem Aloof.look_aside (aloof : s.Aloof d e) (r : DiskPath) :
    e.look (s.aside ++ r) = d.look (s.aside ++ r) := by
  have apart := (s.staged_aside.symm.append r []).1
  rw [List.append_nil] at apart
  exact aloof.apart (not_room s.aside_workshop r) apart

theorem journal_workshop (s : Site) : Disk.Apart s.journal s.workshop := by
  simp [Disk.Apart, journal, workshop, journalNames, List.prefix_append_right_inj,
    List.cons_prefix_cons]

theorem Aloof.look_journal (aloof : s.Aloof d e) : e.look s.journal = d.look s.journal := by
  have outside := not_room s.journal_workshop []
  rw [List.append_nil] at outside
  exact aloof.apart outside s.staged_journal.2

theorem Aloof.quiet (aloof : s.Aloof d e) (ready : s.Ready d) : s.Quiet d e where
  toNear := aloof.near
  old := aloof.look_destination ready
  bare r := .inl (aloof.look_aside r)
  silent free written := by
    rw [aloof.look_journal, free] at written
    exact absurd rfl written

theorem Aloof.poised (aloof : s.Aloof d e) (ready : s.Ready d)
    (staged : ∀ r, e.look (s.staged ++ r) = new r) : s.Poised d new e where
  toQuiet := aloof.quiet ready
  staged := staged
  unlinked target := by
    rw [aloof.look_journal]
    exact ready.own s.journalNames (by simp) target
  unwritten free := by rw [aloof.look_journal, free]

theorem discard_ensures {names : List String}
    (straight : w.disk.Straight s.root s.top names) (sound : w.disk.Sound) :
    (Transaction.discard (s.root.below names)).Ensures (w.disk.Pruned · (s.top ++ names))
      (fun r e => r = .ok () ∧ w.disk.Pruned e (s.top ++ names)) w := by
  refine ensures_observe_bind ?_
  split
  · exact Ensures.ignoringFailure ((Files.removeAll_ensures straight sound).mono
      fun _ _ holds => ⟨rfl, holds.1⟩)
  · exact ensures_pure (fun _ => .inl rfl) ⟨rfl, fun _ => .inl rfl⟩

theorem discard_gone {names : List String} (straight : w.disk.Straight s.root s.top names)
    (sound : w.disk.Sound) (callable : s.root.Callable names) :
    (Transaction.discard (s.root.below names)).Ensures (fun _ => True)
      (fun _ e => w.disk.look (s.top ++ names) = some .dir → e.look (s.top ++ names) = none) w := by
  by_cases isDir : w.disk.look (s.top ++ names) = some .dir
  · refine ensures_observe_bind ?_
    have leads : w.disk.leadsSomewhere (s.root.below names) = true :=
      (straight.leadsSomewhere sound (by simp [isDir])).mpr ⟨callable, by simp [isDir]⟩
    rw [if_pos leads]
    exact Ensures.ignoringFailure ((Files.removeAll_gone straight sound callable isDir).mono
      fun _ _ gone _ => gone.2)
  · exact ((discard_ensures straight sound).weaken fun _ _ => trivial).mono
      fun _ _ _ stood => absurd stood isDir

/-- What is left beside the tree after a job: no journal and nothing staged, if there was none, and
nothing aside but what stood there and old content that is not a directory. -/
structure Swept (s : Site) (d e : Disk) : Prop where
  unstaged : d.look s.staged = none → e.look s.staged = none
  unnoted : d.look s.journal = none → e.look s.journal = none
  idle : e.look s.aside = none ∨ e.look s.aside = d.look s.aside ∨
    e.look s.aside = d.look s.destination ∧ d.look s.destination ≠ some .dir

theorem Done.discard_aside (done : s.Done d new note carried w.disk) (ready : s.Ready d) :
    (Transaction.discard (s.root.below s.backupNames)).Ensures (fun _ => True)
      (fun _ e => e.look s.aside = none ∨ e.look s.aside = d.look s.aside ∨
        e.look s.aside = d.look s.destination ∧ d.look s.destination ≠ some .dir) w := by
  have straight := done.straight_aside ready
  have discarded := (discard_ensures straight done.sound).weaken fun _ _ => trivial
  have leftover := done.leftover []
  simp only [List.append_nil] at leftover
  rcases leftover with gone | ⟨same, -⟩ | ⟨callable, same⟩
  · refine discarded.mono fun _ e ⟨_, pruned⟩ => .inl ?_
    rcases pruned s.aside with still | ⟨-, gone'⟩
    · rw [still, gone]
    · exact gone'
  · refine discarded.mono fun _ e ⟨_, pruned⟩ => ?_
    rcases pruned s.aside with still | ⟨-, gone⟩
    · exact .inr (.inl (still.trans same))
    · exact .inl gone
  · refine (discarded.also (discard_gone straight done.sound callable)).mono ?_
    rintro _ e ⟨⟨-, pruned⟩, gone⟩
    rcases pruned s.aside with still | ⟨-, none⟩
    · by_cases isDir : d.look s.destination = some .dir
      · exact .inl (gone (same.trans isDir))
      · exact .inr (.inr ⟨still.trans same, isDir⟩)
    · exact .inl none

theorem Done.unnote (done : s.Done d new note carried w.disk) (ready : s.Ready d) :
    (Files.removeFile (s.root.below s.journalNames)).Ensures (fun _ => True)
      (fun _ e => d.look s.journal = none → e.look s.journal = none) w := by
  have straight := done.straight_journal ready
  by_cases free : d.look s.journal = none
  · rcases done.noted free with gone | ⟨stands, callable⟩
    · refine ((Files.removeFile_ensures straight done.sound).weaken fun _ _ => trivial).mono ?_
      intro _ e pruned _
      rcases pruned s.journal with same | ⟨-, none⟩
      · rw [same, gone]
      · exact none
    · have leaf : w.disk.look s.journal ≠ some .dir := by simp [stands]
      exact (Files.removeFile_gone straight done.sound callable leaf).mono fun _ _ gone _ => gone
  · exact ((Files.removeFile_ensures straight done.sound).weaken fun _ _ => trivial).mono
      fun _ _ _ none => absurd none free

def Cleared (s : Site) (e : Disk) : Prop := e.look s.aside = none ∧ e.look s.journal = none

theorem Clearable.discard_aside (clearable : s.Clearable w.disk)
    (straight : w.disk.Straight s.root s.top s.backupNames) (sound : w.disk.Sound) :
    (Transaction.discard (s.root.below s.backupNames)).Ensures (fun _ => True)
      (fun _ e => e.look s.aside = none) w := by
  rcases clearable.aside with gone | ⟨isDir, callable⟩
  · refine ((discard_ensures straight sound).weaken fun _ _ => trivial).mono ?_
    rintro _ e ⟨-, pruned⟩
    rcases pruned s.aside with same | ⟨-, none⟩
    · rw [same, gone]
    · exact none
  · exact (discard_gone straight sound callable).mono fun _ e gone => gone isDir

theorem Clearable.unnote (clearable : s.Clearable w.disk)
    (straight : w.disk.Straight s.root s.top s.journalNames) (sound : w.disk.Sound) :
    (Files.removeFile (s.root.below s.journalNames)).Ensures (fun _ => True)
      (fun _ e => e.look s.journal = none) w := by
  rcases clearable.journal with gone | ⟨⟨c, m, stands⟩, callable⟩
  · refine ((Files.removeFile_ensures straight sound).weaken fun _ _ => trivial).mono ?_
    intro _ e pruned
    rcases pruned s.journal with same | ⟨-, none⟩
    · rw [same, gone]
    · exact none
  · have leaf : w.disk.look s.journal ≠ some .dir := by simp [stands]
    exact (Files.removeFile_gone straight sound callable leaf).mono fun _ _ gone => gone

theorem Done.clear
    (done : s.Done d new note carried w.disk) (ready : s.Ready d) :
    (do Transaction.discard (s.root.below s.backupNames)
        ignoringFailure (Files.removeFile (s.root.below s.journalNames)) :
        Action FetchError Unit).Ensures (s.Phase d new note)
      (fun r e => r = .ok () ∧ s.Done d new note carried e ∧ s.Swept d e) w := by
  have phase : ∀ e : Disk, s.Done d new note carried e → s.Phase d new note e := fun e done =>
    .inr (.inr (.inr ⟨carried, done⟩))
  have first : ∀ e : Disk, w.disk.Pruned e s.aside ∧ e.Sound ∧ e.home = w.disk.home →
      s.Done d new note carried e := fun e ⟨pruned, sound, home⟩ =>
    done.pruned pruned sound home s.touches_aside ready.destination_aside
  have discarded := ((discard_ensures (done.straight_aside ready) done.sound).keeping
    done.sound).also (done.discard_aside ready)
  refine (discarded.weaken fun e holds => phase e (first e holds)).bind ?_ ?_
  · rintro ⟨⟩ w₁ ⟨⟨⟨-, pruned⟩, sound, home⟩, idle⟩
    have done₁ := first _ ⟨pruned, sound, home⟩
    have second : ∀ e : Disk, w₁.disk.Pruned e s.journal ∧ e.Sound ∧ e.home = w₁.disk.home →
        s.Done d new note carried e := fun e ⟨pruned, sound, home⟩ =>
      done₁.pruned pruned sound home s.touches_journal ready.destination_journal
    have removed := ((Files.removeFile_ensures (done₁.straight_journal ready) done₁.sound).keeping
      done₁.sound).also (done₁.unnote ready)
    refine Ensures.ignoringFailure ((removed.weaken fun e holds => phase e (second e holds)).mono
      fun _ e holds => ⟨rfl, second e holds.1, fun _ => (second e holds.1).emptied, holds.2, ?_⟩)
    have aside := look_pruned holds.1.1 s.aside_journal []
    rw [List.append_nil] at aside
    rw [aside]
    exact idle
  · rintro fault e ⟨⟨⟨impossible, -⟩, -⟩, -⟩
    cases impossible

theorem Done.clear_away (done : s.Done d new note carried w.disk) (ready : s.Ready d)
    (clearable : s.Clearable w.disk) :
    (do Transaction.discard (s.root.below s.backupNames)
        ignoringFailure (Files.removeFile (s.root.below s.journalNames)) :
        Action FetchError Unit).Ensures (fun _ => True) (fun _ e => s.Cleared e) w := by
  have straight := done.straight_aside ready
  have discarded := ((discard_ensures straight done.sound).keeping done.sound).also
    (clearable.discard_aside straight done.sound)
  refine (discarded.weaken fun _ _ => trivial).bind ?_ ?_
  · rintro ⟨⟩ w₁ ⟨⟨⟨-, pruned⟩, sound, home⟩, gone⟩
    have done₁ := done.pruned pruned sound home s.touches_aside ready.destination_aside
    have journal := look_pruned pruned s.aside_journal.symm []
    rw [List.append_nil] at journal
    have clearable₁ : s.Clearable w₁.disk := ⟨.inl gone, journal ▸ clearable.journal⟩
    have straight₁ := done₁.straight_journal ready
    have removed := (Files.removeFile_ensures straight₁ sound).also
      (clearable₁.unnote straight₁ sound)
    refine Ensures.ignoringFailure ((removed.weaken fun _ _ => trivial).mono ?_)
    rintro _ e ⟨pruned₁, unnoted⟩
    have aside := look_pruned pruned₁ s.aside_journal []
    rw [List.append_nil] at aside
    exact ⟨aside.trans gone, unnoted⟩
  · rintro fault e ⟨⟨⟨impossible, -⟩, -⟩, -⟩
    cases impossible

theorem Poised.swapIn (poised : s.Poised d new w.disk) (ready : s.Ready d) (hosts : s.Hosts job)
    (fresh : s.Fresh new) :
    (Transaction.swapIn s.root job s.slot (s.root.below s.stagingNames)).Ensures
      (s.Phase d new (noteOf job))
      (fun r e => match r with
        | .ok _ => ((∃ carried, s.Done d new (noteOf job) carried e) ∧ s.Swept d e) ∧
            (d.look s.destination = some .dir ∨
              d.look s.destination = none ∧ s.Clearable w.disk → s.Cleared e)
        | .error _ => s.Withdrawn d e) w := by
  unfold Transaction.swapIn
  rw [backup_eq, journal_eq]
  refine (poised.swap ready hosts fresh).tried poised.sound ?_
  rintro (broken | ⟨⟩) w₁ sound home outcome
  · refine (outcome.rollBack ready fresh).andThen sound ?_ fun _ _ _ _ withdrawn => withdrawn
    intro _ w₂ _ _ withdrawn
    exact ensures_throw (.inl withdrawn.toQuiet) withdrawn
  · obtain ⟨⟨carried, done⟩, clearable⟩ := outcome
    by_cases removed : s.Clearable w₁.disk
    · refine ((done.clear ready).also (done.clear_away ready removed)).mono ?_
      rintro r e ⟨⟨rfl, done, swept⟩, cleared⟩
      exact ⟨⟨⟨carried, done⟩, swept⟩, fun _ => cleared⟩
    · refine (done.clear ready).mono ?_
      rintro r e ⟨rfl, done, swept⟩
      exact ⟨⟨⟨carried, done⟩, swept⟩, fun stood => absurd (clearable stood) removed⟩

theorem Ready.prepare (ready : s.Ready w.disk) :
    (Transaction.prepare (s.root.below s.stagingNames)).Ensures (s.Aloof w.disk)
      (fun r e => s.Aloof w.disk e ∧ (r = .ok () → s.root.Callable s.stagingNames ∧
        e.look s.staged = some .dir ∧ ∀ rest, rest ≠ [] → e.look (s.staged ++ rest) = none) ∧
        ∀ fault, r = .error fault → w.disk.look s.staged = none → e.look s.staged = none) w := by
  have aloof : s.Aloof w.disk w.disk := .refl ready.sound
  have straight := aloof.near.straight_staged ready
  have unlinked := ready.own s.stagingNames (by simp)
  have made : ∀ w₁ : World, s.Aloof w.disk w₁.disk →
      (∀ target, w₁.disk.look s.staged ≠ some (.link target)) →
      (s.root.Callable s.stagingNames → w₁.disk.look s.staged = none) →
      (w.disk.look s.staged = none → w₁.disk.look s.staged = none) →
      (Files.makeDirs (s.root.below s.stagingNames)).Ensures (s.Aloof w.disk)
        (fun r e => s.Aloof w.disk e ∧ (r = .ok () → s.root.Callable s.stagingNames ∧
          e.look s.staged = some .dir ∧ ∀ rest, rest ≠ [] → e.look (s.staged ++ rest) = none) ∧
          ∀ fault, r = .error fault → w.disk.look s.staged = none → e.look s.staged = none)
        w₁ := by
    intro w₁ aloof₁ unlinked₁ free still
    have straight₁ := aloof₁.near.straight_staged ready
    have dirs := (Files.makeDirs_ensures aloof₁.sound straight₁.rooted straight₁.plain ?_).keeping
      aloof₁.sound
    · refine (dirs.weaken fun e ends => aloof₁.built ends.1 ends.2.1 ends.2.2).mono ?_
      rintro r e ⟨⟨built, there, stuck⟩, sound, home⟩
      refine ⟨aloof₁.built built sound home, fun ok => ?_,
        fun fault failed none => (stuck fault failed).trans (still none)⟩
      obtain ⟨callable, isDir⟩ := there ok straight₁.inner
      refine ⟨callable, isDir, fun rest inner => ?_⟩
      rw [built.away, aloof₁.sound.none_below (free callable)]
      intro under
      exact inner (by simpa [Site.staged] using under.eq_of_length_le (by simp [Site.staged]))
    · intro r under inner target
      by_cases whole : r = s.stagingNames
      · exact whole ▸ unlinked₁ target
      · exact straight₁.clear r under whole target
  refine ensures_observe_bind ?_
  dsimp only
  split
  · have removed := (Files.removeAll_ensures straight ready.sound).keeping ready.sound
    refine (removed.weaken fun e ends => aloof.pruned ends.1 ends.2.1 ends.2.2).bind ?_ ?_
    · rintro ⟨⟩ w₁ ⟨⟨pruned, gone⟩, sound, home⟩
      have free := gone rfl s.staged (List.prefix_refl _)
      exact made w₁ (aloof.pruned pruned sound home) (by simp [free]) (fun _ => free) fun _ => free
    · rintro fault e ⟨⟨pruned, -⟩, sound, home⟩
      refine ⟨aloof.pruned pruned sound home, by simp, fun _ _ none => ?_⟩
      rcases pruned s.staged with same | ⟨-, gone⟩
      · rw [same, none]
      · exact gone
  · rename_i missing
    refine made w aloof unlinked (fun callable => ?_) id
    by_contra stands
    exact missing ((straight.leadsSomewhere ready.sound unlinked).mpr ⟨callable, stands⟩)

theorem Ready.prepare_reporting (ready : s.Ready w.disk) :
    (reporting FetchError.io (Transaction.prepare (s.root.below s.stagingNames))).Ensures
      (s.Aloof w.disk)
      (fun r e => s.Aloof w.disk e ∧ (r = .ok () → s.root.Callable s.stagingNames ∧
        e.look s.staged = some .dir ∧ ∀ rest, rest ≠ [] → e.look (s.staged ++ rest) = none) ∧
        ∀ fault, r = .error fault → w.disk.look s.staged = none → e.look s.staged = none) w := by
  refine Ensures.reporting (ready.prepare.mono ?_)
  rintro (fault | ⟨⟩) e ⟨aloof, after, stuck⟩
  · exact ⟨aloof, by simp [Except.mapError], fun _ _ => stuck fault rfl⟩
  · exact ⟨aloof, fun _ => after rfl, by simp [Except.mapError]⟩

def stagingRun (s : Site) (job : Job) (w : World) : Except FetchError Unit × World :=
  (do reporting .io (Transaction.prepare (s.root.below s.stagingNames))
      Transaction.stage job (s.root.below s.stagingNames) : Action FetchError Unit).exec w

def stagedTree (s : Site) (job : Job) (w : World) (r : DiskPath) : Option Node :=
  (s.stagingRun job w).2.disk.look (s.staged ++ r)

def Straightforward (s : Site) (job : Job) (w : World) : Prop :=
  (s.stagingRun job w).1 = .ok () → ∀ c ∈ s.nested, (s.stagingRun job w).2.disk.Clear s.staged c

structure Marked (job : Job) (new : DiskPath → Option Node) : Prop where
  isDir : new [] = some .dir
  marker : ∃ clock, new [markerFile] = some (.file (markerOf job clock).text.toUTF8 0o600)

/-- What can be seen while a pin is brought into place: nothing but whole content replaces the old. -/
def Passing (s : Site) (job : Job) (d : Disk) (new : DiskPath → Option Node) (e : Disk) : Prop :=
  s.Quiet d e ∨ Marked job new ∧ s.Phase d new (noteOf job) e

def Stocked (job : Job) (new : DiskPath → Option Node) : Prop :=
  ∃ tree, job.backend.Yields job.pin tree ∧ ∀ r, r ≠ [markerFile] → new r = tree r

def asking (s : Site) (job : Job) (w : World) : World :=
  w.announce (.requested job.backend.name (request w.disk job (s.root.below s.stagingNames)))

/-- Asked for the content of a job, its backend keeps to a shared room; in a room of its own it leaves
nothing changed beside the directory that it is given. -/
def Serves (s : Site) (job : Job) (w : World) : Prop :=
  let asked := request w.disk job (s.root.below s.stagingNames)
  Backend.Asked (s.asking job w) asked s.workshop s.slot →
    match s.shared with
    | true => job.backend.Keeps (s.asking job w) asked s.workshop s.slot
    | false => job.backend.Tidies (s.asking job w) asked s.workshop s.slot

def Admits (s : Site) (job : Job) (w : World) : Prop :=
  ∀ w', (reporting FetchError.io (Transaction.prepare (s.root.below s.stagingNames))).exec w
    = (.ok (), w') → s.Serves job w'

theorem Admits.of_confined (shared : s.shared = true) (confined : job.backend.Confined) :
    s.Admits job w := by
  intro w' _ asked
  rw [shared]
  exact confined _ _ _ _ asked

theorem Admits.of_housed (apart : s.shared = false) (housed : job.backend.Housed) :
    s.Admits job w := by
  intro w' _ asked
  rw [apart]
  exact housed _ _ _ _ asked

theorem Serves.fetch (serves : s.Serves job w)
    (asked : Backend.Asked (s.asking job w) (request w.disk job (s.root.below s.stagingNames))
      s.workshop s.slot) :
    (job.backend.fetch (request w.disk job (s.root.below s.stagingNames))).Ensures
      (fun e => ∀ p, ¬ s.opened.Room p → e.look p = w.disk.look p)
      (fun _ e => (∀ p, ¬ s.Room p → e.look p = w.disk.look p) ∧ e.look s.staged = some .dir)
      (s.asking job w) := by
  have isDir := asked.isDir
  rw [← s.staged_eq] at isDir
  have watched : ∀ e : Disk, Backend.Kept w.disk e s.workshop s.slot →
      ∀ p, ¬ s.opened.Room p → e.look p = w.disk.look p :=
    fun e kept p outside => kept.outside p fun inner => outside ⟨inner, .inl rfl⟩
  have answers := serves asked
  cases shared : s.shared with
  | true =>
    rw [shared] at answers
    refine ((answers.fetch asked).weaken watched).mono fun _ e kept => ?_
    exact ⟨fun p outside => kept.outside p fun inner => outside ⟨inner, .inl shared⟩,
      s.staged_eq ▸ kept.isDir⟩
  | false =>
    rw [shared] at answers
    refine ((answers.fetch asked).weaken watched).mono fun _ e same => ?_
    rw [← s.staged_eq] at same
    refine ⟨fun p outside => same p fun inner => outside ?_, by rw [same _ fun i => i.2 rfl, isDir]⟩
    obtain ⟨⟨rest, rfl⟩, -⟩ := inner
    exact s.room_staged rest

theorem Aloof.asked (aloof : s.Aloof d w.disk) (ready : s.Ready d) (job : Job)
    (callable : s.root.Callable s.stagingNames) (isDir : w.disk.look s.staged = some .dir)
    (empty : ∀ rest, rest ≠ [] → w.disk.look (s.staged ++ rest) = none) :
    Backend.Asked (s.asking job w) (request w.disk job (s.root.below s.stagingNames))
      s.workshop s.slot := by
  have straight := aloof.near.straight_staged ready
  have there : w.disk.look (s.top ++ s.stagingNames) = some .dir := isDir
  have opened : w.disk.Open s.top s.stagingNames := aloof.sound.opened (by simp [there])
  have leads : w.disk.resolve true (s.root.below s.stagingNames)
      = .ok (.taken (s.workshop ++ [s.slot]) .dir) := by
    rw [straight.resolve_follow (by simp [there]),
      straight.resolved callable opened, ← s.staged_eq]
    simp only [Disk.placeAt, there, Site.staged]
  have above : w.disk.resolve true (s.root.below [stateDirectory, "staging"])
      = .ok (.taken s.workshop .dir) := by
    apply straight.leads_above _ _ (by simp) callable opened
    · exact List.prefix_append _ [s.slot]
    · simp [Site.stagingNames]
  rw [s.staged_eq] at isDir empty
  have beneath : s.root.below s.stagingNames
      = (s.root.below [stateDirectory, "staging"]).child s.slot := by
    simp [Location.child, Location.below, Site.stagingNames]
  exact ⟨aloof.sound, ⟨_, beneath, above⟩, leads, isDir, empty⟩

theorem exec_stage (s : Site) (job : Job) (w : World) :
    (Transaction.stage job (s.root.below s.stagingNames)).exec w = (do
      job.backend.fetch (request w.disk job (s.root.below s.stagingNames))
      Backend.poll
      let marker := markerOf job (← get).clock
      reporting (fun e => FetchError.marker e.message) (marker.write (s.root.below s.stagingNames)) :
        Action FetchError Unit).exec (s.asking job w) := by
  have told : (announce (.requested job.backend.name
      (request w.disk job (s.root.below s.stagingNames))) : Action FetchError Unit).exec w
      = (.ok (), s.asking job w) := rfl
  rw [Transaction.stage, exec_observe_bind, exec_bind_ok told]

theorem Aloof.stage (aloof : s.Aloof d w.disk) (ready : s.Ready d)
    (serves : s.Serves job w) (callable : s.root.Callable s.stagingNames)
    (isDir : w.disk.look s.staged = some .dir)
    (empty : ∀ rest, rest ≠ [] → w.disk.look (s.staged ++ rest) = none) :
    (Transaction.stage job (s.root.below s.stagingNames)).Ensures (s.opened.Aloof d)
      (fun r e => s.Aloof d e ∧ e.look s.staged = some .dir ∧ (r = .ok () →
        (∃ clock, e.look (s.staged ++ [markerFile])
          = some (.file (markerOf job clock).text.toUTF8 0o600)) ∧
        Stocked job fun r => e.look (s.staged ++ r))) w := by
  have asked := aloof.asked ready job callable isDir empty
  refine Ensures.of_exec_eq (s.exec_stage job w) rfl rfl ?_
  have fetched := (serves.fetch asked).keeping aloof.sound
  refine (fetched.weaken fun e ends => aloof.opened.of_same ends.2.1 ends.2.2 ends.1).bind_exec ?_ ?_
  · rintro ⟨⟩ answered ⟨kept₂, sound₂, home₂⟩
    have yields : job.backend.Yields job.pin fun r => ((job.backend.fetch
        (request w.disk job (s.root.below s.stagingNames))).exec (s.asking job w)).2.disk.look
          (s.staged ++ r) :=
      ⟨s.asking job w, _, s.workshop, s.slot, asked, rfl, rfl, rfl, answered,
        fun r => by rw [← s.staged_eq]⟩
    generalize (job.backend.fetch (request w.disk job (s.root.below s.stagingNames))).exec
      (s.asking job w) = run at kept₂ sound₂ home₂ yields ⊢
    obtain ⟨answer, w₂⟩ := run
    simp only at kept₂ sound₂ home₂ yields ⊢
    have aloof₂ := aloof.of_same sound₂ home₂ kept₂.1
    refine (Backend.poll_ensures.weaken fun e same => same ▸ aloof₂.opened).bind ?_ ?_
    · rintro ⟨⟩ w₃ same₃
      have aloof₃ : s.Aloof d w₃.disk := same₃ ▸ aloof₂
      have isDir₃ : w₃.disk.look (s.top ++ s.stagingNames) = some .dir := same₃ ▸ kept₂.2
      have straight₃ := aloof₃.near.straight_staged ready
      refine ensures_get ?_
      have marked := ((markerOf job w₃.clock).write_ensures straight₃ aloof₃.sound isDir₃).keeping
        aloof₃.sound
      have aloof₄ : ∀ e : Disk, (∀ q, ¬ Disk.Inside (s.top ++ s.stagingNames) q →
          e.look q = w₃.disk.look q) → e.Sound → e.home = w₃.disk.home → s.Aloof d e := by
        intro e same sound home
        refine aloof₃.of_same sound home fun p outside => same p fun inner => ?_
        obtain ⟨rest, below⟩ := inner.1
        exact outside (below ▸ s.room_staged rest)
      refine Ensures.reporting ((marked.weaken fun e ends =>
        (aloof₄ e ends.1 ends.2.1 ends.2.2).opened).mono ?_)
      rintro r e ⟨⟨same, written⟩, sound, home⟩
      refine ⟨aloof₄ e same sound home, ?_, fun ok => ?_⟩
      · rw [← isDir₃]
        exact same _ fun inner => inner.2 rfl
      · have done : r = .ok () := by cases r <;> simp_all [Except.mapError]
        refine ⟨⟨w₃.clock, ?_⟩, _, yields, fun r other => ?_⟩
        · rw [← (written done).1, Site.staged, List.append_assoc]
        · rw [← same₃]
          refine (written done).2 _ fun here => other ?_
          rw [Site.staged, List.append_assoc] at here
          exact List.append_cancel_left (List.append_cancel_left here)
    · rintro fault e same
      exact ⟨same ▸ aloof₂, same ▸ kept₂.2, by simp⟩
  · rintro fault e ⟨kept, sound, home⟩
    exact ⟨aloof.of_same sound home kept.1, kept.2, by simp⟩

theorem Withdrawn.discard (withdrawn : s.Withdrawn d w.disk) (ready : s.Ready d)
    (callable : s.root.Callable s.stagingNames) :
    (Transaction.discard (s.root.below s.stagingNames)).Ensures (s.Quiet d)
      (fun r e => r = .ok () ∧ s.Quiet d e ∧ s.Swept d e) w := by
  have straight := withdrawn.straight_staged ready
  have discarded := ((discard_ensures straight withdrawn.sound).keeping withdrawn.sound).also
    (discard_gone straight withdrawn.sound callable)
  have still : ∀ e : Disk, w.disk.Pruned e s.staged → e.Sound → e.home = w.disk.home →
      s.Quiet d e := fun e pruned sound home =>
    withdrawn.pruned pruned sound home s.touches_staged ready.destination_staged
  refine (discarded.weaken fun e ⟨pruned, sound, home⟩ => still e pruned sound home).mono ?_
  rintro r e ⟨⟨⟨ok, pruned⟩, sound, home⟩, gone⟩
  have quiet := still e pruned sound home
  have journal := look_pruned pruned s.staged_journal.symm []
  rw [List.append_nil] at journal
  refine ⟨ok, quiet, fun _ => gone withdrawn.full, fun free => ?_, ?_⟩
  · rw [journal, withdrawn.unnoted free]
  · rcases quiet.bare [] with same | none
    · exact .inr (.inl (by simpa using same))
    · exact .inl (by simpa using none)

theorem Done.discard (done : s.Done d new note carried w.disk) (ready : s.Ready d)
    (swept : s.Swept d w.disk) :
    (Transaction.discard (s.root.below s.stagingNames)).Ensures (s.Done d new note carried)
      (fun r e => r = .ok () ∧ s.Done d new note carried e ∧ s.Swept d e) w := by
  have discarded := (discard_ensures (done.straight_staged ready) done.sound).keeping done.sound
  have still : ∀ e : Disk, w.disk.Pruned e s.staged → e.Sound → e.home = w.disk.home →
      s.Done d new note carried e := fun e pruned sound home =>
    done.pruned pruned sound home s.touches_staged ready.destination_staged
  refine (discarded.weaken fun e ⟨pruned, sound, home⟩ => still e pruned sound home).mono ?_
  rintro r e ⟨⟨ok, pruned⟩, sound, home⟩
  have done' := still e pruned sound home
  have journal := look_pruned pruned s.staged_journal.symm []
  have aside := look_pruned pruned s.staged_aside.symm []
  rw [List.append_nil] at journal aside
  exact ⟨ok, done', fun _ => done'.emptied, fun free => journal ▸ swept.unnoted free,
    aside ▸ swept.idle⟩

/-- What can be seen while a pin is brought into place: the old content, or phases of the swap once
content was put together. -/
def Swapping (s : Site) (job : Job) (w : World) (e : Disk) : Prop :=
  s.Quiet w.disk e ∨
    (s.stagingRun job w).1 = .ok () ∧ s.Phase w.disk (s.stagedTree job w) (noteOf job) e

theorem Ready.stagingRun_ensures (ready : s.Ready w.disk) (admits : s.Admits job w) :
    (do reporting .io (Transaction.prepare (s.root.below s.stagingNames))
        Transaction.stage job (s.root.below s.stagingNames) : Action FetchError Unit).Ensures
      (s.opened.Aloof w.disk)
      (fun r e => r = .ok () → e.look s.staged = some .dir ∧
        (∃ clock, e.look (s.staged ++ [markerFile])
          = some (.file (markerOf job clock).text.toUTF8 0o600)) ∧
        Stocked job fun r => e.look (s.staged ++ r)) w := by
  refine (ready.prepare_reporting.weaken fun e aloof => aloof.opened).bind_exec ?_ (by simp)
  rintro ⟨⟩ done ⟨aloof, after, -⟩
  obtain ⟨callable, isDir, empty⟩ := after rfl
  exact (aloof.stage ready (admits _ (Prod.ext done rfl)) callable isDir empty).mono fun r e ⟨_, isDir, after⟩ ok =>
    ⟨isDir, after ok⟩

theorem Ready.stagedTree_whole (ready : s.Ready w.disk) (admits : s.Admits job w)
    (staged : (s.stagingRun job w).1 = .ok ()) :
    Marked job (s.stagedTree job w) ∧ Stocked job (s.stagedTree job w) := by
  obtain ⟨isDir, marker, stocked⟩ := (ready.stagingRun_ensures admits).ends staged
  exact ⟨⟨by rw [Site.stagedTree, List.append_nil]; exact isDir, marker⟩, stocked⟩

/-- Content without any link leaves the ways to nested checkouts open. -/
theorem Ready.straightforward (ready : s.Ready w.disk) (admits : s.Admits job w)
    (linkless : ∀ tree, job.backend.Yields job.pin tree → ∀ r target, tree r ≠ some (.link target)) :
    s.Straightforward job w := by
  intro staged c _ r _ _ target link
  obtain ⟨⟨-, clock, marker⟩, tree, yields, same⟩ := ready.stagedTree_whole admits staged
  change s.stagedTree job w r = _ at link
  by_cases here : r = [markerFile]
  · subst here
    simp [marker] at link
  · exact linkless tree yields r target (same r here ▸ link)
theorem Ready.stagedTree_hollow (ready : s.Ready w.disk) (admits : s.Admits job w)
    {r rest : DiskPath} (none : s.stagedTree job w r = none) :
    s.stagedTree job w (r ++ rest) = Option.none := by
  have aloof : s.opened.Aloof w.disk (s.stagingRun job w).2.disk :=
    (ready.stagingRun_ensures admits).seen.ends.2
  rw [stagedTree, ← List.append_assoc]
  exact aloof.sound.none_below none

/-- Whatever happens, the destination ends up with its old content if that is reported as a failure,
and with the new one otherwise; either way nothing is left of the work beside the tree. -/
theorem Ready.materialize_sweeps (ready : s.Ready w.disk) (hosts : s.Hosts job)
    (admits : s.Admits job w) (straightforward : s.Straightforward job w) :
    (Transaction.materialize s.root job).Ensures (s.opened.Swapping job w)
      (fun r e => (match r with
        | .ok _ => ((s.stagingRun job w).1 = .ok () ∧
            ∃ carried, s.Done w.disk (s.stagedTree job w) (noteOf job) carried e) ∧
            (w.disk.look s.destination = some .dir ∨
              w.disk.look s.destination = none ∧ s.Clearable w.disk → s.Cleared e)
        | .error _ => s.Quiet w.disk e) ∧ s.Swept w.disk e) w := by
  have passing : ∀ e : Disk, s.opened.Aloof w.disk e → s.opened.Swapping job w e :=
    fun e aloof => .inl (aloof.quiet ready.opened)
  have aside : ∀ e : Disk, s.Aloof w.disk e → e.look s.aside = w.disk.look s.aside :=
    fun e aloof => by simpa using aloof.look_aside []
  unfold Transaction.materialize
  rw [← hosts.slot]
  dsimp only
  rw [staging_eq]
  refine (ready.prepare_reporting.weaken fun e aloof => passing e aloof.opened).bind_exec ?_
    fun fault e ends =>
    ⟨ends.1.quiet ready, ends.2.2 fault rfl, fun free => ends.1.look_journal.trans free,
      .inr (.inl (aside e ends.1))⟩
  rintro ⟨⟩ done₁ ⟨aloof₁, after₁, -⟩
  obtain ⟨callable, isDir, empty⟩ := after₁ rfl
  generalize found : (reporting FetchError.io
    (Transaction.prepare (s.root.below s.stagingNames))).exec w = run₁ at done₁ aloof₁ isDir empty
  obtain ⟨answer, w₁⟩ := run₁
  simp only at done₁ aloof₁ isDir empty ⊢
  subst done₁
  have serves : s.Serves job w₁ := admits w₁ found
  have runs : (Transaction.stage job (s.root.below s.stagingNames)).exec w₁
      = s.stagingRun job w := by
    rw [stagingRun, exec_bind, found]
  have swapped : (do
      Transaction.stage job (s.root.below s.stagingNames)
      Transaction.swapIn s.root job s.slot (s.root.below s.stagingNames) :
        Action FetchError Unit).Ensures (s.opened.Swapping job w)
      (fun r e => match r with
        | .ok _ => (((∃ carried, s.Done w.disk (s.stagedTree job w) (noteOf job) carried e) ∧
            s.Swept w.disk e) ∧ (w.disk.look s.destination = some .dir ∨
              w.disk.look s.destination = none ∧ s.Clearable w.disk → s.Cleared e)) ∧
            (s.stagingRun job w).1 = .ok ()
        | .error _ => s.Withdrawn w.disk e) w₁ := by
    have staging := aloof₁.stage ready serves callable isDir empty
    refine (staging.weaken passing).bind_exec ?_ fun fault e ends =>
      ⟨ends.1.quiet ready, ends.2.1, fun free => ends.1.look_journal.trans free⟩
    rw [runs]
    rintro ⟨⟩ done₂ ⟨aloof₂, isDir₂, -⟩
    have fresh : s.Fresh (s.stagedTree job w) := by
      refine ⟨by rw [stagedTree, List.append_nil, isDir₂], fun r rest none => ?_,
        straightforward done₂⟩
      rw [stagedTree, ← List.append_assoc]
      exact aloof₂.sound.none_below none
    have moved := (aloof₂.poised ready fun r => rfl).swapIn ready hosts fresh
    refine (moved.weaken fun e phase => .inr ⟨done₂, phase.opened⟩).mono ?_
    rintro (fault | ⟨⟩) e holds
    · exact holds
    · refine ⟨⟨holds.1, fun stood => holds.2 (stood.imp_right fun free => ⟨free.1, ?_⟩)⟩, done₂⟩
      exact free.2.congr (by simpa using aloof₂.look_aside []) aloof₂.look_journal
  refine swapped.tried aloof₁.sound ?_
  rintro (fault | ⟨⟩) w₂ sound home holds
  · refine ((holds.discard ready callable).weaken fun e quiet => .inl quiet.opened).andThen sound ?_ ?_
    · rintro ⟨⟩ w₃ - - ⟨-, quiet, swept⟩
      exact ensures_throw (.inl quiet.opened) ⟨quiet, swept⟩
    · rintro fault e - - ⟨impossible, -⟩
      cases impossible
  · obtain ⟨⟨⟨⟨carried, done⟩, swept⟩, cleared⟩, staged⟩ := holds
    have seen : ∀ e : Disk, s.Done w.disk (s.stagedTree job w) (noteOf job) carried e →
        s.opened.Swapping job w e :=
      fun e done => .inr ⟨staged, Phase.opened (.inr (.inr (.inr ⟨carried, done⟩)))⟩
    have pruned := discard_ensures (done.straight_staged ready) done.sound
    refine (((done.discard ready swept).also pruned).weaken seen).andThen sound ?_ ?_
    · rintro ⟨⟩ w₃ - - ⟨⟨-, done, swept⟩, -, pruned⟩
      have aside := look_pruned pruned s.staged_aside.symm []
      have journal := look_pruned pruned s.staged_journal.symm []
      rw [List.append_nil] at aside journal
      exact ensures_pure (seen _ done) ⟨⟨⟨staged, carried, done⟩, fun stood =>
        ⟨aside.trans (cleared stood).1, journal.trans (cleared stood).2⟩⟩, swept⟩
    · rintro fault e - - ⟨⟨impossible, -⟩, -⟩
      cases impossible

theorem Ready.materialize (ready : s.Ready w.disk) (hosts : s.Hosts job)
    (admits : s.Admits job w) (straightforward : s.Straightforward job w) :
    (Transaction.materialize s.root job).Ensures (s.opened.Passing job w.disk (s.stagedTree job w))
      (fun r e => match r with
        | .ok _ => (∃ carried, s.Done w.disk (s.stagedTree job w) (noteOf job) carried e) ∧
            Marked job (s.stagedTree job w)
        | .error _ => s.Quiet w.disk e) w := by
  refine ((ready.materialize_sweeps hosts admits straightforward).weaken ?_).mono ?_
  · rintro e (quiet | ⟨staged, phase⟩)
    · exact .inl quiet
    · exact .inr ⟨(ready.stagedTree_whole admits staged).1, phase⟩
  · rintro (fault | ⟨⟩) e ⟨holds, -⟩
    · exact holds
    · exact ⟨holds.1.2, (ready.stagedTree_whole admits holds.1.1).1⟩

end Site

end PinnedTree.Transaction
