import PinnedTree.Proofs.Transaction.Phases

namespace PinnedTree

theorem Location.below_below (l : Location) (first second : List String) :
    (l.below first).below second = l.below (first ++ second) := by
  simp [below]

namespace Files

open PinnedTree.Action

variable {w : World} {root : Location} {top : DiskPath} {source target names : List String}

theorem rename_moves (start : w.disk.Straight root top source)
    (goal : w.disk.Straight root top target) (sound : w.disk.Sound) (other : source ≠ target)
    (moves : w.disk.Moves root top source target) :
    (rename (root.below source) (root.below target)).Ensures
      (fun e => e = w.disk ∨ e = w.disk.move (top ++ source) (top ++ target))
      (fun _ e => e = w.disk.move (top ++ source) (top ++ target)) w := by
  refine ((rename_ensures start goal sound other).weaken ?_).mono ?_
  · rintro e (same | ⟨-, moved⟩)
    · exact .inl same
    · exact .inr moved
  · rintro r e (⟨-, stuck, -⟩ | ⟨-, -, moved⟩)
    · exact absurd moves stuck
    · exact moved

theorem makeParents_ensures (sound : w.disk.Sound) (straight : w.disk.Straight root top names) :
    (makeParents (root.below names)).Ensures (w.disk.Built · (top ++ names.dropLast))
      (fun _ e => w.disk.Built e (top ++ names.dropLast)) w := by
  obtain ⟨init, last, rfl⟩ : ∃ init last, names = init ++ [last] :=
    ⟨_, _, (List.dropLast_concat_getLast straight.inner).symm⟩
  rw [makeParents, Location.parent_below, List.dropLast_concat]
  refine (makeDirs_ensures sound straight.rooted
    (fun name member => straight.plain name (List.mem_append_left _ member)) ?_).mono
    fun _ _ both => both.1
  intro r under _
  refine straight.clear r (under.trans (List.prefix_append _ _)) ?_
  rintro rfl
  have longer := under.length_le
  rw [List.length_append, List.length_singleton] at longer
  exact Nat.not_succ_le_self _ longer

end Files

namespace Transaction

open PinnedTree.Action

variable {s : Site} {d e : Disk} {new : DiskPath → Option Node} {note : ByteArray} {w : World}
  {carried : List (List String)} {c : List String}

namespace Site

def Phase (s : Site) (d : Disk) (new : DiskPath → Option Node) (note : ByteArray) (e : Disk) :
    Prop :=
  s.Quiet d e ∨ s.Aside d note e ∨ (∃ carried, s.Placed d new note carried e) ∨
    ∃ carried, s.Done d new note carried e

structure Clearable (s : Site) (e : Disk) : Prop where
  aside : e.look s.aside = none ∨ e.look s.aside = some .dir ∧ s.root.Callable s.backupNames
  journal : e.look s.journal = none ∨
    (∃ c m, e.look s.journal = some (.file c m)) ∧ s.root.Callable s.journalNames

theorem Clearable.congr (clearable : s.Clearable d) (aside : e.look s.aside = d.look s.aside)
    (journal : e.look s.journal = d.look s.journal) : s.Clearable e :=
  ⟨aside ▸ clearable.aside, journal ▸ clearable.journal⟩

theorem Clearable.move {p q : DiskPath} (clearable : s.Clearable e) (apart : Disk.Apart p q)
    (aside : ¬ p <+: s.aside ∧ ¬ q <+: s.aside) (journal : ¬ p <+: s.journal ∧ ¬ q <+: s.journal) :
    s.Clearable (e.move p q) :=
  clearable.congr (Disk.look_move_other e apart aside.1 aside.2)
    (Disk.look_move_other e apart journal.1 journal.2)

theorem Clearable.built {goal : DiskPath} {f : Disk} (clearable : s.Clearable e)
    (ready : s.Ready d) (built : e.Built f goal)
    (under : goal <+: s.destination ∨ s.destination <+: goal) : s.Clearable f := by
  have away : ∀ p, Disk.Apart s.destination p → ¬ p <+: goal := by
    rintro p apart leads
    rcases under with above | ⟨rest, rfl⟩
    · exact apart.2 (leads.trans above)
    · exact apart.symm.not_under rest leads
  exact clearable.congr (built.away (away _ ready.destination_aside))
    (built.away (away _ ready.destination_journal))

def carriedUndo (s : Site) (carried : List (List String)) : List Undo :=
  carried.map fun c => .rename (s.root.below (s.dest ++ c)) (s.root.below (s.backupNames ++ c))

def noteUndo (s : Site) : List Undo := [.removeFile (s.root.below s.journalNames)]

def asideUndo (s : Site) : List Undo :=
  .rename (s.root.below s.backupNames) (s.root.below s.dest) :: s.noteUndo

def placedUndo (s : Site) (carried : List (List String)) : List Undo :=
  s.carriedUndo carried ++
    .rename (s.root.below s.dest) (s.root.below s.stagingNames) :: s.asideUndo

/-- The destination is as it was, and what was staged for it stands where it was put together. -/
structure Withdrawn (s : Site) (d e : Disk) : Prop extends s.Quiet d e where
  full : e.look s.staged = some .dir
  unnoted : d.look s.journal = none → e.look s.journal = none

inductive Undoable (s : Site) (d : Disk) (new : DiskPath → Option Node) (note : ByteArray) :
    List Undo → Disk → Prop
  | nothing {e : Disk} (withdrawn : s.Withdrawn d e) : Undoable s d new note [] e
  | noted {e : Disk} (quiet : s.Quiet d e) (full : e.look s.staged = some .dir) :
    Undoable s d new note s.noteUndo e
  | moved {e : Disk} (aside : s.Aside d note e) (full : e.look s.staged = some .dir) :
    Undoable s d new note s.asideUndo e
  | placed {e : Disk} {carried : List (List String)} (placed : s.Placed d new note carried e) :
    Undoable s d new note (s.placedUndo carried) e

theorem Quiet.removeFile (quiet : s.Quiet d w.disk) (ready : s.Ready d) :
    (Files.removeFile (s.root.below s.journalNames)).Ensures (s.Quiet d) (fun _ e => s.Quiet d e)
      w := by
  have pruned := (Files.removeFile_ensures (quiet.straight_journal ready) quiet.sound).keeping
    quiet.sound
  have still : ∀ e : Disk, w.disk.Pruned e (s.top ++ s.journalNames) ∧ e.Sound ∧
      e.home = w.disk.home → s.Quiet d e := fun e ⟨pruned, sound, home⟩ =>
    quiet.pruned pruned sound home s.touches_journal ready.destination_journal
  exact (pruned.weaken still).mono fun _ => still

theorem Quiet.unnote (quiet : s.Quiet d w.disk) (ready : s.Ready d) :
    (Files.removeFile (s.root.below s.journalNames)).Ensures (fun _ => True)
      (fun _ e => d.look s.journal = none → e.look s.journal = none) w := by
  by_cases written : s.root.Callable s.journalNames ∧ ∃ c m, w.disk.look s.journal = some (.file c m)
  · obtain ⟨callable, c, m, stands⟩ := written
    have leaf : w.disk.look s.journal ≠ some .dir := by simp [stands]
    exact (Files.removeFile_gone (quiet.straight_journal ready) quiet.sound callable leaf).mono
      fun _ _ gone _ => gone
  · refine ((Files.removeFile_ensures (quiet.straight_journal ready) quiet.sound).weaken
      fun _ _ => trivial).mono fun _ e pruned free => ?_
    rcases pruned s.journal with same | ⟨-, gone⟩
    · rw [same]
      by_contra stands
      exact written (quiet.silent free stands).written
    · exact gone

theorem Quiet.rollBack (quiet : s.Quiet d w.disk) (ready : s.Ready d)
    (full : w.disk.look s.staged = some .dir) :
    (rollBack s.noteUndo).Ensures (s.Phase d new note) (fun _ e => s.Withdrawn d e) w := by
  have removed := ((Files.removeFile_ensures (quiet.straight_journal ready) quiet.sound).keeping
    quiet.sound).also (quiet.unnote ready)
  have still : ∀ e : Disk, w.disk.Pruned e s.journal ∧ e.Sound ∧ e.home = w.disk.home →
      s.Quiet d e := fun e ⟨pruned, sound, home⟩ =>
    quiet.pruned pruned sound home s.touches_journal ready.destination_journal
  have withdrawn : ∀ e : Disk, (w.disk.Pruned e s.journal ∧ e.Sound ∧ e.home = w.disk.home) ∧
      (d.look s.journal = none → e.look s.journal = none) → s.Withdrawn d e := by
    rintro e ⟨holds, unnoted⟩
    have staged := look_pruned holds.1 s.staged_journal []
    rw [List.append_nil, full] at staged
    exact ⟨still e holds, staged, unnoted⟩
  refine Ensures.ignored ((removed.weaken fun e holds => .inl (still e holds)).mono
    fun _ => withdrawn) quiet.sound ?_
  intro w' _ _ back
  exact ensures_pure (.inl back.toQuiet) back

theorem Aside.rollBack (aside : s.Aside d note w.disk) (ready : s.Ready d)
    (full : w.disk.look s.staged = some .dir) :
    (rollBack s.asideUndo).Ensures (s.Phase d new note) (fun _ e => s.Withdrawn d e) w := by
  obtain ⟨moves, back⟩ := aside.moveBack ready
  have other : s.backupNames ≠ s.dest := fun same =>
    ready.destination_aside.ne (by simp [destination, Site.aside, same])
  have renamed := Files.rename_moves (aside.straight_aside ready)
    (aside.straight_destination ready) aside.sound other moves
  refine Ensures.ignored (renamed.weaken ?_) aside.sound ?_
  · rintro e (rfl | rfl)
    · exact .inr (.inl aside)
    · exact .inl back
  · intro w' _ _ moved
    have staged := Disk.look_move_other w.disk ready.destination_aside.symm
      (s.staged_aside.symm.not_under []) (ready.destination_staged.not_under [])
    rw [List.append_nil, full] at staged
    exact (show s.Quiet d w'.disk from moved ▸ back).rollBack ready (moved ▸ staged)

theorem Placed.rollBack (placed : s.Placed d new note carried w.disk) (ready : s.Ready d)
    (fresh : s.Fresh new) :
    (rollBack (s.placedUndo carried)).Ensures (s.Phase d new note) (fun _ e => s.Withdrawn d e)
      w := by
  induction carried generalizing w with
  | nil =>
    obtain ⟨moves, out⟩ := placed.moveOut ready fresh
    have other : s.dest ≠ s.stagingNames := fun same =>
      ready.destination_staged.ne (by simp [destination, Site.staged, same])
    have renamed := Files.rename_moves (placed.straight_destination ready)
      (placed.straight_staged ready) placed.sound other moves
    refine Ensures.ignored (renamed.weaken ?_) placed.sound ?_
    · rintro e (rfl | rfl)
      · exact .inr (.inr (.inl ⟨_, placed⟩))
      · exact .inr (.inl out)
    · intro w' _ _ moved
      have staged := Disk.look_move_target w.disk ready.destination_staged []
      rw [List.append_nil, List.append_nil,
        placed.content.isDir ready placed.each fresh.isDir] at staged
      exact (show s.Aside d note w'.disk from moved ▸ out).rollBack ready (moved ▸ staged)
  | cons c carried ih =>
    obtain ⟨moves, back⟩ := placed.carryBack ready fresh
    have listed := (placed.each c (by simp)).listed
    have other : s.dest ++ c ≠ s.backupNames ++ c := fun same =>
      ready.destination_aside.ne (by simp [destination, Site.aside, List.append_cancel_right same])
    have renamed := Files.rename_moves (placed.straight_new ready fresh listed)
      (placed.straight_old ready listed) placed.sound other moves
    rw [← destination_append, ← aside_append] at renamed
    refine Ensures.ignored (renamed.weaken ?_) placed.sound ?_
    · rintro e (rfl | rfl)
      · exact .inr (.inr (.inl ⟨_, placed⟩))
      · exact .inr (.inr (.inl ⟨_, back⟩))
    · intro w' _ _ moved
      exact ih (moved ▸ back)

theorem Undoable.rollBack {undo : List Undo} (undoable : s.Undoable d new note undo w.disk)
    (ready : s.Ready d) (fresh : s.Fresh new) :
    (rollBack undo).Ensures (s.Phase d new note) (fun _ e => s.Withdrawn d e) w := by
  cases undoable with
  | nothing withdrawn => exact ensures_pure (.inl withdrawn.toQuiet) withdrawn
  | noted quiet full => exact quiet.rollBack ready full
  | moved aside full => exact aside.rollBack ready full
  | placed placed => exact placed.rollBack ready fresh

theorem ensures_step {α : Type} {action : Action IoFault Unit} {f : Unit → Action Broken α}
    {always : Disk → Prop} {mid : Except IoFault Unit → Disk → Prop}
    {post : Except Broken α → Disk → Prop} {undo : List Undo}
    (first : action.Ensures always mid w) (sound : w.disk.Sound)
    (next : ∀ w', w'.disk.Sound → w'.disk.home = w.disk.home → mid (.ok ()) w'.disk →
      (f ()).Ensures always post w')
    (fails : ∀ fault e, e.Sound → e.home = w.disk.home → mid (.error fault) e →
      post (.error ⟨fault, undo⟩) e) : (step undo action >>= f).Ensures always post w := by
  have reported : (step undo action).Ensures always
      (fun r e => (r = .ok () ∧ mid (.ok ()) e) ∨
        ∃ fault, r = .error ⟨fault, undo⟩ ∧ mid (.error fault) e) w := by
    refine Ensures.reporting (first.mono ?_)
    rintro (fault | ⟨⟩) e holds
    · exact .inr ⟨fault, rfl, holds⟩
    · exact .inl ⟨rfl, holds⟩
  refine reported.andThen sound ?_ ?_
  · rintro ⟨⟩ w' sound' home (⟨-, holds⟩ | ⟨_, impossible, -⟩)
    · exact next w' sound' home holds
    · cases impossible
  · rintro broken e sound' home (⟨impossible, -⟩ | ⟨fault, ⟨rfl⟩, holds⟩)
    · cases impossible
    · exact fails fault e sound' home holds

theorem Placed.new_holds (placed : s.Placed d new note carried e) (ready : s.Ready d)
    (listed : c ∈ s.nested) (whole : ¬ Covered carried c)
    (stands : e.look (s.destination ++ c) ≠ none) : new c ≠ none := by
  rcases placed.content.fresh c whole with same | ⟨-, -, k, listed', under, other, -⟩
  · rwa [← same]
  · exact absurd under (ready.nestedApart c listed k listed' other).1

/-- One nested tree is carried over: the directories above its new place are made, and it is renamed. -/
def carryOne (s : Site) (undo : List Undo) (c : List String) : Action Broken Unit := do
  step undo (Files.makeParents (s.root.below (s.dest ++ c)))
  step undo (Files.rename (s.root.below (s.backupNames ++ c)) (s.root.below (s.dest ++ c)))

theorem Placed.carryOne {undo : List Undo} (placed : s.Placed d new note carried w.disk)
    (ready : s.Ready d) (fresh : s.Fresh new) (listed : c ∈ s.nested) (notCarried : c ∉ carried)
    (stood : d.look (s.destination ++ c) ≠ none)
    (free : s.root.Callable (s.dest ++ c) → w.disk.look (s.destination ++ c) = none)
    (undone : ∀ e, s.Placed d new note carried e → s.Undoable d new note undo e) :
    (s.carryOne undo c).Ensures (s.Phase d new note)
      (fun r e => match r with
        | .ok _ => s.Placed d new note (c :: carried) e ∧ (s.Clearable w.disk → s.Clearable e)
        | .error broken => s.Undoable d new note broken.undo e) w := by
  have inner := ready.nestedInner c listed
  have goal : s.top ++ (s.dest ++ c).dropLast = s.destination ++ c.dropLast := by
    rw [List.dropLast_append_of_ne_nil inner, destination_append]
  have made := Files.makeParents_ensures placed.sound (placed.straight_new ready fresh listed)
  rw [goal] at made
  have built : ∀ e : Disk, w.disk.Built e (s.destination ++ c.dropLast) ∧ e.Sound ∧
      e.home = w.disk.home → s.Placed d new note carried e := fun e ⟨built, sound, home⟩ =>
    placed.built ready listed stood built sound home
  refine ensures_step ((made.keeping placed.sound).weaken fun e holds =>
    .inr (.inr (.inl ⟨_, built e holds⟩))) placed.sound ?_ ?_
  · intro w₁ _ _ holds
    have placed₁ := built _ holds
    have other : s.backupNames ++ c ≠ s.dest ++ c := fun same =>
      ready.destination_aside.ne (by simp [destination, Site.aside, List.append_cancel_right same])
    have moved : w₁.disk.Moves s.root s.top (s.backupNames ++ c) (s.dest ++ c) →
        s.Placed d new note (c :: carried) (w₁.disk.move (s.aside ++ c) (s.destination ++ c)) := by
      intro moves
      refine placed₁.carry ready listed notCarried ?_ moves
      rw [holds.1.away, free moves.2.1]
      exact fun under => not_prefix_dropLast inner ((List.prefix_append_right_inj _).mp under)
    have clear : s.Clearable w.disk →
        s.Clearable (w₁.disk.move (s.aside ++ c) (s.destination ++ c)) := fun clearable =>
      (clearable.built ready holds.1 (.inr (List.prefix_append _ _))).move
        (ready.destination_aside.symm.append c c)
        ⟨(Disk.inside_append.mpr inner).not_under, (ready.destination_aside.extend c).1⟩
        ⟨(s.aside_journal.extend c).1, (ready.destination_journal.extend c).1⟩
    have renamed := Files.rename_ensures (placed₁.straight_old ready listed)
      (placed₁.straight_new ready fresh listed) placed₁.sound other
    rw [← aside_append, ← destination_append] at renamed
    apply Ensures.reporting
    refine (renamed.weaken ?_).mono ?_
    · rintro e (rfl | ⟨moves, rfl⟩)
      · exact .inr (.inr (.inl ⟨_, placed₁⟩))
      · exact .inr (.inr (.inl ⟨_, moved moves⟩))
    · rintro (fault | ⟨⟩) e (⟨⟨_, failed⟩, -, same⟩ | ⟨succeeded, moves, same⟩)
      · exact same ▸ undone _ placed₁
      · cases succeeded
      · cases failed
      · exact same ▸ ⟨moved moves, clear⟩
  · intro fault e _ _ holds
    exact undone e (built e holds)

theorem carryOver_cons (s : Site) (undo : List Undo) (c : List String) (left : List (List String)) :
    carryOver (s.root.below s.backupNames) (s.root.below s.dest) undo (c :: left) = (do
      if !(← Action.observe (·.holdsSomething (s.root.below (s.backupNames ++ c))))
          || (← Action.observe (·.holdsSomething (s.root.below (s.dest ++ c)))) then
        carryOver (s.root.below s.backupNames) (s.root.below s.dest) undo left
      else
        s.carryOne undo c
        carryOver (s.root.below s.backupNames) (s.root.below s.dest)
          (.rename (s.root.below (s.dest ++ c)) (s.root.below (s.backupNames ++ c)) :: undo) left) := by
  rw [Transaction.carryOver, Location.below_below, Location.below_below]
  simp only [carryOne, bind_assoc]

theorem Placed.carryOver (placed : s.Placed d new note carried w.disk) (ready : s.Ready d)
    (fresh : s.Fresh new) {left : List (List String)} (listed : ∀ c ∈ left, c ∈ s.nested)
    (once : left.Nodup) (apart : ∀ c ∈ left, c ∉ carried)
    (settled : ∀ c ∈ s.nested, c ∈ left ∨ c ∈ carried ∨ d.look (s.destination ++ c) = none ∨
      new c ≠ none ∨ ¬ s.root.Callable (s.backupNames ++ c)) :
    (carryOver (s.root.below s.backupNames) (s.root.below s.dest) (s.placedUndo carried)
      left).Ensures (s.Phase d new note)
      (fun r e => match r with
        | .ok _ => (∃ carried, s.Done d new note carried e) ∧ (s.Clearable w.disk → s.Clearable e)
        | .error broken => s.Undoable d new note broken.undo e) w := by
  induction left generalizing w carried with
  | nil =>
    have done := placed.done fun c member => by simpa using settled c member
    exact ensures_pure (.inr (.inr (.inl ⟨_, placed⟩))) ⟨⟨_, done⟩, id⟩
  | cons c left ih =>
    obtain ⟨here, listedLeft⟩ := List.forall_mem_cons.mp listed
    obtain ⟨notLeft, onceLeft⟩ := List.nodup_cons.mp once
    obtain ⟨notCarried, apartLeft⟩ := List.forall_mem_cons.mp apart
    have whole := ready.not_covered placed.each here notCarried []
    rw [List.append_nil] at whole
    rw [carryOver_cons]
    refine ensures_observe_bind (ensures_observe_bind ?_)
    have oldHolds := (placed.straight_old ready here).holdsSomething placed.sound
    have newHolds := (placed.straight_new ready fresh here).holdsSomething placed.sound
    rw [← aside_append, placed.rest c whole] at oldHolds
    rw [← destination_append] at newHolds
    split
    · rename_i skipped
      refine ih placed listedLeft onceLeft apartLeft fun k member => ?_
      by_cases same : k = c
      · subst same
        right; right
        by_cases stood : d.look (s.destination ++ k) = none
        · exact .inl stood
        right
        by_cases callable : s.root.Callable (s.backupNames ++ k)
        · left
          have found := oldHolds.mpr ⟨callable, stood⟩
          rw [found] at skipped
          exact placed.new_holds ready here whole (newHolds.mp (by simpa using skipped)).2
        · exact .inr callable
      · simpa [same] using settled k member
    · rename_i carries
      obtain ⟨holdsOld, holdsNew⟩ : w.disk.holdsSomething (s.root.below (s.backupNames ++ c)) = true
          ∧ ¬ w.disk.holdsSomething (s.root.below (s.dest ++ c)) = true := by
        simpa using carries
      obtain ⟨callable, stood⟩ := oldHolds.mp holdsOld
      have free : s.root.Callable (s.dest ++ c) → w.disk.look (s.destination ++ c) = none := by
        intro there
        by_contra stands
        exact holdsNew (newHolds.mpr ⟨there, stands⟩)
      refine (placed.carryOne ready fresh here notCarried stood free fun _ => .placed).bind ?_ ?_
      · intro _ w₁ ⟨placed₁, clearable₁⟩
        refine (ih placed₁ listedLeft onceLeft ?_ ?_).mono ?_
        · intro k member
          simp only [List.mem_cons, not_or]
          exact ⟨fun same => notLeft (same ▸ member), apartLeft k member⟩
        · intro k member
          rcases settled k member with first | before | rest
          · rcases List.mem_cons.mp first with rfl | later
            · exact .inr (.inl (by simp))
            · exact .inl later
          · exact .inr (.inl (List.mem_cons_of_mem _ before))
          · exact .inr (.inr rest)
        · rintro (broken | undo) e ends
          · exact ends
          · exact ⟨ends.1, fun clearable => ends.2 (clearable₁ clearable)⟩
      · exact fun _ _ => id

structure Hosts (s : Site) (job : Job) : Prop where
  slot : s.slot = slotName job.pin.id
  destination : job.destination = s.root.below s.dest
  nested : job.nested = s.nested

def noteOf (job : Job) : ByteArray := (journalText job.pin.id job.destination).toUTF8

/-- With the content that is to move in still whole, and no link in the journal's place. -/
structure Poised (s : Site) (d : Disk) (new : DiskPath → Option Node) (e : Disk) : Prop
    extends s.Quiet d e where
  staged : ∀ r, e.look (s.staged ++ r) = new r
  unlinked : ∀ target, e.look s.journal ≠ some (.link target)
  unwritten : d.look s.journal = none → e.look s.journal = none

theorem Poised.withdrawn (poised : s.Poised d new e) (isDir : new [] = some .dir) :
    s.Withdrawn d e :=
  ⟨poised.toQuiet, by simpa [isDir] using poised.staged [], poised.unwritten⟩

theorem Poised.noteAndMove {job : Job} (poised : s.Poised d new w.disk) (ready : s.Ready d)
    (hosts : s.Hosts job) (isDir : new [] = some .dir) (here : s.root.Callable s.dest)
    (stood : d.look s.destination ≠ none) (cleared : s.root.Callable s.backupNames →
      (∀ target, d.look s.aside ≠ some (.link target)) → w.disk.look s.aside = none) :
    (do step [] (Files.writeText (s.root.below s.journalNames)
          (journalText job.pin.id job.destination))
        step s.noteUndo (Files.rename job.destination (s.root.below s.backupNames))
        pure (.rename (s.root.below s.backupNames) job.destination :: s.noteUndo) :
        Action Broken (List Undo)).Ensures (s.Phase d new (noteOf job))
      (fun r e => match r with
        | .ok undo => undo = s.asideUndo ∧ s.Aside d (noteOf job) e ∧
            (∀ r, e.look (s.staged ++ r) = new r) ∧
            (d.look s.destination = some .dir → s.Clearable e)
        | .error broken => s.Undoable d new (noteOf job) broken.undo e) w := by
  have written := (Files.write_ensures (poised.straight_journal ready) poised.unlinked
    (noteOf job)).keeping poised.sound
  have announced : ∀ e : Disk, (∀ q, q ≠ s.journal → e.look q = w.disk.look q) →
      s.root.Callable s.journalNames → (∃ c m, e.look s.journal = some (.file c m)) →
      s.Announced d e := fun e same callable file => by
    refine ⟨here, stood, ⟨callable, file⟩, fun plain => ?_⟩
    rw [same _ s.aside_journal.ne, cleared (ready.callable_aside callable) plain]
  have quiet : ∀ e : Disk, (∀ q, q ≠ s.journal → e.look q = w.disk.look q) →
      (e.look s.journal = w.disk.look s.journal ∨
        s.root.Callable s.journalNames ∧ ∃ c m, e.look s.journal = some (.file c m)) → e.Sound →
      e.home = w.disk.home → s.Quiet d e := fun e same journal sound home =>
    poised.toQuiet.write ready sound home same
      (journal.imp_right fun both => announced e same both.1 both.2)
  have full : ∀ e : Disk, (∀ q, q ≠ s.journal → e.look q = w.disk.look q) →
      e.look s.staged = some .dir := fun e same => by
    rw [same _ s.staged_journal.ne, (poised.withdrawn isDir).full]
  refine ensures_step (written.weaken fun e holds =>
    .inl (quiet e holds.1.1 holds.1.2 holds.2.1 holds.2.2)) poised.sound ?_ ?_
  · rintro w₁ - - ⟨⟨same, text, -⟩, sound, home⟩
    obtain ⟨callable, mode, filled, plain⟩ := text rfl
    have quiet₁ := quiet _ same (.inr ⟨callable, _, _, filled⟩) sound home
    have noted : s.Noted d (noteOf job) w₁.disk := by
      intro free
      rw [plain.of_free (poised.unwritten free)] at filled
      exact ⟨filled, callable⟩
    have other : s.dest ≠ s.backupNames := fun same =>
      ready.destination_aside.ne (by simp [destination, Site.aside, same])
    have renamed := Files.rename_ensures (quiet₁.straight_destination ready)
      (quiet₁.straight_aside ready) sound other
    rw [hosts.destination]
    refine ensures_step (renamed.weaken ?_) sound ?_ ?_
    · rintro e (rfl | ⟨moves, rfl⟩)
      · exact .inl quiet₁
      · exact .inr (.inl (quiet₁.moveAside ready noted moves))
    · rintro w₂ - - (⟨⟨_, impossible⟩, -⟩ | ⟨-, moves, same₂⟩)
      · cases impossible
      · have aside : s.Aside d (noteOf job) w₂.disk := same₂ ▸ quiet₁.moveAside ready noted moves
        have journal : w₂.disk.look s.journal = w₁.disk.look s.journal := by
          rw [same₂]
          exact Disk.look_move_other w₁.disk ready.destination_aside ready.destination_journal.1
            s.aside_journal.1
        refine ensures_pure (.inr (.inl aside)) ⟨rfl, aside, fun r => ?_, fun isDir => ⟨.inr ?_,
          .inr ⟨⟨_, _, journal.trans filled⟩, callable⟩⟩⟩
        · have still := Disk.look_move_other w₁.disk ready.destination_aside
            (ready.destination_staged.not_under r) (s.staged_aside.symm.not_under r)
          rw [same₂]
          exact still.trans (by rw [same _ (s.staged_journal.append_ne r), poised.staged])
        · have kept := aside.kept []
          rw [List.append_nil, List.append_nil] at kept
          exact ⟨kept.trans isDir, aside.there⟩
    · rintro fault e - - (⟨-, -, rfl⟩ | ⟨impossible, -⟩)
      · exact .noted quiet₁ (full _ same)
      · cases impossible
  · rintro fault e - - ⟨⟨same, -, still⟩, sound, home⟩
    have journal : e.look s.journal = w.disk.look s.journal := still fault rfl
    refine .nothing ⟨quiet e same (.inl journal) sound home, full e same, fun free => ?_⟩
    rw [journal, poised.unwritten free]

theorem Poised.moveAside {job : Job} (poised : s.Poised d new w.disk) (ready : s.Ready d)
    (hosts : s.Hosts job) (isDir : new [] = some .dir) (holds : w.disk.holdsSomething (s.root.below s.dest) = true) :
    (moveAside job (s.root.below s.backupNames) (s.root.below s.journalNames)).Ensures
      (s.Phase d new (noteOf job))
      (fun r e => match r with
        | .ok undo => undo = s.asideUndo ∧ s.Aside d (noteOf job) e ∧
            (∀ r, e.look (s.staged ++ r) = new r) ∧
            (d.look s.destination = some .dir → s.Clearable e)
        | .error broken => s.Undoable d new (noteOf job) broken.undo e) w := by
  obtain ⟨here, stands⟩ :=
    ((poised.straight_destination ready).holdsSomething poised.sound).mp holds
  have stood : d.look s.destination ≠ none := by
    have old := poised.old []
    rw [List.append_nil] at old
    rwa [← old]
  refine ensures_observe_bind ?_
  dsimp only
  split
  · have removed := (Files.removeAll_ensures (poised.straight_aside ready) poised.sound).keeping
      poised.sound
    have cleared : ∀ e : Disk, w.disk.Pruned e s.aside → e.Sound → e.home = w.disk.home →
        s.Poised d new e := by
      intro e pruned sound home
      have journal := look_pruned pruned s.aside_journal.symm []
      rw [List.append_nil] at journal
      exact ⟨poised.toQuiet.pruned pruned sound home s.touches_aside ready.destination_aside,
        fun r => by rw [look_pruned pruned s.staged_aside, poised.staged],
        journal ▸ poised.unlinked, journal ▸ poised.unwritten⟩
    refine ensures_step (removed.weaken fun e ⟨pruned, sound, home⟩ =>
      .inl (cleared e pruned sound home).toQuiet) poised.sound ?_ ?_
    · rintro w₁ - - ⟨⟨pruned, gone⟩, sound, home⟩
      exact (cleared _ pruned sound home).noteAndMove ready hosts isDir here stood
        fun _ _ => gone rfl _ (List.prefix_refl _)
    · rintro fault e - - ⟨⟨pruned, -⟩, sound, home⟩
      exact .nothing ((cleared e pruned sound home).withdrawn isDir)
  · rename_i nowhere
    refine poised.noteAndMove ready hosts isDir here stood fun callable plain => ?_
    have bare : w.disk.look s.aside = d.look s.aside ∨ w.disk.look s.aside = none := by
      simpa using poised.bare []
    by_contra stands
    refine nowhere (((poised.straight_aside ready).leadsSomewhere poised.sound ?_).mpr
      ⟨callable, stands⟩)
    exact fun target => (bare.resolve_right stands) ▸ plain target

theorem Poised.built {goal : DiskPath} (poised : s.Poised d new e) (ready : s.Ready d)
    {f : Disk} (under : Disk.Inside goal s.destination) (built : e.Built f goal) (sound : f.Sound)
    (home : f.home = e.home) : s.Poised d new f := by
  have same : ∀ p, ¬ p <+: s.destination → f.look p = e.look p := fun p away =>
    built.away fun leads => away (leads.trans under.1)
  have journal := same _ ready.destination_journal.2
  refine ⟨poised.toQuiet.built ready under built sound home, fun r => ?_,
    journal ▸ poised.unlinked, journal ▸ poised.unwritten⟩
  have apart := (ready.destination_staged.append [] r).2
  rw [List.append_nil] at apart
  rw [same _ apart, poised.staged]

theorem Poised.swap {job : Job} (poised : s.Poised d new w.disk) (ready : s.Ready d)
    (hosts : s.Hosts job) (fresh : s.Fresh new) :
    (swap job (s.root.below s.stagingNames) (s.root.below s.backupNames)
      (s.root.below s.journalNames)).Ensures (s.Phase d new (noteOf job))
      (fun r e => match r with
        | .ok _ => (∃ carried, s.Done d new (noteOf job) carried e) ∧
            (d.look s.destination = some .dir ∨
              d.look s.destination = none ∧ s.Clearable w.disk → s.Clearable e)
        | .error broken => s.Undoable d new (noteOf job) broken.undo e) w := by
  have above : Disk.Inside (s.top ++ s.dest.dropLast) s.destination := by
    refine ⟨(List.prefix_append_right_inj _).mpr (List.dropLast_prefix _), fun same => ?_⟩
    exact not_prefix_dropLast ready.inner
      ((List.prefix_append_right_inj s.top).mp (same ▸ List.prefix_refl s.destination))
  have made := (Files.makeParents_ensures poised.sound (poised.straight_destination ready)).keeping
    poised.sound
  have built : ∀ e : Disk, w.disk.Built e (s.top ++ s.dest.dropLast) ∧ e.Sound ∧
      e.home = w.disk.home → s.Poised d new e := fun e ⟨built, sound, home⟩ =>
    poised.built ready above built sound home
  unfold Transaction.swap
  rw [hosts.destination, hosts.nested]
  refine ensures_step (made.weaken fun e holds => .inl (built e holds).toQuiet) poised.sound ?_
    fun fault e _ _ holds => .nothing ((built e holds).withdrawn fresh.isDir)
  rintro w₁ - - holds
  have poised₁ := built _ holds
  have other : s.stagingNames ≠ s.dest := fun same =>
    ready.destination_staged.ne (by simp [destination, Site.staged, same])
  refine ensures_observe_bind ?_
  dsimp only
  split
  · rename_i replaced
    refine (poised₁.moveAside ready hosts fresh.isDir replaced).andThen poised₁.sound ?_
      fun _ _ _ _ undoable => undoable
    rintro undo w₂ - - ⟨rfl, aside, staged, clearable⟩
    have renamed := Files.rename_ensures (aside.straight_staged ready)
      (aside.straight_destination ready) aside.sound other
    refine ensures_step (renamed.weaken ?_) aside.sound ?_ ?_
    · rintro e (rfl | ⟨moves, rfl⟩)
      · exact .inr (.inl aside)
      · exact .inr (.inr (.inl ⟨_, aside.moveIn ready fresh staged moves⟩))
    · rintro w₃ - - (⟨⟨_, impossible⟩, -⟩ | ⟨-, moves, same⟩)
      · cases impossible
      · have placed : s.Placed d new (noteOf job) [] w₃.disk :=
          same ▸ aside.moveIn ready fresh staged moves
        refine (placed.carryOver ready fresh (fun _ member => member) ready.nestedOnce (by simp)
          fun c member => .inl member).andThen placed.sound ?_ fun _ _ _ _ undoable => undoable
        rintro undo w₄ - - ⟨⟨carried, done⟩, keeps⟩
        refine ensures_pure (.inr (.inr (.inr ⟨carried, done⟩))) ⟨⟨carried, done⟩, fun cleared => ?_⟩
        have isDir := cleared.resolve_right fun free => aside.stood free.1
        have moved : s.Clearable w₃.disk := same ▸ (clearable isDir).move
          ready.destination_staged.symm ⟨s.staged_aside.1, ready.destination_aside.1⟩
          ⟨s.staged_journal.1, ready.destination_journal.1⟩
        exact keeps moved
    · rintro fault e - - (⟨-, -, rfl⟩ | ⟨impossible, -⟩)
      · exact .moved aside (by simpa [fresh.isDir] using staged [])
      · cases impossible
  · rename_i missing
    rw [pure_bind]
    have renamed := Files.rename_ensures (poised₁.straight_staged ready)
      (poised₁.straight_destination ready) poised₁.sound other
    have done : w₁.disk.Moves s.root s.top s.stagingNames s.dest →
        s.Done d new (noteOf job) [] (w₁.disk.move s.staged s.destination) := by
      intro moves
      refine poised₁.toQuiet.moveIn ready poised₁.staged ?_ moves
      by_contra stands
      exact missing (((poised₁.straight_destination ready).holdsSomething poised₁.sound).mpr
        ⟨moves.2.1, stands⟩)
    refine ensures_step (renamed.weaken ?_) poised₁.sound ?_ ?_
    · rintro e (rfl | ⟨moves, rfl⟩)
      · exact .inl poised₁.toQuiet
      · exact .inr (.inr (.inr ⟨_, done moves⟩))
    · rintro w₂ - - (⟨⟨_, impossible⟩, -⟩ | ⟨-, moves, same⟩)
      · cases impossible
      · have done₂ : s.Done d new (noteOf job) [] w₂.disk := same ▸ done moves
        refine ensures_pure (.inr (.inr (.inr ⟨_, done₂⟩))) ⟨⟨_, done₂⟩, fun cleared => ?_⟩
        have free : w₁.disk.look s.destination = none := by
          by_contra stands
          exact missing (((poised₁.straight_destination ready).holdsSomething poised₁.sound).mpr
            ⟨moves.2.1, stands⟩)
        have old := poised₁.old []
        rw [List.append_nil, free] at old
        have clearable := (cleared.resolve_left fun isDir => by simp [isDir] at old).2
        exact same ▸ (clearable.built ready holds.1 (.inl above.1)).move
          ready.destination_staged.symm ⟨s.staged_aside.1, ready.destination_aside.1⟩
          ⟨s.staged_journal.1, ready.destination_journal.1⟩
    · rintro fault e - - (⟨-, -, rfl⟩ | ⟨impossible, -⟩)
      · exact .nothing (poised₁.withdrawn fresh.isDir)
      · cases impossible

end Site

end Transaction

end PinnedTree
