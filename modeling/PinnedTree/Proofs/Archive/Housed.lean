import PinnedTree.Backend.Archive
import PinnedTree.Proofs.Archive.Confinement
import PinnedTree.Proofs.Backend
import PinnedTree.Proofs.Marker.Writing

namespace PinnedTree.Archive

open PinnedTree.Action

variable {request : FetchRequest} {room : DiskPath} {slot name : String} {l : Location}
  {d e : Disk} {w : World} {step : Step} {steps : List Step} {content : ByteArray}

/-- The disk while an archive is fetched: its copy stands beside the directory that is filled. -/
structure Unpacking (request : FetchRequest) (room : DiskPath) (slot name : String) (l : Location)
    (d e : Disk) : Prop where
  sound : e.Sound
  above : e.Leads l room
  given : e.Leads request.staging (room ++ [slot])
  plain : ∀ q, Disk.Inside (room ++ [slot]) q → ∀ link, e.look q ≠ some (.link link)
  other : name ≠ slot
  copy : ∃ content mode, e.look (room ++ [name]) = some (.file content mode)
  beside : ∀ q, ¬ Disk.Inside (room ++ [slot]) q → q ≠ room ++ [name] → e.look q = d.look q

theorem Unpacking.sheltered (unpacking : Unpacking request room slot name l d e) :
    Sheltered e request.staging (room ++ [slot]) where
  sound := unpacking.sound
  named := by
    intro empty
    have resolves := unpacking.given.resolves
    simp [Disk.resolve, empty] at resolves
  leads := Disk.walk_of_resolve unpacking.given.resolves
  isDir := unpacking.given.isDir
  plain := unpacking.plain

/-- Either the copy is written on, or the directory is filled. -/
def Works (room : DiskPath) (slot name : String) (step : Step) : Prop :=
  (∃ content, step = .write (room ++ [name]) content) ∨ Fills (room ++ [slot]) step

theorem not_inside_copy (other : name ≠ slot) : ¬ Disk.Inside (room ++ [slot]) (room ++ [name]) := by
  intro inside
  obtain rfl : slot = name := by simpa using (List.prefix_append_right_inj _).mp inside.1
  exact other rfl

theorem Unpacking.after (unpacking : Unpacking request room slot name l d e) (fits : step.Fits e)
    (works : Works room slot name step) :
    Unpacking request room slot name l d (step.apply e) := by
  have sound := fits.sound unpacking.sound
  have aside : ¬ Disk.Inside (room ++ [slot]) (room ++ [name]) := not_inside_copy unpacking.other
  obtain ⟨old, mode, stands⟩ := unpacking.copy
  rcases works with ⟨content, rfl⟩ | fills
  · have terminal : e.Terminal (room ++ [name]) := .of_file stands
    have put : (Step.write (room ++ [name]) content).apply e
        = e.put (room ++ [name]) (.file content mode) := by
      simp [Step.apply, stands]
    rw [put] at sound ⊢
    have look (q : DiskPath) : (e.put (room ++ [name]) (.file content mode)).look q
        = if q = room ++ [name] then some (.file content mode) else e.look q :=
      Disk.look_put terminal.ne_nil
    refine ⟨sound, unpacking.above.put terminal (by simp), unpacking.given.put terminal (by simp), ?_,
      unpacking.other, ⟨content, mode, ?_⟩, ?_⟩
    · intro q inside link
      rw [look, if_neg (by rintro rfl; exact aside inside)]
      exact unpacking.plain q inside link
    · rw [look, if_pos rfl]
    · intro q outside other
      rw [look, if_neg other]
      exact unpacking.beside q outside other
  · have filled := Filled.of_step fills fits
    have walkable := filled.walkable unpacking.plain
    refine ⟨sound, unpacking.above.walkable walkable, unpacking.given.walkable walkable, ?_,
      unpacking.other, ⟨old, mode, ?_⟩, ?_⟩
    · intro q inside link stands
      exact unpacking.plain q inside link (filled.unlinked q link inside stands)
    · rw [filled.elsewhere _ aside, stands]
    · intro q outside other
      rw [filled.elsewhere q outside, unpacking.beside q outside other]

theorem Unpacking.run (unpacking : Unpacking request room slot name l d e)
    (fits : Step.AllFit e steps) (works : ∀ step ∈ steps, Works room slot name step) :
    Unpacking request room slot name l d (Step.applyAll e steps) := by
  induction steps generalizing e with
  | nil => exact unpacking
  | cons step rest ih =>
    obtain ⟨now, later⟩ := List.forall_mem_cons.mp works
    exact ih (unpacking.after fits.1 now) fits.2 later

theorem Unpacking.takes {ε α : Type} {action : Action ε α}
    (unpacking : Unpacking request room slot name l d w.disk)
    (takes : action.Takes (Works room slot name) w) :
    Unpacking request room slot name l d (action.exec w).2.disk := by
  obtain ⟨steps, ran, works⟩ := takes
  rw [ran.disk]
  exact unpacking.run ran.fit works

theorem Unpacking.bind {ε α β : Type} {x : Action ε α} {f : α → Action ε β}
    (unpacking : Unpacking request room slot name l d w.disk)
    (first : x.Takes (Works room slot name) w)
    (next : ∀ a w', Unpacking request room slot name l d w'.disk →
      (f a).Takes (Works room slot name) w') :
    (x >>= f).Takes (Works room slot name) w := by
  have after := unpacking.takes first
  apply first.bind
  intro a w' done
  rw [done] at after
  exact next a w' after

theorem takes_query {ε α : Type} {allowed : Step → Prop} (f : Disk → Except ε α) :
    (query f).Takes allowed w := .of_exec (exec_query f w)

theorem copyPieces_takes (plain : IsName name) (callable : l.Callable [name]) {done left : Nat}
    (unpacking : Unpacking request room slot name l d w.disk) :
    (copyPieces (l.child name) content done left).Takes (Works room slot name) w := by
  induction left generalizing done w with
  | zero => exact Backend.takes_poll
  | succ left ih =>
    apply unpacking.bind Backend.takes_poll
    intro _ w₁ unpacking₁
    apply unpacking₁.bind
    · apply Takes.reporting
      apply Takes.changeOnce
      intro step filled
      obtain ⟨old, mode, stands⟩ := unpacking₁.copy
      rw [unpacking₁.above.fill plain callable stands] at filled
      cases filled
      exact ⟨trivial, .inl ⟨_, rfl⟩⟩
    · intro _ w₂ unpacking₂
      exact ih unpacking₂

theorem copyArchive_takes (plain : IsName name) (callable : l.Callable [name]) {address : String}
    (unpacking : Unpacking request room slot name l d w.disk) :
    (copyArchive address (l.child name)).Takes (Works room slot name) w := by
  unfold copyArchive
  split
  · exact .of_exec rfl
  · apply unpacking.bind (takes_query _).reporting
    intro node w₁ unpacking₁
    dsimp only
    split
    · apply unpacking₁.bind Backend.takes_poll
      intro _ _ _
      exact .of_exec rfl
    · apply unpacking₁.bind (takes_query _).reporting
      intro content w₂ unpacking₂
      exact copyPieces_takes plain callable unpacking₂

def unpackCopy (request : FetchRequest) (address : String) (copy : Location) :
    Action FetchError Unit := do
  copyArchive address copy
  let content ← Action.reporting .io (Action.query (·.readBytes copy))
  match checkDigest content (expectedDigest request.locator) with
  | .error e => throw e
  | .ok _ => pure ()
  let _ ← unpackAll path? content request.staging

theorem unpackCopy_takes (plain : IsName name) (callable : l.Callable [name]) {address : String}
    (unpacking : Unpacking request room slot name l d w.disk) :
    (unpackCopy request address (l.child name)).Takes (Works room slot name) w := by
  apply unpacking.bind (copyArchive_takes plain callable unpacking)
  intro _ w₁ unpacking₁
  apply unpacking₁.bind (takes_query _).reporting
  intro content w₂ unpacking₂
  dsimp only
  split
  · exact .of_exec rfl
  · have extracts : Extracts (room ++ [slot]) (unpackAll path? content request.staging) w₂ :=
      extracts_unpackAll unpacking₂.sheltered fun found read => members_descend read (topOf found)
    apply Takes.bind (extracts.mono fun _ fills => .inr fills)
    intro _ _ _
    exact .of_exec rfl

theorem fetch_eq (asked : request.staging = l.child slot) : fetch request = Files.withTemporary l .io
    (unpackCopy request (Text.replace (Locator.splitFragment request.locator).1 placeholder
      request.revision)) := by
  have parent : request.staging.parent? = some l := by
    have beneath := Location.parent_below l [] slot
    rw [Location.below_nil] at beneath
    rw [asked]
    exact beneath
  rw [fetch, parent]
  rfl

theorem Unpacking.start (asked : Backend.Asked w request room slot) (above : w.disk.Leads l room)
    (plain : IsName name) (free : w.disk.look (room ++ [name]) = none) :
    (Step.create (room ++ [name]) 0o600).Fits w.disk ∧ Unpacking request room slot name l w.disk
      ((Step.create (room ++ [name]) 0o600).apply w.disk) := by
  have terminal : w.disk.Terminal (room ++ [name]) := .of_free free
  have fits : (Step.create (room ++ [name]) 0o600).Fits w.disk :=
    ⟨⟨room, name, rfl, plain, above.isDir⟩, by simp [free]⟩
  have sound := fits.sound asked.sound
  have made : (Step.create (room ++ [name]) 0o600).apply w.disk
      = w.disk.put (room ++ [name]) (.file .empty 0o600) := Disk.create_granted (.made free)
  have look (q : DiskPath) : (w.disk.put (room ++ [name]) (.file .empty 0o600)).look q
      = if q = room ++ [name] then some (.file .empty 0o600) else w.disk.look q :=
    Disk.look_put terminal.ne_nil
  have given : w.disk.Leads request.staging (room ++ [slot]) := ⟨asked.leads, asked.isDir⟩
  have other : name ≠ slot := by
    rintro rfl
    cases free.symm.trans asked.isDir
  refine ⟨fits, ?_⟩
  rw [made] at sound ⊢
  refine ⟨sound, above.put terminal (by simp), given.put terminal (by simp), ?_, other,
    ⟨.empty, 0o600, ?_⟩, ?_⟩
  · rintro q ⟨⟨rest, rfl⟩, inner⟩ link
    rw [look, asked.empty rest (by simpa using inner)]
    split <;> simp
  · rw [look, if_pos rfl]
  · intro q _ away
    rw [look, if_neg away]

theorem Unpacking.removed (unpacking : Unpacking request room slot name l d e)
    (free : d.look (room ++ [name]) = none) {q : DiskPath} (outside : ¬ Disk.Inside (room ++ [slot]) q) :
    ((Step.unlink (room ++ [name])).apply e).look q = d.look q := by
  rw [Step.apply, Disk.look_erase (by simp)]
  by_cases same : q = room ++ [name]
  · rw [if_pos same, same, free]
  · rw [if_neg same, unpacking.beside q outside same]

theorem copy_beside (other : name ≠ slot) :
    Disk.Inside room (room ++ [name]) ∧ room ++ [name] ≠ room ++ [slot] :=
  ⟨Disk.inside_append.mpr (by simp), by simpa using other⟩

theorem Works.beside (works : Works room slot name step) (other : name ≠ slot) :
    ∀ q ∈ step.touched, Disk.Inside room q ∧ q ≠ room ++ [slot] := by
  intro q member
  rcases works with ⟨content, rfl⟩ | fills
  · obtain rfl : q = room ++ [name] := by simpa [Step.touched] using member
    exact copy_beside other
  · obtain ⟨under, inner⟩ := fills.touched q member
    refine ⟨⟨(List.prefix_append _ _).trans under, ?_⟩, inner⟩
    rintro rfl
    have longer := under.length_le
    rw [List.length_append, List.length_singleton] at longer
    omega

/-- The backend for archives leaves no trace beside the directory that it is given. -/
theorem backend_housed : backend.Housed := by
  intro w request room slot asked
  obtain ⟨l, beneath, found⟩ := asked.above
  have above : w.disk.Leads l room :=
    ⟨found, asked.sound.above (List.cons_ne_nil slot []) (by simp [asked.isDir])⟩
  generalize body : unpackCopy request (Text.replace
    (Locator.splitFragment request.locator).1 placeholder request.revision) = unpacked
  have fetched : backend.fetch request = Files.withTemporary l .io unpacked :=
    body ▸ fetch_eq beneath
  rcases Files.makeTemporary_within above with
    ⟨fault, made⟩ | ⟨name, plain, -, callable, free, made⟩
  · apply Backend.Tidies.of_still
    rw [fetched, Files.exec_withTemporary_error _ _ made]
  · obtain ⟨fits, started⟩ := Unpacking.start asked above plain free
    have takes : (unpacked (l.child name)).Takes (Works room slot name)
        (w.perform (.create (room ++ [name]) 0o600)) := body ▸ unpackCopy_takes plain callable started
    have ended := started.takes takes
    have ran := Files.exec_withTemporary FetchError.io unpacked made
    obtain ⟨content, mode, stands⟩ := ended.copy
    rw [Files.exec_removeFile_within ended.above plain callable stands] at ran
    obtain ⟨steps, between, works⟩ := takes
    generalize (unpacked (l.child name)).exec (w.perform (.create (room ++ [name]) 0o600)) = run
      at ended stands ran between
    obtain ⟨r, w₂⟩ := run
    dsimp only at ended stands ran between
    have first := w.perform_ran [.create (room ++ [name]) 0o600] ⟨fits, trivial⟩
    have last := w₂.perform_ran [.unlink (room ++ [name])] ⟨⟨_, stands, by simp⟩, trivial⟩
    constructor
    · refine ⟨_, by rw [fetched, ran]; exact (first.trans between).trans last, ?_⟩
      intro step member
      simp only [List.mem_append, List.mem_singleton] at member
      rcases member with (rfl | among) | rfl
      · simpa [Step.touched] using copy_beside started.other
      · exact (works step among).beside started.other
      · simpa [Step.touched] using copy_beside started.other
    · intro q outside
      rw [fetched, ran]
      exact ended.removed free outside

end PinnedTree.Archive
