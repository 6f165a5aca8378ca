import PinnedTree.Backend
import PinnedTree.Files
import PinnedTree.Pin
import PinnedTree.Proofs.Disk.Way
import PinnedTree.Proofs.Trace

namespace PinnedTree.Backend

variable {w : World}

theorem poll_ensures : poll.Ensures (· = w.disk) (fun _ e => e = w.disk) w := by
  have asked : (Action.isCancelled : Action FetchError Bool).Ensures (· = w.disk)
      (fun _ e => e = w.disk) w := Action.ensures_isCancelled rfl fun _ => rfl
  refine asked.bind ?_ fun _ _ same => same
  intro seen w' same
  cases seen with
  | false => exact Action.ensures_pure same same
  | true => exact Action.ensures_throw same same

theorem takes_poll {allowed : Step → Prop} : poll.Takes allowed w := by
  have seen : (Action.isCancelled : Action FetchError Bool).exec w
      = (.ok w.token.isTripped, { w with token := w.token.afterPoll }) := rfl
  unfold poll
  rw [Action.Takes, Action.exec_bind, seen]
  dsimp only
  split <;> exact ⟨[], .refl rfl rfl, by simp⟩

/-- The state in which a backend is asked for content: a directory of its own, still empty, in one
that jobs share. -/
structure Asked (w : World) (request : FetchRequest) (room : DiskPath) (slot : String) : Prop where
  sound : w.disk.Sound
  above : ∃ l, request.staging = l.child slot ∧ w.disk.resolve true l = .ok (.taken room .dir)
  leads : w.disk.resolve true request.staging = .ok (.taken (room ++ [slot]) .dir)
  isDir : w.disk.look (room ++ [slot]) = some .dir
  empty : ∀ rest, rest ≠ [] → w.disk.look (room ++ [slot] ++ rest) = none

/-- What a backend does when it is asked happens inside the directory it is given or beside it. -/
def Keeps (backend : Backend) (w : World) (request : FetchRequest) (room : DiskPath)
    (slot : String) : Prop :=
  ∃ steps, w.Ran ((backend.fetch request).exec w).2 steps ∧
    ∀ step ∈ steps, ∀ q ∈ step.touched, Disk.Inside room q ∧ q ≠ room ++ [slot]

def Confined (backend : Backend) : Prop :=
  ∀ w request room slot, Asked w request room slot → backend.Keeps w request room slot

/-- Beside the directory that a backend is given it may work meanwhile, but leaves nothing changed. -/
structure Tidies (backend : Backend) (w : World) (request : FetchRequest) (room : DiskPath)
    (slot : String) : Prop where
  keeps : backend.Keeps w request room slot
  beside : ∀ q, ¬ Disk.Inside (room ++ [slot]) q →
    ((backend.fetch request).exec w).2.disk.look q = w.disk.look q

/-- Whenever a backend is asked, it leaves everything beside the directory that it is given as it
was. -/
def Housed (backend : Backend) : Prop :=
  ∀ w request room slot, Asked w request room slot → backend.Tidies w request room slot

def Yields (backend : Backend) (pin : Pin) (tree : DiskPath → Option Node) : Prop :=
  ∃ w request room slot, Asked w request room slot ∧ request.id = pin.id ∧
    request.locator = pin.locator ∧ request.revision = pin.revision ∧
    ((backend.fetch request).exec w).1 = .ok () ∧
    ∀ r, tree r = ((backend.fetch request).exec w).2.disk.look (room ++ [slot] ++ r)

/-- What a backend that keeps to its room leaves alone, while it works and afterwards. -/
structure Kept (d e : Disk) (room : DiskPath) (slot : String) : Prop where
  outside : ∀ p, ¬ Disk.Inside room p → e.look p = d.look p
  isDir : e.look (room ++ [slot]) = some .dir

theorem Keeps.fetch {backend : Backend} {request : FetchRequest} {room : DiskPath} {slot : String}
    (keeps : backend.Keeps w request room slot) (asked : Asked w request room slot) :
    (backend.fetch request).Ensures (Kept w.disk · room slot)
      (fun _ e => Kept w.disk e room slot) w := by
  obtain ⟨steps, ran, touched⟩ := keeps
  have kept : ∀ n, Kept w.disk (Step.applyAll w.disk (steps.take n)) room slot := by
    intro n
    have away : ∀ p, ¬ Disk.Inside room p ∨ p = room ++ [slot] →
        (Step.applyAll w.disk (steps.take n)).look p = w.disk.look p := by
      intro p where_
      apply Step.look_applyAll
      intro step member q touch
      obtain ⟨inner, other⟩ := touched step (List.mem_of_mem_take member) q touch
      refine ⟨?_, fun under => ?_⟩
      · rintro rfl
        exact inner.2 (List.prefix_nil.mp inner.1).symm
      · rcases where_ with outside | rfl
        · refine outside ⟨inner.1.trans under, ?_⟩
          rintro rfl
          exact inner.not_under under
        · rcases List.prefix_concat_iff.mp under with same | above
          · exact other same
          · exact inner.not_under above
    exact ⟨fun p outside => away p (.inl outside), by rw [away _ (.inr rfl), asked.isDir]⟩
  refine ⟨steps, ran, kept, ?_⟩
  have all := kept steps.length
  rw [List.take_length] at all
  exact ran.disk ▸ all

theorem Tidies.fetch {backend : Backend} {request : FetchRequest} {room : DiskPath} {slot : String}
    (tidies : backend.Tidies w request room slot) (asked : Asked w request room slot) :
    (backend.fetch request).Ensures (Kept w.disk · room slot)
      (fun _ e => ∀ q, ¬ Disk.Inside (room ++ [slot]) q → e.look q = w.disk.look q) w := by
  obtain ⟨steps, ran, kept, -⟩ := tidies.keeps.fetch asked
  exact ⟨steps, ran, kept, tidies.beside⟩

theorem Tidies.of_inside {backend : Backend} {request : FetchRequest} {room : DiskPath}
    {slot : String} {steps : List Step} (ran : w.Ran ((backend.fetch request).exec w).2 steps)
    (inside : ∀ step ∈ steps, ∀ q ∈ step.touched, Disk.Inside (room ++ [slot]) q) :
    backend.Tidies w request room slot where
  keeps := by
    refine ⟨steps, ran, fun step member q touch => ?_⟩
    have inner := inside step member q touch
    refine ⟨⟨(List.prefix_append _ _).trans inner.1, ?_⟩, inner.2⟩
    rintro rfl
    exact inner.not_under (List.prefix_append _ _)
  beside q outside := by
    rw [ran.disk]
    apply Step.look_applyAll
    intro step member p touch
    have inner := inside step member p touch
    refine ⟨?_, fun under => outside ⟨inner.1.trans under, ?_⟩⟩
    · rintro rfl
      exact inner.2 (List.prefix_nil.mp inner.1).symm
    · rintro rfl
      exact inner.not_under under

theorem Tidies.of_still {backend : Backend} {request : FetchRequest} {room : DiskPath}
    {slot : String} (still : ((backend.fetch request).exec w).2 = w) :
    backend.Tidies w request room slot := by
  have ran : w.Ran ((backend.fetch request).exec w).2 [] := by
    rw [still]
    exact .refl rfl rfl
  exact .of_inside ran (by simp)

def single (name text : String) : Backend where
  name := "single"
  handles _ := true
  fetch request := Action.reporting .io (Files.writeText (request.staging / name) text)

variable {request : FetchRequest} {room : DiskPath} {slot name : String}

theorem Asked.resolve (asked : Asked w request room slot) (plain : IsName name) {place : Place}
    (found : w.disk.resolve true (request.staging.child name) = .ok place) :
    place = .free (room ++ [slot] ++ [name]) := by
  obtain ⟨left, goes⟩ := Disk.walk_append (List.cons_ne_nil name []) (Disk.walk_of_resolve asked.leads)
    true
  have walked := Disk.walk_of_resolve found
  have starts : w.disk.start (request.staging.child name) = w.disk.start request.staging := rfl
  have free : w.disk.look (room ++ [slot] ++ [name]) = none := asked.empty _ (by simp)
  have clear : w.disk.Clear (room ++ [slot]) [name] := by
    simpa using @Disk.Clear.concat _ _ [] (fun r under other => absurd
      (List.prefix_nil.mp under) other) (by simp [asked.isDir]) name
  rw [Location.segments_child, starts, goes,
    Disk.walk_follow (by simpa using plain) (by simp) asked.isDir clear (by rw [free]; simp) left left,
    Disk.walk_clear (by simpa using plain) (by simp) asked.isDir clear] at walked
  rw [walked.2.2, Disk.placeAt, free]

theorem single_ran (plain : IsName name) (text : String) (asked : Asked w request room slot) :
    ∃ steps, w.Ran (((single name text).fetch request).exec w).2 steps ∧
      (steps = [] ∨ steps = [.create (room ++ [slot] ++ [name]) Files.plainMode,
        .write (room ++ [slot] ++ [name]) text.toUTF8]) := by
  have written : ∀ steps,
      w.disk.writeFile (request.staging.child name) text.toUTF8 Files.plainMode = .ok steps →
        steps = [.create (room ++ [slot] ++ [name]) Files.plainMode,
          .write (room ++ [slot] ++ [name]) text.toUTF8] := by
    intro steps answer
    unfold Disk.writeFile Disk.openToWrite at answer
    cases found : w.disk.resolve true (request.staging.child name) with
    | error fault => simp [found, bind, Except.bind] at answer
    | ok place =>
      rw [asked.resolve plain found] at found
      rw [found] at answer
      exact (Except.ok.inj answer).symm
  have exec : (((single name text).fetch request).exec w).2
      = ((Files.writeText (request.staging.child name) text).exec w).2 := rfl
  rw [exec, Files.writeText, Files.write, Action.exec_change]
  cases answer : w.disk.writeFile (request.staging.child name) text.toUTF8 Files.plainMode with
  | error fault => exact ⟨[], .refl rfl rfl, .inl rfl⟩
  | ok steps =>
    cases written steps answer
    have held : w.disk.Holds (room ++ [slot] ++ [name]) :=
      ⟨room ++ [slot], name, rfl, plain, asked.isDir⟩
    have free : w.disk.look (room ++ [slot] ++ [name]) = none := asked.empty _ (by simp)
    exact ⟨_, w.perform_ran _ ⟨⟨held, by rw [free]; simp⟩, trivial, trivial⟩, .inr rfl⟩

theorem single_linkless {text : String} {pin : Pin} {tree : DiskPath → Option Node}
    (plain : IsName name) (yields : (single name text).Yields pin tree) (r : DiskPath)
    (target : String) : tree r ≠ some (.link target) := by
  obtain ⟨w, request, room, slot, asked, -, -, -, -, same⟩ := yields
  obtain ⟨steps, ran, listed⟩ := single_ran plain text asked
  rw [same, ran.disk]
  have before : w.disk.look (room ++ [slot] ++ r) ≠ some (.link target) := by
    by_cases top : r = []
    · rw [top, List.append_nil, asked.isDir]
      simp
    · rw [asked.empty r top]
      simp
  rcases listed with rfl | rfl
  · exact before
  · have free : w.disk.look (room ++ [slot] ++ [name]) = none := asked.empty _ (by simp)
    generalize filled : room ++ [slot] ++ [name] = place at free
    have below : place ≠ [] := by simp [← filled]
    simp only [Step.applyAll_cons, Step.applyAll_nil, Step.apply, free, Disk.look_put below, if_true]
    split
    · simp
    · exact before
theorem single_housed {text : String} (plain : IsName name) : (single name text).Housed := by
  intro w request room slot asked
  obtain ⟨steps, ran, listed⟩ := single_ran plain text asked
  refine .of_inside ran fun step member q touch => ?_
  have here : q = room ++ [slot] ++ [name] := by
    rcases listed with rfl | rfl
    · cases member
    · simp only [List.mem_cons, List.not_mem_nil, or_false] at member
      rcases member with rfl | rfl <;> simpa [Step.touched] using touch
  subst here
  rw [Disk.inside_append]
  simp

theorem single_confined {text : String} (plain : IsName name) : (single name text).Confined :=
  fun w request room slot asked => (single_housed plain w request room slot asked).keeps

end PinnedTree.Backend
