import PinnedTree.Backend.CopyTree
import PinnedTree.Proofs.Disk.Agreement

namespace PinnedTree.CopyTree

open PinnedTree.Action

variable {d e : Disk} {source target : Location} {base top : DiskPath} {done : List (List String)}
  {names : List String} {node : Node} {objects : List (List String × Node)} {w : World}

/-- The objects inside a directory, each with the names that lead to it, outer ones first. -/
def objectsIn (d : Disk) (base : DiskPath) : List (List String × Node) :=
  ((d.inside base).mergeSort fun a b => a.1.length ≤ b.1.length).map
    fun entry => (entry.1.drop base.length, entry.2)

theorem entries_eq (found : d.resolve true source = .ok (.taken base .dir))
    (stands : d.linkStat source = .ok node) :
    entries d source = .ok (([], node) :: objectsIn d base) := by
  rw [entries, stands]
  simp [found, objectsIn]

theorem mem_objectsIn :
    (names, node) ∈ objectsIn d base ↔ names ≠ [] ∧ d.look (base ++ names) = some node := by
  simp only [objectsIn, List.mem_map, List.mem_mergeSort, Prod.mk.injEq, Disk.mem_inside]
  constructor
  · rintro ⟨⟨q, stands⟩, ⟨listed, ⟨rest, rfl⟩, other⟩, rfl, rfl⟩
    have inner : rest ≠ [] := by simpa using other
    rw [List.drop_left]
    exact ⟨inner, (Disk.look_eq_some_iff (by simp [inner])).mpr listed⟩
  · rintro ⟨inner, stands⟩
    exact ⟨(base ++ names, node), ⟨(Disk.look_eq_some_iff (by simp [inner])).mp stands,
      List.prefix_append _ _, by simp [inner]⟩, List.drop_left, rfl⟩

theorem objectsIn_outerFirst (d : Disk) (base : DiskPath) :
    (objectsIn d base).Pairwise fun a b => a.1.length ≤ b.1.length := by
  have sorted : ((d.inside base).mergeSort fun a b => a.1.length ≤ b.1.length).Pairwise
      fun a b => decide (a.1.length ≤ b.1.length) = true :=
    List.pairwise_mergeSort (by simp; omega) (by simp; omega) _
  rw [objectsIn, List.pairwise_map]
  refine sorted.imp fun {a b} less => ?_
  have := of_decide_eq_true less
  simp only [List.length_drop]
  omega

theorem objectsIn_nodup (d : Disk) (base : DiskPath) : ((objectsIn d base).map (·.1)).Nodup := by
  have distinct : (((d.inside base).mergeSort fun a b => a.1.length ≤ b.1.length).map (·.1)).Nodup :=
    ((List.mergeSort_perm _ _).map _).nodup_iff.mpr ((List.filter_sublist.map _).nodup d.distinct)
  unfold List.Nodup at distinct ⊢
  rw [List.pairwise_map] at distinct
  rw [objectsIn, List.map_map, List.pairwise_map]
  refine distinct.imp_of_mem fun {a b} memberA memberB other same => other ?_
  obtain ⟨restA, wholeA⟩ := (Disk.mem_inside.mp (List.mem_mergeSort.mp memberA)).2.1
  obtain ⟨restB, wholeB⟩ := (Disk.mem_inside.mp (List.mem_mergeSort.mp memberB)).2.1
  simp only [Function.comp_apply, ← wholeA, ← wholeB, List.drop_left] at same
  rw [← wholeA, ← wholeB, same]

/-- An object whose turn it is: it has no copy yet, but the directories that hold it do. -/
structure Due (d : Disk) (base : DiskPath) (done : List (List String)) (names : List String)
    (node : Node) : Prop where
  inner : names ≠ []
  new : names ∉ done
  stands : d.look (base ++ names) = some node
  above : ∀ r, r <+: names → r ≠ names → r = [] ∨ r ∈ done

def Ordered (d : Disk) (base : DiskPath) : List (List String) → List (List String × Node) → Prop
  | _, [] => True
  | done, (names, node) :: rest => Due d base done names node ∧ Ordered d base (names :: done) rest

theorem Ordered.of_outerFirst (sorted : objects.Pairwise fun a b => a.1.length ≤ b.1.length)
    (distinct : (objects.map (·.1)).Nodup)
    (stand : ∀ entry ∈ objects,
      entry.1 ≠ [] ∧ entry.1 ∉ done ∧ d.look (base ++ entry.1) = some entry.2)
    (above : ∀ entry ∈ objects, ∀ r, r <+: entry.1 → r ≠ entry.1 →
      r = [] ∨ r ∈ done ∨ r ∈ objects.map (·.1)) : Ordered d base done objects := by
  induction objects generalizing done with
  | nil => trivial
  | cons entry rest ih =>
    obtain ⟨names, node⟩ := entry
    rw [List.pairwise_cons] at sorted
    rw [List.map_cons, List.nodup_cons] at distinct
    rw [List.forall_mem_cons] at stand
    obtain ⟨inner, new, stands⟩ := stand.1
    refine ⟨⟨inner, new, stands, fun r under other => ?_⟩, ih sorted.2 distinct.2 ?_ ?_⟩
    · rcases above _ List.mem_cons_self r under other with top | before | listed
      · exact .inl top
      · exact .inr before
      · -- what comes later is no shorter, and so is not above
        rw [List.map_cons, List.mem_cons] at listed
        obtain ⟨later, member, rfl⟩ := List.mem_map.mp (listed.resolve_left other)
        exact absurd (under.eq_of_length_le (sorted.1 later member)) other
    · intro entry member
      obtain ⟨filled, fresh, there⟩ := stand.2 entry member
      refine ⟨filled, ?_, there⟩
      rw [List.mem_cons, not_or]
      exact ⟨fun same => distinct.1 (List.mem_map.mpr ⟨entry, member, same⟩), fresh⟩
    · intro entry member r under other
      have cases := above entry (List.mem_cons_of_mem _ member) r under other
      simp only [List.map_cons, List.mem_cons] at cases ⊢
      tauto

theorem objectsIn_ordered (sound : d.Sound) (base : DiskPath) :
    Ordered d base [] (objectsIn d base) := by
  refine .of_outerFirst (objectsIn_outerFirst d base) (objectsIn_nodup d base) ?_ ?_
  · rintro ⟨names, node⟩ member
    obtain ⟨inner, stands⟩ := mem_objectsIn.mp member
    exact ⟨inner, List.not_mem_nil, stands⟩
  · rintro ⟨names, node⟩ member r under other
    have stands := (mem_objectsIn.mp member).2
    have opened : d.Open base names := sound.opened (by simp [stands])
    have isDir := opened r under other
    by_cases filled : r = []
    · exact .inl filled
    · exact .inr (.inr (List.mem_map.mpr ⟨(r, .dir), mem_objectsIn.mpr ⟨filled, isDir⟩, rfl⟩))

structure Ground (d : Disk) (source target : Location) (base top : DiskPath) : Prop where
  sound : d.Sound
  found : d.resolve true source = .ok (.taken base .dir)
  isDir : d.look base = some .dir
  given : d.resolve true target = .ok (.taken top .dir)
  isTop : d.look top = some .dir
  bare : ∀ q, Disk.Inside top q → d.look q = none

structure Setting (d : Disk) (source target : Location) (base top : DiskPath) : Prop
    extends Ground d source target base top where
  apart : Disk.Apart base top

structure Copied (d : Disk) (base top : DiskPath) (done : List (List String)) (e : Disk) : Prop where
  sound : e.Sound
  home : e.home = d.home
  outside : ∀ p, ¬ Disk.Inside top p → e.look p = d.look p
  same : ∀ q ∈ done, e.look (top ++ q) = d.look (base ++ q)
  free : ∀ q, q ≠ [] → q ∉ done → e.look (top ++ q) = none

theorem Ground.nothing_copied (setting : Ground d source target base top) :
    Copied d base top [] d where
  sound := setting.sound
  home := rfl
  outside _ _ := rfl
  same _ member := absurd member List.not_mem_nil
  free _ inner _ := setting.bare _ (Disk.inside_append.mpr inner)

theorem Copied.copy (copied : Copied d base top done e) {f : Disk} (inner : names ≠ [])
    (sound : f.Sound) (home : f.home = e.home)
    (other : ∀ q, q ≠ top ++ names → f.look q = e.look q)
    (here : f.look (top ++ names) = d.look (base ++ names)) :
    Copied d base top (names :: done) f where
  sound := sound
  home := home.trans copied.home
  outside p outside := by
    rw [other p, copied.outside p outside]
    rintro rfl
    exact outside (Disk.inside_append.mpr inner)
  same q member := by
    by_cases whole : q = names
    · rw [whole, here]
    · rw [other _ (by simpa using whole)]
      exact copied.same q ((List.mem_cons.mp member).resolve_left whole)
  free q filled new := by
    rw [List.mem_cons, not_or] at new
    rw [other _ (by simpa using new.1)]
    exact copied.free q filled new.2

/-- Whether an object can be read and made again: the owner of a file may read it, and calls take the
text of a link. -/
def Fair : Node → Prop
  | .dir => True
  | .file _ mode => mayRead mode = true
  | .link text => text ≠ "" ∧ '\x00' ∉ text.toList

instance (node : Node) : Decidable (Fair node) := by unfold Fair; split <;> infer_instance

def Copyable (source target : Location) (names : List String) (node : Node) : Prop :=
  source.Callable names ∧ target.Callable names ∧ Fair node

instance (source target : Location) (names : List String) (node : Node) :
    Decidable (Copyable source target names node) := by unfold Copyable; infer_instance

section Step

variable (setting : Ground d source target base top)
include setting

theorem Ground.plain (stands : d.look (base ++ names) = some node) : ∀ name ∈ names, IsName name := by
  have there : d.look (base ++ names) ≠ none := by simp [stands]
  exact fun name member => setting.sound.isName there name (List.mem_append_right _ member)

theorem Ground.opened (stands : d.look (base ++ names) = some node) : d.Open base names :=
  setting.sound.opened (by simp [stands])

variable (copied : Copied d base top done e)
include copied

theorem Ground.part : d.Part e where
  home := copied.home.symm
  found p node stands := by
    rw [copied.outside p, stands]
    intro inside
    cases (setting.bare p inside).symm.trans stands

theorem Ground.finds (inner : names ≠ []) (stands : d.look (base ++ names) = some node)
    (follow : Bool) (unlinked : follow = true → ∀ text, node ≠ .link text) :
    (source.Callable names →
      e.resolve follow (source.below names) = .ok (.taken (base ++ names) node)) ∧
    (¬ source.Callable names → ∃ fault, e.resolve follow (source.below names) = .error fault) := by
  have part := setting.part copied
  have leads := Disk.walk_of_resolve (part.resolve setting.found)
  have isDir := part.found _ _ setting.isDir
  have there := part.found _ _ stands
  have opened : e.Open base names := copied.sound.opened (by simp [there])
  have plain := setting.plain stands
  have finds := Disk.resolve_below leads isDir plain inner opened.clear
  have same : e.resolve follow (source.below names) = e.resolve false (source.below names) := by
    cases follow with
    | false => rfl
    | true =>
      exact Disk.resolve_follow_below leads isDir plain inner opened.clear fun text link =>
        unlinked rfl text (Option.some.inj (there.symm.trans link))
  rw [same]
  constructor
  · intro callable
    rw [(finds _).mpr ⟨callable, opened, rfl⟩, Disk.placeAt, there]
  · intro uncallable
    cases answer : e.resolve false (source.below names) with
    | error fault => exact ⟨fault, rfl⟩
    | ok place => exact absurd ((finds place).mp answer).1 uncallable

variable (due : Due d base done names node)
include due

theorem Due.opened : e.Open top names := by
  intro r under other
  rcases due.above r under other with rfl | before
  · rw [List.append_nil, copied.outside top fun inside => inside.2 rfl, setting.isTop]
  · rw [copied.same r before]
    exact setting.opened due.stands r under other

theorem Due.straight : e.Straight target top names where
  rooted := (Disk.Rooted.of_bare setting.isTop (Disk.walk_of_resolve setting.given)
    setting.bare).congr copied.home copied.outside
  plain := setting.plain due.stands
  inner := due.inner
  clear := (due.opened setting copied).clear

end Step

theorem Copied.perform (copied : Copied d base top done e) (due : Due d base done names node)
    {step : Step} (fits : step.Fits e) (ends : step.apply e = e.put (top ++ names) node) :
    Copied d base top (names :: done) (step.apply e) := by
  have real : top ++ names ≠ [] := by simp [due.inner]
  refine copied.copy due.inner (fits.sound copied.sound) (by simp) (fun q other => ?_) ?_
  · rw [ends, Disk.look_put real, if_neg other]
  · rw [ends, Disk.look_put real, if_pos rfl, due.stands]

/-- What is left when copies of some objects are there and nobody has asked for a stop meanwhile. -/
abbrev Leaves (d : Disk) (base top : DiskPath) (done : List (List String)) (w : World) :
    Unit → World → Prop :=
  fun _ w' => Copied d base top done w'.disk ∧ w'.token = w.token

def fileSteps (p : DiskPath) (content : ByteArray) (mode : Nat) : List Step :=
  [.create p mode, .setMode p mode, .write p content]

section Copies

variable (setting : Ground d source target base top) (copied : Copied d base top done w.disk)
include setting copied

theorem makeDirs_copies (due : Due d base done names .dir) :
    (Files.makeDirs (target.below names)).SucceedsIff w (target.Callable names)
      (Leaves d base top (names :: done) w) fun _ => True := by
  have straight := due.straight setting copied
  have opened := due.opened setting copied
  have free := copied.free names due.inner due.new
  constructor
  · intro callable
    have fits : (Step.makeDir (top ++ names)).Fits w.disk := ⟨free, straight.holds opened⟩
    have made := Files.exec_makeDirs_new straight callable opened free
    exact ⟨(), _, made, copied.perform due fits rfl, rfl⟩
  · intro uncallable
    have ended := (Files.makeDirs_ensures copied.sound straight.rooted straight.plain
      fun r under _ text link => ?_).ends
    · cases ran : (Files.makeDirs (target.below names)).exec w with
      | mk r w' =>
        rw [ran] at ended
        cases r with
        | ok => exact absurd (ended.2.1 rfl due.inner).1 uncallable
        | error fault => exact ⟨fault, w', rfl, trivial⟩
    · by_cases whole : r = names
      · rw [whole, free] at link
        cases link
      · rw [opened r under whole] at link
        cases link

theorem copyLink_copies {text : String} (due : Due d base done names (.link text)) :
    (copyLink (source.below names) (target.below names)).SucceedsIff w
      (source.Callable names ∧ target.Callable names ∧ text ≠ "" ∧ '\x00' ∉ text.toList)
      (Leaves d base top (names :: done) w) fun _ => True := by
  have straight := due.straight setting copied
  have opened := due.opened setting copied
  have free := copied.free names due.inner due.new
  obtain ⟨finds, misses⟩ := setting.finds copied due.inner due.stands false (by simp)
  have read : (query (·.linkStat (source.below names))).SucceedsIff w (source.Callable names)
      (fun node w' => .link text = node ∧ w = w') fun _ => True := by
    refine succeedsIff_query (fun callable => ?_) (fun uncallable => ?_) fun _ => ⟨rfl, rfl⟩
    · exact Disk.linkStat_of_resolve (finds callable)
    · obtain ⟨fault, refused⟩ := misses uncallable
      exact ⟨fault, by simp [Disk.linkStat, refused, bind, Except.bind], trivial⟩
  unfold copyLink
  refine read.bind ?_
  rintro - _ _ ⟨rfl, rfl⟩
  have makes := straight.makeLink opened free text
  have fits : (Step.makeLink (top ++ names) text).Fits w.disk := ⟨free, straight.holds opened⟩
  refine succeedsIff_changeOnce ?_ (fun unfit => ?_) fun _ => ⟨copied.perform due fits rfl, rfl⟩
  · rintro ⟨callable, fair⟩
    exact (makes _).mpr ⟨callable, fair, rfl⟩
  · cases answer : w.disk.makeLink text (target.below names) with
    | error fault => exact ⟨fault, rfl, trivial⟩
    | ok step =>
      obtain ⟨callable, fair, -⟩ := (makes step).mp answer
      exact absurd ⟨callable, fair⟩ unfit

theorem exec_makeFile (due : Due d base done names node) (callable : target.Callable names)
    (content : ByteArray) (mode : Nat) :
    (changeOnce (·.openToWrite (target.below names) mode) >>= fun _ =>
        changeOnce (·.setMode (target.below names) mode) >>= fun _ =>
          changeOnce (·.fill (target.below names) content) : Action IoFault Unit).exec w
            = (.ok (), (fileSteps (top ++ names) content mode).foldl World.perform w) ∧
      Step.AllFit w.disk (fileSteps (top ++ names) content mode) ∧
      ∀ q, ((fileSteps (top ++ names) content mode).foldl World.perform w).disk.look q =
        if q = top ++ names then some (.file content mode) else w.disk.look q := by
  have straight := due.straight setting copied
  have opened := due.opened setting copied
  have free := copied.free names due.inner due.new
  have real : top ++ names ≠ [] := by simp [due.inner]
  have fits : (Step.create (top ++ names) mode).Fits w.disk :=
    ⟨straight.holds opened, by simp [free]⟩
  let w₁ := w.perform (.create (top ++ names) mode)
  let w₂ := w₁.perform (.setMode (top ++ names) mode)
  have made : w₁.disk = w.disk.put (top ++ names) (.file .empty mode) := by
    simp [w₁, World.perform, Step.apply, free]
  have file₁ : w₁.disk.look (top ++ names) = some (.file .empty mode) := by
    rw [made, Disk.look_put real, if_pos rfl]
  have set : w₂.disk = w₁.disk.put (top ++ names) (.file .empty mode) := by
    simp [w₂, World.perform, Step.apply, file₁]
  have file₂ : w₂.disk.look (top ++ names) = some (.file .empty mode) := by
    rw [set, Disk.look_put real, if_pos rfl]
  have filled : ((fileSteps (top ++ names) content mode).foldl World.perform w).disk
      = w₂.disk.put (top ++ names) (.file content mode) := by
    change (Step.write (top ++ names) content).apply w₂.disk = _
    simp [Step.apply, file₂]
  have straight₁ : w₁.disk.Straight target top names := made ▸ straight.put _
  have opened₁ : w₁.disk.Open top names := made ▸ opened.put due.inner _
  have straight₂ : w₂.disk.Straight target top names := set ▸ straight₁.put _
  have opened₂ : w₂.disk.Open top names := set ▸ opened₁.put due.inner _
  refine ⟨?_, ⟨fits, trivial, trivial, trivial⟩, fun q => ?_⟩
  · rw [exec_bind, exec_changeOnce, straight.openToWrite_ok callable opened (by simp [free])]
    dsimp only
    rw [exec_bind, exec_changeOnce, straight₁.setMode_ok callable opened₁ file₁]
    dsimp only
    rw [exec_changeOnce, straight₂.fill_ok callable opened₂ file₂]
    rfl
  · simp only [filled, set, made, Disk.look_put real]
    split <;> rfl

theorem copyFile_copies {content : ByteArray} {mode : Nat}
    (due : Due d base done names (.file content mode)) :
    (copyFile (source.below names) (target.below names) mode).SucceedsIff w
      ((source.Callable names ∧ mayRead mode = true) ∧ target.Callable names)
      (Leaves d base top (names :: done) w) fun _ => True := by
  have straight := due.straight setting copied
  have free := copied.free names due.inner due.new
  obtain ⟨finds, misses⟩ := setting.finds copied due.inner due.stands true (by simp)
  have read : (query (·.readBytes (source.below names))).SucceedsIff w
      (source.Callable names ∧ mayRead mode = true) (fun c w' => content = c ∧ w = w')
      fun _ => True := by
    refine succeedsIff_query (fun ⟨callable, readable⟩ => ?_) (fun unfit => ?_) fun _ => ⟨rfl, rfl⟩
    · simp [Disk.readBytes, Disk.stat, finds callable, readable, bind, Except.bind, pure, Except.pure]
    · by_cases callable : source.Callable names
      · have closed : mayRead mode = false := by simpa [callable] using unfit
        exact ⟨.errno .permissionDenied, by simp [Disk.readBytes, Disk.stat, finds callable, closed,
          bind, Except.bind, pure, Except.pure, throw, throwThe, MonadExceptOf.throw], trivial⟩
      · obtain ⟨fault, refused⟩ := misses callable
        exact ⟨fault, by simp [Disk.readBytes, Disk.stat, refused, bind, Except.bind], trivial⟩
  unfold copyFile
  refine read.bind ?_
  rintro - _ _ ⟨rfl, rfl⟩
  constructor
  · intro callable
    obtain ⟨ran, fit, looks⟩ := exec_makeFile setting copied due callable content mode
    refine ⟨(), _, ran, copied.copy due.inner ?_ (by simp [fileSteps, World.perform])
      (fun q other => by rw [looks, if_neg other]) (by rw [looks, if_pos rfl, due.stands]), rfl⟩
    exact fit.sound copied.sound
  · intro uncallable
    rw [exec_bind, exec_changeOnce]
    cases answer : w.disk.openToWrite (target.below names) mode with
    | error fault => exact ⟨fault, w, rfl, trivial⟩
    | ok step => exact absurd (straight.openToWrite (by simp [free]) answer).1 uncallable

theorem copyNode_copies (due : Due d base done names node) :
    (copyNode (source.below names) (target.below names) node).SucceedsIff w
      (target.Callable names ∧ Fair node ∧ (node ≠ .dir → source.Callable names))
      (Leaves d base top (names :: done) w) fun _ => True := by
  cases node with
  | dir => exact (makeDirs_copies setting copied due).congr (by simp [Fair])
  | file content mode => exact (copyFile_copies setting copied due).congr (by simp [Fair]; tauto)
  | link text => exact (copyLink_copies setting copied due).congr (by simp [Fair]; tauto)

end Copies

def Unasked (w : World) : Prop := w.token.pollsLeft = none

theorem exec_poll (unasked : Unasked w) : Backend.poll.exec w = (.ok (), w) := by
  obtain ⟨disk, steps, locks, ⟨left⟩, events, clock⟩ := w
  cases unasked
  rfl

def IsIo (error : FetchError) : Prop := ∃ fault, error = .io fault

theorem exec_enter (setting : Ground d source target base top)
    (copied : Copied d base top done w.disk) (inner : names ≠ [])
    (stands : d.look (base ++ names) = some node) (called : node = .dir → source.Callable names) :
    (enter (source.below names) node).exec w = (.ok (), w) := by
  cases node with
  | file content mode => rfl
  | link text => rfl
  | dir =>
    have found := (setting.finds copied inner stands true (by simp)).1 (called rfl)
    have listed : w.disk.list (source.below names) = .ok (w.disk.namesIn (base ++ names)) := by
      simp [Disk.list, found, bind, Except.bind, pure, Except.pure]
    rw [enter, exec_observe_bind, listed]
    rfl

theorem enter_finds (setting : Ground d source target base top)
    (copied : Copied d base top done w.disk) (unasked : Unasked w) (inner : names ≠ [])
    (stands : d.look (base ++ names) = some node) :
    (enter (source.below names) node).SucceedsIff w (node = .dir → source.Callable names)
      (fun _ w' => w = w') IsIo := by
  constructor
  · intro called
    exact ⟨(), w, exec_enter setting copied inner stands called, rfl⟩
  · intro uncalled
    obtain ⟨rfl, uncallable⟩ := Classical.not_imp.mp uncalled
    obtain ⟨fault, refused⟩ := (setting.finds copied inner stands true (by simp)).2 uncallable
    have unlisted : w.disk.list (source.below names) = .error fault := by
      simp [Disk.list, refused, bind, Except.bind]
    refine ⟨_, w, ?_, .walking (source.below names).text fault, rfl⟩
    rw [enter, exec_observe_bind, unlisted]
    exact exec_bind_ok (exec_poll unasked)

theorem copyEntries_cons (rest : List (List String × Node)) :
    copyEntries source target ((names, node) :: rest) =
      Backend.poll >>= fun _ =>
        reporting .io (copyNode (source.below names) (target.below names) node) >>= fun _ =>
          enter (source.below names) node >>= fun _ =>
            copyEntries source target rest >>= fun files =>
              pure (match node with | .file _ _ => files + 1 | _ => files) := rfl

def filesAmong (objects : List (List String × Node)) : Nat :=
  objects.countP fun entry => match entry.2 with | .file _ _ => true | _ => false

theorem filesAmong_cons (rest : List (List String × Node)) : filesAmong ((names, node) :: rest) =
    match node with | .file _ _ => filesAmong rest + 1 | _ => filesAmong rest := by
  cases node <;> simp [filesAmong]

theorem copyEntries_copies (setting : Ground d source target base top)
    (copied : Copied d base top done w.disk) (unasked : Unasked w)
    (ordered : Ordered d base done objects) :
    (copyEntries source target objects).SucceedsIff w
      (∀ entry ∈ objects, Copyable source target entry.1 entry.2)
      (fun files w' => files = filesAmong objects ∧
        Copied d base top ((objects.map (·.1)).reverse ++ done) w'.disk) IsIo := by
  induction objects generalizing done w with
  | nil => exact .of_exec rfl (fun _ => ⟨rfl, copied⟩) (by simp)
  | cons entry rest ih =>
    obtain ⟨names, node⟩ := entry
    obtain ⟨due, later⟩ := ordered
    have copies : (reporting .io
        (copyNode (source.below names) (target.below names) node)).SucceedsIff w
        (target.Callable names ∧ Fair node ∧ (node ≠ .dir → source.Callable names))
        (Leaves d base top (names :: done) w) IsIo :=
      ((copyNode_copies setting copied due).mono fun fault _ => ⟨fault, rfl⟩).reporting
    rw [copyEntries_cons]
    refine .after (exec_poll unasked) ((copies.bind (q := (node = .dir → source.Callable names) ∧
      ∀ entry ∈ rest, Copyable source target entry.1 entry.2) ?_).congr ?_)
    · rintro - - w₁ ⟨copied₁, token⟩
      have unasked₁ : Unasked w₁ := by rwa [Unasked, token]
      refine (enter_finds setting copied₁ unasked₁ due.inner due.stands).bind ?_
      rintro - - _ rfl
      refine ((ih copied₁ unasked₁ later).bind (q := True) ?_).congr (by simp)
      rintro - files w₂ ⟨rfl, copied₂⟩
      refine .of_exec rfl (fun _ => ⟨(filesAmong_cons rest).symm, ?_⟩) trivial
      simpa using copied₂
    · simp only [List.forall_mem_cons, Copyable]
      tauto

theorem exec_copyTree (found : entries w.disk source = .ok objects) :
    (copyTree source target).exec w = (copyEntries source target objects).exec w := by
  unfold copyTree
  refine exec_bind_ok (exec_reporting_ok ?_)
  rw [exec_query, found]

/-- The content of a real directory is copied exactly if each object in it can be, and the copy has the
same objects at the same paths. -/
theorem copyTree_copies (setting : Setting w.disk source target base top) (unasked : Unasked w)
    (real : w.disk.linkStat source = .ok .dir) :
    (copyTree source target).SucceedsIff w
      (∀ names node, names ≠ [] → w.disk.look (base ++ names) = some node →
        Copyable source target names node)
      (fun files w' => files = filesAmong (objectsIn w.disk base) ∧
        (∀ q, w'.disk.look (top ++ q) = w.disk.look (base ++ q)) ∧
        ∀ p, ¬ Disk.Inside top p → w'.disk.look p = w.disk.look p) IsIo := by
  have root : (reporting .io (copyNode (source.below []) (target.below []) .dir) :
      Action FetchError Unit).exec w = (.ok (), w) := by
    rw [Location.below_nil, Location.below_nil]
    exact exec_reporting_ok (Files.exec_makeDirs (Disk.leadsToDir_iff.mpr ⟨top, setting.given⟩))
  have entered : (enter (source.below []) .dir).exec w = (.ok (), w) := by
    have listed : w.disk.list source = .ok (w.disk.namesIn base) := by
      simp [Disk.list, setting.found, bind, Except.bind, pure, Except.pure]
    rw [Location.below_nil, enter, exec_observe_bind, listed]
    rfl
  have copies := copyEntries_copies setting.toGround setting.nothing_copied unasked
    (objectsIn_ordered setting.sound base)
  have whole : (copyTree source target).exec w
      = (copyEntries source target (objectsIn w.disk base)).exec w := by
    rw [exec_copyTree (entries_eq setting.found real), copyEntries_cons,
      exec_bind_ok (exec_poll unasked), exec_bind_ok root, exec_bind_ok entered, exec_bind]
    split <;> simp [*, exec_pure]
  constructor
  · intro all
    obtain ⟨files, w', ran, counted, copied⟩ := copies.succeeds fun entry member =>
      all _ _ (mem_objectsIn.mp member).1 (mem_objectsIn.mp member).2
    refine ⟨files, w', whole.trans ran, counted, fun q => ?_, copied.outside⟩
    by_cases here : q = []
    · rw [here, List.append_nil, List.append_nil, copied.outside top fun inside => inside.2 rfl,
        setting.isTop, setting.isDir]
    by_cases listed : q ∈ (objectsIn w.disk base).map (·.1)
    · exact copied.same q (by simpa using listed)
    · rw [copied.free q here (by simpa using listed)]
      refine (Option.eq_none_iff_forall_ne_some.mpr fun node stands => listed ?_).symm
      exact List.mem_map.mpr ⟨(q, node), mem_objectsIn.mpr ⟨here, stands⟩, rfl⟩
  · intro some
    obtain ⟨e, w', ran, io⟩ := copies.fails fun all => some fun names node inner stands =>
      all (names, node) (mem_objectsIn.mpr ⟨inner, stands⟩)
    exact ⟨e, w', whole.trans ran, io⟩

theorem makeLink_taken {l : Location} {p : DiskPath} (given : d.resolve true l = .ok (.taken p node))
    (text : String) : ∃ fault, d.makeLink text l = .error fault := by
  obtain ⟨q, held, named⟩ := Disk.resolve_held given
  unfold Disk.makeLink
  by_cases printable : '\x00' ∈ text.toList
  · simp [printable, bind, Except.bind, throw, throwThe, MonadExceptOf.throw]
  by_cases filled : text = ""
  · simp [filled, bind, Except.bind, throw, throwThe, MonadExceptOf.throw]
  · simp [printable, filled, named, bind, Except.bind, throw, throwThe, MonadExceptOf.throw]

theorem copyNode_refused (found : w.disk.resolve true source = .ok (.taken base .dir))
    (given : w.disk.resolve true target = .ok (.taken top .dir))
    (stands : w.disk.linkStat source = .ok node) (unreal : node ≠ .dir) :
    ∃ fault, (copyNode source target node).exec w = (.error fault, w) := by
  cases node with
  | dir => exact absurd rfl unreal
  | file content mode =>
    refine ⟨.errno .isDirectory, ?_⟩
    have read : w.disk.readBytes source = .error (.errno .isDirectory) := by
      simp [Disk.readBytes, Disk.stat, found, bind, Except.bind, pure, Except.pure, throw, throwThe,
        MonadExceptOf.throw]
    rw [copyNode, copyFile, exec_bind, exec_query, read]
  | link text =>
    obtain ⟨fault, taken⟩ := makeLink_taken given text
    refine ⟨fault, ?_⟩
    have read : (query (·.linkStat source)).exec w = (.ok (.link text), w) := by
      rw [exec_query, stands]
    rw [copyNode, copyLink, exec_bind_ok read, exec_changeOnce, taken]

/-- What a link leads to is not copied: the link itself is to be made again where the copy begins, and a
directory stands there. -/
theorem copyTree_refused (unasked : Unasked w)
    (found : w.disk.resolve true source = .ok (.taken base .dir))
    (given : w.disk.resolve true target = .ok (.taken top .dir))
    (unreal : w.disk.linkStat source ≠ .ok .dir) :
    ∃ fault, (copyTree source target).exec w = (.error (.io fault), w) := by
  obtain ⟨q, node, named⟩ := Disk.resolve_held found
  have stands := Disk.linkStat_of_resolve named
  obtain ⟨fault, failed⟩ := copyNode_refused found given stands fun isDir =>
    unreal (stands.trans (isDir ▸ rfl))
  refine ⟨fault, ?_⟩
  rw [exec_copyTree (entries_eq found stands), copyEntries_cons, exec_bind_ok (exec_poll unasked),
    Location.below_nil, Location.below_nil, exec_bind, exec_reporting, failed]
  rfl

end PinnedTree.CopyTree
