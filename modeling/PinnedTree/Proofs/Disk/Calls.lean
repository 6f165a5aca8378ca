import PinnedTree.Proofs.Disk.Frame
import PinnedTree.Proofs.Disk.Way

namespace PinnedTree

namespace Location

variable {root : Location} {names : List String}

theorem asksForDir_below (inner : names ≠ []) : (root.below names).asksForDir = false := by
  simp [asksForDir, below, inner]

theorem bare_below (inner : names ≠ []) : (root.below names).bare = root.below names := by
  simp [bare, asksForDir_below inner]

theorem endsInName_below (inner : names ≠ []) (plain : ∀ name ∈ names, IsName name) :
    (root.below names).endsInName = true := by
  obtain ⟨init, last, rfl⟩ : ∃ init last, names = init ++ [last] :=
    ⟨_, _, (List.dropLast_concat_getLast inner).symm⟩
  obtain ⟨-, notHere, notUp, -⟩ := plain last (by simp)
  simp [endsInName, bare_below inner, ← List.append_assoc, notHere, notUp]

theorem appendPiece_ne_empty {path piece : String} (named : piece ≠ "") :
    appendPiece path piece ≠ "" := by
  unfold appendPiece
  split <;> simp [named]

theorem text_concat_ne_empty (root : Location) (names : List String) {last : String}
    (named : last ≠ "") : (root.below (names ++ [last])).text ≠ "" := by
  simp only [text, below, ← List.append_assoc, List.foldl_append, List.foldl_cons, List.foldl_nil]
  exact appendPiece_ne_empty named

theorem text_below_ne_empty (root : Location) {names : List String} (inner : names ≠ [])
    (plain : ∀ name ∈ names, IsName name) : (root.below names).text ≠ "" := by
  obtain ⟨init, last, rfl⟩ : ∃ init last, names = init ++ [last] :=
    ⟨_, _, (List.dropLast_concat_getLast inner).symm⟩
  exact text_concat_ne_empty root init (plain last (by simp)).1

end Location

namespace Disk

variable {d : Disk} {root : Location} {top : DiskPath} {names source target : List String}

theorem Straight.congr {e : Disk} (s : d.Straight root top names) (home : e.home = d.home)
    (same : ∀ q, ¬ Inside (top ++ names) q → e.look q = d.look q) :
    e.Straight root top names where
  rooted := s.rooted.congr home fun p outside => by
    apply same
    rintro ⟨⟨rest, rfl⟩, -⟩
    refine outside ⟨by simp [List.append_assoc], ?_⟩
    simp [s.inner]
  plain := s.plain
  inner := s.inner
  clear r under other target := by
    rw [same]
    · exact s.clear r under other target
    · rintro ⟨below, -⟩
      have longer := (List.prefix_append_right_inj top).mp below
      exact other (under.eq_of_length_le longer.length_le)

theorem home_put (d : Disk) (p : DiskPath) (node : Node) : (d.put p node).home = d.home := by
  unfold put
  split <;> rfl

theorem Straight.put (s : d.Straight root top names) (node : Node) :
    (d.put (top ++ names) node).Straight root top names := by
  have real : top ++ names ≠ [] := by simp [s.inner]
  refine ⟨s.rooted.congr (home_put d _ node) fun p outside => ?_, s.plain, s.inner,
    fun r under other => ?_⟩
  · rw [look_put real, if_neg]
    rintro rfl
    exact outside (inside_append.mpr s.inner)
  · rw [look_put real, if_neg (by simpa using other)]
    exact s.clear r under other

theorem Open.put (opened : d.Open top names) (inner : names ≠ []) (node : Node) :
    (d.put (top ++ names) node).Open top names := by
  intro r under other
  rw [look_put (by simp [inner]), if_neg (by simpa using other)]
  exact opened r under other

theorem Open.holds (opened : d.Open top names) (plain : ∀ name ∈ names, IsName name)
    (inner : names ≠ []) : d.Holds (top ++ names) := by
  obtain ⟨init, last, rfl⟩ : ∃ init last, names = init ++ [last] :=
    ⟨_, _, (List.dropLast_concat_getLast inner).symm⟩
  exact ⟨top ++ init, last, by simp, plain last (by simp),
    opened init (List.prefix_append _ _) (by simp)⟩

theorem Straight.holds (s : d.Straight root top names) (opened : d.Open top names) :
    d.Holds (top ++ names) := opened.holds s.plain s.inner

theorem Open.concat {name : String} (opened : d.Open top names)
    (isDir : d.look (top ++ names) = some .dir) : d.Open top (names ++ [name]) := by
  intro r under other
  rcases List.prefix_concat_iff.mp under with whole | under
  · exact absurd whole other
  · by_cases last : r = names
    · exact last ▸ isDir
    · exact opened r under last

theorem Straight.open_of_holds (s : d.Straight root top names) (sound : d.Sound)
    (held : d.Holds (top ++ names)) : d.Open top names := by
  obtain ⟨dir, name, same, -, isDir⟩ := held
  obtain ⟨init, last, rfl⟩ : ∃ init last, names = init ++ [last] :=
    ⟨_, _, (List.dropLast_concat_getLast s.inner).symm⟩
  rw [← List.append_assoc] at same
  obtain ⟨rfl, -⟩ := List.append_inj' same rfl
  exact (sound.opened (by simp [isDir])).concat isDir

theorem Straight.resolved (s : d.Straight root top names) (callable : root.Callable names)
    (opened : d.Open top names) :
    d.resolve false (root.below names) = .ok (d.placeAt (top ++ names)) :=
  (s.resolve _).mpr ⟨callable, opened, rfl⟩

theorem Straight.holdsSomething (s : d.Straight root top names) (sound : d.Sound) :
    d.holdsSomething (root.below names) = true ↔
      root.Callable names ∧ d.look (top ++ names) ≠ none := by
  unfold Disk.holdsSomething linkStat
  constructor
  · intro holds
    cases found : d.resolve false (root.below names) with
    | error fault => simp [found, bind, Except.bind] at holds
    | ok place =>
      obtain ⟨callable, opened, rfl⟩ := (s.resolve place).mp found
      refine ⟨callable, fun free => ?_⟩
      simp [found, placeAt, free, bind, Except.bind, throw, throwThe, MonadExceptOf.throw] at holds
  · rintro ⟨callable, stands⟩
    obtain ⟨node, look⟩ := Option.ne_none_iff_exists'.mp stands
    simp [s.resolved callable (sound.opened stands), placeAt, look, bind, Except.bind, pure,
      Except.pure]

theorem Straight.linkStat_missing (s : d.Straight root top names) (sound : d.Sound)
    (missing : d.linkStat (root.below names) = .error (.errno .noEntry)) :
    d.look (top ++ names) = none := by
  by_contra stands
  have opened := sound.opened stands
  have found : d.resolve false (root.below names) = .error (.errno .noEntry) := by
    unfold linkStat at missing
    cases resolved : d.resolve false (root.below names) with
    | error fault => simpa [resolved, bind, Except.bind] using missing
    | ok place =>
      have here := ((s.resolve place).mp resolved).2.2
      obtain ⟨node, look⟩ := Option.ne_none_iff_exists'.mp stands
      rw [placeAt, look] at here
      simp [resolved, here, bind, Except.bind, pure, Except.pure] at missing
  by_cases callable : root.Callable names
  · rw [s.resolved callable opened] at found
    cases found
  obtain ⟨left, goes⟩ := walk_append s.inner (s.rooted.leads d rfl fun _ _ => rfl) false
  rw [resolve_eq, goes] at found
  split at found
  · cases found
  split at found
  · rename_i empty
    exact Location.text_below_ne_empty root s.inner s.plain empty
  split at found
  · cases found
  · rename_i printable filled short
    have long : ∃ name ∈ names, name.utf8ByteSize > maxNameBytes := by
      by_contra sizes
      refine callable ⟨printable, filled, by omega, fun name member => ?_⟩
      by_contra long
      exact sizes ⟨name, member, by omega⟩
    rw [walk, advance_long s.plain opened long] at found
    cases found

theorem Straight.linkStat_ok (s : d.Straight root top names) (sound : d.Sound) (node : Node) :
    d.linkStat (root.below names) = .ok node ↔
      root.Callable names ∧ d.look (top ++ names) = some node := by
  unfold linkStat
  constructor
  · intro holds
    cases found : d.resolve false (root.below names) with
    | error fault => simp [found, bind, Except.bind] at holds
    | ok place =>
      obtain ⟨callable, opened, rfl⟩ := (s.resolve place).mp found
      cases look : d.look (top ++ names) with
      | none => simp [found, placeAt, look, bind, Except.bind, throw, throwThe,
          MonadExceptOf.throw] at holds
      | some other =>
        simp only [found, placeAt, look, bind, Except.bind, pure, Except.pure, Except.ok.injEq]
          at holds
        exact ⟨callable, holds ▸ rfl⟩
  · rintro ⟨callable, look⟩
    simp [s.resolved callable (sound.opened (by simp [look])), placeAt, look, bind, Except.bind,
      pure, Except.pure]

theorem Straight.stat_ok (s : d.Straight root top names) (sound : d.Sound)
    (last : ∀ target, d.look (top ++ names) ≠ some (.link target)) (node : Node) :
    d.stat (root.below names) = .ok node ↔
      root.Callable names ∧ d.look (top ++ names) = some node := by
  have same : d.stat (root.below names) = d.linkStat (root.below names) := by
    rw [stat, s.resolve_follow last]
    rfl
  rw [same]
  exact s.linkStat_ok sound node

theorem readText_ok {l : Location} {text : String} : d.readText l = .ok text ↔
    ∃ c m, d.stat l = .ok (.file c m) ∧ mayRead m = true ∧ String.fromUTF8? c = some text := by
  unfold readText readBytes
  simp only [bind, Except.bind, pure, Except.pure]
  cases d.stat l with
  | error fault => simp
  | ok node =>
    cases node with
    | file c m =>
      by_cases readable : mayRead m = true
      · cases decoded : String.fromUTF8? c <;>
          simp [readable, decoded, throw, throwThe, MonadExceptOf.throw]
      · simp [readable, throw, throwThe, MonadExceptOf.throw]
    | dir => simp [throw, throwThe, MonadExceptOf.throw]
    | link target => simp [throw, throwThe, MonadExceptOf.throw]

theorem Straight.leadsSomewhere (s : d.Straight root top names) (sound : d.Sound)
    (last : ∀ target, d.look (top ++ names) ≠ some (.link target)) :
    d.leadsSomewhere (root.below names) = true ↔
      root.Callable names ∧ d.look (top ++ names) ≠ none := by
  have stats := s.stat_ok sound last
  unfold Disk.leadsSomewhere
  cases found : d.stat (root.below names) with
  | error fault =>
    simp only [Bool.false_eq_true, false_iff, not_and, not_not]
    intro callable
    by_contra stands
    obtain ⟨node, look⟩ := Option.ne_none_iff_exists'.mp stands
    have := (stats node).mpr ⟨callable, look⟩
    simp [found] at this
  | ok node =>
    obtain ⟨callable, look⟩ := (stats node).mp found
    simp [callable, look]

theorem Straight.leadsToDir (s : d.Straight root top names) (sound : d.Sound)
    (last : ∀ target, d.look (top ++ names) ≠ some (.link target)) :
    d.leadsToDir (root.below names) = true ↔
      root.Callable names ∧ d.look (top ++ names) = some .dir := by
  rw [← s.stat_ok sound last .dir]
  unfold Disk.leadsToDir
  cases found : d.stat (root.below names) with
  | error fault => simp
  | ok node => cases node <;> simp

theorem leadsToDir_iff {l : Location} :
    d.leadsToDir l = true ↔ ∃ p, d.resolve true l = .ok (.taken p .dir) := by
  unfold Disk.leadsToDir stat
  cases d.resolve true l with
  | error fault => simp [bind, Except.bind]
  | ok place =>
    cases place with
    | free p => simp [bind, Except.bind, throw, throwThe, MonadExceptOf.throw]
    | taken p node => cases node <;> simp [bind, Except.bind, pure, Except.pure]

theorem Straight.makeDir (s : d.Straight root top names) (step : Step) :
    d.makeDir (root.below names) = .ok step ↔
      root.Callable names ∧ (Step.makeDir (top ++ names)).Fits d ∧ d.Open top names ∧
        step = .makeDir (top ++ names) := by
  unfold Disk.makeDir
  rw [Location.bare_below s.inner]
  constructor
  · intro made
    cases found : d.resolve false (root.below names) with
    | error fault => simp [found, bind, Except.bind] at made
    | ok place =>
      obtain ⟨callable, opened, rfl⟩ := (s.resolve place).mp found
      cases look : d.look (top ++ names) with
      | none =>
        simp only [found, placeAt, look, bind, Except.bind, pure, Except.pure, Except.ok.injEq]
          at made
        exact ⟨callable, ⟨look, s.holds opened⟩, opened, made.symm⟩
      | some node => simp [found, placeAt, look, bind, Except.bind, throw, throwThe,
          MonadExceptOf.throw] at made
  · rintro ⟨callable, ⟨free, -⟩, opened, rfl⟩
    simp [s.resolved callable opened, placeAt, free, bind, Except.bind, pure, Except.pure]

theorem Straight.makeDir_taken (s : d.Straight root top names) (sound : d.Sound)
    (stands : d.look (top ++ names) ≠ none) :
    ∃ fault, d.makeDir (root.below names) = .error fault ∧ fault ≠ .errno .noEntry := by
  obtain ⟨node, look⟩ := Option.ne_none_iff_exists'.mp stands
  unfold Disk.makeDir
  rw [Location.bare_below s.inner]
  cases found : d.resolve false (root.below names) with
  | error fault =>
    refine ⟨fault, by simp [bind, Except.bind], ?_⟩
    rintro rfl
    have missing : d.linkStat (root.below names) = .error (.errno .noEntry) := by
      simp [linkStat, found, bind, Except.bind]
    exact stands (s.linkStat_missing sound missing)
  | ok place =>
    have taken : place = .taken (top ++ names) node := by
      simpa [placeAt, look] using ((s.resolve place).mp found).2.2
    exact ⟨.errno .fileExists, by simp [taken, bind, Except.bind, throw, throwThe,
      MonadExceptOf.throw], by simp⟩

theorem Straight.removeFile (s : d.Straight root top names) (sound : d.Sound) (step : Step) :
    d.removeFile (root.below names) = .ok step ↔
      root.Callable names ∧ (Step.unlink (top ++ names)).Fits d ∧
        step = .unlink (top ++ names) := by
  unfold Disk.removeFile
  constructor
  · intro removed
    cases found : d.resolve false (root.below names) with
    | error fault => simp [found, bind, Except.bind] at removed
    | ok place =>
      obtain ⟨callable, opened, rfl⟩ := (s.resolve place).mp found
      cases look : d.look (top ++ names) with
      | none => simp [found, placeAt, look, bind, Except.bind, throw, throwThe,
          MonadExceptOf.throw] at removed
      | some node =>
        cases node with
        | dir => simp [found, placeAt, look, bind, Except.bind, throw, throwThe,
            MonadExceptOf.throw] at removed
        | file | link =>
          simp only [found, placeAt, look, bind, Except.bind, pure, Except.pure, Except.ok.injEq]
            at removed
          exact ⟨callable, ⟨_, look, by simp⟩, removed.symm⟩
  · rintro ⟨callable, ⟨node, look, kind⟩, rfl⟩
    have opened : d.Open top names := sound.opened (by simp [look])
    cases node with
    | dir => exact absurd rfl kind
    | file | link => simp [s.resolved callable opened, placeAt, look, bind, Except.bind, pure,
        Except.pure]

theorem Straight.removeAll (s : d.Straight root top names) {steps : List Step}
    (removed : d.removeAll (root.below names) = .ok steps) :
    root.Callable names ∧
      ((d.look (top ++ names) = some .dir ∧ steps = d.removalSteps (top ++ names)) ∨
        ((∃ target, d.look (top ++ names) = some (.link target)) ∧
          steps = [.unlink (top ++ names)])) := by
  unfold Disk.removeAll at removed
  cases found : d.resolve false (root.below names) with
  | error fault => simp [found, bind, Except.bind] at removed
  | ok place =>
    obtain ⟨callable, opened, rfl⟩ := (s.resolve place).mp found
    refine ⟨callable, ?_⟩
    cases look : d.look (top ++ names) with
    | none => simp [found, placeAt, look, bind, Except.bind, throw, throwThe,
        MonadExceptOf.throw] at removed
    | some node =>
      cases node with
      | dir =>
        simp only [found, placeAt, look, bind, Except.bind, pure, Except.pure, Except.ok.injEq]
          at removed
        exact .inl ⟨rfl, removed.symm⟩
      | file content mode => simp [found, placeAt, look, bind, Except.bind, throw, throwThe,
          MonadExceptOf.throw] at removed
      | link target =>
        simp only [found, placeAt, look, bind, Except.bind, pure, Except.pure, Except.ok.injEq]
          at removed
        exact .inr ⟨⟨target, rfl⟩, removed.symm⟩

theorem Straight.removeAll_of_dir (s : d.Straight root top names) (sound : d.Sound)
    (callable : root.Callable names) (isDir : d.look (top ++ names) = some .dir) :
    d.removeAll (root.below names) = .ok (d.removalSteps (top ++ names)) := by
  simp [Disk.removeAll, s.resolved callable (sound.opened (by simp [isDir])), placeAt, isDir, bind,
    Except.bind, pure, Except.pure]

theorem Straight.openToWrite (s : d.Straight root top names)
    (last : ∀ target, d.look (top ++ names) ≠ some (.link target)) {mode : Nat} {step : Step}
    (answer : d.openToWrite (root.below names) mode = .ok step) :
    root.Callable names ∧ (Step.create (top ++ names) mode).Fits d ∧
      (∀ c m, d.look (top ++ names) = some (.file c m) → mayWrite m = true) ∧
      step = .create (top ++ names) mode := by
  unfold Disk.openToWrite at answer
  rw [s.resolve_follow last] at answer
  cases found : d.resolve false (root.below names) with
  | error fault => simp [found, bind, Except.bind] at answer
  | ok place =>
    obtain ⟨callable, opened, rfl⟩ := (s.resolve place).mp found
    have held := s.holds opened
    refine ⟨callable, ?_⟩
    cases look : d.look (top ++ names) with
    | none =>
      simp only [found, placeAt, look, bind, Except.bind, pure, Except.pure, Except.ok.injEq]
        at answer
      exact ⟨⟨held, by simp [look]⟩, by simp, answer.symm⟩
    | some node =>
      cases node with
      | dir => simp [found, placeAt, look, bind, Except.bind, throw, throwThe,
          MonadExceptOf.throw] at answer
      | link target => exact absurd look (last target)
      | file content old =>
        simp only [found, placeAt, look, bind, Except.bind, pure, Except.pure] at answer
        split at answer
        · rename_i writable
          simp only [Except.ok.injEq] at answer
          refine ⟨⟨held, fun node stands => ⟨content, old, by simpa [look, eq_comm] using stands⟩⟩,
            ?_, answer.symm⟩
          rintro c m ⟨⟩
          exact writable
        · simp [throw, throwThe, MonadExceptOf.throw] at answer

theorem Straight.writeFile (s : d.Straight root top names)
    (last : ∀ target, d.look (top ++ names) ≠ some (.link target)) {content : ByteArray}
    {mode : Nat} {steps : List Step}
    (answer : d.writeFile (root.below names) content mode = .ok steps) :
    root.Callable names ∧ (Step.create (top ++ names) mode).Fits d ∧
      (∀ c m, d.look (top ++ names) = some (.file c m) → mayWrite m = true) ∧
      steps = [.create (top ++ names) mode, .write (top ++ names) content] := by
  unfold Disk.writeFile at answer
  cases found : d.openToWrite (root.below names) mode with
  | error fault => simp [found, bind, Except.bind] at answer
  | ok step =>
    obtain ⟨callable, fits, writable, rfl⟩ := s.openToWrite last found
    refine ⟨callable, fits, writable, ?_⟩
    simpa [found, bind, Except.bind, pure, Except.pure, eq_comm] using answer

theorem Straight.openToWrite_ok (s : d.Straight root top names) (callable : root.Callable names)
    (opened : d.Open top names) (fits : ∀ node, d.look (top ++ names) = some node →
      ∃ c m, node = .file c m ∧ mayWrite m = true) (mode : Nat) :
    d.openToWrite (root.below names) mode = .ok (.create (top ++ names) mode) := by
  have last : ∀ target, d.look (top ++ names) ≠ some (.link target) := by
    intro target link
    obtain ⟨c, m, impossible, -⟩ := fits _ link
    cases impossible
  have found := (s.resolve_follow last).trans (s.resolved callable opened)
  unfold Disk.openToWrite
  rw [found, placeAt]
  cases stands : d.look (top ++ names) with
  | none => rfl
  | some node =>
    obtain ⟨c, m, rfl, writable⟩ := fits node stands
    simp [writable, bind, Except.bind, pure, Except.pure]

theorem Straight.writeFile_ok (s : d.Straight root top names) (callable : root.Callable names)
    (opened : d.Open top names) (fits : ∀ node, d.look (top ++ names) = some node →
      ∃ c m, node = .file c m ∧ mayWrite m = true) (content : ByteArray) (mode : Nat) :
    d.writeFile (root.below names) content mode
      = .ok [.create (top ++ names) mode, .write (top ++ names) content] := by
  rw [Disk.writeFile, s.openToWrite_ok callable opened fits]
  rfl

theorem Straight.makeLink (s : d.Straight root top names) (opened : d.Open top names)
    (free : d.look (top ++ names) = none) (text : String) (step : Step) :
    d.makeLink text (root.below names) = .ok step ↔
      root.Callable names ∧ (text ≠ "" ∧ '\x00' ∉ text.toList) ∧
        step = .makeLink (top ++ names) text := by
  unfold Disk.makeLink
  by_cases printable : '\x00' ∈ text.toList
  · simp [printable, bind, Except.bind, throw, throwThe, MonadExceptOf.throw]
  by_cases named : text = ""
  · simp [named, bind, Except.bind, throw, throwThe, MonadExceptOf.throw]
  simp only [printable, named, List.contains_iff_mem, String.isEmpty_iff, if_false, ne_eq,
    not_false_eq_true, and_self, true_and, bind, Except.bind, pure, Except.pure]
  constructor
  · intro made
    cases found : d.resolve false (root.below names) with
    | error fault => simp [found] at made
    | ok place =>
      obtain ⟨callable, -, rfl⟩ := (s.resolve place).mp found
      simp only [found, placeAt, free, Except.ok.injEq] at made
      exact ⟨callable, made.symm⟩
  · rintro ⟨callable, rfl⟩
    simp [s.resolved callable opened, placeAt, free]

theorem Straight.resolved_there (s : d.Straight root top names) (callable : root.Callable names)
    (opened : d.Open top names) {node : Node} (stands : d.look (top ++ names) = some node)
    (unlinked : ∀ text, node ≠ .link text) :
    d.resolve true (root.below names) = .ok (.taken (top ++ names) node) := by
  rw [s.resolve_follow fun text link => unlinked text (Option.some.inj (stands.symm.trans link)),
    s.resolved callable opened, placeAt, stands]

theorem Straight.setMode_ok (s : d.Straight root top names) (callable : root.Callable names)
    (opened : d.Open top names) {content : ByteArray} {old : Nat}
    (file : d.look (top ++ names) = some (.file content old)) (mode : Nat) :
    d.setMode (root.below names) mode = .ok (.setMode (top ++ names) mode) := by
  rw [Disk.setMode, s.resolved_there callable opened file (by simp)]
  rfl

theorem Straight.fill_ok (s : d.Straight root top names) (callable : root.Callable names)
    (opened : d.Open top names) {old : ByteArray} {mode : Nat}
    (file : d.look (top ++ names) = some (.file old mode)) (content : ByteArray) :
    d.fill (root.below names) content = .ok (.write (top ++ names) content) := by
  rw [Disk.fill, s.resolved_there callable opened file (by simp)]
  rfl

theorem Straight.makeTemporary (s : d.Straight root top names) {step : Step}
    (answer : d.makeTemporary (root.below names) = .ok step) :
    root.Callable names ∧ d.look (top ++ names) = none ∧ d.Holds (top ++ names) ∧
      step = .create (top ++ names) 0o600 := by
  unfold Disk.makeTemporary at answer
  cases found : d.resolve false (root.below names) with
  | error fault => simp [found, bind, Except.bind] at answer
  | ok place =>
    obtain ⟨callable, opened, rfl⟩ := (s.resolve place).mp found
    cases look : d.look (top ++ names) with
    | none =>
      simp only [found, placeAt, look, bind, Except.bind, pure, Except.pure, Except.ok.injEq]
        at answer
      exact ⟨callable, rfl, s.holds opened, answer.symm⟩
    | some node => simp [found, placeAt, look, bind, Except.bind, throw, throwThe,
        MonadExceptOf.throw] at answer

theorem Straight.fill (s : d.Straight root top names)
    (last : ∀ target, d.look (top ++ names) ≠ some (.link target)) {content : ByteArray}
    {step : Step} (answer : d.fill (root.below names) content = .ok step) :
    step = .write (top ++ names) content := by
  unfold Disk.fill at answer
  rw [s.resolve_follow last] at answer
  cases found : d.resolve false (root.below names) with
  | error fault => simp [found, bind, Except.bind] at answer
  | ok place =>
    obtain ⟨-, -, rfl⟩ := (s.resolve place).mp found
    cases look : d.look (top ++ names) with
    | none => simp [found, placeAt, look, bind, Except.bind, throw, throwThe,
        MonadExceptOf.throw] at answer
    | some node => simpa [found, placeAt, look, bind, Except.bind, pure, Except.pure, eq_comm]
        using answer

theorem Straight.init {last : String} (s : d.Straight root top (names ++ [last]))
    (inner : names ≠ []) : d.Straight root top names where
  rooted := s.rooted
  plain name member := s.plain name (List.mem_append_left _ member)
  inner := inner
  clear r under _ := by
    refine s.clear r (under.trans (List.prefix_append _ _)) ?_
    rintro rfl
    have longer := under.length_le
    rw [List.length_append, List.length_singleton] at longer
    exact Nat.not_succ_le_self _ longer

theorem Straight.unlinked_init {last : String} (s : d.Straight root top (names ++ [last]))
    (target : String) : d.look (top ++ names) ≠ some (.link target) :=
  s.clear names (List.prefix_append _ _) (by simp) target

theorem mem_namesIn {p : DiskPath} {name : String} :
    name ∈ d.namesIn p ↔ d.look (p ++ [name]) ≠ none := by
  simp only [namesIn, List.mem_filterMap, List.mem_filter, Bool.and_eq_true,
    List.isPrefixOf_iff_prefix, decide_eq_true_eq]
  constructor
  · rintro ⟨⟨q, node⟩, ⟨listed, ⟨rest, rfl⟩, length⟩, last⟩
    obtain ⟨first, rfl⟩ := List.length_eq_one_iff.mp (by simpa using length : rest.length = 1)
    simp only [List.getLast?_append, List.getLast?_singleton, Option.some_or,
      Option.some.injEq] at last
    rw [← last, (look_eq_some_iff (by simp)).mpr listed]
    simp
  · intro stands
    obtain ⟨node, look⟩ := Option.ne_none_iff_exists'.mp stands
    exact ⟨_, ⟨(look_eq_some_iff (by simp)).mp look, by simp, by simp⟩, by simp⟩

theorem Straight.list (s : d.Straight root top names)
    (last : ∀ target, d.look (top ++ names) ≠ some (.link target))
    (callable : root.Callable names) (isDir : d.look (top ++ names) = some .dir)
    (sound : d.Sound) : d.list (root.below names) = .ok (d.namesIn (top ++ names)) := by
  simp [Disk.list, s.resolve_follow last, s.resolved callable (sound.opened (by simp [isDir])),
    placeAt, isDir, bind, Except.bind, pure, Except.pure]

theorem isEmptyDir_iff (sound : d.Sound) {p : DiskPath} :
    d.isEmptyDir p = true ↔ ∀ q, p <+: q → q ≠ p → d.look q = none := by
  simp only [isEmptyDir, List.isEmpty_iff, List.eq_nil_iff_forall_not_mem, mem_namesIn, not_not]
  constructor
  · rintro free q ⟨rest, rfl⟩ other
    obtain ⟨name, more, rfl⟩ := List.exists_cons_of_ne_nil (by simpa using other : rest ≠ [])
    rw [← List.singleton_append, ← List.append_assoc]
    exact sound.none_below (free name)
  · exact fun free name => free _ (List.prefix_append _ _) (by simp)

theorem Straight.rename (s : d.Straight root top source) (t : d.Straight root top target)
    (sound : d.Sound) (other : source ≠ target) (steps : List Step) :
    d.rename (root.below source) (root.below target) = .ok steps ↔
      root.Callable source ∧ root.Callable target ∧
        (Step.rename (top ++ source) (top ++ target)).Fits d ∧
        steps = [.rename (top ++ source) (top ++ target)] := by
  have apart : top ++ source ≠ top ++ target := by simpa using other
  have real : top ++ source ≠ [] := by simp [s.inner]
  unfold Disk.rename
  rw [Location.bare_below t.inner, Location.endsInName_below s.inner s.plain,
    Location.endsInName_below t.inner t.plain, Location.asksForDir_below t.inner]
  constructor
  · intro renamed
    cases foundS : d.resolve false (root.below source) with
    | error fault => simp [foundS, bind, Except.bind] at renamed
    | ok placeS =>
    cases foundT : d.resolve false (root.below target) with
    | error fault => simp [foundS, foundT, bind, Except.bind] at renamed
    | ok placeT =>
    obtain ⟨callS, openS, rfl⟩ := (s.resolve placeS).mp foundS
    obtain ⟨callT, openT, rfl⟩ := (t.resolve placeT).mp foundT
    refine ⟨callS, callT, ?_⟩
    have held := t.holds openT
    cases lookS : d.look (top ++ source) with
    | none => simp [foundS, foundT, placeAt, lookS, bind, Except.bind, throw, throwThe,
        MonadExceptOf.throw] at renamed
    | some old =>
    cases lookT : d.look (top ++ target) with
    | none =>
      simp only [foundS, foundT, placeAt, lookS, lookT, bind, Except.bind, pure, Except.pure, throw,
        throwThe, MonadExceptOf.throw] at renamed
      by_cases under : (top ++ source).isPrefixOf (top ++ target)
      · simp [under] at renamed
      · simp only [under] at renamed
        refine ⟨⟨real, by simpa using under, held, old, lookS, by simp [lookT]⟩, ?_⟩
        simpa [eq_comm] using renamed
    | some new =>
      simp only [foundS, foundT, placeAt, lookS, lookT, bind, Except.bind, pure, Except.pure, throw,
        throwThe, MonadExceptOf.throw, apart, if_false] at renamed
      by_cases under : (top ++ source).isPrefixOf (top ++ target)
      · simp [under] at renamed
      by_cases above : (top ++ target).isPrefixOf (top ++ source)
      · simp [under, above] at renamed
      simp only [under, above] at renamed
      have replaces : (old ≠ .dir ∧ new ≠ .dir ∨ old = .dir ∧ new = .dir ∧
          d.isEmptyDir (top ++ target)) ∧ steps = [.rename (top ++ source) (top ++ target)] := by
        cases old <;> cases new <;> cases empty : d.isEmptyDir (top ++ target) <;>
          simp [empty] at renamed ⊢ <;> exact renamed.symm
      rw [isEmptyDir_iff sound] at replaces
      refine ⟨⟨real, by simpa using under, held, old, lookS, ?_⟩, replaces.2⟩
      rw [lookT]
      rintro _ ⟨rfl⟩
      exact replaces.1
  · rintro ⟨callS, callT, ⟨-, notUnder, held, old, lookS, fitting⟩, rfl⟩
    have openS : d.Open top source := sound.opened (by simp [lookS])
    have openT := t.open_of_holds sound held
    have under : (top ++ source).isPrefixOf (top ++ target) = false := by
      rw [← Bool.not_eq_true, List.isPrefixOf_iff_prefix]
      exact notUnder
    simp only [s.resolved callS openS, t.resolved callT openT, placeAt, lookS]
    cases lookT : d.look (top ++ target) with
    | none => simp [bind, Except.bind, pure, Except.pure, under]
    | some new =>
      have above : (top ++ target).isPrefixOf (top ++ source) = false := by
        rw [← Bool.not_eq_true, List.isPrefixOf_iff_prefix]
        intro above
        have rest := List.prefix_iff_eq_append.mp above
        have isDir : d.look (top ++ target) = some .dir := by
          refine sound.above (fun none => apart ?_) (by rw [rest, lookS]; simp)
          rw [← rest, none, List.append_nil]
        rw [lookT, Option.some.injEq] at isDir
        rcases fitting new lookT with ⟨-, notDir⟩ | ⟨-, -, free⟩
        · exact notDir isDir
        · rw [free _ above apart] at lookS
          cases lookS
      rcases fitting new lookT with ⟨fileS, fileT⟩ | ⟨rfl, rfl, free⟩
      · cases old <;> cases new <;> simp_all [bind, Except.bind, pure, Except.pure]
      · simp [bind, Except.bind, pure, Except.pure, under, above, apart,
          (isEmptyDir_iff sound).mpr free]

end Disk

end PinnedTree
