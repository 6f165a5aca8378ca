import PinnedTree.Backend.Mirror
import PinnedTree.Proofs.Backend
import PinnedTree.Proofs.Backend.CopyTree

namespace PinnedTree

namespace Disk

variable {d : Disk} {root : Location} {top : DiskPath} {names : List String}

/-- A call with a path that is too long, or that no call takes, does not say that nothing is there. -/
theorem Straight.refused (s : d.Straight root top names) (opened : d.Open top names)
    (uncallable : ¬ root.Callable names) :
    ∃ fault, d.resolve false (root.below names) = .error fault ∧ fault ≠ .errno .noEntry := by
  obtain ⟨left, goes⟩ := walk_append s.inner (s.rooted.leads d rfl fun _ _ => rfl) false
  have named := Location.text_below_ne_empty root s.inner s.plain
  rw [resolve_eq, goes]
  by_cases printable : '\x00' ∈ (root.below names).text.toList
  · exact ⟨_, if_pos printable, by simp⟩
  by_cases fits : (root.below names).text.utf8ByteSize > maxPathBytes
  · exact ⟨_, by rw [if_neg printable, if_neg named, if_pos fits], by simp⟩
  have long : ∃ name ∈ names, name.utf8ByteSize > maxNameBytes := by
    by_contra short
    simp only [not_exists, not_and, Nat.not_lt] at short
    exact uncallable ⟨printable, named, by omega, short⟩
  refine ⟨.errno .nameTooLong, ?_, by simp⟩
  rw [if_neg printable, if_neg named, if_neg fits, walk, advance_long s.plain opened long]
  rfl

end Disk

namespace CopyTree

open PinnedTree.Action

variable {d : Disk} {source target : Location} {base top : DiskPath} {done : List (List String)}
  {names : List String} {node : Node} {objects : List (List String × Node)} {w : World}

/-- A step that touches one path only. -/
def Touches (p : DiskPath) (step : Step) : Prop := ∀ q ∈ step.touched, q = p

section

variable (ground : Ground d source target base top) (copied : Copied d base top done w.disk)
  (due : Due d base done names node)
include ground copied due

theorem makeDirs_takes :
    (Files.makeDirs (target.below names)).Takes (Touches (top ++ names)) w := by
  have straight := due.straight ground copied
  have opened := due.opened ground copied
  have free := copied.free names due.inner due.new
  by_cases callable : target.Callable names
  · have made := Files.exec_makeDirs_new straight callable opened free
    have fit : Step.AllFit w.disk [.makeDir (top ++ names)] := ⟨⟨free, straight.holds opened⟩, trivial⟩
    exact .perform made fit (by simp [Touches, Step.touched])
  · obtain ⟨fault, refused, other⟩ := straight.refused opened callable
    have unmade : w.disk.makeDir (target.below names) = .error fault := by
      rw [Disk.makeDir, Location.bare_below due.inner, refused]
      rfl
    obtain ⟨r, ran, -⟩ := Files.makeDirs_refused
      (Location.text_below_ne_empty target due.inner straight.plain) unmade other
    exact .of_exec ran

theorem copyLink_takes :
    (copyLink (source.below names) (target.below names)).Takes (Touches (top ++ names)) w := by
  have straight := due.straight ground copied
  have opened := due.opened ground copied
  have free := copied.free names due.inner due.new
  unfold copyLink
  apply Takes.bind (.of_exec (exec_query ..))
  intro found w' read
  obtain ⟨-, rfl⟩ := Prod.mk.inj ((exec_query ..).symm.trans read)
  cases found with
  | link text =>
    apply Takes.changeOnce
    intro step made
    obtain ⟨-, -, rfl⟩ := (straight.makeLink opened free text step).mp made
    exact ⟨⟨free, straight.holds opened⟩, by simp [Touches, Step.touched]⟩
  | dir | file => exact .of_exec rfl

theorem copyFile_takes (mode : Nat) :
    (copyFile (source.below names) (target.below names) mode).Takes (Touches (top ++ names)) w := by
  have straight := due.straight ground copied
  have free := copied.free names due.inner due.new
  unfold copyFile
  apply Takes.bind (.of_exec (exec_query ..))
  intro content w' read
  obtain ⟨-, rfl⟩ := Prod.mk.inj ((exec_query ..).symm.trans read)
  cases answer : w.disk.openToWrite (target.below names) mode with
  | error fault =>
    refine .of_exec (r := .error fault) ?_
    rw [exec_bind, exec_changeOnce, answer]
  | ok step =>
    have callable := (straight.openToWrite (by simp [free]) answer).1
    obtain ⟨ran, fit, -⟩ := exec_makeFile ground copied due callable content mode
    exact .perform ran fit (by simp [fileSteps, Touches, Step.touched])

theorem copyNode_takes : (copyNode (source.below names) (target.below names) node).Takes
    (Touches (top ++ names)) w := by
  cases node with
  | dir => exact makeDirs_takes ground copied due
  | file content mode => exact copyFile_takes ground copied due mode
  | link text => exact copyLink_takes ground copied due

end

theorem enter_takes {allowed : Step → Prop} {l : Location} :
    (enter l node).Takes allowed w := by
  cases node with
  | file | link => exact .of_exec rfl
  | dir =>
    unfold enter
    apply Takes.observe_bind
    cases w.disk.list l with
    | ok found => exact .of_exec rfl
    | error fault =>
      apply Takes.bind Backend.takes_poll
      intro _ _ _
      exact .of_exec rfl

/-- However copying ends, what it does happens inside the directory that is copied into. -/
theorem copyEntries_takes (ground : Ground d source target base top)
    (copied : Copied d base top done w.disk) (ordered : Ordered d base done objects) :
    (copyEntries source target objects).Takes
      (fun step => ∀ q ∈ step.touched, Disk.Inside top q) w := by
  induction objects generalizing done w with
  | nil => exact .of_exec rfl
  | cons entry rest ih =>
    obtain ⟨names, node⟩ := entry
    obtain ⟨due, later⟩ := ordered
    rw [copyEntries_cons]
    apply Takes.bind Backend.takes_poll
    intro _ w₁ polled
    have still := Backend.takes_poll.unmoved (w := w)
    rw [polled] at still
    rw [← still] at copied
    have copies := copyNode_copies ground copied due
    apply Takes.bind
    · apply Takes.reporting
      apply (copyNode_takes ground copied due).mono
      intro step touches q member
      rw [touches q member]
      exact Disk.inside_append.mpr due.inner
    intro _ w₂ made
    have copied₂ : Copied d base top (names :: done) w₂.disk := by
      rw [exec_reporting_eq_ok] at made
      by_cases fair : target.Callable names ∧ Fair node ∧ (node ≠ .dir → source.Callable names)
      · obtain ⟨_, w', ran, left, -⟩ := copies.succeeds fair
        cases made.symm.trans ran
        exact left
      · obtain ⟨fault, w', ran, -⟩ := copies.fails fair
        cases made.symm.trans ran
    apply Takes.bind enter_takes
    intro _ w₃ entered
    have still : ((enter (source.below names) node).exec w₂).2.disk = w₂.disk := enter_takes.unmoved
    rw [entered] at still
    rw [← still] at copied₂
    apply Takes.bind (ih copied₂ later)
    intro _ _ _
    exact .of_exec rfl

theorem copyTree_takes (sound : w.disk.Sound)
    (found : w.disk.resolve true source = .ok (.taken base .dir))
    (given : w.disk.resolve true target = .ok (.taken top .dir)) (isTop : w.disk.look top = some .dir)
    (bare : ∀ q, Disk.Inside top q → w.disk.look q = none) :
    (copyTree source target).Takes (fun step => ∀ q ∈ step.touched, Disk.Inside top q) w := by
  obtain ⟨q, node, named⟩ := Disk.resolve_held found
  have stands := Disk.linkStat_of_resolve named
  have rest {w' : World} (same : w'.disk = w.disk) : (copyEntries source target
      (objectsIn w.disk base)).Takes (fun step => ∀ q ∈ step.touched, Disk.Inside top q) w' := by
    cases objects : objectsIn w.disk base with
    | nil => exact .of_exec rfl
    | cons entry more =>
      obtain ⟨names, node⟩ := entry
      obtain ⟨inner, there⟩ := mem_objectsIn.mp (objects ▸ List.mem_cons_self)
      have opened : w.disk.Open base names := sound.opened (by simp [there])
      have isDir := opened [] List.nil_prefix inner.symm
      rw [List.append_nil] at isDir
      have ground : Ground w.disk source target base top := ⟨sound, found, isDir, given, isTop, bare⟩
      rw [← objects]
      exact copyEntries_takes ground (same ▸ ground.nothing_copied) (objectsIn_ordered sound base)
  rw [Takes, exec_copyTree (entries_eq found stands), ← Takes, copyEntries_cons]
  apply Takes.bind Backend.takes_poll
  intro _ w₁ polled
  have still := Backend.takes_poll.unmoved (w := w)
  rw [polled] at still
  rw [Location.below_nil, Location.below_nil]
  by_cases real : node = .dir
  · subst real
    have made : (copyNode source target .dir).exec w₁ = (.ok (), w₁) :=
      Files.exec_makeDirs (still ▸ Disk.leadsToDir_iff.mpr ⟨top, given⟩)
    apply Takes.bind (Takes.of_exec made).reporting
    intro _ w₂ done
    obtain ⟨-, rfl⟩ := Prod.mk.inj (made.symm.trans (exec_reporting_eq_ok.mp done))
    apply Takes.bind enter_takes
    intro _ w₃ entered
    have here : ((enter source .dir).exec w₁).2.disk = w₁.disk := enter_takes.unmoved
    rw [entered] at here
    apply Takes.bind (rest (here.trans still))
    intro _ _ _
    exact .of_exec rfl
  · obtain ⟨fault, refused⟩ := copyNode_refused (still ▸ found) (still ▸ given)
      (still ▸ stands) real
    apply Takes.bind (Takes.of_exec refused).reporting
    intro _ _ done
    cases refused.symm.trans (exec_reporting_eq_ok.mp done)

end CopyTree

namespace Mirror

open PinnedTree.Action

/-- The backend for mirrors works in the directory that it is given alone. -/
theorem backend_housed : backend.Housed := by
  intro w request room slot asked
  have takes : (fetch request).Takes
      (fun step => ∀ q ∈ step.touched, Disk.Inside (room ++ [slot]) q) w := by
    unfold fetch
    split
    · exact .of_exec rfl
    apply Takes.observe_bind
    cases leads : w.disk.leadsToDir (directory request.locator / request.revision) with
    | false => exact .of_exec rfl
    | true =>
      obtain ⟨base, found⟩ := Disk.leadsToDir_iff.mp leads
      have bare (q : DiskPath) (inside : Disk.Inside (room ++ [slot]) q) : w.disk.look q = none := by
        obtain ⟨⟨rest, rfl⟩, other⟩ := inside
        exact asked.empty rest (by simpa using other)
      apply Takes.bind (CopyTree.copyTree_takes asked.sound found asked.leads asked.isDir bare)
      intro _ _ _
      exact .of_exec rfl
  obtain ⟨steps, ran, inside⟩ := takes
  exact .of_inside ran inside

end Mirror

end PinnedTree
