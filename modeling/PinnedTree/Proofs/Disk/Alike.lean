import PinnedTree.Proofs.Disk.Calls

namespace PinnedTree

namespace Disk

variable {d e : Disk} {root : Location} {top : DiskPath} {names source target : List String}

def SameWay (d e : Disk) (top : DiskPath) (names : List String) : Prop :=
  ∀ r, r <+: names → r ≠ [] → e.look (top ++ r) = d.look (top ++ r)

theorem SameWay.last (same : d.SameWay e top names) (inner : names ≠ []) :
    e.look (top ++ names) = d.look (top ++ names) := same names (List.prefix_refl _) inner

theorem SameWay.tail {name : String} (same : d.SameWay e top (name :: names)) :
    d.SameWay e (top ++ [name]) names := by
  intro r under filled
  have := same (name :: r) (List.cons_prefix_cons.mpr ⟨rfl, under⟩) (by simp)
  simpa using this

theorem advance_same (plain : ∀ name ∈ names, IsName name) (same : d.SameWay e top names)
    (follow : Bool) : e.advance follow top names = d.advance follow top names := by
  induction names generalizing top with
  | nil => simp [advance]
  | cons name rest ih =>
    obtain ⟨-, notHere, notUp, -⟩ := plain name (by simp)
    have here := same [name] (by simp) (by simp)
    rw [advance_step follow notHere notUp, advance_step follow notHere notUp, here,
      ih (fun n member => plain n (List.mem_cons_of_mem _ member)) same.tail]

def endOf : Except Errno Stretch → Except Errno Place
  | .ok (.ended place) => .ok place
  | .ok (.turned _ _ _) => .error .tooManyLinks
  | .error cause => .error cause

theorem walk_endOf (plain : ∀ name ∈ names, IsName name) (inner : names ≠ [])
    (isDir : d.look top = some .dir) (clear : d.Clear top names) (links : Nat) :
    d.walk false links top names = endOf (d.advance false top names) := by
  rw [walk]
  cases stretch : d.advance false top names with
  | error cause => rfl
  | ok found =>
    obtain ⟨-, -, rfl⟩ := (advance_clear plain inner isDir clear found).mp stretch
    rfl

theorem Straight.resolve_endOf (s : d.Straight root top names) :
    d.resolve false (root.below names) =
      if '\x00' ∈ (root.below names).text.toList then .error .nulInName
      else if (root.below names).text = "" then .error (.errno .noEntry)
      else if (root.below names).text.utf8ByteSize > maxPathBytes then .error (.errno .nameTooLong)
      else (endOf (d.advance false top names)).mapError .errno := by
  obtain ⟨left, goes⟩ := walk_append s.inner (s.rooted.leads d rfl fun _ _ => rfl) false
  rw [resolve_eq, goes, walk_endOf s.plain s.inner s.rooted.isDir s.clear]

theorem Straight.resolve_same (s : d.Straight root top names) (t : e.Straight root top names)
    (same : d.SameWay e top names) :
    e.resolve false (root.below names) = d.resolve false (root.below names) := by
  rw [s.resolve_endOf, t.resolve_endOf, advance_same s.plain same]

theorem Straight.resolve_follow_same (s : d.Straight root top names)
    (t : e.Straight root top names) (same : d.SameWay e top names)
    (last : ∀ target, d.look (top ++ names) ≠ some (.link target)) :
    e.resolve true (root.below names) = d.resolve true (root.below names) := by
  have last' : ∀ target, e.look (top ++ names) ≠ some (.link target) := by
    rwa [same.last s.inner]
  rw [s.resolve_follow last, t.resolve_follow last', s.resolve_same t same]

theorem Straight.linkStat_same (s : d.Straight root top names) (t : e.Straight root top names)
    (same : d.SameWay e top names) :
    e.linkStat (root.below names) = d.linkStat (root.below names) := by
  rw [linkStat, linkStat, s.resolve_same t same]

theorem Straight.stat_same (s : d.Straight root top names) (t : e.Straight root top names)
    (same : d.SameWay e top names)
    (last : ∀ target, d.look (top ++ names) ≠ some (.link target)) :
    e.stat (root.below names) = d.stat (root.below names) := by
  rw [stat, stat, s.resolve_follow_same t same last]

def Blocked (d : Disk) (top : DiskPath) (names : List String) : Prop :=
  ∃ r, r <+: names ∧ r ≠ names ∧ ∃ c m, d.look (top ++ r) = some (.file c m)

theorem advance_absent (plain : ∀ name ∈ names, IsName name)
    (sizes : ∀ name ∈ names, name.utf8ByteSize ≤ maxNameBytes) (isDir : d.look top = some .dir)
    (clear : d.Clear top names) (free : ¬ d.Blocked top names) (closed : ¬ d.Open top names) :
    d.advance false top names = .error .noEntry := by
  induction names generalizing top with
  | nil =>
    refine absurd (fun r under other => ?_) closed
    exact absurd (List.prefix_nil.mp under) other
  | cons name rest ih =>
    obtain ⟨-, notHere, notUp, -⟩ := plain name (by simp)
    obtain ⟨short, sizes⟩ := List.forall_mem_cons.mp sizes
    have filled : rest ≠ [] := by
      rintro rfl
      exact closed (open_singleton isDir)
    have within : [name] <+: name :: rest := by simp
    have other : [name] ≠ name :: rest := by simpa using filled.symm
    rw [advance_step false notHere notUp, if_neg (by omega)]
    cases stands : d.look (top ++ [name]) with
    | none => simp [filled]
    | some node =>
      cases node with
      | dir =>
        refine ih (fun n member => plain n (List.mem_cons_of_mem _ member)) sizes stands clear.tail ?_
          fun opened => closed (open_cons isDir opened)
        rintro ⟨r, under, apart, c, m, file⟩
        exact free ⟨name :: r, List.cons_prefix_cons.mpr ⟨rfl, under⟩, by simpa using apart, c, m,
          by simpa using file⟩
      | file c m => exact absurd ⟨[name], within, other, c, m, stands⟩ free
      | link target => exact absurd stands (clear [name] within other target)

section

variable (leads : d.walk true maxLinks (d.start root) root.segments = .ok (.taken top .dir))
  (isDir : d.look top = some .dir) (plain : ∀ name ∈ names, IsName name) (inner : names ≠ [])
  (callable : root.Callable names)
include leads isDir plain inner callable

theorem makeDir_below (opened : d.Open top names) (free : d.look (top ++ names) = none) :
    d.makeDir (root.below names) = .ok (.makeDir (top ++ names)) := by
  have found := (resolve_below leads isDir plain inner opened.clear (.free (top ++ names))).mpr
    ⟨callable, opened, by rw [placeAt, free]⟩
  rw [Disk.makeDir, Location.bare_below inner, found]
  rfl

theorem makeDir_below_missing (clear : d.Clear top names) (unblocked : ¬ d.Blocked top names)
    (closed : ¬ d.Open top names) : d.makeDir (root.below names) = .error (.errno .noEntry) := by
  obtain ⟨left, goes⟩ := walk_append inner leads false
  obtain ⟨printable, named, fits, sizes⟩ := callable
  rw [Disk.makeDir, Location.bare_below inner, resolve_eq, if_neg printable, if_neg named,
    if_neg (by omega), goes, Disk.walk, advance_absent plain sizes isDir clear unblocked closed]
  rfl

end

end Disk

end PinnedTree
