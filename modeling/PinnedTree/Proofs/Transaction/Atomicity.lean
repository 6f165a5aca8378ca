import PinnedTree.Proofs.Path.Nested
import PinnedTree.Proofs.Transaction.Materialize
import PinnedTree.Proofs.Transaction.Slot

namespace PinnedTree.Transaction

open PinnedTree.Action

variable {root : Location} {top : DiskPath} {job : Job} {destination : Destination}
  {all : List Destination} {w : World} {d e : Disk}

def Job.site (job : Job) (root : Location) (top : DiskPath) (destination : Destination) : Site :=
  { root, top, slot := slotName job.pin.id, dest := destination.names, nested := job.nested }

def Unlinked (d : Disk) (top : DiskPath) (slot : String) : Prop :=
  ∀ names ∈ [[stateDirectory], [stateDirectory, "staging"], [stateDirectory, "backup"],
    [stateDirectory, "staging", slot], [stateDirectory, "backup", journalName slot]],
    ∀ target, d.look (top ++ names) ≠ some (.link target)

theorem unlinked_iff {slot : String} : Unlinked d top slot ↔
    ∀ names ∈ [[stateDirectory], [stateDirectory, "staging"], [stateDirectory, "backup"],
      [stateDirectory, "staging", slot], [stateDirectory, "backup", journalName slot]],
      d.linkless (top ++ names) = true := by
  simp only [Unlinked, Disk.linkless_iff]

instance (d : Disk) (top : DiskPath) (slot : String) : Decidable (Unlinked d top slot) :=
  decidable_of_iff _ unlinked_iff.symm

/-- A job for a destination and those of some others that are nested in it, on a disk where no link
stands in its way. -/
structure Job.Clear (job : Job) (root : Location) (top : DiskPath) (destination : Destination)
    (all : List Destination) (d : Disk) : Prop where
  sound : d.Sound
  rooted : d.Rooted root top
  placed : job.destination = destination.place root
  nested : job.nested = destination.nestedIn all
  unlinked : Unlinked d top (slotName job.pin.id)
  way : d.Clear top destination.names
  nestedWay : ∀ c ∈ job.nested, d.Clear top (destination.names ++ c)

theorem Job.Clear.ready (clear : job.Clear root top destination all d) :
    (job.site root top destination).Ready d where
  sound := clear.sound
  rooted := clear.rooted
  slotted := slotName_isName _
  inner := destination.nonempty
  plain := destination.plain
  unreserved := destination.unreserved
  nestedInner c member :=
    (Destination.mem_nestedIn (clear.nested ▸ member : c ∈ destination.nestedIn all)).1
  nestedPlain c member :=
    Destination.nestedIn_plain (clear.nested ▸ member : c ∈ destination.nestedIn all)
  nestedOnce := by
    have once := Destination.nestedIn_nodup destination all
    rwa [← clear.nested] at once
  nestedApart a memberA b memberB other :=
    Destination.nestedIn_ne (clear.nested ▸ memberA : a ∈ destination.nestedIn all)
      (clear.nested ▸ memberB : b ∈ destination.nestedIn all) other
  clear := clear.way
  nestedClear := clear.nestedWay
  own := clear.unlinked

theorem Job.Clear.hosts (clear : job.Clear root top destination all d) :
    (job.site root top destination).Hosts job where
  slot := rfl
  destination := clear.placed
  nested := rfl

theorem Site.Quiet.unchanged {s : Site} (quiet : s.Quiet d e) (ready : s.Ready d) {p : DiskPath}
    (outside : ¬ s.top ++ [stateDirectory] <+: p) :
    e.look p = d.look p ∨
      (d.look p = none ∧ e.look p = some .dir ∧ Disk.Inside p s.destination) := by
  by_cases under : s.destination <+: p
  · obtain ⟨rest, rfl⟩ := under
    exact .inl (quiet.old rest)
  · exact quiet.toNear.beside ready outside under

/-- A job that fails leaves everything as it was, except for directories that it made above its
destination: whatever the backend did in its room, and whichever step failed. -/
theorem materialize_atomic (clear : job.Clear root top destination all w.disk)
    (confined : job.backend.Confined)
    (straightforward : (job.site root top destination).Straightforward job w)
    {fault : FetchError} (failed : ((materialize root job).exec w).1 = .error fault)
    {p : DiskPath} (outside : ¬ top ++ [stateDirectory] <+: p) :
    ((materialize root job).exec w).2.disk.look p = w.disk.look p ∨
      (w.disk.look p = none ∧ ((materialize root job).exec w).2.disk.look p = some .dir ∧
        Disk.Inside p (top ++ destination.names)) := by
  have quiet : (job.site root top destination).Quiet w.disk ((materialize root job).exec w).2.disk := by
    have ends := (clear.ready.materialize clear.hosts (.of_confined rfl confined) straightforward).ends
    have answer : ((materialize (job.site root top destination).root job).exec w).1 = .error fault :=
      failed
    rw [answer] at ends
    exact ends
  exact quiet.unchanged clear.ready outside

/-- A checkout with another one nested in it, under a root that an earlier run has left. -/
def nestedDisk : Disk where
  home := []
  nodes := [(["root"], .dir), (["root", "a"], .dir),
    (["root", "a", "p"], .dir), (["root", "a", "p", "q"], .dir),
    (["root", ".depsync"], .dir), (["root", ".depsync", "staging"], .dir),
    (["root", ".depsync", "backup"], .dir)]
  distinct := by decide

def outerDestination : Destination := ⟨["a"], by decide, by decide, by decide⟩

def innerDestination : Destination := ⟨["a", "p", "q"], by decide, by decide, by decide⟩

def blockedJob : Job where
  pin := ⟨"outer", "fake:", "r2", "a"⟩
  backend := .single "p" "in the way"
  destination := outerDestination.place (.ofText "root")
  nested := outerDestination.nestedIn [outerDestination, innerDestination]

theorem blockedJob_clear : blockedJob.Clear (.ofText "root") ["root"] outerDestination
    [outerDestination, innerDestination] nestedDisk where
  sound := by decide
  rooted := .of_segments (by decide) (by decide) (by decide) (by decide)
  placed := rfl
  nested := rfl
  unlinked := by decide +kernel
  way := by decide
  nestedWay := by decide +kernel

theorem blockedJob_straightforward : (blockedJob.site (.ofText "root") ["root"]
    outerDestination).Straightforward blockedJob { disk := nestedDisk } :=
  blockedJob_clear.ready.straightforward (.of_confined rfl (Backend.single_confined (by decide)))
    fun _ => Backend.single_linkless (by decide)

theorem blockedJob_fails : ((materialize (.ofText "root") blockedJob).exec
    { disk := nestedDisk }).1 = .error (.io (.errno .fileExists)) := by
  decide +kernel

theorem blockedJob_restores :
    ((materialize (.ofText "root") blockedJob).exec { disk := nestedDisk }).2.disk.look
        ["root", "a", "p", "q"] = nestedDisk.look ["root", "a", "p", "q"] ∨
      (nestedDisk.look ["root", "a", "p", "q"] = none ∧
        ((materialize (.ofText "root") blockedJob).exec { disk := nestedDisk }).2.disk.look
          ["root", "a", "p", "q"] = some .dir ∧
        Disk.Inside ["root", "a", "p", "q"] ["root", "a"]) :=
  materialize_atomic blockedJob_clear (Backend.single_confined (by decide))
    blockedJob_straightforward blockedJob_fails (by decide)

end PinnedTree.Transaction
