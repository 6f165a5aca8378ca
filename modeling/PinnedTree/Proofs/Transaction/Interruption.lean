import PinnedTree.Proofs.Recovery
import PinnedTree.Proofs.Transaction.Atomicity

namespace PinnedTree.Transaction

open PinnedTree.Action

variable {path : String} {top : DiskPath} {job : Job} {destination : Destination}
  {all : List Destination} {w restarted : World} {s : Site} {d e f : Disk}
  {new : DiskPath → Option Node} {carried : List (List String)} {c : List String} {count : Nat}

def interrupted (root : Location) (job : Job) (w : World) (count : Nat) : Disk :=
  Step.applyAll w.disk
    ((((materialize root job).exec w).2.history.drop w.history.length).take count)

namespace Site

theorem Overlaid.congr (content : s.Overlaid d new carried e) (same : SameTree s.destination e f) :
    s.Overlaid d new carried f where
  kept r covered := by rw [same, content.kept r covered]
  fresh r away := by
    rw [same]
    exact content.fresh r away

/-- A nested tree that the new content has no room of its own for was carried over if anything
stands in its place. -/
theorem Overlaid.sameTree_iff (content : s.Overlaid d new carried e) (ready : s.Ready d)
    (each : ∀ c ∈ carried, s.Carried d new c) (listed : c ∈ s.nested)
    (stood : d.look (s.destination ++ c) ≠ none) (absent : new c = none) :
    SameTree (s.destination ++ c) d e ↔ e.look (s.destination ++ c) ≠ none := by
  constructor
  · intro same
    have here := same []
    rw [List.append_nil] at here
    rwa [here]
  · intro stands r
    have member : c ∈ carried := by
      by_contra other
      have whole := ready.not_covered each listed other []
      rw [List.append_nil] at whole
      rcases content.fresh c whole with same | ⟨-, -, k, listed', under, apart, -⟩
      · rw [same] at stands
        exact stands absent
      · exact (ready.nestedApart c listed k listed' apart).1 under
    rw [List.append_assoc]
    exact content.kept _ ⟨c, member, List.prefix_append _ _⟩

theorem tidy_iff : s.Tidy d ↔ ∀ room ∈ ["staging", "backup"], ∀ entry ∈ d.nodes,
    ¬ Disk.Inside (s.top ++ [stateDirectory, room]) entry.1 := by
  constructor
  · intro tidy room member entry listed inside
    have inner : entry.1 ≠ [] := by
      intro top
      rw [top] at inside
      exact inside.2 (List.prefix_nil.mp inside.1).symm
    have stands := (Disk.look_eq_some_iff inner).mpr listed
    rw [tidy room member _ inside] at stands
    cases stands
  · exact fun unlisted room member p inside => Disk.look_of_unlisted (unlisted room member) inside

instance (s : Site) (d : Disk) : Decidable (s.Tidy d) :=
  decidable_of_iff _ tidy_iff.symm

/-- What clearing up leaves of a run that was cut off: the whole old tree at the destination, or the
whole new one with nested trees of the old. Of these, one that the new content has no room of its own
for is kept exactly if, at the moment of the cut, nothing stood at the destination or something stood
in its place. -/
structure Recovered (s : Site) (job : Job) (d : Disk) (new : DiskPath → Option Node)
    (cut after : Disk) : Prop where
  whole : SameTree s.destination d after ∨
    Marked job new ∧ after.look s.destination = some .dir ∧
      ∃ carried, (∀ c ∈ carried, c ∈ s.nested ∧ new c = none) ∧ s.Overlaid d new carried after
  kept : ∀ c ∈ s.nested, d.look (s.destination ++ c) ≠ none → new c = none →
    (SameTree (s.destination ++ c) d after ↔
      cut.look s.destination = none ∨ cut.look (s.destination ++ c) ≠ none)

theorem Recovered.of_old (same : SameTree s.destination d f)
    (cut : e.look s.destination = none ∨ SameTree s.destination d e) :
    s.Recovered job d new e f where
  whole := .inl same
  kept c _ stood _ := by
    refine iff_of_true (same.below c) (cut.imp_right fun still => ?_)
    rwa [still]

theorem Recovered.of_new (marked : Marked job new) (ready : s.Ready d)
    (content : s.Overlaid d new carried e) (each : ∀ c ∈ carried, s.Carried d new c)
    (same : SameTree s.destination e f) : s.Recovered job d new e f where
  whole := by
    have moved := content.congr same
    exact .inr ⟨marked, moved.isDir ready each marked.isDir, carried,
      fun c member => ⟨(each c member).listed, (each c member).absent⟩, moved⟩
  kept c listed stood absent := by
    have isDir := content.isDir ready each marked.isDir
    rw [(content.congr same).sameTree_iff ready each listed stood absent, same]
    simp [isDir]

theorem Settled.recovered (settled : s.Settled d (noteOf job) restarted.disk) (ready : s.Ready d)
    (idle : s.Idle d) (hosts : s.Hosts job) (written : s.root = .ofText path)
    (dotless : '.' ∉ s.slot.toList) : SameTree s.destination restarted.disk
      ((Recovery.recover s.root).exec restarted).2.disk :=
  (settled.recover ready idle hosts written dotless).ends.same

end Site

/-- What is cut off between any two steps is cleared up by the next run. -/
theorem recover_interrupted (clear : job.Clear (.ofText path) top destination all w.disk)
    (tidy : (job.site (.ofText path) top destination).Tidy w.disk)
    (unlinked : w.disk.linkless (top ++ destination.names) = true)
    (confined : job.backend.Confined)
    (straightforward : (job.site (.ofText path) top destination).Straightforward job w)
    (restarts : restarted.disk = interrupted (.ofText path) job w count) :
    (job.site (.ofText path) top destination).Recovered job w.disk
      ((job.site (.ofText path) top destination).stagedTree job w) restarted.disk
      ((Recovery.recover (.ofText path)).exec restarted).2.disk := by
  have ready := clear.ready
  have hosts := clear.hosts
  have idle := tidy.idle
  have passing := (ready.materialize hosts (.of_confined rfl confined) straightforward).cut count
  change (job.site (.ofText path) top destination).Passing job w.disk _
    (interrupted (.ofText path) job w count) at passing
  rw [← restarts] at passing
  have dotless : '.' ∉ (job.site (.ofText path) top destination).slot.toList :=
    notMem_slotName job.pin.id (by decide) (by decide) (by decide)
  have old : ∀ e : Disk, (job.site (.ofText path) top destination).Quiet w.disk e →
      e = restarted.disk → (job.site (.ofText path) top destination).Recovered job w.disk
        ((job.site (.ofText path) top destination).stagedTree job w) restarted.disk
        ((Recovery.recover (.ofText path)).exec restarted).2.disk := by
    rintro _ quiet rfl
    have same := (quiet.isSettled idle).recovered ready idle hosts rfl dotless
    exact .of_old (fun r => (same r).trans (quiet.old r)) (.inr quiet.old)
  rcases passing with quiet | ⟨marked, quiet | aside | ⟨carried, placed⟩ | ⟨carried, done⟩⟩
  · exact old _ quiet rfl
  · exact old _ quiet rfl
  · have ends := (aside.recover ready idle hosts rfl dotless (Disk.linkless_iff.mp unlinked)).ends
    refine .of_old ends.same (.inl ?_)
    simpa using aside.gone []
  · exact .of_new marked ready placed.content placed.each
      ((placed.isSettled ready idle marked.isDir).recovered ready idle hosts rfl dotless)
  · exact .of_new marked ready done.content done.each
      ((done.isSettled ready idle marked.isDir).recovered ready idle hosts rfl dotless)

def movingJob : Job := { blockedJob with backend := .single "new" "content" }

theorem movingJob_clear : movingJob.Clear (.ofText "root") ["root"] outerDestination
    [outerDestination, innerDestination] nestedDisk := { blockedJob_clear with }

theorem movingJob_straightforward : (movingJob.site (.ofText "root") ["root"]
    outerDestination).Straightforward movingJob { disk := nestedDisk } :=
  movingJob_clear.ready.straightforward (.of_confined rfl (Backend.single_confined (by decide)))
    fun _ => Backend.single_linkless (by decide)

def movingDisk : Disk := interrupted (.ofText "root") movingJob { disk := nestedDisk } 9

theorem movingDisk_bare : movingDisk.look (movingJob.site (.ofText "root") ["root"]
    outerDestination).destination = none := by
  decide +kernel

theorem movingJob_recovered : SameTree ["root", "a", "p", "q"] nestedDisk
    ((Recovery.recover (.ofText "root")).exec { disk := movingDisk }).2.disk := by
  have recovered := @recover_interrupted "root" ["root"] movingJob outerDestination
    [outerDestination, innerDestination] { disk := nestedDisk } { disk := movingDisk } 9
    movingJob_clear (by decide +kernel) (by decide) (Backend.single_confined (by decide))
    movingJob_straightforward (by simp only [movingDisk])
  refine (recovered.kept ["p", "q"] (by decide +kernel) (by decide) (by decide +kernel)).mpr
    (.inl ?_)
  dsimp only
  exact movingDisk_bare

/-- Cut off one step later, the next run finds new content without the nested checkout. -/
example : (interrupted (.ofText "root") movingJob { disk := nestedDisk } 10).look ["root", "a"]
    = some .dir ∧ (interrupted (.ofText "root") movingJob { disk := nestedDisk } 10).look
      ["root", "a", "p", "q"] = none := by
  decide +kernel

end PinnedTree.Transaction
