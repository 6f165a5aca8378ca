import PinnedTree.Proofs.Transaction.Atomicity

namespace PinnedTree.Transaction

open PinnedTree.Action

/-- The nested places at which the old content has something and the new content has nothing. -/
def takenOver (old new : List String → Option Node) (nested : List (List String)) :
    List (List String) :=
  nested.filter fun c => (old c).isSome && (new c).isNone

/-- The new content, over which nested trees of the old one are laid, with the directories that lead
to them. -/
def overlay (old new : List String → Option Node) (nested : List (List String)) (r : List String) :
    Option Node :=
  if (takenOver old new nested).any (·.isPrefixOf r) then old r
  else if (new r).isNone && (takenOver old new nested).any (r.isPrefixOf ·) then some .dir
  else new r

def withMarker (tree : List String → Option Node) (marker : Marker) (r : List String) :
    Option Node :=
  if r = [markerFile] then some (.file marker.text.toUTF8 0o600) else tree r

section

variable {old new : List String → Option Node} {nested : List (List String)} {c r : List String}

theorem mem_takenOver :
    c ∈ takenOver old new nested ↔ c ∈ nested ∧ old c ≠ none ∧ new c = none := by
  simp [takenOver, Option.isSome_iff_ne_none]

theorem overlay_kept (member : c ∈ takenOver old new nested) (under : c <+: r) :
    overlay old new nested r = old r := by
  rw [overlay, if_pos]
  exact List.any_eq_true.mpr ⟨c, member, List.isPrefixOf_iff_prefix.mpr under⟩

theorem overlay_above (away : ∀ c ∈ takenOver old new nested, ¬ c <+: r) (absent : new r = none)
    (member : c ∈ takenOver old new nested) (above : r <+: c) :
    overlay old new nested r = some .dir := by
  rw [overlay, if_neg, if_pos]
  · rw [absent, Option.isNone_none, Bool.true_and]
    exact List.any_eq_true.mpr ⟨c, member, List.isPrefixOf_iff_prefix.mpr above⟩
  · intro covered
    obtain ⟨k, listed, under⟩ := List.any_eq_true.mp covered
    exact away k listed (List.isPrefixOf_iff_prefix.mp under)

theorem overlay_new (away : ∀ c ∈ takenOver old new nested, ¬ c <+: r)
    (beside : new r = none → ∀ c ∈ takenOver old new nested, ¬ r <+: c) :
    overlay old new nested r = new r := by
  rw [overlay, if_neg, if_neg]
  · intro leads
    rw [Bool.and_eq_true, Option.isNone_iff_eq_none] at leads
    obtain ⟨k, listed, above⟩ := List.any_eq_true.mp leads.2
    exact beside leads.1 k listed (List.isPrefixOf_iff_prefix.mp above)
  · intro covered
    obtain ⟨k, listed, under⟩ := List.any_eq_true.mp covered
    exact away k listed (List.isPrefixOf_iff_prefix.mp under)

end

variable {s : Site} {d e : Disk} {new : DiskPath → Option Node} {note : ByteArray}
  {carried : List (List String)} {root : Location} {top : DiskPath} {job : Job}
  {destination : Destination} {all : List Destination} {w : World}

theorem Site.Done.mem_carried (done : s.Done d new note carried e)
    (callable : ∀ c ∈ s.nested, d.look (s.destination ++ c) ≠ none →
      s.root.Callable (s.backupNames ++ c)) (c : List String) :
    c ∈ carried ↔ c ∈ takenOver (fun r => d.look (s.destination ++ r)) new s.nested := by
  rw [mem_takenOver]
  constructor
  · intro member
    have carried := done.each c member
    exact ⟨carried.listed, carried.stood, carried.absent⟩
  · rintro ⟨listed, stood, absent⟩
    rcases done.settled c listed with member | missing | present | long
    · exact member
    · exact absurd missing stood
    · exact absurd absent present
    · exact absurd (callable c listed stood) long

theorem Site.Done.look_destination (done : s.Done d new note carried e)
    (hollow : ∀ r rest, new r = none → new (r ++ rest) = none)
    (callable : ∀ c ∈ s.nested, d.look (s.destination ++ c) ≠ none →
      s.root.Callable (s.backupNames ++ c)) (r : List String) :
    e.look (s.destination ++ r)
      = overlay (fun r => d.look (s.destination ++ r)) new s.nested r := by
  have carried_iff := done.mem_carried callable
  by_cases covered : Covered carried r
  · obtain ⟨c, member, under⟩ := id covered
    rw [done.content.kept r covered, overlay_kept ((carried_iff c).mp member) under]
  have away : ∀ c ∈ takenOver (fun r => d.look (s.destination ++ r)) new s.nested, ¬ c <+: r :=
    fun c member under => covered ⟨c, (carried_iff c).mpr member, under⟩
  by_cases leads : new r = none ∧
      ∃ c ∈ takenOver (fun r => d.look (s.destination ++ r)) new s.nested, r <+: c
  · obtain ⟨absent, c, member, rest, rfl⟩ := leads
    rw [overlay_above away absent member (List.prefix_append r rest)]
    have listed := (carried_iff _).mpr member
    have further : rest ≠ [] := by
      rintro rfl
      exact covered ⟨_, listed, by simp⟩
    -- the tree that was carried over stands, and so do the directories above it
    have stands : e.look (s.destination ++ r ++ rest) ≠ none := by
      rw [List.append_assoc, done.content.kept _ ⟨_, listed, List.prefix_refl _⟩]
      exact (done.each _ listed).stood
    exact done.sound.above further stands
  · have beside : new r = none →
        ∀ c ∈ takenOver (fun r => d.look (s.destination ++ r)) new s.nested, ¬ r <+: c :=
      fun absent c member above => leads ⟨absent, c, member, above⟩
    rw [overlay_new away beside]
    rcases done.content.fresh r covered with same | ⟨absent, -, c, listed, ⟨rest, rfl⟩, -, stood⟩
    · exact same
    · have member : r ++ rest ∈ takenOver (fun r => d.look (s.destination ++ r)) new s.nested :=
        mem_takenOver.mpr ⟨listed, stood, hollow r rest absent⟩
      exact absurd (List.prefix_append r rest) (beside absent _ member)

/-- What a job that succeeds leaves: its content at the destination, nothing else changed outside
the directory of the program's state but for directories made above the destination, and nothing of
the job left in that directory. -/
structure Landed (job : Job) (top : DiskPath) (destination : Destination) (d e : Disk) : Prop where
  content : ∃ tree clock, job.backend.Yields job.pin tree ∧ ∀ r,
    e.look (top ++ destination.names ++ r)
      = overlay (fun r => d.look (top ++ destination.names ++ r))
          (withMarker tree (markerOf job clock)) job.nested r
  beside : ∀ p, ¬ top ++ [stateDirectory] <+: p → ¬ top ++ destination.names <+: p →
    e.look p = d.look p ∨
      (d.look p = none ∧ e.look p = some .dir ∧ Disk.Inside p (top ++ destination.names))
  staging : ∀ r, e.look (top ++ [stateDirectory, "staging", slotName job.pin.id] ++ r) = none
  backup : ∀ r, e.look (top ++ [stateDirectory, "backup", slotName job.pin.id] ++ r) = none
  journal : e.look (top ++ [stateDirectory, "backup", journalName (slotName job.pin.id)]) = none

/-- A job whose destination was a directory, or was missing with nothing in the way of clearing up,
leaves its content there and nothing beside it. -/
theorem materialize_lands (clear : job.Clear root top destination all w.disk)
    (confined : job.backend.Confined)
    (straightforward : (job.site root top destination).Straightforward job w)
    (stood : w.disk.look (top ++ destination.names) = some .dir ∨
      w.disk.look (top ++ destination.names) = none ∧
        (job.site root top destination).Clearable w.disk)
    (callable : ∀ c ∈ job.nested, w.disk.look (top ++ destination.names ++ c) ≠ none →
      root.Callable ([stateDirectory, "backup", slotName job.pin.id] ++ c))
    (succeeded : ((materialize root job).exec w).1 = .ok ()) :
    Landed job top destination w.disk ((materialize root job).exec w).2.disk := by
  have ready := clear.ready
  obtain ⟨steps, ran, -, ends⟩ :=
    ready.materialize_sweeps clear.hosts (.of_confined rfl confined) straightforward
  have answer : ((materialize (job.site root top destination).root job).exec w).1 = .ok () :=
    succeeded
  rw [answer] at ends
  obtain ⟨⟨⟨staged, carried, done⟩, cleared⟩, -⟩ := ends
  obtain ⟨gone, unnoted⟩ := cleared stood
  obtain ⟨⟨-, clock, marker⟩, tree, yields, same⟩ := ready.stagedTree_whole (.of_confined rfl confined) staged
  have whole : (job.site root top destination).stagedTree job w
      = withMarker tree (markerOf job clock) := by
    funext r
    by_cases here : r = [markerFile]
    · rw [here, marker, withMarker, if_pos rfl]
    · rw [same r here, withMarker, if_neg here]
  have content := done.look_destination
    (fun r rest none => ready.stagedTree_hollow (.of_confined rfl confined) none) callable
  rw [whole] at content
  exact ⟨⟨tree, clock, yields, content⟩, fun p outside away => done.toNear.beside ready outside away,
    fun r => done.sound.none_below done.emptied, fun r => done.sound.none_below gone, unnoted⟩

def roomyJob : Job where
  pin := ⟨"outer", "fake:", "r2", "a"⟩
  backend := .single "n" "new"
  destination := outerDestination.place (.ofText "root")
  nested := outerDestination.nestedIn [outerDestination, innerDestination]

theorem roomyJob_lands : Landed roomyJob ["root"] outerDestination nestedDisk
    ((materialize (.ofText "root") roomyJob).exec { disk := nestedDisk }).2.disk := by
  have clear : roomyJob.Clear (.ofText "root") ["root"] outerDestination
      [outerDestination, innerDestination] nestedDisk :=
    ⟨by decide, .of_segments (by decide) (by decide) (by decide) (by decide), rfl, rfl,
      by decide +kernel, by decide, by decide +kernel⟩
  have callable : ∀ c ∈ roomyJob.nested, (Location.ofText "root").Callable
      ([stateDirectory, "backup", slotName roomyJob.pin.id] ++ c) := by
    unfold Location.Callable
    decide +kernel
  have straightforward : (roomyJob.site (.ofText "root") ["root"] outerDestination).Straightforward
      roomyJob { disk := nestedDisk } :=
    clear.ready.straightforward (.of_confined rfl (Backend.single_confined (by decide)))
      fun _ => Backend.single_linkless (by decide)
  have stood : nestedDisk.look (["root"] ++ outerDestination.names) = some .dir := by decide
  have succeeded : ((materialize (.ofText "root") roomyJob).exec { disk := nestedDisk }).1
      = .ok () := by decide +kernel
  exact materialize_lands clear (Backend.single_confined (by decide)) straightforward (.inl stood)
    (fun c member _ => callable c member) succeeded

end PinnedTree.Transaction
