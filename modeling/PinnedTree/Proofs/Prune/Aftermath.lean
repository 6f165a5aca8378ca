import PinnedTree.Proofs.Prune.Confinement
import PinnedTree.Proofs.Sync.Standing

namespace PinnedTree.Prune

open PinnedTree.Action

variable {root : Location} {top : DiskPath} {table : PinTable} {d e f : Disk} {w : World}
  {state : RunState} {candidates : List Candidate} {id : String} {destination : Destination}

/-- A destination that is recorded under an id that has left the table, and not in use. -/
def Doomed (root : Location) (table : PinTable) (d : Disk) (destination : Destination) : Prop :=
  inUse table destination = false ∧ ∃ state, RunState.load d root = .ok state ∧
    ∃ id, ⟨id, some destination⟩ ∈ Prune.candidates state table

/-- What a run leaves if it is cut off: the disk between two of its steps, or a disk on which any
part of the tree that is being removed is gone, the content of a directory before itself. -/
inductive CutOff (root : Location) (table : PinTable) (w : World) : Disk → Prop
  | between (count : Nat) : CutOff root table w (interrupted root table false w count)
  | amid {w₁ w₂ : World} {state left : RunState} {before after : List Candidate}
    {entries : List PrunedEntry} {id : String} {destination : Destination} {path : DiskPath}
    {e : Disk} (locked : (Layout.lock root).exec w = (.ok (), w₁))
    (loaded : RunState.load w₁.disk root = .ok state)
    (next : Prune.candidates state table = before ++ ⟨id, some destination⟩ :: after)
    (handled : (handle root table false state before).exec w₁ = (.ok (entries, left), w₂))
    (unused : inUse table destination = false)
    (owned : owns w₂.disk (destination.place root) id = true)
    (found : w₂.disk.resolve false (destination.place root) = .ok (.taken path .dir))
    (sound : e.Sound) (home : e.home = w₂.disk.home) (pruned : w₂.disk.Pruned e path) :
    CutOff root table w e

/-- Outside the program's own directory nothing differs but what is gone at and below doomed
destinations, and at most one of these is not gone whole. -/
structure Torn (root : Location) (top : DiskPath) (table : PinTable) (torn : Option Destination)
    (d e : Disk) : Prop where
  home : e.home = d.home
  doomed : ∀ destination ∈ torn, Doomed root table d destination
  look : ∀ q, ¬ top ++ [stateDirectory] <+: q → e.look q = d.look q ∨
    (e.look q = none ∧ ∃ destination, Doomed root table d destination ∧
      top ++ destination.names <+: q ∧
        (destination ∈ torn ∨ ∀ q', top ++ destination.names <+: q' → e.look q' = none))

theorem Torn.of_housed (housed : Layout.Housed top d e) : Torn root top table none d e where
  home := housed.home
  doomed := by simp
  look q outside := .inl (housed.elsewhere q outside)

theorem outside_of_under {q : DiskPath} (under : top ++ destination.names <+: q) :
    ¬ top ++ [stateDirectory] <+: q := by
  obtain ⟨rest, rfl⟩ := under
  rw [List.append_assoc]
  exact Layout.outside destination rest

theorem Torn.housed (torn : Torn root top table none d e) (housed : Layout.Housed top e f) :
    Torn root top table none d f where
  home := housed.home.trans torn.home
  doomed := torn.doomed
  look q outside := by
    rw [housed.elsewhere q outside]
    refine (torn.look q outside).imp_right ?_
    rintro ⟨gone, destination, doomed, under, impossible | whole⟩
    · cases impossible
    · exact ⟨gone, destination, doomed, under, .inr fun q' below =>
        (housed.elsewhere q' (outside_of_under below)).trans (whole q' below)⟩

theorem Torn.pruned (torn : Torn root top table none d e) (home : f.home = e.home)
    (doomed : Doomed root table d destination) (pruned : e.Pruned f (top ++ destination.names)) :
    Torn root top table (some destination) d f where
  home := home.trans torn.home
  doomed := by simpa using doomed
  look q outside := by
    have gone : ∀ q', e.look q' = none → f.look q' = none := fun q' free => by
      rcases pruned q' with same | ⟨-, gone⟩
      · exact same.trans free
      · exact gone
    rcases pruned q with same | ⟨under, none⟩
    · rw [same]
      refine (torn.look q outside).imp_right ?_
      rintro ⟨free, other, doomed', under, impossible | whole⟩
      · cases impossible
      · exact ⟨free, other, doomed', under, .inr fun q' below => gone q' (whole q' below)⟩
    · exact .inr ⟨none, destination, doomed, under, .inl rfl⟩

theorem Torn.finish (torn : Torn root top table (some destination) d e)
    (gone : ∀ q, top ++ destination.names <+: q → e.look q = none) :
    Torn root top table none d e where
  home := torn.home
  doomed := by simp
  look q outside := by
    refine (torn.look q outside).imp_right ?_
    rintro ⟨free, other, doomed, under, same | whole⟩
    · obtain rfl : destination = other := Option.some.inj same
      exact ⟨free, destination, doomed, under, .inr gone⟩
    · exact ⟨free, other, doomed, under, .inr whole⟩

theorem Torn.straight {torn : Option Destination} (tears : Torn root top table torn d e)
    (straight : d.Straight root top destination.names) :
    e.Straight root top destination.names where
  rooted := straight.rooted.congr tears.home fun q outside => by
    have beyond : ¬ top ++ [stateDirectory] <+: q := fun own =>
      outside (Layout.inside_of_own own)
    rcases tears.look q beyond with same | ⟨-, doomed, -, under, -⟩
    · exact same
    · exact absurd (inside_of_under under) outside
  plain := straight.plain
  inner := straight.inner
  clear r under other target link := by
    obtain ⟨rest, whole⟩ := under
    have beyond : ¬ top ++ [stateDirectory] <+: top ++ r := fun own => by
      have further : top ++ [stateDirectory] <+: top ++ (destination.names ++ []) :=
        own.trans (by simp [← whole])
      exact Layout.outside destination [] further
    rcases tears.look _ beyond with same | ⟨gone, -⟩
    · exact straight.clear r ⟨rest, whole⟩ other target (same.symm.trans link)
    · cases gone.symm.trans link

theorem judge_tears (torn : Torn root top table none d w.disk)
    (doomed : inUse table destination = false → Doomed root table d destination)
    (straight : d.Straight root top destination.names) (sound : w.disk.Sound) :
    (judge root table false id destination).Ensures (fun e => ∃ torn, Torn root top table torn d e)
      (fun r e => ∀ action, r = .ok action → Torn root top table none d e) w := by
  unfold judge
  cases used : inUse table destination with
  | true => exact ensures_pure ⟨none, torn⟩ fun _ _ => torn
  | false =>
    unfold remove
    refine ensures_observe_bind ?_
    cases owned : owns w.disk (destination.place root) id with
    | false => exact ensures_pure ⟨none, torn⟩ fun _ _ => torn
    | true =>
      have removal : (Files.removeAll (destination.place root)).Ensures
          (fun e => ∃ torn, Torn root top table torn d e)
          (fun r e => Torn root top table (some destination) d e ∧
            (r = .ok () → ∀ q, top ++ destination.names <+: q → e.look q = none)) w :=
        (((Files.removeAll_ensures (torn.straight straight) sound).keeping sound).weaken
          fun _ holds => ⟨_, torn.pruned holds.2.2 (doomed used) holds.1⟩).mono
          fun _ _ holds => ⟨torn.pruned holds.2.2 (doomed used) holds.1.1, holds.1.2⟩
      have reported := Ensures.reported (f := SyncError.state (destination.place root).text) removal
      refine reported.bind ?_ (by simp)
      rintro ⟨⟩ w₁ ⟨after, gone⟩
      have done := after.finish (gone rfl)
      exact ensures_pure ⟨none, done⟩ fun _ _ => done

theorem handle_tears (torn : Torn root top table none d w.disk)
    (doomed : ∀ id destination, ⟨id, some destination⟩ ∈ candidates →
      inUse table destination = false → Doomed root table d destination)
    (straight : ∀ id destination, ⟨id, some destination⟩ ∈ candidates →
      d.Straight root top destination.names) (sound : w.disk.Sound) :
    (handle root table false state candidates).Ensures
      (fun e => ∃ torn, Torn root top table torn d e)
      (fun r e => ∀ ended, r = .ok ended → Torn root top table none d e) w := by
  induction candidates generalizing state w with
  | nil => exact ensures_pure ⟨none, torn⟩ fun _ _ => torn
  | cons candidate rest ih =>
    have doomed' := fun id destination member =>
      doomed id destination (List.mem_cons_of_mem _ member)
    have straight' := fun id destination member =>
      straight id destination (List.mem_cons_of_mem _ member)
    obtain ⟨id, _ | destination⟩ := candidate
    · exact ih torn doomed' straight' sound
    · rw [handle_some]
      refine (judge_tears torn (doomed id destination List.mem_cons_self)
        (straight id destination List.mem_cons_self) sound).andThen sound ?_ fun _ _ _ _ _ => by simp
      intro action w₁ sound₁ _ after
      refine (ih (after action rfl) doomed' straight' sound₁).bind ?_ (by simp)
      intro ended w₂ after
      exact ensures_pure ⟨none, after ended rfl⟩ fun _ _ => after ended rfl

theorem doomed_of_listed (loaded : RunState.load d root = .ok state) (id : String)
    (destination : Destination) (listed : ⟨id, some destination⟩ ∈ Prune.candidates state table)
    (unused : inUse table destination = false) : Doomed root table d destination :=
  ⟨unused, state, loaded, id, listed⟩

theorem run_tears (plain : Plain root top table d) (prepared : Layout.Prepared top d w.disk) :
    (run root table false).Ensures (fun e => ∃ torn, Torn root top table torn d e)
      (fun _ _ => True) w := by
  have torn : Torn root top table none d w.disk := .of_housed prepared.housed
  unfold run
  have asked : (query (RunState.load · root)).Ensures (fun e => ∃ torn, Torn root top table torn d e)
      (fun r e => r = RunState.load w.disk root ∧ e = w.disk) w := ensures_query ⟨none, torn⟩ ⟨rfl, rfl⟩
  refine asked.bind ?_ (by simp)
  rintro state w₁ ⟨found, same⟩
  have loaded : RunState.load d root = .ok state :=
    (plain.load_locked prepared).symm.trans found.symm
  have sound₁ : w₁.disk.Sound := same ▸ prepared.sound
  have handled : (handle root table false state (Prune.candidates state table)).Ensures
      (fun e => ∃ torn, Torn root top table torn d e) _ w₁ :=
    handle_tears (same ▸ torn) (doomed_of_listed loaded)
      (fun _ _ listed => plain.straight loaded listed) sound₁
  have sited := prepared.sited plain.sited
  have thins : (handle root table false state (Prune.candidates state table)).Ensures _
      (fun _ e => Thinned top (Prune.candidates state table) w.disk e) w₁ :=
    handle_thins (plain.passable.unlinked state loaded w.disk prepared) (fun _ => id) sound₁
      sited.rooted (by rw [same]) (same ▸ .refl _ _ _)
  refine (handled.also thins).andThen sound₁ ?_ fun _ _ _ _ _ => trivial
  rintro ⟨entries, left⟩ w₂ sound₂ home₂ ⟨after, thinned⟩
  have home : w₂.disk.home = w.disk.home := home₂.trans (by rw [same])
  have part := thinned.part home
  have sited₂ : Layout.Sited root top w₂.disk :=
    ⟨sound₂, thinned.rooted home sited.rooted, part.no_link sited.directory,
      part.no_link sited.lock, part.no_link sited.record⟩
  have saved := (Layout.save_ensures sited₂ left).weaken fun e housed =>
    (⟨none, (after _ rfl).housed housed⟩ : ∃ torn, Torn root top table torn d e)
  refine saved.bind ?_ fun _ _ _ => trivial
  rintro ⟨⟩ w₃ ⟨housed, -⟩
  exact ensures_pure ⟨none, (after _ rfl).housed housed⟩ trivial

theorem CutOff.torn (cut : CutOff root table w e) (plain : Plain root top table w.disk) :
    ∃ torn, Torn root top table torn w.disk e := by
  have locked := Layout.lock_ensures plain.sited
  cases cut with
  | between count =>
    have ensured : (prune root table false).Ensures
        (fun e => ∃ torn, Torn root top table torn w.disk e) (fun _ _ => True) w := by
      have taken : (Layout.lock root).Ensures (fun e => ∃ torn, Torn root top table torn w.disk e)
          (fun r e => r = .ok () → Layout.Prepared top w.disk e) w :=
        (locked.weaken fun _ prepared => ⟨none, .of_housed prepared.housed⟩).mono
          fun _ _ holds _ => holds.1
      have inside : ∀ w' : World, w'.disk.Sound → Layout.Prepared top w.disk w'.disk →
          (run root table false).Ensures (fun e => ∃ torn, Torn root top table torn w.disk e)
            (fun r _ => ∀ a, r = .ok a → True) w' := fun w' _ prepared =>
        (run_tears plain prepared).mono fun _ _ _ _ _ => trivial
      rw [prune, if_neg (by simp)]
      exact (Layout.whileLocked_ensures taken plain.sited.sound fun w₁ _ => inside w₁).mono fun _ _ _ => trivial
    exact ensured.cut count
  | amid taken loaded next handled unused owned found sound home pruned =>
    rename_i w₁ w₂ state left before after entries id destination path
    have prepared : Layout.Prepared top w.disk w₁.disk := by
      have ends := locked.ends
      rw [taken] at ends
      exact ends.1
    have loaded : RunState.load w.disk root = .ok state :=
      (plain.load_locked prepared).symm.trans loaded
    have listed : ∀ id destination, ⟨id, some destination⟩ ∈ before →
        ⟨id, some destination⟩ ∈ Prune.candidates state table := fun id destination member => by
      rw [next]
      exact List.mem_append_left _ member
    have torn : Torn root top table none w.disk w₂.disk := by
      have tears : (handle root table false state before).Ensures _ _ w₁ :=
        handle_tears (.of_housed prepared.housed)
          (fun id destination member => doomed_of_listed loaded id destination (listed _ _ member))
          (fun id destination member => plain.straight loaded (listed _ _ member)) prepared.sound
      have ends := tears.ends
      rw [handled] at ends
      exact ends _ rfl
    have here : ⟨id, some destination⟩ ∈ Prune.candidates state table := by
      simp [next]
    have straight := torn.straight (plain.straight loaded here)
    obtain ⟨-, -, place⟩ := (straight.resolve _).mp found
    obtain rfl : path = top ++ destination.names := by
      unfold Disk.placeAt at place
      split at place
      · exact (Place.taken.inj place).1
      · cases place
    exact ⟨some destination, torn.pruned home (doomed_of_listed loaded id destination here unused)
      pruned⟩

/-- A tree whose marker is left is left whole, unless it is the torn one or lies inside it, and apart
from what was to be removed inside it. -/
theorem Torn.signed {torn : Option Destination} {kept : PlacedPin}
    (tears : Torn root top table torn d e) (signed : Sync.Signed kept top e)
    (apart : ∀ destination ∈ torn, ¬ destination.names <+: kept.destination.names)
    (r : List String) : e.look (top ++ (kept.destination.names ++ r))
        = d.look (top ++ (kept.destination.names ++ r)) ∨
      ∃ inner, Doomed root table d inner ∧
        Disk.Inside kept.destination.names inner.names ∧
        inner.names <+: kept.destination.names ++ r := by
  refine (tears.look _ (Layout.outside kept.destination r)).imp_right ?_
  rintro ⟨-, inner, doomed, under, whole⟩
  have below := (List.prefix_append_right_inj top).mp under
  have beside : ¬ inner.names <+: kept.destination.names := fun outer => by
    rcases whole with torn | gone
    · exact apart inner torn outer
    · obtain ⟨node, -, stands⟩ := signed
      have free := gone (top ++ (kept.destination.names ++ [markerFile]))
        ((List.prefix_append_right_inj top).mpr (outer.trans (List.prefix_append _ _)))
      cases free.symm.trans stands
  refine ⟨inner, doomed, ⟨?_, fun same => beside (same ▸ List.prefix_refl _)⟩, below⟩
  exact (List.prefix_or_prefix_of_prefix below (List.prefix_append _ r)).resolve_left beside

/-- When a run was cut off at any point, whatever a later run reports as current has all that stood
there before, but for what was to be removed inside it and other pins inside it, unless it lies at or
inside the one tree that was just being removed. -/
theorem cutOff_current {later : PinTable} {options : SyncOptions} {backends : List Backend}
    {observer : Observer} {placed : List PlacedPin} {w' : World} {report : SyncReport}
    (plain : Plain root top table w.disk) (cut : CutOff root table w w'.disk)
    (setting : Sync.Setting root later options backends observer top placed w')
    (pooled : ∀ groups, Groups.Interleaves groups (options.schedule groups))
    (unsigned : ∀ kept ∈ placed, ∀ visit ∈ Sync.journey root later options backends observer w',
      ∀ new ∈ visit.brought root top, Sync.Unsigned kept visit.pin.toPlacedPin new)
    (reported : ((sync root later options backends observer).exec w').1 = .ok report) :
    ∃ torn : Option Destination, (∀ destination ∈ torn, Doomed root table w.disk destination) ∧
      ∀ kept ∈ placed, (∀ destination ∈ torn, ¬ destination.names <+: kept.destination.names) →
        ∀ row ∈ report.entries, row.id = kept.pin.id → row.outcome = .alreadyCurrent →
          ∀ r node, w.disk.look (top ++ (kept.destination.names ++ r)) = some node →
            ((sync root later options backends observer).exec w').2.disk.look
                (top ++ (kept.destination.names ++ r)) = some node ∨
              kept.Yielded placed report.entries r ∨
              ∃ inner, Doomed root table w.disk inner ∧
                Disk.Inside kept.destination.names inner.names ∧
                inner.names <+: kept.destination.names ++ r := by
  obtain ⟨torn, tears⟩ := cut.torn plain
  refine ⟨torn, tears.doomed, ?_⟩
  intro kept listed apart row among id current r node stood
  obtain ⟨signed, spared⟩ := Sync.sync_attends setting pooled (unsigned kept listed) listed reported
    among id current
  rcases tears.signed signed apart r with left | removed
  · rcases spared r with same | yielded | ⟨free, -⟩
    · exact .inl (same.trans (left.trans stood))
    · exact .inr (.inl yielded)
    · cases free.symm.trans (left.trans stood)
  · exact .inr (.inr removed)

def wholeDisk : Disk where
  home := []
  nodes := [(["root"], .dir), (["root", ".depsync"], .dir),
    (["root", ".depsync", "staging"], .dir), (["root", ".depsync", "backup"], .dir),
    (["root", ".depsync", "state.toml"], .file pairedState.text.toUTF8 0o644),
    (["root", "a"], .dir), (["root", "a", "new"], .file "content".toUTF8 0o644),
    (["root", "a", ".depsync.json"], markerNode "gone"),
    (["root", "b"], .dir), (["root", "b", "new"], .file "content".toUTF8 0o644),
    (["root", "b", ".depsync.json"], markerNode "other")]
  distinct := by decide +kernel

def otherPin : PlacedPin :=
  ⟨⟨"other", "fake:", "r1", "b"⟩, otherDestination, .single "new" "content"⟩

def gonePin : PlacedPin :=
  ⟨⟨"gone", "fake:", "r1", "a"⟩, Transaction.outerDestination, .single "new" "content"⟩

def begunWorld : World := ((Layout.lock (.ofText "root")).exec { disk := wholeDisk }).2

def tornDisk : Disk := begunWorld.disk.erase ["root", "a", "new"]

theorem candidates_torn : Prune.candidates pairedState ⟨[otherPin.pin]⟩
    = [⟨"gone", some Transaction.outerDestination⟩] := by
  have recorded : (pairedState.records.filter fun record =>
      !PinTable.contains ⟨[otherPin.pin]⟩ record.1).map
      (fun record => (⟨record.1, (PlacedPin.destinationOf record.1 record.2.path).toOption⟩ :
        Candidate)) = [⟨"gone", some Transaction.outerDestination⟩] := by
    decide +kernel
  unfold Prune.candidates
  rw [recorded]
  exact List.mergeSort_singleton _

theorem load_whole : RunState.load wholeDisk (.ofText "root") = .ok pairedState :=
  RunState.load_of_stat 0o644 (by decide +kernel) (by decide)

theorem tornDisk_cutOff :
    CutOff (.ofText "root") ⟨[otherPin.pin]⟩ { disk := wholeDisk } tornDisk := by
  have locked : (Layout.lock (.ofText "root")).exec { disk := wholeDisk } = (.ok (), begunWorld) :=
    Prod.fst_eq_iff.mp (by decide +kernel)
  have stat : begunWorld.disk.stat (Layout.stateFile (.ofText "root"))
      = .ok (.file pairedState.text.toUTF8 0o644) := by decide +kernel
  have found : begunWorld.disk.resolve false
      (Transaction.outerDestination.place (.ofText "root")) = .ok (.taken ["root", "a"] .dir) := by
    decide +kernel
  have next : Prune.candidates pairedState ⟨[otherPin.pin]⟩
      = [] ++ ⟨"gone", some Transaction.outerDestination⟩ :: [] := candidates_torn
  refine .amid locked (RunState.load_of_stat _ stat (by decide)) next rfl
    (by decide +kernel) (by decide +kernel) found (by decide +kernel) rfl fun q => ?_
  rw [tornDisk, Disk.look_erase (by simp)]
  by_cases here : q = ["root", "a", "new"]
  · exact .inr ⟨by simp [here], by simp [here]⟩
  · exact .inl (by simp [here])

theorem wholeDisk_plain : Plain (.ofText "root") ["root"] ⟨[otherPin.pin]⟩ wholeDisk := by
  refine .of_check ⟨by decide +kernel, .of_segments ?_ ?_ ?_ ?_, ?_, ?_, ?_⟩ (by decide +kernel)
  · decide
  · decide
  · decide
  · decide +kernel
  · exact Disk.linkless_iff.mp (by decide +kernel)
  · exact Disk.linkless_iff.mp (by decide +kernel)
  · exact Disk.linkless_iff.mp (by decide +kernel)

theorem tornDisk_grounds :
    Sync.Grounds (.ofText "root") ["root"] ([gonePin, otherPin].map (·.destination)) tornDisk :=
  .of_listing (by decide +kernel)
    (.of_segments (by decide +kernel) (by decide) (by decide) (by decide +kernel))
    (by decide +kernel) (by decide +kernel) (by decide +kernel)

def returned : Except SyncError SyncReport × World :=
  (sync (.ofText "root") ⟨[gonePin.pin, otherPin.pin]⟩ {} [.single "new" "content"]
    Sync.noObserver).exec { disk := tornDisk }

def returnedReport : SyncReport :=
  ⟨false, [⟨"gone", "a", "r1", "single", .alreadyCurrent⟩,
    ⟨"other", "b", "r1", "single", .alreadyCurrent⟩]⟩

theorem returned_ran : ∃ w', returned = (.ok returnedReport, w') ∧
    (∀ visit ∈ Sync.journey (.ofText "root") ⟨[gonePin.pin, otherPin.pin]⟩ {}
      [.single "new" "content"] Sync.noObserver { disk := tornDisk },
        visit.Brings (.ofText "root") ["root"] []) ∧
    w'.disk.look ["root", "a", "new"] = none :=
  Sync.exec_sync (P := fun visits w' =>
    (∀ visit ∈ visits, visit.Brings (.ofText "root") ["root"] []) ∧
      w'.disk.look ["root", "a", "new"] = none)
    (by decide) rfl (by decide +kernel) (.refl _) (by decide +kernel)

theorem tornDisk_setting : Sync.Setting (.ofText "root") ⟨[gonePin.pin, otherPin.pin]⟩ {}
    [.single "new" "content"] Sync.noObserver ["root"] [gonePin, otherPin] { disk := tornDisk } where
  valid := rfl
  grounds := tornDisk_grounds
  supplied := by
    obtain ⟨_, -, brings, -⟩ := returned_ran
    exact .of_brings (by simp [Backend.single_housed (show IsName "new" by decide)]) brings
  passive _ _ := ⟨rfl, rfl⟩

theorem doomed_torn {destination : Destination}
    (doomed : Doomed (.ofText "root") ⟨[otherPin.pin]⟩ wholeDisk destination) :
    destination = Transaction.outerDestination := by
  obtain ⟨-, state, loaded, id, listed⟩ := doomed
  cases load_whole.symm.trans loaded
  rw [candidates_torn, List.mem_singleton] at listed
  exact Option.some.inj (congrArg Candidate.destination listed)

/-- A run after the cut reports the other pin as current, and it has all that it had. -/
theorem tornDisk_current :
    ⟨"other", "b", "r1", "single", .alreadyCurrent⟩ ∈ returnedReport.entries ∧
      ∀ r node, wholeDisk.look (["root"] ++ (["b"] ++ r)) = some node →
        returned.2.disk.look (["root"] ++ (["b"] ++ r)) = some node := by
  obtain ⟨w', ran, brings, -⟩ := returned_ran
  obtain ⟨torn, doomed, holds⟩ := cutOff_current (w := { disk := wholeDisk }) wholeDisk_plain
    tornDisk_cutOff tornDisk_setting Groups.interleaves_flatten
    (fun _ _ visit member new brought rest _ _ => by
      cases stands : new (rest ++ [markerFile]) with
      | none => rfl
      | some node => cases ((brings visit member).mem brought stands).1)
    (congrArg Prod.fst ran)
  have apart : ∀ destination ∈ torn, ¬ destination.names <+: otherPin.destination.names := by
    intro destination among
    obtain rfl := doomed_torn (doomed destination among)
    decide
  refine ⟨by decide, fun r node stood => ?_⟩
  rcases holds otherPin (by simp) apart _ (List.mem_cons_of_mem _ (List.mem_singleton_self _)) rfl rfl
    r node stood with same | ⟨inner, listed, inside, -⟩ | ⟨inner, gone, inside, -⟩
  · exact same
  · simp only [List.mem_cons, List.not_mem_nil, or_false] at listed
    rcases listed with rfl | rfl
    · exact absurd inside (by decide)
    · exact absurd rfl inside.2
  · obtain rfl := doomed_torn gone
    exact absurd inside (by decide)

theorem tornDisk_faked : returned.1 = .ok returnedReport ∧
    wholeDisk.look ["root", "a", "new"] ≠ none ∧ returned.2.disk.look ["root", "a", "new"] = none := by
  obtain ⟨w', ran, -, gone⟩ := returned_ran
  rw [ran]
  exact ⟨rfl, by decide, gone⟩

end PinnedTree.Prune
