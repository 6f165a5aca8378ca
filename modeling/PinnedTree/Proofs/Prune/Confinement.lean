import PinnedTree.Proofs.Prune.Exactness
import PinnedTree.Proofs.Sync.Confinement

namespace PinnedTree.Prune

open PinnedTree.Action

variable {root : Location} {top q : DiskPath} {table : PinTable} {d e f locked : Disk} {w : World}
  {all rest : List Candidate} {state : RunState} {dryRun : Bool} {id : String}
  {destination : Destination}

theorem owns_of_part (part : e.Part d) {l : Location} (owned : owns e l id = true) :
    owns d l id = true := by
  obtain ⟨marker, ⟨stands, read⟩, same⟩ := owns_iff.mp owned
  exact owns_iff.mpr ⟨marker, ⟨part.linkStat stands, part.marker read⟩, same⟩

/-- A candidate's destination, at which a directory stands without a link on the way. -/
structure Reachable (top : DiskPath) (all : List Candidate) (d : Disk) (destination : Destination) :
    Prop where
  listed : ∃ id, ⟨id, some destination⟩ ∈ all
  clear : d.Clear top destination.names
  isDir : d.look (top ++ destination.names) = some .dir

def Thinned (top : DiskPath) (all : List Candidate) (d e : Disk) : Prop :=
  ∀ q, e.look q = d.look q ∨
    (e.look q = none ∧ ∃ destination, Reachable top all d destination ∧ top ++ destination.names <+: q)

theorem Thinned.refl (top : DiskPath) (all : List Candidate) (d : Disk) : Thinned top all d d :=
  fun _ => .inl rfl

theorem Thinned.pruned (thinned : Thinned top all d e) (reachable : Reachable top all d destination)
    (pruned : e.Pruned f (top ++ destination.names)) : Thinned top all d f := by
  intro q
  rcases pruned q with same | ⟨under, gone⟩
  · rw [same]
    exact thinned q
  · exact .inr ⟨gone, destination, reachable, under⟩

theorem Thinned.part (thinned : Thinned top all d e) (home : e.home = d.home) : e.Part d where
  home := home
  found q node stands := by
    rcases thinned q with same | ⟨gone, -⟩
    · exact same.symm.trans stands
    · cases gone.symm.trans stands

theorem inside_of_under (under : top ++ destination.names <+: q) : Disk.Inside top q := by
  obtain ⟨rest, rfl⟩ := under
  rw [List.append_assoc, Disk.inside_append]
  simp [destination.nonempty]

theorem Thinned.confined (thinned : Thinned top all d e) : Sync.Confined top d e := by
  intro q outside
  rcases thinned q with same | ⟨-, destination, -, under⟩
  · exact same
  · exact absurd (inside_of_under under) outside

theorem Thinned.rooted (thinned : Thinned top all d e) (home : e.home = d.home)
    (rooted : d.Rooted root top) : e.Rooted root top := rooted.congr home thinned.confined

def Unlinked (root : Location) (top : DiskPath) (all : List Candidate) (d : Disk) : Prop :=
  ∀ id destination, ⟨id, some destination⟩ ∈ all →
    d.Clear top destination.names ∨ owns d (destination.place root) id = false

theorem judge_thins (unlinked : Unlinked root top all locked)
    (listed : ⟨id, some destination⟩ ∈ all) (sound : w.disk.Sound)
    (rooted : locked.Rooted root top) (home : w.disk.home = locked.home)
    (thinned : Thinned top all locked w.disk) :
    (judge root table dryRun id destination).Ensures (Thinned top all locked)
      (fun _ e => Thinned top all locked e) w := by
  unfold judge
  split
  · exact ensures_pure thinned thinned
  unfold remove
  refine ensures_observe_bind ?_
  cases owned : owns w.disk (destination.place root) id with
  | false => exact ensures_pure thinned thinned
  | true =>
    have part := thinned.part home
    have clear : locked.Clear top destination.names := by
      rcases unlinked id destination listed with clear | foreign
      · exact clear
      · cases foreign.symm.trans (owns_of_part part owned)
    have straight : w.disk.Straight root top destination.names :=
      ⟨thinned.rooted home rooted, destination.plain, destination.nonempty,
        fun r under other => part.no_link (clear r under other)⟩
    obtain ⟨-, ⟨stands, -⟩, -⟩ := owns_iff.mp owned
    have isDir := part.found _ _ ((straight.linkStat_ok sound _).mp stands).2
    have reachable : Reachable top all locked destination := ⟨⟨id, listed⟩, clear, isDir⟩
    cases dryRun with
    | true => exact ensures_pure thinned thinned
    | false =>
      have removal : (Files.removeAll (destination.place root)).Ensures
          (Thinned top all locked) (fun _ e => Thinned top all locked e) w :=
        ((Files.removeAll_ensures straight sound).weaken fun _ => thinned.pruned reachable).mono
          fun _ _ holds => thinned.pruned reachable holds.1
      have reported : (reporting (SyncError.state (destination.place root).text)
          (Files.removeAll (destination.place root))).Ensures (Thinned top all locked)
          (fun _ e => Thinned top all locked e) w := Ensures.reporting removal
      refine reported.bind ?_ fun _ _ after => after
      rintro ⟨⟩ w₁ after
      exact ensures_pure after after

theorem handle_thins (unlinked : Unlinked root top all locked) (subset : ∀ c ∈ rest, c ∈ all)
    (sound : w.disk.Sound) (rooted : locked.Rooted root top) (home : w.disk.home = locked.home)
    (thinned : Thinned top all locked w.disk) :
    (handle root table dryRun state rest).Ensures (Thinned top all locked)
      (fun _ e => Thinned top all locked e) w := by
  induction rest generalizing state w with
  | nil => exact ensures_pure thinned thinned
  | cons candidate rest ih =>
    have later := fun c member => subset c (List.mem_cons_of_mem _ member)
    obtain ⟨id, _ | destination⟩ := candidate
    · exact ih later sound home thinned
    · rw [handle_some]
      have judged : (judge root table dryRun id destination).Ensures (Thinned top all locked)
          (fun _ e => Thinned top all locked e) w :=
        judge_thins unlinked (subset _ List.mem_cons_self) sound rooted home thinned
      refine judged.andThen sound ?_ fun _ _ _ _ after => after
      intro action w₁ sound₁ home₁ thinned₁
      refine (ih later sound₁ (home₁.trans home) thinned₁).bind ?_ fun _ _ after => after
      intro ended w₂ thinned₂
      exact ensures_pure thinned₂ thinned₂

/-- Nothing outside the root differs, and outside the program's own directory only what is gone at
and below recorded destinations without a link on the way. -/
structure Bounded (root : Location) (top : DiskPath) (table : PinTable) (d e : Disk) : Prop where
  confined : Sync.Confined top d e
  removed : ∀ q, ¬ top ++ [stateDirectory] <+: q → e.look q ≠ d.look q → e.look q = none ∧
    ∃ state, RunState.load d root = .ok state ∧
      ∃ destination, Reachable top (candidates state table) d destination ∧
        top ++ destination.names <+: q

theorem Bounded.of_housed (housed : Layout.Housed top d e) : Bounded root top table d e where
  confined := Sync.Confined.of_elsewhere housed.elsewhere
  removed q outside differs := absurd (housed.elsewhere q outside) differs

theorem Bounded.of_thinned (loaded : RunState.load d root = .ok state)
    (prepared : Layout.Prepared top d locked)
    (thinned : Thinned top (candidates state table) locked e) (housed : Layout.Housed top e f) :
    Bounded root top table d f where
  confined := (Sync.Confined.of_elsewhere prepared.housed.elsewhere).trans
    (thinned.confined.trans (.of_elsewhere housed.elsewhere))
  removed q outside differs := by
    rw [housed.elsewhere q outside] at differs ⊢
    rcases thinned q with same | ⟨gone, destination, ⟨listed, clear, isDir⟩, under⟩
    · exact absurd (same.trans (prepared.elsewhere outside)) differs
    refine ⟨gone, state, loaded, destination, ⟨listed, ?_, ?_⟩, under⟩
    · exact fun r above other target link => clear r above other target (prepared.stands link)
    · have apart : ¬ top ++ [stateDirectory] <+: top ++ destination.names := by
        simpa using @Layout.outside top destination []
      exact (prepared.elsewhere apart).symm.trans isDir

/-- A disk on which no link leads from a root to the program's own files, nor to the checkout of an
id that has left the table. -/
structure Passable (root : Location) (top : DiskPath) (table : PinTable) (d : Disk) : Prop where
  sited : Layout.Sited root top d
  unlinked : ∀ state, RunState.load d root = .ok state → ∀ e, Layout.Prepared top d e →
    Unlinked root top (candidates state table) e

theorem Plain.passable (plain : Plain root top table d) : Passable root top table d where
  sited := plain.sited
  unlinked state loaded _ prepared _ destination listed := .inl fun r under other =>
    prepared.no_link (plain.clear state loaded _ listed destination rfl r under other)

theorem run_bounded (passable : Passable root top table d)
    (prepared : Layout.Prepared top d w.disk) :
    (run root table dryRun).Ensures (Bounded root top table d)
      (fun _ e => Bounded root top table d e) w := by
  have now : Bounded root top table d w.disk := .of_housed prepared.housed
  have sited := prepared.sited passable.sited
  unfold run
  have asked : (query (RunState.load · root)).Ensures (Bounded root top table d)
      (fun r e => r = RunState.load w.disk root ∧ e = w.disk) w := ensures_query now ⟨rfl, rfl⟩
  refine asked.bind ?_ fun _ _ holds => holds.2 ▸ now
  rintro state w₁ ⟨found, same⟩
  have loaded : RunState.load d root = .ok state :=
    (prepared.load passable.sited).symm.trans found.symm
  have unlinked := passable.unlinked state loaded w.disk prepared
  have handled : (handle root table dryRun state (candidates state table)).Ensures
      (Thinned top (candidates state table) w.disk)
      (fun _ e => Thinned top (candidates state table) w.disk e) w₁ :=
    handle_thins unlinked (fun _ => id) (same ▸ sited.sound) sited.rooted (by rw [same])
      (same ▸ .refl _ _ _)
  refine ((handled.keeping (same ▸ sited.sound)).weaken fun e holds =>
    .of_thinned loaded prepared holds.1 (.refl holds.2.1)).bind ?_ fun _ e holds =>
      .of_thinned loaded prepared holds.1 (.refl holds.2.1)
  rintro ⟨entries, left⟩ w₂ ⟨thinned, sound, home⟩
  have after : ∀ e, Layout.Housed top w₂.disk e → Bounded root top table d e :=
    fun e => .of_thinned loaded prepared thinned
  cases dryRun with
  | true => exact ensures_pure (after _ (.refl sound)) (after _ (.refl sound))
  | false =>
    have home₂ : w₂.disk.home = w.disk.home := home.trans (by rw [same])
    have part := thinned.part home₂
    have sited₂ : Layout.Sited root top w₂.disk :=
      ⟨sound, thinned.rooted home₂ sited.rooted, part.no_link sited.directory,
        part.no_link sited.lock, part.no_link sited.record⟩
    refine (((Layout.save_ensures sited₂ left).weaken after).mono
      fun _ e holds => after e holds.1).bind ?_ fun _ _ ended => ended
    rintro ⟨⟩ w₃ ended
    exact ensures_pure ended ended

def interrupted (root : Location) (table : PinTable) (dryRun : Bool) (w : World) (count : Nat) :
    Disk :=
  Step.applyAll w.disk ((((prune root table dryRun).exec w).2.history.drop
    w.history.length).take count)

/-- At every moment of a run everything outside the root is as it was before, and what is missing
outside the program's own directory was at or below the recorded destination of an id that has left
the table, where a directory stood and no link on the way. -/
theorem prune_confined (passable : Passable root top table w.disk) (count : Nat) :
    Sync.Confined top w.disk (interrupted root table dryRun w count) ∧
      ∀ q, ¬ top ++ [stateDirectory] <+: q →
        (interrupted root table dryRun w count).look q ≠ w.disk.look q →
          (interrupted root table dryRun w count).look q = none ∧
            ∃ state, RunState.load w.disk root = .ok state ∧
              ∃ destination, Reachable top (candidates state table) w.disk destination ∧
                top ++ destination.names <+: q := by
  have sited := passable.sited
  have ensured : (prune root table dryRun).Ensures (Bounded root top table w.disk)
      (fun _ _ => True) w := by
    unfold prune
    split
    · exact (run_bounded passable (.refl sited.sound)).mono fun _ _ _ => trivial
    · have locked : (Layout.lock root).Ensures (Bounded root top table w.disk)
          (fun r e => r = .ok () → Layout.Prepared top w.disk e) w :=
        ((Layout.lock_ensures sited).weaken fun _ prepared => .of_housed prepared.housed).mono
          fun _ _ holds _ => holds.1
      have inside : ∀ w' : World, w'.disk.Sound → Layout.Prepared top w.disk w'.disk →
          (run root table false).Ensures (Bounded root top table w.disk)
            (fun r _ => ∀ a, r = .ok a → True) w' := fun w' _ prepared =>
        (run_bounded passable prepared).mono fun _ _ _ _ _ => trivial
      exact (Layout.whileLocked_ensures locked sited.sound fun w₁ _ => inside w₁).mono fun _ _ _ => trivial
  exact ⟨(ensured.cut count).confined, (ensured.cut count).removed⟩

theorem shared_confined : Sync.Confined ["root"] sharedDisk
    (interrupted (.ofText "root") ⟨[]⟩ false { disk := sharedDisk } 4) :=
  (prune_confined (w := { disk := sharedDisk }) shared_plain.passable 4).1

def escapeDisk : Disk where
  home := []
  nodes := [(["root"], .dir), (["root", ".depsync"], .dir),
    (["root", ".depsync", "state.toml"], .file (recordOf "l/c").text.toUTF8 0o644),
    (["root", "l"], .link "../out"), (["out"], .dir), (["out", "c"], .dir),
    (["out", "c", ".depsync.json"], markerNode "gone")]
  distinct := by decide

theorem escape_unconfined :
    escapeDisk.look ["out", "c"] = some .dir ∧
      (emptied "root" escapeDisk).2.disk.look ["out", "c"] = none := by
  decide +kernel

end PinnedTree.Prune
