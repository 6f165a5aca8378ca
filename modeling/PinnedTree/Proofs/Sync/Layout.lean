import PinnedTree.Proofs.Layout
import PinnedTree.Proofs.Sync.Order

namespace PinnedTree.Sync.Terrain

open PinnedTree.Action Transaction

variable {t : Terrain} {d e f : Disk} {w : World} {name : String}

def own (t : Terrain) (name : String) : DiskPath := t.top ++ [stateDirectory, name]

theorem own_inside (t : Terrain) (name : String) (r : DiskPath) :
    t.top ++ [stateDirectory] <+: t.own name ++ r :=
  ⟨name :: r, by simp [own]⟩

/-- Directories and files are there for the program's own state, and all else is as before. -/
structure Furnished (t : Terrain) (d e : Disk) : Prop where
  orderly : t.Orderly e
  home : e.home = d.home
  elsewhere : ∀ q, ¬ t.top ++ [stateDirectory] <+: q → e.look q = d.look q
  rooms : ∀ room ∈ ["staging", "backup"], ∀ q, Disk.Inside (t.own room) q → e.look q = d.look q

theorem Furnished.refl (orderly : t.Orderly d) : t.Furnished d d :=
  ⟨orderly, rfl, fun _ _ => rfl, fun _ _ _ _ => rfl⟩

theorem Furnished.trans (first : t.Furnished d e) (second : t.Furnished e f) : t.Furnished d f where
  orderly := second.orderly
  home := second.home.trans first.home
  elsewhere q outside := (second.elsewhere q outside).trans (first.elsewhere q outside)
  rooms room listed q inside :=
    (second.rooms room listed q inside).trans (first.rooms room listed q inside)

/-- Order is kept by what changes only the directory of the program's state, if the rooms stay as
they are and no link comes in. -/
theorem Orderly.furnished (orderly : t.Orderly d) (sound : e.Sound) (home : e.home = d.home)
    (elsewhere : ∀ q, ¬ t.top ++ [stateDirectory] <+: q → e.look q = d.look q)
    (plain : ∀ q target, e.look q = some (.link target) → d.look q = some (.link target))
    (rooms : ∀ room ∈ ["staging", "backup"], ∀ q, Disk.Inside (t.own room) q → e.look q = d.look q) :
    t.Furnished d e := by
  have noLink : ∀ q, (∀ target, d.look q ≠ some (.link target)) →
      ∀ target, e.look q ≠ some (.link target) := fun q free target link =>
    free target (plain q target link)
  have backup : ∀ name, e.look (t.top ++ [stateDirectory, "backup", name])
      = d.look (t.top ++ [stateDirectory, "backup", name]) := fun name =>
    rooms "backup" (by simp) _ (by simp [Disk.Inside, own, List.prefix_append_right_inj])
  refine ⟨⟨⟨sound, ?_, ?_, ?_, ?_, ?_⟩, ?_⟩, home, elsewhere, rooms⟩
  · refine orderly.rooted.congr home fun q outside => elsewhere q fun inside => outside ?_
    refine ⟨(List.prefix_append _ _).trans inside, ?_⟩
    rintro rfl
    have longer := inside.length_le
    simp only [List.length_append, List.length_singleton] at longer
    omega
  · exact fun inner listed r under other => noLink _ (orderly.clear inner listed r under other)
  · exact fun names own => noLink _ (orderly.own names own)
  · exact fun q inside => (rooms "staging" (by simp) q inside).trans (orderly.staging q inside)
  · intro name
    rw [backup]
    exact orderly.backup name
  · exact fun p member => noLink _ (orderly.plain p member)

theorem Orderly.straight_room (orderly : t.Orderly d) (plain : IsName name) :
    d.Straight t.root t.top [stateDirectory, name] where
  rooted := orderly.rooted
  plain := by simp [Site.stateDirectory_isName, plain]
  inner := by simp
  clear r under other target := by
    rcases r with - | ⟨first, - | ⟨second, rest⟩⟩
    · simp [orderly.rooted.isDir]
    · obtain ⟨rfl, -⟩ := List.cons_prefix_cons.mp under
      exact orderly.own _ (by simp) target
    · exact absurd (under.eq_of_length_le (by simp)) other

theorem Orderly.written (orderly : t.Orderly d) (notStaging : name ≠ "staging")
    (notBackup : name ≠ "backup") (sound : e.Sound) (home : e.home = d.home)
    (same : ∀ q, q ≠ t.own name → e.look q = d.look q)
    (file : e.look (t.own name) = d.look (t.own name) ∨
      ∃ c m, e.look (t.own name) = some (.file c m)) : t.Furnished d e := by
  refine orderly.furnished sound home ?_ ?_ ?_
  · intro q outside
    refine same q ?_
    rintro rfl
    exact outside (by simpa using t.own_inside name [])
  · intro q target link
    by_cases here : q = t.own name
    · subst here
      rcases file with still | ⟨c, m, file⟩
      · rw [← still, link]
      · rw [file] at link
        cases link
    · rw [← same q here, link]
  · intro room listed q inside
    refine same q ?_
    rintro rfl
    have within := (List.prefix_append_right_inj t.top).mp inside.1
    simp only [List.cons_prefix_cons, List.nil_prefix, true_and, and_true] at within
    simp only [List.mem_cons, List.not_mem_nil, or_false] at listed
    rcases listed with rfl | rfl
    · exact notStaging within.symm
    · exact notBackup within.symm

structure Prepared (t : Terrain) (d e : Disk) : Prop extends t.Furnished d e where
  record : e.look (t.own "state.toml") = d.look (t.own "state.toml")

def Room (t : Terrain) (e : Disk) (name : String) : Prop :=
  t.root.Callable [stateDirectory, name] ∧ e.look (t.own name) = some .dir

structure Laid (t : Terrain) (e : Disk) : Prop where
  staging : t.Room e "staging"
  backup : t.Room e "backup"
  lock : t.root.Callable [stateDirectory, "lock"] ∧
    ∃ c m, e.look (t.own "lock") = some (.file c m) ∧ mayWrite m = true

theorem own_ne (t : Terrain) {a b : String} (other : a ≠ b) : t.own a ≠ t.own b := by
  simpa [own] using other

theorem Laid.kept (laid : t.Laid d) (kept : ∀ name node, name ≠ "state.toml" →
    d.look (t.own name) = some node → e.look (t.own name) = some node) : t.Laid e := by
  obtain ⟨callable, c, m, file, writable⟩ := laid.lock
  exact ⟨⟨laid.staging.1, kept _ _ (by decide) laid.staging.2⟩,
    ⟨laid.backup.1, kept _ _ (by decide) laid.backup.2⟩,
    callable, c, m, kept _ _ (by decide) file, writable⟩

theorem Orderly.prepared (orderly : t.Orderly d) (prepared : Layout.Prepared t.top d e) :
    t.Prepared d e := by
  refine ⟨orderly.furnished prepared.sound prepared.home (fun q => prepared.elsewhere) ?_ ?_,
    prepared.record⟩
  · intro q target link
    rcases prepared.look q with same | ⟨-, plain, -⟩
    · rw [← same, link]
    · exact absurd link (plain target)
  · exact fun room listed q inside => prepared.rooms inside

theorem Orderly.sited (orderly : t.Orderly d) : Layout.Sited t.root t.top d where
  sound := orderly.sound
  rooted := orderly.rooted
  directory := orderly.own _ (by simp)
  lock := orderly.own _ (by simp)
  record := orderly.own _ (by simp)

theorem Orderly.ensure (orderly : t.Orderly w.disk) :
    (Layout.ensure t.root).Ensures (t.Prepared w.disk)
      (fun _ e => t.Prepared w.disk e ∧
        ∀ q node, w.disk.look q = some node → e.look q = some node) w := by
  refine ((Layout.ensure_ensures orderly.sited).weaken fun _ => orderly.prepared).mono ?_
  rintro r e ⟨prepared, -⟩
  exact ⟨orderly.prepared prepared, fun q node => prepared.stands⟩

theorem Orderly.lock (orderly : t.Orderly w.disk) :
    (Layout.lock t.root).Ensures (t.Prepared w.disk)
      (fun r e => t.Prepared w.disk e ∧ (r = .ok () → t.Laid e)) w := by
  refine ((Layout.lock_ensures orderly.sited).weaken fun _ => orderly.prepared).mono ?_
  rintro r e ⟨prepared, ok⟩
  refine ⟨orderly.prepared prepared, fun done => ?_⟩
  obtain ⟨rooms, lockable⟩ := ok done
  exact ⟨rooms.staging (orderly.own _ (by simp)), rooms.backup (orderly.own _ (by simp)), lockable⟩

theorem followJournals_dotless {directory : Location} {names : List String}
    (dotless : ∀ name ∈ names, '.' ∉ name.toList) :
    ∃ n, (Recovery.followJournals directory names).exec w = (.ok n, w) := by
  induction names with
  | nil => exact ⟨0, rfl⟩
  | cons name rest ih =>
    rw [List.forall_mem_cons] at dotless
    rw [Recovery.followJournals, Path.stemAndExtension_dotless dotless.1]
    exact ih dotless.2

theorem removeDirs_files {directory : Location} {names : List String}
    (files : ∀ name ∈ names, w.disk.leadsToDir (directory / name) = false) :
    (Recovery.removeDirs directory names).exec w = (.ok (), w) := by
  induction names with
  | nil => rfl
  | cons name rest ih =>
    rw [List.forall_mem_cons] at files
    rw [Recovery.removeDirs, exec_observe_bind, files.1, if_neg (by simp)]
    exact ih files.2

theorem Orderly.list_room (orderly : t.Orderly d) (plain : IsName name)
    (unlinked : ∀ target, d.look (t.own name) ≠ some (.link target))
    (leads : d.leadsToDir (t.root.below [stateDirectory, name]) = true) :
    d.list (t.root.below [stateDirectory, name]) = .ok (d.namesIn (t.own name)) := by
  have straight := orderly.straight_room plain
  obtain ⟨callable, isDir⟩ := (straight.leadsToDir orderly.sound unlinked).mp leads
  exact straight.list unlinked callable isDir orderly.sound

theorem Orderly.backup_file (orderly : t.Orderly d) (member : name ∈ d.namesIn (t.own "backup")) :
    '.' ∉ name.toList ∧ d.leadsToDir (t.root.below [stateDirectory, "backup"] / name) = false := by
  rw [Disk.mem_namesIn] at member
  have place : t.own "backup" ++ [name] = t.top ++ [stateDirectory, "backup", name] := by simp [own]
  rw [place] at member
  obtain ⟨dotless, c, m, file⟩ := orderly.backup name member
  have named : IsName name := orderly.sound.isName member name (by simp)
  have room : d.Straight t.root t.top [stateDirectory, "backup"] :=
    orderly.straight_room (by decide)
  have straight : d.Straight t.root t.top [stateDirectory, "backup", name] :=
    room.concat named (orderly.own _ (by simp))
  have inner : t.root.below [stateDirectory, "backup"] / name
      = t.root.below [stateDirectory, "backup", name] := by simp [Location.child, Location.below]
  refine ⟨dotless, ?_⟩
  rw [inner, ← Bool.not_eq_true, straight.leadsToDir orderly.sound (by simp [file])]
  simp [file]

theorem Orderly.exec_list (orderly : t.Orderly w.disk) (plain : IsName name)
    (unlinked : ∀ target, w.disk.look (t.own name) ≠ some (.link target))
    (leads : w.disk.leadsToDir (t.root.below [stateDirectory, name]) = true) :
    (query (·.list (t.root.below [stateDirectory, name])) : Action IoFault (List String)).exec w
      = (.ok (w.disk.namesIn (t.own name)), w) := by
  rw [exec_query, orderly.list_room plain unlinked leads]

theorem Orderly.exec_staging (orderly : t.Orderly w.disk) (restored : Nat) :
    (do if ← observe (·.leadsToDir (Layout.staging t.root)) then
          Recovery.removeEverything (Layout.staging t.root)
            (← query (·.list (Layout.staging t.root)))
        return restored : Action IoFault Nat).exec w = (.ok restored, w) := by
  rw [Site.staging_room, exec_observe_bind]
  split
  · rename_i leads
    have none : w.disk.namesIn (t.own "staging") = [] := by
      rw [List.eq_nil_iff_forall_not_mem]
      intro name member
      rw [Disk.mem_namesIn] at member
      exact member (orderly.staging _ (by simp [Disk.Inside, own]))
    have listed := orderly.exec_list (by decide) (orderly.own [stateDirectory, "staging"] (by simp))
      leads
    rw [exec_bind_ok listed, none]
    rfl
  · rfl

theorem Orderly.recover (orderly : t.Orderly w.disk) :
    ∃ n, (Recovery.recover t.root).exec w = (.ok n, w) := by
  unfold Recovery.recover
  rw [Site.backup_room, exec_observe_bind]
  dsimp only
  split
  · rename_i leads
    have listed := orderly.exec_list (by decide) (orderly.own [stateDirectory, "backup"] (by simp))
      leads
    obtain ⟨n, followed⟩ := @followJournals_dotless w (t.root.below [stateDirectory, "backup"]) _
      fun name member => (orderly.backup_file member).1
    have removed : (Recovery.removeDirs (t.root.below [stateDirectory, "backup"])
        (w.disk.namesIn (t.own "backup"))).exec w = (.ok (), w) :=
      removeDirs_files fun name member => (orderly.backup_file member).2
    refine ⟨n, ?_⟩
    rw [exec_bind_ok listed, exec_bind_ok followed, exec_bind_ok listed, exec_bind_ok removed]
    exact orderly.exec_staging n
  · exact ⟨0, orderly.exec_staging 0⟩

theorem Orderly.save (orderly : t.Orderly w.disk) (state : RunState) :
    (state.save t.root).Ensures (t.Furnished w.disk)
      (fun r e => t.Furnished w.disk e ∧ (r = .ok () →
        t.root.Callable [stateDirectory, "state.toml"] ∧
          (∃ mode, e.look (t.own "state.toml") = some (.file state.text.toUTF8 mode) ∧
            w.disk.Grants (t.own "state.toml") Files.plainMode mode) ∧
          ∀ q node, q ≠ t.own "state.toml" → w.disk.look q = some node → e.look q = some node))
      w := by
  unfold RunState.save
  refine (orderly.ensure.weaken fun _ prepared => prepared.toFurnished).bind ?_
    fun _ _ holds => ⟨holds.1.toFurnished, by simp⟩
  rintro ⟨⟩ w₁ ⟨prepared, stood⟩
  have straight : w₁.disk.Straight t.root t.top [stateDirectory, "state.toml"] :=
    prepared.orderly.straight_room (by decide)
  have written := (Files.write_ensures straight (prepared.orderly.own _ (by simp))
    state.text.toUTF8).keeping prepared.orderly.sound
  have furnished : ∀ e : Disk, (∀ q, q ≠ t.own "state.toml" → e.look q = w₁.disk.look q) →
      (e.look (t.own "state.toml") = w₁.disk.look (t.own "state.toml") ∨
        ∃ c m, e.look (t.own "state.toml") = some (.file c m)) → e.Sound → e.home = w₁.disk.home →
      t.Furnished w.disk e := fun e same file sound home =>
    prepared.toFurnished.trans (prepared.orderly.written (by decide) (by decide) sound home same file)
  simp only [RunState.stateFile_below]
  refine Ensures.reporting ((written.weaken fun e ends =>
    furnished e ends.1.1 (ends.1.2.imp_right (·.2)) ends.2.1 ends.2.2).mono ?_)
  rintro (fault | ⟨⟩) e ⟨⟨same, ok, failed⟩, sound, home⟩
  · exact ⟨furnished e same (.inl (failed fault rfl)) sound home, by simp [Except.mapError]⟩
  · obtain ⟨callable, mode, file, grants⟩ := ok rfl
    refine ⟨furnished e same (.inr ⟨_, _, file⟩) sound home, fun _ =>
      ⟨callable, ⟨mode, file, ?_⟩, fun q node other there => (same q other).trans (stood q node there)⟩⟩
    have record : w₁.disk.look (t.own "state.toml") = w.disk.look (t.own "state.toml") :=
      prepared.record
    cases grants with
    | made free => exact .made (record.symm.trans free)
    | kept stood writable => exact .kept (record.symm.trans stood) writable

end PinnedTree.Sync.Terrain
