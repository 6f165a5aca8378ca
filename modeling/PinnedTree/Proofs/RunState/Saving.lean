import PinnedTree.Proofs.Disk.Renewal
import PinnedTree.Proofs.Layout

namespace PinnedTree

open PinnedTree.Action

namespace Layout

variable {root : Location} {w w' : World}

theorem makeDir_below {names : List String} (inner : names ≠ [])
    (plain : ∀ name ∈ names, IsName name)
    (made : (makeDir (root.below names)).exec w = (.ok (), w')) :
    w.disk.Furnished w'.disk ∧ w'.disk.leadsToDir (root.below names) = true := by
  rw [makeDir, exec_reporting] at made
  obtain ⟨furnished, leads⟩ := Files.makeDirs_furnishes (root.below names) w
  rcases ran : (Files.makeDirs (root.below names)).exec w with ⟨r, w₁⟩
  rw [ran] at made furnished leads
  cases r with
  | error fault => cases made
  | ok _ =>
    cases made
    exact ⟨furnished, leads rfl (Location.text_below_ne_empty root inner plain)
      (Location.bare_below inner)⟩

theorem ensure_leads (ensured : (ensure root).exec w = (.ok (), w')) :
    w.disk.Furnished w'.disk ∧ w'.disk.leadsToDir (staging root) = true ∧
      w'.disk.leadsToDir (backup root) = true := by
  unfold ensure at ensured
  rw [staging_below, backup_below] at ensured ⊢
  rw [exec_bind] at ensured
  rcases first : (makeDir (root.below [stateDirectory, "staging"])).exec w with ⟨r, w₁⟩
  rw [first] at ensured
  cases r with
  | error fault => cases ensured
  | ok _ =>
    obtain ⟨furnished, staging⟩ := makeDir_below (by simp) (by decide) first
    obtain ⟨furnished', backup⟩ := makeDir_below (by simp) (by decide) ensured
    exact ⟨furnished.trans furnished', furnished'.leadsToDir staging, backup⟩

theorem exec_ensure (rooms : w.disk.leadsToDir (staging root) = true ∧
    w.disk.leadsToDir (backup root) = true) : (ensure root).exec w = (.ok (), w) := by
  have made {l : Location} (leads : w.disk.leadsToDir l = true) :
      (makeDir l).exec w = (.ok (), w) := by
    rw [makeDir, exec_reporting, Files.exec_makeDirs leads]
    rfl
  unfold ensure
  rw [exec_bind_ok (made rooms.1), made rooms.2]

theorem open_grows (l : Location) (w : World) :
    (do match ← observe (·.stat l) with
        | .ok (.file _ mode) => if !mayWrite mode then throw (.errno .permissionDenied)
        | _ => changeOnce (·.openToWrite l Files.plainMode) :
      Action IoFault Unit).Grows w := by
  rw [Grows, exec_observe_bind]
  split
  · split <;> exact .refl _
  rename_i other
  rw [exec_changeOnce]
  cases found : w.disk.resolve true l with
  | error fault => simpa [Disk.openToWrite, found, bind, Except.bind] using .refl _
  | ok place =>
    cases place with
    | free p =>
      have free : w.disk.look p = none := Disk.resolve_real found
      simpa [Disk.openToWrite, found, bind, Except.bind, pure, Except.pure, World.perform, Step.apply,
        free] using .put free (by simp)
    | taken p node =>
      cases node with
      | file content mode =>
        exact absurd (by simp [Disk.stat, found, bind, Except.bind, pure, Except.pure])
          (other content mode)
      | dir | link =>
        simpa [Disk.openToWrite, found, bind, Except.bind, throw, throwThe, MonadExceptOf.throw]
          using .refl _

theorem lock_grows (root : Location) (w : World) : (lock root).Grows w := by
  have made (l : Location) (w : World) : (makeDir l).Grows w :=
    Grows.reporting (Files.makeDirs_furnishes l w).1.toGrown
  refine ((made _ w).bind fun _ => made _ _).bind fun _ => ?_
  refine (open_grows _ _).reporting.bind fun _ => ?_
  refine Grows.bind (.still ?_) fun locked => ?_
  · rw [exec_reporting, Files.exec_isLocked]
  · split
    · exact .still rfl
    · refine .still ?_
      rw [exec_reporting, Files.exec_hold]
      dsimp only
      split <;> rfl

theorem exec_lock {p : DiskPath} {c : ByteArray} {m : Nat}
    (rooms : w.disk.leadsToDir (staging root) = true ∧ w.disk.leadsToDir (backup root) = true)
    (found : w.disk.resolve true (lockFile root) = .ok (.taken p (.file c m)))
    (writable : mayWrite m = true) (free : p ∉ w.locks) :
    (lock root).exec w = (.ok (), { w with locks := p :: w.locks }) := by
  have stat : w.disk.stat (lockFile root) = .ok (.file c m) := by
    simp [Disk.stat, found, bind, Except.bind, pure, Except.pure]
  have asked : (reporting (SyncError.state (lockFile root).text)
      (Files.isLocked (lockFile root))).exec w = (.ok false, w) := by
    rw [exec_reporting, Files.exec_isLocked, found]
    simp [free, Except.mapError]
  unfold lock
  refine (exec_bind_ok (exec_ensure rooms)).trans
    ((exec_bind_ok (exec_reporting_ok (exec_open stat writable))).trans
      ((exec_bind_ok asked).trans ?_))
  rw [if_neg (by simp), exec_reporting, Files.exec_hold, found]
  rfl

end Layout

namespace RunState

variable {root : Location} {state : RunState} {w w' : World}

/-- What saving a state leaves: its file holds the text of the state, and the rooms are there. -/
structure Saved (root : Location) (state : RunState) (w w' : World) : Prop where
  file : ∃ p mode, w'.disk.resolve true (Layout.stateFile root)
      = .ok (.taken p (.file state.text.toUTF8 mode)) ∧
    (mode = Files.plainMode ∨
      mayWrite mode = true ∧ ∃ old, w.disk.look p = some (.file old mode))
  staging : w'.disk.leadsToDir (Layout.staging root) = true
  backup : w'.disk.leadsToDir (Layout.backup root) = true

theorem saved_of_save (saved : (state.save root).exec w = (.ok (), w')) :
    Saved root state w w' := by
  unfold save at saved
  rw [exec_bind] at saved
  rcases ensured : (Layout.ensure root).exec w with ⟨r, w₁⟩
  rw [ensured] at saved
  cases r with
  | error fault => cases saved
  | ok _ =>
    obtain ⟨furnished, staging, backup⟩ := Layout.ensure_leads ensured
    simp only [exec_reporting] at saved
    rcases ran : (Files.writeText (Layout.stateFile root) state.text).exec w₁ with ⟨r, w₂⟩
    rw [ran] at saved
    cases r with
    | error fault => cases saved
    | ok _ =>
      cases saved
      obtain ⟨p, mode, grants, found, -, leads⟩ := Files.written ran
      refine ⟨⟨p, mode, found, ?_⟩, leads _ staging, leads _ backup⟩
      cases grants with
      | made _ => exact .inl rfl
      | kept stands writable => exact .inr ⟨writable, _, furnished.files _ _ _ stands⟩

theorem load_of_readable {p : DiskPath} {mode : Nat} (found : w'.disk.resolve true
      (Layout.stateFile root) = .ok (.taken p (.file state.text.toUTF8 mode))) :
    load w'.disk root = .ok state ↔ mayRead mode = true := by
  have stat : w'.disk.stat (Layout.stateFile root) = .ok (.file state.text.toUTF8 mode) := by
    simp [Disk.stat, found, bind, Except.bind, pure, Except.pure]
  exact ⟨readable_of_stat stat, load_of_stat _ stat⟩

namespace Saved

theorem writable (saved : Saved root state w w') : ∃ p mode,
    w'.disk.resolve true (Layout.stateFile root)
      = .ok (.taken p (.file state.text.toUTF8 mode)) ∧ mayWrite mode = true := by
  obtain ⟨p, mode, found, rfl | ⟨writable, -⟩⟩ := saved.file
  · exact ⟨p, _, found, by decide⟩
  · exact ⟨p, _, found, writable⟩

theorem again (saved : Saved root state w w') : ∃ w'', (state.save root).exec w' = (.ok (), w'') ∧
    ∀ q, w''.disk.look q = w'.disk.look q := by
  obtain ⟨p, mode, found, writable⟩ := saved.writable
  obtain ⟨w'', ran, same⟩ := Files.rewritten found writable
  refine ⟨w'', ?_, same⟩
  unfold save
  rw [exec_bind_ok (Layout.exec_ensure ⟨saved.staging, saved.backup⟩)]
  exact exec_reporting_ok ran

end Saved

/-- On every disk a state that was saved is loaded as it was, whatever its ids and fields are,
unless its file stood there before and its owner may not read it; saving the state again leaves
every byte where it is. A state can be saved wherever nothing stands in the way of the program's own
files. -/
theorem load_after_save (root : Location) (state : RunState) (w : World) :
    (∀ w', (state.save root).exec w = (.ok (), w') →
      (∃ p mode, w'.disk.resolve true (Layout.stateFile root)
          = .ok (.taken p (.file state.text.toUTF8 mode)) ∧
        (RunState.load w'.disk root = .ok state ↔ mayRead mode = true) ∧
        (mode = Files.plainMode ∨ ∃ old, w.disk.look p = some (.file old mode))) ∧
      ∃ w'', (state.save root).exec w' = (.ok (), w'') ∧
        ∀ q, w''.disk.look q = w'.disk.look q) ∧
    ∀ top, Layout.Sited root top w.disk → Layout.Usable root top w.disk →
      ∃ w', (state.save root).exec w = (.ok (), w') := by
  refine ⟨fun w' ran => ?_, fun _ sited usable => Layout.save_succeeds sited usable state⟩
  have saved := saved_of_save ran
  obtain ⟨p, mode, found, fresh⟩ := saved.file
  exact ⟨⟨p, mode, found, load_of_readable found, fresh.imp_right (·.2)⟩, saved.again⟩

def sealedRoot : Disk where
  home := []
  nodes := [(["root"], .dir), (["root", ".depsync"], .dir),
    (["root", ".depsync", "state.toml"], .file (RunState.text {}).toUTF8 0o200)]
  distinct := by decide

/-- A state that is saved into the sealed file is not loaded. -/
theorem sealedRoot_unloaded :
    ((save {} (.ofText "root")).exec { disk := sealedRoot }).1 = .ok () ∧
      (load ((save {} (.ofText "root")).exec { disk := sealedRoot }).2.disk (.ofText "root")).isOk
        = false := by
  decide +kernel

def awkwardState : RunState :=
  (({} : RunState).insert "" ⟨"a b", "it's", "\\\t\n"⟩).insert "x.\"y'\n\u0001"
    ⟨"", "'''\"\"\"", "fake:"⟩

def recordedRoot : Disk where
  home := []
  nodes := [(["root"], .dir), (["root", ".depsync"], .dir),
    (["root", ".depsync", "state.toml"], .file (RunState.text {}).toUTF8 0o600)]
  distinct := by decide

theorem recordedRoot_sited : Layout.Sited (.ofText "root") ["root"] recordedRoot where
  sound := by decide +kernel
  rooted := .of_segments (by decide) (by decide) (by decide) (by decide)
  directory := Disk.linkless_iff.mp (by decide)
  lock := Disk.linkless_iff.mp (by decide)
  record := Disk.linkless_iff.mp (by decide)

theorem recordedRoot_usable : Layout.Usable (.ofText "root") ["root"] recordedRoot := by
  refine ⟨by decide, ?_, ?_⟩
  · unfold Location.Callable
    decide +kernel
  · have callable : ∀ name ∈ ["lock", "state.toml"],
        (Location.ofText "root").Callable [stateDirectory, name] := by
      unfold Location.Callable
      decide +kernel
    intro name listed
    refine ⟨callable name listed, fun node stands => ?_⟩
    rcases List.mem_cons.mp listed with rfl | listed
    · cases stands
    · obtain rfl := List.mem_singleton.mp listed
      cases stands
      exact ⟨_, _, rfl, by decide⟩

/-- The awkward state is saved over the earlier one, and loaded as it is. -/
theorem load_after_save_awkward : ∃ w',
    (awkwardState.save (.ofText "root")).exec { disk := recordedRoot } = (.ok (), w') ∧
      load w'.disk (.ofText "root") = .ok awkwardState := by
  obtain ⟨loads, saves⟩ := load_after_save (.ofText "root") awkwardState { disk := recordedRoot }
  obtain ⟨w', ran⟩ := saves ["root"] recordedRoot_sited recordedRoot_usable
  obtain ⟨⟨p, mode, -, loaded, fresh⟩, -⟩ := loads w' ran
  refine ⟨w', ran, loaded.mpr ?_⟩
  rcases fresh with rfl | ⟨old, stood⟩
  · decide
  have listed := (Disk.look_eq_some_iff (by rintro rfl; cases stood)).mp stood
  simp only [recordedRoot, List.mem_cons, Prod.mk.injEq, reduceCtorEq, and_false, false_or,
    List.not_mem_nil, or_false, Node.file.injEq] at listed
  obtain ⟨-, -, rfl⟩ := listed
  decide

end RunState

end PinnedTree
