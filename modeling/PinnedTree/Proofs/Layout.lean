import PinnedTree.Proofs.Disk.Agreement
import PinnedTree.Proofs.RunState

namespace PinnedTree.Layout

open PinnedTree.Action

def place (top : DiskPath) (name : String) : DiskPath := top ++ [stateDirectory, name]

/-- A root whose directory for the program's state is no link, nor are the files in it. -/
structure Sited (root : Location) (top : DiskPath) (d : Disk) : Prop where
  sound : d.Sound
  rooted : d.Rooted root top
  directory : ∀ target, d.look (top ++ [stateDirectory]) ≠ some (.link target)
  lock : ∀ target, d.look (place top "lock") ≠ some (.link target)
  record : ∀ target, d.look (place top "state.toml") ≠ some (.link target)

def Makes (top q : DiskPath) : Prop :=
  q = top ++ [stateDirectory] ∨ q = place top "staging" ∨ q = place top "backup" ∨
    q = place top "lock"

structure Prepared (top : DiskPath) (d e : Disk) : Prop where
  sound : e.Sound
  home : e.home = d.home
  look : ∀ q, e.look q = d.look q ∨
    (d.look q = none ∧ (∀ target, e.look q ≠ some (.link target)) ∧ Makes top q)

structure Housed (top : DiskPath) (d e : Disk) : Prop where
  sound : e.Sound
  home : e.home = d.home
  elsewhere : ∀ q, ¬ top ++ [stateDirectory] <+: q → e.look q = d.look q

variable {root : Location} {top q : DiskPath} {d e f : Disk} {w : World} {name : String}

theorem place_ne {other : String} (apart : name ≠ other) : place top name ≠ place top other := by
  simpa [place] using apart

theorem outside (destination : Destination) (rest : List String) :
    ¬ top ++ [stateDirectory] <+: top ++ (destination.names ++ rest) := by
  intro inside
  have under := (List.prefix_append_right_inj top).mp inside
  have unreserved := destination.unreserved
  cases shape : destination.names with
  | nil => exact destination.nonempty shape
  | cons first more =>
    rw [shape] at under unreserved
    obtain ⟨same, -⟩ := List.cons_prefix_cons.mp under
    exact unreserved (by simp [same])

theorem apart (destination : Destination) (rest : List String) :
    Disk.Apart (top ++ destination.names) (top ++ stateDirectory :: rest) := by
  obtain ⟨first, more, same⟩ := List.exists_cons_of_ne_nil destination.nonempty
  have other : first ≠ stateDirectory := by simpa [same] using destination.unreserved
  rw [same, Disk.apart_append_left]
  exact Disk.apart_cons other

theorem inside_of_own (own : top ++ [stateDirectory] <+: q) : Disk.Inside top q := by
  refine ⟨(List.prefix_append _ _).trans own, ?_⟩
  rintro rfl
  have longer := own.length_le
  rw [List.length_append, List.length_singleton] at longer
  omega

theorem place_inside (top : DiskPath) (name : String) :
    top ++ [stateDirectory] <+: place top name := by
  simp [place, List.prefix_append_right_inj]

theorem Makes.inside (makes : Makes top q) : top ++ [stateDirectory] <+: q := by
  rcases makes with rfl | rfl | rfl | rfl
  · exact List.prefix_refl _
  · exact place_inside top _
  · exact place_inside top _
  · exact place_inside top _

theorem not_makes_record : ¬ Makes top (place top "state.toml") := by
  simp [Makes, place]

theorem Sited.straight (sited : Sited root top d) (plain : IsName name) :
    d.Straight root top [stateDirectory, name] where
  rooted := sited.rooted
  plain := by
    intro part member
    rcases List.mem_cons.mp member with rfl | member
    · decide
    · exact List.mem_singleton.mp member ▸ plain
  inner := by simp
  clear r under other target := by
    rcases r with - | ⟨first, - | ⟨second, rest⟩⟩
    · simp [sited.rooted.isDir]
    · obtain ⟨rfl, -⟩ := List.cons_prefix_cons.mp under
      exact sited.directory target
    · exact absurd (under.eq_of_length_le (by simp)) other

theorem Prepared.refl (sound : d.Sound) : Prepared top d d := ⟨sound, rfl, fun _ => .inl rfl⟩

theorem Prepared.trans (first : Prepared top d e) (second : Prepared top e f) :
    Prepared top d f := by
  refine ⟨second.sound, second.home.trans first.home, fun q => ?_⟩
  rcases second.look q with same | ⟨free, plain, makes⟩
  · rw [same]
    exact first.look q
  · rcases first.look q with same | ⟨free', -, -⟩
    · exact .inr ⟨same ▸ free, plain, makes⟩
    · exact .inr ⟨free', plain, makes⟩

theorem Prepared.stands (prepared : Prepared top d e) {node : Node} (stood : d.look q = some node) :
    e.look q = some node := by
  rcases prepared.look q with same | ⟨free, -, -⟩
  · exact same.trans stood
  · cases free.symm.trans stood

theorem Prepared.no_link (prepared : Prepared top d e)
    (plain : ∀ target, d.look q ≠ some (.link target)) (target : String) :
    e.look q ≠ some (.link target) := by
  rcases prepared.look q with same | ⟨-, plain', -⟩
  · exact same ▸ plain target
  · exact plain' target

theorem Prepared.elsewhere (prepared : Prepared top d e) (outside : ¬ top ++ [stateDirectory] <+: q) :
    e.look q = d.look q := by
  rcases prepared.look q with same | ⟨-, -, makes⟩
  · exact same
  · exact absurd makes.inside outside

theorem Prepared.housed (prepared : Prepared top d e) : Housed top d e :=
  ⟨prepared.sound, prepared.home, fun _ => prepared.elsewhere⟩

theorem Prepared.record (prepared : Prepared top d e) :
    e.look (place top "state.toml") = d.look (place top "state.toml") := by
  rcases prepared.look (place top "state.toml") with same | ⟨-, -, makes⟩
  · exact same
  · exact absurd makes not_makes_record

theorem Housed.rooted (housed : Housed top d e) (rooted : d.Rooted root top) :
    e.Rooted root top := by
  exact rooted.congr housed.home fun q outside => housed.elsewhere q fun own =>
    outside (inside_of_own own)

theorem Prepared.sited (prepared : Prepared top d e) (sited : Sited root top d) :
    Sited root top e where
  sound := prepared.sound
  rooted := prepared.housed.rooted sited.rooted
  directory := prepared.no_link sited.directory
  lock := prepared.no_link sited.lock
  record := prepared.no_link sited.record

theorem Prepared.load (prepared : Prepared top d e) (sited : Sited root top d) :
    RunState.load e root = RunState.load d root :=
  have named : IsName "state.toml" := by decide
  RunState.load_congr (sited.straight named) sited.sound sited.record
    ((prepared.sited sited).straight named) prepared.sound prepared.record

theorem Prepared.rooms (prepared : Prepared top d e) (inside : Disk.Inside (place top name) q) :
    e.look q = d.look q := by
  rcases prepared.look q with same | ⟨-, -, makes⟩
  · exact same
  · have short : q.length ≤ (place top name).length := by
      rcases makes with rfl | rfl | rfl | rfl <;> simp [place]
    exact absurd (inside.1.eq_of_length_le short).symm inside.2

theorem Prepared.of_built (sited : Sited root top d) (built : d.Built e (place top name))
    (sound : e.Sound) (home : e.home = d.home) (makes : Makes top (place top name)) :
    Prepared top d e := by
  refine ⟨sound, home, fun q => ?_⟩
  rcases built q with same | ⟨free, made, leads⟩
  · exact .inl same
  · refine .inr ⟨free, by simp [made], ?_⟩
    have below : top <+: q := by
      rcases List.prefix_or_prefix_of_prefix leads (List.prefix_append top _) with above | below
      · have gone := sited.sound.none_under free above
        cases gone.symm.trans sited.rooted.isDir
      · exact below
    obtain ⟨rest, rfl⟩ := below
    have within := (List.prefix_append_right_inj top).mp leads
    rcases rest with - | ⟨first, - | ⟨second, rest⟩⟩
    · rw [List.append_nil] at free
      cases free.symm.trans sited.rooted.isDir
    · obtain ⟨rfl, -⟩ := List.cons_prefix_cons.mp within
      exact .inl rfl
    · have whole := within.eq_of_length_le (by simp)
      rw [whole]
      exact makes

def Room (root : Location) (top : DiskPath) (e : Disk) (name : String) : Prop :=
  root.Callable [stateDirectory, name] ∧ e.look (place top name) = some .dir

theorem makeDir_ensures (sited : Sited root top w.disk) (plain : IsName name)
    (makes : Makes top (place top name)) :
    (makeDir (root.below [stateDirectory, name])).Ensures (Prepared top w.disk)
      (fun r e => Prepared top w.disk e ∧
        (name ≠ "lock" → e.look (place top "lock") = w.disk.look (place top "lock")) ∧ (r = .ok () →
        (∀ target, w.disk.look (place top name) ≠ some (.link target)) → Room root top e name)) w := by
  have straight := sited.straight plain
  refine Ensures.reporting ?_
  by_cases linked : ∀ target, w.disk.look (place top name) ≠ some (.link target)
  · have clear : ∀ r, r <+: [stateDirectory, name] → r ≠ [] → ∀ target,
        w.disk.look (top ++ r) ≠ some (.link target) := by
      intro r under _ target
      by_cases whole : r = [stateDirectory, name]
      · exact whole ▸ linked target
      · exact straight.clear r under whole target
    have made := (Files.makeDirs_ensures sited.sound sited.rooted straight.plain clear).keeping
      sited.sound
    have prepared : ∀ e : Disk, w.disk.Built e (top ++ [stateDirectory, name]) ∧ e.Sound ∧
        e.home = w.disk.home → Prepared top w.disk e :=
      fun e ⟨built, sound, home⟩ => .of_built sited built sound home makes
    refine (made.weaken prepared).mono ?_
    rintro r e ⟨⟨built, there, -⟩, sound, home⟩
    refine ⟨prepared e ⟨built, sound, home⟩, fun other => built.away fun leads => ?_, fun done _ => ?_⟩
    · exact place_ne other (leads.eq_of_length (by simp [place])).symm
    · cases r with
      | error fault => cases done
      | ok _ => exact there rfl (by simp)
  · have stands : w.disk.look (top ++ [stateDirectory, name]) ≠ none := by
      intro free
      apply linked
      intro target link
      cases free.symm.trans link
    obtain ⟨fault, refused, other⟩ := straight.makeDir_taken sited.sound stands
    have named := Location.text_below_ne_empty root straight.inner straight.plain
    obtain ⟨r, still, -⟩ := Files.makeDirs_refused named refused other
    exact .of_exec still (.refl sited.sound)
      ⟨.refl sited.sound, fun _ => rfl, fun _ plain => absurd plain linked⟩

theorem staging_below (root : Location) : staging root = root.below [stateDirectory, "staging"] := by
  simp [staging, directory, Location.child, Location.below]

theorem backup_below (root : Location) : backup root = root.below [stateDirectory, "backup"] := by
  simp [backup, directory, Location.child, Location.below]

theorem lockFile_below (root : Location) : lockFile root = root.below [stateDirectory, "lock"] := by
  simp [lockFile, directory, Location.child, Location.below]

structure Roomy (root : Location) (top : DiskPath) (d e : Disk) : Prop where
  staging : (∀ target, d.look (place top "staging") ≠ some (.link target)) →
    Room root top e "staging"
  backup : (∀ target, d.look (place top "backup") ≠ some (.link target)) → Room root top e "backup"

theorem Room.kept (room : Room root top d name) (prepared : Prepared top d e) :
    Room root top e name := ⟨room.1, prepared.stands room.2⟩

theorem ensure_ensures (sited : Sited root top w.disk) :
    (ensure root).Ensures (Prepared top w.disk)
      (fun r e => Prepared top w.disk e ∧
        e.look (place top "lock") = w.disk.look (place top "lock") ∧
        (r = .ok () → Roomy root top w.disk e)) w := by
  unfold ensure
  rw [staging_below, backup_below]
  have staged := makeDir_ensures sited (by decide : IsName "staging") (.inr (.inl rfl))
  refine staged.bind ?_ fun _ _ holds => ⟨holds.1, holds.2.1 (by decide), by simp⟩
  rintro ⟨⟩ w₁ ⟨first, still, there⟩
  have kept := makeDir_ensures (first.sited sited) (by decide : IsName "backup")
    (.inr (.inr (.inl rfl)))
  refine (kept.weaken fun _ => first.trans).mono ?_
  rintro r e ⟨second, still', also⟩
  refine ⟨first.trans second, (still' (by decide)).trans (still (by decide)),
    fun done => ⟨fun plain => ?_, fun plain => ?_⟩⟩
  · exact (there rfl plain).kept second
  · exact also done (first.no_link plain)

def Lockable (root : Location) (top : DiskPath) (e : Disk) : Prop :=
  root.Callable [stateDirectory, "lock"] ∧
    ∃ c m, e.look (place top "lock") = some (.file c m) ∧ mayWrite m = true

theorem resolve_lock (sited : Sited root top d) (lockable : Lockable root top d) :
    ∃ c m, d.resolve true (lockFile root) = .ok (.taken (place top "lock") (.file c m)) ∧
      mayWrite m = true := by
  obtain ⟨callable, c, m, file, writable⟩ := lockable
  have straight := sited.straight (by decide : IsName "lock")
  have opened := sited.sound.opened (show d.look (place top "lock") ≠ none by simp [file])
  have stands : d.look (top ++ [stateDirectory, "lock"]) = some (.file c m) := file
  refine ⟨c, m, ?_, writable⟩
  rw [lockFile_below, straight.resolve_follow (by simp [stands]), straight.resolved callable opened,
    Disk.placeAt, stands]
  rfl

theorem open_ensures (sited : Sited root top w.disk) :
    (do match ← observe (·.stat (root.below [stateDirectory, "lock"])) with
        | .ok (.file _ mode) => if !mayWrite mode then throw (.errno .permissionDenied)
        | _ => changeOnce (·.openToWrite (root.below [stateDirectory, "lock"]) Files.plainMode) :
      Action IoFault Unit).Ensures (Prepared top w.disk)
      (fun r e => Prepared top w.disk e ∧ (r = .ok () → Lockable root top e)) w := by
  have straight := sited.straight (by decide : IsName "lock")
  have stats := straight.stat_ok sited.sound sited.lock
  refine ensures_observe_bind ?_
  split
  · rename_i content mode found
    obtain ⟨callable, stands⟩ := (stats _).mp found
    split
    · exact ensures_throw (.refl sited.sound) ⟨.refl sited.sound, by simp⟩
    · rename_i writable
      exact ensures_pure (.refl sited.sound) ⟨.refl sited.sound, fun _ =>
        ⟨callable, content, mode, stands, by simpa using writable⟩⟩
  · rename_i other
    refine ensures_changeOnce (.refl sited.sound) (fun _ _ => ⟨.refl sited.sound, by simp⟩) ?_
    intro step opened
    obtain ⟨callable, fits, writable, rfl⟩ := straight.openToWrite sited.lock opened
    have free : w.disk.look (place top "lock") = none := by
      cases stood : w.disk.look (place top "lock") with
      | none => rfl
      | some node =>
        obtain ⟨c, m, rfl⟩ := fits.2 node stood
        exact absurd ((stats _).mpr ⟨callable, stood⟩) (other c m)
    obtain ⟨c, m, made, grants⟩ := Disk.grants_create fits writable
    have looks : ∀ q, ((Step.create (place top "lock") Files.plainMode).apply w.disk).look q
        = if q = place top "lock" then some (.file c m) else w.disk.look q := by
      intro q
      rw [place, made, Disk.look_put fits.1.ne_nil]
    have prepared : Prepared top w.disk
        ((Step.create (place top "lock") Files.plainMode).apply w.disk) := by
      refine ⟨fits.sound sited.sound, by simp, fun q => ?_⟩
      rw [looks]
      by_cases here : q = place top "lock"
      · exact .inr ⟨here ▸ free, by simp [here], here ▸ .inr (.inr (.inr rfl))⟩
      · exact .inl (if_neg here)
    refine ⟨fits, prepared, prepared, fun _ => ⟨callable, c, m, ?_, grants.writable (by decide)⟩⟩
    exact (looks _).trans (if_pos rfl)

theorem lock_ensures (sited : Sited root top w.disk) :
    (lock root).Ensures (Prepared top w.disk)
      (fun r e => Prepared top w.disk e ∧
        (r = .ok () → Roomy root top w.disk e ∧ Lockable root top e)) w := by
  unfold lock
  refine (ensure_ensures sited).bind ?_ fun _ _ holds => ⟨holds.1, by simp⟩
  rintro ⟨⟩ w₁ ⟨first, -, rooms⟩
  simp only [lockFile_below]
  have opened := Ensures.reported (f := SyncError.state (root.below [stateDirectory, "lock"]).text)
    (open_ensures (first.sited sited))
  refine (opened.weaken fun _ => first.trans).bind ?_ fun _ _ holds =>
    ⟨first.trans holds.1, by simp⟩
  rintro ⟨⟩ w₂ ⟨second, lockable⟩
  have prepared := first.trans second
  have laid : Roomy root top w.disk w₂.disk ∧ Lockable root top w₂.disk :=
    ⟨⟨fun plain => ((rooms rfl).staging plain).kept second,
      fun plain => ((rooms rfl).backup plain).kept second⟩, lockable rfl⟩
  have asked : (reporting (SyncError.state (root.below [stateDirectory, "lock"]).text)
      (Files.isLocked (root.below [stateDirectory, "lock"]))).Ensures (Prepared top w.disk)
      (fun _ e => e = w₂.disk) w₂ := by
    refine Ensures.reporting ?_
    unfold Files.isLocked
    refine ensures_get ?_
    split <;> exact ensures_pure prepared rfl
  refine asked.bind ?_ ?_
  · intro locked w₃ same
    split
    · exact ensures_throw (same ▸ prepared) ⟨same ▸ prepared, by simp⟩
    · refine Ensures.reporting ((Files.hold_ensures (same ▸ prepared)).mono ?_)
      rintro r e ⟨-, rfl⟩
      exact ⟨same ▸ prepared, fun _ => same ▸ laid⟩
  · intro fault e same
    exact ⟨same ▸ prepared, by simp⟩

/-- The program's own places under a root can be used: they are of the right kind, or missing. -/
structure Usable (root : Location) (top : DiskPath) (d : Disk) : Prop where
  directory : d.look (top ++ [stateDirectory]) = none ∨ d.look (top ++ [stateDirectory]) = some .dir
  rooms : ∀ name ∈ ["staging", "backup"], root.Callable [stateDirectory, name] ∧
    (d.look (place top name) = none ∨ d.look (place top name) = some .dir)
  files : ∀ name ∈ ["lock", "state.toml"], root.Callable [stateDirectory, name] ∧
    ∀ node, d.look (place top name) = some node → ∃ c m, node = .file c m ∧ mayWrite m = true

theorem Usable.unlinked (usable : Usable root top d) (listed : name ∈ ["staging", "backup"])
    (target : String) : d.look (place top name) ≠ some (.link target) := by
  intro link
  rcases (usable.rooms name listed).2 with free | isDir
  · cases free.symm.trans link
  · cases isDir.symm.trans link

theorem Sited.directory_isDir (sited : Sited root top d) {node : Node}
    (stands : d.look (place top name) = some node) : d.look (top ++ [stateDirectory]) = some .dir := by
  have filled : d.look (top ++ [stateDirectory, name]) ≠ none := by
    rw [← place, stands]
    simp
  exact sited.sound.opened filled [stateDirectory] (by simp) (by simp)

theorem makeDir_succeeds (sited : Sited root top w.disk) (plain : IsName name)
    (directory : w.disk.look (top ++ [stateDirectory]) = none ∨
      w.disk.look (top ++ [stateDirectory]) = some .dir)
    (room : root.Callable [stateDirectory, name] ∧
      (w.disk.look (place top name) = none ∨ w.disk.look (place top name) = some .dir)) :
    (makeDir (root.below [stateDirectory, name])).Succeeds w () := by
  refine (Files.makeDirs_succeeds sited.sound sited.rooted (sited.straight plain).plain (by simp)
    room.1 fun r under filled => ?_).reporting
  rcases r with - | ⟨first, - | ⟨second, rest⟩⟩
  · exact absurd rfl filled
  · obtain ⟨rfl, -⟩ := List.cons_prefix_cons.mp under
    exact directory
  · rw [under.eq_of_length_le (by simp)]
    exact room.2

theorem dir_or_free {goal : DiskPath} (built : d.Built e goal)
    (before : d.look q = none ∨ d.look q = some .dir) : e.look q = none ∨ e.look q = some .dir := by
  rcases built q with same | ⟨-, made, -⟩
  · exact same ▸ before
  · exact .inr made

theorem ensure_succeeds (sited : Sited root top w.disk) (usable : Usable root top w.disk) :
    (ensure root).Succeeds w () := by
  have staging : IsName "staging" := by decide
  have backup : IsName "backup" := by decide
  have clear : ∀ r, r <+: [stateDirectory, "staging"] → r ≠ [] → ∀ target,
      w.disk.look (top ++ r) ≠ some (.link target) := by
    intro r under _ target
    by_cases whole : r = [stateDirectory, "staging"]
    · exact whole ▸ usable.unlinked (by simp) target
    · exact (sited.straight staging).clear r under whole target
  have made : (makeDir (root.below [stateDirectory, "staging"])).Ensures (fun _ => True)
      (fun _ e => w.disk.Built e (place top "staging") ∧ e.Sound ∧ e.home = w.disk.home) w :=
    Ensures.reporting (((Files.makeDirs_ensures sited.sound sited.rooted
      (sited.straight staging).plain clear).keeping sited.sound).unwatched.mono
        fun _ _ holds => ⟨holds.1.1, holds.2⟩)
  unfold ensure
  rw [staging_below, backup_below]
  refine (makeDir_succeeds sited staging usable.directory (usable.rooms _ (by simp))).bind made ?_
  rintro w₁ - ⟨built, sound, home⟩
  have prepared := Prepared.of_built sited built sound home (.inr (.inl rfl))
  obtain ⟨callable, room⟩ := usable.rooms "backup" (by simp)
  exact makeDir_succeeds (prepared.sited sited) backup (dir_or_free built usable.directory)
    ⟨callable, dir_or_free built room⟩

theorem exec_open {l : Location} {c : ByteArray} {m : Nat}
    (found : w.disk.stat l = .ok (.file c m)) (writable : mayWrite m = true) :
    (do match ← observe (·.stat l) with
        | .ok (.file _ mode) => if !mayWrite mode then throw (.errno .permissionDenied)
        | _ => changeOnce (·.openToWrite l Files.plainMode) :
      Action IoFault Unit).exec w = (.ok (), w) := by
  rw [exec_observe_bind, found]
  simp only [writable]
  rfl

theorem open_succeeds (sited : Sited root top w.disk)
    (isDir : w.disk.look (top ++ [stateDirectory]) = some .dir)
    (file : root.Callable [stateDirectory, "lock"] ∧ ∀ node,
      w.disk.look (place top "lock") = some node → ∃ c m, node = .file c m ∧ mayWrite m = true) :
    (do match ← observe (·.stat (root.below [stateDirectory, "lock"])) with
        | .ok (.file _ mode) => if !mayWrite mode then throw (.errno .permissionDenied)
        | _ => changeOnce (·.openToWrite (root.below [stateDirectory, "lock"]) Files.plainMode) :
      Action IoFault Unit).Succeeds w () := by
  have straight := sited.straight (by decide : IsName "lock")
  have stats := straight.stat_ok sited.sound sited.lock
  have opened : w.disk.Open top ([stateDirectory] ++ ["lock"]) :=
    (sited.sound.opened (by simp [isDir])).concat isDir
  obtain ⟨callable, fits⟩ := file
  unfold Succeeds
  rw [exec_observe_bind]
  split
  · rename_i content mode found
    obtain ⟨-, stands⟩ := (stats _).mp found
    obtain ⟨c, m, ⟨⟩, writable⟩ := fits _ stands
    rw [if_neg (by simp [writable])]
    exact ⟨w, rfl, rfl⟩
  · rw [exec_changeOnce, straight.openToWrite_ok callable opened fits]
    exact ⟨_, rfl, rfl⟩

theorem exec_isLocked (straight : w.disk.Straight root top [stateDirectory, name])
    (plain : ∀ target, w.disk.look (place top name) ≠ some (.link target))
    (free : place top name ∉ w.locks) :
    (Files.isLocked (root.below [stateDirectory, name])).exec w = (.ok false, w) := by
  rw [Files.exec_isLocked, straight.resolve_follow plain]
  split
  · rename_i path node found
    have here := ((straight.resolve _).mp found).2.2
    unfold Disk.placeAt at here
    split at here
    · cases here
      have unheld : w.locks.contains (top ++ [stateDirectory, name]) = false := by
        simpa [place] using free
      rw [unheld]
    · cases here
  · rfl

theorem lock_succeeds (sited : Sited root top w.disk) (usable : Usable root top w.disk)
    (free : place top "lock" ∉ w.locks) : ∃ w', (lock root).exec w = (.ok (), w') := by
  obtain ⟨w₁, ensured, locks, prepared, still, rooms⟩ :=
    (ensure_succeeds sited usable).ends (ensure_ensures sited)
  have sited₁ := prepared.sited sited
  have isDir := sited₁.directory_isDir ((rooms rfl).staging (usable.unlinked (by simp))).2
  have file := usable.files "lock" (by simp)
  rw [← still] at file
  have opens := (open_succeeds sited₁ isDir file).reporting
    (f := SyncError.state (root.below [stateDirectory, "lock"]).text)
  have opened := Ensures.reported (f := SyncError.state (root.below [stateDirectory, "lock"]).text)
    (open_ensures sited₁)
  obtain ⟨w₂, opened, locks₂, prepared₂, -⟩ := opens.ends opened
  have sited₂ := prepared₂.sited sited₁
  have unheld : place top "lock" ∉ w₂.locks := by rwa [locks₂, locks]
  have asked : (reporting (SyncError.state (root.below [stateDirectory, "lock"]).text)
      (Files.isLocked (root.below [stateDirectory, "lock"]))).exec w₂ = (.ok false, w₂) := by
    rw [exec_reporting, exec_isLocked (sited₂.straight (by decide)) sited₂.lock unheld]
    rfl
  obtain ⟨w₃, held⟩ : ∃ w', (reporting (SyncError.state (root.below [stateDirectory, "lock"]).text)
      (Files.hold (root.below [stateDirectory, "lock"]))).exec w₂ = (.ok (), w') := ⟨_, rfl⟩
  refine ⟨w₃, (exec_bind_ok ensured).trans ?_⟩
  rw [lockFile_below]
  refine (exec_bind_ok opened).trans ((exec_bind_ok asked).trans ?_)
  rw [if_neg (by simp)]
  exact held

theorem whileLocked_ensures {α : Type} {body : Action SyncError α} {always mid : Disk → Prop}
    {post : α → Disk → Prop}
    (locked : (lock root).Ensures always (fun r e => r = .ok () → mid e) w) (sound : w.disk.Sound)
    (inside : ∀ w' : World, (lock root).exec w = (.ok (), w') → w'.disk.Sound → mid w'.disk →
      body.Ensures always (fun r e => ∀ a, r = .ok a → post a e) w') :
    (whileLocked root body).Ensures always (fun r e => ∀ a, r = .ok a → post a e) w := by
  unfold whileLocked
  refine ((locked.keeping sound).weaken fun _ both => both.1).bind_exec ?_ (by simp)
  rintro ⟨⟩ done ⟨taken, sound₁, -⟩
  have ran := (inside _ (Prod.ext done rfl) sound₁ (taken rfl)).seen
  refine ran.tried sound₁ ?_
  intro r w₂ _ _ ended
  refine (Files.release_ensures ended.2).bind ?_ (by simp)
  rintro ⟨⟩ w₃ ⟨-, same⟩
  rw [← same] at ended
  cases r with
  | error fault => exact ensures_throw ended.2 (by simp)
  | ok a =>
    refine ensures_pure ended.2 ?_
    rintro _ ⟨⟩
    exact ended.1 a rfl

theorem whileLocked_ok {α : Type} {body : Action SyncError α} {a : α} {w' : World}
    (ran : (whileLocked root body).exec w = (.ok a, w')) :
    ∃ w₁ w₂, (lock root).exec w = (.ok (), w₁) ∧ body.exec w₁ = (.ok a, w₂) ∧
      w'.disk = w₂.disk := by
  unfold whileLocked at ran
  rw [exec_bind] at ran
  rcases locked : (lock root).exec w with ⟨r, w₁⟩
  rw [locked] at ran
  cases r with
  | error fault => cases ran
  | ok _ =>
    rcases inside : body.exec w₁ with ⟨r, w₂⟩
    have released : (unlock root).exec w₂ = (.ok (), ((unlock root).exec w₂).2) := rfl
    have same : ((unlock root).exec w₂).2.disk = w₂.disk := (Files.release_ensures rfl).ends.2
    simp only [exec_bind, exec_outcome, inside] at ran
    rw [released] at ran
    refine ⟨w₁, w₂, rfl, ?_⟩
    cases r with
    | error fault => cases ran
    | ok _ =>
      cases ran
      exact ⟨inside, same⟩

theorem exec_whileLocked_unlocks {α : Type} {body : Action SyncError α} {a : α}
    {w₁ w₂ : World} (locked : (lock root).exec w = (.ok (), w₁))
    (ran : body.exec w₁ = (.ok a, w₂)) :
    (whileLocked root body).exec w = (.ok a, ((unlock root).exec w₂).2) := by
  have tried : (outcome body : Action SyncError _).exec w₁ = (.ok (.ok a), w₂) := by
    rw [exec_outcome, ran]
  have released : (unlock root).Ensures (fun _ => True) (fun r e => r = .ok () ∧ e = w₂.disk)
    w₂ := Files.release_ensures trivial
  have given : (unlock root).exec w₂ = (.ok (), ((unlock root).exec w₂).2) :=
    Prod.ext released.ends.1 rfl
  exact (exec_bind_ok locked).trans ((exec_bind_ok tried).trans (exec_bind_ok given))

theorem exec_whileLocked {α : Type} {body : Action SyncError α} {a : α}
    {w₁ w₂ : World} (locked : (lock root).exec w = (.ok (), w₁))
    (ran : body.exec w₁ = (.ok a, w₂)) :
    ∃ w', (whileLocked root body).exec w = (.ok a, w') ∧ w'.disk = w₂.disk := by
  have released : (unlock root).Ensures (fun _ => True) (fun r e => r = .ok () ∧ e = w₂.disk)
    w₂ := Files.release_ensures trivial
  exact ⟨_, exec_whileLocked_unlocks locked ran, released.ends.2⟩

theorem Housed.refl (sound : d.Sound) : Housed top d d := ⟨sound, rfl, fun _ _ => rfl⟩

theorem Housed.trans (first : Housed top d e) (second : Housed top e f) : Housed top d f where
  sound := second.sound
  home := second.home.trans first.home
  elsewhere q outside := (second.elsewhere q outside).trans (first.elsewhere q outside)

theorem save_ensures (sited : Sited root top w.disk) (state : RunState) :
    (state.save root).Ensures (Housed top w.disk) (fun r e => Housed top w.disk e ∧ (r = .ok () →
      root.Callable [stateDirectory, "state.toml"] ∧
        (∃ mode, e.look (place top "state.toml") = some (.file state.text.toUTF8 mode) ∧
          w.disk.Grants (place top "state.toml") Files.plainMode mode) ∧
        ∀ q, q ≠ place top "state.toml" → e.look q = w.disk.look q ∨
          (w.disk.look q = none ∧ (∀ target, e.look q ≠ some (.link target)) ∧ Makes top q))) w := by
  unfold RunState.save
  refine ((ensure_ensures sited).weaken fun _ => Prepared.housed).bind ?_
    fun _ _ holds => ⟨holds.1.housed, by simp⟩
  rintro ⟨⟩ w₁ ⟨prepared, -⟩
  have sited₁ := prepared.sited sited
  have straight := sited₁.straight (by decide : IsName "state.toml")
  have housed : ∀ e : Disk, (∀ q, q ≠ place top "state.toml" → e.look q = w₁.disk.look q) →
      e.Sound → e.home = w₁.disk.home → Housed top w.disk e := by
    intro e same sound home
    refine prepared.housed.trans ⟨sound, home, fun q outside => same q ?_⟩
    rintro rfl
    exact outside (place_inside top _)
  have written := (Files.write_ensures straight sited₁.record state.text.toUTF8).keeping
    sited₁.sound
  simp only [RunState.stateFile_below]
  refine Ensures.reported ((written.weaken fun e ends => housed e ends.1.1 ends.2.1 ends.2.2).mono ?_)
  rintro r e ⟨⟨same, ok, -⟩, sound, home⟩
  refine ⟨housed e same sound home, fun done => ?_⟩
  obtain ⟨callable, mode, file, grants⟩ := ok done
  refine ⟨callable, ⟨mode, file, ?_⟩, fun q other => (same q other).symm ▸ prepared.look q⟩
  have record : w₁.disk.look (place top "state.toml") = w.disk.look (place top "state.toml") :=
    prepared.record
  cases grants with
  | made free => exact .made (record.symm.trans free)
  | kept stood writable => exact .kept (record.symm.trans stood) writable

theorem sited_of_save {state : RunState} {w' : World} (sited : Sited root top w.disk)
    (saved : (state.save root).exec w = (.ok (), w')) : Sited root top w'.disk ∧
      ∀ q node, q ≠ place top "state.toml" → w.disk.look q = some node →
        w'.disk.look q = some node := by
  have ended := (save_ensures sited state).ends
  rw [saved] at ended
  obtain ⟨housed, done⟩ := ended
  obtain ⟨-, ⟨mode, file, -⟩, other⟩ := done rfl
  have unlinked : ∀ q, q ≠ place top "state.toml" →
      (∀ target, w.disk.look q ≠ some (.link target)) →
      ∀ target, w'.disk.look q ≠ some (.link target) := by
    intro q apart plain
    rcases other q apart with same | ⟨-, made, -⟩
    · exact same ▸ plain
    · exact made
  refine ⟨⟨housed.sound, housed.rooted sited.rooted, unlinked _ ?_ sited.directory,
    unlinked _ (place_ne (by decide)) sited.lock, by simp [file]⟩, fun q node apart stood => ?_⟩
  · simp [place]
  · rcases other q apart with same | ⟨free, -⟩
    · exact same.trans stood
    · cases free.symm.trans stood

theorem save_succeeds (sited : Sited root top w.disk) (usable : Usable root top w.disk)
    (state : RunState) : ∃ w', (state.save root).exec w = (.ok (), w') := by
  obtain ⟨w₁, ensured, -, prepared, -, rooms⟩ :=
    (ensure_succeeds sited usable).ends (ensure_ensures sited)
  have sited₁ := prepared.sited sited
  obtain ⟨callable, fits⟩ := usable.files "state.toml" (by simp)
  rw [← prepared.record] at fits
  have isDir := sited₁.directory_isDir ((rooms rfl).staging (usable.unlinked (by simp))).2
  have opened : w₁.disk.Open top ([stateDirectory] ++ ["state.toml"]) :=
    (sited₁.sound.opened (by simp [isDir])).concat isDir
  have straight := sited₁.straight (by decide : IsName "state.toml")
  obtain ⟨w₂, written⟩ : ∃ w', (reporting
      (SyncError.state (root.below [stateDirectory, "state.toml"]).text)
      (Files.writeText (root.below [stateDirectory, "state.toml"]) state.text)).exec w₁
        = (.ok (), w') := by
    rw [exec_reporting, Files.writeText, Files.write, exec_change,
      straight.writeFile_ok callable opened fits]
    exact ⟨_, rfl⟩
  refine ⟨w₂, (exec_bind_ok ensured).trans ?_⟩
  rw [RunState.stateFile_below]
  exact written

end PinnedTree.Layout
