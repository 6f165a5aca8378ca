import Mathlib.Data.List.Infix
import PinnedTree.Proofs.Archive.Confinement

namespace PinnedTree.Archive

open PinnedTree.Action

variable {entries : List (List String × Bool)} {r : String}

theorem liesIn_iff {entry : List String × Bool} : liesIn r entry = true ↔
    entry.1.head? = some r ∧ (entry.1.length = 1 → entry.2 = true) := by
  obtain ⟨_ | ⟨first, _ | ⟨second, rest⟩⟩, isDirectory⟩ := entry <;> simp [liesIn, and_comm]

/-- A directory is left out if it has a name, all names start with it, it is the whole name of
directories only, and something lies in it. -/
theorem commonTop?_eq_some : commonTop? entries = some r ↔ (r ≠ "." ∧ r ≠ "..") ∧
    (∀ entry ∈ entries, entry.1.head? = some r) ∧
      (∀ entry ∈ entries, entry.1.length = 1 → entry.2 = true) ∧
        ∃ entry ∈ entries, 2 ≤ entry.1.length := by
  have lies : entries.all (liesIn r) = true ↔ (∀ entry ∈ entries, entry.1.head? = some r) ∧
      ∀ entry ∈ entries, entry.1.length = 1 → entry.2 = true := by
    simp only [List.all_eq_true, liesIn_iff]
    exact forall₂_and
  have deep : (entries.any fun entry => 2 ≤ entry.1.length) = true ↔
      ∃ entry ∈ entries, 2 ≤ entry.1.length := by
    simp
  have named (top : String) : (top ≠ "." && top ≠ "..") = true ↔ top ≠ "." ∧ top ≠ ".." := by simp
  rw [← and_assoc (a := ∀ entry ∈ entries, _), ← lies, ← deep, ← named, commonTop?.eq_def]
  split
  · rename_i top rest isDirectory more
    split
    · rename_i all
      rw [Bool.and_eq_true, Bool.and_eq_true, and_assoc] at all
      rw [Option.some.injEq]
      constructor
      · rintro rfl
        exact all
      · intro other
        have first := (liesIn_iff.mp (List.all_eq_true.mp other.2.1 _ List.mem_cons_self)).1
        simpa using first
    · rename_i neither
      rw [Bool.and_eq_true, Bool.and_eq_true, and_assoc] at neither
      refine ⟨nofun, fun other => ?_⟩
      have first := (liesIn_iff.mp (List.all_eq_true.mp other.2.1 _ List.mem_cons_self)).1
      obtain rfl : top = r := by simpa using first
      exact absurd other neither
  · rename_i unnamed
    refine ⟨nofun, fun ⟨_, other⟩ => ?_⟩
    obtain ⟨entry, member, -⟩ := deep.mp other.2
    obtain ⟨⟨first, isDirectory⟩, rest, rfl⟩ : ∃ first rest, entries = first :: rest :=
      List.exists_cons_of_ne_nil (List.ne_nil_of_mem member)
    have head := (liesIn_iff.mp (List.all_eq_true.mp other.1 _ List.mem_cons_self)).1
    obtain ⟨name, more, rfl⟩ : ∃ name more, first = name :: more :=
      List.exists_cons_of_ne_nil (by rintro rfl; cases head)
    exact absurd rfl (unnamed _ _ _ _)

abbrev Tree := List String → Option Node

namespace Tree

def bare : Tree := fun path => if path = [] then some .dir else none

/-- The tree with a directory and those that hold it, unless something else is in the way. -/
def addDir (t : Tree) (path : List String) : Option Tree :=
  if ∀ above ∈ path.inits, t above = none ∨ t above = some .dir then
    some fun q => if q <+: path then some .dir else t q
  else none

/-- The tree with a file, and the directories that hold it. A file that is there is written over, and
keeps its mode unless it is given one. -/
def addFile (t : Tree) (path : List String) (content : ByteArray) (mode : Option Nat) :
    Option Tree := do
  let t ← t.addDir path.dropLast
  let old ← match t path with
    | none => some Files.plainMode
    | some (.file _ old) => some old
    | some _ => none
  return Function.update t path (some (.file content ((mode.map (· % 0o1000)).getD old)))

def add (t : Tree) (m : Member) : Option Tree :=
  if m.isDirectory then t.addDir m.path
  else t.addFile m.path (Zip.content m.entry m.packed).1 m.entry.mode

def ofMembers (members : List Member) : Option Tree := members.foldlM add bare

variable {t u v : Tree} {path q : List String} {content : ByteArray} {mode : Option Nat} {m : Member}

theorem addDir_eq_some : t.addDir path = some v ↔
    (∀ above, above <+: path → t above = none ∨ t above = some .dir) ∧
      v = fun q => if q <+: path then some .dir else t q := by
  have clear : (∀ above ∈ path.inits, t above = none ∨ t above = some .dir) ↔
      ∀ above, above <+: path → t above = none ∨ t above = some .dir := by
    simp only [List.mem_inits]
  rw [← clear, addDir]
  split
  · rename_i free
    rw [Option.some.injEq, and_iff_right free, eq_comm]
  · rename_i blocked
    exact ⟨nofun, fun other => absurd other.1 blocked⟩

theorem addDir_nil (base : t [] = some .dir) : t.addDir [] = some t := by
  refine addDir_eq_some.mpr ⟨fun above under => ?_, funext fun q => ?_⟩
  · rw [List.prefix_nil.mp under]
    exact .inr base
  · split
    · rename_i under
      rw [List.prefix_nil.mp under, base]
    · rfl

theorem addFile_eq_some : t.addFile path content mode = some v ↔
    ∃ u old, t.addDir path.dropLast = some u ∧
      (u path = none ∧ old = Files.plainMode ∨ ∃ before, u path = some (.file before old)) ∧
      v = Function.update u path (some (.file content ((mode.map (· % 0o1000)).getD old))) := by
  unfold addFile
  cases t.addDir path.dropLast with
  | none => simp
  | some u =>
    cases stands : u path with
    | none => simp [stands, eq_comm]
    | some node => cases node <;> simp [stands, eq_comm]

structure Under (r : String) (t u : Tree) : Prop where
  base : t [] = some .dir
  top : t [r] = none ∨ t [r] = some .dir
  root : u [] = some .dir
  same : ∀ q, q ≠ [] → t (r :: q) = u q

theorem Under.bare (r : String) : Under r bare bare :=
  ⟨rfl, .inl rfl, rfl, fun q inner => by simp [Tree.bare, inner]⟩

theorem Under.addDir (under : Under r t u) (made : u.addDir path = some v) :
    ∃ whole, t.addDir (r :: path) = some whole ∧ Under r whole v ∧ whole [r] = some .dir := by
  obtain ⟨clear, rfl⟩ := addDir_eq_some.mp made
  refine ⟨_, addDir_eq_some.mpr ⟨fun above within => ?_, rfl⟩, ⟨?_, ?_, ?_, fun q inner => ?_⟩, ?_⟩
  · rcases above with - | ⟨first, rest⟩
    · exact .inr under.base
    obtain ⟨rfl, inside⟩ := List.cons_prefix_cons.mp within
    by_cases whole : rest = []
    · exact whole ▸ under.top
    · rw [under.same rest whole]
      exact clear rest inside
  · simp
  · exact .inr (by simp)
  · simp
  · simp [List.cons_prefix_cons, under.same q inner]
  · simp

theorem Under.addFile (under : Under r t u) (written : u.addFile path content mode = some v) :
    ∃ whole, t.addFile (r :: path) content mode = some whole ∧ Under r whole v ∧
      whole [r] = some .dir := by
  obtain ⟨base, old, made, fits, rfl⟩ := addFile_eq_some.mp written
  obtain ⟨whole, madeWhole, within, isDir⟩ := under.addDir made
  have inner : path ≠ [] := by
    rintro rfl
    rw [within.root] at fits
    simp at fits
  have parent : (r :: path).dropLast = r :: path.dropLast := by
    obtain ⟨first, rest, rfl⟩ := List.exists_cons_of_ne_nil inner
    rfl
  refine ⟨_, addFile_eq_some.mpr ⟨whole, old, parent ▸ madeWhole, ?_, rfl⟩, ⟨?_, ?_, ?_, ?_⟩, ?_⟩
  · rwa [within.same path inner]
  · simpa using within.base
  · exact .inr (by simpa [inner.symm] using isDir)
  · simpa [inner.symm] using within.root
  · intro q filled
    by_cases here : q = path
    · simp [here]
    · simp [Function.update_of_ne, here, within.same q filled]
  · simpa [inner.symm] using isDir

theorem Under.add (under : Under r t u) (head : m.path.head? = some r)
    (added : u.add { m with path := m.path.drop 1 } = some v) :
    ∃ whole, t.add m = some whole ∧ Under r whole v ∧ whole [r] = some .dir := by
  obtain ⟨rest, named⟩ : ∃ rest, m.path = r :: rest := by
    cases named : m.path with
    | nil => simp [named] at head
    | cons first rest => exact ⟨rest, by simpa [named] using head⟩
  unfold Tree.add at added ⊢
  simp only [named, List.drop_one, List.tail_cons] at added ⊢
  split at added
  · rename_i isDirectory
    rw [if_pos isDirectory]
    exact under.addDir added
  · rename_i isFile
    rw [if_neg isFile]
    exact under.addFile added

/-- Entries that lie in the directory of a name, written without it, are what lies there after they
were written at their full names. -/
theorem Under.members {members : List Member} (under : Under r t u)
    (heads : ∀ m ∈ members, m.path.head? = some r)
    (written : (members.map fun m => { m with path := m.path.drop 1 }).foldlM Tree.add u = some v) :
    ∃ whole, members.foldlM Tree.add t = some whole ∧ Under r whole v ∧
      (members ≠ [] → whole [r] = some .dir) := by
  induction members generalizing t u with
  | nil =>
    cases written
    exact ⟨t, rfl, under, by simp⟩
  | cons m rest ih =>
    rw [List.forall_mem_cons] at heads
    rw [List.map_cons, List.foldlM_cons, Option.bind_eq_bind, Option.bind_eq_some_iff] at written
    obtain ⟨next, added, onward⟩ := written
    obtain ⟨whole, addedWhole, under', isDir⟩ := under.add heads.1 added
    obtain ⟨last, done, ended, filled⟩ := ih under' heads.2 onward
    refine ⟨last, ?_, ended, fun _ => ?_⟩
    · rw [List.foldlM_cons, addedWhole]
      exact done
    · by_cases none : rest = []
      · subst none
        cases done
        exact isDir
      · exact filled none

end Tree

variable {target : Location} {top : DiskPath} {t : Tree} {names : List String} {w w' : World}
  {content : ByteArray} {m : Member} {members : List Member}

structure Holds (target : Location) (top : DiskPath) (t : Tree) (d : Disk) : Prop where
  sound : d.Sound
  named : target.text ≠ ""
  rooted : d.Rooted target top
  look : ∀ q, d.look (top ++ q) = t q
  plain : ∀ q link, t q ≠ some (.link link)

theorem Holds.base {d : Disk} (holds : Holds target top t d) : t [] = some .dir := by
  rw [← holds.look, List.append_nil]
  exact holds.rooted.isDir

theorem Holds.straight {d : Disk} (holds : Holds target top t d) (inner : names ≠ [])
    (plain : ∀ name ∈ names, IsName name) : d.Straight target top names :=
  ⟨holds.rooted, plain, inner, fun r _ _ link => holds.look r ▸ holds.plain r link⟩

theorem Holds.sheltered {d : Disk} (holds : Holds target top t d) : Sheltered d target top where
  sound := holds.sound
  named := holds.named
  leads := holds.rooted.leads _ rfl fun _ _ => rfl
  isDir := holds.rooted.isDir
  plain q inside link := by
    obtain ⟨rest, rfl⟩ := inside.1
    rw [holds.look]
    exact holds.plain rest link

theorem Holds.makeDirs (holds : Holds target top t w.disk) (plain : ∀ name ∈ names, IsName name)
    (ran : (Files.makeDirs (target.below names)).exec w = (.ok (), w')) :
    ∃ u, t.addDir names = some u ∧ Holds target top u w'.disk := by
  have ended := ((Files.makeDirs_ensures holds.sound holds.rooted plain
    fun r _ _ link => holds.look r ▸ holds.plain r link).keeping holds.sound).ends
  rw [ran] at ended
  obtain ⟨⟨built, made, -⟩, sound, home⟩ := ended
  have rooted := built.rooted holds.rooted holds.sound home
  have isDir : w'.disk.look (top ++ names) = some .dir := by
    by_cases inner : names = []
    · simpa [inner] using rooted.isDir
    · exact (made rfl inner).2
  have dirs : ∀ above, above <+: names → w'.disk.look (top ++ above) = some .dir := by
    intro above under
    by_cases whole : above = names
    · exact whole ▸ isDir
    · exact sound.opened (by simp [isDir]) above under whole
  refine ⟨_, Tree.addDir_eq_some.mpr ⟨fun above under => ?_, rfl⟩,
    sound, holds.named, rooted, fun q => ?_, fun q link => ?_⟩
  · rw [← holds.look]
    rcases built (top ++ above) with same | ⟨free, -⟩
    · exact .inr (same.symm.trans (dirs above under))
    · exact .inl free
  · by_cases under : q <+: names
    · simp [under, dirs q under]
    · rw [if_neg under, ← holds.look]
      exact built.away fun within => under ((List.prefix_append_right_inj top).mp within)
  · split
    · simp
    · exact holds.plain q link

theorem setMode_ok {step : Step} {mode : Nat} {old : ByteArray} {before : Nat} {d : Disk}
    (straight : d.Straight target top names)
    (file : d.look (top ++ names) = some (.file old before))
    (set : d.setMode (target.below names) mode = .ok step) : step = .setMode (top ++ names) mode := by
  unfold Disk.setMode at set
  rw [straight.resolve_follow (by simp [file])] at set
  cases found : d.resolve false (target.below names) with
  | error fault => simp [found, bind, Except.bind] at set
  | ok place =>
    obtain ⟨-, -, rfl⟩ := (straight.resolve place).mp found
    simpa [found, Disk.placeAt, file, bind, Except.bind, pure, Except.pure, eq_comm] using set

theorem Holds.put {d e : Disk} {mode : Nat} (holds : Holds target top t d) (inner : names ≠ [])
    (sound : e.Sound) (home : e.home = d.home) (same : ∀ q, q ≠ top ++ names → e.look q = d.look q)
    (file : e.look (top ++ names) = some (.file content mode)) :
    Holds target top (Function.update t names (some (.file content mode))) e where
  sound := sound
  named := holds.named
  rooted := holds.rooted.congr home fun q outside => same q fun here =>
    outside (here ▸ Disk.inside_append.mpr inner)
  look q := by
    by_cases here : q = names
    · rw [here, file, Function.update_self]
    · rw [Function.update_of_ne here, ← holds.look]
      exact same _ (by simpa using here)
  plain q link := by
    by_cases here : q = names
    · simp [here]
    · rw [Function.update_of_ne here]
      exact holds.plain q link

theorem Holds.write (holds : Holds target top t w.disk) (inner : names ≠ [])
    (plain : ∀ name ∈ names, IsName name)
    (ran : (Files.write (target.below names) content).exec w = (.ok (), w')) :
    ∃ old, (t names = none ∧ old = Files.plainMode ∨ ∃ before, t names = some (.file before old)) ∧
      Holds target top (Function.update t names (some (.file content old))) w'.disk := by
  have straight := holds.straight inner plain
  have ended := ((Files.write_ensures straight (fun link => holds.look names ▸ holds.plain names link)
    content).keeping holds.sound).ends
  rw [ran] at ended
  obtain ⟨⟨same, done, -⟩, sound, home⟩ := ended
  obtain ⟨-, old, file, grants⟩ := done rfl
  refine ⟨old, ?_, holds.put inner sound home same file⟩
  rw [← holds.look]
  cases grants with
  | made free => exact .inl ⟨free, rfl⟩
  | kept stood _ => exact .inr ⟨_, stood⟩

theorem Holds.setMode {old mode : Nat}
    (holds : Holds target top (Function.update t names (some (.file content old))) w.disk)
    (inner : names ≠ []) (plain : ∀ name ∈ names, IsName name)
    (ran : (changeOnce (·.setMode (target.below names) mode) : Action IoFault Unit).exec w
      = (.ok (), w')) :
    Holds target top (Function.update t names (some (.file content mode))) w'.disk := by
  have file : w.disk.look (top ++ names) = some (.file content old) := by
    rw [holds.look, Function.update_self]
  rw [exec_changeOnce] at ran
  cases set : w.disk.setMode (target.below names) mode with
  | error fault => simp [set] at ran
  | ok step =>
    obtain rfl := setMode_ok (holds.straight inner plain) file set
    simp only [set, Prod.mk.injEq, true_and] at ran
    subst ran
    have real : top ++ names ≠ [] := by simp [inner]
    have fits : (Step.setMode (top ++ names) mode).Fits w.disk := trivial
    have ends : (Step.setMode (top ++ names) mode).apply w.disk
        = w.disk.put (top ++ names) (.file content mode) := by
      rw [Step.apply, file]
    have again : Holds target top _ ((Step.setMode (top ++ names) mode).apply w.disk) :=
      holds.put inner (fits.sound holds.sound) (by simp)
        (fun q other => by rw [ends, Disk.look_put real, if_neg other])
        (by rw [ends, Disk.look_put real, if_pos rfl])
    rwa [Function.update_idem] at again

theorem Holds.unpackFile (holds : Holds target top t w.disk) (plain : ∀ name ∈ m.path, IsName name)
    (ran : (unpackFile (target.below m.path) m).exec w = (.ok (), w')) :
    ∃ u, t.addFile m.path (Zip.content m.entry m.packed).1 m.entry.mode = some u ∧
      Holds target top u w'.disk := by
  unfold Archive.unpackFile at ran
  rw [exec_reporting_eq_ok, exec_bind_eq_ok] at ran
  obtain ⟨_, w₁, parents, ran⟩ := ran
  generalize Zip.content m.entry m.packed = unpacked at ran ⊢
  obtain ⟨content, fault⟩ := unpacked
  dsimp only at ran
  rw [exec_bind_eq_ok] at ran
  obtain ⟨_, w₂, written, ran⟩ := ran
  rcases List.eq_nil_or_concat' m.path with empty | ⟨init, last, named⟩
  · rw [empty] at parents written
    have sheltered := (extracts_makeParents holds.sheltered
      .nil).sheltered holds.sheltered
    rw [parents] at sheltered
    obtain ⟨fault, refused⟩ := exec_write_target sheltered content
    cases refused.symm.trans written
  rw [named] at plain parents written ran ⊢
  have inner : init ++ [last] ≠ [] := by simp
  rw [Files.makeParents, Location.parent_below] at parents
  obtain ⟨u, made, holds₁⟩ := holds.makeDirs (fun name member => plain name (by simp [member])) parents
  obtain ⟨old, fits, holds₂⟩ := holds₁.write inner plain written
  refine ⟨_, Tree.addFile_eq_some.mpr ⟨u, old, by rwa [List.dropLast_concat], fits, rfl⟩, ?_⟩
  cases fault with
  | some fault => cases ran
  | none =>
    dsimp only at ran
    cases given : m.entry.mode with
    | none =>
      rw [given] at ran
      cases ran
      exact holds₂
    | some mode =>
      rw [given] at ran
      exact holds₂.setMode inner plain ran

theorem unpack_cons (left : Option String) : Archive.unpack target left (m :: members) =
    Backend.poll >>= fun _ =>
      if left.isSome && (strip left m).path.isEmpty then Archive.unpack target left members
      else if m.isDirectory then
        reporting .io (Files.makeDirs (target.below (strip left m).path)) >>= fun _ =>
          Archive.unpack target left members
      else unpackFile (target.below (strip left m).path) (strip left m) >>= fun _ =>
        Archive.unpack target left members >>= fun n => pure (n + 1) := rfl

theorem poll_ok (ran : Backend.poll.exec w = (.ok (), w')) : w'.disk = w.disk := by
  unfold Backend.poll at ran
  rw [exec_bind_eq_ok] at ran
  obtain ⟨cancelled, w₁, asked, ran⟩ := ran
  cases asked
  split at ran <;> cases ran
  rfl

theorem Holds.congr {d e : Disk} (holds : Holds target top t d) (same : e = d) :
    Holds target top t e := same ▸ holds

theorem Holds.unpack {left : Option String} {n : Nat} (holds : Holds target top t w.disk)
    (plain : ∀ m ∈ members, ∀ name ∈ m.path, IsName name)
    (dirs : left.isSome = true → ∀ m ∈ members, (strip left m).path = [] → m.isDirectory = true)
    (ran : (Archive.unpack target left members).exec w = (.ok n, w')) :
    ∃ u, (members.map (strip left)).foldlM Tree.add t = some u ∧ Holds target top u w'.disk ∧
      n = members.countP (!·.isDirectory) := by
  induction members generalizing t w n with
  | nil =>
    cases ran
    exact ⟨t, rfl, holds, rfl⟩
  | cons m rest ih =>
    rw [List.forall_mem_cons] at plain
    have dirs' := fun found m member => dirs found m (List.mem_cons_of_mem _ member)
    have stripped : ∀ name ∈ (strip left m).path, IsName name := by
      intro name member
      simp only [strip] at member
      split at member
      · exact plain.1 name (List.mem_of_mem_drop member)
      · exact plain.1 name member
    rw [unpack_cons, exec_bind_eq_ok] at ran
    obtain ⟨_, w₁, polled, ran⟩ := ran
    replace holds := holds.congr (poll_ok polled)
    rw [List.map_cons, List.foldlM_cons]
    split at ran
    · rename_i nothing
      rw [Bool.and_eq_true, List.isEmpty_iff] at nothing
      have isDirectory := dirs nothing.1 m List.mem_cons_self nothing.2
      obtain ⟨v, more, holds₂, counted⟩ := ih holds plain.2 dirs' ran
      have first : t.add (strip left m) = some t :=
        (if_pos isDirectory).trans (by rw [nothing.2, Tree.addDir_nil holds.base])
      refine ⟨v, by rw [first]; exact more, holds₂, ?_⟩
      simpa [isDirectory] using counted
    split at ran
    · rename_i isDirectory
      rw [exec_bind_eq_ok] at ran
      obtain ⟨_, w₂, made, ran⟩ := ran
      rw [exec_reporting_eq_ok] at made
      obtain ⟨u, added, holds₂⟩ := holds.makeDirs stripped made
      obtain ⟨v, more, holds₃, counted⟩ := ih holds₂ plain.2 dirs' ran
      have first : t.add (strip left m) = some u := (if_pos isDirectory).trans added
      refine ⟨v, by rw [first]; exact more, holds₃, ?_⟩
      simpa [isDirectory] using counted
    · rename_i isFile
      rw [exec_bind_eq_ok] at ran
      obtain ⟨_, w₂, unpacked, ran⟩ := ran
      rw [exec_bind_eq_ok] at ran
      obtain ⟨count, w₃, later, ran⟩ := ran
      cases ran
      obtain ⟨u, added, holds₂⟩ := holds.unpackFile (m := strip left m) stripped unpacked
      obtain ⟨v, more, holds₃, counted⟩ := ih holds₂ plain.2 dirs' later
      have first : t.add (strip left m) = some u := (if_neg isFile).trans added
      refine ⟨v, by rw [first]; exact more, holds₃, ?_⟩
      simp [isFile, counted]

theorem topOf_eq_some (plain : ∀ m ∈ members, ∀ name ∈ m.path, IsName name) :
    topOf members = some r ↔ (∀ m ∈ members, m.path.head? = some r) ∧
      (∀ m ∈ members, m.path.length = 1 → m.isDirectory = true) ∧
        ∃ m ∈ members, 2 ≤ m.path.length := by
  rw [topOf, commonTop?_eq_some]
  simp only [List.mem_map, exists_exists_and_eq_and, forall_exists_index, and_imp,
    forall_apply_eq_imp_iff₂]
  refine and_iff_right_of_imp ?_
  rintro ⟨heads, -, m, member, -⟩
  obtain ⟨-, notHere, notUp, -⟩ := plain m member r (List.mem_of_mem_head? (heads m member))
  exact ⟨notHere, notUp⟩

theorem Holds.of_bare {d : Disk} (sound : d.Sound)
    (leads : d.resolve true target = .ok (.taken top .dir)) (isDir : d.look top = some .dir)
    (bare : ∀ q, Disk.Inside top q → d.look q = none) : Holds target top .bare d where
  sound := sound
  named := by
    intro empty
    simp [Disk.resolve, empty] at leads
  rooted := .of_bare isDir (Disk.walk_of_resolve leads) bare
  look q := by
    by_cases here : q = []
    · simp [here, Tree.bare, isDir]
    · rw [Tree.bare, if_neg here]
      exact bare _ (Disk.inside_append.mpr here)
  plain q link := by
    unfold Tree.bare
    split <;> simp

/-- Let the paths of an archive's entries have plain names only. The directory that is left out is the
one at the top that all paths start with, if it is the whole path of directories only and something
lies in it. When the archive was unpacked into an empty directory, what lies there is the tree of its
entries, each written at its full path, or what lies in this tree in the directory that is left out;
and the files of the archive were counted. -/
theorem unpackAll_strips (enclosed : String → Option (List String)) (bytes : ByteArray)
    (plain : ∀ found, Archive.members enclosed bytes = .ok found →
      ∀ m ∈ found, ∀ name ∈ m.path, IsName name)
    (sound : w.disk.Sound)
    (leads : w.disk.resolve true target = .ok (.taken top .dir)) (isDir : w.disk.look top = some .dir)
    (bare : ∀ q, Disk.Inside top q → w.disk.look q = none) :
    (∀ found, Archive.members enclosed bytes = .ok found → ∀ r, topOf found = some r ↔
      (∀ m ∈ found, m.path.head? = some r) ∧
        (∀ m ∈ found, m.path.length = 1 → m.isDirectory = true) ∧ ∃ m ∈ found, 2 ≤ m.path.length) ∧
    ∀ n w', (unpackAll enclosed bytes target).exec w = (.ok n, w') →
      ∃ found whole, Archive.members enclosed bytes = .ok found ∧ Tree.ofMembers found = some whole ∧
        (∀ q, w'.disk.look (top ++ q) = whole ((topOf found).toList ++ q)) ∧
        n = found.countP (!·.isDirectory) := by
  refine ⟨fun found read r => topOf_eq_some (plain found read), fun n w' ran => ?_⟩
  have holds : Holds target top .bare w.disk := .of_bare sound leads isDir bare
  unfold unpackAll at ran
  split at ran
  · cases ran
  rename_i found read
  replace plain := plain found read
  refine ⟨found, ?_⟩
  cases common : topOf found with
  | none =>
    rw [common] at ran
    obtain ⟨whole, made, holds', counted⟩ := holds.unpack plain (by simp) ran
    have same : found.map (strip none) = found := List.map_id'' (fun _ => rfl) found
    rw [same] at made
    exact ⟨whole, read, made, holds'.look, counted⟩
  | some r =>
    rw [common] at ran
    obtain ⟨heads, dirs, deep⟩ := (topOf_eq_some plain).mp common
    have short : ∀ m ∈ found, (strip (some r) m).path = [] → m.isDirectory = true := by
      intro m member empty
      refine dirs m member ?_
      have head := heads m member
      simp only [strip, Option.isSome_some, if_true] at empty
      cases named : m.path with
      | nil => simp [named] at head
      | cons first rest => simpa [named] using empty
    obtain ⟨inner, made, holds', counted⟩ := holds.unpack plain (fun _ => short) ran
    obtain ⟨whole, madeWhole, under, isTop⟩ := (Tree.Under.bare r).members heads made
    obtain ⟨m, member, -⟩ := deep
    refine ⟨whole, read, madeWhole, fun q => ?_, counted⟩
    rw [holds'.look]
    by_cases here : q = []
    · rw [here, under.root]
      exact (isTop (List.ne_nil_of_mem member)).symm
    · exact (under.same q here).symm

def climbingArchive : ByteArray := ⟨#[
  80, 75, 3, 4, 20, 0, 0, 0, 0, 0, 0, 0, 33, 0, 0, 0, 0, 0, 0, 0, 0, 0, 0, 0, 0, 0, 3, 0, 0, 0,
  116, 47, 120, 80, 75, 3, 4, 20, 0, 0, 0, 0, 0, 0, 0, 33, 0, 0, 0, 0, 0, 0, 0, 0, 0, 0, 0, 0,
  0, 8, 0, 0, 0, 116, 47, 46, 46, 47, 116, 47, 121, 80, 75, 1, 2, 20, 0, 20, 0, 0, 0, 0, 0, 0,
  0, 33, 0, 0, 0, 0, 0, 0, 0, 0, 0, 0, 0, 0, 0, 3, 0, 0, 0, 0, 0, 0, 0, 0, 0, 0, 0, 128, 1, 0,
  0, 0, 0, 116, 47, 120, 80, 75, 1, 2, 20, 0, 20, 0, 0, 0, 0, 0, 0, 0, 33, 0, 0, 0, 0, 0, 0, 0,
  0, 0, 0, 0, 0, 0, 8, 0, 0, 0, 0, 0, 0, 0, 0, 0, 0, 0, 128, 1, 33, 0, 0, 0, 116, 47, 46, 46,
  47, 116, 47, 121, 80, 75, 5, 6, 0, 0, 0, 0, 2, 0, 2, 0, 103, 0, 0, 0, 71, 0, 0, 0, 0, 0]⟩

def outDisk : Disk := ⟨[], [(["out"], .dir)], by decide⟩

theorem outDisk_bare (q : DiskPath) (inside : Disk.Inside ["out"] q) : outDisk.look q = none :=
  Disk.look_of_unlisted (by decide) inside

def outWorld : World := ((unpackAll path? climbingArchive (.ofText "out")).exec { disk := outDisk }).2

theorem climbing_counts :
    ((unpackAll path? climbingArchive (.ofText "out")).exec { disk := outDisk }).1 = .ok 2 := by
  decide +kernel

theorem climbing_unpacks : (unpackAll path? climbingArchive (.ofText "out")).exec { disk := outDisk }
    = (.ok 2, outWorld) := by
  rw [outWorld, ← climbing_counts]

/-- The directory that holds both files is left out. -/
theorem climbing_strips : ∃ found whole, Archive.members path? climbingArchive = .ok found ∧
    topOf found = some "t" ∧ Tree.ofMembers found = some whole ∧
    ∀ q, outWorld.disk.look (["out"] ++ q) = whole (["t"] ++ q) := by
  obtain ⟨found, whole, read, made, looks, -⟩ :=
    (unpackAll_strips path? climbingArchive (fun _ => members_plain)
      (w := { disk := outDisk }) (by decide) (by decide +kernel)
      (by decide) outDisk_bare).2 2 outWorld climbing_unpacks
  have common : (Archive.members path? climbingArchive).map topOf = .ok (some "t") := by decide +kernel
  rw [read] at common
  replace common : topOf found = some "t" := Except.ok.inj common
  rw [common] at looks
  exact ⟨found, whole, read, common, made, looks⟩

end PinnedTree.Archive
