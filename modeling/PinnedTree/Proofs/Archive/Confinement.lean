import PinnedTree.Backend.Archive
import PinnedTree.Proofs.Backend
import PinnedTree.Proofs.Disk.Written
import PinnedTree.Proofs.Lists
import PinnedTree.Proofs.Path.Parts

namespace PinnedTree.Archive

open PinnedTree.Action

variable {d e f : Disk} {target : Location} {top here p : DiskPath} {step : Step} {w : World}
  {names path : List String} {ε ε' α β : Type}

def Fills (top : DiskPath) : Step → Prop
  | .makeDir p | .create p _ | .write p _ | .setMode p _ => Disk.Inside top p
  | .makeLink _ _ | .unlink _ | .removeDir _ | .rename _ _ => False

theorem Fills.touched (fills : Fills top step) : ∀ q ∈ step.touched, Disk.Inside top q := by
  cases step with
  | makeDir | create | write | setMode => simpa [Step.touched, Fills] using fills
  | makeLink | unlink | removeDir | rename => exact fills.elim

/-- The same disk, but for what was made and filled strictly inside a directory. -/
structure Filled (top : DiskPath) (d e : Disk) : Prop where
  home : e.home = d.home
  elsewhere : ∀ p, ¬ Disk.Inside top p → e.look p = d.look p
  dirs : ∀ p, d.look p = some .dir → e.look p = some .dir
  unlinked : ∀ p target, Disk.Inside top p → e.look p = some (.link target) →
    d.look p = some (.link target)

theorem Filled.refl (top : DiskPath) (d : Disk) : Filled top d d :=
  ⟨rfl, fun _ _ => rfl, fun _ => id, fun _ _ _ => id⟩

theorem Filled.trans (first : Filled top d e) (second : Filled top e f) : Filled top d f where
  home := second.home.trans first.home
  elsewhere p outside := (second.elsewhere p outside).trans (first.elsewhere p outside)
  dirs p isDir := second.dirs p (first.dirs p isDir)
  unlinked p target inside link := first.unlinked p target inside (second.unlinked p target inside link)

theorem Filled.put {node : Node} (inside : Disk.Inside top p) (unlinked : ∀ target, node ≠ .link target)
    (fits : d.look p = some .dir → node = .dir) : Filled top d (d.put p node) := by
  have real : p ≠ [] := by
    rintro rfl
    exact inside.2 (List.prefix_nil.mp inside.1).symm
  have home : (d.put p node).home = d.home := by
    unfold Disk.put
    split <;> rfl
  refine ⟨home, fun q outside => ?_, fun q isDir => ?_, fun q target _ link => ?_⟩
  · rw [Disk.look_put real, if_neg (by rintro rfl; exact outside inside)]
  · rw [Disk.look_put real]
    split
    · rename_i same
      rw [fits (same ▸ isDir)]
    · exact isDir
  · rw [Disk.look_put real] at link
    split at link
    · exact absurd (Option.some.inj link) (unlinked target)
    · exact link

theorem Filled.of_step (fills : Fills top step) (fits : step.Fits d) : Filled top d (step.apply d) := by
  cases step with
  | makeDir p => exact .put fills (by simp) fun _ => rfl
  | create p mode =>
    simp only [Step.apply]
    cases stands : d.look p with
    | none => exact .put fills (by simp) (by simp [stands])
    | some node =>
      obtain ⟨c, m, rfl⟩ := fits.2 node stands
      exact .put fills (by simp) (by simp [stands])
  | write p content =>
    simp only [Step.apply]
    split
    · rename_i stands
      exact .put fills (by simp) (by simp [stands])
    · exact .refl top d
  | setMode p mode =>
    simp only [Step.apply]
    split
    · rename_i stands
      exact .put fills (by simp) (by simp [stands])
    · exact .refl top d
  | makeLink | unlink | removeDir | rename => exact fills.elim

theorem Filled.of_steps {steps : List Step} (fits : Step.AllFit d steps)
    (fills : ∀ step ∈ steps, Fills top step) : Filled top d (Step.applyAll d steps) := by
  induction steps generalizing d with
  | nil => exact .refl top d
  | cons step rest ih =>
    exact (Filled.of_step (fills step List.mem_cons_self) fits.1).trans
      (ih fits.2 fun s member => fills s (List.mem_cons_of_mem _ member))

structure Sheltered (d : Disk) (target : Location) (top : DiskPath) : Prop where
  sound : d.Sound
  named : target.text ≠ ""
  leads : d.walk true maxLinks (d.start target) target.segments = .ok (.taken top .dir)
  isDir : d.look top = some .dir
  plain : ∀ q, Disk.Inside top q → ∀ link, d.look q ≠ some (.link link)

theorem Filled.walkable (filled : Filled top d e)
    (plain : ∀ q, Disk.Inside top q → ∀ link, d.look q ≠ some (.link link)) : d.Walkable e where
  home := filled.home
  dirs := filled.dirs
  links q target stands := by
    rw [filled.elsewhere q fun inside => plain q inside target stands, stands]

theorem Sheltered.filled (sheltered : Sheltered d target top) (filled : Filled top d e)
    (sound : e.Sound) : Sheltered e target top where
  sound := sound
  named := sheltered.named
  leads := by
    have starts : e.start target = d.start target := by simp [Disk.start, filled.home]
    rw [starts]
    exact (filled.walkable sheltered.plain).walk sheltered.leads
  isDir := filled.dirs _ sheltered.isDir
  plain q inside link stands := sheltered.plain q inside link (filled.unlinked q link inside stands)

abbrev Extracts (top : DiskPath) (action : Action ε α) (w : World) : Prop :=
  action.Takes (Fills top) w

theorem Extracts.filled {action : Action ε α} (extracts : Extracts top action w) :
    Filled top w.disk (action.exec w).2.disk := by
  obtain ⟨steps, ran, fills⟩ := extracts
  rw [ran.disk]
  exact .of_steps ran.fit fills

theorem Extracts.sheltered {action : Action ε α} (extracts : Extracts top action w)
    (sheltered : Sheltered w.disk target top) : Sheltered (action.exec w).2.disk target top :=
  sheltered.filled extracts.filled (extracts.sound sheltered.sound)

theorem Extracts.bind {x : Action ε α} {g : α → Action ε β} (sheltered : Sheltered w.disk target top)
    (first : Extracts top x w)
    (next : ∀ a w', x.exec w = (.ok a, w') → Sheltered w'.disk target top → Extracts top (g a) w') :
    Extracts top (x >>= g) w := by
  have after := first.sheltered sheltered
  exact Takes.bind first fun a w' done => next a w' done (by rwa [done] at after)

/-- A path that starts at some directory and, read part by part, never climbs above it; parts that
lead up may be in it. -/
structure Descends (path : List String) : Prop where
  parts : ∀ part ∈ path, part ≠ "" ∧ '/' ∉ part.toList
  stays : (walk [] path).isSome = true

theorem Descends.nil : Descends [] := ⟨by simp, rfl⟩

theorem walk_append (below : List String) : walk below (path ++ names)
    = (walk below path).bind (walk · names) := by
  induction path generalizing below with
  | nil => rfl
  | cons part rest ih =>
    simp only [List.cons_append, walk, ih]
    split
    · rfl
    split
    · split <;> rfl
    · rfl

theorem Descends.init (descends : Descends (path ++ names)) : Descends path where
  parts part member := descends.parts part (List.mem_append_left _ member)
  stays := by
    have stays := descends.stays
    rw [walk_append] at stays
    cases goes : walk [] path with
    | none => simp [goes] at stays
    | some below => rfl

theorem walk_plain {below : List String} (plain : ∀ name ∈ path, IsName name) :
    walk below path = some (below ++ path) := by
  induction path generalizing below with
  | nil => simp [walk]
  | cons name rest ih =>
    obtain ⟨filled, notHere, notUp, -⟩ := plain name List.mem_cons_self
    have later : walk (below ++ [name]) rest = some (below ++ [name] ++ rest) :=
      ih fun n member => plain n (List.mem_cons_of_mem _ member)
    simpa [walk, filled, notHere, notUp] using later

theorem Descends.of_plain (plain : ∀ name ∈ path, IsName name) : Descends path where
  parts part member := ⟨(plain part member).1, (plain part member).2.2.2⟩
  stays := by simp [walk_plain plain]

theorem Sheltered.advance (sheltered : Sheltered d target top) {follow : Bool} {stretch : Stretch}
    {q : List String} (parts : ∀ part ∈ path, part ≠ "" ∧ '/' ∉ part.toList)
    (goes : walk here path = some q) (isDir : d.look (top ++ here) = some .dir)
    (ends : d.advance follow (top ++ here) path = .ok stretch) :
    stretch = .ended (d.placeAt (top ++ q)) ∧
      (d.look (top ++ q) = some .dir ∨ q ≠ [] ∧ d.Holds (top ++ q)) := by
  induction path generalizing here with
  | nil =>
    cases goes
    cases ends
    exact ⟨by simp [Disk.placeAt, isDir], .inl isDir⟩
  | cons part rest ih =>
    rw [List.forall_mem_cons] at parts
    obtain ⟨⟨filled, slashless⟩, later⟩ := parts
    by_cases stays : part = "."
    · subst stays
      exact ih later goes isDir ends
    by_cases up : part = ".."
    · subst up
      simp only [walk, String.reduceEq, decide_false, Bool.or_self, Bool.false_eq_true,
        if_false, if_true] at goes
      split at goes
      · cases goes
      rename_i inner
      have inner' : here ≠ [] := by simpa using inner
      have above : top ++ here.dropLast = (top ++ here).dropLast :=
        (List.dropLast_append_of_ne_nil inner').symm
      refine ih later goes ?_ (above ▸ ends)
      refine sheltered.sound.opened (by simp [isDir]) here.dropLast (List.dropLast_prefix _) ?_
      intro same
      have shorter := congrArg List.length same
      have filled := List.length_pos_iff.mpr inner'
      rw [List.length_dropLast] at shorter
      omega
    · simp only [walk, filled, stays, up, decide_false, Bool.or_self, Bool.false_eq_true, if_false]
        at goes
      have name : IsName part := ⟨filled, stays, up, slashless⟩
      have inside : Disk.Inside top (top ++ here ++ [part]) := by
        rw [List.append_assoc]
        exact Disk.inside_append.mpr (by simp)
      have holds : d.Holds (top ++ (here ++ [part])) :=
        ⟨top ++ here, part, by simp, name, isDir⟩
      have whole : top ++ here ++ [part] = top ++ (here ++ [part]) := List.append_assoc _ _ _
      rw [Disk.advance_step follow stays up] at ends
      split at ends
      · cases ends
      cases stands : d.look (top ++ here ++ [part]) with
      | none =>
        rw [stands] at ends
        cases rest with
        | nil =>
          cases goes
          cases ends
          exact ⟨by rw [← whole, Disk.placeAt, stands], .inr ⟨by simp, holds⟩⟩
        | cons next more => cases ends
      | some node =>
        rw [stands] at ends
        cases node with
        | dir => exact ih later goes (whole ▸ stands) (whole ▸ ends)
        | file content mode =>
          cases rest with
          | nil =>
            cases goes
            cases ends
            exact ⟨by rw [← whole, Disk.placeAt, stands], .inr ⟨by simp, holds⟩⟩
          | cons next more => cases ends
        | link link => exact absurd stands (sheltered.plain _ inside link)

section

variable (sheltered : Sheltered d target top) (descends : Descends names) (inner : names ≠ [])
include sheltered descends inner

theorem Sheltered.resolve (follow : Bool) {place : Place}
    (found : d.resolve follow (target.below names) = .ok place) :
    ∃ q, walk [] names = some q ∧ place = d.placeAt (top ++ q) ∧
      (d.look (top ++ q) = some .dir ∨ q ≠ [] ∧ d.Holds (top ++ q)) := by
  obtain ⟨left, goes⟩ := Disk.walk_append inner sheltered.leads follow
  rw [Disk.resolve_eq, goes] at found
  obtain ⟨q, down⟩ := Option.isSome_iff_exists.mp descends.stays
  have base : d.look (top ++ []) = some .dir := by simpa using sheltered.isDir
  split at found
  · cases found
  split at found
  · cases found
  split at found
  · cases found
  rw [Disk.walk] at found
  cases ends : d.advance follow top names with
  | error fault => simp [ends, bind, Except.bind, Except.mapError] at found
  | ok stretch =>
    obtain ⟨rfl, stands⟩ := sheltered.advance descends.parts down base (by simpa using ends)
    refine ⟨q, down, ?_, stands⟩
    simpa [ends, bind, Except.bind, pure, Except.pure, Except.mapError, eq_comm] using found

theorem Sheltered.makeDir {step : Step} (made : d.makeDir (target.below names) = .ok step) :
    step.Fits d ∧ Fills top step := by
  rw [Disk.makeDir, Location.bare_below inner] at made
  cases found : d.resolve false (target.below names) with
  | error fault => simp [found, bind, Except.bind] at made
  | ok place =>
    obtain ⟨q, -, rfl, stood⟩ := sheltered.resolve descends inner false found
    cases stands : d.look (top ++ q) with
    | some node =>
      simp [found, Disk.placeAt, stands, bind, Except.bind, throw, throwThe, MonadExceptOf.throw] at made
    | none =>
      simp only [found, Disk.placeAt, stands, bind, Except.bind, pure, Except.pure, Except.ok.injEq]
        at made
      subst made
      rw [stands] at stood
      obtain ⟨deeper, holds⟩ := stood.resolve_left (by simp)
      exact ⟨⟨stands, holds⟩, Disk.inside_append.mpr deeper⟩

theorem Sheltered.openToWrite {mode : Nat} {step : Step}
    (opened : d.openToWrite (target.below names) mode = .ok step) :
    ∃ q, walk [] names = some q ∧ q ≠ [] ∧ step = .create (top ++ q) mode ∧ step.Fits d := by
  rw [Disk.openToWrite] at opened
  cases found : d.resolve true (target.below names) with
  | error fault => simp [found, bind, Except.bind] at opened
  | ok place =>
    obtain ⟨q, goes, rfl, stood⟩ := sheltered.resolve descends inner true found
    cases stands : d.look (top ++ q) with
    | none =>
      rw [stands] at stood
      obtain ⟨deeper, held⟩ := stood.resolve_left (by simp)
      simp only [found, Disk.placeAt, stands, bind, Except.bind, pure, Except.pure, Except.ok.injEq]
        at opened
      exact ⟨q, goes, deeper, opened.symm, opened ▸ ⟨held, by simp [stands]⟩⟩
    | some node =>
      cases node with
      | dir | link =>
        simp [found, Disk.placeAt, stands, bind, Except.bind, throw, throwThe, MonadExceptOf.throw]
          at opened
      | file content granted =>
        rw [stands] at stood
        obtain ⟨deeper, held⟩ := stood.resolve_left (by simp)
        simp only [found, Disk.placeAt, stands, bind, Except.bind] at opened
        split at opened
        · cases opened
          exact ⟨q, goes, deeper, rfl, held, by simp [stands]⟩
        · cases opened

theorem Sheltered.write {content : ByteArray} {mode : Nat} {steps : List Step}
    (written : d.writeFile (target.below names) content mode = .ok steps) :
    (∃ q, walk [] names = some q ∧ q ≠ []) ∧ Step.AllFit d steps ∧
      ∀ step ∈ steps, Fills top step := by
  rw [Disk.writeFile] at written
  cases opened : d.openToWrite (target.below names) mode with
  | error fault => simp [opened, bind, Except.bind] at written
  | ok step =>
    obtain ⟨q, goes, deeper, rfl, fits⟩ := sheltered.openToWrite descends inner opened
    simp only [opened, bind, Except.bind, pure, Except.pure, Except.ok.injEq] at written
    subst written
    exact ⟨⟨q, goes, deeper⟩, ⟨fits, trivial, trivial⟩,
      by simp [Fills, Disk.inside_append.mpr deeper]⟩

theorem Sheltered.setMode {mode : Nat} {step : Step} {q : List String}
    (goes : walk [] names = some q) (deeper : q ≠ [])
    (set : d.setMode (target.below names) mode = .ok step) : step.Fits d ∧ Fills top step := by
  rw [Disk.setMode] at set
  cases found : d.resolve true (target.below names) with
  | error fault => simp [found, bind, Except.bind] at set
  | ok place =>
    obtain ⟨r, goes', rfl, -⟩ := sheltered.resolve descends inner true found
    obtain rfl := Option.some.inj (goes.symm.trans goes')
    cases stands : d.look (top ++ q) with
    | none =>
      simp [found, Disk.placeAt, stands, bind, Except.bind, throw, throwThe, MonadExceptOf.throw] at set
    | some node =>
      simp only [found, Disk.placeAt, stands, bind, Except.bind, pure, Except.pure, Except.ok.injEq]
        at set
      subst set
      exact ⟨trivial, Disk.inside_append.mpr deeper⟩

end

theorem extracts_makeLast (sheltered : Sheltered w.disk target top) (descends : Descends names)
    (inner : names ≠ []) : Extracts top (Files.makeLast (target.below names)) w := by
  have tried : Extracts top (Action.changeOnce (·.makeDir (target.below names))) w :=
    .changeOnce fun _ => sheltered.makeDir descends inner
  refine Extracts.bind sheltered tried.outcome ?_
  rintro (fault | ⟨⟩) w' - -
  · refine .of_exec (r := if w'.disk.leadsToDir (target.below names) then .ok () else .error fault) ?_
    rw [exec_observe_bind]
    split <;> rfl
  · exact .of_exec rfl

theorem extracts_makeDirs (sheltered : Sheltered w.disk target top) (descends : Descends names) :
    Extracts top (Files.makeDirs (target.below names)) w := by
  induction names using List.reverseRecOn generalizing w with
  | nil =>
    obtain ⟨r, there, -⟩ := Files.makeDirs_there sheltered.leads
    rw [Location.below_nil]
    exact .of_exec there
  | append_singleton names last ih =>
    have inner : names ++ [last] ≠ [] := by simp
    have named : last ≠ "" := (descends.parts last (by simp)).1
    have tried : Extracts top (Action.changeOnce (·.makeDir (target.below (names ++ [last])))) w :=
      .changeOnce fun _ => sheltered.makeDir descends inner
    unfold Files.makeDirs
    rw [Location.ancestors_below, Files.makeDirsFrom,
      if_neg (by simpa using Location.text_concat_ne_empty target names named)]
    refine Extracts.bind sheltered tried.outcome ?_
    rintro answer w₁ - sheltered₁
    split
    · exact .of_exec rfl
    · refine Extracts.bind sheltered₁ (ih sheltered₁ descends.init) ?_
      rintro _ w₂ - sheltered₂
      exact extracts_makeLast sheltered₂ descends inner
    · rename_i fault _
      refine .of_exec (r := if w₁.disk.leadsToDir (target.below (names ++ [last])) then .ok ()
        else .error fault) ?_
      rw [exec_observe_bind]
      split <;> rfl

theorem extracts_makeParents (sheltered : Sheltered w.disk target top) (descends : Descends names) :
    Extracts top (Files.makeParents (target.below names)) w := by
  cases names using List.reverseRecOn with
  | append_singleton names last =>
    rw [Files.makeParents, Location.parent_below]
    exact extracts_makeDirs sheltered descends.init
  | nil =>
    rw [Location.below_nil, Files.makeParents]
    split
    · rename_i above parent
      rcases Disk.parent_leads parent sheltered.leads with unnamed | ⟨q, leads⟩
      · obtain ⟨more, here⟩ := above.ancestors_head
        rw [Files.makeDirs, here, Files.makeDirsFrom, if_pos (by simpa using unnamed)]
        exact .of_exec rfl
      · obtain ⟨r, there, -⟩ := Files.makeDirs_there leads
        exact .of_exec there
    · exact .of_exec rfl

theorem exec_write_target (sheltered : Sheltered w.disk target top) (content : ByteArray) :
    ∃ fault, (Files.write (target.below []) content).exec w = (.error fault, w) := by
  rw [Location.below_nil, Files.write, exec_change]
  have refused : ∃ fault, w.disk.writeFile target content Files.plainMode = .error fault := by
    rw [Disk.writeFile, Disk.openToWrite]
    have resolved := Disk.resolve_eq w.disk true target []
    rw [Location.below_nil, List.append_nil, sheltered.leads] at resolved
    rw [resolved]
    split
    · exact ⟨_, rfl⟩
    split
    · exact ⟨_, rfl⟩
    split
    · exact ⟨_, rfl⟩
    · exact ⟨_, rfl⟩
  obtain ⟨fault, refused⟩ := refused
  exact ⟨fault, by rw [refused]⟩

theorem extracts_unpackFile (sheltered : Sheltered w.disk target top) (descends : Descends names)
    (m : Member) : Extracts top (unpackFile (target.below names) m) w := by
  unfold unpackFile
  generalize Zip.content m.entry m.packed = unpacked
  obtain ⟨content, fault⟩ := unpacked
  refine Takes.reporting (Extracts.bind sheltered (extracts_makeParents sheltered descends) ?_)
  rintro _ w₁ - sheltered₁
  by_cases inner : names = []
  · subst inner
    obtain ⟨fault, refused⟩ := exec_write_target sheltered₁ content
    refine Extracts.bind sheltered₁ (.of_exec refused) ?_
    intro _ w₂ impossible
    cases refused.symm.trans impossible
  cases answer : w₁.disk.writeFile (target.below names) content Files.plainMode with
  | error refused =>
    have failed : (Files.write (target.below names) content).exec w₁ = (.error refused, w₁) := by
      rw [Files.write, exec_change, answer]
    refine Extracts.bind sheltered₁ (.of_exec failed) ?_
    intro _ w₂ impossible
    cases failed.symm.trans impossible
  | ok steps =>
    obtain ⟨⟨q, goes, deeper⟩, fits, fills⟩ := sheltered₁.write descends inner answer
    have written : Extracts top (Files.write (target.below names) content) w₁ := by
      refine ⟨steps, ?_, fills⟩
      rw [Files.write, exec_change, answer]
      exact w₁.perform_ran steps fits
    refine Extracts.bind sheltered₁ written ?_
    rintro _ w₂ - sheltered₂
    cases fault with
    | some fault => exact .of_exec rfl
    | none =>
      dsimp only
      split
      · exact .changeOnce fun _ => sheltered₂.setMode descends inner goes deeper
      · exact .of_exec rfl

def strip (left : Option String) (m : Member) : Member :=
  { m with path := if left.isSome then m.path.drop 1 else m.path }

/-- Entries whose paths never climb above the directory, with their first part or without it, are
unpacked inside it. -/
theorem extracts_unpack {left : Option String} {members : List Member}
    (sheltered : Sheltered w.disk target top)
    (descends : ∀ m ∈ members, Descends (strip left m).path) :
    Extracts top (unpack target left members) w := by
  induction members generalizing w with
  | nil => exact .of_exec rfl
  | cons m rest ih =>
    obtain ⟨first, later⟩ := List.forall_mem_cons.mp descends
    simp only [strip] at first
    rw [unpack]
    refine Extracts.bind sheltered Backend.takes_poll ?_
    rintro _ w₁ - sheltered₁
    dsimp only
    generalize (if left.isSome then m.path.drop 1 else m.path) = names at first ⊢
    split
    · exact ih sheltered₁ later
    split
    · refine Extracts.bind sheltered₁ (extracts_makeDirs sheltered₁ first).reporting ?_
      rintro _ w₂ - sheltered₂
      exact ih sheltered₂ later
    · refine Extracts.bind sheltered₁ (extracts_unpackFile sheltered₁ first m) ?_
      rintro _ w₂ - sheltered₂
      refine Extracts.bind sheltered₂ (ih sheltered₂ later) ?_
      rintro _ w₃ - _
      exact .of_exec rfl

section

variable {enclosed : String → Option (List String)} {bytes : ByteArray} {found : List Member}

theorem enclosed_of_member (read : members enclosed bytes = .ok found) :
    ∀ m ∈ found, ∃ name, enclosed name = some m.path := by
  unfold members at read
  cases entries : Zip.entries bytes with
  | error cause => simp [entries, bind, Except.bind] at read
  | ok listed =>
    simp only [entries, bind, Except.bind] at read
    intro m member
    obtain ⟨entry, -, made⟩ := forall₂_of_mem (mapM_ok read) member
    unfold memberOf at made
    obtain ⟨packed, -, made⟩ := bind_eq_ok.mp made
    cases named : enclosed entry.name with
    | none => simp [named, throw, throwThe, MonadExceptOf.throw] at made
    | some path =>
      simp only [named, pure, Except.pure, Except.ok.injEq] at made
      subst made
      exact ⟨entry.name, named⟩

theorem members_plain (read : members path? bytes = .ok found) :
    ∀ m ∈ found, ∀ name ∈ m.path, IsName name := by
  intro m member
  obtain ⟨name, named⟩ := enclosed_of_member read m member
  exact isName_of_path named

theorem members_descend (read : members path? bytes = .ok found) (left : Option String) :
    ∀ m ∈ found, Descends (strip left m).path := by
  intro m member
  have plain := members_plain read m member
  simp only [strip]
  split
  · exact .of_plain fun name among => plain name (List.mem_of_mem_drop among)
  · exact .of_plain plain

theorem extracts_unpackAll (sheltered : Sheltered w.disk target top)
    (descends : ∀ found, members enclosed bytes = .ok found →
      ∀ m ∈ found, Descends (strip (topOf found) m).path) :
    Extracts top (unpackAll enclosed bytes target) w := by
  unfold unpackAll
  split
  · exact .of_exec rfl
  · rename_i found read
    exact extracts_unpack sheltered (descends found read)

/-- Let an archive's library give paths only that never climb above where they start; parts that lead
up may be in them. Whatever the bytes of the archive are and however unpacking it ends, each step
makes or fills something strictly inside the directory it is unpacked into, and all else stays as it
was, unless a directory at the top is left out and some path climbs without it. -/
theorem unpackAll_confined (encloses : ∀ name path, enclosed name = some path → Descends path)
    (bytes : ByteArray)
    (stays : ∀ found r, members enclosed bytes = .ok found → topOf found = some r →
      ∀ m ∈ found, (walk [] (m.path.drop 1)).isSome = true)
    (sound : w.disk.Sound) (leads : w.disk.resolve true target = .ok (.taken top .dir))
    (isDir : w.disk.look top = some .dir)
    (plain : ∀ q, Disk.Inside top q → ∀ link, w.disk.look q ≠ some (.link link)) :
    ∃ steps, w.Ran ((unpackAll enclosed bytes target).exec w).2 steps ∧
      (∀ step ∈ steps, Fills top step) ∧
      ∀ n q, ¬ Disk.Inside top q →
        (Step.applyAll w.disk (steps.take n)).look q = w.disk.look q := by
  have named : target.text ≠ "" := by
    intro empty
    simp [Disk.resolve, empty] at leads
  have sheltered : Sheltered w.disk target top :=
    ⟨sound, named, Disk.walk_of_resolve leads, isDir, plain⟩
  have descends (found : List Member) (read : members enclosed bytes = .ok found) :
      ∀ m ∈ found, Descends (strip (topOf found) m).path := by
    intro m member
    obtain ⟨name, given⟩ := enclosed_of_member read m member
    have whole := encloses name m.path given
    cases common : topOf found with
    | none => exact whole
    | some r => exact ⟨fun part among => whole.parts part (List.mem_of_mem_drop among),
        stays found r read common m member⟩
  obtain ⟨steps, ran, fills⟩ := extracts_unpackAll sheltered descends
  refine ⟨steps, ran, fills, fun n q outside => ?_⟩
  exact (Filled.of_steps (ran.fit.take n) fun step member =>
    fills step (List.mem_of_mem_take member)).elsewhere q outside

end

/-- The parts of a name as it is written, unless it starts at the top or climbs above its start. -/
def asWritten (name : String) : Option (List String) :=
  let parts := (Text.split '/' name).filter fun part => part ≠ "" && part ≠ "."
  if name.toList.contains '\x00' || Text.startsWith name "/" || (walk [] parts).isNone then none
  else some parts

theorem asWritten_descends {name : String} {path : List String} (given : asWritten name = some path) :
    '\x00' ∉ name.toList ∧ Text.startsWith name "/" = false ∧ Descends path := by
  unfold asWritten at given
  dsimp only at given
  split at given
  · cases given
  rename_i accepted
  cases given
  simp only [Bool.or_eq_true, not_or, Bool.not_eq_true] at accepted
  obtain ⟨⟨printable, unrooted⟩, stays⟩ := accepted
  refine ⟨by simpa using printable, unrooted, fun part member => ?_, ?_⟩
  · rw [List.mem_filter] at member
    have filled : part ≠ "" := by
      rintro rfl
      simp at member
    exact ⟨filled, Path.plain_of_split rfl part member.1⟩
  · simpa using stays

def windingArchive : ByteArray := ⟨#[
  80, 75, 3, 4, 20, 0, 0, 0, 0, 0, 0, 0, 33, 0, 0, 0, 0, 0, 0, 0, 0, 0, 0, 0, 0, 0, 3, 0, 0, 0,
  116, 47, 120, 80, 75, 3, 4, 20, 0, 0, 0, 0, 0, 0, 0, 33, 0, 0, 0, 0, 0, 0, 0, 0, 0, 0, 0, 0, 0,
  8, 0, 0, 0, 116, 47, 117, 47, 46, 46, 47, 121, 80, 75, 1, 2, 20, 3, 20, 0, 0, 0, 0, 0, 0, 0, 33,
  0, 0, 0, 0, 0, 0, 0, 0, 0, 0, 0, 0, 0, 3, 0, 0, 0, 0, 0, 0, 0, 0, 0, 0, 0, 164, 1, 0, 0, 0, 0,
  116, 47, 120, 80, 75, 1, 2, 20, 3, 20, 0, 0, 0, 0, 0, 0, 0, 33, 0, 0, 0, 0, 0, 0, 0, 0, 0, 0, 0,
  0, 0, 8, 0, 0, 0, 0, 0, 0, 0, 0, 0, 0, 0, 164, 1, 33, 0, 0, 0, 116, 47, 117, 47, 46, 46, 47, 121,
  80, 75, 5, 6, 0, 0, 0, 0, 2, 0, 2, 0, 103, 0, 0, 0, 71, 0, 0, 0, 0, 0]⟩

def leavingArchive : ByteArray := ⟨#[
  80, 75, 3, 4, 20, 0, 0, 0, 0, 0, 0, 0, 33, 0, 0, 0, 0, 0, 0, 0, 0, 0, 0, 0, 0, 0, 3, 0, 0, 0,
  116, 47, 120, 80, 75, 3, 4, 20, 0, 0, 0, 0, 0, 0, 0, 33, 0, 0, 0, 0, 0, 0, 0, 0, 0, 0, 0, 0, 0,
  6, 0, 0, 0, 116, 47, 46, 46, 47, 121, 80, 75, 1, 2, 20, 3, 20, 0, 0, 0, 0, 0, 0, 0, 33, 0, 0, 0,
  0, 0, 0, 0, 0, 0, 0, 0, 0, 0, 3, 0, 0, 0, 0, 0, 0, 0, 0, 0, 0, 0, 164, 1, 0, 0, 0, 0, 116, 47,
  120, 80, 75, 1, 2, 20, 3, 20, 0, 0, 0, 0, 0, 0, 0, 33, 0, 0, 0, 0, 0, 0, 0, 0, 0, 0, 0, 0, 0, 6,
  0, 0, 0, 0, 0, 0, 0, 0, 0, 0, 0, 164, 1, 33, 0, 0, 0, 116, 47, 46, 46, 47, 121, 80, 75, 5, 6, 0,
  0, 0, 0, 2, 0, 2, 0, 101, 0, 0, 0, 69, 0, 0, 0, 0, 0]⟩

def unpackDisk : Disk where
  home := []
  nodes := [(["out"], .dir), (["out", "x"], .file .empty 0o644), (["t"], .dir)]
  distinct := by decide

theorem unpackDisk_plain (q : DiskPath) (inside : Disk.Inside ["out"] q) (link : String) :
    unpackDisk.look q ≠ some (.link link) := by
  have real : q ≠ [] := by
    rintro rfl
    exact absurd inside.1 (by decide)
  intro stands
  have listed := (Disk.look_eq_some_iff real).mp stands
  simp [unpackDisk] at listed

theorem winding_stays (found : List Member) (r : String)
    (read : members asWritten windingArchive = .ok found) (_ : topOf found = some r) :
    ∀ m ∈ found, (walk [] (m.path.drop 1)).isSome = true := by
  have checked : (members asWritten windingArchive).map
      (fun found => found.all fun m => (walk [] (m.path.drop 1)).isSome) = .ok true := by
    decide +kernel
  rw [read] at checked
  exact List.all_eq_true.mp (Except.ok.inj checked)

/-- A name that winds is unpacked where it leads. -/
theorem winding_confined : ∃ steps, (World.Ran { disk := unpackDisk }
    ((unpackAll asWritten windingArchive (.ofText "out")).exec { disk := unpackDisk }).2 steps) ∧
      (∀ step ∈ steps, Fills ["out"] step) ∧ ∀ n q, ¬ Disk.Inside ["out"] q →
        (Step.applyAll unpackDisk (steps.take n)).look q = unpackDisk.look q :=
  unpackAll_confined (w := { disk := unpackDisk }) (fun _ _ given => (asWritten_descends given).2.2)
    windingArchive winding_stays (by decide) (by decide +kernel) (by decide) unpackDisk_plain

/-- Without its first part a path that stays below its start may climb above it. -/
theorem leaving_escapes :
    (∀ name path, asWritten name = some path →
      '\x00' ∉ name.toList ∧ Text.startsWith name "/" = false ∧ Descends path) ∧
    (∀ q, Disk.Inside ["out"] q → ∀ link, unpackDisk.look q ≠ some (.link link)) ∧
    ((unpackAll asWritten leavingArchive (.ofText "out")).exec { disk := unpackDisk }).1 = .ok 2 ∧
    ((unpackAll asWritten leavingArchive (.ofText "out")).exec
      { disk := unpackDisk }).2.disk.look ["y"] ≠ unpackDisk.look ["y"] :=
  ⟨fun _ _ => asWritten_descends, unpackDisk_plain, by decide +kernel, by decide +kernel⟩

end PinnedTree.Archive
