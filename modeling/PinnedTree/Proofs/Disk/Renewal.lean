import PinnedTree.Proofs.Files

namespace PinnedTree

def Place.renewed (path : DiskPath) (node : Node) : Place → Place
  | .free p => if p = path then .taken path node else .free p
  | .taken p (.file content mode) =>
    if p = path then .taken path node else .taken p (.file content mode)
  | .taken p old => .taken p old

def Stretch.renewed (path : DiskPath) (node : Node) : Stretch → Stretch
  | .ended place => .ended (place.renewed path node)
  | .turned directory target rest => .turned directory target rest

def Place.Real (d : Disk) : Place → Prop
  | .free p => d.look p = none
  | .taken p (.file content mode) => d.look p = some (.file content mode)
  | .taken _ _ => True

namespace Disk

/-- Neither a directory nor a link stands at a path, so that no walk goes on behind it. -/
def Terminal (d : Disk) (path : DiskPath) : Prop :=
  ∀ held, d.look path = some held → ∃ content mode, held = .file content mode

variable {d e : Disk} {follow : Bool} {here path : DiskPath} {names : List String} {l : Location}
  {node : Node} {place : Place}

theorem Terminal.of_free (free : d.look path = none) : d.Terminal path := by
  intro held stands
  cases free.symm.trans stands

theorem Terminal.of_file {content : ByteArray} {mode : Nat}
    (stands : d.look path = some (.file content mode)) : d.Terminal path :=
  fun _ stands' => ⟨content, mode, Option.some.inj (stands'.symm.trans stands)⟩

theorem Terminal.ne_nil (terminal : d.Terminal path) : path ≠ [] := by
  rintro rfl
  obtain ⟨_, _, impossible⟩ := terminal .dir rfl
  cases impossible

theorem advance_put (terminal : d.Terminal path) (plain : ∀ target, node ≠ .link target)
    {s : Stretch} (found : d.advance follow here names = .ok s) :
    (d.put path node).advance follow here names = .ok (s.renewed path node) := by
  induction names generalizing here with
  | nil =>
    cases found
    rfl
  | cons name rest ih =>
    by_cases notHere : name = "."
    · subst notHere
      exact ih found
    by_cases notUp : name = ".."
    · subst notUp
      exact ih found
    rw [advance_step follow notHere notUp] at found ⊢
    split at found
    · cases found
    rename_i short
    rw [if_neg short, look_put terminal.ne_nil]
    by_cases reached : here ++ [name] = path
    · -- a walk that comes to the path ends there
      rw [if_pos reached]
      have last : rest = [] ∧ s.renewed path node = .ended (.taken path node) := by
        cases stood : d.look (here ++ [name]) with
        | none =>
          simp only [stood] at found
          split at found
          · rename_i last
            cases found
            simpa [Stretch.renewed, Place.renewed, reached] using last
          · cases found
        | some held =>
          obtain ⟨content, mode, rfl⟩ := terminal held (reached ▸ stood)
          simp only [stood] at found
          split at found
          · rename_i last
            cases found
            simpa [Stretch.renewed, Place.renewed, reached] using last
          · cases found
      obtain ⟨rfl, ends⟩ := last
      rw [ends]
      cases node with
      | dir => simp [advance, reached]
      | file content mode => simp [reached]
      | link target => exact absurd rfl (plain target)
    · rw [if_neg reached]
      cases stood : d.look (here ++ [name]) with
      | none =>
        simp only [stood] at found ⊢
        split at found
        · rename_i last
          cases found
          simp [Stretch.renewed, Place.renewed, reached, last]
        · cases found
      | some held =>
        simp only [stood] at found ⊢
        cases held with
        | dir => exact ih found
        | file content mode =>
          simp only at found ⊢
          split at found
          · rename_i last
            cases found
            simp [Stretch.renewed, Place.renewed, reached, last]
          · cases found
        | link target =>
          simp only at found ⊢
          split at found <;> rename_i last <;> cases found <;>
            simp [Stretch.renewed, Place.renewed, last]

theorem walk_put (terminal : d.Terminal path) (plain : ∀ target, node ≠ .link target)
    {links : Nat} (found : d.walk follow links here names = .ok place) :
    (d.put path node).walk follow links here names = .ok (place.renewed path node) := by
  induction links generalizing here names with
  | zero =>
    rcases walk_ok.mp found with ends | ⟨left, _, _, _, impossible, -⟩
    · exact walk_ok.mpr (.inl (advance_put terminal plain ends))
    · cases impossible
  | succ links ih =>
    rcases walk_ok.mp found with ends | ⟨_, directory, target, rest, ⟨rfl⟩, turns, goes⟩
    · exact walk_ok.mpr (.inl (advance_put terminal plain ends))
    · exact walk_ok.mpr (.inr
        ⟨_, directory, target, rest, rfl, advance_put terminal plain turns, ih goes⟩)

theorem resolve_put (terminal : d.Terminal path) (plain : ∀ target, node ≠ .link target)
    (found : d.resolve follow l = .ok place) :
    (d.put path node).resolve follow l = .ok (place.renewed path node) := by
  obtain ⟨passed, walked⟩ := resolve_ok.mp found
  have start : (d.put path node).start l = d.start l := by simp [start, home_put]
  exact resolve_ok.mpr ⟨passed, start ▸ walk_put terminal plain walked⟩

theorem advance_real (found : d.advance follow here names = .ok (.ended place)) : place.Real d := by
  induction names generalizing here with
  | nil =>
    cases found
    trivial
  | cons name rest ih =>
    by_cases notHere : name = "."
    · subst notHere
      exact ih found
    by_cases notUp : name = ".."
    · subst notUp
      exact ih found
    rw [advance_step follow notHere notUp] at found
    split at found
    · cases found
    cases stood : d.look (here ++ [name]) with
    | none =>
      simp only [stood] at found
      split at found <;> cases found
      exact stood
    | some held =>
      simp only [stood] at found
      cases held with
      | dir => exact ih found
      | file content mode =>
        simp only at found
        split at found <;> cases found
        exact stood
      | link target =>
        simp only at found
        split at found <;> cases found
        trivial

theorem walk_real {links : Nat} (found : d.walk follow links here names = .ok place) :
    place.Real d := by
  induction links generalizing here names with
  | zero =>
    rcases walk_ok.mp found with ends | ⟨left, _, _, _, impossible, -⟩
    · exact advance_real ends
    · cases impossible
  | succ links ih =>
    rcases walk_ok.mp found with ends | ⟨_, directory, target, rest, ⟨rfl⟩, -, goes⟩
    · exact advance_real ends
    · exact ih goes

theorem resolve_real (found : d.resolve follow l = .ok place) : place.Real d :=
  walk_real (walk_of_resolve found)

theorem advance_followed {s : Stretch} (found : d.advance false here names = .ok s)
    (unlinked : ∀ p target, s ≠ .ended (.taken p (.link target))) :
    d.advance true here names = .ok s := by
  induction names generalizing here with
  | nil => exact found
  | cons name rest ih =>
    by_cases notHere : name = "."
    · subst notHere
      exact ih found
    by_cases notUp : name = ".."
    · subst notUp
      exact ih found
    rw [advance_step _ notHere notUp] at found ⊢
    split at found
    · cases found
    rename_i short
    rw [if_neg short]
    cases stood : d.look (here ++ [name]) with
    | none => simpa [stood] using found
    | some held =>
      simp only [stood] at found ⊢
      cases held with
      | dir => exact ih found
      | file content mode => exact found
      | link target =>
        simp only [Bool.not_false, Bool.and_true] at found
        split at found
        · cases found
          exact absurd rfl (unlinked _ _)
        · simpa using found

theorem walk_followed {links : Nat} (found : d.walk false links here names = .ok place)
    (unlinked : ∀ p target, place ≠ .taken p (.link target)) :
    d.walk true links here names = .ok place := by
  have same : ∀ p target, Stretch.ended place ≠ .ended (.taken p (.link target)) :=
    fun p target impossible => unlinked p target (Stretch.ended.inj impossible)
  induction links generalizing here names with
  | zero =>
    rcases walk_ok.mp found with ends | ⟨left, _, _, _, impossible, -⟩
    · exact walk_ok.mpr (.inl (advance_followed ends same))
    · cases impossible
  | succ links ih =>
    rcases walk_ok.mp found with ends | ⟨_, directory, target, rest, ⟨rfl⟩, turns, goes⟩
    · exact walk_ok.mpr (.inl (advance_followed ends same))
    · exact walk_ok.mpr (.inr
        ⟨_, directory, target, rest, rfl, advance_followed turns (by simp), ih goes⟩)

theorem resolve_followed (found : d.resolve false l = .ok place)
    (unlinked : ∀ p target, place ≠ .taken p (.link target)) : d.resolve true l = .ok place := by
  obtain ⟨passed, walked⟩ := resolve_ok.mp found
  exact resolve_ok.mpr ⟨passed, walk_followed walked unlinked⟩

structure Grown (d e : Disk) : Prop where
  stands : ∀ p held, d.look p = some held → e.look p = some held
  leads : ∀ l p held, d.resolve true l = .ok (.taken p held) → e.resolve true l = .ok (.taken p held)

theorem Grown.refl (d : Disk) : d.Grown d := ⟨fun _ _ => id, fun _ _ _ => id⟩

theorem Grown.trans {f : Disk} (first : d.Grown e) (second : e.Grown f) : d.Grown f where
  stands p held there := second.stands p held (first.stands p held there)
  leads l p held found := second.leads l p held (first.leads l p held found)

theorem Grown.put (free : d.look path = none) (plain : ∀ target, node ≠ .link target) :
    d.Grown (d.put path node) where
  stands p held there := by
    have other : p ≠ path := by
      rintro rfl
      cases free.symm.trans there
    rw [look_put (Terminal.of_free free).ne_nil, if_neg other, there]
  leads l p held found := by
    have reached := resolve_put (.of_free free) plain found
    cases held with
    | file content mode =>
      have there : d.look p = some (.file content mode) := resolve_real found
      have other : p ≠ path := by
        rintro rfl
        cases free.symm.trans there
      simpa [Place.renewed, other] using reached
    | dir => exact reached
    | link target => exact reached

theorem Grown.leadsToDir (grown : d.Grown e) (there : d.leadsToDir l = true) :
    e.leadsToDir l = true := by
  obtain ⟨p, found⟩ := leadsToDir_iff.mp there
  exact leadsToDir_iff.mpr ⟨p, grown.leads l p _ found⟩

structure Furnished (d e : Disk) : Prop extends Grown d e where
  files : ∀ p content mode, e.look p = some (.file content mode) →
    d.look p = some (.file content mode)

theorem Furnished.refl (d : Disk) : d.Furnished d := ⟨.refl d, fun _ _ _ => id⟩

theorem Furnished.trans {f : Disk} (first : d.Furnished e) (second : e.Furnished f) :
    d.Furnished f where
  toGrown := first.toGrown.trans second.toGrown
  files p content mode stands := first.files p content mode (second.files p content mode stands)

theorem leadsToDir_put (terminal : d.Terminal path) (plain : ∀ target, node ≠ .link target)
    (leads : d.leadsToDir l = true) : (d.put path node).leadsToDir l = true := by
  obtain ⟨p, found⟩ := leadsToDir_iff.mp leads
  exact leadsToDir_iff.mpr ⟨p, resolve_put terminal plain found⟩

theorem furnished_makeDir {step : Step} (made : d.makeDir l = .ok step) :
    d.Furnished (step.apply d) ∧ (l.bare = l → (step.apply d).leadsToDir l = true) := by
  unfold makeDir at made
  cases found : d.resolve false l.bare with
  | error fault => simp [found, bind, Except.bind] at made
  | ok place =>
    cases place with
    | taken p node => simp [found, bind, Except.bind, throw, throwThe, MonadExceptOf.throw] at made
    | free p =>
      simp only [found, bind, Except.bind, pure, Except.pure, Except.ok.injEq] at made
      subst made
      have terminal : d.Terminal p := .of_free (resolve_real found)
      have plain : ∀ target, Node.dir ≠ .link target := by simp
      refine ⟨⟨.put (resolve_real found) plain, ?_⟩, fun bare => ?_⟩
      · intro q content mode stands
        rw [Step.apply, look_put terminal.ne_nil] at stands
        split at stands
        · cases stands
        · exact stands
      · have reached := resolve_put terminal plain (resolve_followed found (by simp))
        rw [bare] at reached
        exact leadsToDir_iff.mpr ⟨p, by simpa [Place.renewed, Step.apply] using reached⟩

theorem openToWrite_ok {mode : Nat} {step : Step} (opened : d.openToWrite l mode = .ok step) :
    ∃ p granted, step = .create p mode ∧ d.Terminal p ∧ d.Grants p mode granted ∧
      ∀ content, (d.put p (.file content granted)).resolve true l
        = .ok (.taken p (.file content granted)) := by
  have plain (content : ByteArray) (granted : Nat) :
      ∀ target, Node.file content granted ≠ .link target := by simp
  unfold openToWrite at opened
  cases found : d.resolve true l with
  | error fault => simp [found, bind, Except.bind] at opened
  | ok place =>
    simp only [found, bind, Except.bind] at opened
    cases place with
    | free p =>
      cases opened
      have terminal : d.Terminal p := .of_free (resolve_real found)
      refine ⟨p, mode, rfl, terminal, .made (resolve_real found), fun content => ?_⟩
      simpa [Place.renewed] using resolve_put terminal (plain content mode) found
    | taken p node =>
      cases node with
      | dir => simp [throw, throwThe, MonadExceptOf.throw] at opened
      | link target => simp [throw, throwThe, MonadExceptOf.throw] at opened
      | file old granted =>
        simp only at opened
        split at opened
        · rename_i writable
          cases opened
          have stands : d.look p = some (.file old granted) := resolve_real found
          refine ⟨p, granted, rfl, .of_file stands, .kept stands writable, fun content => ?_⟩
          simpa [Place.renewed] using resolve_put (.of_file stands) (plain content granted) found
        · simp [throw, throwThe, MonadExceptOf.throw] at opened

theorem create_granted {mode granted : Nat} (grants : d.Grants path mode granted) :
    (Step.create path mode).apply d = d.put path (.file .empty granted) := by
  cases grants with
  | made free => simp [Step.apply, free]
  | kept stands _ => simp [Step.apply, stands]

theorem write_granted {mode granted : Nat} (grants : d.Grants path mode granted)
    (terminal : d.Terminal path) (content : ByteArray) :
    Step.applyAll d [.create path mode, .write path content]
      = (d.put path (.file .empty granted)).put path (.file content granted) := by
  have there : (d.put path (.file .empty granted)).look path = some (.file .empty granted) := by
    rw [look_put terminal.ne_nil, if_pos rfl]
  rw [Step.applyAll_cons, Step.applyAll_cons, create_granted grants, Step.apply, there]
  rfl

end Disk

namespace Action

variable {ε ε' α β : Type} {w : World}

def Grows (action : Action ε α) (w : World) : Prop := w.disk.Grown (action.exec w).2.disk

theorem Grows.still {action : Action ε α} (same : (action.exec w).2.disk = w.disk) :
    action.Grows w := by
  rw [Grows, same]
  exact .refl _

theorem Grows.bind {x : Action ε α} {f : α → Action ε β} (first : x.Grows w)
    (next : ∀ a, (f a).Grows (x.exec w).2) : (x >>= f).Grows w := by
  unfold Grows at first next ⊢
  rw [exec_bind]
  rcases ran : x.exec w with ⟨r, w'⟩
  rw [ran] at first next
  cases r with
  | error fault => exact first
  | ok a => exact first.trans (next a)

theorem Grows.reporting {f : ε → ε'} {action : Action ε α} (grows : action.Grows w) :
    (reporting f action).Grows w := by
  rw [Grows, exec_reporting]
  exact grows

end Action

namespace Files

open PinnedTree.Action

variable {w : World} {l : Location}

/-- What an action leaves furnished, with a place that leads to a directory if it succeeds. -/
def Furnishes (action : Action IoFault Unit) (l : Location) (w : World) : Prop :=
  w.disk.Furnished (action.exec w).2.disk ∧
    ((action.exec w).1 = .ok () → l.text ≠ "" → l.bare = l →
      (action.exec w).2.disk.leadsToDir l = true)

theorem exec_makeLast (l : Location) (w : World) :
    (makeLast l).exec w = match w.disk.makeDir l with
      | .ok step => (.ok (), w.perform step)
      | .error fault => if w.disk.leadsToDir l then (.ok (), w) else (.error fault, w) := by
  rw [makeLast, exec_bind, exec_outcome, exec_changeOnce]
  cases w.disk.makeDir l with
  | ok step => exact exec_pure _ _
  | error fault =>
    refine (exec_observe_bind _ _ _).trans ?_
    show (if w.disk.leadsToDir l then pure () else throw fault : Action IoFault Unit).exec w = _
    by_cases there : w.disk.leadsToDir l = true
    · simp only [there, if_true]
      rfl
    · simp only [there]
      rfl

theorem makeLast_furnishes (l : Location) (w : World) : Furnishes (makeLast l) l w := by
  rw [Furnishes, exec_makeLast]
  cases made : w.disk.makeDir l with
  | ok step =>
    obtain ⟨furnished, leads⟩ := Disk.furnished_makeDir made
    exact ⟨furnished, fun _ _ => leads⟩
  | error fault =>
    by_cases there : w.disk.leadsToDir l = true
    · simp only [there, if_true]
      exact ⟨.refl _, fun _ _ _ => trivial⟩
    · simp only [there]
      exact ⟨.refl _, fun impossible => by cases impossible⟩

theorem makeDirsFrom_furnished (list : List Location) (w : World) :
    w.disk.Furnished ((makeDirsFrom list).exec w).2.disk := by
  induction list generalizing w with
  | nil => exact .refl _
  | cons l above ih =>
    rw [makeDirsFrom]
    split
    · exact .refl _
    rw [exec_bind, exec_outcome, exec_changeOnce]
    cases made : w.disk.makeDir l with
    | ok step => exact (Disk.furnished_makeDir made).1
    | error fault =>
      simp only
      split
      · rename_i impossible
        cases impossible
      · rw [exec_bind]
        have first := ih w
        rcases ran : (makeDirsFrom above).exec w with ⟨r, w₁⟩
        rw [ran] at first
        cases r with
        | error fault => exact first
        | ok _ => exact first.trans (makeLast_furnishes l w₁).1
      · rw [exec_observe_bind]
        split <;> exact .refl _

theorem makeDirs_furnishes (l : Location) (w : World) : Furnishes (makeDirs l) l w := by
  refine ⟨makeDirsFrom_furnished _ _, fun done named bare => ?_⟩
  obtain ⟨above, here⟩ := l.ancestors_head
  rw [makeDirs, here, makeDirsFrom, if_neg (by simpa using named)] at done ⊢
  rw [exec_bind, exec_outcome, exec_changeOnce] at done ⊢
  cases made : w.disk.makeDir l with
  | ok step => exact (Disk.furnished_makeDir made).2 bare
  | error fault =>
    rw [made] at done
    simp only at done ⊢
    split at done
    · rename_i impossible
      cases impossible
    · rw [exec_bind] at done ⊢
      rcases ran : (makeDirsFrom above).exec w with ⟨r, w₁⟩
      rw [ran] at done
      cases r with
      | error fault => cases done
      | ok _ => exact (makeLast_furnishes l w₁).2 done named bare
    · rw [exec_observe_bind] at done ⊢
      split at done
      · rename_i there
        rw [if_pos there]
        exact there
      · cases done

theorem written {content : ByteArray} {w' : World} (ran : (write l content).exec w = (.ok (), w')) :
    ∃ p granted, w.disk.Grants p plainMode granted ∧
      w'.disk.resolve true l = .ok (.taken p (.file content granted)) ∧
      (∀ q, w'.disk.look q = if q = p then some (.file content granted) else w.disk.look q) ∧
      ∀ l', w.disk.leadsToDir l' = true → w'.disk.leadsToDir l' = true := by
  rw [write, exec_change] at ran
  unfold Disk.writeFile at ran
  cases opened : w.disk.openToWrite l plainMode with
  | error fault => simp [opened, bind, Except.bind] at ran
  | ok step =>
    obtain ⟨p, granted, rfl, terminal, grants, leads⟩ := Disk.openToWrite_ok opened
    simp only [opened, bind, Except.bind, pure, Except.pure, Prod.mk.injEq, true_and] at ran
    have ends : w'.disk = (w.disk.put p (.file .empty granted)).put p (.file content granted) := by
      rw [← ran, ← Disk.write_granted grants terminal]
      rfl
    have emptied : (w.disk.put p (.file .empty granted)).Terminal p :=
      .of_file (by rw [Disk.look_put terminal.ne_nil, if_pos rfl])
    have plain (content : ByteArray) : ∀ target, Node.file content granted ≠ .link target := by
      simp
    refine ⟨p, granted, grants, ?_, fun q => ?_, fun l' there => ?_⟩
    · rw [ends]
      simpa [Place.renewed] using Disk.resolve_put emptied (plain content) (leads .empty)
    · rw [ends, Disk.look_put terminal.ne_nil, Disk.look_put terminal.ne_nil]
      by_cases here : q = p <;> simp [here]
    · rw [ends]
      exact Disk.leadsToDir_put emptied (plain _) (Disk.leadsToDir_put terminal (plain _) there)

theorem rewritten {p : DiskPath} {content : ByteArray} {mode : Nat}
    (found : w.disk.resolve true l = .ok (.taken p (.file content mode)))
    (writable : mayWrite mode = true) :
    ∃ w', (write l content).exec w = (.ok (), w') ∧ ∀ q, w'.disk.look q = w.disk.look q := by
  have stands : w.disk.look p = some (.file content mode) := Disk.resolve_real found
  have terminal : w.disk.Terminal p := .of_file stands
  have steps : w.disk.writeFile l content plainMode
      = .ok [.create p plainMode, .write p content] := by
    simp [Disk.writeFile, Disk.openToWrite, found, writable, bind, Except.bind, pure, Except.pure]
  have grants : w.disk.Grants p plainMode mode := .kept stands writable
  have ends := Disk.write_granted grants terminal content
  refine ⟨([.create p plainMode, .write p content] : List Step).foldl World.perform w,
    by rw [write, exec_change, steps], fun q => ?_⟩
  have disk : (([.create p plainMode, .write p content] : List Step).foldl World.perform w).disk
      = Step.applyAll w.disk [.create p plainMode, .write p content] := rfl
  rw [disk, ends, Disk.look_put terminal.ne_nil, Disk.look_put terminal.ne_nil]
  by_cases here : q = p <;> simp [here, stands]

end Files

end PinnedTree
