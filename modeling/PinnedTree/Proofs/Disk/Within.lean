import PinnedTree.Proofs.Disk.Renewal
import PinnedTree.Proofs.Marker

namespace PinnedTree.Disk

variable {d e : Disk} {follow : Bool} {here p q : DiskPath} {names : List String} {l : Location}
  {name : String} {place : Place}

structure Same (d e : Disk) : Prop where
  home : e.home = d.home
  look : ∀ q, e.look q = d.look q

theorem Same.refl (d : Disk) : d.Same d := ⟨rfl, fun _ => rfl⟩

theorem Same.advance (same : d.Same e) :
    e.advance follow here names = d.advance follow here names := by
  induction names generalizing here with
  | nil => rfl
  | cons name rest ih =>
    by_cases notHere : name = "."
    · subst notHere
      exact ih
    by_cases notUp : name = ".."
    · subst notUp
      exact ih
    rw [advance_step follow notHere notUp, advance_step follow notHere notUp, same.look, ih]

theorem Same.walk (same : d.Same e) {links : Nat} :
    e.walk follow links here names = d.walk follow links here names := by
  induction links generalizing here names with
  | zero =>
    unfold Disk.walk
    rw [same.advance]
  | succ links ih =>
    unfold Disk.walk
    rw [same.advance]
    cases d.advance follow here names with
    | error cause => rfl
    | ok stretch =>
      cases stretch with
      | ended place => rfl
      | turned directory target rest => exact ih

theorem Same.resolve (same : d.Same e) : e.resolve follow l = d.resolve follow l := by
  simp only [Disk.resolve, same.home, same.walk]

theorem Same.readMarker (same : d.Same e) : Marker.read e l = Marker.read d l := by
  simp only [Marker.read, readText, readBytes, stat, same.resolve]

theorem resolve_of_linkStat {node : Node} (found : d.linkStat l = .ok node) :
    ∃ q, d.resolve false l = .ok (.taken q node) := by
  unfold linkStat at found
  cases resolved : d.resolve false l with
  | error fault => simp [resolved, bind, Except.bind] at found
  | ok place =>
    cases place with
    | free q => simp [resolved, bind, Except.bind, throw, throwThe, MonadExceptOf.throw] at found
    | taken q there =>
      simp only [resolved, bind, Except.bind, pure, Except.pure, Except.ok.injEq] at found
      exact ⟨q, found ▸ rfl⟩

structure Leads (d : Disk) (l : Location) (p : DiskPath) : Prop where
  resolves : d.resolve true l = .ok (.taken p .dir)
  isDir : d.look p = some .dir

theorem Leads.put {node : Node} (leads : d.Leads l p) (terminal : d.Terminal q)
    (plain : ∀ target, node ≠ .link target) : (d.put q node).Leads l p where
  resolves := resolve_put terminal plain leads.resolves
  isDir := by
    rw [look_put terminal.ne_nil]
    by_cases here : p = q
    · obtain ⟨_, _, impossible⟩ := terminal .dir (here ▸ leads.isDir)
      cases impossible
    · rw [if_neg here, leads.isDir]

theorem Leads.walkable (leads : d.Leads l p)
    (walkable : d.Walkable e) : e.Leads l p where
  resolves := by
    obtain ⟨writable, goes⟩ := resolve_ok.mp leads.resolves
    have starts : e.start l = d.start l := by simp [start, walkable.home]
    rw [← starts] at goes
    exact resolve_ok.mpr ⟨writable, walkable.walk goes⟩
  isDir := walkable.dirs p leads.isDir

theorem Leads.child (leads : d.Leads l p) (plain : IsName name) (place : Place) :
    d.resolve false (l.child name) = .ok place ↔
      l.Callable [name] ∧ place = d.placeAt (p ++ [name]) := by
  have opened : d.Open p [name] := open_singleton leads.isDir
  have below : l.child name = l.below [name] := rfl
  rw [below, resolve_below (walk_of_resolve leads.resolves) leads.isDir (by simpa using plain)
    (by simp) opened.clear]
  simp [opened]

theorem Leads.child_follow (leads : d.Leads l p) (plain : IsName name)
    (last : ∀ target, d.look (p ++ [name]) ≠ some (.link target)) :
    d.resolve true (l.child name) = d.resolve false (l.child name) :=
  resolve_follow_below (walk_of_resolve leads.resolves) leads.isDir (by simpa using plain)
    (by simp) (open_singleton leads.isDir).clear last

theorem Leads.child_taken (leads : d.Leads l p) (plain : IsName name)
    (callable : l.Callable [name]) {node : Node} (stands : d.look (p ++ [name]) = some node) :
    d.resolve false (l.child name) = .ok (.taken (p ++ [name]) node) :=
  (leads.child plain _).mpr ⟨callable, by simp [placeAt, stands]⟩

theorem Leads.makeTemporary (leads : d.Leads l p) (plain : IsName name) {step : Step}
    (answer : d.makeTemporary (l.child name) = .ok step) :
    l.Callable [name] ∧ d.look (p ++ [name]) = none ∧ step = .create (p ++ [name]) 0o600 := by
  unfold Disk.makeTemporary at answer
  cases found : d.resolve false (l.child name) with
  | error fault => simp [found, bind, Except.bind] at answer
  | ok place =>
    obtain ⟨callable, rfl⟩ := (leads.child plain place).mp found
    cases stands : d.look (p ++ [name]) with
    | none =>
      simp only [found, placeAt, stands, bind, Except.bind, pure, Except.pure, Except.ok.injEq]
        at answer
      exact ⟨callable, rfl, answer.symm⟩
    | some node => simp [found, placeAt, stands, bind, Except.bind, throw, throwThe,
        MonadExceptOf.throw] at answer

theorem Leads.fill (leads : d.Leads l p) (plain : IsName name) (callable : l.Callable [name])
    {old content : ByteArray} {mode : Nat}
    (stands : d.look (p ++ [name]) = some (.file old mode)) :
    d.fill (l.child name) content = .ok (.write (p ++ [name]) content) := by
  rw [Disk.fill, leads.child_follow plain (by simp [stands]),
    leads.child_taken plain callable stands]
  rfl

theorem Leads.removeFile (leads : d.Leads l p) (plain : IsName name) (callable : l.Callable [name])
    {content : ByteArray} {mode : Nat}
    (stands : d.look (p ++ [name]) = some (.file content mode)) :
    d.removeFile (l.child name) = .ok (.unlink (p ++ [name])) := by
  rw [Disk.removeFile, leads.child_taken plain callable stands]
  rfl

theorem Leads.rename {last : String} (leads : d.Leads l p) (plain : IsName name)
    (plain' : IsName last) (other : name ≠ last) {content : ByteArray} {mode : Nat}
    (stands : d.look (p ++ [name]) = some (.file content mode)) {steps : List Step}
    (renamed : d.rename (l.child name) (l.child last) = .ok steps) :
    l.Callable [last] ∧ d.look (p ++ [last]) ≠ some .dir ∧
      steps = [.rename (p ++ [name]) (p ++ [last])] := by
  have one : ∀ name, l.below [name] = l.child name := fun _ => rfl
  have bare : (l.below [last]).bare = l.below [last] := Location.bare_below (by simp)
  have named : (l.below [name]).endsInName = true :=
    Location.endsInName_below (by simp) (by simpa using plain)
  have named' : (l.below [last]).endsInName = true :=
    Location.endsInName_below (by simp) (by simpa using plain')
  have asks : (l.below [last]).asksForDir = false := Location.asksForDir_below (by simp)
  rw [one] at bare named named' asks
  unfold Disk.rename at renamed
  rw [bare, named, named', asks] at renamed
  cases foundS : d.resolve false (l.child name) with
  | error fault => simp [foundS, bind, Except.bind] at renamed
  | ok source =>
  cases foundT : d.resolve false (l.child last) with
  | error fault => simp [foundS, foundT, bind, Except.bind] at renamed
  | ok target =>
  obtain ⟨-, rfl⟩ := (leads.child plain source).mp foundS
  obtain ⟨callable, rfl⟩ := (leads.child plain' target).mp foundT
  refine ⟨callable, ?_⟩
  have between : Apart (p ++ [name]) (p ++ [last]) := apart_append_left.mpr (apart_cons other)
  have under : (p ++ [name]).isPrefixOf (p ++ [last]) = false :=
    Bool.eq_false_iff.mpr fun found => between.1 (List.isPrefixOf_iff_prefix.mp found)
  have above : (p ++ [last]).isPrefixOf (p ++ [name]) = false :=
    Bool.eq_false_iff.mpr fun found => between.2 (List.isPrefixOf_iff_prefix.mp found)
  cases held : d.look (p ++ [last]) with
  | none =>
    simp only [foundS, foundT, placeAt, stands, held, bind, Except.bind, pure, Except.pure, under]
      at renamed
    exact ⟨by simp, by simpa [eq_comm] using renamed⟩
  | some node =>
    simp only [foundS, foundT, placeAt, stands, held, bind, Except.bind, pure, Except.pure, throw,
      throwThe, MonadExceptOf.throw, under, above, between.ne, if_false] at renamed
    cases node with
    | dir => simp at renamed
    | file | link => exact ⟨by simp, by simpa [eq_comm] using renamed⟩

end PinnedTree.Disk
