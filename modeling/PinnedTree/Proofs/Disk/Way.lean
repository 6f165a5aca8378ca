import Mathlib.Tactic.ByContra
import PinnedTree.Destination
import PinnedTree.Disk.Walk
import PinnedTree.Proofs.Disk.Sound

namespace PinnedTree

theorem Location.below_nil (root : Location) : root.below [] = root := by simp [Location.below]

def Location.Callable (root : Location) (names : List String) : Prop :=
  '\x00' ∉ (root.below names).text.toList ∧ (root.below names).text ≠ "" ∧
    (root.below names).text.utf8ByteSize ≤ maxPathBytes ∧
    ∀ name ∈ names, name.utf8ByteSize ≤ maxNameBytes

instance (root : Location) (names : List String) : Decidable (root.Callable names) := by
  unfold Location.Callable; infer_instance

namespace Disk

def start (d : Disk) (l : Location) : DiskPath := if l.anchored then [] else d.home

/-- The root leads to a directory by a way that nothing inside this directory can change. -/
structure Rooted (d : Disk) (root : Location) (top : DiskPath) : Prop where
  isDir : d.look top = some .dir
  leads : ∀ e : Disk, e.home = d.home →
    (∀ p, ¬ (top <+: p ∧ p ≠ top) → e.look p = d.look p) →
    e.walk true maxLinks (e.start root) root.segments = .ok (.taken top .dir)

def Clear (d : Disk) (top : DiskPath) (names : List String) : Prop :=
  ∀ r, r <+: names → r ≠ names → ∀ target, d.look (top ++ r) ≠ some (.link target)

def Open (d : Disk) (top : DiskPath) (names : List String) : Prop :=
  ∀ r, r <+: names → r ≠ names → d.look (top ++ r) = some .dir

structure Straight (d : Disk) (root : Location) (top : DiskPath) (names : List String) : Prop where
  rooted : d.Rooted root top
  plain : ∀ name ∈ names, IsName name
  inner : names ≠ []
  clear : d.Clear top names

def placeAt (d : Disk) (p : DiskPath) : Place :=
  match d.look p with
  | some node => .taken p node
  | none => .free p

variable {d e : Disk} {root : Location} {top p : DiskPath} {names : List String}

theorem Rooted.congr (rooted : d.Rooted root top) (home : e.home = d.home)
    (same : ∀ p, ¬ (top <+: p ∧ p ≠ top) → e.look p = d.look p) : e.Rooted root top where
  isDir := by rw [same top (by simp), rooted.isDir]
  leads f homeF sameF := rooted.leads f (homeF.trans home) fun p outside =>
    (sameF p outside).trans (same p outside)

theorem Open.clear (opened : d.Open top names) : d.Clear top names := by
  intro r under other target link
  rw [opened r under other] at link
  cases link

def linkless (d : Disk) (p : DiskPath) : Bool :=
  match d.look p with
  | some (.link _) => false
  | _ => true

theorem linkless_iff : d.linkless p = true ↔ ∀ target, d.look p ≠ some (.link target) := by
  unfold linkless
  split
  · rename_i target link
    simp [link]
  · rename_i other
    simpa using fun target => other target

theorem clear_iff : d.Clear top names ↔ ∀ n < names.length, d.linkless (top ++ names.take n) := by
  simp only [linkless_iff]
  constructor
  · intro clear n short
    refine clear _ (List.take_prefix n names) fun whole => ?_
    have := congrArg List.length whole
    simp only [List.length_take] at this
    omega
  · intro each r under other
    have shorter : r.length < names.length := by
      have := under.length_le
      by_contra long
      exact other (under.eq_of_length_le (by omega))
    rw [List.prefix_iff_eq_take.mp under]
    exact each r.length shorter

instance (d : Disk) (top : DiskPath) (names : List String) : Decidable (d.Clear top names) :=
  decidable_of_iff _ clear_iff.symm

theorem Sound.opened (sound : d.Sound) (stands : d.look (top ++ names) ≠ none) :
    d.Open top names := by
  rintro r ⟨rest, rfl⟩ other
  rw [← List.append_assoc] at stands
  exact sound.above (by simpa using other) stands

theorem Clear.concat (clear : d.Clear top names)
    (last : ∀ target, d.look (top ++ names) ≠ some (.link target)) (name : String) :
    d.Clear top (names ++ [name]) := by
  intro r under other
  rcases List.prefix_concat_iff.mp under with whole | under
  · exact absurd whole other
  · by_cases whole : r = names
    · exact whole ▸ last
    · exact clear r under whole

theorem Clear.append {more : List String} (clear : d.Clear top names)
    (further : ∀ r, r <+: more → r ≠ more → ∀ target,
      d.look (top ++ (names ++ r)) ≠ some (.link target)) : d.Clear top (names ++ more) := by
  intro r under other
  rcases List.prefix_or_prefix_of_prefix under (List.prefix_append names more) with short | long
  · by_cases whole : r = names
    · subst whole
      have := further [] List.nil_prefix (fun none => other (by simp [← none]))
      simpa using this
    · exact clear r short whole
  · obtain ⟨rest, rfl⟩ := long
    exact further rest ((List.prefix_append_right_inj _).mp under) (by simpa using other)

theorem Straight.append {more : List String} (s : d.Straight root top names)
    (plain : ∀ name ∈ more, IsName name)
    (further : ∀ r, r <+: more → r ≠ more → ∀ target,
      d.look (top ++ (names ++ r)) ≠ some (.link target)) :
    d.Straight root top (names ++ more) where
  rooted := s.rooted
  plain n member := by
    rcases List.mem_append.mp member with member | member
    · exact s.plain n member
    · exact plain n member
  inner := by simp [s.inner]
  clear := s.clear.append further

theorem Straight.above {r : List String} (s : d.Straight root top names) (under : r <+: names)
    (filled : r ≠ []) : d.Straight root top r where
  rooted := s.rooted
  plain name member := s.plain name (under.subset member)
  inner := filled
  clear r' inner other := by
    refine s.clear r' (inner.trans under) fun same => other ?_
    exact inner.eq_of_length_le (same ▸ under.length_le)

theorem Straight.concat {name : String} (s : d.Straight root top names) (plain : IsName name)
    (last : ∀ target, d.look (top ++ names) ≠ some (.link target)) :
    d.Straight root top (names ++ [name]) where
  rooted := s.rooted
  plain n member := by
    rcases List.mem_append.mp member with member | member
    · exact s.plain n member
    · exact List.mem_singleton.mp member ▸ plain
  inner := by simp
  clear := s.clear.concat last name

theorem Clear.tail {name : String} {rest : List String} (clear : d.Clear top (name :: rest)) :
    d.Clear (top ++ [name]) rest := by
  intro r under other target
  have := clear (name :: r) (List.cons_prefix_cons.mpr ⟨rfl, under⟩) (by simpa using other) target
  simpa using this

theorem Open.tail {name : String} {rest : List String} (opened : d.Open top (name :: rest)) :
    d.Open (top ++ [name]) rest := by
  intro r under other
  have := opened (name :: r) (List.cons_prefix_cons.mpr ⟨rfl, under⟩) (by simpa using other)
  simpa using this

theorem open_cons {name : String} {rest : List String} (isDir : d.look top = some .dir)
    (opened : d.Open (top ++ [name]) rest) : d.Open top (name :: rest) := by
  intro r under other
  cases r with
  | nil => simpa using isDir
  | cons first more =>
    obtain ⟨rfl, below⟩ := List.cons_prefix_cons.mp under
    have := opened more below (by simpa using other)
    simpa using this

theorem open_singleton {name : String} (isDir : d.look top = some .dir) : d.Open top [name] := by
  refine open_cons isDir ?_
  intro r under other
  exact absurd (List.prefix_nil.mp under) other

theorem advance_clear (plain : ∀ name ∈ names, IsName name) (inner : names ≠ [])
    (isDir : d.look top = some .dir) (clear : d.Clear top names) (stretch : Stretch) :
    d.advance false top names = .ok stretch ↔
      (∀ name ∈ names, name.utf8ByteSize ≤ maxNameBytes) ∧ d.Open top names ∧
        stretch = .ended (d.placeAt (top ++ names)) := by
  induction names generalizing top with
  | nil => exact absurd rfl inner
  | cons name rest ih =>
    obtain ⟨-, notHere, notUp, -⟩ := plain name (by simp)
    rw [advance_step false notHere notUp]
    by_cases long : name.utf8ByteSize > maxNameBytes
    · simp only [long, if_true, List.forall_mem_cons]
      constructor
      · intro impossible
        cases impossible
      · rintro ⟨⟨short, -⟩, -, -⟩
        omega
    · have short : name.utf8ByteSize ≤ maxNameBytes := by omega
      simp only [long, if_false, List.forall_mem_cons, short, true_and]
      cases rest with
      | nil =>
        have opened : d.Open top [name] := open_singleton isDir
        cases look : d.look (top ++ [name]) with
        | none => simp [placeAt, look, opened, eq_comm]
        | some node => cases node <;> simp [placeAt, look, opened, eq_comm, advance]
      | cons next more =>
        cases look : d.look (top ++ [name]) with
        | none =>
          simp only [List.isEmpty_cons, Bool.false_eq_true, if_false, reduceCtorEq, false_iff]
          rintro ⟨-, opened, -⟩
          have := opened [name] (by simp) (by simp)
          simp [look] at this
        | some node =>
          cases node with
          | dir =>
            simp only
            rw [ih (fun n member => plain n (List.mem_cons_of_mem _ member)) (by simp) look clear.tail]
            constructor
            · rintro ⟨sizes, opened, rfl⟩
              exact ⟨sizes, open_cons isDir opened, by simp⟩
            · rintro ⟨sizes, opened, rfl⟩
              exact ⟨sizes, opened.tail, by simp⟩
          | file content mode =>
            simp only [List.isEmpty_cons, Bool.false_eq_true, if_false, reduceCtorEq, false_iff]
            rintro ⟨-, opened, -⟩
            have := opened [name] (by simp) (by simp)
            simp [look] at this
          | link target =>
            exact absurd look (clear [name] (by simp) (by simp) target)

theorem advance_long (plain : ∀ name ∈ names, IsName name) (opened : d.Open top names)
    (long : ∃ name ∈ names, name.utf8ByteSize > maxNameBytes) :
    d.advance false top names = .error .nameTooLong := by
  induction names generalizing top with
  | nil => simp at long
  | cons name rest ih =>
    obtain ⟨-, notHere, notUp, -⟩ := plain name (by simp)
    rw [advance_step false notHere notUp]
    by_cases here : name.utf8ByteSize > maxNameBytes
    · rw [if_pos here]
    · have later : ∃ n ∈ rest, n.utf8ByteSize > maxNameBytes := by simpa [here] using long
      have more : rest ≠ [] := by
        rintro rfl
        simp at later
      rw [if_neg here, opened [name] (by simp) (by simpa using more.symm)]
      exact ih (fun n member => plain n (List.mem_cons_of_mem _ member)) opened.tail later

theorem advance_follow (plain : ∀ name ∈ names, IsName name) (clear : d.Clear top names)
    (last : ∀ target, d.look (top ++ names) ≠ some (.link target)) :
    d.advance true top names = d.advance false top names := by
  induction names generalizing top with
  | nil => simp [advance]
  | cons name rest ih =>
    obtain ⟨-, notHere, notUp, -⟩ := plain name (by simp)
    rw [advance_step true notHere notUp, advance_step false notHere notUp]
    split
    · rfl
    · cases look : d.look (top ++ [name]) with
      | none => rfl
      | some node =>
        cases node with
        | dir =>
          exact ih (fun n member => plain n (List.mem_cons_of_mem _ member)) clear.tail
            (by simpa using last)
        | file content mode => rfl
        | link target =>
          cases rest with
          | nil => exact absurd look (last target)
          | cons next more => exact absurd look (clear [name] (by simp) (by simp) target)

theorem advance_append {here : DiskPath} {path : List String}
    (first : d.advance true here path = .ok (.ended (.taken p .dir))) (follow : Bool) :
    d.advance follow here (path ++ names) = d.advance follow p names := by
  induction path generalizing here with
  | nil =>
    simp only [advance, Except.ok.injEq, Stretch.ended.injEq, Place.taken.injEq, and_true] at first
    simp [first]
  | cons name rest ih =>
    by_cases notHere : name = "."
    · subst notHere
      simpa [advance] using ih (by simpa [advance] using first)
    by_cases notUp : name = ".."
    · subst notUp
      simpa [advance] using ih (by simpa [advance] using first)
    rw [advance_step true notHere notUp] at first
    rw [List.cons_append, advance_step follow notHere notUp]
    split at first
    · cases first
    · rename_i short
      rw [if_neg short]
      cases look : d.look (here ++ [name]) with
      | none =>
        simp only [look] at first
        split at first <;> simp at first
      | some node =>
        simp only [look] at first
        cases node with
        | dir => exact ih first
        | file content mode =>
          simp only at first
          split at first <;> simp at first
        | link target => simp at first

theorem advance_append_turned {here turn : DiskPath} {path rest : List String} {target : String}
    (inner : names ≠ []) (first : d.advance true here path = .ok (.turned turn target rest))
    (follow : Bool) :
    d.advance follow here (path ++ names) = .ok (.turned turn target (rest ++ names)) := by
  induction path generalizing here with
  | nil => simp [advance] at first
  | cons name more ih =>
    by_cases notHere : name = "."
    · subst notHere
      simpa [advance] using ih (by simpa [advance] using first)
    by_cases notUp : name = ".."
    · subst notUp
      simpa [advance] using ih (by simpa [advance] using first)
    rw [advance_step true notHere notUp] at first
    rw [List.cons_append, advance_step follow notHere notUp]
    split at first
    · cases first
    · rename_i short
      rw [if_neg short]
      cases look : d.look (here ++ [name]) with
      | none =>
        simp only [look] at first
        split at first <;> simp at first
      | some node =>
        simp only [look] at first
        cases node with
        | dir => exact ih first
        | file content mode =>
          simp only at first
          split at first <;> simp at first
        | link found =>
          simp only [Bool.not_true, Bool.and_false, Bool.false_eq_true, if_false, Except.ok.injEq,
            Stretch.turned.injEq] at first
          obtain ⟨rfl, rfl, rfl⟩ := first
          simp [inner]

theorem walk_ok {follow : Bool} {here : DiskPath} {links : Nat} {place : Place} :
    d.walk follow links here names = .ok place ↔
      d.advance follow here names = .ok (.ended place) ∨
        ∃ left directory target rest, links = left + 1 ∧
          d.advance follow here names = .ok (.turned directory target rest) ∧
          d.walk follow left (if (Location.ofText target).anchored then [] else directory)
            ((Location.ofText target).segments ++ rest) = .ok place := by
  rw [walk.eq_def]
  cases stretch : d.advance follow here names with
  | error cause => simp [stretch, bind, Except.bind]
  | ok s =>
    cases s with
    | ended last => simp [stretch, bind, Except.bind, pure, Except.pure]
    | turned directory target rest =>
      cases links with
      | zero => simp [stretch, bind, Except.bind, throw, throwThe, MonadExceptOf.throw]
      | succ left => simp [stretch, bind, Except.bind]

theorem walk_append {here : DiskPath} {path : List String} {links : Nat} (inner : names ≠ [])
    (first : d.walk true links here path = .ok (.taken p .dir)) (follow : Bool) :
    ∃ left, d.walk follow links here (path ++ names) = d.walk follow left p names := by
  induction links generalizing here path with
  | zero =>
    refine ⟨0, ?_⟩
    rw [walk] at first ⊢
    cases stretch : d.advance true here path with
    | error cause => simp [stretch, bind, Except.bind] at first
    | ok found =>
      cases found with
      | ended place =>
        simp only [stretch, bind, Except.bind, pure, Except.pure, Except.ok.injEq] at first
        rw [advance_append (first ▸ stretch), walk]
      | turned turn target rest => simp [stretch, bind, Except.bind, throw, throwThe,
          MonadExceptOf.throw] at first
  | succ links ih =>
    rw [walk] at first
    cases stretch : d.advance true here path with
    | error cause => simp [stretch, bind, Except.bind] at first
    | ok found =>
      cases found with
      | ended place =>
        simp only [stretch, bind, Except.bind, pure, Except.pure, Except.ok.injEq] at first
        refine ⟨links + 1, ?_⟩
        rw [walk, advance_append (first ▸ stretch), walk]
      | turned turn target rest =>
        simp only [stretch, bind, Except.bind] at first
        obtain ⟨left, goes⟩ := ih first
        refine ⟨left, ?_⟩
        rw [walk, advance_append_turned inner stretch]
        simpa [bind, Except.bind, List.append_assoc] using goes

theorem walk_clear (plain : ∀ name ∈ names, IsName name) (inner : names ≠ [])
    (isDir : d.look top = some .dir) (clear : d.Clear top names) (links : Nat) (place : Place) :
    d.walk false links top names = .ok place ↔
      (∀ name ∈ names, name.utf8ByteSize ≤ maxNameBytes) ∧ d.Open top names ∧
        place = d.placeAt (top ++ names) := by
  have ends := advance_clear plain inner isDir clear
  rw [walk]
  cases stretch : d.advance false top names with
  | error cause =>
    simp only [bind, Except.bind, reduceCtorEq, false_iff]
    rintro ⟨sizes, opened, -⟩
    have := (ends (.ended (d.placeAt (top ++ names)))).mpr ⟨sizes, opened, rfl⟩
    simp [stretch] at this
  | ok found =>
    obtain ⟨sizes, opened, rfl⟩ := (ends found).mp stretch
    simp only [bind, Except.bind, pure, Except.pure, Except.ok.injEq]
    constructor
    · rintro rfl
      exact ⟨sizes, opened, rfl⟩
    · rintro ⟨-, -, rfl⟩
      rfl

theorem walk_follow (plain : ∀ name ∈ names, IsName name) (inner : names ≠ [])
    (isDir : d.look top = some .dir) (clear : d.Clear top names)
    (last : ∀ target, d.look (top ++ names) ≠ some (.link target)) (links more : Nat) :
    d.walk true links top names = d.walk false more top names := by
  rw [walk, walk, advance_follow plain clear last]
  cases stretch : d.advance false top names with
  | error cause => rfl
  | ok found =>
    obtain ⟨-, -, rfl⟩ := (advance_clear plain inner isDir clear found).mp stretch
    rfl

theorem resolve_eq (d : Disk) (follow : Bool) (root : Location) (names : List String) :
    d.resolve follow (root.below names) =
      if '\x00' ∈ (root.below names).text.toList then .error .nulInName
      else if (root.below names).text = "" then .error (.errno .noEntry)
      else if (root.below names).text.utf8ByteSize > maxPathBytes then .error (.errno .nameTooLong)
      else (d.walk follow maxLinks (d.start root) (root.segments ++ names)).mapError .errno := by
  have anchored : (root.below names).anchored = root.anchored := rfl
  simp only [resolve, start, anchored, Location.segments_below]
  by_cases printable : '\x00' ∈ (root.below names).text.toList
  · simp [printable]
  by_cases filled : (root.below names).text = ""
  · simp [filled]
  · simp [printable, filled]

theorem resolve_ok {follow : Bool} {l : Location} {place : Place} : d.resolve follow l = .ok place ↔
    ('\x00' ∉ l.text.toList ∧ l.text ≠ "" ∧ l.text.utf8ByteSize ≤ maxPathBytes) ∧
      d.walk follow maxLinks (d.start l) l.segments = .ok place := by
  simp only [resolve, start]
  by_cases printable : '\x00' ∈ l.text.toList
  · simp [printable]
  by_cases filled : l.text = ""
  · simp [filled]
  by_cases short : l.text.utf8ByteSize > maxPathBytes
  · simp [printable, filled, short, Nat.not_le.mpr short]
  · cases d.walk follow maxLinks (if l.anchored then [] else d.home) l.segments <;>
      simp [printable, filled, short, Nat.not_lt.mp short, Except.mapError]

theorem walk_of_resolve {follow : Bool} {l : Location} {place : Place}
    (found : d.resolve follow l = .ok place) :
    d.walk follow maxLinks (d.start l) l.segments = .ok place := (resolve_ok.mp found).2

section

variable (leads : d.walk true maxLinks (d.start root) root.segments = .ok (.taken top .dir))
  (isDir : d.look top = some .dir) (plain : ∀ name ∈ names, IsName name) (inner : names ≠ [])
  (clear : d.Clear top names)
include leads isDir plain inner clear

theorem resolve_below (place : Place) : d.resolve false (root.below names) = .ok place ↔
    root.Callable names ∧ d.Open top names ∧ place = d.placeAt (top ++ names) := by
  obtain ⟨left, goes⟩ := walk_append inner leads false
  rw [resolve_eq, goes]
  unfold Location.Callable
  split
  · simp [*]
  split
  · simp [*]
  split
  · rename_i long
    simp only [reduceCtorEq, false_iff]
    rintro ⟨⟨-, -, short, -⟩, -⟩
    omega
  · rename_i printable filled short
    have walks := walk_clear plain inner isDir clear left
    cases walked : d.walk false left top names with
    | error cause =>
      simp only [Except.mapError, reduceCtorEq, false_iff]
      rintro ⟨⟨-, -, -, sizes⟩, opened, -⟩
      have := (walks _).mpr ⟨sizes, opened, rfl⟩
      simp [walked] at this
    | ok found =>
      obtain ⟨sizes, opened, rfl⟩ := (walks found).mp walked
      have fits : (root.below names).text.utf8ByteSize ≤ maxPathBytes := by omega
      simp only [Except.mapError, Except.ok.injEq]
      constructor
      · rintro rfl
        exact ⟨⟨printable, filled, fits, sizes⟩, opened, rfl⟩
      · rintro ⟨-, -, rfl⟩
        rfl

theorem resolve_follow_below (last : ∀ target, d.look (top ++ names) ≠ some (.link target)) :
    d.resolve true (root.below names) = d.resolve false (root.below names) := by
  obtain ⟨left, goes⟩ := walk_append inner leads true
  obtain ⟨more, stays⟩ := walk_append inner leads false
  rw [resolve_eq, resolve_eq, goes, stays, walk_follow plain inner isDir clear last left more]

end

theorem Straight.resolve (s : d.Straight root top names) (place : Place) :
    d.resolve false (root.below names) = .ok place ↔
      root.Callable names ∧ d.Open top names ∧ place = d.placeAt (top ++ names) :=
  resolve_below (s.rooted.leads d rfl fun _ _ => rfl) s.rooted.isDir s.plain s.inner s.clear place

theorem Straight.resolve_follow (s : d.Straight root top names)
    (last : ∀ target, d.look (top ++ names) ≠ some (.link target)) :
    d.resolve true (root.below names) = d.resolve false (root.below names) :=
  resolve_follow_below (s.rooted.leads d rfl fun _ _ => rfl) s.rooted.isDir s.plain s.inner s.clear
    last

end Disk

end PinnedTree
