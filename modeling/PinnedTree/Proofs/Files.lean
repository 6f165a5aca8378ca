import PinnedTree.Files
import PinnedTree.Proofs.Answer
import PinnedTree.Proofs.Disk.Alike
import PinnedTree.Proofs.Disk.Root

namespace PinnedTree

theorem fromUTF8?_toUTF8 (s : String) : String.fromUTF8? s.toUTF8 = some s := by
  have valid : s.toUTF8.IsValidUTF8 := s.isValidUTF8
  rw [String.fromUTF8?, dif_pos valid]
  rfl

namespace Disk

def Built (d e : Disk) (goal : DiskPath) : Prop :=
  ∀ p, e.look p = d.look p ∨ (d.look p = none ∧ e.look p = some .dir ∧ p <+: goal)

def Pruned (d e : Disk) (path : DiskPath) : Prop :=
  ∀ q, e.look q = d.look q ∨ (path <+: q ∧ e.look q = none)

def Moves (d : Disk) (root : Location) (top : DiskPath) (source target : List String) : Prop :=
  root.Callable source ∧ root.Callable target ∧
    (Step.rename (top ++ source) (top ++ target)).Fits d

/-- The permissions of a file that was opened for writing: those it had, which allowed that, or the
ones it was made with. -/
inductive Grants (d : Disk) (path : DiskPath) (mode : Nat) : Nat → Prop
  | made (free : d.look path = none) : Grants d path mode mode
  | kept {c : ByteArray} {m : Nat} (stood : d.look path = some (.file c m))
    (writable : mayWrite m = true) : Grants d path mode m

variable {d e f : Disk} {goal further p : DiskPath}

theorem Grants.of_free {mode granted : Nat} (grants : d.Grants p mode granted)
    (free : d.look p = none) : granted = mode := by
  cases grants with
  | made _ => rfl
  | kept stood _ => cases stood.symm.trans free

theorem Grants.writable {mode granted : Nat} (grants : d.Grants p mode granted)
    (chosen : mayWrite mode = true) : mayWrite granted = true := by
  cases grants with
  | made _ => exact chosen
  | kept _ writable => exact writable

theorem grants_create {mode : Nat} (fits : (Step.create p mode).Fits d)
    (writable : ∀ c m, d.look p = some (.file c m) → mayWrite m = true) :
    ∃ c m, (Step.create p mode).apply d = d.put p (.file c m) ∧ d.Grants p mode m := by
  simp only [Step.apply]
  cases stood : d.look p with
  | none => exact ⟨_, _, rfl, .made stood⟩
  | some node =>
    obtain ⟨c, m, rfl⟩ := fits.2 node stood
    exact ⟨_, _, rfl, .kept stood (writable c m stood)⟩

theorem Built.refl (d : Disk) (goal : DiskPath) : d.Built d goal := fun _ => .inl rfl

theorem Built.trans (first : d.Built e goal) (second : e.Built f goal) : d.Built f goal := by
  intro p
  rcases second p with same | ⟨free, made, under⟩
  · rw [same]
    exact first p
  · rcases first p with same' | ⟨-, made', -⟩
    · exact .inr ⟨same' ▸ free, made, under⟩
    · rw [free] at made'
      cases made'

theorem Built.mono (built : d.Built e goal) (under : goal <+: further) : d.Built e further := by
  intro p
  rcases built p with same | ⟨free, made, above⟩
  · exact .inl same
  · exact .inr ⟨free, made, above.trans under⟩

theorem Built.away (built : d.Built e goal) (away : ¬ p <+: goal) : e.look p = d.look p := by
  rcases built p with same | ⟨-, -, leads⟩
  · exact same
  · exact absurd leads away

theorem Built.stands (built : d.Built e goal) {node : Node} (stands : d.look p = some node) :
    e.look p = some node := by
  rcases built p with same | ⟨free, -, -⟩
  · rw [same, stands]
  · rw [free] at stands
    cases stands

theorem Built.no_link (built : d.Built e goal) (plain : ∀ target, d.look p ≠ some (.link target))
    (target : String) : e.look p ≠ some (.link target) := by
  rcases built p with same | ⟨-, made, -⟩
  · rw [same]
    exact plain target
  · simp [made]

theorem Built.of_makeDir (fits : (Step.makeDir p).Fits d) :
    d.Built ((Step.makeDir p).apply d) p := by
  intro q
  simp only [Step.apply, look_put fits.2.ne_nil]
  by_cases here : q = p
  · subst here
    exact .inr ⟨fits.1, by simp, List.prefix_refl q⟩
  · exact .inl (by simp [here])

theorem Built.rooted {root : Location} {top : DiskPath} {names : List String}
    (built : d.Built e (top ++ names)) (rooted : d.Rooted root top) (sound : d.Sound)
    (home : e.home = d.home) : e.Rooted root top := by
  refine rooted.congr home fun p outside => ?_
  rcases built p with same | ⟨free, -, under⟩
  · exact same
  · exfalso
    rcases List.prefix_or_prefix_of_prefix under (List.prefix_append top names) with above | below
    · obtain ⟨rest, rfl⟩ := above
      have gone : d.look (p ++ rest) = none := sound.none_below free
      simp [rooted.isDir] at gone
    · refine outside ⟨below, ?_⟩
      rintro rfl
      simp [rooted.isDir] at free

end Disk

namespace Location

theorem ancestors_concat (base : String) (names : List String) (last : String) :
    (⟨base, names ++ [last]⟩ : Location).ancestors
      = ⟨base, names ++ [last]⟩ :: (⟨base, names⟩ : Location).ancestors := by
  simp only [ancestors, List.length_append, List.length_singleton, List.range_succ_eq_map,
    List.map_cons, List.map_map, List.cons_append]
  congr 1
  · simp [List.take_of_length_le]
  · congr 1
    apply List.map_congr_left
    intro dropped member
    have less := List.mem_range.mp member
    simp only [Function.comp_apply, Nat.succ_eq_add_one, Nat.add_sub_add_right]
    rw [List.take_append_of_le_length (by omega)]

theorem ancestors_below (root : Location) (names : List String) (last : String) :
    (root.below (names ++ [last])).ancestors
      = root.below (names ++ [last]) :: (root.below names).ancestors := by
  simp only [below, ← List.append_assoc, ancestors_concat]

theorem parent_below (l : Location) (names : List String) (last : String) :
    (l.below (names ++ [last])).parent? = some (l.below names) := by
  simp only [parent?, below, ← List.append_assoc]
  cases same : l.names ++ names ++ [last] with
  | nil => simp at same
  | cons first rest => simp [← same]

theorem ancestors_head (l : Location) : ∃ above, l.ancestors = l :: above := by
  obtain ⟨base, names⟩ := l
  cases names using List.reverseRecOn with
  | nil => exact ⟨_, rfl⟩
  | append_singleton names last => exact ⟨_, ancestors_concat base names last⟩

theorem text_concat (root : Location) (names : List String) :
    ∃ between, ∀ last, (root.below (names ++ [last])).text
      = (root.below names).text ++ between ++ last := by
  simp only [text, below, ← List.append_assoc, List.foldl_append, List.foldl_cons,
    List.foldl_nil, appendPiece]
  split
  · exact ⟨"", fun last => by rw [String.append_empty]⟩
  · exact ⟨"/", fun last => rfl⟩

theorem Callable.init {root : Location} {names : List String} {last : String}
    (callable : root.Callable (names ++ [last])) (inner : names ≠ [])
    (plain : ∀ name ∈ names, IsName name) : root.Callable names := by
  obtain ⟨printable, -, short, sizes⟩ := callable
  obtain ⟨between, same⟩ := text_concat root names
  rw [same, String.append_assoc, String.toList_append, List.mem_append, not_or] at printable
  rw [same, String.append_assoc, String.utf8ByteSize_append] at short
  exact ⟨printable.1, text_below_ne_empty root inner plain, by omega,
    fun name member => sizes name (List.mem_append_left _ member)⟩

theorem Callable.of_prefix {root : Location} {names more : List String}
    (callable : root.Callable (names ++ more)) (inner : names ≠ [])
    (plain : ∀ name ∈ names ++ more, IsName name) : root.Callable names := by
  induction more using List.reverseRecOn with
  | nil => simpa using callable
  | append_singleton more last ih =>
    rw [← List.append_assoc] at callable plain
    refine ih (callable.init (by simp [inner]) fun name member => ?_) fun name member => ?_
    · exact plain name (List.mem_append_left _ member)
    · exact plain name (List.mem_append_left _ member)

theorem Callable.shorten {root : Location} {names : List String} {last more : String}
    (callable : root.Callable (names ++ [last ++ more]))
    (plain : ∀ name ∈ names ++ [last], IsName name) : root.Callable (names ++ [last]) := by
  obtain ⟨printable, -, short, sizes⟩ := callable
  obtain ⟨between, same⟩ := text_concat root names
  rw [same, ← String.append_assoc, ← same, String.toList_append, List.mem_append, not_or]
    at printable
  rw [same, ← String.append_assoc, ← same, String.utf8ByteSize_append] at short
  refine ⟨printable.1, text_below_ne_empty root (by simp) plain, by omega, ?_⟩
  intro name member
  rcases List.mem_append.mp member with member | member
  · exact sizes name (List.mem_append_left _ member)
  · have longest := sizes (last ++ more) (by simp)
    rw [String.utf8ByteSize_append] at longest
    rw [List.mem_singleton.mp member]
    omega

end Location

theorem Disk.Straight.leads_above {d : Disk} {root : Location} {top : DiskPath}
    {names r : List String} (s : d.Straight root top names) (under : r <+: names)
    (shorter : r ≠ names) (filled : r ≠ []) (callable : root.Callable names)
    (opened : d.Open top names) :
    d.resolve true (root.below r) = .ok (.taken (top ++ r) .dir) := by
  have isDir := opened r under shorter
  have opened' : d.Open top r := by
    intro r' further other
    apply opened r' (further.trans under)
    intro same
    exact other (further.eq_of_length_le (same ▸ under.length_le))
  have straight := s.above under filled
  have plain := s.plain
  obtain ⟨more, rfl⟩ := under
  exact straight.resolved_there (callable.of_prefix filled plain) opened' isDir (by simp)

namespace Files

open PinnedTree.Action

variable {w : World} {root : Location} {top : DiskPath} {names source target : List String}

theorem makeDir_ensures (straight : w.disk.Straight root top names) :
    (changeOnce (·.makeDir (root.below names))).Ensures
      (w.disk.Built · (top ++ names))
      (fun r e => (∃ fault, r = .error fault ∧ e = w.disk) ∨
        (r = .ok () ∧ root.Callable names ∧ e.look (top ++ names) = some .dir ∧
          w.disk.Built e (top ++ names))) w := by
  refine ensures_changeOnce (Disk.Built.refl _ _) (fun fault _ => .inl ⟨fault, rfl, rfl⟩) ?_
  intro step made
  obtain ⟨callable, fits, -, rfl⟩ := (straight.makeDir step).mp made
  have built := Disk.Built.of_makeDir fits
  exact ⟨fits, built, .inr ⟨rfl, callable, by simp [Step.apply, Disk.look_put fits.2.ne_nil], built⟩⟩

theorem excuse_ensures (straight : w.disk.Straight root top names) (sound : w.disk.Sound)
    (last : ∀ target, w.disk.look (top ++ names) ≠ some (.link target)) (fault : IoFault) :
    (do if ← observe (·.leadsToDir (root.below names)) then return () else throw fault :
      Action IoFault Unit).Ensures (· = w.disk)
      (fun r e => e = w.disk ∧
        (r = .ok () → root.Callable names ∧ e.look (top ++ names) = some .dir)) w := by
  refine ensures_observe_bind ?_
  split
  · rename_i leads
    exact ensures_pure rfl ⟨rfl, fun _ => (straight.leadsToDir sound last).mp leads⟩
  · exact ensures_throw rfl ⟨rfl, by simp⟩

theorem makeLast_ensures (straight : w.disk.Straight root top names) (sound : w.disk.Sound)
    (last : ∀ target, w.disk.look (top ++ names) ≠ some (.link target)) :
    (makeLast (root.below names)).Ensures (w.disk.Built · (top ++ names))
      (fun r e => w.disk.Built e (top ++ names) ∧
        (r = .ok () → root.Callable names ∧ e.look (top ++ names) = some .dir) ∧
        ∀ fault, r = .error fault → e = w.disk) w := by
  refine (makeDir_ensures straight).tried sound ?_
  rintro _ w' sound' - (⟨fault, rfl, same⟩ | ⟨rfl, callable, made, built⟩)
  · refine ((excuse_ensures (same ▸ straight) sound' (same ▸ last) fault).weaken ?_).mono ?_
    · rintro _ rfl
      exact same ▸ Disk.Built.refl _ _
    · rintro r _ ⟨rfl, there⟩
      exact ⟨same ▸ Disk.Built.refl _ _, there, fun _ _ => same⟩
  · exact ensures_pure built ⟨built, fun _ => ⟨callable, made⟩, by simp⟩

theorem makeDirs_refused {l : Location} {fault : IoFault} (named : l.text ≠ "")
    (refused : w.disk.makeDir l = .error fault) (other : fault ≠ .errno .noEntry) :
    ∃ r, (makeDirs l).exec w = (r, w) ∧ (w.disk.leadsToDir l = true → r = .ok ()) := by
  obtain ⟨above, here⟩ := l.ancestors_head
  have tried : (outcome (changeOnce (·.makeDir l)) : Action IoFault _).exec w
      = (.ok (.error fault), w) := by
    rw [exec_outcome, exec_changeOnce, refused]
  rw [makeDirs, here, makeDirsFrom, if_neg (by simpa using named), exec_bind_ok tried]
  split
  · rename_i impossible
    cases impossible
  · rename_i missing
    cases missing
    exact absurd rfl other
  · rw [exec_observe_bind]
    split
    · exact ⟨_, rfl, fun _ => rfl⟩
    · rename_i nowhere
      exact ⟨_, rfl, fun leads => absurd leads nowhere⟩

theorem makeDirs_there {l : Location} {p : DiskPath}
    (leads : w.disk.walk true maxLinks (w.disk.start l) l.segments = .ok (.taken p .dir)) :
    ∃ r, (makeDirs l).exec w = (r, w) ∧
      (l.text = "" ∨ w.disk.leadsToDir l = true → r = .ok ()) := by
  by_cases named : l.text = ""
  · obtain ⟨above, here⟩ := l.ancestors_head
    rw [makeDirs, here, makeDirsFrom, if_pos (by simpa using named)]
    exact ⟨_, rfl, fun _ => rfl⟩
  obtain ⟨fault, refused, notMissing⟩ := Disk.makeDir_there leads named
  obtain ⟨r, same, done⟩ := makeDirs_refused named refused notMissing
  exact ⟨r, same, fun holds => done (holds.resolve_left named)⟩

theorem exec_makeDirs {l : Location} (leads : w.disk.leadsToDir l = true) :
    (makeDirs l).exec w = (.ok (), w) := by
  obtain ⟨p, found⟩ := Disk.leadsToDir_iff.mp leads
  obtain ⟨r, ran, done⟩ := makeDirs_there (Disk.walk_of_resolve found)
  rw [ran, done (.inr leads)]

theorem makeDirs_ensures (sound : w.disk.Sound) (rooted : w.disk.Rooted root top)
    (plain : ∀ name ∈ names, IsName name)
    (clear : ∀ r, r <+: names → r ≠ [] → ∀ target, w.disk.look (top ++ r) ≠ some (.link target)) :
    (makeDirs (root.below names)).Ensures (w.disk.Built · (top ++ names))
      (fun r e => w.disk.Built e (top ++ names) ∧ (r = .ok () → names ≠ [] →
        root.Callable names ∧ e.look (top ++ names) = some .dir) ∧
        ∀ fault, r = .error fault → e.look (top ++ names) = w.disk.look (top ++ names)) w := by
  unfold makeDirs
  induction names using List.reverseRecOn generalizing w with
  | nil =>
    obtain ⟨r, there, -⟩ := makeDirs_there (rooted.leads _ rfl fun _ _ => rfl)
    rw [Location.below_nil]
    exact .of_exec there (Disk.Built.refl _ _)
      ⟨Disk.Built.refl _ _, fun _ inner => absurd rfl inner, fun _ _ => rfl⟩
  | append_singleton names last ih =>
    have straight : w.disk.Straight root top (names ++ [last]) := by
      refine ⟨rooted, plain, by simp, fun r under _ target link => ?_⟩
      by_cases root : r = []
      · simp [root, rooted.isDir] at link
      · exact clear r under root target link
    have noLink := clear (names ++ [last]) (List.prefix_refl _) (by simp)
    rw [Location.ancestors_below, makeDirsFrom,
      if_neg (by simpa using Location.text_below_ne_empty root straight.inner plain)]
    refine (makeDir_ensures straight).tried sound ?_
    rintro _ w' sound' home (⟨fault, rfl, same⟩ | ⟨rfl, callable, made, built⟩)
    · split
      · rename_i impossible
        cases impossible
      · have above := ih sound' (same ▸ rooted)
          (fun name member => plain name (List.mem_append_left _ member))
          (fun r under => same ▸ clear r (under.trans (List.prefix_append _ _)))
        have longer : top ++ names <+: top ++ (names ++ [last]) := by
          rw [← List.append_assoc]
          exact List.prefix_append _ _
        have apart : ¬ top ++ (names ++ [last]) <+: top ++ names := by
          intro under
          have shorter := under.length_le
          simp only [List.length_append, List.length_singleton] at shorter
          omega
        refine (above.weaken fun e built => same ▸ built.mono longer).andThen sound' ?_ ?_
        · rintro _ w'' sound'' home'' ⟨built, -⟩
          have straight'' : w''.disk.Straight root top (names ++ [last]) :=
            ⟨built.rooted (same ▸ rooted) sound' home'', plain, straight.inner,
              fun r under other => built.no_link (same ▸ straight.clear r under other)⟩
          have first := built.mono longer
          refine ((makeLast_ensures straight'' sound'' (built.no_link (same ▸ noLink))).weaken
            fun e second => same ▸ first.trans second).mono ?_
          rintro r e ⟨second, there, still⟩
          refine ⟨same ▸ first.trans second, fun done _ => there done, fun fault failed => ?_⟩
          rw [still fault failed, built.away apart, same]
        · rintro fault e - - ⟨built, -⟩
          exact ⟨same ▸ built.mono longer, by simp, fun _ _ => by rw [built.away apart, same]⟩
      · refine ((excuse_ensures (same ▸ straight) sound' (same ▸ noLink) _).weaken ?_).mono ?_
        · rintro _ rfl
          exact same ▸ Disk.Built.refl _ _
        · rintro r _ ⟨rfl, there⟩
          exact ⟨same ▸ Disk.Built.refl _ _, fun done _ => there done, fun _ _ => by rw [same]⟩
    · exact ensures_pure built ⟨built, fun _ _ => ⟨callable, made⟩, by simp⟩

theorem exec_makeDir (straight : w.disk.Straight root top names) (callable : root.Callable names)
    (opened : w.disk.Open top names) (free : w.disk.look (top ++ names) = none) :
    (outcome (changeOnce (·.makeDir (root.below names))) : Action IoFault _).exec w
      = (.ok (.ok ()), w.perform (.makeDir (top ++ names))) := by
  rw [exec_outcome, exec_changeOnce, (straight.makeDir _).mpr
    ⟨callable, ⟨free, straight.holds opened⟩, opened, rfl⟩]

theorem exec_makeDirs_new (straight : w.disk.Straight root top names) (callable : root.Callable names)
    (opened : w.disk.Open top names) (free : w.disk.look (top ++ names) = none) :
    (makeDirs (root.below names)).exec w = (.ok (), w.perform (.makeDir (top ++ names))) := by
  obtain ⟨init, last, rfl⟩ : ∃ init last, names = init ++ [last] :=
    ⟨_, _, (List.dropLast_concat_getLast straight.inner).symm⟩
  have named := Location.text_below_ne_empty root straight.inner straight.plain
  unfold makeDirs
  rw [Location.ancestors_below, makeDirsFrom, if_neg (by simpa using named)]
  exact (exec_bind_ok (exec_makeDir straight callable opened free)).trans rfl

/-- A world in which the directories on the way to a place have been made, and the place itself. -/
structure Grown (w w' : World) (goal : DiskPath) : Prop where
  sound : w'.disk.Sound
  home : w'.disk.home = w.disk.home
  built : w.disk.Built w'.disk goal
  isDir : w'.disk.look goal = some .dir
  token : w'.token = w.token
  locks : w'.locks = w.locks

/-- Places that are found like the names below a root, however their paths are written. -/
structure Spells (root : Location) (place : List String → Location) : Prop where
  text : ∀ names, (place names).text = (root.below names).text
  makeDir : ∀ {d : Disk} {top : DiskPath} {names : List String}, d.look top = some .dir →
    d.walk true maxLinks (d.start root) root.segments = .ok (.taken top .dir) →
    (∀ name ∈ names, IsName name) → names ≠ [] → d.Clear top names →
    d.makeDir (place names) = d.makeDir (root.below names)

theorem spells_below (root : Location) : Spells root root.below := ⟨fun _ => rfl, fun _ _ _ _ _ => rfl⟩

/-- The places on the way down to some names, inner ones first, and what is above them. -/
inductive Stairs (place : List String → Location) : List String → List Location → Prop
  | first (name : String) (above : List Location) : Stairs place [name] (place [name] :: above)
  | next {names : List String} {above : List Location} (last : String)
      (stairs : Stairs place names above) :
      Stairs place (names ++ [last]) (place (names ++ [last]) :: above)

theorem stairs_ancestors (root : Location) (inner : names ≠ []) :
    Stairs root.below names (root.below names).ancestors := by
  induction names using List.reverseRecOn with
  | nil => exact absurd rfl inner
  | append_singleton names last ih =>
    rw [Location.ancestors_below]
    by_cases filled : names = []
    · subst filled
      exact .first last _
    · exact .next last (ih filled)

theorem Grown.leads {w' : World} {goal : DiskPath} (grown : Grown w w' goal)
    (leads : w.disk.walk true maxLinks (w.disk.start root) root.segments = .ok (.taken top .dir)) :
    w'.disk.walk true maxLinks (w'.disk.start root) root.segments = .ok (.taken top .dir) := by
  have walkable : w.disk.Walkable w'.disk :=
    ⟨grown.home, fun _ => grown.built.stands, fun _ _ => grown.built.stands⟩
  have starts : w'.disk.start root = w.disk.start root := by simp [Disk.start, grown.home]
  exact starts ▸ walkable.walk leads

theorem Grown.opened {w' : World} (grown : Grown w w' (top ++ names)) : w'.disk.Open top names :=
  grown.sound.opened (by simp [grown.isDir])

theorem Grown.resolve {w' : World} (grown : Grown w w' (top ++ names))
    (isDir : w.disk.look top = some .dir)
    (leads : w.disk.walk true maxLinks (w.disk.start root) root.segments = .ok (.taken top .dir))
    (plain : ∀ name ∈ names, IsName name) (inner : names ≠ []) (callable : root.Callable names) :
    w'.disk.resolve false (root.below names) = .ok (.taken (top ++ names) .dir) := by
  rw [(Disk.resolve_below (grown.leads leads) (grown.built.stands isDir) plain inner
    grown.opened.clear _).mpr ⟨callable, grown.opened, rfl⟩, Disk.placeAt, grown.isDir]

section Growing

variable {place : List String → Location} (spells : Spells root place)
  (isDir : w.disk.look top = some .dir)
  (leads : w.disk.walk true maxLinks (w.disk.start root) root.segments = .ok (.taken top .dir))
include spells isDir leads

theorem Grown.makeDir {w' : World} {last : String} (grown : Grown w w' (top ++ names))
    (plain : ∀ name ∈ names ++ [last], IsName name) (callable : root.Callable (names ++ [last]))
    (free : w.disk.look (top ++ (names ++ [last])) = none) :
    ∃ w'', (outcome (changeOnce (·.makeDir (place (names ++ [last])))) :
        Action IoFault _).exec w' = (.ok (.ok ()), w'') ∧ Grown w w'' (top ++ (names ++ [last])) := by
  have leads := grown.leads leads
  obtain ⟨sound, home, built, above, token, locks⟩ := grown
  have opened : w'.disk.Open top (names ++ [last]) := (sound.opened (by simp [above])).concat above
  have longer : top ++ names <+: top ++ (names ++ [last]) :=
    (List.prefix_append_right_inj top).mpr (List.prefix_append _ _)
  have still : w'.disk.look (top ++ (names ++ [last])) = none := by
    rw [built.away, free]
    intro under
    have shorter := under.length_le
    simp only [List.length_append, List.length_singleton] at shorter
    omega
  have fits : (Step.makeDir (top ++ (names ++ [last]))).Fits w'.disk :=
    ⟨still, opened.holds plain (by simp)⟩
  refine ⟨w'.perform (.makeDir (top ++ (names ++ [last]))), ?_, fits.sound sound,
    (Disk.home_put _ _ _).trans home, (built.mono longer).trans (.of_makeDir fits), ?_, token, locks⟩
  · rw [exec_outcome, exec_changeOnce,
      spells.makeDir (built.stands isDir) leads plain (by simp) opened.clear,
      Disk.makeDir_below leads (built.stands isDir) plain (by simp) callable opened still]
  · simp [World.perform, Step.apply, Disk.look_put fits.2.ne_nil]

theorem makeDirsFrom_grows_last {last : String} (sound : w.disk.Sound)
    (there : w.disk.look (top ++ names) = some .dir) (plain : ∀ name ∈ names ++ [last], IsName name)
    (callable : root.Callable (names ++ [last]))
    (free : w.disk.look (top ++ (names ++ [last])) = none) (above : List Location) :
    ∃ w', (makeDirsFrom (place (names ++ [last]) :: above)).exec w = (.ok (), w') ∧
      Grown w w' (top ++ (names ++ [last])) := by
  have named := Location.text_below_ne_empty root (by simp) plain
  have here : Grown w w (top ++ names) := ⟨sound, rfl, .refl _ _, there, rfl, rfl⟩
  obtain ⟨w', made, grown⟩ := here.makeDir spells isDir leads plain callable free
  refine ⟨w', ?_, grown⟩
  rw [makeDirsFrom, spells.text, if_neg (by simpa using named)]
  exact (exec_bind_ok made).trans rfl

/-- A place below a directory gets the directories on its way if nothing else stands there,
however the way to it is written. -/
theorem makeDirsFrom_grows {list : List Location} (stairs : Stairs place names list)
    (sound : w.disk.Sound) (plain : ∀ name ∈ names, IsName name) (callable : root.Callable names)
    (free : w.disk.look (top ++ names) = none)
    (each : ∀ r, r <+: names → r ≠ [] →
      w.disk.look (top ++ r) = none ∨ w.disk.look (top ++ r) = some .dir) :
    ∃ w', (makeDirsFrom list).exec w = (.ok (), w') ∧ Grown w w' (top ++ names) := by
  induction stairs with
  | first name above =>
    have there : w.disk.look (top ++ []) = some .dir := by simpa using isDir
    exact makeDirsFrom_grows_last spells isDir leads sound there plain callable free above
  | @next names more last stairs ih =>
    have within : names <+: names ++ [last] := List.prefix_append _ _
    by_cases above : w.disk.look (top ++ names) = some .dir
    · exact makeDirsFrom_grows_last spells isDir leads sound above plain callable free more
    have filled : names ≠ [] := by
      rintro rfl
      exact above (by simpa using isDir)
    have plainAbove : ∀ name ∈ names, IsName name :=
      fun name member => plain name (List.mem_append_left _ member)
    have stands : ∀ r, r <+: names ++ [last] → ∀ node, w.disk.look (top ++ r) = some node →
        node = .dir := by
      intro r under node stands
      by_cases filled : r = []
      · simpa [filled, isDir, eq_comm] using stands
      · rcases each r under filled with free | isDir
        · cases free.symm.trans stands
        · exact Option.some.inj (stands.symm.trans isDir)
    have clear : w.disk.Clear top (names ++ [last]) :=
      fun r under _ target link => by cases stands r under _ link
    have tried : (outcome (changeOnce (·.makeDir (place (names ++ [last])))) :
        Action IoFault _).exec w = (.ok (.error (.errno .noEntry)), w) := by
      rw [exec_outcome, exec_changeOnce, spells.makeDir isDir leads plain (by simp) clear,
        Disk.makeDir_below_missing leads isDir plain (by simp) callable clear
          (fun ⟨r, under, _, c, m, file⟩ => by cases stands r under _ file)
          fun opened => above (opened names within (by simp))]
    obtain ⟨w', ran, grown⟩ := ih plainAbove (callable.init filled plainAbove)
      ((each names within filled).resolve_right above) fun r under => each r (under.trans within)
    obtain ⟨w'', made, grown⟩ := grown.makeDir spells isDir leads plain callable free
    have named := Location.text_below_ne_empty root (by simp) plain
    refine ⟨w'', ?_, grown⟩
    rw [makeDirsFrom, spells.text, if_neg (by simpa using named)]
    exact (exec_bind_ok tried).trans ((exec_bind_ok ran).trans ((exec_bind_ok made).trans rfl))

end Growing

theorem makeDirs_grows (sound : w.disk.Sound) (isDir : w.disk.look top = some .dir)
    (leads : w.disk.walk true maxLinks (w.disk.start root) root.segments = .ok (.taken top .dir))
    (plain : ∀ name ∈ names, IsName name) (inner : names ≠ []) (callable : root.Callable names)
    (each : ∀ r, r <+: names → r ≠ [] →
      w.disk.look (top ++ r) = none ∨ w.disk.look (top ++ r) = some .dir) :
    ∃ w', (makeDirs (root.below names)).exec w = (.ok (), w') ∧ Grown w w' (top ++ names) := by
  rcases each _ (List.prefix_refl _) inner with free | there
  · exact makeDirsFrom_grows (spells_below root) isDir leads (stairs_ancestors root inner) sound plain
      callable free each
  · have here : Grown w w (top ++ names) := ⟨sound, rfl, .refl _ _, there, rfl, rfl⟩
    have found := here.resolve isDir leads plain inner callable
    rw [← Disk.resolve_follow_below leads isDir plain inner here.opened.clear (by simp [there])] at found
    exact ⟨w, exec_makeDirs (Disk.leadsToDir_iff.mpr ⟨_, found⟩), here⟩

theorem makeDirs_succeeds (sound : w.disk.Sound) (rooted : w.disk.Rooted root top)
    (plain : ∀ name ∈ names, IsName name) (inner : names ≠ []) (callable : root.Callable names)
    (each : ∀ r, r <+: names → r ≠ [] →
      w.disk.look (top ++ r) = none ∨ w.disk.look (top ++ r) = some .dir) :
    (makeDirs (root.below names)).Succeeds w () := by
  obtain ⟨w', ran, grown⟩ := makeDirs_grows sound rooted.isDir (rooted.leads _ rfl fun _ _ => rfl)
    plain inner callable each
  exact ⟨w', ran, grown.locks⟩

theorem rename_ensures (start : w.disk.Straight root top source)
    (goal : w.disk.Straight root top target) (sound : w.disk.Sound) (other : source ≠ target) :
    (rename (root.below source) (root.below target)).Ensures
      (fun e => e = w.disk ∨
        (w.disk.Moves root top source target ∧ e = w.disk.move (top ++ source) (top ++ target)))
      (fun r e => ((∃ fault, r = .error fault) ∧ ¬ w.disk.Moves root top source target ∧
          e = w.disk) ∨
        (r = .ok () ∧ w.disk.Moves root top source target ∧
          e = w.disk.move (top ++ source) (top ++ target))) w := by
  have spec := start.rename goal sound other
  refine ensures_change (.inl rfl) ?_ ?_
  · intro fault refused
    refine .inl ⟨⟨fault, rfl⟩, ?_, rfl⟩
    rintro ⟨callS, callT, fits⟩
    rw [(spec _).mpr ⟨callS, callT, fits, rfl⟩] at refused
    cases refused
  · intro steps renamed
    obtain ⟨callS, callT, fits, rfl⟩ := (spec steps).mp renamed
    refine ⟨⟨fits, trivial⟩, ?_, .inr ⟨rfl, ⟨callS, callT, fits⟩, rfl⟩⟩
    intro n
    cases n with
    | zero => exact .inl rfl
    | succ n => exact .inr ⟨⟨callS, callT, fits⟩, by simp [Step.apply]⟩

theorem removeFile_ensures (straight : w.disk.Straight root top names) (sound : w.disk.Sound) :
    (removeFile (root.below names)).Ensures (w.disk.Pruned · (top ++ names))
      (fun _ e => w.disk.Pruned e (top ++ names)) w := by
  refine ensures_changeOnce (fun _ => .inl rfl) (fun _ _ _ => .inl rfl) ?_
  intro step removed
  obtain ⟨-, fits, rfl⟩ := (straight.removeFile sound step).mp removed
  have pruned : w.disk.Pruned ((Step.unlink (top ++ names)).apply w.disk) (top ++ names) := by
    intro q
    simp only [Step.apply, Disk.look_erase (by simp [straight.inner] : top ++ names ≠ [])]
    by_cases here : q = top ++ names
    · exact .inr ⟨here ▸ List.prefix_refl _, by simp [here]⟩
    · exact .inl (by simp [here])
  exact ⟨fits, pruned, pruned⟩

theorem removeFile_gone (straight : w.disk.Straight root top names) (sound : w.disk.Sound)
    (callable : root.Callable names) (leaf : w.disk.look (top ++ names) ≠ some .dir) :
    (removeFile (root.below names)).Ensures (fun _ => True)
      (fun _ e => e.look (top ++ names) = none) w := by
  refine ensures_changeOnce trivial ?_ ?_
  · intro fault refused
    by_contra stands
    obtain ⟨node, found⟩ := Option.ne_none_iff_exists'.mp stands
    have fits : (Step.unlink (top ++ names)).Fits w.disk :=
      ⟨node, found, fun isDir => leaf (isDir ▸ found)⟩
    rw [(straight.removeFile sound _).mpr ⟨callable, fits, rfl⟩] at refused
    cases refused
  · intro step removed
    obtain ⟨-, fits, rfl⟩ := (straight.removeFile sound step).mp removed
    refine ⟨fits, trivial, ?_⟩
    simp [Step.apply, Disk.look_erase (by simp [straight.inner] : top ++ names ≠ [])]

theorem removeFile_done (straight : w.disk.Straight root top names) (sound : w.disk.Sound) :
    (removeFile (root.below names)).Ensures (fun _ => True)
      (fun r e => r = .ok () → e.look (top ++ names) = none) w := by
  refine ensures_changeOnce trivial (fun _ _ => by simp) fun step removed => ?_
  obtain ⟨-, fits, rfl⟩ := (straight.removeFile sound step).mp removed
  refine ⟨fits, trivial, fun _ => ?_⟩
  simp [Step.apply, Disk.look_erase (by simp [straight.inner] : top ++ names ≠ [])]

theorem removeAll_gone (straight : w.disk.Straight root top names) (sound : w.disk.Sound)
    (callable : root.Callable names) (isDir : w.disk.look (top ++ names) = some .dir) :
    (removeAll (root.below names)).Ensures (fun _ => True)
      (fun r e => r = .ok () ∧ e.look (top ++ names) = none) w := by
  have answer := straight.removeAll_of_dir sound callable isDir
  have real : top ++ names ≠ [] := by simp [straight.inner]
  obtain ⟨fit, gone⟩ := Disk.removalSteps_spec real isDir
  refine ensures_change trivial (fun fault refused => ?_) ?_
  · rw [answer] at refused
    cases refused
  · intro steps removed
    rw [answer] at removed
    cases removed
    exact ⟨fit, fun _ => trivial, rfl, by rw [gone, if_pos (List.prefix_refl _)]⟩

theorem removeAll_ensures (straight : w.disk.Straight root top names) (sound : w.disk.Sound) :
    (removeAll (root.below names)).Ensures (w.disk.Pruned · (top ++ names))
      (fun r e => w.disk.Pruned e (top ++ names) ∧
        (r = .ok () → ∀ q, top ++ names <+: q → e.look q = none)) w := by
  have real : top ++ names ≠ [] := by simp [straight.inner]
  refine ensures_change (fun _ => .inl rfl) (fun _ _ => ⟨fun _ => .inl rfl, by simp⟩) ?_
  intro steps removed
  obtain ⟨-, ⟨isDir, rfl⟩ | ⟨⟨target, link⟩, rfl⟩⟩ := straight.removeAll removed
  · obtain ⟨fit, gone⟩ := Disk.removalSteps_spec real isDir
    have pruned := Disk.look_removalSteps_take (d := w.disk) real isDir
    refine ⟨fit, pruned, ?_, fun _ q under => by rw [gone, if_pos under]⟩
    intro q
    rw [gone]
    by_cases under : top ++ names <+: q
    · exact .inr ⟨under, by simp [under]⟩
    · exact .inl (by simp [under])
  · have gone : ∀ q, (w.disk.erase (top ++ names)).look q
        = if q = top ++ names then none else w.disk.look q := fun q => Disk.look_erase real
    have pruned : w.disk.Pruned (w.disk.erase (top ++ names)) (top ++ names) := by
      intro q
      rw [gone]
      by_cases here : q = top ++ names
      · exact .inr ⟨here ▸ List.prefix_refl _, by simp [here]⟩
      · exact .inl (by simp [here])
    refine ⟨⟨⟨_, link, by simp⟩, trivial⟩, ?_, pruned, ?_⟩
    · intro n
      cases n with
      | zero => exact fun _ => .inl rfl
      | succ n => simpa [Step.apply] using pruned
    · intro _ q under
      simp only [Step.applyAll_cons, Step.applyAll_nil, Step.apply, gone]
      by_cases here : q = top ++ names
      · simp [here]
      · obtain ⟨rest, rfl⟩ := under
        rw [if_neg here]
        by_contra below
        have isDir := sound.above (by simpa using here) below
        rw [link] at isDir
        cases isDir

theorem write_ensures (straight : w.disk.Straight root top names)
    (last : ∀ target, w.disk.look (top ++ names) ≠ some (.link target)) (content : ByteArray) :
    (write (root.below names) content).Ensures
      (fun e => (∀ q, q ≠ top ++ names → e.look q = w.disk.look q) ∧
        (e.look (top ++ names) = w.disk.look (top ++ names) ∨
          root.Callable names ∧ ∃ c m, e.look (top ++ names) = some (.file c m)))
      (fun r e => (∀ q, q ≠ top ++ names → e.look q = w.disk.look q) ∧
        (r = .ok () → root.Callable names ∧
          ∃ mode, e.look (top ++ names) = some (.file content mode) ∧
            w.disk.Grants (top ++ names) plainMode mode) ∧
        ∀ fault, r = .error fault → e.look (top ++ names) = w.disk.look (top ++ names)) w := by
  have real : top ++ names ≠ [] := by simp [straight.inner]
  refine ensures_change ⟨fun _ _ => rfl, .inl rfl⟩
    (fun _ _ => ⟨fun _ _ => rfl, by simp, fun _ _ => rfl⟩) ?_
  intro steps written
  obtain ⟨callable, fits, writable, rfl⟩ := straight.writeFile last written
  obtain ⟨old, mode, made, new⟩ := Disk.grants_create fits writable
  have opened : ∀ q, ((Step.create (top ++ names) plainMode).apply w.disk).look q
      = if q = top ++ names then some (.file old mode) else w.disk.look q := by
    intro q
    rw [made, Disk.look_put real]
  have filled : ∀ q, ((Step.write (top ++ names) content).apply
      ((Step.create (top ++ names) plainMode).apply w.disk)).look q
      = if q = top ++ names then some (.file content mode) else w.disk.look q := by
    intro q
    simp only [Step.apply.eq_3, opened, if_true, Disk.look_put real]
    by_cases here : q = top ++ names <;> simp [here]
  refine ⟨⟨fits, trivial, trivial⟩, ?_, ?_, fun _ => ⟨callable, mode, ?_, new⟩, by simp⟩
  · rintro (- | - | n)
    · exact ⟨fun _ _ => rfl, .inl rfl⟩
    · exact ⟨fun q other => by simp [opened, other], .inr ⟨callable, old, mode, by simp [opened]⟩⟩
    · exact ⟨fun q other => by simp [filled, other],
        .inr ⟨callable, content, mode, by simp [filled]⟩⟩
  · intro q other
    simp [filled, other]
  · simp [filled]

theorem write_same (straight : w.disk.Straight root top names) (sound : w.disk.Sound)
    (callable : root.Callable names) {content : ByteArray} {mode : Nat}
    (stands : w.disk.look (top ++ names) = some (.file content mode))
    (writable : mayWrite mode = true) :
    ((write (root.below names) content).exec w).1 = .ok () ∧
      ∀ q, ((write (root.below names) content).exec w).2.disk.look q = w.disk.look q := by
  have written : ((write (root.below names) content).exec w).1 = .ok () := by
    rw [write, exec_change, straight.writeFile_ok callable (sound.opened (by simp [stands]))]
    intro node found
    exact ⟨content, mode, Option.some.inj (found.symm.trans stands), writable⟩
  obtain ⟨same, ok, -⟩ := (write_ensures straight (by simp [stands]) content).ends
  obtain ⟨-, kept, file, grants⟩ := ok written
  refine ⟨written, fun q => ?_⟩
  by_cases here : q = top ++ names
  · rw [here, file, stands]
    cases grants with
    | made free => cases free.symm.trans stands
    | kept stood _ => rw [stands] at stood; cases stood; rfl
  · exact same q here

theorem exec_isLocked (l : Location) (w : World) :
    (isLocked l).exec w = (.ok (match w.disk.resolve true l with
      | .ok (.taken path _) => w.locks.contains path
      | _ => false), w) := by
  unfold isLocked
  rw [exec_get_bind]
  generalize w.disk.resolve true l = found
  rcases found with fault | ⟨path, node⟩ | path <;> rfl

theorem exec_hold (l : Location) (w : World) :
    (hold l).exec w = (.ok (), match w.disk.resolve true l with
      | .ok (.taken path _) => { w with locks := path :: w.locks }
      | _ => w) := rfl

theorem exec_release {ε : Type} (l : Location) (w : World) :
    (release l : Action ε Unit).exec w = (.ok (), match w.disk.resolve true l with
      | .ok (.taken path _) => { w with locks := w.locks.erase path }
      | _ => w) := rfl

theorem hold_ensures {l : Location} {always : Disk → Prop} (now : always w.disk) :
    (hold l).Ensures always (fun r e => r = .ok () ∧ e = w.disk) w := by
  refine .still ?_ ?_ now ⟨rfl, rfl⟩ <;> rw [exec_hold] <;> dsimp only <;> split <;> rfl

theorem release_ensures {ε : Type} {l : Location} {always : Disk → Prop} (now : always w.disk) :
    (release l : Action ε Unit).Ensures always (fun r e => r = .ok () ∧ e = w.disk) w := by
  refine .still ?_ ?_ now ⟨rfl, rfl⟩ <;> rw [exec_release] <;> dsimp only <;> split <;> rfl

section

variable {ε α : Type} {l place : Location} {w' : World} {fault : IoFault} (report : IoFault → ε)
  (body : Location → Action ε α)

theorem exec_withTemporary_error (made : (makeTemporary l).exec w = (.error fault, w')) :
    ((withTemporary l report body).exec w).2 = w' := by
  rw [withTemporary, exec_bind, exec_reporting, made]
  rfl

theorem exec_withTemporary (made : (makeTemporary l).exec w = (.ok place, w')) :
    ((withTemporary l report body).exec w).2
      = ((removeFile place).exec ((body place).exec w').2).2 := by
  rw [withTemporary, exec_bind, exec_reporting, made]
  dsimp only [Except.mapError]
  rw [exec_bind, exec_outcome]
  dsimp only
  rw [exec_bind, exec_ignoringFailure]
  dsimp only
  split <;> rfl

end

end Files

end PinnedTree
