import PinnedTree.Proofs.Sync.Past

namespace PinnedTree.Sync.Past

open PinnedTree.Action Transaction

variable {past : Past} {d e f : Disk} {w : World} {name slot room : String} {node : Node}
  {names : List String} {destination : Destination}

structure Clearing (past : Past) (d e : Disk) : Prop where
  rooms : ∀ room, e.look (Layout.place past.top room) = d.look (Layout.place past.top room)
  fewer : ∀ room name, e.look (past.top ++ [stateDirectory, room, name]) ≠ none →
    e.look (past.top ++ [stateDirectory, room, name])
      = d.look (past.top ++ [stateDirectory, room, name])

theorem Clearing.refl (past : Past) (d : Disk) : past.Clearing d d :=
  ⟨fun _ => rfl, fun _ _ _ => rfl⟩

theorem Clearing.trans (first : past.Clearing d e) (second : past.Clearing e f) :
    past.Clearing d f where
  rooms room := (second.rooms room).trans (first.rooms room)
  fewer room name stands := by
    have same := second.fewer room name stands
    exact same.trans (first.fewer room name (same ▸ stands))

theorem Clearing.kept (clearing : past.Clearing d e) (there : Layout.Room past.root past.top d name) :
    Layout.Room past.root past.top e name := ⟨there.1, (clearing.rooms name).trans there.2⟩

theorem Clearing.of_pruned
    (pruned : d.Pruned e (past.top ++ [stateDirectory, room, name])) : past.Clearing d e where
  rooms other := by
    rcases pruned (Layout.place past.top other) with same | ⟨under, -⟩
    · exact same
    · have longer := under.length_le
      simp [Layout.place] at longer
  fewer other inner stands := by
    rcases pruned (past.top ++ [stateDirectory, other, inner]) with same | ⟨-, gone⟩
    · exact same
    · exact absurd gone stands

theorem Mendable.removed (mendable : past.Mendable w.disk) {action : Action IoFault Unit}
    {done : Disk → Prop}
    (removes : action.Ensures (w.disk.Pruned · (past.top ++ [stateDirectory, room, name]))
      (fun r e => w.disk.Pruned e (past.top ++ [stateDirectory, room, name]) ∧
        (r = .ok () → done e)) w) :
    action.Ensures past.Mendable
      (fun r e => r = .ok () → past.Mendable e ∧ past.Clearing w.disk e ∧ done e) w := by
  have own : past.top ++ [stateDirectory] <+: past.top ++ [stateDirectory, room, name] := by
    simp [List.prefix_append_right_inj]
  refine ((removes.keeping mendable.sound).weaken fun e ⟨pruned, sound, home⟩ =>
    mendable.pruned pruned own sound home).mono ?_
  rintro r e ⟨⟨pruned, gone⟩, sound, home⟩ ok
  exact ⟨mendable.pruned pruned own sound home, .of_pruned pruned, gone ok⟩

theorem Mendable.removeAll (mendable : past.Mendable w.disk) (listed : room ∈ ["staging", "backup"])
    (named : IsName name) :
    (Files.removeAll (past.root.below [stateDirectory, room, name])).Ensures past.Mendable
      (fun r e => r = .ok () → past.Mendable e ∧ past.Clearing w.disk e ∧
        e.look (past.top ++ [stateDirectory, room, name]) = none) w := by
  have removed := Files.removeAll_ensures (mendable.straight_own listed named) mendable.sound
  exact mendable.removed (removed.mono fun r e ⟨pruned, gone⟩ =>
    ⟨pruned, fun ok => gone ok _ (List.prefix_refl _)⟩)

theorem Mendable.removeFile (mendable : past.Mendable w.disk)
    (listed : room ∈ ["staging", "backup"]) (named : IsName name) :
    (Files.removeFile (past.root.below [stateDirectory, room, name])).Ensures past.Mendable
      (fun r e => r = .ok () → past.Mendable e ∧ past.Clearing w.disk e ∧
        e.look (past.top ++ [stateDirectory, room, name]) = none) w := by
  have straight := mendable.straight_own listed named
  exact mendable.removed ((Files.removeFile_ensures straight mendable.sound).also
    (Files.removeFile_done straight mendable.sound))

theorem child_below (past : Past) (room name : String) :
    past.root.below [stateDirectory, room] / name
      = past.root.below [stateDirectory, room, name] := by
  simp [Location.child, Location.below]

def returned (past : Past) (slot : String) (destination : Destination) (d : Disk) : Disk :=
  d.move (past.aside slot) (past.top ++ destination.names)

theorem slot_apart (past : Past) (slot : String) (destination : Destination) :
    Disk.Apart (past.aside slot) (past.top ++ destination.names) :=
  (Layout.apart destination ["backup", slot]).symm

theorem look_returned (past : Past) (slot : String) (destination : Destination) (d : Disk)
    (r : List String) : (past.returned slot destination d).look (past.top ++ (destination.names ++ r))
      = d.look (past.aside slot ++ r) := by
  rw [← List.append_assoc]
  exact Disk.look_move_target d (past.slot_apart slot destination) r

theorem look_returned_slot (past : Past) (slot : String) (destination : Destination) (d : Disk) :
    (past.returned slot destination d).look (past.aside slot) = none := by
  have gone := Disk.look_move_source d (past.slot_apart slot destination) []
  rwa [List.append_nil] at gone

theorem look_returned_other {p : DiskPath} (notSlot : ¬ past.aside slot <+: p)
    (notThere : ¬ past.top ++ destination.names <+: p) :
    (past.returned slot destination d).look p = d.look p :=
  Disk.look_move_other d (past.slot_apart slot destination) notSlot notThere

theorem look_returned_own (rest : List String)
    (away : ¬ past.aside slot <+: past.top ++ stateDirectory :: rest) :
    (past.returned slot destination d).look (past.top ++ stateDirectory :: rest)
      = d.look (past.top ++ stateDirectory :: rest) :=
  look_returned_other away (Layout.apart destination rest).1

theorem look_returned_aside
    (stands : (past.returned slot destination d).look (past.aside name) = some node)
    (r : List String) :
    (past.returned slot destination d).look (past.aside name ++ r) = d.look (past.aside name ++ r) := by
  have other : slot ≠ name := by
    rintro rfl
    cases (past.look_returned_slot slot destination d).symm.trans stands
  have place : past.aside name ++ r = past.top ++ stateDirectory :: ("backup" :: name :: r) := by
    simp [aside]
  rw [place]
  refine look_returned_own _ ?_
  simp [aside, List.prefix_append_right_inj, List.cons_prefix_cons, other]

theorem aside_of_returned
    (stands : (past.returned slot destination d).look (past.aside name) = some node) :
    d.look (past.aside name) = some node := by
  have same := look_returned_aside stands []
  rw [List.append_nil] at same
  exact same.symm.trans stands

theorem not_slot {rest : List String} (few : rest.length ≤ 2) :
    ¬ past.aside slot <+: past.top ++ rest := by
  intro under
  have longer := under.length_le
  simp only [aside, List.length_append, List.length_cons, List.length_nil] at longer
  omega

theorem Clearing.returned (past : Past) (slot : String) (destination : Destination) (d : Disk) :
    past.Clearing d (past.returned slot destination d) where
  rooms room := look_returned_own [room] (not_slot (by simp))
  fewer room name stands := by
    refine look_returned_own [room, name] fun under => ?_
    rw [← under.eq_of_length_le (by simp [aside])] at stands
    exact stands (past.look_returned_slot slot destination d)

theorem holds_returned {inner : Destination} (held : d.Holds (past.top ++ inner.names))
    (sound : d.Sound) (free : d.look (past.top ++ destination.names) = none) :
    (past.returned slot destination d).Holds (past.top ++ inner.names) := by
  refine held.congr fun dir last place isDir => ?_
  rw [look_returned_other ?_ ?_, isDir]
  · intro under
    refine (past.slot_apart slot inner).1 ?_
    exact place ▸ under.trans (List.prefix_append dir [last])
  · intro under
    cases (sound.none_under free under).symm.trans isDir

theorem Mendable.returned (mendable : past.Mendable d) {journal : Node}
    (tells : past.Tells d slot destination journal)
    (fits : (Step.rename (past.aside slot) (past.top ++ destination.names)).Fits d)
    (free : d.look (past.top ++ destination.names) = none) :
    past.Mendable (past.returned slot destination d) where
  sound := fits.sound mendable.sound
  rooted := by
    have inner : ∀ names : List String, names ≠ [] → ∀ p, ¬ Disk.Inside past.top p →
        ¬ past.top ++ names <+: p := by
      rintro names filled p outside ⟨rest, rfl⟩
      exact outside (by simp [Disk.Inside, filled])
    refine mendable.rooted.congr rfl fun p outside => look_returned_other ?_ ?_
    · exact inner [stateDirectory, "backup", slot] (by simp) p outside
    · exact inner destination.names destination.nonempty p outside
  own names listed target := by
    obtain ⟨rest, rfl, few⟩ : ∃ rest, names = stateDirectory :: rest ∧ names.length ≤ 2 := by
      simp only [List.mem_cons, List.not_mem_nil, or_false] at listed
      rcases listed with rfl | rfl | rfl | rfl | rfl <;> simp
    rw [look_returned_own rest (not_slot few)]
    exact mendable.own _ listed target
  known names node outside stands := by
    by_cases under : destination.names <+: names
    · obtain ⟨r, rfl⟩ := under
      rw [past.look_returned] at stands
      exact tells.known r node stands
    · rw [look_returned_other (fun inside => outside ((past.aside_own slot).trans inside))
        (fun inside => under ((List.prefix_append_right_inj past.top).mp inside))] at stands
      exact mendable.known names node outside stands
  kept name node stands := mendable.kept name node (aside_of_returned stands)
  noted slot' journal' stands asides := by
    obtain ⟨node, there⟩ := Option.ne_none_iff_exists'.mp asides
    obtain ⟨inner, tells'⟩ := mendable.noted slot' journal' (aside_of_returned stands)
      (by simp [aside_of_returned there])
    exact ⟨inner, tells'.listed, tells'.text, tells'.callable,
      holds_returned tells'.held mendable.sound free,
      fun r node found => tells'.known r node ((look_returned_aside there r).symm.trans found)⟩

theorem Mendable.no_link_slot (mendable : past.Mendable d) (dotless : '.' ∉ slot.toList)
    (target : String) : d.look (past.aside slot) ≠ some (.link target) := by
  intro link
  generalize same : Node.link target = node at link
  cases mendable.kept slot node link with
  | journal => simp [journalName] at dotless
  | dir => cases same
  | spare spare =>
    obtain ⟨c, m, rfl⟩ := spare.file
    cases same

theorem Mendable.read (mendable : past.Mendable d) (named : IsName slot) {journal : Recovery.Journal}
    (found : Recovery.readJournal d (past.root.below [stateDirectory, "backup", journalName slot])
      = some journal) (stands : d.look (past.aside slot) ≠ none) :
    ∃ destination node, past.Tells d slot destination node ∧
      Location.ofText journal.destination = .written past.path destination.names := by
  have straight := mendable.straight_aside (Site.journalName_isName named)
  obtain ⟨node, stat⟩ := Recovery.stat_of_readJournal found
  have noted : d.look (past.aside (journalName slot)) ≠ none := by
    intro free
    have look := ((straight.stat_ok mendable.sound (fun target link => by
      cases free.symm.trans link) node).mp stat).2
    cases free.symm.trans look
  obtain ⟨journal', there⟩ := Option.ne_none_iff_exists'.mp noted
  obtain ⟨destination, tells⟩ := mendable.noted slot journal' there stands
  obtain ⟨id, rfl⟩ := tells.text
  have look := ((straight.stat_ok mendable.sound (fun target link => by
    cases there.symm.trans link) node).mp stat).2
  cases there.symm.trans look
  rw [Recovery.readJournal_noted stat, Option.some.injEq] at found
  exact ⟨destination, _, tells, by rw [← found]; rfl⟩

theorem Mendable.putBack (mendable : past.Mendable w.disk) (fair : past.Fair) (named : IsName slot)
    (dotless : '.' ∉ slot.toList) {journal : Recovery.Journal}
    (found : Recovery.readJournal w.disk
      (past.root.below [stateDirectory, "backup", journalName slot]) = some journal) :
    (Recovery.putBack (past.root.below [stateDirectory, "backup", slot]) journal).Ensures
      past.Mendable (fun r e => ∀ restored, r = .ok restored →
        past.Mendable e ∧ past.Clearing w.disk e) w := by
  refine ensures_observe_bind (ensures_observe_bind ?_)
  split
  case isFalse => exact ensures_pure mendable fun _ _ => ⟨mendable, .refl past _⟩
  case isTrue holds =>
    obtain ⟨leads, occupied⟩ := Bool.and_eq_true_iff.mp holds
    have straight := mendable.straight_aside named
    obtain ⟨-, stands⟩ :=
      (straight.leadsSomewhere mendable.sound (mendable.no_link_slot dotless)).mp leads
    obtain ⟨destination, _, tells, place⟩ := mendable.read named found stands
    have goal : w.disk.Straight (.ofText past.path) past.top destination.names :=
      mendable.straight fair tells.listed
    have free : w.disk.look (past.top ++ destination.names) = none := by
      by_contra taken
      have holds := (goal.holdsSomething mendable.sound).mpr ⟨tells.callable, taken⟩
      rw [place, goal.holdsSomething_written, holds] at occupied
      cases occupied
    rw [place]
    have opened := goal.open_of_holds mendable.sound tells.held
    refine ((Files.makeParents_written goal opened tells.callable).weaken fun e same =>
      same ▸ mendable).bind ?_ (by simp)
    rintro ⟨⟩ w₁ ⟨-, same⟩
    rw [← same] at mendable straight goal tells free
    have other : [stateDirectory, "backup", slot] ≠ destination.names := fun same =>
      (past.slot_apart slot destination).ne (by rw [aside, same])
    have target : w₁.disk.rename (past.root.below [stateDirectory, "backup", slot])
        (.written past.path destination.names)
        = w₁.disk.rename (past.root.below [stateDirectory, "backup", slot])
          (past.root.below destination.names) := goal.rename_written _
    have moved : (Files.rename (past.root.below [stateDirectory, "backup", slot])
        (.written past.path destination.names)).Ensures past.Mendable
        (fun r e => r = .ok () → past.Mendable e ∧ past.Clearing w₁.disk e) w₁ := by
      refine ensures_change_congr target
        (((Files.rename_ensures straight goal mendable.sound other).weaken ?_).mono ?_)
      · rintro e (rfl | ⟨⟨-, -, fits⟩, rfl⟩)
        · exact mendable
        · exact mendable.returned tells fits free
      · rintro r e (⟨⟨fault, rfl⟩, -⟩ | ⟨-, ⟨-, -, fits⟩, rfl⟩) ok
        · cases ok
        · exact ⟨mendable.returned tells fits free, .returned past slot destination _⟩
    refine moved.bind ?_ (by simp)
    rintro ⟨⟩ w₂ ends
    obtain ⟨mendable₂, clearing⟩ := ends rfl
    exact ensures_pure mendable₂ fun _ _ => ⟨mendable₂, same ▸ clearing⟩

def Sorted (name : String) : Prop :=
  IsName name ∧ ('.' ∉ name.toList ∨
    ∃ slot, IsName slot ∧ '.' ∉ slot.toList ∧ name = journalName slot)

theorem Mendable.sorted (mendable : past.Mendable d) (stands : d.look (past.aside name) ≠ none) :
    Sorted name := by
  obtain ⟨node, found⟩ := Option.ne_none_iff_exists'.mp stands
  have place : past.aside name = past.top ++ [stateDirectory, "backup"] ++ [name] := by simp [aside]
  refine ⟨mendable.sound.isName stands name (by simp [place]), ?_⟩
  cases mendable.kept name node found with
  | journal named dotless => exact .inr ⟨_, named, dotless, rfl⟩
  | dir dotless => exact .inl dotless
  | spare spare => exact .inl spare.dotless

theorem Mendable.followJournals (mendable : past.Mendable w.disk) (fair : past.Fair)
    (sorted : ∀ name ∈ names, Sorted name)
    (listed : ∀ name, w.disk.look (past.aside name) ≠ none → '.' ∈ name.toList → name ∈ names) :
    (Recovery.followJournals (past.root.below [stateDirectory, "backup"]) names).Ensures
      past.Mendable (fun r e => ∀ n, r = .ok n → past.Mendable e ∧ past.Clearing w.disk e ∧
        ∀ name, e.look (past.aside name) ≠ none → '.' ∉ name.toList) w := by
  induction names generalizing w with
  | nil =>
    exact ensures_pure mendable fun _ _ => ⟨mendable, .refl past _, fun name stands dotted => by
      simpa using listed name stands dotted⟩
  | cons name rest ih =>
    obtain ⟨⟨named, here⟩, others⟩ := List.forall_mem_cons.mp sorted
    rcases here with dotless | ⟨slot, slotNamed, dotless, rfl⟩
    · rw [Recovery.followJournals, Path.stemAndExtension_dotless dotless]
      refine ih mendable others fun other stands dotted =>
        (List.mem_cons.mp (listed other stands dotted)).resolve_left ?_
      rintro rfl
      exact dotless dotted
    · simp only [Recovery.followJournals, Path.stemAndExtension_journalName slotNamed.1,
        past.child_below]
      -- whatever became of the slot, its journal goes
      have onward : ∀ (restored : Bool) (w₁ : World), past.Mendable w₁.disk →
          past.Clearing w.disk w₁.disk →
          (do Files.removeFile (past.root.below [stateDirectory, "backup", journalName slot])
              let count ← Recovery.followJournals (past.root.below [stateDirectory, "backup"]) rest
              pure (count + if restored = true then 1 else 0) : Action IoFault Nat).Ensures
            past.Mendable (fun r e => ∀ n, r = .ok n → past.Mendable e ∧ past.Clearing w.disk e ∧
              ∀ name, e.look (past.aside name) ≠ none → '.' ∉ name.toList) w₁ := by
        intro restored w₁ mendable₁ clearing₁
        refine (mendable₁.removeFile (by simp) named).bind ?_ (by simp)
        rintro ⟨⟩ w₂ ends
        obtain ⟨mendable₂, clearing, gone⟩ := ends rfl
        have clearing₂ := clearing₁.trans clearing
        refine (ih mendable₂ others fun other stands dotted => ?_).bind ?_ (by simp)
        · refine (List.mem_cons.mp (listed other ?_ dotted)).resolve_left ?_
          · rwa [aside, ← clearing₂.fewer _ _ stands]
          · rintro rfl
            exact stands gone
        · intro count w₃ ends₃
          obtain ⟨mendable₃, clearing₃, none⟩ := ends₃ count rfl
          exact ensures_pure mendable₃ fun _ _ => ⟨mendable₃, clearing₂.trans clearing₃, none⟩
      refine ensures_observe_bind ?_
      cases found : Recovery.readJournal w.disk
          (past.root.below [stateDirectory, "backup", journalName slot]) with
      | none =>
        simp only [pure_bind]
        exact onward false w mendable (.refl past _)
      | some journal =>
        dsimp only
        refine (mendable.putBack fair slotNamed dotless found).bind ?_ (by simp)
        intro restored w₁ ends
        obtain ⟨mendable₁, clearing₁⟩ := ends restored rfl
        exact onward restored w₁ mendable₁ clearing₁

theorem Mendable.removeDirs (mendable : past.Mendable w.disk)
    (dotless : ∀ name, w.disk.look (past.aside name) ≠ none → '.' ∉ name.toList)
    (sorted : ∀ name ∈ names, IsName name)
    (listed : ∀ name, w.disk.look (past.aside name) = some .dir → name ∈ names) :
    (Recovery.removeDirs (past.root.below [stateDirectory, "backup"]) names).Ensures past.Mendable
      (fun r e => r = .ok () → past.Mendable e ∧ past.Clearing w.disk e ∧
        ∀ name, e.look (past.aside name) ≠ some .dir) w := by
  induction names generalizing w with
  | nil =>
    exact ensures_pure mendable fun _ => ⟨mendable, .refl past _, fun name isDir => by
      simpa using listed name isDir⟩
  | cons name rest ih =>
    obtain ⟨named, others⟩ := List.forall_mem_cons.mp sorted
    rw [Recovery.removeDirs]
    refine ensures_observe_bind ?_
    rw [past.child_below]
    split
    · refine (mendable.removeAll (by simp) named).bind ?_ (by simp)
      rintro ⟨⟩ w₁ ends
      obtain ⟨mendable₁, clearing₁, gone⟩ := ends rfl
      have before : ∀ other, w₁.disk.look (past.aside other) ≠ none →
          w₁.disk.look (past.aside other) = w.disk.look (past.aside other) := fun other =>
        clearing₁.fewer "backup" other
      refine (ih mendable₁ ?_ others ?_).mono fun r e ends ok => ?_
      · exact fun other stands => dotless other (before other stands ▸ stands)
      · intro other isDir
        refine (List.mem_cons.mp (listed other ?_)).resolve_left ?_
        · exact (before other (by simp [isDir])).symm.trans isDir
        · rintro rfl
          cases gone.symm.trans isDir
      · obtain ⟨mendable₂, clearing₂, bare⟩ := ends ok
        exact ⟨mendable₂, clearing₁.trans clearing₂, bare⟩
    · rename_i leaf
      refine ih mendable dotless others fun other isDir =>
        (List.mem_cons.mp (listed other isDir)).resolve_left ?_
      rintro rfl
      have plain := dotless other (by simp [isDir])
      -- a directory that stands aside can be named, so it would have been found
      have straight := mendable.straight_aside named
      refine leaf ((straight.leadsToDir mendable.sound (mendable.no_link_slot plain)).mpr ⟨?_, isDir⟩)
      generalize same : Node.dir = node at isDir
      cases mendable.kept other node isDir with
      | journal => simp [journalName] at plain
      | dir _ callable => exact callable
      | spare spare =>
        obtain ⟨c, m, rfl⟩ := spare.file
        cases same

theorem Mendable.removeEverything (mendable : past.Mendable w.disk)
    (sorted : ∀ name ∈ names, IsName name)
    (listed : ∀ name, w.disk.look (past.top ++ [stateDirectory, "staging", name]) ≠ none →
      name ∈ names) :
    (Recovery.removeEverything (past.root.below [stateDirectory, "staging"]) names).Ensures
      past.Mendable (fun r e => r = .ok () → past.Mendable e ∧ past.Clearing w.disk e ∧
        ∀ name, e.look (past.top ++ [stateDirectory, "staging", name]) = none) w := by
  induction names generalizing w with
  | nil =>
    refine ensures_pure mendable fun _ => ⟨mendable, .refl past _, fun name => ?_⟩
    by_contra stands
    simpa using listed name stands
  | cons name rest ih =>
    obtain ⟨named, others⟩ := List.forall_mem_cons.mp sorted
    have onward : ∀ w₁ : World, past.Mendable w₁.disk → past.Clearing w.disk w₁.disk →
        w₁.disk.look (past.top ++ [stateDirectory, "staging", name]) = none →
        (Recovery.removeEverything (past.root.below [stateDirectory, "staging"]) rest).Ensures
          past.Mendable (fun r e => r = .ok () → past.Mendable e ∧ past.Clearing w.disk e ∧
            ∀ name, e.look (past.top ++ [stateDirectory, "staging", name]) = none) w₁ := by
      intro w₁ mendable₁ clearing₁ gone
      refine (ih mendable₁ others fun other stands => ?_).mono fun r e ends ok => ?_
      · refine (List.mem_cons.mp (listed other ?_)).resolve_left ?_
        · rwa [← clearing₁.fewer _ _ stands]
        · rintro rfl
          exact stands gone
      · obtain ⟨mendable₂, clearing₂, bare⟩ := ends ok
        exact ⟨mendable₂, clearing₁.trans clearing₂, bare⟩
    rw [Recovery.removeEverything]
    refine ensures_observe_bind ?_
    rw [past.child_below]
    split
    · refine (mendable.removeAll (by simp) named).bind ?_ (by simp)
      rintro ⟨⟩ w₁ ends
      obtain ⟨mendable₁, clearing₁, gone⟩ := ends rfl
      exact onward w₁ mendable₁ clearing₁ gone
    · refine (mendable.removeFile (by simp) named).bind ?_ (by simp)
      rintro ⟨⟩ w₁ ends
      obtain ⟨mendable₁, clearing₁, gone⟩ := ends rfl
      exact onward w₁ mendable₁ clearing₁ gone

theorem Mendable.list (mendable : past.Mendable d) (listed : room ∈ ["staging", "backup"])
    (there : Layout.Room past.root past.top d room) :
    d.list (past.root.below [stateDirectory, room])
        = .ok (d.namesIn (past.top ++ [stateDirectory, room])) ∧
      d.leadsToDir (past.root.below [stateDirectory, room]) = true := by
  have named : IsName room := by
    simp only [List.mem_cons, List.not_mem_nil, or_false] at listed
    rcases listed with rfl | rfl <;> decide
  have straight := mendable.sited.straight named
  have plain : ∀ target, d.look (past.top ++ [stateDirectory, room]) ≠ some (.link target) :=
    fun target link => by cases there.2.symm.trans link
  exact ⟨straight.list plain there.1 there.2 mendable.sound,
    (straight.leadsToDir mendable.sound plain).mpr there⟩

theorem mem_room {past : Past} : name ∈ d.namesIn (past.top ++ [stateDirectory, room]) ↔
    d.look (past.top ++ [stateDirectory, room, name]) ≠ none := by
  rw [Disk.mem_namesIn]
  simp

structure Cleared (past : Past) (d : Disk) : Prop where
  staging : ∀ q, Disk.Inside (past.top ++ [stateDirectory, "staging"]) q → d.look q = none
  spare : ∀ name node, d.look (past.aside name) = some node → past.Spare name node

theorem Mendable.query_room (mendable : past.Mendable w.disk) (listed : room ∈ ["staging", "backup"])
    (there : Layout.Room past.root past.top w.disk room) :
    (query (·.list (past.root.below [stateDirectory, room])) :
      Action IoFault (List String)).Ensures past.Mendable
      (fun r e => r = .ok (w.disk.namesIn (past.top ++ [stateDirectory, room])) ∧ e = w.disk) w :=
  ensures_query mendable ⟨(mendable.list listed there).1, rfl⟩

theorem Mendable.recoverStaging (mendable : past.Mendable w.disk)
    (staging : Layout.Room past.root past.top w.disk "staging")
    (spare : ∀ name node, w.disk.look (past.aside name) = some node → past.Spare name node)
    (restored : Nat) :
    (do if ← observe (·.leadsToDir (past.root.below [stateDirectory, "staging"])) then
          Recovery.removeEverything (past.root.below [stateDirectory, "staging"])
            (← query (·.list (past.root.below [stateDirectory, "staging"])))
        return restored : Action IoFault Nat).Ensures past.Mendable
      (fun r e => ∀ n, r = .ok n → past.Mendable e ∧ past.Cleared e) w := by
  refine ensures_observe_bind ?_
  rw [if_pos (mendable.list (by simp) staging).2]
  refine (mendable.query_room (by simp) staging).bind ?_ (by simp)
  rintro _ w₁ ⟨⟨⟩, same₁⟩
  refine ((same₁ ▸ mendable : past.Mendable w₁.disk).removeEverything ?_ ?_).bind ?_ (by simp)
  · intro name member
    exact mendable.sound.isName (mem_room.mp member) name (by simp)
  · exact fun name stands => mem_room.mpr (same₁ ▸ stands)
  rintro ⟨⟩ w₂ ends
  obtain ⟨mendable₂, clearing, bare⟩ := ends rfl
  rw [same₁] at clearing
  refine ensures_pure mendable₂ fun _ _ => ⟨mendable₂, ?_, fun name node stands => ?_⟩
  · rintro q ⟨⟨rest, rfl⟩, other⟩
    obtain ⟨name, more, rfl⟩ := List.exists_cons_of_ne_nil (by simpa using other : rest ≠ [])
    exact mendable₂.sound.none_under (bare name) (by simp [List.prefix_append_right_inj])
  · have kept := clearing.fewer "backup" name (by rw [← aside, stands]; simp)
    exact spare name node (kept.symm.trans stands)

theorem Mendable.recover (mendable : past.Mendable w.disk) (fair : past.Fair)
    (staging : Layout.Room past.root past.top w.disk "staging")
    (backup : Layout.Room past.root past.top w.disk "backup") :
    (Recovery.recover past.root).Ensures past.Mendable
      (fun r e => ∀ n, r = .ok n → past.Mendable e ∧ past.Cleared e) w := by
  unfold Recovery.recover
  simp only [Site.backup_room, Site.staging_room, pure_bind]
  refine ensures_observe_bind ?_
  rw [if_pos (mendable.list (by simp) backup).2]
  refine (mendable.query_room (by simp) backup).bind ?_ (by simp)
  rintro _ w₁ ⟨⟨⟩, same₁⟩
  refine ((same₁ ▸ mendable : past.Mendable w₁.disk).followJournals fair
    (fun name member => mendable.sorted (mem_room.mp member))
    fun name stands _ => mem_room.mpr (same₁ ▸ stands)).bind ?_ (by simp)
  intro restored w₂ ends₂
  obtain ⟨mendable₂, clearing₂, dotless⟩ := ends₂ restored rfl
  rw [same₁] at clearing₂
  refine (mendable₂.query_room (by simp) (clearing₂.kept backup)).bind ?_ (by simp)
  rintro _ w₃ ⟨⟨⟩, same₃⟩
  refine ((same₃ ▸ mendable₂ : past.Mendable w₃.disk).removeDirs (same₃ ▸ dotless)
    (fun name member => (mendable₂.sorted (mem_room.mp member)).1)
    fun name isDir => mem_room.mpr (by rw [← aside, ← same₃, isDir]; simp)).bind ?_ (by simp)
  rintro ⟨⟩ w₄ ends₄
  obtain ⟨mendable₄, clearing₄, bare⟩ := ends₄ rfl
  rw [same₃] at clearing₄
  have rested : past.Rested w₄.disk := mendable₄.rested fun name stands =>
    ⟨dotless name (clearing₄.fewer "backup" name stands ▸ stands), bare name⟩
  exact mendable₄.recoverStaging ((clearing₂.trans clearing₄).kept staging) rested.spare restored

end PinnedTree.Sync.Past
