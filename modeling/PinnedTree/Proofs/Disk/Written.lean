import PinnedTree.Proofs.Files
import PinnedTree.Proofs.Path.Written

namespace PinnedTree

namespace Disk

variable {d : Disk} {here p : DiskPath} {pieces fewer : List String}

theorem advance_undotted (undotted : Undotted pieces fewer)
    (leads : d.advance true here pieces = .ok (.ended (.taken p .dir))) :
    d.advance true here fewer = .ok (.ended (.taken p .dir)) := by
  induction undotted generalizing here with
  | nil => exact leads
  | drop _ ih => exact ih (by simpa [advance] using leads)
  | keep name rest ih =>
    by_cases notHere : name = "."
    · subst notHere
      simpa [advance] using ih (by simpa [advance] using leads)
    by_cases notUp : name = ".."
    · subst notUp
      simpa [advance] using ih (by simpa [advance] using leads)
    rw [advance_step true notHere notUp] at leads ⊢
    split at leads
    · cases leads
    · rename_i short
      rw [if_neg short]
      cases look : d.look (here ++ [name]) with
      | none =>
        simp only [look] at leads
        split at leads <;> simp at leads
      | some node =>
        simp only [look] at leads
        cases node with
        | dir => exact ih leads
        | file content mode =>
          simp only at leads
          split at leads <;> simp at leads
        | link target => simp at leads

theorem advance_undotted_turned (undotted : Undotted pieces fewer) {turn : DiskPath}
    {target : String} {rest : List String}
    (turns : d.advance true here pieces = .ok (.turned turn target rest)) :
    ∃ left, Undotted rest left ∧ d.advance true here fewer = .ok (.turned turn target left) := by
  induction undotted generalizing here with
  | nil => simp [advance] at turns
  | drop _ ih => exact ih (by simpa [advance] using turns)
  | @keep name pieces fewer after ih =>
    by_cases notHere : name = "."
    · subst notHere
      simpa [advance] using ih (by simpa [advance] using turns)
    by_cases notUp : name = ".."
    · subst notUp
      simpa [advance] using ih (by simpa [advance] using turns)
    rw [advance_step true notHere notUp] at turns ⊢
    split at turns
    · cases turns
    · rename_i short
      rw [if_neg short]
      cases look : d.look (here ++ [name]) with
      | none =>
        simp only [look] at turns
        split at turns <;> simp at turns
      | some node =>
        simp only [look] at turns
        cases node with
        | dir => exact ih turns
        | file content mode =>
          simp only at turns
          split at turns <;> simp at turns
        | link found =>
          simp only [Bool.not_true, Bool.and_false, Bool.false_eq_true, if_false, Except.ok.injEq,
            Stretch.turned.injEq] at turns
          obtain ⟨rfl, rfl, rfl⟩ := turns
          exact ⟨fewer, after, by simp⟩

theorem walk_undotted {links : Nat} (undotted : Undotted pieces fewer)
    (leads : d.walk true links here pieces = .ok (.taken p .dir)) :
    d.walk true links here fewer = .ok (.taken p .dir) := by
  induction links generalizing here pieces fewer with
  | zero =>
    rcases walk_ok.mp leads with ends | ⟨left, _, _, _, impossible, -⟩
    · exact walk_ok.mpr (.inl (advance_undotted undotted ends))
    · cases impossible
  | succ links ih =>
    rcases walk_ok.mp leads with ends | ⟨_, directory, target, rest, ⟨rfl⟩, turns, goes⟩
    · exact walk_ok.mpr (.inl (advance_undotted undotted ends))
    obtain ⟨left, after, turns⟩ := advance_undotted_turned undotted turns
    exact walk_ok.mpr (.inr ⟨_, _, _, _, rfl, turns, ih ((Undotted.refl _).append after) goes⟩)

theorem advance_of_append {follow : Bool} {place : Place} {path more : List String} (onward : more ≠ [])
    (leads : d.advance follow here (path ++ more) = .ok (.ended place)) :
    ∃ q, d.advance true here path = .ok (.ended (.taken q .dir)) := by
  induction path generalizing here with
  | nil => exact ⟨here, rfl⟩
  | cons name rest ih =>
    by_cases notHere : name = "."
    · subst notHere
      simpa [advance] using ih (by simpa [advance] using leads)
    by_cases notUp : name = ".."
    · subst notUp
      simpa [advance] using ih (by simpa [advance] using leads)
    rw [List.cons_append, advance_step follow notHere notUp] at leads
    rw [advance_step true notHere notUp]
    split at leads
    · cases leads
    · rename_i short
      rw [if_neg short]
      cases look : d.look (here ++ [name]) with
      | none => simp [look, onward] at leads
      | some node =>
        simp only [look] at leads
        cases node with
        | dir => exact ih leads
        | file content mode => simp [onward] at leads
        | link target => simp [onward] at leads

theorem advance_turned_of_append {follow : Bool} {path more rest : List String} {turn : DiskPath}
    {target : String} (onward : more ≠ [])
    (turns : d.advance follow here (path ++ more) = .ok (.turned turn target rest)) :
    (∃ q, d.advance true here path = .ok (.ended (.taken q .dir))) ∨
      ∃ left, rest = left ++ more ∧ d.advance true here path = .ok (.turned turn target left) := by
  induction path generalizing here with
  | nil => exact .inl ⟨here, rfl⟩
  | cons name path ih =>
    by_cases notHere : name = "."
    · subst notHere
      simpa [advance] using ih (by simpa [advance] using turns)
    by_cases notUp : name = ".."
    · subst notUp
      simpa [advance] using ih (by simpa [advance] using turns)
    rw [List.cons_append, advance_step follow notHere notUp] at turns
    rw [advance_step true notHere notUp]
    split at turns
    · cases turns
    · rename_i short
      rw [if_neg short]
      cases look : d.look (here ++ [name]) with
      | none =>
        simp only [look] at turns
        split at turns <;> simp at turns
      | some node =>
        simp only [look] at turns
        cases node with
        | dir => exact ih turns
        | file content mode =>
          simp only at turns
          split at turns <;> simp at turns
        | link found =>
          have further : ((path ++ more).isEmpty && !follow) = false := by simp [onward]
          simp only [further, Bool.false_eq_true, if_false, Except.ok.injEq,
            Stretch.turned.injEq] at turns
          obtain ⟨rfl, rfl, rfl⟩ := turns
          exact .inr ⟨path, rfl, by simp⟩

theorem walk_of_append {follow : Bool} {place : Place} {links : Nat} {path more : List String}
    (onward : more ≠ []) (leads : d.walk follow links here (path ++ more) = .ok place) :
    ∃ q, d.walk true links here path = .ok (.taken q .dir) := by
  induction links generalizing here path with
  | zero =>
    rcases walk_ok.mp leads with ends | ⟨left, _, _, _, impossible, -⟩
    · obtain ⟨q, ends⟩ := advance_of_append onward ends
      exact ⟨q, walk_ok.mpr (.inl ends)⟩
    · cases impossible
  | succ links ih =>
    rcases walk_ok.mp leads with ends | ⟨_, directory, target, rest, ⟨rfl⟩, turns, goes⟩
    · obtain ⟨q, ends⟩ := advance_of_append onward ends
      exact ⟨q, walk_ok.mpr (.inl ends)⟩
    rcases advance_turned_of_append onward turns with ⟨q, ends⟩ | ⟨left, rfl, stays⟩
    · exact ⟨q, walk_ok.mpr (.inl ends)⟩
    · rw [← List.append_assoc] at goes
      obtain ⟨q, goes⟩ := ih goes
      exact ⟨q, walk_ok.mpr (.inr ⟨_, _, _, _, rfl, stays, goes⟩)⟩

theorem walk_links {top : DiskPath} {names : List String} (plain : ∀ name ∈ names, IsName name)
    (inner : names ≠ []) (isDir : d.look top = some .dir) (clear : d.Clear top names)
    (links more : Nat) : d.walk false links top names = d.walk false more top names := by
  rw [walk, walk]
  cases stretch : d.advance false top names with
  | error cause => rfl
  | ok found =>
    obtain ⟨-, -, rfl⟩ := (advance_clear plain inner isDir clear found).mp stretch
    rfl

variable {path : String} {top : DiskPath} {names : List String}

theorem leads_pieces (leads : d.walk true maxLinks (d.start (.ofText path))
      (Location.ofText path).segments = .ok (.taken top .dir)) :
    d.walk true maxLinks (d.start (.ofText path)) (Location.pieces path) = .ok (.taken top .dir) :=
  walk_undotted (Location.undotted_segments path) leads

theorem start_written (plain : ∀ name ∈ names, IsName name) :
    d.start (.written path names) = d.start (.ofText path) := by
  rw [start, Location.written_anchored plain]
  rfl

theorem resolve_written (isDir : d.look top = some .dir)
    (leads : d.walk true maxLinks (d.start (.ofText path)) (Location.ofText path).segments
      = .ok (.taken top .dir)) (plain : ∀ name ∈ names, IsName name) (inner : names ≠ [])
    (clear : d.Clear top names) :
    d.resolve false (.written path names) = d.resolve false ((Location.ofText path).below names) := by
  obtain ⟨left, goes⟩ := walk_append inner leads false
  obtain ⟨more, stays⟩ := walk_append inner (leads_pieces leads) false
  have same := walk_links plain inner isDir clear more left
  have written := Location.below_nil (.written path names)
  rw [resolve_eq, goes, ← same, ← stays, ← written, resolve_eq, written,
    Location.written_segments inner plain, List.append_nil, start_written plain]
  rfl

theorem Straight.resolve_written (s : d.Straight (.ofText path) top names) :
    d.resolve false (.written path names) = d.resolve false ((Location.ofText path).below names) :=
  Disk.resolve_written s.rooted.isDir (s.rooted.leads d rfl fun _ _ => rfl) s.plain s.inner s.clear

theorem Straight.holdsSomething_written (s : d.Straight (.ofText path) top names) :
    d.holdsSomething (.written path names)
      = d.holdsSomething ((Location.ofText path).below names) := by
  rw [Disk.holdsSomething, Disk.holdsSomething, linkStat, linkStat, s.resolve_written]

theorem Straight.rename_written (s : d.Straight (.ofText path) top names) (source : Location) :
    d.rename source (.written path names)
      = d.rename source ((Location.ofText path).below names) := by
  have bare := @Location.written_bare path names s.inner s.plain
  have ends : (Location.written path names).endsInName = true := by
    obtain ⟨init, last, rfl⟩ : ∃ init last, names = init ++ [last] :=
      ⟨_, _, (List.dropLast_concat_getLast s.inner).symm⟩
    obtain ⟨-, notHere, notUp, -⟩ := s.plain last (by simp)
    rw [Location.endsInName, bare, Location.written_segments s.inner s.plain]
    simp [← List.append_assoc, notHere, notUp]
  have asks : (Location.written path names).asksForDir = false := by
    rw [Location.asksForDir, Location.written, Location.ofText,
      Location.written_not_slashed s.inner s.plain]
    rfl
  simp only [Disk.rename, bare, ends, asks, s.resolve_written, Location.bare_below s.inner,
    Location.endsInName_below s.inner s.plain, Location.asksForDir_below s.inner]

theorem Straight.leads_init {init : List String} {last : String}
    (s : d.Straight (.ofText path) top (init ++ [last])) (opened : d.Open top (init ++ [last]))
    (sizes : ∀ name ∈ init, name.utf8ByteSize ≤ maxNameBytes) :
    d.walk true maxLinks (d.start (.ofText path)) (Location.pieces path ++ init)
      = .ok (.taken (top ++ init) .dir) := by
  by_cases inner : init = []
  · rw [inner, List.append_nil, List.append_nil]
    exact leads_pieces (s.rooted.leads d rfl fun _ _ => rfl)
  have plain : ∀ name ∈ init, IsName name := fun name member =>
    s.plain name (List.mem_append_left _ member)
  have dirs : ∀ r, r <+: init → d.look (top ++ r) = some .dir := by
    intro r under
    refine opened r (under.trans (List.prefix_append _ _)) ?_
    rintro rfl
    have longer := under.length_le
    rw [List.length_append, List.length_singleton] at longer
    exact Nat.not_succ_le_self _ longer
  obtain ⟨left, goes⟩ :=
    walk_append inner (leads_pieces (s.rooted.leads d rfl fun _ _ => rfl)) true
  rw [goes, walk, advance_dirs true plain sizes dirs]
  rfl

theorem start_above {above : String} {l : Location} (named : above ≠ "")
    (leads : above.toList <+: l.text.toList) (same : l.anchored = Text.startsWith l.text "/") :
    d.start (.ofText above) = d.start l := by
  obtain ⟨rest, whole⟩ := leads
  obtain ⟨c, more, cut⟩ := List.exists_cons_of_ne_nil (by simpa using named : above.toList ≠ [])
  have anchored : (Location.ofText above).anchored = l.anchored := by
    rw [same]
    change Text.startsWith above "/" = Text.startsWith l.text "/"
    simp [Text.startsWith, ← whole, cut, List.isPrefixOf]
  rw [Disk.start, Disk.start, anchored]

theorem parent_leads {l above : Location} (parent : l.parent? = some above)
    (leads : d.walk true maxLinks (d.start l) l.segments = .ok (.taken p .dir)) :
    above.text = "" ∨
      ∃ q, d.walk true maxLinks (d.start above) above.segments = .ok (.taken q .dir) := by
  obtain ⟨base, below⟩ := l
  cases below using List.reverseRecOn with
  | append_singleton init last =>
    have cut : (⟨base, init ++ [last]⟩ : Location).parent? = some ⟨base, init⟩ :=
      Location.parent_below ⟨base, []⟩ init last
    cases cut.symm.trans parent
    have segments : (⟨base, init ++ [last]⟩ : Location).segments
        = (⟨base, init⟩ : Location).segments ++ [last] := Location.segments_child ⟨base, init⟩ last
    rw [segments] at leads
    exact .inr (walk_of_append (by simp) leads)
  | nil =>
    obtain ⟨above, found, rfl⟩ := Option.map_eq_some_iff.mp parent
    by_cases named : above = ""
    · exact .inl named
    obtain ⟨prior, front, last, tail, split, fewer, undotted, segments⟩ :=
      (Location.parent_pieces found).resolve_left named
    have pieces := walk_undotted (Location.undotted_segments base) leads
    rw [split] at pieces
    obtain ⟨q, front⟩ := walk_of_append (by simp) pieces
    have there := walk_undotted undotted front
    rw [start_above (l := .ofText base) named prior rfl]
    rcases segments with same | ⟨none, dot⟩
    · exact .inr ⟨q, by rw [same]; exact there⟩
    · rw [none] at there
      refine .inr ⟨q, ?_⟩
      rw [dot]
      rw [Disk.walk] at there ⊢
      exact there

theorem leadsToDir_of_walk {l : Location} (leads : d.walk true maxLinks (d.start l) l.segments
    = .ok (.taken p .dir)) (printable : '\x00' ∉ l.text.toList) (named : l.text ≠ "")
    (short : l.text.utf8ByteSize ≤ maxPathBytes) : d.leadsToDir l = true := by
  exact leadsToDir_iff.mpr ⟨p, resolve_ok.mpr ⟨⟨printable, named, short⟩, leads⟩⟩

end Disk

namespace Files

open PinnedTree.Action

variable {w : World} {path : String} {top : DiskPath} {names : List String}

theorem makeParents_written (straight : w.disk.Straight (.ofText path) top names)
    (opened : w.disk.Open top names) (callable : (Location.ofText path).Callable names) :
    (makeParents (.written path names)).Ensures (· = w.disk) (fun r e => r = .ok () ∧ e = w.disk)
      w := by
  obtain ⟨init, last, rfl⟩ : ∃ init last, names = init ++ [last] :=
    ⟨_, _, (List.dropLast_concat_getLast straight.inner).symm⟩
  obtain ⟨printable, -, short, sizes⟩ := callable
  obtain ⟨above, parent, leads, fewer, undotted, segments⟩ :=
    @Location.written_parent path init last straight.plain
  have there := Disk.walk_undotted undotted (straight.leads_init opened fun name member =>
    sizes name (List.mem_append_left _ member))
  rw [makeParents, parent]
  change (makeDirsFrom (Location.ofText above).ancestors).Ensures _ _ _
  by_cases named : above = ""
  · obtain ⟨more, here⟩ := (Location.ofText above).ancestors_head
    rw [here, makeDirsFrom, if_pos (by simp [Location.text, Location.ofText, named])]
    exact ensures_pure rfl ⟨rfl, rfl⟩
  have starts : w.disk.start (.ofText above) = w.disk.start (.ofText path) :=
    (Disk.start_above named leads rfl).trans (Disk.start_written straight.plain)
  obtain ⟨rest, whole⟩ := leads
  have walked : w.disk.walk true maxLinks (w.disk.start (.ofText above))
      (Location.ofText above).segments = .ok (.taken (top ++ init) .dir) := by
    rw [starts]
    rcases segments with same | ⟨none, dot⟩
    · rw [same]
      exact there
    · rw [none] at there
      rw [dot]
      rw [Disk.walk] at there ⊢
      exact there
  have text : (Location.ofText above).text = above := rfl
  have dir : w.disk.leadsToDir (.ofText above) = true := by
    refine Disk.leadsToDir_of_walk walked ?_ named ?_
    · intro nul
      refine printable ?_
      have inside : '\x00' ∈ above.toList ++ rest := List.mem_append_left _ nul
      rwa [whole] at inside
    · have size : above.utf8ByteSize
          ≤ ((Location.ofText path).below (init ++ [last])).text.utf8ByteSize := by
        have same : ((Location.ofText path).below (init ++ [last])).text
            = above ++ String.ofList rest := by
          rw [← String.toList_inj, String.toList_append, String.toList_ofList, whole]
          rfl
        rw [same, String.utf8ByteSize_append]
        omega
      rw [text]
      omega
  obtain ⟨r, there, done⟩ := makeDirs_there walked
  exact .of_exec there rfl ⟨done (.inr dir), rfl⟩

theorem spells_written (path : String) : Spells (.ofText path) (.written path) where
  text _ := rfl
  makeDir isDir leads plain inner clear := by
    rw [Disk.makeDir, Disk.makeDir, Location.written_bare inner plain, Location.bare_below inner,
      Disk.resolve_written isDir leads plain inner clear]

theorem length_names_le (plain : ∀ name ∈ names, IsName name) :
    names.length ≤ ((Location.ofText path).below names).text.length := by
  induction names using List.reverseRecOn with
  | nil => simp
  | append_singleton names last ih =>
    have shorter := ih fun name member => plain name (List.mem_append_left _ member)
    have filled : last.length ≠ 0 := by simpa using (plain last (by simp)).1
    rw [Location.text_below_concat, List.length_append, List.length_singleton]
    unfold Location.appendPiece
    split <;> simp only [String.length_append] <;> omega

theorem stairs_written {above : Nat} (inner : names ≠ []) (plain : ∀ name ∈ names, IsName name)
    (enough : names.length ≤ above + 1) : Stairs (.written path) names (.written path names ::
      Location.writtenAncestors above ((Location.ofText path).below names).text) := by
  induction names using List.reverseRecOn generalizing above with
  | nil => exact absurd rfl inner
  | append_singleton names last ih =>
    by_cases filled : names = []
    · subst filled
      exact .first last _
    rw [List.length_append, List.length_singleton] at enough
    obtain ⟨more, rfl⟩ : ∃ more, above = more + 1 :=
      Nat.exists_eq_add_one.mpr (by have := List.length_pos_iff.mpr filled; omega)
    rw [Location.writtenAncestors, Location.parent_below_written filled plain]
    exact .next last (ih filled (fun name member => plain name (List.mem_append_left _ member))
      (by omega))

theorem makeDirs_written (sound : w.disk.Sound) (isDir : w.disk.look top = some .dir)
    (leads : w.disk.walk true maxLinks (w.disk.start (.ofText path)) (Location.ofText path).segments
      = .ok (.taken top .dir)) (plain : ∀ name ∈ names, IsName name) (inner : names ≠ [])
    (callable : (Location.ofText path).Callable names) (free : w.disk.look (top ++ names) = none)
    (each : ∀ r, r <+: names → r ≠ [] →
      w.disk.look (top ++ r) = none ∨ w.disk.look (top ++ r) = some .dir) :
    ∃ w', (makeDirs (.written path names)).exec w = (.ok (), w') ∧ Grown w w' (top ++ names) := by
  have stairs : Stairs (.written path) names (Location.written path names).ancestors :=
    stairs_written inner plain (Nat.le_trans (length_names_le plain) (Nat.le_add_right _ 2))
  exact makeDirsFrom_grows (spells_written path) isDir leads stairs sound plain callable free each

end Files

end PinnedTree
