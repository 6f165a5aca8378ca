import PinnedTree.Proofs.Disk.Calls

namespace PinnedTree

namespace Text

theorem fields_ne_nil (sep : Char) (text : List Char) : fields sep text ≠ [] := by
  cases text with
  | nil => simp [fields]
  | cons c rest =>
    simp only [fields]
    split
    · simp
    · split <;> simp

theorem fields_concat_sep (sep : Char) (text : List Char) :
    fields sep (text ++ [sep]) = fields sep text ++ [[]] := by
  induction text with
  | nil => simp [fields]
  | cons c rest ih =>
    simp only [List.cons_append, fields, ih]
    split
    · rfl
    · cases cut : fields sep rest with
      | nil => exact absurd cut (fields_ne_nil sep rest)
      | cons piece pieces => rfl

theorem fields_append_seps (sep : Char) (text : List Char) (count : Nat) :
    fields sep (text ++ List.replicate count sep)
      = fields sep text ++ List.replicate count [] := by
  induction count with
  | zero => simp
  | succ count ih =>
    rw [List.replicate_succ', ← List.append_assoc, fields_concat_sep, ih, List.append_assoc,
      ← List.replicate_succ']

end Text

namespace Location

variable {l : Location}

theorem dropWhile_all_slashes (letters : List Char) :
    ∃ count, letters = List.replicate count '/' ++ letters.dropWhile (· = '/') := by
  induction letters with
  | nil => exact ⟨0, rfl⟩
  | cons c rest ih =>
    by_cases slash : c = '/'
    · obtain ⟨count, same⟩ := ih
      refine ⟨count + 1, ?_⟩
      simp only [slash, List.dropWhile_cons, decide_true, if_true, List.replicate_succ,
        List.cons_append]
      rw [← same]
    · exact ⟨0, by simp [slash]⟩

theorem bare_eq (l : Location) :
    (l.bare = l ∨ ∃ core count, core ≠ [] ∧ core.getLast? ≠ some '/' ∧ l.names = [] ∧
      l.base = String.ofList (core ++ List.replicate (count + 1) '/') ∧
      l.bare = ofText (String.ofList core)) := by
  by_cases asks : l.asksForDir = true
  · obtain ⟨named, slashed⟩ : l.names = [] ∧ Text.endsWith l.base "/" = true := by
      simpa [asksForDir] using asks
    obtain ⟨count, letters⟩ := dropWhile_all_slashes l.base.toList.reverse
    cases core : (l.base.toList.reverse.dropWhile (· = '/')) with
    | nil => exact .inl (by simp [bare, core])
    | cons last rest =>
      right
      rw [core] at letters
      have notSlash : last ≠ '/' := by
        have := List.head?_dropWhile_not (· = '/') l.base.toList.reverse
        simpa [core] using this
      have base : l.base.toList = (last :: rest).reverse ++ List.replicate count '/' := by
        rw [← List.reverse_reverse l.base.toList, letters, List.reverse_append,
          List.reverse_replicate]
      cases count with
      | zero =>
        exfalso
        simp only [Text.endsWith, List.isSuffixOf_iff_suffix] at slashed
        rw [base] at slashed
        have := slashed.reverse
        simp [notSlash.symm, List.cons_prefix_cons] at this
      | succ count =>
        refine ⟨(last :: rest).reverse, count, by simp, by simpa using notSlash, named, ?_, ?_⟩
        · rw [← base, String.ofList_toList]
        · simp [bare, asks, core]
  · exact .inl (by simp [bare, asks])

theorem segments_bare (l : Location) :
    ∃ dots, (dots = [] ∨ dots = ["."]) ∧ l.segments = l.bare.segments ++ dots ∧
      l.bare.anchored = l.anchored := by
  rcases l.bare_eq with same | ⟨core, count, filled, notSlash, named, base, bared⟩
  · exact ⟨[], .inl rfl, by simp [same], by rw [same]⟩
  · refine ⟨["."], .inr rfl, ?_, ?_⟩
    · have unslashed : Text.endsWith (String.ofList core) "/" = false := by
        rw [← Bool.not_eq_true]
        intro slashed
        simp only [Text.endsWith, String.toList_ofList, List.isSuffixOf_iff_suffix] at slashed
        obtain ⟨front, rfl⟩ := slashed
        exact notSlash (by simp)
      have slashed : Text.endsWith l.base "/" = true := by
        simp only [Text.endsWith, base, String.toList_ofList, List.isSuffixOf_iff_suffix,
          List.replicate_succ', ← List.append_assoc]
        exact List.suffix_append _ _
      rw [bared]
      simp [segments, slashed, unslashed, named, ofText]
      simp [base, Text.split, Text.fields_append_seps]
    · obtain ⟨first, rest, rfl⟩ := List.exists_cons_of_ne_nil filled
      simp [bared, anchored, base, ofText, Text.startsWith, List.cons_append, List.isPrefixOf]

end Location

namespace Disk

variable {d : Disk} {here p : DiskPath} {path dots : List String}

theorem advance_held {node : Node}
    (ends : d.advance true here (path ++ dots) = .ok (.ended (.taken p node))) :
    ∃ q node, d.advance false here path = .ok (.ended (.taken q node)) := by
  induction path generalizing here with
  | nil => exact ⟨here, .dir, rfl⟩
  | cons name rest ih =>
    by_cases notHere : name = "."
    · subst notHere
      simpa [advance] using ih (by simpa [advance] using ends)
    by_cases notUp : name = ".."
    · subst notUp
      simpa [advance] using ih (by simpa [advance] using ends)
    rw [List.cons_append, advance_step true notHere notUp] at ends
    rw [advance_step false notHere notUp]
    split at ends
    · cases ends
    · rename_i short
      rw [if_neg short]
      cases look : d.look (here ++ [name]) with
      | none =>
        simp only [look] at ends
        split at ends <;> simp at ends
      | some found =>
        simp only [look] at ends
        cases found with
        | dir => exact ih ends
        | file content mode =>
          simp only at ends
          split at ends
          · rename_i last
            simp only [List.isEmpty_iff, List.append_eq_nil_iff] at last
            simp [last.1]
          · cases ends
        | link target => simp at ends

theorem advance_held_turned (plain : dots = [] ∨ dots = ["."]) {turn : DiskPath}
    {target : String} {left : List String}
    (turns : d.advance true here (path ++ dots) = .ok (.turned turn target left)) :
    (∃ q node, d.advance false here path = .ok (.ended (.taken q node))) ∨
      ∃ rest, left = rest ++ dots ∧
        d.advance false here path = .ok (.turned turn target rest) := by
  induction path generalizing here with
  | nil => rcases plain with rfl | rfl <;> simp [advance] at turns
  | cons name rest ih =>
    by_cases notHere : name = "."
    · subst notHere
      simpa [advance] using ih (by simpa [advance] using turns)
    by_cases notUp : name = ".."
    · subst notUp
      simpa [advance] using ih (by simpa [advance] using turns)
    rw [List.cons_append, advance_step true notHere notUp] at turns
    rw [advance_step false notHere notUp]
    split at turns
    · cases turns
    · rename_i short
      rw [if_neg short]
      cases look : d.look (here ++ [name]) with
      | none =>
        simp only [look] at turns
        split at turns <;> simp at turns
      | some found =>
        simp only [look] at turns
        cases found with
        | dir => exact ih turns
        | file content mode =>
          simp only at turns
          split at turns <;> simp at turns
        | link found =>
          simp only [Bool.not_true, Bool.and_false, Bool.false_eq_true, if_false, Except.ok.injEq,
            Stretch.turned.injEq] at turns
          obtain ⟨rfl, rfl, rfl⟩ := turns
          cases rest with
          | nil => exact .inl ⟨_, _, rfl⟩
          | cons next more => exact .inr ⟨_, rfl, by simp⟩

theorem walk_held {links : Nat} {node : Node} (plain : dots = [] ∨ dots = ["."])
    (leads : d.walk true links here (path ++ dots) = .ok (.taken p node)) :
    ∃ q node, d.walk false links here path = .ok (.taken q node) := by
  induction links generalizing here path with
  | zero =>
    rcases walk_ok.mp leads with ends | ⟨left, _, _, _, impossible, -⟩
    · obtain ⟨q, held, ends⟩ := advance_held ends
      exact ⟨q, held, walk_ok.mpr (.inl ends)⟩
    · cases impossible
  | succ links ih =>
    rcases walk_ok.mp leads with ends | ⟨_, directory, target, left, ⟨rfl⟩, turns, goes⟩
    · obtain ⟨q, held, ends⟩ := advance_held ends
      exact ⟨q, held, walk_ok.mpr (.inl ends)⟩
    rcases advance_held_turned plain turns with ⟨q, held, ends⟩ | ⟨rest, rfl, stays⟩
    · exact ⟨q, held, walk_ok.mpr (.inl ends)⟩
    · rw [← List.append_assoc] at goes
      obtain ⟨q, held, goes⟩ := ih goes
      exact ⟨q, held, walk_ok.mpr (.inr ⟨_, _, _, _, rfl, stays, goes⟩)⟩

theorem makeDir_there {l : Location} {node : Node}
    (leads : d.walk true maxLinks (d.start l) l.segments = .ok (.taken p node))
    (named : l.text ≠ "") : ∃ fault, d.makeDir l = .error fault ∧ fault ≠ .errno .noEntry := by
  obtain ⟨dots, plain, segments, anchored⟩ := l.segments_bare
  rw [segments] at leads
  obtain ⟨q, node, held⟩ := walk_held plain leads
  have bareNamed : l.bare.text ≠ "" := by
    rcases l.bare_eq with same | ⟨core, -, filled, -, -, -, bared⟩
    · rw [same]
      exact named
    · rw [bared]
      simpa [Location.text, Location.ofText] using filled
  simp only [makeDir, Disk.resolve, anchored]
  simp only [start] at held
  by_cases nul : '\x00' ∈ l.bare.text.toList
  · exact ⟨.nulInName, by simp [nul, bind, Except.bind], by simp⟩
  by_cases long : l.bare.text.utf8ByteSize > maxPathBytes
  · exact ⟨.errno .nameTooLong, by simp [nul, bareNamed, long, bind, Except.bind], by simp⟩
  · refine ⟨.errno .fileExists, ?_, by simp⟩
    simp [nul, bareNamed, long, held, bind, Except.bind, Except.mapError, throw, throwThe,
      MonadExceptOf.throw]

theorem advance_dirs {top : DiskPath} {names : List String} (follow : Bool)
    (plain : ∀ name ∈ names, IsName name)
    (sizes : ∀ name ∈ names, name.utf8ByteSize ≤ maxNameBytes)
    (dirs : ∀ r, r <+: names → d.look (top ++ r) = some .dir) :
    d.advance follow top names = .ok (.ended (.taken (top ++ names) .dir)) := by
  induction names generalizing top with
  | nil => simp [advance]
  | cons name rest ih =>
    obtain ⟨-, notHere, notUp, -⟩ := plain name (by simp)
    have short := sizes name (by simp)
    have first := dirs [name] (by simp)
    rw [advance_step follow notHere notUp, if_neg (by omega), first]
    have onward := @ih (top ++ [name])
      (fun n member => plain n (List.mem_cons_of_mem _ member))
      (fun n member => sizes n (List.mem_cons_of_mem _ member))
      (fun r under => by
        simpa using dirs (name :: r) (List.cons_prefix_cons.mpr ⟨rfl, under⟩))
    simpa using onward

theorem Rooted.of_segments {root : Location} {top : DiskPath}
    (here : d.start root ++ root.segments = top) (plain : ∀ name ∈ root.segments, IsName name)
    (sizes : ∀ name ∈ root.segments, name.utf8ByteSize ≤ maxNameBytes)
    (dirs : ∀ n, n ≤ root.segments.length →
      d.look (d.start root ++ root.segments.take n) = some .dir) : d.Rooted root top where
  isDir := by
    rw [← here, ← dirs _ (Nat.le_refl _), List.take_length]
  leads e home same := by
    have starts : e.start root = d.start root := by simp [start, home]
    have above : ∀ r, r <+: root.segments → e.look (d.start root ++ r) = some .dir := by
      intro r under
      rw [same, List.prefix_iff_eq_take.mp under, dirs _ under.length_le]
      rintro ⟨inside, other⟩
      rw [← here] at inside other
      have longer := (List.prefix_append_right_inj _).mp inside
      exact other (by rw [under.eq_of_length_le longer.length_le])
    rw [starts, walk, advance_dirs true plain sizes above, here]
    rfl

structure Walkable (d e : Disk) : Prop where
  home : e.home = d.home
  dirs : ∀ p, d.look p = some .dir → e.look p = some .dir
  links : ∀ p target, d.look p = some (.link target) → e.look p = some (.link target)

theorem Walkable.advance {here : DiskPath} {path : List String} {s : Stretch}
    (walkable : d.Walkable e) (found : d.advance true here path = .ok s)
    (ends : ∀ place, s = .ended place → ∃ p, place = .taken p .dir) :
    e.advance true here path = .ok s := by
  induction path generalizing here with
  | nil => exact found
  | cons name rest ih =>
    by_cases notHere : name = "."
    · subst notHere
      exact ih found
    by_cases notUp : name = ".."
    · subst notUp
      exact ih found
    rw [advance_step true notHere notUp] at found ⊢
    split at found
    · cases found
    rename_i short
    rw [if_neg short]
    cases stands : d.look (here ++ [name]) with
    | none =>
      simp only [stands] at found
      split at found
      · cases found
        obtain ⟨p, impossible⟩ := ends _ rfl
        cases impossible
      · cases found
    | some node =>
      cases node with
      | dir =>
        simp only [stands] at found
        simp only [walkable.dirs _ stands]
        exact ih found
      | file content mode =>
        simp only [stands] at found
        split at found
        · cases found
          obtain ⟨p, impossible⟩ := ends _ rfl
          cases impossible
        · cases found
      | link link => simpa [walkable.links _ _ stands, stands] using found

theorem Walkable.walk {here : DiskPath} {path : List String} {links : Nat} (walkable : d.Walkable e)
    (leads : d.walk true links here path = .ok (.taken p .dir)) :
    e.walk true links here path = .ok (.taken p .dir) := by
  induction links generalizing here path with
  | zero =>
    rcases walk_ok.mp leads with ends | ⟨left, _, _, _, impossible, -⟩
    · exact walk_ok.mpr (.inl (walkable.advance ends (by simp)))
    · cases impossible
  | succ links ih =>
    rcases walk_ok.mp leads with ends | ⟨_, directory, target, rest, ⟨rfl⟩, turns, goes⟩
    · exact walk_ok.mpr (.inl (walkable.advance ends (by simp)))
    · exact walk_ok.mpr (.inr
        ⟨_, directory, target, rest, rfl, walkable.advance turns (by simp), ih goes⟩)

theorem Rooted.of_bare {root : Location} {top : DiskPath} (isDir : d.look top = some .dir)
    (leads : d.walk true maxLinks (d.start root) root.segments = .ok (.taken top .dir))
    (bare : ∀ q, Inside top q → d.look q = none) : d.Rooted root top where
  isDir := isDir
  leads e home same := by
    have still : ∀ q node, d.look q = some node → e.look q = some node := fun q node stands => by
      rw [same q fun inside => (by cases (bare q inside).symm.trans stands), stands]
    have starts : e.start root = d.start root := by simp [start, home]
    rw [starts]
    exact Walkable.walk ⟨home, fun q => still q _, fun q _ => still q _⟩ leads

theorem Sound.dir_above (sound : d.Sound) (isDir : d.look p = some .dir) :
    d.look p.dropLast = some .dir := by
  cases p using List.reverseRecOn with
  | nil => exact isDir
  | append_singleton init last =>
    rw [List.dropLast_concat]
    exact sound.above (List.cons_ne_nil last []) (by simp [isDir])

theorem Sound.dirs_of_advance {follow : Bool} {s : Stretch} (sound : d.Sound)
    (isDir : d.look here = some .dir) (found : d.advance follow here path = .ok s) :
    (∀ p, s = .ended (.taken p .dir) → d.look p = some .dir) ∧
      ∀ turn target rest, s = .turned turn target rest → d.look turn = some .dir := by
  induction path generalizing here with
  | nil =>
    cases found
    exact ⟨by rintro p ⟨⟩; exact isDir, by simp⟩
  | cons name rest ih =>
    by_cases notHere : name = "."
    · subst notHere
      exact ih isDir found
    by_cases notUp : name = ".."
    · subst notUp
      exact ih (sound.dir_above isDir) found
    rw [advance_step follow notHere notUp] at found
    split at found
    · cases found
    split at found
    · split at found <;> cases found
      simp
    · rename_i isDir'
      exact ih isDir' found
    · split at found <;> cases found
      simp
    · split at found <;> cases found
      · simp
      · exact ⟨by simp, by rintro _ _ _ ⟨⟩; exact isDir⟩

theorem Sound.dir_of_walk {follow : Bool} {links : Nat} (sound : d.Sound)
    (isDir : d.look here = some .dir) (leads : d.walk follow links here path = .ok (.taken p .dir)) :
    d.look p = some .dir := by
  induction links generalizing here path with
  | zero =>
    rcases walk_ok.mp leads with ends | ⟨left, _, _, _, impossible, -⟩
    · exact (sound.dirs_of_advance isDir ends).1 p rfl
    · cases impossible
  | succ links ih =>
    rcases walk_ok.mp leads with ends | ⟨_, directory, target, rest, ⟨rfl⟩, turns, goes⟩
    · exact (sound.dirs_of_advance isDir ends).1 p rfl
    refine ih ?_ goes
    split
    · exact look_top d
    · exact (sound.dirs_of_advance isDir turns).2 _ _ _ rfl

theorem Sound.dir_of_resolve {follow : Bool} {l : Location} (sound : d.Sound)
    (homed : d.look d.home = some .dir) (leads : d.resolve follow l = .ok (.taken p .dir)) :
    d.look p = some .dir := by
  refine sound.dir_of_walk ?_ (walk_of_resolve leads)
  rw [start]
  split
  · exact look_top d
  · exact homed

theorem linkStat_of_resolve {l : Location} {node : Node}
    (found : d.resolve false l = .ok (.taken p node)) : d.linkStat l = .ok node := by
  simp [linkStat, found, bind, Except.bind, pure, Except.pure]

theorem resolve_held {l : Location} {node : Node} (leads : d.resolve true l = .ok (.taken p node)) :
    ∃ q node, d.resolve false l = .ok (.taken q node) := by
  obtain ⟨passed, walked⟩ := resolve_ok.mp leads
  rw [← List.append_nil l.segments] at walked
  obtain ⟨q, held, named⟩ := walk_held (.inl rfl) walked
  exact ⟨q, held, resolve_ok.mpr ⟨passed, named⟩⟩

end Disk

end PinnedTree
