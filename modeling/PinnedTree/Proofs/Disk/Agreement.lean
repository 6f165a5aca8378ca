import PinnedTree.Proofs.Marker

namespace PinnedTree.Disk

structure Agree (d e : Disk) : Prop where
  home : e.home = d.home
  same : ∀ p node other, d.look p = some node → e.look p = some other → other = node

structure Part (e d : Disk) : Prop where
  home : e.home = d.home
  found : ∀ p node, e.look p = some node → d.look p = some node

variable {d e : Disk} {follow : Bool} {here p q : DiskPath} {path : List String} {l : Location}
  {node : Node}

theorem Part.refl (d : Disk) : d.Part d := ⟨rfl, fun _ _ => id⟩

theorem Part.trans {f : Disk} (first : f.Part e) (second : e.Part d) : f.Part d where
  home := first.home.trans second.home
  found p node stands := second.found p node (first.found p node stands)

theorem Part.no_link (part : e.Part d) (plain : ∀ target, d.look p ≠ some (.link target))
    (target : String) : e.look p ≠ some (.link target) :=
  fun link => plain target (part.found p _ link)

theorem Part.advance (part : e.Part d) {s : Stretch} (found : e.advance follow here path = .ok s)
    (met : ∀ p, s ≠ .ended (.free p)) : d.advance follow here path = .ok s := by
  induction path generalizing here with
  | nil => exact found
  | cons name rest ih =>
    by_cases notHere : name = "."
    · subst notHere
      exact ih found
    by_cases notUp : name = ".."
    · subst notUp
      exact ih found
    rw [advance_step follow notHere notUp] at found ⊢
    split at found
    · cases found
    · rename_i short
      rw [if_neg short]
      cases stands : e.look (here ++ [name]) with
      | none =>
        simp only [stands] at found
        split at found
        · cases found
          exact absurd rfl (met _)
        · cases found
      | some node =>
        simp only [stands] at found
        simp only [part.found _ _ stands]
        cases node with
        | dir => exact ih found
        | file | link => exact found

theorem Part.walk (part : e.Part d) {links : Nat}
    (found : e.walk follow links here path = .ok (.taken p node)) :
    d.walk follow links here path = .ok (.taken p node) := by
  induction links generalizing here path with
  | zero =>
    rcases walk_ok.mp found with ends | ⟨left, _, _, _, impossible, -⟩
    · exact walk_ok.mpr (.inl (part.advance ends (by simp)))
    · cases impossible
  | succ links ih =>
    rcases walk_ok.mp found with ends | ⟨_, directory, target, rest, ⟨rfl⟩, turns, goes⟩
    · exact walk_ok.mpr (.inl (part.advance ends (by simp)))
    · exact walk_ok.mpr (.inr
        ⟨_, directory, target, rest, rfl, part.advance turns (by simp), ih goes⟩)

theorem Part.resolve (part : e.Part d) (found : e.resolve follow l = .ok (.taken p node)) :
    d.resolve follow l = .ok (.taken p node) := by
  obtain ⟨passed, walked⟩ := resolve_ok.mp found
  have starts : e.start l = d.start l := by simp [start, part.home]
  exact resolve_ok.mpr ⟨passed, starts ▸ part.walk walked⟩

theorem Agree.advance (agree : d.Agree e) {s t : Stretch}
    (first : d.advance follow here path = .ok s) (second : e.advance follow here path = .ok t) :
    t = s ∨ (∃ p, s = .ended (.free p)) ∨ ∃ p, t = .ended (.free p) := by
  induction path generalizing here with
  | nil =>
    simp only [Disk.advance, Except.ok.injEq] at first second
    exact .inl (second.symm.trans first)
  | cons name rest ih =>
    by_cases notHere : name = "."
    · subst notHere
      exact ih (by simpa [Disk.advance] using first) (by simpa [Disk.advance] using second)
    by_cases notUp : name = ".."
    · subst notUp
      exact ih (by simpa [Disk.advance] using first) (by simpa [Disk.advance] using second)
    rw [advance_step follow notHere notUp] at first second
    by_cases long : name.utf8ByteSize > maxNameBytes
    · rw [if_pos long] at first
      cases first
    rw [if_neg long] at first second
    cases found : d.look (here ++ [name]) with
    | none =>
      simp only [found] at first
      split at first
      · cases first
        exact .inr (.inl ⟨_, rfl⟩)
      · cases first
    | some node =>
      cases other : e.look (here ++ [name]) with
      | none =>
        simp only [other] at second
        split at second
        · cases second
          exact .inr (.inr ⟨_, rfl⟩)
        · cases second
      | some node' =>
        obtain rfl := agree.same _ _ _ found other
        simp only [found] at first
        simp only [other] at second
        cases node' with
        | dir => exact ih first second
        | file | link =>
          have same := first.symm.trans second
          cases same
          exact .inl rfl

theorem Agree.walk (agree : d.Agree e) {links : Nat} {node other : Node}
    (first : d.walk follow links here path = .ok (.taken p node))
    (second : e.walk follow links here path = .ok (.taken q other)) : q = p ∧ other = node := by
  induction links generalizing here path with
  | zero =>
    rcases walk_ok.mp first with ends | ⟨_, _, _, _, impossible, -⟩
    · rcases walk_ok.mp second with ends' | ⟨_, _, _, _, impossible, -⟩
      · simpa using agree.advance ends ends'
      · cases impossible
    · cases impossible
  | succ links ih =>
    rcases walk_ok.mp first with ends | ⟨_, directory, target, rest, ⟨rfl⟩, turns, goes⟩
    · rcases walk_ok.mp second with ends' | ⟨_, _, _, _, -, turns', -⟩
      · simpa using agree.advance ends ends'
      · simpa using agree.advance ends turns'
    · rcases walk_ok.mp second with ends' | ⟨_, _, _, _, ⟨rfl⟩, turns', goes'⟩
      · simpa using agree.advance turns ends'
      · obtain ⟨rfl, rfl, rfl⟩ : _ ∧ _ ∧ _ := by simpa using agree.advance turns turns'
        exact ih goes goes'

theorem Agree.resolve (agree : d.Agree e) {node other : Node}
    (first : d.resolve follow l = .ok (.taken p node))
    (second : e.resolve follow l = .ok (.taken q other)) : q = p ∧ other = node := by
  have walked := walk_of_resolve first
  have walked' := walk_of_resolve second
  have starts : e.start l = d.start l := by simp [start, agree.home]
  rw [starts] at walked'
  exact agree.walk walked walked'

theorem resolve_of_stat {node : Node} (found : d.stat l = .ok node) :
    ∃ p, d.resolve true l = .ok (.taken p node) := by
  unfold stat at found
  cases resolved : d.resolve true l with
  | error fault => simp [resolved, bind, Except.bind] at found
  | ok place =>
    cases place with
    | free path => simp [resolved, bind, Except.bind, throw, throwThe, MonadExceptOf.throw] at found
    | taken path there =>
      simp only [resolved, bind, Except.bind, pure, Except.pure, Except.ok.injEq] at found
      exact ⟨path, found ▸ rfl⟩

theorem Part.linkStat (part : e.Part d) (found : e.linkStat l = .ok node) :
    d.linkStat l = .ok node := by
  unfold Disk.linkStat at found ⊢
  cases resolved : e.resolve false l with
  | error fault => simp [resolved, bind, Except.bind] at found
  | ok place =>
    cases place with
    | free path => simp [resolved, bind, Except.bind, throw, throwThe, MonadExceptOf.throw] at found
    | taken path there => simpa [resolved, part.resolve resolved] using found

theorem Part.stat (part : e.Part d) (found : e.stat l = .ok node) : d.stat l = .ok node := by
  obtain ⟨p, resolved⟩ := resolve_of_stat found
  unfold Disk.stat at found ⊢
  simpa [resolved, part.resolve resolved] using found

theorem Part.marker (part : e.Part d) {marker : Marker}
    (found : Marker.read e l = .ok (some marker)) : Marker.read d l = .ok (some marker) := by
  obtain ⟨text, held, parsed⟩ := read_marker_ok.mp found
  obtain ⟨content, mode, stands, readable, decoded⟩ := readText_ok.mp held
  exact read_marker_ok.mpr
    ⟨text, readText_ok.mpr ⟨content, mode, part.stat stands, readable, decoded⟩, parsed⟩

theorem Agree.marker (agree : d.Agree e) {marker marker' : Marker}
    (first : Marker.read d l = .ok (some marker)) (second : Marker.read e l = .ok (some marker')) :
    marker' = marker := by
  obtain ⟨text, held, parsed⟩ := read_marker_ok.mp first
  obtain ⟨text', held', parsed'⟩ := read_marker_ok.mp second
  obtain ⟨content, mode, found, -, decoded⟩ := readText_ok.mp held
  obtain ⟨content', mode', found', -, decoded'⟩ := readText_ok.mp held'
  obtain ⟨p, resolved⟩ := resolve_of_stat found
  obtain ⟨q, resolved'⟩ := resolve_of_stat found'
  have same := (agree.resolve resolved resolved').2
  cases same
  have texts := decoded.symm.trans decoded'
  cases texts
  have markers := parsed.symm.trans parsed'
  cases markers
  rfl

end PinnedTree.Disk
