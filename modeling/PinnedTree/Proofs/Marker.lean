import PinnedTree.Marker
import PinnedTree.Proofs.Files
import PinnedTree.Proofs.Json.RoundTrip

namespace PinnedTree

theorem Disk.temporaryName_isName (n : Nat) : IsName (temporaryName n) := by
  have letters : (temporaryName n).toList = '.' :: 't' :: 'm' :: 'p' :: Nat.toDigits 10 n := by
    simp [temporaryName, toString, Nat.toList_repr]
  refine ⟨?_, ?_, ?_, ?_⟩
  · intro same
    simp [same] at letters
  · intro same
    simp [same] at letters
  · intro same
    simp [same] at letters
  · rw [letters]
    intro slash
    simp only [List.mem_cons, Char.reduceEq, false_or] at slash
    have := Nat.isDigit_of_mem_toDigits (by decide) (by decide) slash
    simp at this

theorem Disk.temporaryName_ne_markerFile (n : Nat) : temporaryName n ≠ markerFile := by
  intro same
  have letters := congrArg String.toList same
  simp [temporaryName, markerFile] at letters

theorem markerFile_isName : IsName markerFile := by
  decide

theorem Marker.parse_text (marker : Marker) : parse marker.text = .ok marker := by
  unfold Marker.parse Marker.text
  rw [String.toList_ofList, form, Json.parse_pretty rfl (by simp) (by simp) (by decide)]
  rfl

def Disk.Vouches (d : Disk) (place : DiskPath) (id revision : String) : Prop :=
  ∃ content mode text marker, d.look (place ++ [markerFile]) = some (.file content mode) ∧
    String.fromUTF8? content = some text ∧ Marker.parse text = .ok marker ∧ marker.id = id ∧
    marker.revision = revision

namespace Disk

variable {d e : Disk} {place : DiskPath} {id revision : String}

theorem Vouches.congr (vouches : d.Vouches place id revision)
    (same : e.look (place ++ [markerFile]) = d.look (place ++ [markerFile])) :
    e.Vouches place id revision := by
  obtain ⟨content, mode, text, marker, file, rest⟩ := vouches
  exact ⟨content, mode, text, marker, same.trans file, rest⟩

theorem Vouches.file (vouches : d.Vouches place id revision) :
    ∃ content mode, d.look (place ++ [markerFile]) = some (.file content mode) := by
  obtain ⟨content, mode, _, _, file, _⟩ := vouches
  exact ⟨content, mode, file⟩

theorem vouches_iff {marker : Marker} {mode : Nat}
    (file : d.look (place ++ [markerFile]) = some (.file marker.text.toUTF8 mode)) :
    d.Vouches place id revision ↔ marker.id = id ∧ marker.revision = revision := by
  constructor
  · rintro ⟨content, mode', text, other, stands, decoded, parsed, names⟩
    cases file.symm.trans stands
    cases (fromUTF8?_toUTF8 _).symm.trans decoded
    cases (Marker.parse_text marker).symm.trans parsed
    exact names
  · exact fun names => ⟨_, _, _, marker, file, fromUTF8?_toUTF8 _, Marker.parse_text marker, names⟩

end Disk

def Disk.Certifies (d : Disk) (place : DiskPath) (id revision : String) : Prop :=
  ∃ content mode text marker, d.look (place ++ [markerFile]) = some (.file content mode) ∧
    mayRead mode = true ∧ String.fromUTF8? content = some text ∧ Marker.parse text = .ok marker ∧
    marker.id = id ∧ marker.revision = revision

namespace Disk

variable {d e : Disk} {place top : DiskPath} {id revision : String} {root : Location}
  {names : List String} {marker : Marker}

theorem Certifies.congr (certifies : d.Certifies place id revision)
    (same : e.look (place ++ [markerFile]) = d.look (place ++ [markerFile])) :
    e.Certifies place id revision := by
  obtain ⟨content, mode, text, marker, file, rest⟩ := certifies
  exact ⟨content, mode, text, marker, same.trans file, rest⟩

theorem Certifies.stands (certifies : d.Certifies place id revision) :
    d.look (place ++ [markerFile]) ≠ none := by
  obtain ⟨content, mode, _, _, file, _⟩ := certifies
  simp [file]

theorem Certifies.unique {id' revision' : String} (certifies : d.Certifies place id revision)
    (certifies' : d.Certifies place id' revision') : id = id' ∧ revision = revision' := by
  obtain ⟨content, mode, text, marker, file, -, decoded, parsed, rfl, rfl⟩ := certifies
  obtain ⟨content', mode', text', marker', file', -, decoded', parsed', rfl, rfl⟩ := certifies'
  cases file.symm.trans file'
  cases decoded.symm.trans decoded'
  cases parsed.symm.trans parsed'
  exact ⟨rfl, rfl⟩

theorem certifies_written {mode : Nat} (readable : mayRead mode = true)
    (file : d.look (place ++ [markerFile]) = some (.file marker.text.toUTF8 mode)) :
    d.Certifies place marker.id marker.revision :=
  ⟨_, _, _, marker, file, readable, fromUTF8?_toUTF8 _, Marker.parse_text marker, rfl, rfl⟩

theorem read_marker_ok {l : Location} : Marker.read d l = .ok (some marker) ↔
    ∃ text, d.readText (l / markerFile) = .ok text ∧ Marker.parse text = .ok marker := by
  unfold Marker.read
  generalize d.readText (l / markerFile) = held
  split
  · simp
  · simp
  · rename_i text
    cases parsed : Marker.parse text <;> simp [parsed]

theorem read_marker_iff (straight : d.Straight root top (names ++ [markerFile])) (sound : d.Sound)
    (unlinked : ∀ target, d.look (top ++ (names ++ [markerFile])) ≠ some (.link target)) :
    Marker.read d (root.below names) = .ok (some marker) ↔
      root.Callable (names ++ [markerFile]) ∧ ∃ content mode text,
        d.look (top ++ (names ++ [markerFile])) = some (.file content mode) ∧
          mayRead mode = true ∧ String.fromUTF8? content = some text ∧
          Marker.parse text = .ok marker := by
  have child : root.below names / markerFile = root.below (names ++ [markerFile]) := by
    simp [Location.child, Location.below]
  have stats := straight.stat_ok sound unlinked
  rw [read_marker_ok, child]
  constructor
  · rintro ⟨text, held, parsed⟩
    obtain ⟨content, mode, found, readable, decoded⟩ := readText_ok.mp held
    obtain ⟨callable, file⟩ := (stats _).mp found
    exact ⟨callable, content, mode, text, file, readable, decoded, parsed⟩
  · rintro ⟨callable, content, mode, text, file, readable, decoded, parsed⟩
    have found := (stats _).mpr ⟨callable, file⟩
    exact ⟨text, readText_ok.mpr ⟨content, mode, found, readable, decoded⟩, parsed⟩

theorem certifies_of_read (straight : d.Straight root top (names ++ [markerFile]))
    (sound : d.Sound)
    (unlinked : ∀ target, d.look (top ++ (names ++ [markerFile])) ≠ some (.link target))
    (read : Marker.read d (root.below names) = .ok (some marker)) :
    d.Certifies (top ++ names) marker.id marker.revision := by
  obtain ⟨-, content, mode, text, file, readable, decoded, parsed⟩ :=
    (read_marker_iff straight sound unlinked).mp read
  exact ⟨content, mode, text, marker, by simpa using file, readable, decoded, parsed, rfl, rfl⟩

theorem Certifies.read (certifies : d.Certifies (top ++ names) id revision)
    (straight : d.Straight root top (names ++ [markerFile])) (sound : d.Sound)
    (callable : root.Callable (names ++ [markerFile])) :
    ∃ marker, Marker.read d (root.below names) = .ok (some marker) ∧ marker.id = id ∧
      marker.revision = revision := by
  obtain ⟨content, mode, text, marker, file, readable, decoded, parsed, named⟩ := certifies
  rw [List.append_assoc] at file
  have read := (read_marker_iff straight sound (by simp [file])).mpr
    ⟨callable, content, mode, text, file, readable, decoded, parsed⟩
  exact ⟨marker, read, named⟩

end Disk

open PinnedTree.Action

variable {w : World} {root : Location} {top : DiskPath} {names : List String}

theorem Files.makeTemporary_ensures (straight : w.disk.Straight root top names)
    (isDir : w.disk.look (top ++ names) = some .dir) :
    (Files.makeTemporary (root.below names)).Ensures
      (fun e => ∀ q, ¬ Disk.Inside (top ++ names) q → e.look q = w.disk.look q)
      (fun r e => (∃ fault, r = .error fault ∧ e = w.disk) ∨
        ∃ name, IsName name ∧ name ≠ markerFile ∧ r = .ok (root.below (names ++ [name])) ∧
          e.look (top ++ (names ++ [name])) = some (.file .empty 0o600) ∧
          w.disk.look (top ++ (names ++ [name])) = none ∧
          ∀ q, q ≠ top ++ (names ++ [name]) → e.look q = w.disk.look q) w := by
  refine ensures_observe_bind ?_
  obtain ⟨name, plain, apart, there⟩ : ∃ name, IsName name ∧ name ≠ markerFile ∧
      root.below names / w.disk.freeTemporaryName (root.below names)
        = root.below (names ++ [name]) := by
    have child : ∀ name, root.below names / name = root.below (names ++ [name]) := by
      simp [Location.child, Location.below]
    unfold Disk.freeTemporaryName
    split <;> exact ⟨_, Disk.temporaryName_isName _, Disk.temporaryName_ne_markerFile _, child _⟩
  rw [there]
  have inner := straight.concat plain (by simp [isDir])
  have made : (reporting (IoFault.temporary · (root.below (names ++ [name])).text)
      (changeOnce (·.makeTemporary (root.below (names ++ [name]))))).Ensures
      (fun e => ∀ q, ¬ Disk.Inside (top ++ names) q → e.look q = w.disk.look q)
      (fun r e => (∃ fault, r = .error fault ∧ e = w.disk) ∨ (r = .ok () ∧
        e.look (top ++ (names ++ [name])) = some (.file .empty 0o600) ∧
        w.disk.look (top ++ (names ++ [name])) = none ∧
        ∀ q, q ≠ top ++ (names ++ [name]) → e.look q = w.disk.look q)) w := by
    refine Ensures.reporting (ensures_changeOnce (fun _ _ => rfl) ?_ ?_)
    · intro fault _
      exact .inl ⟨_, rfl, rfl⟩
    · intro step answer
      obtain ⟨-, free, held, rfl⟩ := inner.makeTemporary answer
      have after : ∀ q, ((Step.create (top ++ (names ++ [name])) 0o600).apply w.disk).look q
          = if q = top ++ (names ++ [name]) then some (.file .empty 0o600) else w.disk.look q := by
        intro q
        simp only [Step.apply, free, Disk.look_put held.ne_nil]
      refine ⟨⟨held, by simp [free]⟩, ?_, .inr ⟨rfl, by simp [after], free, ?_⟩⟩
      · intro q outside
        rw [after, if_neg]
        rintro rfl
        exact outside Disk.inside_concat
      · intro q other
        simp [after, other]
  refine made.bind ?_ ?_
  · rintro _ w' (⟨fault, impossible, -⟩ | ⟨-, stands, free, same⟩)
    · cases impossible
    · refine ensures_pure ?_ (.inr ⟨name, plain, apart, rfl, stands, free, same⟩)
      intro q outside
      apply same
      rintro rfl
      exact outside Disk.inside_concat
  · rintro fault e (⟨_, ⟨rfl⟩, same⟩ | ⟨impossible, -⟩)
    · exact .inl ⟨fault, rfl, same⟩
    · cases impossible

theorem Marker.place_ensures (straight : w.disk.Straight root top names) (sound : w.disk.Sound)
    (isDir : w.disk.look (top ++ names) = some .dir) {name : String} (plain : IsName name)
    (apart : name ≠ markerFile) {content : ByteArray} {mode : Nat}
    (stands : w.disk.look (top ++ (names ++ [name])) = some (.file content mode)) :
    (do match ← outcome (Files.rename (root.below (names ++ [name]))
          (root.below (names ++ [markerFile]))) with
        | .ok _ => return ()
        | .error fault =>
          ignoringFailure (Files.removeFile (root.below (names ++ [name])))
          throw fault : Action IoFault Unit).Ensures
      (fun e => ∀ q, ¬ Disk.Inside (top ++ names) q → e.look q = w.disk.look q)
      (fun r e => (∀ q, ¬ Disk.Inside (top ++ names) q → e.look q = w.disk.look q) ∧
        (r = .ok () → e.look (top ++ (names ++ [markerFile])) = some (.file content mode) ∧
          e.look (top ++ (names ++ [name])) = none ∧
          ∀ q, q ≠ top ++ (names ++ [markerFile]) → q ≠ top ++ (names ++ [name]) →
            e.look q = w.disk.look q)) w := by
  have source := straight.concat plain (by simp [isDir])
  have target := straight.concat markerFile_isName (by simp [isDir])
  have other : names ++ [name] ≠ names ++ [markerFile] := by simpa using apart
  have apart' : Disk.Apart (top ++ (names ++ [name])) (top ++ (names ++ [markerFile])) := by
    rw [Disk.apart_append_left, Disk.apart_append_left]
    exact Disk.apart_cons apart
  have beyond : ∀ {q : DiskPath} {last : String}, ¬ Disk.Inside (top ++ names) q →
      ¬ top ++ (names ++ [last]) <+: q := by
    intro q last outside under
    exact outside ⟨Disk.inside_concat.1.trans under, fun same =>
      Disk.inside_concat.not_under (same ▸ under)⟩
  have away : ∀ q, ¬ Disk.Inside (top ++ names) q →
      (w.disk.move (top ++ (names ++ [name])) (top ++ (names ++ [markerFile]))).look q
        = w.disk.look q := fun q outside =>
    Disk.look_move_other _ apart' (beyond outside) (beyond outside)
  refine ((Files.rename_ensures source target sound other).weaken ?_).tried sound ?_
  · rintro e (rfl | ⟨-, rfl⟩)
    · exact fun _ _ => rfl
    · exact away
  rintro r w' sound' home (⟨⟨fault, rfl⟩, -, same⟩ | ⟨rfl, ⟨-, -, fits⟩, moved⟩)
  · have tidied := Files.removeFile_ensures (same ▸ source : w'.disk.Straight root top _) sound'
    have kept : ∀ e : Disk, w'.disk.Pruned e (top ++ (names ++ [name])) →
        ∀ q, ¬ Disk.Inside (top ++ names) q → e.look q = w.disk.look q := by
      intro e pruned q outside
      rcases pruned q with same' | ⟨under, -⟩
      · rw [same', same]
      · exact absurd under (beyond outside)
    refine Ensures.ignored ((tidied.weaken kept).mono fun _ e pruned => kept e pruned) sound' ?_
    intro w'' _ _ same'
    exact ensures_throw same' ⟨same', by simp⟩
  · have look := Disk.look_move_target w.disk apart'
    refine ensures_pure (moved ▸ away) ⟨moved ▸ away, fun _ => moved ▸ ⟨?_, ?_, ?_⟩⟩
    · have := look []
      rwa [List.append_nil, List.append_nil, stands] at this
    · simpa using Disk.look_move_source w.disk apart' []
    · intro q notMarker notTemporary
      by_cases underT : top ++ (names ++ [markerFile]) <+: q
      · obtain ⟨rest, rfl⟩ := underT
        have inner : rest ≠ [] := by simpa using notMarker
        rw [look, sound.none_inside (by simp [stands]) inner, sound.none_inside ?_ inner]
        intro isDir
        obtain ⟨-, -, -, node, found, fitting⟩ := fits
        rw [stands, Option.some.injEq] at found
        rcases fitting _ isDir with ⟨-, notDir⟩ | ⟨dir, -, -⟩
        · exact notDir rfl
        · rw [← found] at dir
          cases dir
      by_cases underS : top ++ (names ++ [name]) <+: q
      · obtain ⟨rest, rfl⟩ := underS
        have inner : rest ≠ [] := by simpa using notTemporary
        rw [Disk.look_move_source _ apart', sound.none_inside (by simp [stands]) inner]
      · exact Disk.look_move_other _ apart' underS underT

theorem Marker.write_ensures (marker : Marker) (straight : w.disk.Straight root top names)
    (sound : w.disk.Sound) (isDir : w.disk.look (top ++ names) = some .dir) :
    (marker.write (root.below names)).Ensures
      (fun e => ∀ q, ¬ Disk.Inside (top ++ names) q → e.look q = w.disk.look q)
      (fun r e => (∀ q, ¬ Disk.Inside (top ++ names) q → e.look q = w.disk.look q) ∧
        (r = .ok () → e.look (top ++ (names ++ [markerFile]))
            = some (.file marker.text.toUTF8 0o600) ∧
          ∀ q, q ≠ top ++ (names ++ [markerFile]) → e.look q = w.disk.look q)) w := by
  refine Ensures.reporting ?_
  refine (Files.makeTemporary_ensures straight isDir).andThen sound ?_ ?_
  · rintro temporary w₁ sound₁ home₁ (⟨fault, impossible, -⟩ | ⟨name, plain, apart, same, stands,
      free, kept⟩)
    · cases impossible
    · cases same
      have outside : ∀ {e : Disk}, (∀ q, q ≠ top ++ (names ++ [name]) → e.look q = w.disk.look q) →
          ∀ q, ¬ Disk.Inside (top ++ names) q → e.look q = w.disk.look q := by
        intro e kept q outside
        apply kept
        rintro rfl
        exact outside Disk.inside_concat
      have straight₁ := straight.congr home₁ (outside kept)
      have isDir₁ : w₁.disk.look (top ++ names) = some .dir := by
        rw [outside kept _ fun inner => inner.2 rfl, isDir]
      have filled : (changeOnce (·.fill (root.below (names ++ [name])) marker.text.toUTF8)).Ensures
          (fun e => ∀ q, q ≠ top ++ (names ++ [name]) → e.look q = w.disk.look q)
          (fun r e => (∀ q, q ≠ top ++ (names ++ [name]) → e.look q = w.disk.look q) ∧
            (r = .ok () → e.look (top ++ (names ++ [name]))
              = some (.file marker.text.toUTF8 0o600))) w₁ := by
        refine ensures_changeOnce kept (fun _ _ => ⟨kept, by simp⟩) ?_
        intro step answer
        have inner := straight₁.concat plain (by simp [isDir₁])
        cases inner.fill (by simp [stands]) answer
        have real : top ++ (names ++ [name]) ≠ [] := by simp
        have after : ∀ q, ((Step.write (top ++ (names ++ [name])) marker.text.toUTF8).apply
            w₁.disk).look q = if q = top ++ (names ++ [name])
              then some (.file marker.text.toUTF8 0o600) else w₁.disk.look q := by
          intro q
          simp only [Step.apply, stands, Disk.look_put real]
        refine ⟨trivial, ?_, ?_, fun _ => by rw [after, if_pos rfl]⟩
        all_goals
          intro q other
          simp only [after, other, if_false]
          exact kept q other
      refine (filled.weaken fun e => outside).andThen sound₁ ?_ ?_
      · rintro ⟨⟩ w₂ sound₂ home₂ ⟨kept₂, stands₂⟩
        have straight₂ := straight.congr (home₂.trans home₁) (outside kept₂)
        have isDir₂ : w₂.disk.look (top ++ names) = some .dir := by
          rw [outside kept₂ _ fun inner => inner.2 rfl, isDir]
        have child : root.below names / markerFile = root.below (names ++ [markerFile]) := by
          simp [Location.child, Location.below]
        rw [child]
        have placed := Marker.place_ensures straight₂ sound₂ isDir₂ plain apart (stands₂ rfl)
        refine (placed.weaken fun e away q beyond => ?_).mono ?_
        · rw [away q beyond, outside kept₂ q beyond]
        · rintro r e ⟨away, ends⟩
          refine ⟨fun q beyond => by rw [away q beyond, outside kept₂ q beyond], ?_⟩
          intro done
          have written : r = .ok () := by cases r <;> simp_all [Except.mapError]
          obtain ⟨there, gone, rest⟩ := ends written
          refine ⟨there, fun q notMarker => ?_⟩
          by_cases here : q = top ++ (names ++ [name])
          · rw [here, gone, free]
          · rw [rest q notMarker here, kept₂ q here]
      · rintro fault e - - ⟨same, -⟩
        exact ⟨outside same, fun impossible => by cases impossible⟩
  · rintro fault e - - (⟨_, ⟨rfl⟩, rfl⟩ | ⟨_, _, _, impossible, _⟩)
    · exact ⟨fun _ _ => rfl, fun impossible => by cases impossible⟩
    · cases impossible

end PinnedTree
