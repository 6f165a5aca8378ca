import PinnedTree.Proofs.Disk.Within

namespace PinnedTree

namespace Disk

variable {d : Disk} {l : Location} {p temporary : DiskPath} {content : ByteArray} {mode : Nat}

def filled (d : Disk) (path : DiskPath) (content : ByteArray) (mode : Nat) : Disk :=
  Step.applyAll d [.create path mode, .write path content]

theorem filled_eq (free : d.look p = none) :
    d.filled p content mode = (d.put p (.file .empty mode)).put p (.file content mode) :=
  write_granted (.made free) (.of_free free) content

theorem look_filled (free : d.look p = none) (q : DiskPath) :
    (d.filled p content mode).look q = if q = p then some (.file content mode) else d.look q := by
  have real := (Terminal.of_free free).ne_nil
  rw [filled_eq free, look_put real, look_put real]
  by_cases here : q = p <;> simp [here]

theorem Leads.filled (leads : d.Leads l p) (free : d.look temporary = none) :
    (d.filled temporary content mode).Leads l p := by
  have terminal : d.Terminal temporary := .of_free free
  have made : (d.put temporary (.file .empty mode)).Leads l p := leads.put terminal (by simp)
  have stands : (d.put temporary (.file .empty mode)).look temporary = some (.file .empty mode) := by
    rw [look_put terminal.ne_nil, if_pos rfl]
  rw [filled_eq free]
  exact made.put (.of_file stands) (by simp)

theorem same_unfilled (free : d.look temporary = none) :
    d.Same ((Step.unlink temporary).apply (d.filled temporary content mode)) where
  home := by simp [filled]
  look q := by
    rw [Step.apply, look_erase (Terminal.of_free free).ne_nil, look_filled free]
    by_cases here : q = temporary <;> simp [here, free]

theorem same_renamed {name last : String} (sound : d.Sound) (other : name ≠ last)
    (free : d.look (p ++ [name]) = none) (notDir : d.look (p ++ [last]) ≠ some .dir) :
    (d.put (p ++ [last]) (.file content mode)).Same
      ((Step.rename (p ++ [name]) (p ++ [last])).apply (d.filled (p ++ [name]) content mode)) where
  home := by simp [filled, home_put]
  look q := by
    have apart : Apart (p ++ [name]) (p ++ [last]) := apart_append_left.mpr (apart_cons other)
    rw [Step.apply, look_put apart.symm.ne_nil]
    by_cases underT : p ++ [last] <+: q
    · obtain ⟨rest, rfl⟩ := underT
      rw [look_move_target _ apart, look_filled free]
      cases rest with
      | nil => simp
      | cons first more =>
        have inner : first :: more ≠ [] := by simp
        rw [if_neg (by simp), if_neg (by simp), sound.none_below free,
          sound.none_inside notDir inner]
    · have notHere : q ≠ p ++ [last] := fun same => underT (same ▸ List.prefix_refl _)
      rw [if_neg notHere]
      by_cases underS : p ++ [name] <+: q
      · obtain ⟨rest, rfl⟩ := underS
        rw [look_move_source _ apart, sound.none_below free]
      · rw [look_move_other _ apart underS underT, look_filled free, if_neg]
        rintro rfl
        exact underS (List.prefix_refl _)

end Disk

open PinnedTree.Action

variable {w : World} {l : Location} {p : DiskPath}

theorem Files.makeTemporary_within (leads : w.disk.Leads l p) :
    (∃ fault, (makeTemporary l).exec w = (.error fault, w)) ∨
      ∃ name, IsName name ∧ name ≠ markerFile ∧ l.Callable [name] ∧
        w.disk.look (p ++ [name]) = none ∧
        (makeTemporary l).exec w
          = (.ok (l.child name), w.perform (.create (p ++ [name]) 0o600)) := by
  obtain ⟨name, plain, apart, chosen⟩ : ∃ name, IsName name ∧ name ≠ markerFile ∧
      w.disk.freeTemporaryName l = name := by
    unfold Disk.freeTemporaryName
    split <;> exact ⟨_, Disk.temporaryName_isName _, Disk.temporaryName_ne_markerFile _, rfl⟩
  have ran : (makeTemporary l).exec w = (reporting (IoFault.temporary · (l.child name).text)
      (changeOnce (·.makeTemporary (l.child name))) >>= fun _ => pure (l.child name)).exec w := by
    rw [makeTemporary, exec_observe_bind, chosen, Location.child_eq_div]
  rw [ran, exec_bind, exec_reporting, exec_changeOnce]
  cases answer : w.disk.makeTemporary (l.child name) with
  | error fault => exact .inl ⟨_, rfl⟩
  | ok step =>
    obtain ⟨callable, free, rfl⟩ := leads.makeTemporary plain answer
    exact .inr ⟨name, plain, apart, callable, free, rfl⟩

theorem Files.exec_fill_within {name : String} {old content : ByteArray} {mode : Nat}
    (leads : w.disk.Leads l p) (plain : IsName name) (callable : l.Callable [name])
    (stands : w.disk.look (p ++ [name]) = some (.file old mode)) :
    (changeOnce (·.fill (l.child name) content)).exec w
      = (.ok (), w.perform (.write (p ++ [name]) content)) := by
  rw [exec_changeOnce, leads.fill plain callable stands]

theorem Files.exec_removeFile_within {name : String} {content : ByteArray} {mode : Nat}
    (leads : w.disk.Leads l p) (plain : IsName name) (callable : l.Callable [name])
    (stands : w.disk.look (p ++ [name]) = some (.file content mode)) :
    (removeFile (l.child name)).exec w = (.ok (), w.perform (.unlink (p ++ [name]))) := by
  rw [removeFile, exec_changeOnce, leads.removeFile plain callable stands]

theorem Marker.place_outcome {name : String} {content : ByteArray} {mode : Nat}
    (leads : w.disk.Leads l p) (plain : IsName name) (other : name ≠ markerFile)
    (callable : l.Callable [name])
    (stands : w.disk.look (p ++ [name]) = some (.file content mode)) :
    ∃ r w', (do match ← outcome (Files.rename (l.child name) (l.child markerFile)) with
        | .ok _ => return ()
        | .error fault =>
          ignoringFailure (Files.removeFile (l.child name))
          throw fault : Action IoFault Unit).exec w = (r, w') ∧
      ((∃ fault, r = .error fault ∧ w'.disk = (Step.unlink (p ++ [name])).apply w.disk) ∨
        r = .ok () ∧ l.Callable [markerFile] ∧ w.disk.look (p ++ [markerFile]) ≠ some .dir ∧
          w'.disk = (Step.rename (p ++ [name]) (p ++ [markerFile])).apply w.disk) := by
  rw [exec_bind, exec_outcome, Files.rename, exec_change]
  cases renamed : w.disk.rename (l.child name) (l.child markerFile) with
  | ok steps =>
    obtain ⟨callable', notDir, rfl⟩ := leads.rename plain markerFile_isName other stands renamed
    exact ⟨_, _, exec_pure _ _, .inr ⟨rfl, callable', notDir, rfl⟩⟩
  | error fault =>
    simp only
    rw [exec_bind, exec_ignoringFailure, Files.exec_removeFile_within leads plain callable stands]
    exact ⟨_, _, Eq.refl _, .inl ⟨fault, rfl, rfl⟩⟩

theorem Marker.write_outcome (marker : Marker) (sound : w.disk.Sound) (leads : w.disk.Leads l p) :
    ∃ r w', (marker.write l).exec w = (r, w') ∧
      ((∃ e, r = .error e ∧ w.disk.Same w'.disk) ∨
        r = .ok () ∧ l.Callable [markerFile] ∧ w.disk.look (p ++ [markerFile]) ≠ some .dir ∧
          (w.disk.put (p ++ [markerFile]) (.file marker.text.toUTF8 0o600)).Same w'.disk) := by
  rw [write, exec_reporting, exec_bind]
  rcases Files.makeTemporary_within leads with
    ⟨fault, ran⟩ | ⟨name, plain, other, callable, free, ran⟩
  · rw [ran]
    exact ⟨_, _, rfl, .inl ⟨_, rfl, .refl _⟩⟩
  let made := w.perform (.create (p ++ [name]) 0o600)
  let full := made.perform (.write (p ++ [name]) marker.text.toUTF8)
  have whole : full.disk = w.disk.filled (p ++ [name]) marker.text.toUTF8 0o600 := rfl
  have emptied : made.disk = w.disk.put (p ++ [name]) (.file .empty 0o600) :=
    Disk.create_granted (.made free)
  have leadsMade : made.disk.Leads l p := emptied ▸ leads.put (.of_free free) (by simp)
  have stands : made.disk.look (p ++ [name]) = some (.file .empty 0o600) := by
    rw [emptied, Disk.look_put (by simp), if_pos rfl]
  have fill : (changeOnce (·.fill (l.child name) marker.text.toUTF8)).exec made = (.ok (), full) :=
    Files.exec_fill_within leadsMade plain callable stands
  have leadsFull : full.disk.Leads l p := whole ▸ leads.filled free
  have standsFull : full.disk.look (p ++ [name]) = some (.file marker.text.toUTF8 0o600) := by
    rw [whole, Disk.look_filled free, if_pos rfl]
  obtain ⟨r, w', placed, ends⟩ :=
    Marker.place_outcome leadsFull plain other callable standsFull
  rw [ran]
  simp only [Location.child_eq_div]
  rw [exec_bind_ok fill]
  refine ⟨_, w', congrArg (fun ended => (ended.1.mapError MarkerError.io, ended.2)) placed, ?_⟩
  rcases ends with ⟨fault, rfl, disk⟩ | ⟨rfl, callable', notDir, disk⟩
  · refine .inl ⟨_, rfl, ?_⟩
    rw [disk, whole]
    exact Disk.same_unfilled free
  · have untouched : w.disk.look (p ++ [markerFile]) ≠ some .dir := by
      rwa [whole, Disk.look_filled free, if_neg (by simpa using other.symm)] at notDir
    refine .inr ⟨rfl, callable', untouched, ?_⟩
    rw [disk, whole]
    exact Disk.same_renamed sound other free untouched

structure Marker.Written (marker : Marker) (l : Location) (p : DiskPath) (d e : Disk) : Prop where
  read : Marker.read e l = .ok (some marker)
  inspected : d.linkStat l = .ok .dir → Inspection.ofPlace e l = .ok (.marked marker)
  others : ∀ q, q ≠ p ++ [markerFile] → e.look q = d.look q

structure Marker.Unwritten (l : Location) (d e : Disk) : Prop where
  read : Marker.read e l = Marker.read d l
  others : ∀ q, e.look q = d.look q

theorem Disk.Leads.read_put {d : Disk} {marker : Marker} {mode : Nat} (leads : d.Leads l p)
    (callable : l.Callable [markerFile]) (terminal : d.Terminal (p ++ [markerFile]))
    (readable : mayRead mode = true) :
    Marker.read (d.put (p ++ [markerFile]) (.file marker.text.toUTF8 mode)) l
      = .ok (some marker) := by
  have after : (d.put (p ++ [markerFile]) (.file marker.text.toUTF8 mode)).Leads l p :=
    leads.put terminal (by simp)
  have stands : (d.put (p ++ [markerFile]) (.file marker.text.toUTF8 mode)).look (p ++ [markerFile])
      = some (.file marker.text.toUTF8 mode) := by
    rw [look_put terminal.ne_nil, if_pos rfl]
  have found := (after.child_follow markerFile_isName fun target => by rw [stands]; simp).trans
    (after.child_taken markerFile_isName callable stands)
  have held : (d.put (p ++ [markerFile]) (.file marker.text.toUTF8 mode)).readText
      (l.child markerFile) = .ok marker.text := by
    refine readText_ok.mpr ⟨_, mode, ?_, readable, fromUTF8?_toUTF8 _⟩
    rw [stat, found]
    rfl
  exact read_marker_ok.mpr ⟨marker.text, held, Marker.parse_text marker⟩

/-- What a written marker is read as, and found by an inspection; and nothing else has changed. -/
theorem Marker.read_after_write (marker : Marker) (sound : w.disk.Sound)
    (leads : w.disk.resolve true l = .ok (.taken p .dir)) (isDir : w.disk.look p = some .dir)
    (unlinked : ∀ target, w.disk.look (p ++ [markerFile]) ≠ some (.link target)) :
    match (marker.write l).exec w with
    | (.ok _, w') => marker.Written l p w.disk w'.disk
    | (.error _, w') => Marker.Unwritten l w.disk w'.disk := by
  obtain ⟨r, w', ran, ⟨e, rfl, same⟩ | ⟨rfl, callable, notDir, same⟩⟩ :=
    marker.write_outcome sound ⟨leads, isDir⟩
  · rw [ran]
    exact ⟨same.readMarker, same.look⟩
  rw [ran]
  have terminal : w.disk.Terminal (p ++ [markerFile]) := by
    intro held stands
    cases held with
    | dir => exact absurd stands notDir
    | link target => exact absurd stands (unlinked target)
    | file content mode => exact ⟨content, mode, rfl⟩
  have read : Marker.read w'.disk l = .ok (some marker) :=
    same.readMarker.trans (Disk.Leads.read_put ⟨leads, isDir⟩ callable terminal (by decide))
  refine ⟨read, fun real => ?_, fun q other => ?_⟩
  · obtain ⟨q, found⟩ := Disk.resolve_of_linkStat real
    have there : w'.disk.linkStat l = .ok .dir := by
      rw [Disk.linkStat, same.resolve, Disk.resolve_put terminal (by simp) found]
      rfl
    rw [Inspection.ofPlace, there]
    simp only
    rw [read]
  · rw [same.look, Disk.look_put terminal.ne_nil, if_neg other]

def awkwardMarker : Marker where
  id := "a \"quoted\" id"
  revision := "\\\t\n\r\u0000\u001f\u007f"
  locator := "file:///\u00e9/\u4e2d/😀"
  backend := ""
  syncedAt := "\u2028/\u00a0"

def markedDisk : Disk where
  home := ["root"]
  nodes := [(["root"], .dir), (["root", "a"], .dir), (["root", "a", "p"], .file .empty 0o644),
    (["root", "a", markerFile], .file "other".toUTF8 0o600), (["root", "current"], .link "./a")]
  distinct := by decide

theorem awkwardMarker_read : ∃ w',
    (awkwardMarker.write (.ofText "current")).exec { disk := markedDisk } = (.ok (), w') ∧
      Marker.read w'.disk (.ofText "current") = .ok (some awkwardMarker) := by
  have leaves := awkwardMarker.read_after_write (w := { disk := markedDisk })
    (l := .ofText "current") (p := ["root", "a"]) (by decide) (by decide +kernel) (by decide)
    (Disk.linkless_iff.mp (by decide))
  have done : ((awkwardMarker.write (.ofText "current")).exec { disk := markedDisk }).1
      = .ok () := by
    decide +kernel
  rcases ran : (awkwardMarker.write (.ofText "current")).exec { disk := markedDisk } with ⟨r, w'⟩
  rw [ran] at leaves done
  cases done
  exact ⟨w', rfl, leaves.read⟩

end PinnedTree
