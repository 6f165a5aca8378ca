import PinnedTree.Proofs.Backend.Copying
import PinnedTree.Proofs.Backend.Mirror

namespace PinnedTree

namespace Disk

variable {d : Disk} {base name : String} {top : DiskPath} {place : Place}

/-- The directory in which names that are added to a path are looked up; an empty path stands for the
home. -/
def Enters (d : Disk) (l : Location) (top : DiskPath) : Prop :=
  l.text = "" ∧ top = d.home ∨ d.resolve true l = .ok (.taken top .dir)

theorem isDir_start (homed : d.look d.home = some .dir) (l : Location) :
    d.look (d.start l) = some .dir := by
  unfold start
  split
  · exact look_top d
  · exact homed

theorem leads_of_pieces (leads : d.walk true maxLinks (d.start (.ofText base)) (Location.pieces base)
    = .ok (.taken top .dir)) :
    d.walk true maxLinks (d.start (.ofText base)) (Location.ofText base).segments
      = .ok (.taken top .dir) := by
  have written : (Location.ofText base).segments
      = Location.pieces base ++ if Text.endsWith base "/" then ["."] else [] := by
    rw [Location.segments, Location.ofText, Location.split_filled, List.append_nil]
  rw [written]
  split
  · obtain ⟨left, goes⟩ := walk_append (List.cons_ne_nil "." []) leads true
    rw [goes]
    exact walk_ok.mpr (.inl (by simp [advance]))
  · rwa [List.append_nil]

theorem walk_empty (d : Disk) : d.walk true maxLinks (d.start (.ofText "")) (Location.ofText "").segments
    = .ok (.taken d.home .dir) := by
  have nothing : (Location.ofText "").segments = [] := by decide
  rw [nothing]
  exact walk_ok.mpr (.inl (by rw [advance]; rfl))

theorem Enters.walk (enters : d.Enters (.ofText base) top) :
    d.walk true maxLinks (d.start (.ofText base)) (Location.ofText base).segments
      = .ok (.taken top .dir) := by
  rcases enters with ⟨empty, rfl⟩ | leads
  · obtain rfl : base = "" := empty
    exact walk_empty d
  · exact walk_of_resolve leads

theorem enters_of_walk (callable : (Location.ofText base).Callable [name])
    (leads : d.walk true maxLinks (d.start (.ofText base)) (Location.ofText base).segments
      = .ok (.taken top .dir)) : d.Enters (.ofText base) top := by
  by_cases empty : base = ""
  · subst empty
    cases leads.symm.trans (walk_empty d)
    exact .inl ⟨rfl, rfl⟩
  · obtain ⟨printable, -, short, -⟩ := callable
    have written : ((Location.ofText base).below [name]).text = Location.appendPiece base name := rfl
    rw [written] at printable short
    have longer := Location.utf8ByteSize_appendPiece base name
    refine .inr (resolve_ok.mpr ⟨⟨fun nul => printable ?_, empty, ?_⟩, leads⟩)
    · change '\x00' ∈ base.toList at nul
      unfold Location.appendPiece
      split <;> simp [nul]
    · change base.utf8ByteSize ≤ maxPathBytes
      omega

theorem Enters.isDir (enters : d.Enters (.ofText base) top) (sound : d.Sound)
    (homed : d.look d.home = some .dir) : d.look top = some .dir := by
  rcases enters with ⟨-, rfl⟩ | leads
  · exact homed
  · exact sound.dir_of_resolve homed leads

section Entry

variable (sound : d.Sound) (homed : d.look d.home = some .dir) (named : IsName name)
include sound homed named

theorem Enters.resolve (enters : d.Enters (.ofText base) top) :
    d.resolve false (Location.ofText base / name) = .ok place ↔
      (Location.ofText base).Callable [name] ∧ place = d.placeAt (top ++ [name]) := by
  have isDir := enters.isDir sound homed
  have opened : d.Open top [name] := open_singleton isDir
  have below : Location.ofText base / name = (Location.ofText base).below [name] := rfl
  rw [below, resolve_below enters.walk isDir (by simpa using named) (by simp) opened.clear]
  simp [opened]

/-- A name that is added to a path stands for the entry of that name in the directory that the path
leads to, whatever else the disk holds. -/
theorem resolve_entry : d.resolve false (Location.ofText base / name) = .ok place ↔
    (Location.ofText base).Callable [name] ∧
      ∃ top, d.Enters (.ofText base) top ∧ place = d.placeAt (top ++ [name]) := by
  constructor
  · intro found
    obtain ⟨⟨printable, -, short⟩, walked⟩ := resolve_ok.mp found
    rw [Location.child_eq_div, Location.segments_child] at walked
    obtain ⟨top, leads⟩ := walk_of_append (by simp) walked
    have isDir := sound.dir_of_walk (isDir_start homed _) leads
    have opened : d.Open top [name] := open_singleton isDir
    obtain ⟨callable, -, same⟩ := (resolve_below leads isDir (by simpa using named) (by simp)
      opened.clear place).mp found
    exact ⟨callable, top, enters_of_walk callable leads, same⟩
  · rintro ⟨callable, top, enters, same⟩
    exact (enters.resolve sound homed named).mpr ⟨callable, same⟩

theorem resolve_written_name : d.resolve false (.written base [name]) = .ok place ↔
    d.resolve false (Location.ofText base / name) = .ok place := by
  have plain : ∀ n ∈ [name], IsName n := by simpa using named
  -- either way there is a directory in which the name is looked up
  have through : ∀ {top}, d.walk true maxLinks (d.start (.ofText base)) (Location.ofText base).segments
      = .ok (.taken top .dir) → d.resolve false (.written base [name])
        = d.resolve false (Location.ofText base / name) := by
    intro top leads
    have isDir := sound.dir_of_walk (isDir_start homed _) leads
    have opened : d.Open top [name] := open_singleton isDir
    exact resolve_written isDir leads plain (by simp) opened.clear
  constructor
  · intro found
    have walked := walk_of_resolve found
    rw [Location.written_segments (by simp) plain, start_written plain] at walked
    obtain ⟨top, leads⟩ := walk_of_append (by simp) walked
    rwa [← through (leads_of_pieces leads)]
  · intro found
    have walked := walk_of_resolve found
    rw [Location.child_eq_div, Location.segments_child] at walked
    obtain ⟨top, leads⟩ := walk_of_append (by simp) walked
    rwa [through leads]

end Entry

end Disk

namespace Path

variable {name : String}

theorem join_eq_written (base : String) (named : IsName name) :
    (Location.ofText base).join name = .written base [name] := by
  have relative : Text.startsWith name "/" = false := startsWith_of_split (split_name named) named.1
  rw [Location.join, relative]
  rfl

/-- A path whose last part is a name, right below all the parts of another path, for the program and for
every disk. -/
structure OneDown (base : String) (path : Location) (name : String) : Prop where
  parts : Path.parts path.text = Path.parts base ++ [.name name]
  last : fileName? path.text = some name
  above : ∃ above, parent? path.text = some above ∧ Path.parts above = Path.parts base
  entry : ∀ (d : Disk) (place : Place), d.Sound → d.look d.home = some .dir →
    (d.resolve false path = .ok place ↔ (Location.ofText base).Callable [name] ∧
      ∃ top, d.Enters (.ofText base) top ∧ place = d.placeAt (top ++ [name]))

theorem oneDown_join (base : String) (named : IsName name) :
    OneDown base ((Location.ofText base).join name) name := by
  have text : ((Location.ofText base).join name).text = Location.appendPiece base name := by
    rw [join_eq_written base named]
    rfl
  refine ⟨?_, ?_, ?_, fun d place sound homed => ?_⟩
  · rw [text, parts_appendPiece_name base named]
  · rw [text, fileName?, parts_appendPiece_name base named, List.getLast?_concat]
  · rw [text]
    exact parent_appendPiece base named
  · rw [join_eq_written base named, Disk.resolve_written_name sound homed named,
      Disk.resolve_entry sound homed named]

end Path

namespace CopyTree

theorem Exact.whole_of_ok {w : World} {base top : DiskPath} {ran : Except FetchError Nat × World}
    {files : Nat} (exact : Exact w base top ran) (done : ran.1 = .ok files) (q : DiskPath) :
    ran.2.disk.look (top ++ q) = w.disk.look (base ++ q) := by
  refine (exact.whole fun left polls => ?_).2 q
  by_contra few
  cases done.symm.trans (exact.part left polls (Nat.not_lt.mp few)).1

end CopyTree

namespace Mirror

open PinnedTree.Action CopyTree

variable {request : FetchRequest} {path : String} {top : DiskPath} {w : World}

theorem exec_copyTree_unreal {source target : Location} {base : DiskPath} {node : Node}
    (found : w.disk.resolve true source = .ok (.taken base .dir))
    (given : w.disk.resolve true target = .ok (.taken top .dir))
    (stands : w.disk.linkStat source = .ok node) (unreal : node ≠ .dir) :
    ∃ e w', (copyTree source target).exec w = (.error e, w') ∧ w'.disk = w.disk := by
  rw [exec_copyTree (entries_eq found stands), copyEntries_cons]
  cases tripped : w.token.isTripped with
  | true =>
    refine ⟨.cancelled, Backend.polled w, ?_, rfl⟩
    rw [exec_bind, Backend.exec_poll_tripped tripped]
  | false =>
    obtain ⟨fault, failed⟩ := copyNode_refused (w := Backend.polled w) found given stands unreal
    refine ⟨.io fault, Backend.polled w, ?_, rfl⟩
    rw [exec_bind_ok (Backend.exec_poll_passed tripped), Location.below_nil, Location.below_nil,
      exec_bind, exec_reporting, failed]
    rfl

/-- A revision that is served from a mirror's own directory: the path to its copy's source can be passed
to a call, and it is a real directory. -/
structure Stocked (d : Disk) (path revision : String) (top : DiskPath) : Prop where
  callable : (Location.ofText path).Callable [revision]
  real : d.look (top ++ [revision]) = some .dir

/-- What a mirror at a path, whose own directory is the given one, makes of a request for a revision that
it takes: a copy of the entry of that name if this is a real directory, and nothing otherwise. -/
structure ServesEntry (request : FetchRequest) (path : String) (top : DiskPath) (w : World) : Prop where
  /-- The copy is made of what is in the entry, and of nothing else. -/
  copies : Stocked w.disk path request.revision top →
    (fetch request).exec w = (copyTree (Location.ofText path / request.revision) request.staging
        >>= fun _ => pure ()).exec w ∧
      entries w.disk (Location.ofText path / request.revision)
        = .ok (([], .dir) :: objectsIn w.disk (top ++ [request.revision]))
  /-- A whole copy has what the entry has. -/
  shows : Stocked w.disk path request.revision top → ∀ bottom,
    Vacant w.disk request.staging bottom → ¬ Disk.Inside (top ++ [request.revision]) bottom →
    AllCopyable w.disk (Location.ofText path / request.revision) request.staging
      (top ++ [request.revision]) →
    ((fetch request).exec w).1 = .ok () →
    ∀ q, ((fetch request).exec w).2.disk.look (bottom ++ q)
      = w.disk.look (top ++ [request.revision] ++ q)
  /-- An entry that is no directory itself, be it a link to one, is not copied. -/
  refuses : ¬ Stocked w.disk path request.revision top →
    w.disk.leadsToDir request.staging = true →
    ((fetch request).exec w).1 ≠ .ok () ∧ ((fetch request).exec w).2.disk = w.disk

section Entry

variable (named : IsName request.revision) (sound : w.disk.Sound)
  (homed : w.disk.look w.disk.home = some .dir)
  (address : (Locator.splitFragment request.locator).1 = scheme ++ path)
include named sound homed

theorem Stocked.found (enters : w.disk.Enters (.ofText path) top)
    (stocked : Stocked w.disk path request.revision top) :
    w.disk.linkStat (Location.ofText path / request.revision) = .ok .dir ∧
      w.disk.resolve true (Location.ofText path / request.revision)
        = .ok (.taken (top ++ [request.revision]) .dir) := by
  have found := (enters.resolve sound homed named).mpr ⟨stocked.callable, rfl⟩
  rw [Disk.placeAt, stocked.real] at found
  exact ⟨Disk.linkStat_of_resolve found, Disk.resolve_followed found (by simp)⟩

include address

theorem servesEntry (enters : w.disk.Enters (.ofText path) top) :
    ServesEntry request path top w := by
  have place : directory request.locator / request.revision = Location.ofText path / request.revision := by
    rw [directory_eq address]
  have copied (stocked : Stocked w.disk path request.revision top) : (fetch request).exec w
      = (copyTree (Location.ofText path / request.revision) request.staging
        >>= fun _ => pure ()).exec w := by
    have leads := Disk.leadsToDir_iff.mpr ⟨_, (stocked.found named sound homed enters).2⟩
    rw [← place] at leads ⊢
    exact exec_fetch_found named leads
  constructor
  case copies =>
    intro stocked
    obtain ⟨stands, found⟩ := stocked.found named sound homed enters
    exact ⟨copied stocked, entries_eq found stands⟩
  case shows =>
    intro stocked bottom vacant beside each served
    obtain ⟨stands, found⟩ := stocked.found named sound homed enters
    have ready : Ready w.disk (Location.ofText path / request.revision) request.staging
        (top ++ [request.revision]) bottom := ⟨sound, homed, stands, found, vacant, beside⟩
    have exact := ready.exact each (walk_objectsIn sound _)
    rw [← exec_copyTree (entries_eq found stands)] at exact
    obtain ⟨answer, w', ran⟩ : ∃ answer w', (fetch request).exec w = (answer, w') := ⟨_, _, rfl⟩
    rw [ran] at served ⊢
    obtain rfl : answer = .ok () := served
    rw [copied stocked] at ran
    obtain ⟨files, w₁, whole, rest⟩ := exec_bind_eq_ok.mp ran
    rw [exec_pure] at rest
    cases rest
    rw [whole] at exact
    exact exact.whole_of_ok rfl
  case refuses =>
    intro unstocked given
    obtain ⟨bottom, given⟩ := Disk.leadsToDir_iff.mp given
    cases leads : w.disk.leadsToDir (Location.ofText path / request.revision) with
    | false => simp [exec_fetch_missing named (place ▸ leads)]
    | true =>
      obtain ⟨base, leadsTo⟩ := Disk.leadsToDir_iff.mp leads
      obtain ⟨q, node, held⟩ := Disk.resolve_held leadsTo
      obtain ⟨callable, same⟩ := (enters.resolve sound homed named).mp held
      -- the name stands for a link, as what stands there is no directory and yet leads to one
      have other : node ≠ .dir := by
        rintro rfl
        refine unstocked ⟨callable, ?_⟩
        unfold Disk.placeAt at same
        split at same
        · rename_i stands
          cases same
          exact stands
        · cases same
      obtain ⟨e, w', failed, disk⟩ :=
        exec_copyTree_unreal leadsTo given (Disk.linkStat_of_resolve held) other
      rw [exec_fetch_found named (place ▸ leads), exec_bind, place, failed]
      exact ⟨by simp, disk⟩

theorem exec_fetch_unentered (unentered : ∀ top, ¬ w.disk.Enters (.ofText path) top) :
    (fetch request).exec w = (.error (.revisionNotFound request.revision request.locator), w) := by
  refine exec_fetch_missing named (Bool.eq_false_iff.mpr fun leads => ?_)
  obtain ⟨base, leadsTo⟩ := Disk.leadsToDir_iff.mp leads
  obtain ⟨q, node, held⟩ := Disk.resolve_held leadsTo
  rw [directory_eq address] at held
  obtain ⟨-, top, enters, -⟩ := (Disk.resolve_entry sound homed named).mp held
  exact unentered top enters

end Entry

/-- A text is taken for a revision exactly if it is a name, and so leads one level down: joined to any
path, it is right below it, for the program and on every disk. What a mirror serves for it is the entry
of that name in its own directory, and nothing from any other level; any other text is refused before the
disk is looked at. -/
theorem isSingleName_oneLevelDown :
    (∀ text, isSingleName text = true ↔
      text ≠ "" ∧ '/' ∉ text.toList ∧ text ≠ "." ∧ text ≠ "..") ∧
    (∀ text, isSingleName text = true → ∀ base : String,
      Path.OneDown base ((Location.ofText base).join text) text) ∧
    ∀ (request : FetchRequest) (path : String) (w : World),
      w.disk.Sound → w.disk.look w.disk.home = some .dir →
      (Locator.splitFragment request.locator).1 = scheme ++ path →
      (isSingleName request.revision = false →
        (fetch request).exec w = (.error (.invalidRevision request.revision), w)) ∧
      (isSingleName request.revision = true →
        (∀ top, w.disk.Enters (.ofText path) top → ServesEntry request path top w) ∧
        ((∀ top, ¬ w.disk.Enters (.ofText path) top) → (fetch request).exec w
          = (.error (.revisionNotFound request.revision request.locator), w))) := by
  refine ⟨fun text => ?_, fun text taken base => ?_, fun request path w sound homed address => ?_⟩
  · rw [isSingleName_iff, IsName]
    tauto
  · exact Path.oneDown_join base (isSingleName_iff.mp taken)
  · constructor
    · intro refused
      exact exec_fetch_invalid fun named => by simp [isSingleName_iff.mpr named] at refused
    · intro taken
      have named := isSingleName_iff.mp taken
      exact ⟨fun top => servesEntry named sound homed address,
        exec_fetch_unentered named sound homed address⟩

theorem mirrorDisk_entry :
    Path.OneDown "m/" ((Location.ofText "m/").join "r1") "r1" ∧
    (∀ q, ((fetch mirrorRequest).exec { disk := mirrorDisk }).2.disk.look (["s"] ++ q)
      = mirrorDisk.look (["m", "r1"] ++ q)) ∧
    (fetch { mirrorRequest with revision := "r1/." }).exec { disk := mirrorDisk }
      = (.error (.invalidRevision "r1/."), { disk := mirrorDisk }) := by
  obtain ⟨-, below, serves⟩ := isSingleName_oneLevelDown
  refine ⟨below "r1" (by decide +kernel) "m/", ?_, ?_⟩
  · have served := (serves mirrorRequest "m" { disk := mirrorDisk } (by decide) rfl
      (by decide +kernel)).2 (by decide +kernel)
    exact (served.1 ["m"] (.inr (by decide +kernel))).shows ⟨by decide +kernel, rfl⟩ ["s"]
      (.empty (by decide +kernel) mirrorDisk_bare) (by decide) (by decide +kernel) mirrorDisk_ran
  · exact (serves { mirrorRequest with revision := "r1/." } "m" { disk := mirrorDisk } (by decide)
      rfl (by decide +kernel)).1 (by decide +kernel)

end Mirror

end PinnedTree
