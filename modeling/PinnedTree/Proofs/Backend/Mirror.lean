import PinnedTree.Backend.Mirror
import PinnedTree.Proofs.Backend.CopyTree
import PinnedTree.Proofs.Path.Parts

namespace PinnedTree

namespace Mirror

open PinnedTree.Action CopyTree

variable {request : FetchRequest} {path : String} {top : DiskPath} {w : World}

theorem isSingleName_iff {text : String} : isSingleName text = true ↔ IsName text := by
  rw [← Path.parts_eq_name, isSingleName]
  split
  · rename_i name single
    rw [single]
    simp [eq_comm]
  · rename_i other
    exact iff_of_false (by simp) fun single => other _ single

theorem directory_eq (address : (Locator.splitFragment request.locator).1 = scheme ++ path) :
    directory request.locator = .ofText path := by
  have drops : Text.dropStart? (scheme ++ path) scheme = some path := by
    simp [Text.dropStart?, Text.startsWith]
  rw [directory, address, drops]
  rfl

def CanCopy (d : Disk) (source target : Location) : Prop :=
  ∀ base names node, d.resolve true source = .ok (.taken base .dir) → names ≠ [] →
    d.look (base ++ names) = some node → CopyTree.Copyable source target names node

theorem exec_fetch_invalid (unnamed : ¬ IsName request.revision) :
    (fetch request).exec w = (.error (.invalidRevision request.revision), w) := by
  have refused : isSingleName request.revision = false := by
    rw [← Bool.not_eq_true, isSingleName_iff]
    exact unnamed
  unfold fetch
  rw [refused]
  rfl

theorem exec_fetch_missing (named : IsName request.revision)
    (missing : w.disk.leadsToDir (directory request.locator / request.revision) = false) :
    (fetch request).exec w
      = (.error (.revisionNotFound request.revision request.locator), w) := by
  unfold fetch
  simp only [isSingleName_iff.mpr named, Bool.not_true, Bool.false_eq_true, if_false]
  rw [exec_observe_bind, missing]
  rfl

theorem exec_fetch_found (named : IsName request.revision)
    (leads : w.disk.leadsToDir (directory request.locator / request.revision) = true) :
    (fetch request).exec w = (copyTree (directory request.locator / request.revision)
      request.staging >>= fun _ => pure ()).exec w := by
  unfold fetch
  simp only [isSingleName_iff.mpr named, Bool.not_true, Bool.false_eq_true, if_false]
  rw [exec_observe_bind, leads]
  rfl

/-- A revision is served exactly if it is a name that leads to a directory, not by a link of its own,
and all in this directory can be copied. Then the directory for the content holds the same objects at
the same paths, and nothing else has changed; what is no name or leads to no directory is refused before
anything is done. -/
theorem fetch_serves (sound : w.disk.Sound) (homed : w.disk.look w.disk.home = some .dir)
    (unasked : w.token.pollsLeft = none)
    (address : (Locator.splitFragment request.locator).1 = scheme ++ path)
    (given : w.disk.resolve true request.staging = .ok (.taken top .dir))
    (bare : ∀ q, Disk.Inside top q → w.disk.look q = none)
    (beside : ∀ base, w.disk.linkStat (Location.ofText path / request.revision) = .ok .dir →
      w.disk.resolve true (Location.ofText path / request.revision) = .ok (.taken base .dir) →
        ¬ base <+: top) :
    let source := Location.ofText path / request.revision
    let ran := (fetch request).exec w
    (ran.1 = .ok () ↔ IsName request.revision ∧ w.disk.leadsToDir source = true ∧
      w.disk.linkStat source = .ok .dir ∧ CanCopy w.disk source request.staging) ∧
    (ran.1 = .ok () → ∃ base, w.disk.resolve true source = .ok (.taken base .dir) ∧
      (∀ q, ran.2.disk.look (top ++ q) = w.disk.look (base ++ q)) ∧
      ∀ p, ¬ Disk.Inside top p → ran.2.disk.look p = w.disk.look p) ∧
    (¬ IsName request.revision → ran = (.error (.invalidRevision request.revision), w)) ∧
    (IsName request.revision → w.disk.leadsToDir source = false →
      ran = (.error (.revisionNotFound request.revision request.locator), w)) ∧
    (IsName request.revision → w.disk.leadsToDir source = true → ran.1 ≠ .ok () →
      ∃ fault, ran.1 = .error (.io fault)) := by
  intro source ran
  have place : directory request.locator / request.revision = source := by
    rw [directory_eq address]
  by_cases named : IsName request.revision
  swap
  · have invalid : ran = (.error (.invalidRevision request.revision), w) := exec_fetch_invalid named
    simp [invalid, named]
  cases leads : w.disk.leadsToDir source with
  | false =>
    have missing : ran = (.error (.revisionNotFound request.revision request.locator), w) :=
      exec_fetch_missing named (place ▸ leads)
    simp [missing, named]
  | true =>
    have found : ran = (copyTree source request.staging >>= fun _ => pure ()).exec w :=
      place ▸ exec_fetch_found named (place ▸ leads)
    obtain ⟨base, leadsTo⟩ := Disk.leadsToDir_iff.mp leads
    by_cases real : w.disk.linkStat source = .ok .dir
    · have isDir := sound.dir_of_resolve homed leadsTo
      have apart : ¬ top <+: base := by
        intro under
        by_cases same : base = top
        · exact beside base real leadsTo (same ▸ List.prefix_refl _)
        · cases isDir.symm.trans (bare base ⟨under, same⟩)
      have setting : Setting w.disk source request.staging base top :=
        ⟨⟨sound, leadsTo, isDir, given, sound.dir_of_resolve homed given, bare⟩,
          beside base real leadsTo, apart⟩
      have copies := copyTree_copies setting unasked real
      by_cases each : CanCopy w.disk source request.staging
      · obtain ⟨files, w', done, -, same, outside⟩ := copies.succeeds fun names node =>
          each base names node leadsTo
        have served : ran = (.ok (), w') := by
          rw [found, exec_bind_ok done]
          rfl
        simpa [served, named, real, each] using ⟨base, leadsTo, same, outside⟩
      · obtain ⟨e, w', failed, fault, rfl⟩ := copies.fails fun all => each (by
          rintro other names node leadsTo' inner stands
          cases leadsTo.symm.trans leadsTo'
          exact all names node inner stands)
        have refused : ran.1 = .error (.io fault) := by rw [found, exec_bind, failed]
        simp [refused, each, named]
    · obtain ⟨fault, refused⟩ := copyTree_refused unasked leadsTo given real
      have failed : ran = (.error (.io fault), w) := by rw [found, exec_bind, refused]
      simp [failed, real, named]

def mirrorRequest : FetchRequest :=
  { id := "x", locator := "file://m", revision := "r1", staging := .ofText "s", previous := none }

def linkingDisk : Disk where
  home := []
  nodes := [(["m"], .dir), (["m", "r0"], .dir), (["m", "r1"], .link "r0"), (["s"], .dir)]
  distinct := by decide

example : linkingDisk.leadsToDir (Location.ofText "m" / "r1") = true ∧
    ((fetch mirrorRequest).exec { disk := linkingDisk }).1 = .error (.io (.errno .fileExists)) := by
  decide +kernel

def mirrorDisk : Disk where
  home := []
  nodes := [(["m"], .dir), (["m", "r1"], .dir), (["m", "r1", "f"], .file ⟨#[7]⟩ 0o755), (["s"], .dir)]
  distinct := by decide

theorem mirrorDisk_bare (q : DiskPath) (inside : Disk.Inside ["s"] q) : mirrorDisk.look q = none :=
  Disk.look_of_unlisted (by decide) inside

theorem mirrorDisk_ran : ((fetch mirrorRequest).exec { disk := mirrorDisk }).1 = .ok () := by
  decide +kernel

theorem mirrorDisk_leads :
    mirrorDisk.resolve true (Location.ofText "m" / "r1") = .ok (.taken ["m", "r1"] .dir) := by
  decide +kernel

theorem mirrorDisk_serves : ((fetch mirrorRequest).exec { disk := mirrorDisk }).1 = .ok () ∧
    ∀ q, ((fetch mirrorRequest).exec { disk := mirrorDisk }).2.disk.look (["s"] ++ q)
      = mirrorDisk.look (["m", "r1"] ++ q) := by
  have beside : ∀ base, mirrorDisk.linkStat (Location.ofText "m" / "r1") = .ok .dir →
      mirrorDisk.resolve true (Location.ofText "m" / "r1") = .ok (.taken base .dir) →
        ¬ base <+: ["s"] := by
    rintro base - leads
    cases mirrorDisk_leads.symm.trans leads
    decide
  obtain ⟨-, serves, -⟩ := @fetch_serves mirrorRequest "m" ["s"] { disk := mirrorDisk } (by decide)
    rfl rfl (by decide +kernel) (by decide +kernel) mirrorDisk_bare beside
  obtain ⟨base, leads, same, -⟩ := serves mirrorDisk_ran
  cases mirrorDisk_leads.symm.trans leads
  exact ⟨mirrorDisk_ran, same⟩

end Mirror

end PinnedTree
