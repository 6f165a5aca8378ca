import PinnedTree.Proofs.Path.Nested
import PinnedTree.Proofs.Plan.Build
import PinnedTree.Proofs.Recovery
import PinnedTree.Proofs.Sync.Visits

namespace PinnedTree.Sync

open Transaction

/-- A disk under whose root a run can work: no link stands where state is kept or on the way to a
destination, and nothing is left of earlier work but old files. -/
structure Grounds (root : Location) (top : DiskPath) (all : List Destination) (d : Disk) :
    Prop where
  sound : d.Sound
  rooted : d.Rooted root top
  clear : ∀ destination ∈ all, d.Clear top destination.names
  own : ∀ names ∈ [[stateDirectory], [stateDirectory, "staging"], [stateDirectory, "backup"],
    [stateDirectory, "lock"], [stateDirectory, "state.toml"]],
    ∀ target, d.look (top ++ names) ≠ some (.link target)
  staging : ∀ q, Disk.Inside (top ++ [stateDirectory, "staging"]) q → d.look q = none
  backup : ∀ name, d.look (top ++ [stateDirectory, "backup", name]) ≠ none →
    '.' ∉ name.toList ∧ ∃ c m, d.look (top ++ [stateDirectory, "backup", name]) = some (.file c m)

theorem Grounds.of_listing {root : Location} {top : DiskPath} {all : List Destination} {d : Disk}
    (sound : d.Sound) (rooted : d.Rooted root top)
    (clear : ∀ destination ∈ all, d.Clear top destination.names)
    (own : ∀ names ∈ [[stateDirectory], [stateDirectory, "staging"], [stateDirectory, "backup"],
      [stateDirectory, "lock"], [stateDirectory, "state.toml"]], d.linkless (top ++ names) = true)
    (rooms : ∀ room ∈ ["staging", "backup"], ∀ entry ∈ d.nodes,
      ¬ Disk.Inside (top ++ [stateDirectory, room]) entry.1) : Grounds root top all d where
  sound := sound
  rooted := rooted
  clear := clear
  own names listed := Disk.linkless_iff.mp (own names listed)
  staging q inside := Disk.look_of_unlisted (rooms "staging" (by simp)) inside
  backup name stands := absurd (Disk.look_of_unlisted (rooms "backup" (by simp))
    (by simp [Disk.Inside, List.prefix_append_right_inj])) stands

/-- What the backends of a run do when they are asked: they leave nothing changed beside the directory
that they are given, and put nothing together that has a link on the way to a destination or in its
place. -/
structure Supplied (root : Location) (top : DiskPath) (all : List Destination)
    (visits : List Visit) : Prop where
  tidy : ∀ visit ∈ visits, visit.Tidy root top
  plain : ∀ visit ∈ visits, ∀ new ∈ visit.brought root top, ∀ inner ∈ all, ∀ rest,
    inner.names = visit.pin.destination.names ++ rest → rest ≠ [] →
    ∀ r, r <+: rest → ∀ target, new r ≠ some (.link target)

/-- A root with the directory it leads to, the pins of a table, those that a run is about, and the new
content that is put together for each of them. -/
structure Terrain where
  root : Location
  top : DiskPath
  placed : List PlacedPin
  pins : List PlannedPin
  stock : PlannedPin → (DiskPath → Option Node) → Prop

namespace Terrain

variable {t : Terrain} {d e : Disk} {p : PlannedPin}

def all (t : Terrain) : List Destination := t.placed.map (·.destination)

def site (t : Terrain) (p : PlannedPin) : Site := siteOf t.root t.top p

/-- The pins that a run is about are pins of the table with the destinations nested in theirs. -/
structure Surveyed (t : Terrain) : Prop where
  listed : ∀ p ∈ t.pins, p.toPlacedPin ∈ t.placed
  nested : ∀ p ∈ t.pins, p.nested = p.destination.nestedIn t.all

structure Orderly (t : Terrain) (d : Disk) : Prop extends Grounds t.root t.top t.all d where
  plain : ∀ p ∈ t.pins, ∀ target, d.look (t.top ++ p.destination.names) ≠ some (.link target)

def chosen (t : Terrain) : List PlacedPin := t.pins.map (·.toPlacedPin)

theorem Orderly.idle (orderly : t.Orderly d) (p : PlannedPin) : (t.site p).Idle d :=
  ⟨orderly.staging, orderly.backup⟩

theorem Surveyed.destination_mem (surveyed : t.Surveyed) (member : p ∈ t.pins) :
    p.destination ∈ t.all := List.mem_map_of_mem (surveyed.listed p member)

theorem Orderly.unstaged (orderly : t.Orderly d) (p : PlannedPin) :
    d.look (t.site p).staged = none := (orderly.idle p).staging _ (t.site p).workshop_staged

theorem Orderly.ready (orderly : t.Orderly d) (surveyed : t.Surveyed) (member : p ∈ t.pins) :
    (t.site p).Ready d where
  sound := orderly.sound
  rooted := orderly.rooted
  slotted := slotName_isName _
  inner := p.destination.nonempty
  plain := p.destination.plain
  unreserved := p.destination.unreserved
  nestedInner c within := (Destination.mem_nestedIn (surveyed.nested p member ▸ within :
    c ∈ p.destination.nestedIn t.all)).1
  nestedPlain c within := Destination.nestedIn_plain (surveyed.nested p member ▸ within :
    c ∈ p.destination.nestedIn t.all)
  nestedOnce := by
    have once := Destination.nestedIn_nodup p.destination t.all
    rwa [← surveyed.nested p member] at once
  nestedApart a memberA b memberB other :=
    Destination.nestedIn_ne (surveyed.nested p member ▸ memberA : a ∈ p.destination.nestedIn t.all)
      (surveyed.nested p member ▸ memberB : b ∈ p.destination.nestedIn t.all) other
  clear := orderly.clear _ (surveyed.destination_mem member)
  nestedClear c within := by
    obtain ⟨-, inner, listed, names⟩ := Destination.mem_nestedIn
      (surveyed.nested p member ▸ within : c ∈ p.destination.nestedIn t.all)
    exact names ▸ orderly.clear inner listed
  own := by
    have own := orderly.own
    have staged : d.look (t.top ++ (t.site p).stagingNames) = none := orderly.unstaged p
    have journal : d.look (t.top ++ (t.site p).journalNames) = none := (orderly.idle p).journal
    simp only [List.forall_mem_cons] at own ⊢
    have free : ∀ q, d.look q = none → ∀ target, d.look q ≠ some (.link target) := by
      intro q none
      simp [none]
    exact ⟨own.1, own.2.1, own.2.2.1, free _ staged, free _ journal, by simp⟩

/-- New content of a pin has no link on the way to a destination inside it or in its place. -/
def Avoids (t : Terrain) (p : PlannedPin) (inner : Destination) : Prop :=
  ∀ new, t.stock p new → ∀ rest, inner.names = p.destination.names ++ rest → rest ≠ [] →
    ∀ r, r <+: rest → ∀ target, new r ≠ some (.link target)

def Unlinked (t : Terrain) : Prop := ∀ p ∈ t.pins, ∀ inner ∈ t.all, t.Avoids p inner

/-- If new content is put together for a pin in a world, that happens as it should, and the content is
among what is known. -/
def Served (t : Terrain) (adopt : Bool) (p : PlannedPin) (w : World) : Prop :=
  ∀ w' ∈ working t.root adopt p w, (t.site p).Admits (jobOf t.root p) w' ∧
    (((t.site p).stagingRun (jobOf t.root p) w').1 = .ok () →
      t.stock p ((t.site p).stagedTree (jobOf t.root p) w'))

theorem site_hosts (t : Terrain) (p : PlannedPin) : (t.site p).Hosts (jobOf t.root p) where
  slot := rfl
  destination := rfl
  nested := rfl

theorem straightforward {w : World} (unlinked : t.Unlinked) (surveyed : t.Surveyed)
    (member : p ∈ t.pins) (known : ((t.site p).stagingRun (jobOf t.root p) w).1 = .ok () →
      t.stock p ((t.site p).stagedTree (jobOf t.root p) w)) :
    (t.site p).Straightforward (jobOf t.root p) w := by
  intro staged c within r under _ target
  obtain ⟨filled, inner, listed, whole⟩ := Destination.mem_nestedIn
    (surveyed.nested p member ▸ within : c ∈ p.destination.nestedIn t.all)
  exact unlinked p member inner listed _ (known staged) c whole filled r under target

end Terrain

end PinnedTree.Sync
