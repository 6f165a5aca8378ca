import Mathlib.Data.Set.Function
import PinnedTree.Proofs.Path.Parts
import PinnedTree.Proofs.Transaction.Interruption

namespace PinnedTree

namespace Transaction

variable {root : Location} {top : DiskPath} {job : Job} {destination : Destination}
  {all : List Destination} {w : World} {count : Nat}

/-- A single short part of a path, of letters, digits and two signs that are no dot. -/
structure Slotted (slot : String) : Prop where
  filled : slot ≠ ""
  single : Path.parts slot = [.name slot]
  letters : ∀ c ∈ slot.toList, c.isAlphanum = true ∨ c = '_' ∨ c = '-'
  dotless : '.' ∉ slot.toList
  short : slot.utf8ByteSize ≤ 61

theorem slotName_slotted (id : String) : Slotted (slotName id) where
  filled := (slotName_isName id).1
  single := Path.parts_eq_name.mpr (slotName_isName id)
  letters c member := isSlotChar_eq c ▸ mem_slotName member
  dotless := notMem_slotName id (by decide) (by decide) (by decide)
  short := by
    rw [utf8ByteSize_slotName]
    omega

theorem stemAndExtension_slotName (id : String) :
    Path.stemAndExtension (slotName id) = (slotName id, none) :=
  Path.stemAndExtension_dotless (slotName_slotted id).dotless

theorem stemAndExtension_journal (id : String) :
    Path.stemAndExtension (journalName (slotName id)) = (slotName id, some "json") :=
  Path.stemAndExtension_journalName (slotName_slotted id).filled

theorem slotName_ne_journal (a b : String) : slotName a ≠ journalName (slotName b) := by
  intro same
  have extensions := congrArg (fun name => (Path.stemAndExtension name).2) same
  simp [stemAndExtension_slotName, stemAndExtension_journal] at extensions

theorem slotName_eq_of_journal {a b : String}
    (same : journalName (slotName a) = journalName (slotName b)) : slotName a = slotName b := by
  have stems := congrArg (fun name => (Path.stemAndExtension name).1) same
  simpa [stemAndExtension_journal] using stems

/-- A run that was cut off at a moment when the old content of its pin stood aside. -/
structure Displaced (root : Location) (top : DiskPath) (job : Job) (destination : Destination)
    (all : List Destination) (w : World) (count : Nat) : Prop where
  clear : job.Clear root top destination all w.disk
  confined : job.backend.Confined
  straightforward : (job.site root top destination).Straightforward job w
  unnoted : w.disk.look (top ++ [stateDirectory, "backup", journalName (slotName job.pin.id)]) = none
  stood : w.disk.look (top ++ destination.names) ≠ none
  gone : (interrupted root job w count).look (top ++ destination.names) = none

theorem Displaced.aside (displaced : Displaced root top job destination all w count) :
    (job.site root top destination).Aside w.disk (Site.noteOf job) (interrupted root job w count) := by
  have ready := displaced.clear.ready
  have quiet : ¬ (job.site root top destination).Quiet w.disk (interrupted root job w count) := by
    intro quiet
    have same := quiet.old []
    rw [List.append_nil] at same
    exact displaced.stood (same.symm.trans displaced.gone)
  have filled : (interrupted root job w count).look (job.site root top destination).destination
      ≠ some .dir := by
    intro isDir
    cases isDir.symm.trans displaced.gone
  have passing := (ready.materialize displaced.clear.hosts (.of_confined rfl displaced.confined)
    displaced.straightforward).cut count
  rcases passing with early | ⟨marked, early | aside | ⟨carried, placed⟩ | ⟨carried, done⟩⟩
  · exact absurd early quiet
  · exact absurd early quiet
  · exact aside
  · exact absurd (placed.content.isDir ready placed.each marked.isDir) filled
  · exact absurd (done.content.isDir ready done.each marked.isDir) filled

theorem Displaced.noted (displaced : Displaced root top job destination all w count) :
    Recovery.readJournal (interrupted root job w count)
        (Layout.backup root / journalName (slotName job.pin.id))
      = some ⟨job.pin.id, job.destination.text⟩ := by
  have aside := displaced.aside
  obtain ⟨text, callable⟩ := aside.noted displaced.unnoted
  have journal := (job.site root top destination).journal_eq
  rw [show Layout.backup root / journalName (slotName job.pin.id) = _ from journal]
  refine Recovery.readJournal_noted ?_
  refine ((aside.straight_journal displaced.clear.ready).stat_ok aside.sound ?_ _).mpr
    ⟨callable, text⟩
  intro target link
  cases text.symm.trans link

end Transaction

namespace Recovery

open PinnedTree.Action Transaction

variable {names : List String} {ids : Set String}

def followOne (root : Location) (id : String) : Action IoFault Bool := do
  let l := Layout.backup root / journalName (slotName id)
  let restored ← match ← Action.observe (readJournal · l) with
    | some journal => putBack (Layout.backup root / slotName id) journal
    | none => pure false
  Files.removeFile l
  return restored

def followEach (root : Location) : List String → Action IoFault Nat
  | [] => return 0
  | id :: rest => do
    let restored ← followOne root id
    return (← followEach root rest) + (if restored then 1 else 0)

theorem followJournals_slot (root : Location) (id : String) (rest : List String) :
    followJournals (Layout.backup root) (slotName id :: rest)
      = followJournals (Layout.backup root) rest := by
  rw [followJournals, stemAndExtension_slotName]

theorem followJournals_journal (root : Location) (id : String) (rest : List String) :
    followJournals (Layout.backup root) (journalName (slotName id) :: rest) =
      followOne root id >>= fun restored => followJournals (Layout.backup root) rest >>= fun count =>
        pure (count + if restored then 1 else 0) := by
  rw [followJournals, stemAndExtension_journal, followOne, bind_assoc]
  refine bind_congr fun found => ?_
  cases found <;> simp

/-- Names in the room for old content: each is the slot of some id or the name of its journal. -/
def NamedFor (ids : Set String) (names : List String) : Prop :=
  ∀ name ∈ names, ∃ id ∈ ids, name = slotName id ∨ name = journalName (slotName id)

theorem followJournals_named (root : Location) (named : NamedFor ids names) :
    ∃ found : List String, (∀ id ∈ found, id ∈ ids) ∧
      found.map (fun id => journalName (slotName id))
        = names.filter (fun name => (Path.stemAndExtension name).2 = some "json") ∧
      followJournals (Layout.backup root) names = followEach root found := by
  induction names with
  | nil => exact ⟨[], by simp, rfl, rfl⟩
  | cons name rest ih =>
    obtain ⟨⟨id, listed, here⟩, others⟩ := List.forall_mem_cons.mp named
    obtain ⟨found, inside, selected, same⟩ := ih others
    rcases here with rfl | rfl
    · exact ⟨found, inside, by simp [selected, stemAndExtension_slotName],
        by rw [followJournals_slot, same]⟩
    · refine ⟨id :: found, List.forall_mem_cons.mpr ⟨listed, inside⟩,
        by simp [selected, stemAndExtension_journal], ?_⟩
      rw [followJournals_journal, same]
      rfl

/-- Whatever characters an id has, it gives a slot that is one short part of a path without a dot. So
the names for ids with slots of their own are apart, of such names in the room for old content a run
follows the journals and nothing else, from each to the slot of the same id, and this is where the old
content stands whose destination the journal tells. -/
theorem journals_pairedWithBackups :
    (∀ id, Slotted (slotName id) ∧ Path.stemAndExtension (slotName id) = (slotName id, none) ∧
      Path.stemAndExtension (journalName (slotName id)) = (slotName id, some "json")) ∧
    (∀ ids : Set String, ids.InjOn slotName →
      (∀ a ∈ ids, ∀ b ∈ ids, slotName a ≠ journalName (slotName b) ∧ (a ≠ b →
        slotName a ≠ slotName b ∧ journalName (slotName a) ≠ journalName (slotName b))) ∧
      ∀ root names, NamedFor ids names → ∃ found : List String, (∀ id ∈ found, id ∈ ids) ∧
        found.map (fun id => journalName (slotName id))
          = names.filter (fun name => (Path.stemAndExtension name).2 = some "json") ∧
        (∀ id ∈ ids, id ∈ found ↔ journalName (slotName id) ∈ names) ∧
        followJournals (Layout.backup root) names = followEach root found) ∧
    ∀ {root top job destination all w count}, Displaced root top job destination all w count →
      readJournal (interrupted root job w count)
          (Layout.backup root / journalName (slotName job.pin.id))
        = some ⟨job.pin.id, job.destination.text⟩ ∧
      ∀ r, (interrupted root job w count).look
          (top ++ [stateDirectory, "backup", slotName job.pin.id] ++ r)
        = w.disk.look (top ++ destination.names ++ r) := by
  refine ⟨fun id => ⟨slotName_slotted id, stemAndExtension_slotName id, stemAndExtension_journal id⟩,
    fun ids distinct => ⟨fun a inA b inB => ⟨slotName_ne_journal a b, fun other => ?_⟩,
      fun root names named => ?_⟩, fun displaced => ⟨displaced.noted, displaced.aside.kept⟩⟩
  · exact ⟨fun same => other (distinct inA inB same),
      fun same => other (distinct inA inB (slotName_eq_of_journal same))⟩
  · obtain ⟨found, inside, selected, same⟩ := followJournals_named root named
    refine ⟨found, inside, selected, fun id listed => ?_, same⟩
    have member : journalName (slotName id) ∈ names ↔
        journalName (slotName id) ∈ found.map (fun id => journalName (slotName id)) := by
      simp [selected, stemAndExtension_journal]
    rw [member, List.mem_map]
    constructor
    · exact fun here => ⟨id, here, rfl⟩
    · rintro ⟨other, here, journal⟩
      exact distinct (inside other here) listed (slotName_eq_of_journal journal) ▸ here

def likeIds : Set String := {"a/b", "a_b"}

theorem likeIds_distinct : likeIds.InjOn slotName := by
  have differ : slotName "a/b" ≠ slotName "a_b" := by decide +kernel
  rintro a (rfl | rfl) b (rfl | rfl) same
  · rfl
  · exact absurd same differ
  · exact absurd same.symm differ
  · rfl

def likeNames : List String := [slotName "a_b", journalName (slotName "a/b"), slotName "a/b"]

theorem likeNames_named : NamedFor likeIds likeNames := by
  intro name member
  simp only [likeNames, List.mem_cons, List.not_mem_nil, or_false] at member
  rcases member with rfl | rfl | rfl
  · exact ⟨"a_b", .inr rfl, .inl rfl⟩
  · exact ⟨"a/b", .inl rfl, .inr rfl⟩
  · exact ⟨"a/b", .inl rfl, .inl rfl⟩

theorem movingJob_displaced : Displaced (.ofText "root") ["root"] movingJob outerDestination
    [outerDestination, innerDestination] { disk := nestedDisk } 9 where
  clear := movingJob_clear
  confined := Backend.single_confined (by decide)
  straightforward := movingJob_straightforward
  unnoted := by decide +kernel
  stood := by decide +kernel
  gone := movingDisk_bare

theorem likeNames_paired :
    (∃ found : List String, "a/b" ∈ found ∧ "a_b" ∉ found ∧
      followJournals (Layout.backup (.ofText "root")) likeNames
        = followEach (.ofText "root") found) ∧
    readJournal movingDisk (Layout.backup (.ofText "root") / journalName (slotName "outer"))
      = some ⟨"outer", "root/a"⟩ := by
  obtain ⟨-, pairs, aside⟩ := journals_pairedWithBackups
  constructor
  · obtain ⟨-, follows⟩ := pairs likeIds likeIds_distinct
    obtain ⟨found, -, -, each, same⟩ := follows (.ofText "root") likeNames likeNames_named
    refine ⟨found, (each "a/b" (.inl rfl)).mpr (by simp [likeNames]), ?_, same⟩
    rw [each "a_b" (.inr rfl)]
    decide +kernel
  · exact (aside movingJob_displaced).1

end Recovery

end PinnedTree
