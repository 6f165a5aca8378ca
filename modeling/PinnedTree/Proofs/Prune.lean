import PinnedTree.Proofs.Layout
import PinnedTree.Proofs.Lists
import PinnedTree.Proofs.Plan.Decision
import PinnedTree.Prune

namespace PinnedTree.Prune

open PinnedTree.Action

variable {root : Location} {top q : DiskPath} {table : PinTable} {d e f : Disk} {w : World}
  {entries more : List PrunedEntry} {entry : PrunedEntry} {candidates : List Candidate}

theorem owns_iff {l : Location} {id : String} : owns d l id = true ↔
    ∃ marker, (d.linkStat l = .ok .dir ∧ Marker.read d l = .ok (some marker)) ∧ marker.id = id := by
  unfold owns
  simp only [← Inspection.ofPlace_marked]
  cases Inspection.ofPlace d l with
  | error fault => simp
  | ok found => cases found <;> simp

def Cleared (top : DiskPath) (entries : List PrunedEntry) (q : DiskPath) : Prop :=
  ∃ entry ∈ entries, entry.action = .removed ∧ top ++ entry.destination.names <+: q

theorem cleared_cons : Cleared top (entry :: entries) q ↔
    (entry.action = .removed ∧ top ++ entry.destination.names <+: q) ∨ Cleared top entries q := by
  simp [Cleared]

theorem Cleared.inside (cleared : Cleared top entries q) : Disk.Inside top q := by
  obtain ⟨entry, -, -, rest, rfl⟩ := cleared
  have longer : entry.destination.names ++ rest ≠ [] := by simp [entry.destination.nonempty]
  rw [List.append_assoc]
  exact Disk.inside_append.mpr longer

structure Reaped (top : DiskPath) (entries : List PrunedEntry) (d e : Disk) : Prop where
  sound : e.Sound
  home : e.home = d.home
  gone : ∀ q, Cleared top entries q → e.look q = none
  kept : ∀ q, ¬ Cleared top entries q → e.look q = d.look q

theorem Reaped.none (sound : d.Sound) : Reaped top [] d d :=
  ⟨sound, rfl, by simp [Cleared], fun _ _ => rfl⟩

theorem Reaped.part (reaped : Reaped top entries d e) : e.Part d where
  home := reaped.home
  found q node stands := by
    have spared : ¬ Cleared top entries q := fun cleared => by
      cases (reaped.gone q cleared).symm.trans stands
    exact (reaped.kept q spared).symm.trans stands

theorem Reaped.rooted (reaped : Reaped top entries d e) (rooted : d.Rooted root top) :
    e.Rooted root top :=
  rooted.congr reaped.home fun q outside => reaped.kept q fun cleared => outside cleared.inside

theorem Reaped.cons_still (reaped : Reaped top entries d e) (still : entry.action ≠ .removed) :
    Reaped top (entry :: entries) d e where
  sound := reaped.sound
  home := reaped.home
  gone q cleared := by
    rcases cleared_cons.mp cleared with ⟨removed, -⟩ | later
    · exact absurd removed still
    · exact reaped.gone q later
  kept q spared := reaped.kept q fun later => spared (cleared_cons.mpr (.inr later))

theorem Reaped.cons_removed (removed : entry.action = .removed) (home : e.home = d.home)
    (gone : ∀ q, top ++ entry.destination.names <+: q → e.look q = .none)
    (kept : ∀ q, ¬ top ++ entry.destination.names <+: q → e.look q = d.look q)
    (reaped : Reaped top entries e f) : Reaped top (entry :: entries) d f where
  sound := reaped.sound
  home := reaped.home.trans home
  gone q cleared := by
    by_cases later : Cleared top entries q
    · exact reaped.gone q later
    · rcases cleared_cons.mp cleared with ⟨-, under⟩ | cleared
      · rw [reaped.kept q later, gone q under]
      · exact absurd cleared later
  kept q spared := by
    rw [cleared_cons, not_or] at spared
    rw [reaped.kept q spared.2]
    exact kept q fun under => spared.1 ⟨removed, under⟩

/-- What an id's directory was seen to hold when it was removed, on a disk with no more on it. -/
structure Justified (root : Location) (top : DiskPath) (table : PinTable) (d : Disk)
    (entry : PrunedEntry) : Prop where
  unused : inUse table entry.destination = false
  owned : ∃ e : Disk, e.Sound ∧ e.Rooted root top ∧ e.Part d ∧
    owns e (entry.destination.place root) entry.id = true

theorem Justified.mono (justified : Justified root top table e entry) (part : e.Part d) :
    Justified root top table d entry := by
  obtain ⟨seen, sound, rooted, part', owned⟩ := justified.owned
  exact ⟨justified.unused, seen, sound, rooted, part'.trans part, owned⟩

theorem remove_ensures {id : String} {destination : Destination}
    (straight : w.disk.Straight root top destination.names) (sound : w.disk.Sound) :
    (remove root false id destination).Ensures (fun _ => True)
      (fun r e => ∀ action, r = .ok action →
        (action = .forgotten ∧ e = w.disk ∧ owns w.disk (destination.place root) id = false) ∨
        (action = .removed ∧ owns w.disk (destination.place root) id = true ∧
          (∀ q, top ++ destination.names <+: q → e.look q = none) ∧
          ∀ q, ¬ top ++ destination.names <+: q → e.look q = w.disk.look q)) w := by
  unfold remove
  dsimp only
  refine ensures_observe_bind ?_
  cases owned : owns w.disk (destination.place root) id with
  | false =>
    refine ensures_pure trivial ?_
    rintro _ ⟨⟩
    exact .inl ⟨rfl, rfl, rfl⟩
  | true =>
    have removal : (Files.removeAll (destination.place root)).Ensures (w.disk.Pruned · _) _ w :=
      Files.removeAll_ensures straight sound
    have reported := Ensures.reported (f := SyncError.state (destination.place root).text) removal
    refine reported.unwatched.bind ?_ (by simp)
    rintro ⟨⟩ w₁ ⟨pruned, gone⟩
    refine ensures_pure trivial ?_
    rintro _ ⟨⟩
    refine .inr ⟨rfl, rfl, gone rfl, fun q outside => ?_⟩
    rcases pruned q with same | ⟨under, -⟩
    · exact same
    · exact absurd under outside

def judge (root : Location) (table : PinTable) (dryRun : Bool) (id : String)
    (destination : Destination) : Action SyncError PruneAction :=
  if inUse table destination then pure .kept else remove root dryRun id destination

theorem handle_some {dryRun : Bool} {state : RunState} {id : String} {destination : Destination} :
    handle root table dryRun state (⟨id, some destination⟩ :: candidates) =
      judge root table dryRun id destination >>= fun action =>
        handle root table dryRun (if action = .kept then state else state.erase id) candidates >>=
          fun ended => pure (⟨id, destination, action⟩ :: ended.1, ended.2) := by
  rw [handle, judge]
  split <;> rfl

theorem judge_ensures {id : String} {destination : Destination}
    (straight : w.disk.Straight root top destination.names) (sound : w.disk.Sound) :
    (judge root table false id destination).Ensures (fun _ => True)
      (fun r e => ∀ action, r = .ok action → (action ≠ .removed ∧ e = w.disk ∧
          (inUse table destination = true ∨ owns w.disk (destination.place root) id = false)) ∨
        (action = .removed ∧ Justified root top table w.disk ⟨id, destination, action⟩ ∧
          (∀ q, top ++ destination.names <+: q → e.look q = none) ∧
          ∀ q, ¬ top ++ destination.names <+: q → e.look q = w.disk.look q)) w := by
  unfold judge
  cases used : inUse table destination with
  | true =>
    refine ensures_pure trivial ?_
    rintro _ ⟨⟩
    exact .inl ⟨by simp, rfl, .inl rfl⟩
  | false =>
    refine (remove_ensures straight sound).mono ?_
    intro r e holds action done
    rcases holds action done with ⟨forgotten, same, foreign⟩ | ⟨removed, owned, gone, kept⟩
    · exact .inl ⟨by simp [forgotten], same, .inr foreign⟩
    · exact .inr ⟨removed, ⟨used, _, sound, straight.rooted, .refl _, owned⟩, gone, kept⟩

theorem handle_ensures {state : RunState} (sound : w.disk.Sound) (rooted : w.disk.Rooted root top)
    (clear : ∀ candidate ∈ candidates, ∀ destination, candidate.destination = some destination →
      w.disk.Clear top destination.names) :
    (handle root table false state candidates).Ensures (fun _ => True)
      (fun r e => ∀ entries left, r = .ok (entries, left) → Reaped top entries w.disk e ∧
        ∀ entry ∈ entries, ⟨entry.id, some entry.destination⟩ ∈ candidates ∧
          (entry.action = .removed → Justified root top table w.disk entry)) w := by
  induction candidates generalizing state w with
  | nil =>
    refine ensures_pure trivial ?_
    rintro entries left ⟨⟩
    exact ⟨.none sound, by simp⟩
  | cons candidate rest ih =>
    obtain ⟨id, destination⟩ := candidate
    have clear' := fun c member => clear c (List.mem_cons_of_mem _ member)
    cases destination with
    | none =>
      refine (ih sound rooted clear').mono ?_
      intro r e holds entries left done
      obtain ⟨reaped, each⟩ := holds entries left done
      exact ⟨reaped, fun entry member =>
        ⟨List.mem_cons_of_mem _ (each entry member).1, (each entry member).2⟩⟩
    | some destination =>
      have straight : w.disk.Straight root top destination.names :=
        ⟨rooted, destination.plain, destination.nonempty,
          clear _ List.mem_cons_self destination rfl⟩
      rw [handle_some]
      refine (judge_ensures straight sound).andThen sound ?_ fun _ _ _ _ _ => by simp
      intro action w₁ sound₁ home₁ came
      have one : Reaped top [⟨id, destination, action⟩] w.disk w₁.disk := by
        rcases came action rfl with ⟨still, same, -⟩ | ⟨removed, -, gone, kept⟩
        · rw [same]
          exact (Reaped.none sound).cons_still still
        · exact .cons_removed removed home₁ gone kept (.none sound₁)
      have clear₁ : ∀ c ∈ rest, ∀ inner, c.destination = some inner →
          w₁.disk.Clear top inner.names := fun c member inner names r under other =>
        one.part.no_link (clear' c member inner names r under other)
      refine (ih sound₁ (one.rooted rooted) clear₁).bind ?_ (by simp)
      rintro ⟨entries, final⟩ w₂ holds
      obtain ⟨reaped, each⟩ := holds entries final rfl
      refine ensures_pure trivial ?_
      rintro _ _ ⟨⟩
      refine ⟨?_, ?_⟩
      · rcases came action rfl with ⟨still, same, -⟩ | ⟨removed, -, gone, kept⟩
        · rw [same] at reaped
          exact reaped.cons_still still
        · exact .cons_removed removed home₁ gone kept reaped
      · intro entry member
        rcases List.mem_cons.mp member with rfl | later
        · refine ⟨List.mem_cons_self, fun removed => ?_⟩
          rcases came action rfl with ⟨still, -⟩ | ⟨-, justified, -⟩
          · exact absurd removed still
          · exact justified
        · exact ⟨List.mem_cons_of_mem _ (each entry later).1,
            fun removed => ((each entry later).2 removed).mono one.part⟩

theorem mem_candidates_iff {state : RunState} {candidate : Candidate} :
    candidate ∈ Prune.candidates state table ↔ table.contains candidate.id = false ∧
      ∃ record, state.get? candidate.id = some record ∧
        candidate.destination = (PlacedPin.destinationOf candidate.id record.path).toOption := by
  unfold Prune.candidates
  rw [(List.mergeSort_perm _ _).mem_iff, List.mem_map]
  constructor
  · rintro ⟨⟨id, record⟩, listed, rfl⟩
    obtain ⟨recorded, absent⟩ := List.mem_filter.mp listed
    exact ⟨by simpa using absent, record, Text.lookup_of_mem state.ordered recorded, rfl⟩
  · rintro ⟨absent, record, found, placed⟩
    have recorded : (candidate.id, record) ∈ state.records := mem_of_lookup found
    exact ⟨_, List.mem_filter.mpr ⟨recorded, by simp [absent]⟩, by rw [← placed]⟩

theorem toOption_eq_some {ε α : Type} {answer : Except ε α} {a : α} :
    answer.toOption = some a ↔ answer = .ok a := by
  cases answer <;> simp [Except.toOption]

theorem mem_candidates {state : RunState} {id : String} {destination : Destination} :
    ⟨id, some destination⟩ ∈ Prune.candidates state table ↔ table.contains id = false ∧
      ∃ record, state.get? id = some record ∧
        PlacedPin.destinationOf id record.path = .ok destination := by
  simp only [mem_candidates_iff, eq_comm (a := some destination), toOption_eq_some]

theorem not_below_of_unused {destination : Destination} (unused : inUse table destination = false)
    {pin : Pin} (listed : pin ∈ table.pins) {live : Destination}
    (placed : PlacedPin.destinationOf pin.id pin.destination = .ok live) :
    ¬ destination.names <+: live.names := by
  intro below
  have member : live ∈ Prune.live table :=
    List.mem_filterMap.mpr ⟨pin, listed, by simp [placed, Except.toOption]⟩
  have used : inUse table destination = true := List.any_eq_true.mpr
    ⟨live, member, by simpa [Destination.within] using below⟩
  rw [unused] at used
  cases used

/-- A disk on which no link leads away from the destinations that are recorded under ids that have
left the table, and the program's own files are no links. -/
structure Plain (root : Location) (top : DiskPath) (table : PinTable) (d : Disk) : Prop where
  sited : Layout.Sited root top d
  clear : ∀ state, RunState.load d root = .ok state → ∀ candidate ∈ Prune.candidates state table,
    ∀ destination, candidate.destination = some destination → d.Clear top destination.names

theorem of_all_candidates {holds : Destination → Bool}
    (checked : (RunState.load d root).toOption.all (fun state =>
      (Prune.candidates state table).all fun candidate => candidate.destination.all holds) = true) :
    ∀ state, RunState.load d root = .ok state → ∀ candidate ∈ Prune.candidates state table,
      ∀ destination, candidate.destination = some destination → holds destination = true := by
  intro state loaded candidate member destination placed
  rw [loaded] at checked
  have each := List.all_eq_true.mp checked candidate member
  rwa [placed] at each

theorem Plain.of_check (sited : Layout.Sited root top d)
    (checked : (RunState.load d root).toOption.all (fun state =>
      (Prune.candidates state table).all fun candidate =>
        candidate.destination.all fun destination => decide (d.Clear top destination.names)) = true) :
    Plain root top table d where
  sited := sited
  clear state loaded candidate member destination placed :=
    of_decide_eq_true (of_all_candidates checked state loaded candidate member destination placed)

/-- What a run that ends with a report has done: it took the lock, removed what it reports as
removed, and wrote the record. -/
inductive Concluded (root : Location) (top : DiskPath) (table : PinTable) (d : Disk)
    (report : PruneReport) (e : Disk) : Prop
  | intro {state : RunState} {locked pruned : Disk} (loaded : RunState.load d root = .ok state)
    (prepared : Layout.Prepared top d locked) (reaped : Reaped top report.entries locked pruned)
    (saved : Layout.Housed top pruned e)
    (listed : ∀ entry ∈ report.entries,
      ⟨entry.id, some entry.destination⟩ ∈ Prune.candidates state table)
    (justified : ∀ entry ∈ report.entries, entry.action = .removed →
      Justified root top table locked entry)

theorem Plain.load_locked (plain : Plain root top table d) (prepared : Layout.Prepared top d e) :
    RunState.load e root = RunState.load d root := prepared.load plain.sited

theorem run_ensures (plain : Plain root top table d) (prepared : Layout.Prepared top d w.disk) :
    (run root table false).Ensures (fun _ => True)
      (fun r e => ∀ report, r = .ok report → Concluded root top table d report e) w := by
  unfold run
  have asked : (query (RunState.load · root)).Ensures (fun _ => True)
      (fun r e => r = RunState.load w.disk root ∧ e = w.disk) w := ensures_query trivial ⟨rfl, rfl⟩
  refine asked.bind ?_ (by simp)
  rintro state w₁ ⟨loaded, same⟩
  rw [plain.load_locked prepared] at loaded
  have clear : ∀ candidate ∈ Prune.candidates state table, ∀ destination,
      candidate.destination = some destination → w₁.disk.Clear top destination.names := by
    intro candidate member destination names r under other
    rw [same]
    exact prepared.no_link
      (plain.clear state loaded.symm candidate member destination names r under other)
  have sited := prepared.sited plain.sited
  rw [← same] at sited prepared
  refine (handle_ensures sited.sound sited.rooted clear).bind ?_ (by simp)
  rintro ⟨entries, left⟩ w₂ handled
  obtain ⟨reaped, each⟩ := handled entries left rfl
  have spared : Layout.Sited root top w₂.disk :=
    ⟨reaped.sound, reaped.rooted sited.rooted, reaped.part.no_link sited.directory,
      reaped.part.no_link sited.lock, reaped.part.no_link sited.record⟩
  refine (Layout.save_ensures spared left).unwatched.bind ?_ (by simp)
  rintro ⟨⟩ w₃ ⟨housed, -⟩
  refine ensures_pure trivial ?_
  rintro _ ⟨⟩
  exact .intro loaded.symm prepared reaped housed (fun entry member => (each entry member).1)
    fun entry member => (each entry member).2

theorem prune_ensures (plain : Plain root top table w.disk) :
    (prune root table false).Ensures (fun _ => True)
      (fun r e => ∀ report, r = .ok report → Concluded root top table w.disk report e) w := by
  unfold prune
  rw [if_neg (by simp)]
  have locked := (Layout.lock_ensures plain.sited).unwatched
  refine Layout.whileLocked_ensures (locked.mono fun r e holds _ => holds.1) plain.sited.sound ?_
  intro w₁ _ _ prepared
  exact run_ensures plain prepared

end PinnedTree.Prune
