import PinnedTree.Proofs.Backend.CopyTree
import PinnedTree.Proofs.Disk.Renewal
import PinnedTree.Proofs.Disk.Written

namespace PinnedTree

namespace CancelToken

variable {token : CancelToken} {polls : Nat}

def passes (token : CancelToken) (polls : Nat) : Nat :=
  match token.pollsLeft with
  | none => polls
  | some left => min left polls

theorem passes_of_tripped (tripped : token.isTripped = true) : token.passes polls = 0 := by
  have none_left : token.pollsLeft = some 0 := by simpa [isTripped] using tripped
  simp [passes, none_left]

theorem passes_succ (going : token.isTripped = false) :
    token.passes (polls + 1) = token.afterPoll.passes polls + 1 := by
  obtain ⟨_ | left⟩ := token
  · rfl
  · have filled : left ≠ 0 := by simpa [isTripped] using going
    simp only [passes, afterPoll, Option.map_some]
    omega

theorem passes_eq_self : token.passes polls = polls ↔
    ∀ left, token.pollsLeft = some left → polls ≤ left := by
  obtain ⟨_ | left⟩ := token
  · simp [passes]
  · simp only [passes, Option.some.injEq, forall_eq']
    omega

end CancelToken

namespace Backend

open PinnedTree.Action

variable {w : World}

abbrev polled (w : World) : World := { w with token := w.token.afterPoll }

theorem exec_poll_tripped (tripped : w.token.isTripped = true) :
    poll.exec w = (.error .cancelled, polled w) := by
  have asked : (isCancelled : Action FetchError Bool).exec w = (.ok w.token.isTripped, polled w) := rfl
  rw [poll, exec_bind_ok asked, tripped]
  rfl

theorem exec_poll_passed (going : w.token.isTripped = false) :
    poll.exec w = (.ok (), polled w) := by
  have asked : (isCancelled : Action FetchError Bool).exec w = (.ok w.token.isTripped, polled w) := rfl
  rw [poll, exec_bind_ok asked, going]
  rfl

end Backend

namespace CopyTree

open PinnedTree.Action Backend

variable {d e : Disk} {source target : Location} {base top : DiskPath} {done : List (List String)}
  {objects : List (List String × Node)} {w : World}

def answer (token : CancelToken) (objects : List (List String × Node)) : Except FetchError Nat :=
  if token.passes objects.length = objects.length then .ok (filesAmong objects) else .error .cancelled

def reached (token : CancelToken) (objects : List (List String × Node)) : List (List String) :=
  ((objects.take (token.passes objects.length)).map (·.1)).reverse

theorem answer_cons {token : CancelToken} (going : token.isTripped = false) (names : List String)
    (node : Node) : answer token ((names, node) :: objects)
      = (answer token.afterPoll objects).map fun files =>
          match node with | .file _ _ => files + 1 | _ => files := by
  simp only [answer, List.length_cons, CancelToken.passes_succ going, Nat.add_right_cancel_iff,
    filesAmong_cons]
  split <;> rfl

theorem reached_cons {token : CancelToken} (going : token.isTripped = false)
    (entry : List String × Node) :
    reached token (entry :: objects) = reached token.afterPoll objects ++ [entry.1] := by
  simp [reached, CancelToken.passes_succ going]

theorem exec_copyEntries (setting : objects ≠ [] → Setting d source target base top)
    (copied : Copied d base top done w.disk) (ordered : Ordered d base done objects)
    (each : ∀ entry ∈ objects, Copyable source target entry.1 entry.2) :
    ∃ w', (copyEntries source target objects).exec w = (answer w.token objects, w') ∧
      Copied d base top (reached w.token objects ++ done) w'.disk := by
  induction objects generalizing done w with
  | nil =>
    refine ⟨w, ?_, by simpa [reached] using copied⟩
    have all : w.token.passes 0 = 0 := by simp [CancelToken.passes_eq_self]
    simp only [answer, List.length_nil, all, if_true]
    rfl
  | cons entry rest ih =>
    obtain ⟨names, node⟩ := entry
    have setting := setting (List.cons_ne_nil _ _)
    obtain ⟨due, later⟩ := ordered
    obtain ⟨⟨readable, callable, fair⟩, each⟩ := List.forall_mem_cons.mp each
    rw [copyEntries_cons]
    cases tripped : w.token.isTripped with
    | true =>
      refine ⟨polled w, ?_, by simpa [reached, CancelToken.passes_of_tripped tripped] using copied⟩
      rw [exec_bind, exec_poll_tripped tripped]
      simp [answer, CancelToken.passes_of_tripped tripped]
    | false =>
      -- a poll changes nothing on the disk
      have copied' : Copied d base top done (polled w).disk := copied
      obtain ⟨⟨⟩, w₁, made, copied₁, token⟩ := (copyNode_copies setting.toGround copied' due).succeeds
        ⟨callable, fair, fun _ => readable⟩
      obtain ⟨w₂, ran, copied₂⟩ := ih (fun _ => setting) copied₁ later each
      rw [token] at ran copied₂
      refine ⟨w₂, ?_, by simpa [reached_cons tripped] using copied₂⟩
      rw [exec_bind_ok (exec_poll_passed tripped), exec_bind_ok (exec_reporting_ok made),
        exec_bind_ok (exec_enter setting.toGround copied₁ due.inner due.stands fun _ => readable), exec_bind,
        ran, answer_cons tripped]
      cases answer w.token.afterPoll rest <;> rfl

theorem Ordered.mono (ordered : Ordered d base done objects)
    (kept : ∀ p node, d.look p = some node → e.look p = some node) : Ordered e base done objects := by
  induction objects generalizing done with
  | nil => trivial
  | cons entry rest ih =>
    obtain ⟨⟨inner, new, stands, above⟩, later⟩ := ordered
    exact ⟨⟨inner, new, kept _ _ stands, above⟩, ih later⟩

/-- All objects inside a directory, in an order in which each comes after those that hold it. -/
structure Walk (d : Disk) (base : DiskPath) (objects : List (List String × Node)) : Prop where
  all : objects.Perm (objectsIn d base)
  ordered : Ordered d base [] objects

theorem walk_objectsIn (sound : d.Sound) (base : DiskPath) : Walk d base (objectsIn d base) :=
  ⟨.refl _, objectsIn_ordered sound base⟩

theorem Walk.mem (walk : Walk d base objects) {names : List String} {node : Node} :
    (names, node) ∈ objects ↔ names ≠ [] ∧ d.look (base ++ names) = some node :=
  walk.all.mem_iff.trans mem_objectsIn

structure Untaken (d : Disk) (root : Location) (above : DiskPath) (names : List String) : Prop where
  leads : d.walk true maxLinks (d.start root) root.segments = .ok (.taken above .dir)
  isDir : d.look above = some .dir
  plain : ∀ name ∈ names, IsName name
  callable : root.Callable names
  absent : ∃ first rest, names = first :: rest ∧ d.look (above ++ [first]) = none

/-- A place for a copy: a directory without content, or a path below a directory, with its last names
added to it or written in it, on which nothing stands yet. -/
inductive Vacant (d : Disk) : Location → DiskPath → Prop
  | empty {target : Location} {top : DiskPath} (given : d.resolve true target = .ok (.taken top .dir))
      (bare : ∀ q, Disk.Inside top q → d.look q = none) : Vacant d target top
  | added {root : Location} {above : DiskPath} {names : List String}
      (untaken : Untaken d root above names) : Vacant d (root.below names) (above ++ names)
  | written {path : String} {above : DiskPath} {names : List String}
      (untaken : Untaken d (.ofText path) above names) :
      Vacant d (.written path names) (above ++ names)

structure Begun (d e : Disk) (target : Location) (top : DiskPath) : Prop where
  sound : e.Sound
  part : d.Part e
  built : d.Built e top
  given : e.resolve true target = .ok (.taken top .dir)
  isTop : e.look top = some .dir
  bare : ∀ q, Disk.Inside top q → e.look q = none

theorem Begun.nothing_copied (begun : Begun d e target top) (base : DiskPath) :
    Copied e base top [] e where
  sound := begun.sound
  home := rfl
  outside _ _ := rfl
  same _ member := absurd member List.not_mem_nil
  free _ inner _ := begun.bare _ (Disk.inside_append.mpr inner)

section Untaken

variable {root : Location} {above : DiskPath} {names : List String}

theorem Untaken.inner (untaken : Untaken d root above names) : names ≠ [] := by
  obtain ⟨first, rest, rfl, -⟩ := untaken.absent
  exact List.cons_ne_nil _ _

theorem Untaken.free (untaken : Untaken d root above names) (sound : d.Sound) {r : List String}
    (under : r <+: names) (filled : r ≠ []) : d.look (above ++ r) = none := by
  obtain ⟨first, rest, rfl, absent⟩ := untaken.absent
  obtain ⟨name, onward, rfl⟩ := List.exists_cons_of_ne_nil filled
  obtain ⟨rfl, -⟩ := List.cons_prefix_cons.mp under
  have below : d.look (above ++ [name] ++ onward) = none := sound.none_below absent
  simpa using below

theorem Untaken.bare (untaken : Untaken d root above names) (sound : d.Sound) (more : List String) :
    d.look (above ++ names ++ more) = none :=
  sound.none_below (untaken.free sound (List.prefix_refl names) untaken.inner)

theorem Untaken.begun (untaken : Untaken w.disk root above names) (sound : w.disk.Sound) {w' : World}
    (grown : Files.Grown w w' (above ++ names))
    (found : w'.disk.resolve false target = .ok (.taken (above ++ names) .dir)) :
    Begun w.disk w'.disk target (above ++ names) where
  sound := grown.sound
  part := ⟨grown.home.symm, fun _ _ => grown.built.stands⟩
  built := grown.built
  given := Disk.resolve_followed found (by simp)
  isTop := grown.isDir
  bare q inside := by
    rw [grown.built.away inside.not_under]
    obtain ⟨⟨more, rfl⟩, -⟩ := inside
    exact untaken.bare sound more

end Untaken

theorem Vacant.begins (vacant : Vacant w.disk target top) (sound : w.disk.Sound)
    (homed : w.disk.look w.disk.home = some .dir) :
    ∃ w', (Files.makeDirs target).exec w = (.ok (), w') ∧ Begun w.disk w'.disk target top ∧
      w'.token = w.token := by
  cases vacant with
  | empty given bare =>
    exact ⟨w, Files.exec_makeDirs (Disk.leadsToDir_iff.mpr ⟨top, given⟩),
      ⟨sound, .refl _, .refl _ _, given, sound.dir_of_resolve homed given, bare⟩, rfl⟩
  | added untaken =>
    have ⟨leads, isDir, plain, callable, _⟩ := untaken
    obtain ⟨w', made, grown⟩ := Files.makeDirs_grows sound isDir leads plain untaken.inner callable
      fun r under filled => .inl (untaken.free sound under filled)
    exact ⟨w', made, untaken.begun sound grown (grown.resolve isDir leads plain untaken.inner callable),
      grown.token⟩
  | written untaken =>
    have ⟨leads, isDir, plain, callable, _⟩ := untaken
    obtain ⟨w', made, grown⟩ := Files.makeDirs_written sound isDir leads plain untaken.inner callable
      (untaken.free sound (List.prefix_refl _) untaken.inner)
      fun r under filled => .inl (untaken.free sound under filled)
    have found := Disk.resolve_written (grown.built.stands isDir) (grown.leads leads) plain
      untaken.inner grown.opened.clear
    exact ⟨w', made, untaken.begun sound grown
      (found.trans (grown.resolve isDir leads plain untaken.inner callable)), grown.token⟩

theorem Vacant.bare (vacant : Vacant d target top) (sound : d.Sound) {p : DiskPath}
    (inside : Disk.Inside top p) : d.look p = none := by
  cases vacant with
  | empty given bare => exact bare p inside
  | added untaken | written untaken =>
    obtain ⟨⟨more, rfl⟩, -⟩ := inside
    exact untaken.bare sound _

/-- What is left of a copy that has come to some of the objects: these are the same as in the source,
and around them there is nothing new but directories on the way. -/
structure Left (d : Disk) (base top : DiskPath) (done : List (List String)) (e : Disk) : Prop where
  same : ∀ q ∈ done, e.look (top ++ q) = d.look (base ++ q)
  free : ∀ q, q ≠ [] → q ∉ done → e.look (top ++ q) = none
  outside : ∀ p, ¬ Disk.Inside top p → e.look p = d.look p ∨
    (d.look p = none ∧ e.look p = some .dir ∧ p <+: top)

def AllCopyable (d : Disk) (source target : Location) (base : DiskPath) : Prop :=
  ∀ names node, names ≠ [] → d.look (base ++ names) = some node → Copyable source target names node

theorem allCopyable_iff : AllCopyable d source target base ↔
    ∀ entry ∈ d.inside base, Copyable source target (entry.1.drop base.length) entry.2 := by
  constructor
  · rintro each ⟨p, node⟩ member
    obtain ⟨listed, ⟨names, rfl⟩, other⟩ := Disk.mem_inside.mp member
    have inner : names ≠ [] := by simpa using other
    rw [List.drop_left]
    exact each names node inner ((Disk.look_eq_some_iff (by simp [inner])).mpr listed)
  · intro each names node inner stands
    have listed := (Disk.look_eq_some_iff (by simp [inner])).mp stands
    have copyable := each (base ++ names, node)
      (Disk.mem_inside.mpr ⟨listed, List.prefix_append _ _, by simp [inner]⟩)
    rwa [List.drop_left] at copyable

instance (d : Disk) (source target : Location) (base : DiskPath) :
    Decidable (AllCopyable d source target base) := decidable_of_iff _ allCopyable_iff.symm

structure Ready (d : Disk) (source target : Location) (base top : DiskPath) : Prop where
  sound : d.Sound
  homed : d.look d.home = some .dir
  real : d.linkStat source = .ok .dir
  found : d.resolve true source = .ok (.taken base .dir)
  vacant : Vacant d target top
  beside : ¬ Disk.Inside base top

namespace Ready

theorem isDir (ready : Ready d source target base top) : d.look base = some .dir :=
  ready.sound.dir_of_resolve ready.homed ready.found

theorem not_inside (ready : Ready d source target base top) : ¬ Disk.Inside top base :=
  fun inside => by cases ready.isDir.symm.trans (ready.vacant.bare ready.sound inside)

theorem same_or_apart (ready : Ready d source target base top) : base = top ∨ Disk.Apart base top := by
  -- an empty directory may be given as its own copy
  by_cases same : base = top
  · exact .inl same
  · exact .inr ⟨fun under => ready.beside ⟨under, Ne.symm same⟩,
      fun under => ready.not_inside ⟨under, same⟩⟩

theorem apart (ready : Ready d source target base top) {names : List String} {node : Node}
    (inner : names ≠ []) (stands : d.look (base ++ names) = some node) : Disk.Apart base top := by
  rcases ready.same_or_apart with rfl | apart
  · have gone := ready.vacant.bare ready.sound (Disk.inside_append.mpr inner)
    cases gone.symm.trans stands
  · exact apart

theorem setting (ready : Ready d source target base top) (begun : Begun d e target top)
    (walk : Walk d base objects) (filled : objects ≠ []) : Setting e source target base top := by
  obtain ⟨⟨names, node⟩, member⟩ := List.exists_mem_of_ne_nil objects filled
  obtain ⟨inner, stands⟩ := walk.mem.mp member
  exact ⟨⟨begun.sound, begun.part.resolve ready.found, begun.part.found _ _ ready.isDir, begun.given,
    begun.isTop, begun.bare⟩, ready.apart inner stands⟩

theorem begins (ready : Ready w.disk source target base top) (going : w.token.isTripped = false) :
    ∃ w₁, (∀ objects, (copyEntries source target (([], .dir) :: objects)).exec w
        = (copyEntries source target objects).exec w₁) ∧
      Begun w.disk w₁.disk target top ∧ w₁.token = w.token.afterPoll := by
  obtain ⟨w₁, made, begun, token⟩ :=
    Vacant.begins (w := polled w) ready.vacant ready.sound ready.homed
  have rooted : (copyNode (source.below []) (target.below []) .dir).exec (polled w)
      = (.ok (), w₁) := by
    rw [Location.below_nil target]
    exact made
  have listed : w₁.disk.list source = .ok (w₁.disk.namesIn base) := by
    simp [Disk.list, begun.part.resolve ready.found, bind, Except.bind, pure, Except.pure]
  have entered : (enter (source.below []) .dir).exec w₁ = (.ok (), w₁) := by
    rw [Location.below_nil, enter, exec_observe_bind, listed]
    rfl
  refine ⟨w₁, fun objects => ?_, begun, token⟩
  rw [copyEntries_cons, exec_bind_ok (exec_poll_passed going),
    exec_bind_ok (exec_reporting_ok rooted), exec_bind_ok entered, exec_bind]
  split <;> simp [*, exec_pure]

theorem exec_copyEntries (ready : Ready w.disk source target base top)
    (each : AllCopyable w.disk source target base) (walk : Walk w.disk base objects) :
    ∃ w', (copyEntries source target (([], .dir) :: objects)).exec w
        = (answer w.token (([], .dir) :: objects), w') ∧
      Left w.disk base top (reached w.token (([], .dir) :: objects)) w'.disk := by
  cases tripped : w.token.isTripped with
  | true =>
    refine ⟨polled w, ?_, ?_, fun q inner _ => ?_, fun _ _ => .inl rfl⟩
    · rw [copyEntries_cons, exec_bind, exec_poll_tripped tripped]
      simp [answer, CancelToken.passes_of_tripped tripped]
    · simp [reached, CancelToken.passes_of_tripped tripped]
    · exact ready.vacant.bare ready.sound (Disk.inside_append.mpr inner)
  | false =>
    obtain ⟨w₁, goes, begun, token⟩ := ready.begins tripped
    obtain ⟨w₂, ran, copied⟩ := CopyTree.exec_copyEntries (ready.setting begun walk)
      (begun.nothing_copied base) (walk.ordered.mono begun.part.found)
      fun entry member => each _ _ (walk.mem.mp member).1 (walk.mem.mp member).2
    rw [token] at ran copied
    rw [List.append_nil] at copied
    refine ⟨w₂, ?_, ?_, ?_, ?_⟩
    · rw [goes, ran, answer_cons tripped]
      cases answer w.token.afterPoll objects <;> rfl
    · intro q member
      rw [reached_cons tripped, List.mem_append, List.mem_singleton] at member
      rcases member with member | rfl
      · -- what stood in the source stands there still when the copy has its directory
        rw [copied.same q member]
        obtain ⟨⟨names, node⟩, taken, rfl⟩ := List.mem_map.mp (List.mem_reverse.mp member)
        have stands := (walk.mem.mp (List.mem_of_mem_take taken)).2
        rw [stands, begun.part.found _ _ stands]
      · rw [List.append_nil, List.append_nil, copied.outside top fun inside => inside.2 rfl,
          begun.isTop, ready.isDir]
    · intro q inner new
      refine copied.free q inner fun member => new ?_
      rw [reached_cons tripped]
      exact List.mem_append_left _ member
    · intro p outside
      rw [copied.outside p outside]
      exact begun.built p

theorem exec_fails (ready : Ready w.disk source target base top) (unasked : Unasked w)
    (unfit : ¬ AllCopyable w.disk source target base) :
    ∃ fault, ((copyTree source target).exec w).1 = .error (.io fault) := by
  have walk := walk_objectsIn ready.sound base
  have never : w.token.pollsLeft = none := unasked
  obtain ⟨w₁, goes, begun, token⟩ := ready.begins (by simp [CancelToken.isTripped, never])
  have filled : objectsIn w.disk base ≠ [] := by
    intro nothing
    refine unfit fun names node inner stands => ?_
    have member := mem_objectsIn.mpr ⟨inner, stands⟩
    rw [nothing] at member
    cases member
  have still : Unasked w₁ := by simp [Unasked, token, CancelToken.afterPoll, never]
  obtain ⟨_, w₂, ran, fault, rfl⟩ := (copyEntries_copies (ready.setting begun walk filled).toGround
    (begun.nothing_copied base) still (walk.ordered.mono begun.part.found)).fails fun all =>
      unfit fun names node inner stands => all _ (mem_objectsIn.mpr ⟨inner, stands⟩)
  refine ⟨fault, ?_⟩
  rw [exec_copyTree (entries_eq ready.found ready.real), goes, ran]

variable (ready : Ready d source target base top)
include ready

theorem top_clear : d.look top = none ∨ d.look top = some .dir := by
  cases ready.vacant with
  | empty given => exact .inr (ready.sound.dir_of_resolve ready.homed given)
  | added untaken | written untaken =>
    exact .inl (untaken.free ready.sound (List.prefix_refl _) untaken.inner)

theorem part_of_copy (left : Left d base top done e) (q : List String) :
    e.look (top ++ q) = none ∨ e.look (top ++ q) = d.look (base ++ q) := by
  by_cases listed : q ∈ done
  · exact .inr (left.same q listed)
  by_cases whole : q = []
  · rw [whole, List.append_nil, List.append_nil, ready.isDir]
    rcases left.outside top fun inside => inside.2 rfl with same | ⟨-, made, -⟩
    · rw [same]
      exact ready.top_clear
    · exact .inr made
  · exact .inl (left.free q whole listed)

theorem source_kept (left : Left d base top done e) (q : List String) :
    e.look (base ++ q) = d.look (base ++ q) := by
  rcases ready.same_or_apart with rfl | apart
  · by_cases whole : q = []
    · rw [whole, List.append_nil]
      rcases left.outside base fun inside => inside.2 rfl with same | ⟨free, -, -⟩
      · exact same
      · cases free.symm.trans ready.isDir
    · rcases ready.part_of_copy left q with none | same
      · rw [none, ready.vacant.bare ready.sound (Disk.inside_append.mpr whole)]
      · exact same
  · have outside : ¬ Disk.Inside top (base ++ q) := by
      rintro ⟨under, -⟩
      rcases List.prefix_or_prefix_of_prefix under (List.prefix_append base q) with above | below
      · exact apart.2 above
      · exact apart.1 below
    rcases left.outside _ outside with same | ⟨-, -, under⟩
    · exact same
    · exact absurd ((List.prefix_append base q).trans under) apart.1

theorem whole_copy (walk : Walk d base objects) (left : Left d base top done e)
    (all : ∀ entry ∈ ([], .dir) :: objects, entry.1 ∈ done) (q : List String) :
    e.look (top ++ q) = d.look (base ++ q) := by
  obtain ⟨root, all⟩ := List.forall_mem_cons.mp all
  rcases ready.part_of_copy left q with free | same
  · rw [free, eq_comm, Option.eq_none_iff_forall_ne_some]
    intro node stands
    have listed : q ∈ done := by
      by_cases whole : q = []
      · exact whole ▸ root
      · exact all (q, node) (walk.mem.mpr ⟨whole, stands⟩)
    cases free.symm.trans ((left.same q listed).trans stands)
  · exact same

end Ready

theorem mem_reached {token : CancelToken} (all : token.passes objects.length = objects.length)
    {entry : List String × Node} (member : entry ∈ objects) : entry.1 ∈ reached token objects := by
  rw [reached, all, List.take_length, List.mem_reverse]
  exact List.mem_map.mpr ⟨entry, member, rfl⟩

theorem objectsIn_perm (d : Disk) (base : DiskPath) : (objectsIn d base).Perm
    ((d.inside base).map fun entry => (entry.1.drop base.length, entry.2)) :=
  (List.mergeSort_perm _ _).map _

theorem Walk.length (walk : Walk d base objects) : objects.length = (d.inside base).length := by
  simpa using (walk.all.trans (objectsIn_perm d base)).length_eq

theorem Walk.filesAmong (walk : Walk d base objects) :
    filesAmong (([], .dir) :: objects) = filesAmong (d.inside base) := by
  have same := (walk.all.trans (objectsIn_perm d base)).countP_eq
    fun entry => match entry.2 with | .file _ _ => true | _ => false
  rw [List.countP_map] at same
  rw [filesAmong_cons]
  exact same

structure Exact (w : World) (base top : DiskPath) (ran : Except FetchError Nat × World) : Prop where
  /-- The source stays as it is. -/
  source : ∀ q, ran.2.disk.look (base ++ q) = w.disk.look (base ++ q)
  /-- Around the copy nothing is new but directories on the way to it. -/
  around : ∀ p, ¬ Disk.Inside top p → ran.2.disk.look p = w.disk.look p ∨
    (w.disk.look p = none ∧ ran.2.disk.look p = some .dir ∧ p <+: top)
  /-- If none of the polls, one for each object, sees a request, then the copy is whole and its files
  are counted. -/
  whole : (∀ left, w.token.pollsLeft = some left → (w.disk.inside base).length < left) →
    ran.1 = .ok (filesAmong (w.disk.inside base)) ∧
      ∀ q, ran.2.disk.look (top ++ q) = w.disk.look (base ++ q)
  /-- If one of them does, then there is a part of the copy only. -/
  part : ∀ left, w.token.pollsLeft = some left → left ≤ (w.disk.inside base).length →
    ran.1 = .error .cancelled ∧ ∀ q, ran.2.disk.look (top ++ q) = none ∨
      ran.2.disk.look (top ++ q) = w.disk.look (base ++ q)

theorem Ready.exact (ready : Ready w.disk source target base top)
    (each : AllCopyable w.disk source target base) (walk : Walk w.disk base objects) :
    Exact w base top ((copyEntries source target (([], .dir) :: objects)).exec w) := by
  obtain ⟨w', ran, left⟩ := ready.exec_copyEntries each walk
  rw [ran]
  refine ⟨ready.source_kept left, left.outside, fun going => ?_, fun polls tripping few => ?_⟩
  · have all : w.token.passes (objects.length + 1) = objects.length + 1 :=
      CancelToken.passes_eq_self.mpr (walk.length ▸ going)
    exact ⟨(if_pos all).trans (congrArg _ walk.filesAmong),
      ready.whole_copy walk left fun entry => mem_reached all⟩
  · have short : ¬ w.token.passes (objects.length + 1) = objects.length + 1 := by
      rw [CancelToken.passes_eq_self, not_forall]
      exact ⟨polls, fun going => absurd (going tripping) (by rw [walk.length]; omega)⟩
    exact ⟨if_neg short, ready.part_of_copy left⟩

/-- A copy of a real directory whose objects can all be copied is exact, whatever way the directory is
walked; an object that cannot be copied is an error. -/
theorem copyTree_exact (ready : Ready w.disk source target base top) :
    (AllCopyable w.disk source target base →
      Exact w base top ((copyTree source target).exec w) ∧
      ∀ objects, Walk w.disk base objects →
        Exact w base top ((copyEntries source target (([], .dir) :: objects)).exec w)) ∧
    (w.token.pollsLeft = none → ¬ AllCopyable w.disk source target base →
      ∃ fault, ((copyTree source target).exec w).1 = .error (.io fault)) := by
  refine ⟨fun each => ⟨?_, fun objects => ready.exact each⟩, ready.exec_fails⟩
  rw [exec_copyTree (entries_eq ready.found ready.real)]
  exact ready.exact each (walk_objectsIn ready.sound base)

/-- A directory that holds a directory with a file, and a link; beside it stands nothing. -/
def smallDisk : Disk where
  home := []
  nodes := [(["m"], .dir), (["m", "b"], .dir), (["m", "b", "f"], .file ⟨#[7]⟩ 0o755),
    (["m", "l"], .link "../out")]
  distinct := by decide

theorem smallDisk_ready :
    Ready smallDisk (.ofText "m") (.written "" ["out", "copy"]) ["m"] ["out", "copy"] where
  sound := by decide
  homed := rfl
  real := by decide +kernel
  found := by decide +kernel
  vacant :=
    have untaken : Untaken smallDisk (.ofText "") [] ["out", "copy"] :=
      ⟨by decide +kernel, rfl, by decide, by decide +kernel, "out", ["copy"], rfl, by decide⟩
    .written untaken
  beside := by decide

theorem smallDisk_copied : Ready smallDisk (.ofText "m") (.written "" ["out", "copy"]) ["m"]
      ["out", "copy"] ∧
    AllCopyable smallDisk (.ofText "m") (.written "" ["out", "copy"]) ["m"] ∧
    (∃ w, (copyTree (.ofText "m") (.written "" ["out", "copy"])).exec { disk := smallDisk }
        = (.ok 1, w) ∧ ∀ q, w.disk.look (["out", "copy"] ++ q) = smallDisk.look (["m"] ++ q)) ∧
    ((copyTree (.ofText "m") (.written "" ["out", "copy"])).exec
      { disk := smallDisk, token := ⟨some 2⟩ }).1 = .error .cancelled := by
  have each : AllCopyable smallDisk (.ofText "m") (.written "" ["out", "copy"]) ["m"] := by
    decide +kernel
  obtain ⟨exact, -⟩ := (copyTree_exact (w := { disk := smallDisk }) smallDisk_ready).1 each
  obtain ⟨cut, -⟩ := (copyTree_exact (w := { disk := smallDisk, token := ⟨some 2⟩ })
    smallDisk_ready).1 each
  have files : filesAmong (smallDisk.inside ["m"]) = 1 := by decide
  have whole := exact.whole (by simp)
  rw [files] at whole
  exact ⟨smallDisk_ready, each, ⟨_, Prod.ext whole.1 rfl, whole.2⟩, (cut.part 2 rfl (by decide)).1⟩

def roundabout : Nat → String
  | 0 => "s"
  | n + 1 => "./" ++ roundabout n

theorem utf8ByteSize_roundabout (n : Nat) : (roundabout n).utf8ByteSize = 2 * n + 1 := by
  induction n with
  | zero => rfl
  | succ n ih =>
    have dot : "./".utf8ByteSize = 2 := rfl
    rw [roundabout, String.utf8ByteSize_append, ih, dot]
    omega

theorem toList_roundabout (n : Nat) :
    (roundabout n).toList = (List.replicate n ['.', '/']).flatten ++ ['s'] := by
  induction n with
  | zero => rfl
  | succ n ih => simp [roundabout, ih, List.replicate_succ]

theorem segments_roundabout (n : Nat) :
    (Location.ofText (roundabout n)).segments = List.replicate n "." ++ ["s"] := by
  have cut : Text.fields '/' (roundabout n).toList = List.replicate n ['.'] ++ [['s']] := by
    rw [toList_roundabout]
    induction n with
    | zero => rfl
    | succ n ih => simp [List.replicate_succ, Text.fields, ih]
  have ends : Text.endsWith (roundabout n) "/" = false := by
    rw [← Bool.not_eq_true, Text.endsWith, List.isSuffixOf_iff_suffix, toList_roundabout]
    rintro ⟨front, same⟩
    have last := (List.append_inj' same rfl).2
    cases last
  rw [Location.segments, Location.ofText, Text.split, cut, ends]
  simp

theorem advance_dots (d : Disk) (follow : Bool) (here : DiskPath) (n : Nat) (path : List String) :
    d.advance follow here (List.replicate n "." ++ path) = d.advance follow here path := by
  induction n with
  | zero => rfl
  | succ n ih => simpa [List.replicate_succ, Disk.advance] using ih

def longName : String := String.ofList (List.replicate 150 'n')

/-- A file whose name is long, but short enough for a directory, and an empty directory. -/
def longDisk : Disk where
  home := []
  nodes := [(["m"], .dir), (["m", "r1"], .dir),
    (["m", "r1", longName], .file "two".toUTF8 0o644), (["s"], .dir)]
  distinct := by decide

theorem resolve_roundabout {n : Nat} (short : 2 * n + 1 ≤ maxPathBytes) :
    longDisk.resolve true (.ofText (roundabout n)) = .ok (.taken ["s"] .dir) := by
  refine Disk.resolve_ok.mpr ⟨⟨?_, ?_, ?_⟩, ?_⟩
  · change '\x00' ∉ (roundabout n).toList
    rw [toList_roundabout]
    simp
  · change roundabout n ≠ ""
    rw [Ne, ← String.toList_inj, toList_roundabout]
    simp
  · change (roundabout n).utf8ByteSize ≤ maxPathBytes
    rwa [utf8ByteSize_roundabout]
  · have home : longDisk.start (.ofText (roundabout n)) = [] := by simp [Disk.start, longDisk]
    rw [home, segments_roundabout, Disk.walk, advance_dots]
    rfl

theorem not_callable_roundabout {n : Nat} {name : String}
    (long : maxPathBytes < 2 * n + 1 + name.utf8ByteSize) :
    ¬ (Location.ofText (roundabout n)).Callable [name] := by
  rintro ⟨-, -, short, -⟩
  have longer : (roundabout n).utf8ByteSize + name.utf8ByteSize
      ≤ ((Location.ofText (roundabout n)).below [name]).text.utf8ByteSize :=
    Location.utf8ByteSize_appendPiece _ _
  rw [utf8ByteSize_roundabout] at longer
  omega

theorem longDisk_ready : Ready longDisk (Location.ofText "m" / "r1") (.ofText (roundabout 1975))
    ["m", "r1"] ["s"] where
  sound := by decide +kernel
  homed := rfl
  real := by decide +kernel
  found := by decide +kernel
  vacant := .empty (resolve_roundabout (by decide)) fun q => Disk.look_of_unlisted (by decide)
  beside := by decide

def besideDisk : Disk where
  home := []
  nodes := [(["m"], .dir), (["m", "f"], .file ⟨#[7]⟩ 0o755), (["s"], .dir),
    (["s", "g"], .file ⟨#[8]⟩ 0o644)]
  distinct := by decide

def shutDisk : Disk where
  home := []
  nodes := [(["m"], .dir), (["m", "f"], .file ⟨#[7]⟩ 0o200), (["s"], .dir)]
  distinct := by decide

theorem shutDisk_ready : Ready shutDisk (.ofText "m") (.ofText "s") ["m"] ["s"] where
  sound := by decide
  homed := rfl
  real := by decide +kernel
  found := by decide +kernel
  vacant := .empty (by decide +kernel) fun q => Disk.look_of_unlisted (by decide)
  beside := by decide

/-- A copy fails if its paths are longer than calls take, and if a file in it may not be read. And a
path that leads up again from where nothing stands may come to lead to a directory that holds other
things. -/
theorem copyTree_not_always_exact :
    (Ready longDisk (Location.ofText "m" / "r1") (.ofText (roundabout 1975)) ["m", "r1"] ["s"] ∧
      ∃ fault, ((copyTree (Location.ofText "m" / "r1") (.ofText (roundabout 1975))).exec
        { disk := longDisk }).1 = .error (.io fault)) ∧
    (Ready shutDisk (.ofText "m") (.ofText "s") ["m"] ["s"] ∧
      ((copyTree (.ofText "m") (.ofText "s")).exec { disk := shutDisk }).1
        = .error (.io (.errno .permissionDenied))) ∧
    (besideDisk.linkStat (.ofText "m") = .ok .dir ∧
      besideDisk.linkStat (.ofText "s/n/..") = .error (.errno .noEntry) ∧
      ∃ w, (copyTree (.ofText "m") (.ofText "s/n/..")).exec { disk := besideDisk } = (.ok 1, w) ∧
        w.disk.resolve true (.ofText "s/n/..") = .ok (.taken ["s"] .dir) ∧
        w.disk.look ["s", "g"] ≠ none ∧ w.disk.look ["m", "g"] = none) := by
  refine ⟨⟨longDisk_ready, longDisk_ready.exec_fails rfl fun each => ?_⟩,
    ⟨shutDisk_ready, by decide +kernel⟩, by decide +kernel, by decide +kernel, _,
    Prod.ext ?_ rfl, ?_, ?_, ?_⟩
  · have callable := (each [longName] (.file "two".toUTF8 0o644) (by simp) (by decide +kernel)).2.1
    exact not_callable_roundabout (by decide +kernel) callable
  all_goals decide +kernel

end CopyTree

end PinnedTree
