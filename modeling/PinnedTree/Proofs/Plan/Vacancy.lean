import PinnedTree.Proofs.Disk.Within
import PinnedTree.Proofs.Lists

namespace PinnedTree

variable {d : Disk} {l : Location} {p q : DiskPath} {name : String}
  {nested : List (List String)} {names above : List String} {levels : Nat} {node : Node}

namespace Disk

theorem list_ok : d.list l = .ok names ↔
    ∃ p, d.resolve true l = .ok (.taken p .dir) ∧ d.namesIn p = names := by
  unfold Disk.list
  cases d.resolve true l with
  | error fault => simp [bind, Except.bind]
  | ok place =>
    cases place with
    | free p => simp [bind, Except.bind, throw, throwThe, MonadExceptOf.throw]
    | taken p node =>
      cases node <;> simp [bind, Except.bind, pure, Except.pure, throw, throwThe,
        MonadExceptOf.throw]

theorem Leads.inner (leads : d.Leads l p) (plain : IsName name)
    (isDir : d.look (p ++ [name]) = some .dir) (listed : d.list (l.child name) = .ok names) :
    d.resolve true (l.child name) = .ok (.taken (p ++ [name]) .dir) := by
  obtain ⟨q, resolves, -⟩ := Disk.list_ok.mp listed
  rw [leads.child_follow plain (by simp [isDir])] at resolves ⊢
  obtain ⟨-, same⟩ := (leads.child plain _).mp resolves
  rw [resolves, same, placeAt, isDir]

end Disk

namespace Inspection

/-- What lies at or below a nested place is not touched, and neither is a real directory on the way to
one. -/
def Spared (nested : List (List String)) (names : List String) (node : Node) : Prop :=
  (∃ n ∈ nested, n <+: names) ∨ node = .dir ∧ ∃ n ∈ nested, names <+: n ∧ names ≠ n

def Vacant (d : Disk) (directory : DiskPath) (nested : List (List String)) : Prop :=
  ∀ names node, names ≠ [] → d.look (directory ++ names) = some node → Spared nested names node

def VacantFrom (d : Disk) (directory : DiskPath) (nested : List (List String))
    (above : List String) : Prop :=
  ∀ rest node, rest ≠ [] → d.look (directory ++ rest) = some node →
    Spared nested (above ++ rest) node

theorem vacantFrom_nil : VacantFrom d p nested [] ↔ Vacant d p nested := .rfl

theorem vacantFrom_iff (sound : d.Sound) : VacantFrom d p nested above ↔
    ∀ name ∈ d.namesIn p, (∀ node, d.look (p ++ [name]) = some node →
      Spared nested (above ++ [name]) node) ∧ VacantFrom d (p ++ [name]) nested (above ++ [name]) := by
  constructor
  · refine fun all name _ => ⟨fun node => all [name] node (by simp), fun rest node _ stands => ?_⟩
    rw [List.append_assoc] at stands ⊢
    exact all _ node (by simp) stands
  · intro each rest node filled stands
    obtain ⟨name, rest, rfl⟩ := List.exists_cons_of_ne_nil filled
    rw [← List.singleton_append, ← List.append_assoc] at stands ⊢
    have member : name ∈ d.namesIn p := Disk.mem_namesIn.mpr fun free => by
      rw [sound.none_below free] at stands
      cases stands
    by_cases last : rest = []
    · subst last
      rw [List.append_nil] at stands ⊢
      exact (each name member).1 node stands
    · exact (each name member).2 rest node last stands

/-- A directory some levels down: none of the nested places holds it, some lie in it, and there are
levels left for each of them. -/
structure Descent (nested : List (List String)) (above : List String) (levels : Nat) : Prop where
  outside : ∀ n ∈ nested, ¬ n <+: above
  leads : ∃ n ∈ nested, above <+: n
  enough : ∀ n ∈ nested, above <+: n → n.length < above.length + levels

theorem Descent.inner (descent : Descent nested above (levels + 1))
    (unlisted : above ++ [name] ∉ nested) (onward : ∃ n ∈ nested, above ++ [name] <+: n) :
    Descent nested (above ++ [name]) levels where
  outside n member under := by
    rcases List.prefix_concat_iff.mp under with rfl | under
    · exact unlisted member
    · exact descent.outside n member under
  leads := onward
  enough n member under := by
    have bound := descent.enough n member ((List.prefix_append _ _).trans under)
    rw [List.length_append, List.length_singleton]
    omega

theorem not_descent_zero : ¬ Descent nested above 0 := by
  intro descent
  obtain ⟨n, member, under⟩ := descent.leads
  exact absurd under.length_le (Nat.not_le.mpr (descent.enough n member under))

theorem Descent.spared_child (descent : Descent nested above levels)
    (unlisted : above ++ [name] ∉ nested) : Spared nested (above ++ [name]) node ↔
      node = .dir ∧ ∃ n ∈ nested, above ++ [name] <+: n := by
  constructor
  · rintro (⟨n, member, under⟩ | ⟨isDir, n, member, under, -⟩)
    · rcases List.prefix_concat_iff.mp under with rfl | under
      · exact absurd member unlisted
      · exact absurd under (descent.outside n member)
    · exact ⟨isDir, n, member, under⟩
  · rintro ⟨isDir, n, member, under⟩
    exact .inr ⟨isDir, n, member, under, fun same => unlisted (same ▸ member)⟩

theorem holdsOnly_ok {only : Bool} (sound : d.Sound) (descent : Descent nested above levels)
    (leads : ∀ names, d.list l = .ok names → d.resolve true l = .ok (.taken p .dir))
    (ran : holdsOnly d nested levels l p above = .ok only) :
    only = true ↔ VacantFrom d p nested above := by
  induction levels generalizing l p above only with
  | zero => exact absurd descent not_descent_zero
  | succ levels ih =>
    obtain ⟨names, listed, each⟩ := bind_eq_ok.mp ran
    obtain ⟨q, resolves, rfl⟩ := Disk.list_ok.mp listed
    cases resolves.symm.trans (leads _ listed)
    rw [vacantFrom_iff sound]
    refine allM_ok (fun name member answer judged => ?_) each
    have stands := Disk.mem_namesIn.mp member
    obtain ⟨isDir, plain⟩ := sound.parent stands
    obtain ⟨node, here⟩ := Option.ne_none_iff_exists'.mp stands
    simp only [here, Option.some.injEq, forall_eq']
    simp only at judged
    split at judged
    · rename_i own
      cases judged
      have own : above ++ [name] ∈ nested := List.contains_iff_mem.mp own
      simp only [true_iff]
      exact ⟨.inl ⟨_, own, List.prefix_refl _⟩, fun rest _ _ _ => .inl ⟨_, own, List.prefix_append _ rest⟩⟩
    rename_i unlisted
    rw [List.contains_iff_mem] at unlisted
    rw [descent.spared_child unlisted]
    split at judged
    · rename_i onward
      obtain ⟨further, rfl⟩ : (∃ n ∈ nested, above ++ [name] <+: n) ∧ node = .dir := by
        simpa [here] using onward
      rw [ih (descent.inner unlisted further)
        (fun names listed => Disk.Leads.inner ⟨resolves, isDir⟩ plain here listed) judged]
      simp [further]
    · rename_i stray
      cases judged
      have stray : ¬ (node = .dir ∧ ∃ n ∈ nested, above ++ [name] <+: n) := fun onward =>
        stray (by simpa [here] using onward.symm)
      simp [stray]

theorem holdsOnly_error {fault : IoFault} (ran : holdsOnly d nested levels l p above = .error fault) :
    ∃ r, d.list (l.below r) = .error fault ∧ (r ≠ [] → d.look (p ++ r) = some .dir ∧
      ∃ n ∈ nested, above ++ r <+: n ∧ above ++ r ≠ n) := by
  induction levels generalizing l p above with
  | zero => cases ran
  | succ levels ih =>
    rw [holdsOnly] at ran
    cases listed : d.list l with
    | error cause =>
      simp only [listed, bind, Except.bind] at ran
      cases ran
      exact ⟨[], by simpa [Location.below] using listed, by simp⟩
    | ok names =>
      simp only [listed, bind, Except.bind] at ran
      obtain ⟨name, -, judged⟩ := allM_error ran
      split at judged
      · cases judged
      rename_i unlisted
      rw [List.contains_iff_mem] at unlisted
      split at judged
      · rename_i onward
        obtain ⟨⟨n, member, under⟩, isDir⟩ : (∃ n ∈ nested, above ++ [name] <+: n) ∧
            d.look (p ++ [name]) = some .dir := by simpa using onward
        obtain ⟨r, failed, further⟩ := ih judged
        have place : (l / name).below r = l.below (name :: r) := by
          simp [Location.child, Location.below]
        refine ⟨name :: r, place ▸ failed, fun _ => ?_⟩
        by_cases last : r = []
        · subst last
          exact ⟨isDir, n, member, under, fun same => unlisted (same ▸ member)⟩
        · simpa using further last
      · cases judged

theorem le_foldl_max (lengths : List Nat) (start : Nat) : start ≤ lengths.foldl max start ∧
    ∀ n ∈ lengths, n ≤ lengths.foldl max start := by
  induction lengths generalizing start with
  | nil => simp
  | cons n rest ih =>
    obtain ⟨low, each⟩ := ih (max start n)
    rw [List.foldl_cons, List.forall_mem_cons]
    exact ⟨Nat.le_trans (Nat.le_max_left _ _) low, Nat.le_trans (Nat.le_max_right _ _) low, each⟩

theorem descent_start (inner : ∀ n ∈ nested, n ≠ []) (some_nested : nested ≠ []) :
    Descent nested [] (depthOf nested + 1) where
  outside n member under := inner n member (List.prefix_nil.mp under)
  leads := by
    obtain ⟨n, rest, rfl⟩ := List.exists_cons_of_ne_nil some_nested
    exact ⟨n, by simp, List.nil_prefix⟩
  enough n member _ := by
    have deepest := (le_foldl_max (nested.map List.length) 0).2 _ (List.mem_map_of_mem member)
    rw [depthOf, List.length_nil]
    omega

def Unmarked (d : Disk) (l : Location) (p : DiskPath) : Prop :=
  d.resolve false l = .ok (.taken p .dir) ∧ Marker.read d l = .ok none

def Linked (d : Disk) (l : Location) (p : DiskPath) : Prop :=
  (∃ q target, d.resolve false l = .ok (.taken q (.link target))) ∧
    d.resolve true l = .ok (.taken p .dir)

/-- A directory that is gone through: a real one without a marker or, if there are nested places, one
that a link leads to. -/
def Searched (d : Disk) (l : Location) (nested : List (List String)) (p : DiskPath) : Prop :=
  Unmarked d l p ∨ nested ≠ [] ∧ Linked d l p

def Barred (d : Disk) (l : Location) (p : DiskPath) (nested : List (List String))
    (cause : IoFault) : Prop :=
  ∃ n ∈ nested, ∃ r, r ≠ [] ∧ r <+: n ∧ r ≠ n ∧ d.look (p ++ r) = some .dir ∧
    d.list (l.below r) = .error cause

theorem Unmarked.leads (unmarked : Unmarked d l p) : d.resolve true l = .ok (.taken p .dir) :=
  Disk.resolve_followed unmarked.1 (by simp)

theorem Searched.leads (searched : Searched d l nested p) :
    d.resolve true l = .ok (.taken p .dir) := by
  rcases searched with unmarked | ⟨-, linked⟩
  · exact unmarked.leads
  · exact linked.2

theorem Unmarked.ofPlace (unmarked : Unmarked d l p) :
    ofPlace d l = .ok (if d.namesIn p = [] then .empty else .unmanaged) := by
  have stat := Disk.linkStat_of_resolve unmarked.1
  have listed : d.list l = .ok (d.namesIn p) := Disk.list_ok.mpr ⟨p, unmarked.leads, rfl⟩
  simp only [Inspection.ofPlace, stat, unmarked.2, listed]
  cases d.namesIn p <;> simp

theorem ofPlace_of_link {target : String} (found : d.resolve false l = .ok (.taken q (.link target))) :
    ofPlace d l = .ok .unmanaged := by
  simp only [ofPlace, Disk.linkStat_of_resolve found]

theorem ofOuter_eq_ofPlace (idle : ofPlace d l = .ok .unmanaged → nested ≠ [] →
    ∀ p, d.resolve true l ≠ .ok (.taken p .dir)) : ofOuter d l nested = ofPlace d l := by
  unfold ofOuter
  cases here : ofPlace d l with
  | error fault => rfl
  | ok found =>
    simp only [bind, Except.bind]
    split
    · rename_i matters
      obtain ⟨rfl, filled⟩ : found = .unmanaged ∧ nested ≠ [] := by simpa using matters
      cases leads : d.resolve true l with
      | error fault => rfl
      | ok place =>
        cases place with
        | free p => rfl
        | taken p node =>
          cases node with
          | dir => exact absurd leads (idle here filled p)
          | file | link => rfl
    · rfl

/-- An empty directory holds nothing that could be lost, and without nested places any object in it
could. -/
theorem vacant_of_empty (sound : d.Sound) (empty : d.namesIn p = []) : Vacant d p nested := by
  refine vacantFrom_nil.mp ((vacantFrom_iff sound).mpr ?_)
  simp [empty]

theorem namesIn_of_vacant (vacant : Vacant d p []) : d.namesIn p = [] := by
  refine List.eq_nil_iff_forall_not_mem.mpr fun name member => ?_
  obtain ⟨node, stands⟩ := Option.ne_none_iff_exists'.mp (Disk.mem_namesIn.mp member)
  simpa [Spared] using vacant [name] node (by simp) stands

/-- An unmanaged directory with places nested in it is gone through: the answer is that it is as good
as empty, that it is not, or that something on the way could not be listed. -/
theorem ofOuter_of_leads (sound : d.Sound) (inner : ∀ n ∈ nested, n ≠ []) (some_nested : nested ≠ [])
    (leads : d.resolve true l = .ok (.taken p .dir)) (seen : ofPlace d l = .ok .unmanaged) :
    ofOuter d l nested = .ok .empty ∧ Vacant d p nested ∨
      ofOuter d l nested = .ok .unmanaged ∧ ¬ Vacant d p nested ∨
      ∃ cause, ofOuter d l nested = .error (.io cause) ∧ Barred d l p nested cause := by
  have filled : nested.isEmpty = false := by simpa using some_nested
  cases answer : holdsOnly d nested (depthOf nested + 1) l p [] with
  | error cause =>
    obtain ⟨r, failed, further⟩ := holdsOnly_error answer
    have below : r ≠ [] := by
      rintro rfl
      rw [Location.below_nil, Disk.list_ok.mpr ⟨p, leads, rfl⟩] at failed
      cases failed
    obtain ⟨isDir, n, member, under, other⟩ := further below
    refine .inr (.inr ⟨cause, ?_, n, member, r, below, under, other, isDir, failed⟩)
    simp [ofOuter, seen, filled, leads, answer, bind, Except.bind, Except.mapError]
  | ok only =>
    have vacant := (holdsOnly_ok sound (descent_start inner some_nested) (fun _ _ => leads)
      answer).trans .rfl
    have result : ofOuter d l nested = .ok (if only then .empty else .unmanaged) := by
      simp [ofOuter, seen, filled, leads, answer, bind, Except.bind, Except.mapError, pure,
        Except.pure]
    cases only with
    | true => exact .inl ⟨result, vacant.mp rfl⟩
    | false => exact .inr (.inl ⟨result, fun all => by cases vacant.mpr all⟩)

theorem Searched.judged (sound : d.Sound) (inner : ∀ n ∈ nested, n ≠ [])
    (searched : Searched d l nested p) :
    ofOuter d l nested = .ok .empty ∧ Vacant d p nested ∨
      ofOuter d l nested = .ok .unmanaged ∧ ofPlace d l = .ok .unmanaged ∧ ¬ Vacant d p nested ∨
      ∃ cause, ofOuter d l nested = .error (.io cause) ∧ Barred d l p nested cause := by
  by_cases seen : ofPlace d l = .ok .unmanaged
  · by_cases some_nested : nested = []
    · subst some_nested
      obtain unmarked | ⟨impossible, -⟩ := searched
      · have same : ofOuter d l [] = ofPlace d l := ofOuter_eq_ofPlace fun _ filled => absurd rfl filled
        refine .inr (.inl ⟨same.trans seen, seen, fun vacant => ?_⟩)
        simp [unmarked.ofPlace, namesIn_of_vacant vacant] at seen
      · exact absurd rfl impossible
    · simpa [seen] using ofOuter_of_leads sound inner some_nested searched.leads seen
  · obtain unmarked | ⟨-, ⟨q, target, found⟩, -⟩ := searched
    · have empty : d.namesIn p = [] := by
        by_contra filled
        exact seen (by simp [unmarked.ofPlace, filled])
      have same : ofOuter d l nested = ofPlace d l := ofOuter_eq_ofPlace fun this => absurd this seen
      exact .inl ⟨by simp [same, unmarked.ofPlace, empty], vacant_of_empty sound empty⟩
    · exact absurd (ofPlace_of_link found) seen

theorem ofOuter_of_other (other : ∀ p, ¬ Searched d l nested p) :
    ofOuter d l nested = ofPlace d l ∧ ofPlace d l ≠ .ok .empty := by
  cases stat : d.linkStat l with
  | error fault =>
    have seen : ofPlace d l = .ok .missing ∨ ofPlace d l = .error (.io fault) := by
      simp only [ofPlace, stat]
      split <;> simp_all
    rcases seen with seen | seen <;> simp [ofOuter_eq_ofPlace, seen]
  | ok node =>
    obtain ⟨q, found⟩ := Disk.resolve_of_linkStat stat
    cases node with
    | link target =>
      refine ⟨ofOuter_eq_ofPlace fun _ filled p leads => ?_, by simp [ofPlace_of_link found]⟩
      exact other p (.inr ⟨filled, ⟨q, target, found⟩, leads⟩)
    | file content mode =>
      have seen : ofPlace d l = .ok .unmanaged := by simp only [ofPlace, stat]
      refine ⟨ofOuter_eq_ofPlace fun _ _ p leads => ?_, by simp [seen]⟩
      cases (Disk.resolve_followed found (by simp)).symm.trans leads
    | dir =>
      cases marker : Marker.read d l with
      | error fault =>
        have seen : ofPlace d l = .error fault := by simp only [ofPlace, stat, marker]
        simp [ofOuter_eq_ofPlace, seen]
      | ok held =>
        cases held with
        | none => exact absurd (.inl ⟨found, marker⟩) (other q)
        | some marker' =>
          have seen : ofPlace d l = .ok (.marked marker') := by simp only [ofPlace, stat, marker]
          simp [ofOuter_eq_ofPlace, seen]

/-- A place counts as empty exactly if a directory is gone through for it, a real one without a marker
or the one that a link leads to, in which nothing could be lost. Otherwise it is what it is without
nested places, and the only further failure is a directory on the way that cannot be listed. -/
theorem ofOuter_empty_iff (sound : d.Sound) (inner : ∀ n ∈ nested, n ≠ []) :
    (∀ found, ofOuter d l nested = .ok found →
      (found = .empty ↔ ∃ p, Searched d l nested p ∧ Vacant d p nested) ∧
      (found ≠ .empty → ofPlace d l = .ok found)) ∧
    ∀ fault, ofOuter d l nested = .error fault → ofPlace d l = .error fault ∨
      ∃ p cause, Searched d l nested p ∧ Barred d l p nested cause ∧ fault = .io cause := by
  by_cases through : ∃ p, Searched d l nested p
  · obtain ⟨p, searched⟩ := through
    have alone : ∀ q, Searched d l nested q → q = p := fun q other => by
      cases other.leads.symm.trans searched.leads
      rfl
    obtain ⟨answer, vacant⟩ | ⟨answer, seen, vacant⟩ | ⟨cause, answer, barred⟩ :=
      searched.judged sound inner
    · refine ⟨fun found given => ?_, fun fault failed => by cases answer.symm.trans failed⟩
      cases answer.symm.trans given
      exact ⟨iff_of_true rfl ⟨p, searched, vacant⟩, fun impossible => absurd rfl impossible⟩
    · refine ⟨fun found given => ?_, fun fault failed => by cases answer.symm.trans failed⟩
      cases answer.symm.trans given
      refine ⟨iff_of_false (by simp) ?_, fun _ => seen⟩
      rintro ⟨q, other, all⟩
      exact vacant (alone q other ▸ all)
    · refine ⟨fun found given => absurd (answer.symm.trans given) (by simp), fun fault failed => ?_⟩
      cases answer.symm.trans failed
      exact .inr ⟨p, cause, searched, barred, rfl⟩
  · have other : ∀ p, ¬ Searched d l nested p := fun p searched => through ⟨p, searched⟩
    obtain ⟨same, seen⟩ := ofOuter_of_other other
    rw [same]
    refine ⟨fun found answer => ⟨iff_of_false ?_ ?_, fun _ => answer⟩, fun fault failed => .inl failed⟩
    · rintro rfl
      exact seen answer
    · rintro ⟨p, searched, -⟩
      exact other p searched

def hollowDisk : Disk where
  home := []
  nodes := [(["root"], .dir), (["root", "a"], .dir), (["root", "a", "b"], .dir),
    (["root", "a", "b", "work"], .file .empty 0o644), (["root", "a", "deps"], .dir),
    (["root", "l"], .link "a")]
  distinct := by decide

/-- The link counts as empty, though without nested places it is not even looked into. -/
theorem hollowDisk_empty :
    (∃ p, Searched hollowDisk (.ofText "root/a") [["b"], ["deps", "c"]] p ∧
      Vacant hollowDisk p [["b"], ["deps", "c"]]) ∧
    (∃ p, Searched hollowDisk (.ofText "root/l") [["b"], ["deps", "c"]] p ∧
      Vacant hollowDisk p [["b"], ["deps", "c"]]) ∧
    ofPlace hollowDisk (.ofText "root/l") = .ok .unmanaged :=
  ⟨((ofOuter_empty_iff (by decide) (by decide)).1 .empty (by decide +kernel)).1.mp rfl,
    ((ofOuter_empty_iff (by decide) (by decide)).1 .empty (by decide +kernel)).1.mp rfl,
    by decide +kernel⟩

end Inspection

end PinnedTree
