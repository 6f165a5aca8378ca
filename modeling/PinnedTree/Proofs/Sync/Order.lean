import PinnedTree.Proofs.Layout
import PinnedTree.Proofs.Sync.Handling

namespace PinnedTree.Sync.Terrain

open Transaction

variable {t : Terrain} {d e : Disk} {p : PlannedPin} {adopt : Bool} {outcome : Outcome}
  {inner : Destination} {r : List String}

/-- What stands at the destination of a pin while it is handled: the old content, nothing, or the
new content with nested trees of the old. -/
inductive Shows (t : Terrain) (p : PlannedPin) (d e : Disk) : Prop
  | old (same : SameTree (t.site p).destination d e)
  | gone (none : ∀ r, e.look ((t.site p).destination ++ r) = none)
  | new {new : DiskPath → Option Node} {carried : List (List String)}
    (marked : Site.Marked (jobOf t.root p) new) (stocked : t.stock p new)
    (each : ∀ c ∈ carried, (t.site p).Carried d new c)
    (content : (t.site p).Overlaid d new carried e)

theorem Renewal.shows {new : DiskPath → Option Node} {carried : List (List String)}
    (renewal : t.Renewal p d new carried e) : t.Shows p d e :=
  .new renewal.marked renewal.stocked renewal.done.each renewal.done.content

theorem During.near (during : t.During p d e) : (t.site p).opened.Near d e := by
  rcases during with quiet | ⟨_, -, -, quiet | aside | ⟨_, placed⟩ | ⟨_, done⟩⟩
  · exact quiet.toNear
  · exact quiet.toNear
  · exact aside.toNear
  · exact placed.toNear
  · exact done.toNear

theorem During.shows (during : t.During p d e) : t.Shows p d e := by
  rcases during with quiet | ⟨_, marked, stocked, quiet | aside | ⟨_, placed⟩ | ⟨_, done⟩⟩
  · exact .old quiet.old
  · exact .old quiet.old
  · exact .gone aside.gone
  · exact .new marked stocked (fun c member => { placed.each c member with })
      { placed.content with }
  · exact .new marked stocked (fun c member => { done.each c member with }) { done.content with }

theorem Handled.near (handled : t.Handled adopt p d e outcome) (sound : d.Sound) :
    (t.site p).Near d e := by
  cases handled with
  | current same _ => exact same.symm ▸ .refl sound
  | failed quiet _ => exact quiet.toNear
  | renewed _ renewal _ => exact renewal.done.toNear

theorem Handled.shows (handled : t.Handled adopt p d e outcome) : t.Shows p d e := by
  cases handled with
  | current same _ => exact .old fun _ => by rw [same]
  | failed quiet _ => exact .old quiet.old
  | renewed _ renewal _ => exact renewal.shows

theorem Handled.swept (handled : t.Handled adopt p d e outcome) : (t.site p).Swept d e := by
  cases handled with
  | current same _ => exact same ▸ ⟨id, id, .inr (.inl rfl)⟩
  | failed _ swept => exact swept
  | renewed _ _ swept => exact swept

theorem marker_new {new : DiskPath → Option Node} {carried : List (List String)}
    (surveyed : t.Surveyed) (member : p ∈ t.pins) (marked : Site.Marked (jobOf t.root p) new)
    (each : ∀ c ∈ carried, (t.site p).Carried d new c)
    (content : (t.site p).Overlaid d new carried e) :
    ∃ clock, e.look ((t.site p).destination ++ [markerFile])
      = some (.file (markerOf (jobOf t.root p) clock).text.toUTF8 0o600) := by
  obtain ⟨clock, marker⟩ := marked.marker
  have free : ¬ Covered carried [markerFile] := by
    rintro ⟨c, taken, under⟩
    have whole : c = [markerFile] := by
      refine under.eq_of_length_le ?_
      have filled := (Destination.mem_nestedIn (surveyed.nested p member ▸ (each c taken).listed :
        c ∈ p.destination.nestedIn t.all)).1
      exact List.length_pos_of_ne_nil filled
    cases (whole ▸ (each c taken).absent).symm.trans marker
  refine ⟨clock, ?_⟩
  rcases content.fresh _ free with same | ⟨absent, -⟩
  · exact same.trans marker
  · cases absent.symm.trans marker

theorem own_of_names (within : r <+: inner.names) :
    ¬ t.top ++ [stateDirectory] <+: t.top ++ r := fun own => by
  have further := own.trans ((List.prefix_append_right_inj t.top).mpr within)
  rw [← List.append_nil inner.names] at further
  exact Layout.outside inner [] further

/-- What stands outside the program's own directory stood there before, is new content, or is a
directory. -/
theorem Shows.origin (shows : t.Shows p d e) (near : (t.site p).opened.Near d e)
    (ready : (t.site p).Ready d) {q : DiskPath} {node : Node}
    (outside : ¬ t.top ++ [stateDirectory] <+: q) (stands : e.look q = some node) :
    d.look q = some node ∨ node = .dir ∨ ∃ new below, Site.Marked (jobOf t.root p) new ∧
      t.stock p new ∧ q = (t.site p).destination ++ below ∧ new below = some node := by
  by_cases under : (t.site p).destination <+: q
  · obtain ⟨below, rfl⟩ := under
    cases shows with
    | old same => exact .inl ((same below).symm.trans stands)
    | gone none => cases (none below).symm.trans stands
    | new marked stocked each content =>
      rename_i new carried
      by_cases covered : Covered carried below
      · exact .inl ((content.kept below covered).symm.trans stands)
      · rcases content.fresh below covered with same | ⟨-, made, -⟩
        · exact .inr (.inr ⟨new, below, marked, stocked, rfl, same.symm.trans stands⟩)
        · exact .inr (.inl (Option.some.inj (stands.symm.trans made)))
  · rcases near.beside ready.opened outside under with same | ⟨-, made, -⟩
    · exact .inl (same.symm.trans stands)
    · exact .inr (.inl (Option.some.inj (stands.symm.trans made)))

theorem Shows.no_link (shows : t.Shows p d e) (near : (t.site p).opened.Near d e)
    (ready : (t.site p).Ready d) (avoids : t.Avoids p inner) (within : r <+: inner.names)
    (plain : ∀ target, d.look (t.top ++ r) ≠ some (.link target)) (target : String) :
    e.look (t.top ++ r) ≠ some (.link target) := by
  intro link
  rcases shows.origin near ready (own_of_names within) link with
    old | impossible | ⟨new, below, marked, stocked, place, fresh⟩
  · exact plain target old
  · cases impossible
  · rw [Site.destination, List.append_assoc] at place
    obtain rfl := List.append_cancel_left place
    obtain ⟨beyond, whole⟩ := within
    rw [List.append_assoc] at whole
    by_cases filled : below ++ beyond = []
    · obtain ⟨rfl, -⟩ := List.append_eq_nil_iff.mp filled
      cases marked.isDir.symm.trans fresh
    · exact avoids new stocked _ whole.symm filled below
        (List.prefix_append _ _) target fresh

theorem Handled.backup (handled : t.Handled adopt p d e outcome) (orderly : t.Orderly d)
    (surveyed : t.Surveyed) (member : p ∈ t.pins) {name : String}
    (stands : e.look (t.top ++ [stateDirectory, "backup", name]) ≠ none) :
    '.' ∉ name.toList ∧
      ∃ c m, e.look (t.top ++ [stateDirectory, "backup", name]) = some (.file c m) := by
  have near := handled.near orderly.sound
  have ready := orderly.ready surveyed member
  have swept := handled.swept
  have idle := orderly.idle p
  have listed : name ∈ e.namesIn ((t.site p).top ++ [stateDirectory, "backup"]) := by
    rw [Disk.mem_namesIn]
    simpa [site, siteOf] using stands
  rcases near.backup_sorted ready idle listed with rfl | rfl | ⟨spared, dotless⟩
  · refine ⟨notMem_slotName _ (by decide) (by decide) (by decide), ?_⟩
    change e.look (t.site p).aside ≠ none at stands
    change ∃ c m, e.look (t.site p).aside = some (.file c m)
    rcases swept.idle with gone | same | ⟨same, leaf⟩
    · exact absurd gone stands
    · rw [same] at stands ⊢
      exact (orderly.backup _ stands).2
    · rw [same] at stands ⊢
      have plain := orderly.plain p member
      change ∀ target, d.look (t.site p).destination ≠ _ at plain
      obtain ⟨node, found⟩ := Option.ne_none_iff_exists'.mp stands
      cases node with
      | dir => exact absurd found leaf
      | file c m => exact ⟨c, m, found⟩
      | link target => exact absurd found (plain target)
  · exact absurd (swept.unnoted idle.journal) stands
  · obtain ⟨c, m, file⟩ := spared.file
    refine ⟨dotless, c, m, ?_⟩
    rcases near.elsewhere _ spared.outside with same | ⟨free, -⟩
    · exact same.trans file
    · rw [file] at free
      cases free

theorem Orderly.own_near (orderly : t.Orderly d) (near : (t.site p).opened.Near d e)
    (ready : (t.site p).Ready d) : ∀ names ∈ [[stateDirectory], [stateDirectory, "staging"],
      [stateDirectory, "backup"], [stateDirectory, "lock"], [stateDirectory, "state.toml"]],
    ∀ target, e.look (t.top ++ names) ≠ some (.link target) := by
  intro names own target
  refine near.no_link ?_ (orderly.own names own) target
  have short : ∃ room name, names <+: [stateDirectory, room, name] ∧
      names ≠ [stateDirectory, room, name] := by
    simp only [List.mem_cons, List.not_mem_nil, or_false] at own
    rcases own with rfl | rfl | rfl | rfl | rfl
    · exact ⟨"", "", by simp⟩
    · exact ⟨"staging", "", by simp⟩
    · exact ⟨"backup", "", by simp⟩
    · exact ⟨"lock", "", by simp⟩
    · exact ⟨"state.toml", "", by simp⟩
  obtain ⟨room, name, under, other⟩ := short
  exact ready.opened.own_untouched under other

theorem Handled.orderly (handled : t.Handled adopt p d e outcome) (orderly : t.Orderly d)
    (surveyed : t.Surveyed) (unlinked : t.Unlinked) (member : p ∈ t.pins) : t.Orderly e := by
  have near := handled.near orderly.sound
  have ready := orderly.ready surveyed member
  refine ⟨⟨near.sound, near.rooted ready, ?_, orderly.own_near near.opened ready, ?_, ?_⟩, ?_⟩
  · intro inner listed r under other
    exact handled.shows.no_link near.opened ready (unlinked p member inner listed) under
      (orderly.clear inner listed r under other)
  · intro q inside
    by_contra stands
    have stood : d.look q = none := orderly.staging q inside
    by_cases under : (t.site p).staged <+: q
    · exact stands (near.sound.none_under (handled.swept.unstaged (orderly.unstaged p)) under)
    have outside : ¬ (t.site p).Touches q := by
      have apart : ∀ {place : DiskPath}, Disk.Apart place (t.site p).workshop → ¬ place <+: q := by
        intro place apart within
        rcases List.prefix_or_prefix_of_prefix within inside.1 with above | below
        · exact apart.1 above
        · exact apart.2 below
      rw [Site.untouched_iff]
      refine ⟨fun inner => ?_, apart (t.site p).aside_workshop, apart (t.site p).journal_workshop,
        apart ready.destination_workshop⟩
      exact under (inner.2.resolve_left (by simp [site, siteOf]))
    rcases near.elsewhere q outside with same | ⟨-, -, above | above⟩
    · exact stands (same.trans stood)
    · exact ready.destination_workshop.2 (inside.1.trans above)
    · rw [(t.site p).staged_eq] at above
      rcases List.prefix_concat_iff.mp above with same | within
      · exact under ((t.site p).staged_eq ▸ same ▸ List.prefix_refl _)
      · exact inside.not_under within
  · exact fun name stands => handled.backup orderly surveyed member stands
  · intro q chosen
    exact handled.shows.no_link near.opened ready
      (unlinked p member _ (surveyed.destination_mem chosen)) (List.prefix_refl _)
      (orderly.plain q chosen)

end PinnedTree.Sync.Terrain
