import Mathlib.Data.List.Forall2
import PinnedTree.Text.Keyed

namespace PinnedTree.Text

variable {α : Type} {key : String} {value old : α} {entries : List (String × α)}

@[simp] theorem insertKeyed_over :
    insertKeyed key value ((key, old) :: entries) = (key, value) :: entries := by
  rw [insertKeyed, if_neg (String.lt_irrefl key), if_pos rfl]

theorem lookup_cons (other : String) : ((key, value) :: entries).lookup other
    = if other = key then some value else entries.lookup other := by
  rw [List.lookup_cons]
  by_cases same : other = key
  · simp [same]
  · rw [beq_false_of_ne same, if_neg same]

theorem lookup_insertKeyed (other : String) : (insertKeyed key value entries).lookup other
    = if other = key then some value else entries.lookup other := by
  induction entries with
  | nil => exact lookup_cons other
  | cons entry rest ih =>
    obtain ⟨first, held⟩ := entry
    unfold insertKeyed
    split
    · exact lookup_cons other
    · split
      · rename_i equal
        subst equal
        rw [lookup_cons, lookup_cons]
        split <;> rfl
      · rename_i different
        rw [lookup_cons, lookup_cons, ih]
        split
        · rename_i here
          rw [if_neg fun same => different (same.symm.trans here)]
        · rfl

theorem insertKeyed_last (after : ∀ entry ∈ entries, entry.1 < key) :
    insertKeyed key value entries = entries ++ [(key, value)] := by
  induction entries with
  | nil => rfl
  | cons entry rest ih =>
    rw [List.forall_mem_cons] at after
    have notBefore : ¬ key < entry.1 := String.lt_asymm after.1
    have notSame : key ≠ entry.1 := fun same => String.lt_irrefl _ (same ▸ after.1)
    rw [insertKeyed, if_neg notBefore, if_neg notSame, ih after.2, List.cons_append]

theorem insertKeyed_again (after : ∀ entry ∈ entries, entry.1 < key) :
    insertKeyed key value (entries ++ [(key, old)]) = entries ++ [(key, value)] := by
  induction entries with
  | nil => exact insertKeyed_over
  | cons entry rest ih =>
    rw [List.forall_mem_cons] at after
    have notBefore : ¬ key < entry.1 := String.lt_asymm after.1
    have notSame : key ≠ entry.1 := fun same => String.lt_irrefl _ (same ▸ after.1)
    rw [List.cons_append, insertKeyed, if_neg notBefore, if_neg notSame, ih after.2,
      List.cons_append]

theorem insertKeyed_same (ordered : InOrder entries) (held : entries.lookup key = some value) :
    insertKeyed key value entries = entries := by
  induction entries with
  | nil => cases held
  | cons entry rest ih =>
    obtain ⟨first, old⟩ := entry
    obtain ⟨later, ordered⟩ := List.pairwise_cons.mp ordered
    rw [lookup_cons] at held
    by_cases here : key = first
    · rw [if_pos here] at held
      cases held
      rw [here, insertKeyed_over]
    · rw [if_neg here] at held
      have listed : ∃ other ∈ rest, other.1 = key := by
        by_contra missing
        have absent : rest.lookup key = none := List.lookup_eq_none_iff.mpr fun other member =>
          bne_iff_ne.mpr fun same => missing ⟨other, member, same.symm⟩
        cases absent.symm.trans held
      obtain ⟨other, member, rfl⟩ := listed
      have after : ¬ other.1 < first := String.lt_asymm (later other member)
      rw [insertKeyed, if_neg after, if_neg here, ih ordered held]

theorem insertKeyed_first (before : ∀ entry ∈ entries, key < entry.1) :
    insertKeyed key value entries = (key, value) :: entries := by
  cases entries with
  | nil => rfl
  | cons entry rest => rw [insertKeyed, if_pos (before entry (by simp))]

theorem lookup_later (after : ∀ entry ∈ entries, entry.1 < key) : entries.lookup key = none := by
  rw [List.lookup_eq_none_iff]
  intro entry member
  rw [bne_iff_ne]
  exact fun same => String.lt_irrefl _ (same ▸ after entry member)

theorem lookup_last (after : ∀ entry ∈ entries, entry.1 < key) :
    (entries ++ [(key, value)]).lookup key = some value := by
  rw [List.lookup_append, lookup_later after, Option.none_or, List.lookup_cons_self]

theorem lookup_of_mem (ordered : InOrder entries) (member : (key, value) ∈ entries) :
    entries.lookup key = some value := by
  induction entries with
  | nil => cases member
  | cons entry rest ih =>
    obtain ⟨first, later⟩ := List.pairwise_cons.mp ordered
    rw [lookup_cons]
    rcases List.mem_cons.mp member with same | member
    · subst same
      exact if_pos rfl
    · have less := first _ member
      rw [if_neg, ih later member]
      rintro rfl
      exact String.lt_irrefl _ less

theorem insertKeyed_twice :
    insertKeyed key value (insertKeyed key old entries) = insertKeyed key value entries := by
  induction entries with
  | nil => exact insertKeyed_over
  | cons entry rest ih =>
    obtain ⟨other, held⟩ := entry
    by_cases before : key < other
    · simp [insertKeyed, before]
    · by_cases same : key = other
      · simp [same]
      · simp [insertKeyed, before, same, ih]

theorem insertKeyed_map {β : Type} (f : α → β) :
    insertKeyed key (f value) (entries.map fun entry => (entry.1, f entry.2))
      = (insertKeyed key value entries).map fun entry => (entry.1, f entry.2) := by
  induction entries with
  | nil => rfl
  | cons entry rest ih =>
    obtain ⟨other, held⟩ := entry
    by_cases before : key < other
    · simp [insertKeyed, before]
    · by_cases same : key = other
      · simp [same]
      · simp [insertKeyed, before, same, ih]

theorem insertKeyed_perm (fresh : entries.lookup key = none) :
    (insertKeyed key value entries).Perm ((key, value) :: entries) := by
  induction entries with
  | nil => exact .refl _
  | cons entry rest ih =>
    obtain ⟨other, held⟩ := entry
    rw [lookup_cons] at fresh
    by_cases same : key = other
    · rw [if_pos same] at fresh
      cases fresh
    · rw [if_neg same] at fresh
      by_cases before : key < other
      · simp [insertKeyed, before]
      · simp only [insertKeyed, before, same, if_false]
        exact ((ih fresh).cons _).trans (.swap ..)

def insertAll (added entries : List (String × α)) : List (String × α) :=
  added.foldl (fun held entry => insertKeyed entry.1 entry.2 held) entries

def keyed (added : List (String × α)) : List (String × α) := insertAll added []

def Fresh (added entries : List (String × α)) : Prop :=
  (added.map (·.1)).Nodup ∧ ∀ entry ∈ added, entries.lookup entry.1 = none

theorem Fresh.tail {added : List (String × α)} (fresh : Fresh ((key, value) :: added) entries) :
    Fresh added (insertKeyed key value entries) := by
  obtain ⟨distinct, absent⟩ := fresh
  obtain ⟨first, distinct⟩ := List.nodup_cons.mp distinct
  refine ⟨distinct, fun entry member => ?_⟩
  rw [lookup_insertKeyed, if_neg, absent entry (List.mem_cons_of_mem _ member)]
  intro same
  exact first (List.mem_map.mpr ⟨entry, member, same⟩)

theorem insertAll_perm {added : List (String × α)} (fresh : Fresh added entries) :
    (insertAll added entries).Perm (added ++ entries) := by
  induction added generalizing entries with
  | nil => exact .refl _
  | cons entry added ih =>
    have first : (insertKeyed entry.1 entry.2 entries).Perm (entry :: entries) :=
      insertKeyed_perm (fresh.2 entry List.mem_cons_self)
    exact (ih fresh.tail).trans ((first.append_left added).trans List.perm_middle)

theorem fresh_nil {added : List (String × α)} (distinct : (added.map (·.1)).Nodup) :
    Fresh added [] := ⟨distinct, fun _ _ => rfl⟩

theorem keyed_perm {added : List (String × α)} (distinct : (added.map (·.1)).Nodup) :
    (keyed added).Perm added := by
  simpa [keyed] using insertAll_perm (fresh_nil distinct)

theorem insertAll_ordered (added : List (String × α)) (ordered : InOrder entries) :
    InOrder (insertAll added entries) := by
  induction added generalizing entries with
  | nil => exact ordered
  | cons entry added ih => exact ih ordered.insertKeyed

theorem keyed_ordered (added : List (String × α)) : InOrder (keyed added) :=
  insertAll_ordered added List.Pairwise.nil

theorem insertAll_map {β : Type} (f : α → β) (added entries : List (String × α)) :
    insertAll (added.map fun entry => (entry.1, f entry.2))
        (entries.map fun entry => (entry.1, f entry.2))
      = (insertAll added entries).map fun entry => (entry.1, f entry.2) := by
  induction added generalizing entries with
  | nil => rfl
  | cons entry added ih =>
    have first : insertKeyed entry.1 (f entry.2) (entries.map fun entry => (entry.1, f entry.2))
        = (insertKeyed entry.1 entry.2 entries).map fun entry => (entry.1, f entry.2) :=
      insertKeyed_map f
    rw [insertAll, insertAll, List.map_cons, List.foldl_cons, List.foldl_cons, first]
    exact ih _

theorem keyed_map {β : Type} (f : α → β) (added : List (String × α)) :
    keyed (added.map fun entry => (entry.1, f entry.2))
      = (keyed added).map fun entry => (entry.1, f entry.2) :=
  insertAll_map f added []

section

variable {β : Type} {R : α → β → Prop} {others : List (String × β)}

theorem keys_related (each : List.Forall₂ (fun a b => b.1 = a.1 ∧ R a.2 b.2) entries others) :
    others.map (·.1) = entries.map (·.1) := by
  induction each with
  | nil => rfl
  | cons first rest ih => rw [List.map_cons, List.map_cons, first.1, ih]

theorem insertKeyed_related {x : α} {y : β} (same : R x y)
    (each : List.Forall₂ (fun a b => b.1 = a.1 ∧ R a.2 b.2) entries others) :
    List.Forall₂ (fun a b => b.1 = a.1 ∧ R a.2 b.2) (insertKeyed key x entries)
      (insertKeyed key y others) := by
  induction each with
  | nil => exact .cons ⟨rfl, same⟩ .nil
  | @cons a b entries others first rest ih =>
    obtain ⟨other, held⟩ := a
    obtain ⟨other', held'⟩ := b
    obtain ⟨rfl : other' = other, related⟩ := first
    simp only [insertKeyed]
    split
    · exact .cons ⟨rfl, same⟩ (.cons ⟨rfl, related⟩ rest)
    · split
      · exact .cons ⟨rfl, same⟩ rest
      · exact .cons ⟨rfl, related⟩ ih

theorem insertAll_related {added : List (String × α)} {added' : List (String × β)}
    (each : List.Forall₂ (fun a b => b.1 = a.1 ∧ R a.2 b.2) added added')
    (held : List.Forall₂ (fun a b => b.1 = a.1 ∧ R a.2 b.2) entries others) :
    List.Forall₂ (fun a b => b.1 = a.1 ∧ R a.2 b.2) (insertAll added entries)
      (insertAll added' others) := by
  induction each generalizing entries others with
  | nil => exact held
  | @cons a b added added' first rest ih =>
    obtain ⟨key, x⟩ := a
    obtain ⟨key', y⟩ := b
    obtain ⟨rfl : key' = key, related⟩ := first
    exact ih (insertKeyed_related related held)

end

end PinnedTree.Text
