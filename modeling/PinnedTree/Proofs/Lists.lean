import Mathlib.Data.List.Basic

namespace PinnedTree

theorem bind_eq_ok {ε α β : Type} {x : Except ε α} {f : α → Except ε β} {b : β} :
    (x >>= f) = .ok b ↔ ∃ a, x = .ok a ∧ f a = .ok b := by
  cases x <;> simp [bind, Except.bind]

theorem mapM_ok {ε α β : Type} {f : α → Except ε β} {l : List α} {r : List β}
    (made : l.mapM f = .ok r) : List.Forall₂ (fun a b => f a = .ok b) l r := by
  induction l generalizing r with
  | nil =>
    cases made
    exact .nil
  | cons a l ih =>
    rw [List.mapM_cons, bind_eq_ok] at made
    obtain ⟨b, first, made⟩ := made
    obtain ⟨bs, rest, made⟩ := bind_eq_ok.mp made
    cases made
    exact .cons first (ih rest)

theorem mapM_of_forall₂ {ε α β : Type} {f : α → Except ε β} {l : List α} {r : List β}
    (each : List.Forall₂ (fun a b => f a = .ok b) l r) : l.mapM f = .ok r := by
  induction each with
  | nil => rfl
  | cons first _ ih => simp [List.mapM_cons, first, ih, bind, Except.bind, pure, Except.pure]

theorem allM_ok {ε α : Type} {f : α → Except ε Bool} {holds : α → Prop} {l : List α} {all : Bool}
    (each : ∀ a ∈ l, ∀ b, f a = .ok b → (b = true ↔ holds a)) (checked : l.allM f = .ok all) :
    all = true ↔ ∀ a ∈ l, holds a := by
  induction l with
  | nil =>
    cases checked
    simp
  | cons a rest ih =>
    rw [List.forall_mem_cons] at each ⊢
    obtain ⟨b, first, checked⟩ := bind_eq_ok.mp checked
    cases b with
    | true => rw [ih each.2 checked, ← each.1 true first, eq_self, true_and]
    | false =>
      cases checked
      simp [← each.1 false first]

theorem allM_error {ε α : Type} {f : α → Except ε Bool} {l : List α} {e : ε}
    (failed : l.allM f = .error e) : ∃ a ∈ l, f a = .error e := by
  induction l with
  | nil => cases failed
  | cons a rest ih =>
    cases first : f a with
    | error cause =>
      simp only [List.allM, first, bind, Except.bind] at failed
      exact ⟨a, by simp, first.trans failed⟩
    | ok b =>
      simp only [List.allM, first, bind, Except.bind] at failed
      cases b with
      | false => cases failed
      | true =>
        obtain ⟨b, listed, later⟩ := ih failed
        exact ⟨b, List.mem_cons_of_mem _ listed, later⟩

theorem forall₂_of_mem {α β : Type} {R : α → β → Prop} {l : List α} {u : List β} {b : β}
    (each : List.Forall₂ R l u) (member : b ∈ u) : ∃ a ∈ l, R a b := by
  induction each with
  | nil => cases member
  | cons first _ ih =>
    rcases List.mem_cons.mp member with rfl | later
    · exact ⟨_, by simp, first⟩
    · obtain ⟨a, listed, related⟩ := ih later
      exact ⟨a, List.mem_cons_of_mem _ listed, related⟩

theorem mem_of_lookup {α β : Type} [BEq α] [LawfulBEq α] {l : List (α × β)} {k : α} {b : β}
    (found : l.lookup k = some b) : (k, b) ∈ l := by
  obtain ⟨before, after, whole, -⟩ := List.lookup_eq_some_iff.mp found
  exact whole ▸ List.mem_append_right _ (List.mem_cons_self ..)

theorem lookup_filter_key {α β : Type} [BEq α] [LawfulBEq α] {q : α → Bool} (l : List (α × β))
    (k : α) : (l.filter fun entry => q entry.1).lookup k = if q k then l.lookup k else none := by
  induction l with
  | nil => simp
  | cons entry rest ih =>
    obtain ⟨k', b⟩ := entry
    rw [List.filter_cons]
    by_cases same : k = k'
    · subst same
      cases taken : q k <;> simp [taken, ih]
    · have other : (k == k') = false := beq_eq_false_iff_ne.mpr same
      cases taken : q k' <;> simp [List.lookup_cons, other, ih]

theorem pairwise_mergeSort_key {α : Type} {r : α → α → Prop} (key : α → Nat) {l : List α}
    (ordered : l.Pairwise r) : (l.mergeSort fun a b => key b ≤ key a).Pairwise
      fun a b => key b < key a ∨ (key b = key a ∧ r a b) := by
  have total : ∀ a b : α, (decide (key b ≤ key a) || decide (key a ≤ key b)) = true := by
    simp; omega
  have trans : ∀ a b c : α, decide (key b ≤ key a) = true → decide (key c ≤ key b) = true →
      decide (key c ≤ key a) = true := by
    simp; omega
  refine List.pairwise_iff_forall_sublist.mpr fun {a b} pair => ?_
  have falls := List.pairwise_iff_forall_sublist.mp (List.pairwise_mergeSort trans total l) pair
  rcases Nat.lt_or_eq_of_le (of_decide_eq_true falls) with less | same
  · exact .inl less
  refine .inr ⟨same, ?_⟩
  -- what has the same key comes in the order in which it came before, since that is sorted
  have flat : (l.filter (key · = key a)).Pairwise fun a b => decide (key b ≤ key a) = true := by
    refine List.pairwise_iff_forall_sublist.mpr fun {x y} inner => ?_
    have first := (List.mem_filter.mp (inner.subset (a := x) (by simp))).2
    have second := (List.mem_filter.mp (inner.subset (a := y) (by simp))).2
    simp only [decide_eq_true_eq] at first second
    simp [first, second]
  have kept := (List.sublist_mergeSort trans total flat List.filter_sublist).filter (key · = key a)
  rw [List.filter_filter] at kept
  simp only [Bool.and_self] at kept
  have level := kept.eq_of_length (((List.mergeSort_perm l _).filter _).length_eq.symm)
  have inner := pair.filter (key · = key a)
  rw [← level] at inner
  simp only [List.filter_cons, same, decide_true, if_true, List.filter_nil] at inner
  exact List.pairwise_iff_forall_sublist.mp ordered (inner.trans List.filter_sublist)

end PinnedTree
