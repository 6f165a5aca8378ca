import PinnedTree.Proofs.Trace

namespace PinnedTree.Action

variable {ε ε' α β : Type} {w : World} {a : α}

def Succeeds (action : Action ε α) (w : World) (a : α) : Prop :=
  ∃ w', action.exec w = (.ok a, w') ∧ w'.locks = w.locks

theorem Succeeds.bind {x : Action ε α} {f : α → Action ε β} {b : β} {always : Disk → Prop}
    {mid : Except ε α → Disk → Prop} (first : x.Succeeds w a) (ensured : x.Ensures always mid w)
    (next : ∀ w', w'.locks = w.locks → mid (.ok a) w'.disk → (f a).Succeeds w' b) :
    (x >>= f).Succeeds w b := by
  obtain ⟨w', ran, same⟩ := first
  have holds := ensured.ends
  rw [ran] at holds
  obtain ⟨w'', ran', same'⟩ := next w' same holds
  exact ⟨w'', (exec_bind_ok ran).trans ran', same'.trans same⟩

theorem Succeeds.reporting {f : ε → ε'} {action : Action ε α} (succeeds : action.Succeeds w a) :
    (reporting f action).Succeeds w a := by
  obtain ⟨w', ran, same⟩ := succeeds
  refine ⟨w', ?_, same⟩
  rw [exec_reporting, ran]
  rfl

theorem Succeeds.ends {action : Action ε α} {always : Disk → Prop}
    {post : Except ε α → Disk → Prop} (succeeds : action.Succeeds w a)
    (ensured : action.Ensures always post w) :
    ∃ w', action.exec w = (.ok a, w') ∧ w'.locks = w.locks ∧ post (.ok a) w'.disk := by
  obtain ⟨w', ran, same⟩ := succeeds
  have holds := ensured.ends
  rw [ran] at holds
  exact ⟨w', ran, same, holds⟩

def FailsAs (action : Action ε α) (kind : ε → Prop) : Prop :=
  ∀ w e, (action.exec w).1 = .error e → kind e

section FailsAs

variable {kind : ε → Prop}

theorem failsAs_pure : (pure a : Action ε α).FailsAs kind := by
  intro w e impossible
  cases impossible

theorem failsAs_throw {e : ε} (holds : kind e) : (throw e : Action ε α).FailsAs kind := by
  rintro w _ ⟨⟩
  exact holds

theorem FailsAs.bind {x : Action ε α} {f : α → Action ε β} (first : x.FailsAs kind)
    (next : ∀ a, (f a).FailsAs kind) : (x >>= f).FailsAs kind := by
  intro w e failed
  rw [exec_bind] at failed
  rcases ran : x.exec w with ⟨r, w'⟩
  rw [ran] at failed
  cases r with
  | error fault =>
    cases failed
    exact first w e (by rw [ran])
  | ok a => exact next a w' e failed

theorem FailsAs.reporting {kind : ε' → Prop} {f : ε → ε'} (each : ∀ e, kind (f e))
    (action : Action ε α) : (reporting f action).FailsAs kind := by
  intro w e failed
  rw [exec_reporting] at failed
  cases answer : (action.exec w).1 with
  | error fault =>
    rw [answer] at failed
    cases failed
    exact each fault
  | ok a =>
    rw [answer] at failed
    cases failed

theorem failsAs_query {f : Disk → Except ε α} (each : ∀ d e, f d = .error e → kind e) :
    (query f).FailsAs kind := by
  intro w e failed
  rw [exec_query] at failed
  exact each w.disk e failed

theorem FailsAs.tried {kind' : ε' → Prop} {x : Action ε α} {f : Except ε α → Action ε' β}
    (first : x.FailsAs kind) (next : ∀ r, (∀ e, r = .error e → kind e) → (f r).FailsAs kind') :
    (outcome x >>= f).FailsAs kind' := by
  intro w e failed
  have asked : (outcome x : Action ε' (Except ε α)).exec w = (.ok (x.exec w).1, (x.exec w).2) :=
    exec_outcome x w
  rw [exec_bind_ok asked] at failed
  exact next _ (fun e => first w e) _ e failed

end FailsAs

section SucceedsIff

variable {ε ε' α β : Type} {w : World} {p q : Prop} {post : α → World → Prop} {kind : ε → Prop}

structure SucceedsIff (action : Action ε α) (w : World) (p : Prop) (post : α → World → Prop)
    (kind : ε → Prop) : Prop where
  succeeds : p → ∃ a w', action.exec w = (.ok a, w') ∧ post a w'
  fails : ¬ p → ∃ e w', action.exec w = (.error e, w') ∧ kind e

theorem SucceedsIff.of_exec {action : Action ε α} {a : α} {w' : World}
    (ran : action.exec w = (.ok a, w')) (ends : p → post a w') (always : p) :
    action.SucceedsIff w p post kind :=
  ⟨fun holds => ⟨a, w', ran, ends holds⟩, fun not => absurd always not⟩

theorem SucceedsIff.of_error {action : Action ε α} {e : ε} {w' : World}
    (ran : action.exec w = (.error e, w')) (holds : kind e) (never : ¬ p) :
    action.SucceedsIff w p post kind :=
  ⟨fun done => absurd done never, fun _ => ⟨e, w', ran, holds⟩⟩

theorem SucceedsIff.congr {action : Action ε α} (one : action.SucceedsIff w p post kind)
    (same : q ↔ p) : action.SucceedsIff w q post kind :=
  ⟨fun holds => one.succeeds (same.mp holds), fun not => one.fails fun holds => not (same.mpr holds)⟩

theorem SucceedsIff.mono {action : Action ε α} {kind' : ε → Prop}
    (one : action.SucceedsIff w p post kind) (weaker : ∀ e, kind e → kind' e) :
    action.SucceedsIff w p post kind' := by
  refine ⟨one.succeeds, fun not => ?_⟩
  obtain ⟨e, w', ran, holds⟩ := one.fails not
  exact ⟨e, w', ran, weaker e holds⟩

theorem SucceedsIff.bind {x : Action ε α} {f : α → Action ε β} {mid : α → World → Prop}
    {post : β → World → Prop} (first : x.SucceedsIff w p mid kind)
    (next : p → ∀ a w', mid a w' → (f a).SucceedsIff w' q post kind) :
    (x >>= f).SucceedsIff w (p ∧ q) post kind := by
  by_cases holds : p
  · obtain ⟨a, w', ran, ends⟩ := first.succeeds holds
    have second := next holds a w' ends
    constructor
    · rintro ⟨-, more⟩
      rw [exec_bind_ok ran]
      exact second.succeeds more
    · intro neither
      rw [exec_bind_ok ran]
      exact second.fails fun more => neither ⟨holds, more⟩
  · obtain ⟨e, w', ran, failed⟩ := first.fails holds
    exact .of_error (by rw [exec_bind, ran]) failed fun both => holds both.1

theorem SucceedsIff.after {x : Action ε α} {f : α → Action ε β} {a : α} {w' : World}
    {post : β → World → Prop} (ran : x.exec w = (.ok a, w'))
    (next : (f a).SucceedsIff w' p post kind) : (x >>= f).SucceedsIff w p post kind := by
  have same := exec_bind_ok (f := f) ran
  exact ⟨fun holds => by rw [same]; exact next.succeeds holds,
    fun not => by rw [same]; exact next.fails not⟩

theorem SucceedsIff.reporting {f : ε → ε'} {kind : ε' → Prop} {action : Action ε α}
    (one : action.SucceedsIff w p post fun e => kind (f e)) :
    (reporting f action).SucceedsIff w p post kind := by
  constructor
  · intro holds
    obtain ⟨a, w', ran, ends⟩ := one.succeeds holds
    exact ⟨a, w', exec_reporting_ok ran, ends⟩
  · intro not
    obtain ⟨e, w', ran, failed⟩ := one.fails not
    refine ⟨f e, w', ?_, failed⟩
    rw [exec_reporting, ran]
    rfl

theorem succeedsIff_query {f : Disk → Except ε α} {a : α} (found : p → f w.disk = .ok a)
    (refused : ¬ p → ∃ e, f w.disk = .error e ∧ kind e) (ends : p → post a w) :
    (query f).SucceedsIff w p post kind := by
  constructor
  · intro holds
    exact ⟨a, w, by rw [exec_query, found holds], ends holds⟩
  · intro not
    obtain ⟨e, failed, holds⟩ := refused not
    exact ⟨e, w, by rw [exec_query, failed], holds⟩

theorem succeedsIff_changeOnce {f : Disk → Except ε Step} {post : Unit → World → Prop} {step : Step}
    (found : p → f w.disk = .ok step) (refused : ¬ p → ∃ e, f w.disk = .error e ∧ kind e)
    (ends : p → post () (w.perform step)) : (changeOnce f).SucceedsIff w p post kind := by
  constructor
  · intro holds
    exact ⟨(), _, by rw [exec_changeOnce, found holds], ends holds⟩
  · intro not
    obtain ⟨e, failed, holds⟩ := refused not
    exact ⟨e, w, by rw [exec_changeOnce, failed], holds⟩

end SucceedsIff

end PinnedTree.Action
