import PinnedTree.Proofs.Disk.Frame
import PinnedTree.World

namespace PinnedTree

namespace World

/-- From one world to another some steps were taken, all of them allowed and recorded. -/
structure Ran (w w' : World) (steps : List Step) : Prop where
  history : w'.steps = steps.reverse ++ w.steps
  disk : w'.disk = Step.applyAll w.disk steps
  fit : Step.AllFit w.disk steps

theorem Ran.refl {w w' : World} (steps : w'.steps = w.steps) (disk : w'.disk = w.disk) :
    w.Ran w' [] := ⟨by simp [steps], by simp [disk], trivial⟩

theorem Ran.trans {w w' w'' : World} {first second : List Step} (one : w.Ran w' first)
    (two : w'.Ran w'' second) : w.Ran w'' (first ++ second) where
  history := by rw [two.history, one.history, List.reverse_append, List.append_assoc]
  disk := by rw [two.disk, one.disk, Step.applyAll_append]
  fit := Step.allFit_append.mpr ⟨one.fit, one.disk ▸ two.fit⟩

theorem perform_ran (w : World) (steps : List Step) (fit : Step.AllFit w.disk steps) :
    w.Ran (steps.foldl perform w) steps := by
  induction steps generalizing w with
  | nil => exact .refl rfl rfl
  | cons step rest ih =>
    have one : w.Ran (w.perform step) [step] := ⟨rfl, rfl, fit.1, trivial⟩
    exact one.trans (ih (w.perform step) fit.2)

end World

namespace Action

variable {ε ε' α β : Type}

def exec (action : Action ε α) (w : World) : Except ε α × World := action.run.run w

theorem exec_bind (x : Action ε α) (f : α → Action ε β) (w : World) :
    (x >>= f).exec w = match x.exec w with
      | (.ok a, w') => (f a).exec w'
      | (.error e, w') => (.error e, w') := by
  simp only [exec, bind, ExceptT.bind, ExceptT.run, ExceptT.mk, StateT.run, StateT.bind]
  cases ran : x w with
  | mk answer w' => cases answer <;> rfl

theorem exec_bind_ok {x : Action ε α} {f : α → Action ε β} {w w' : World} {a : α}
    (ran : x.exec w = (.ok a, w')) : (x >>= f).exec w = (f a).exec w' := by
  rw [exec_bind, ran]

theorem exec_bind_eq_ok {x : Action ε α} {f : α → Action ε β} {w w' : World} {b : β} :
    (x >>= f).exec w = (.ok b, w') ↔ ∃ a w₁, x.exec w = (.ok a, w₁) ∧ (f a).exec w₁ = (.ok b, w') := by
  rw [exec_bind]
  rcases x.exec w with ⟨_ | a, w₁⟩ <;> simp

theorem exec_pure (a : α) (w : World) : (pure a : Action ε α).exec w = (.ok a, w) := rfl

theorem exec_get_bind (next : World → Action ε α) (w : World) :
    (get >>= next).exec w = (next w).exec w := rfl

theorem exec_observe_bind (f : Disk → β) (next : β → Action ε α) (w : World) :
    (observe f >>= next).exec w = (next (f w.disk)).exec w := rfl

/-- An action takes allowed steps only, one property holds of the disk before, between and after
them, and another of the answer and the disk at the end. -/
def Ensures (action : Action ε α) (always : Disk → Prop) (post : Except ε α → Disk → Prop)
    (w : World) : Prop :=
  ∃ steps, w.Ran (action.exec w).2 steps ∧
    (∀ n, always (Step.applyAll w.disk (steps.take n))) ∧
    post (action.exec w).1 (action.exec w).2.disk

variable {always : Disk → Prop} {post : Except ε α → Disk → Prop} {w : World}

theorem Ensures.still {action : Action ε α} (steps : (action.exec w).2.steps = w.steps)
    (disk : (action.exec w).2.disk = w.disk) (now : always w.disk)
    (holds : post (action.exec w).1 w.disk) : action.Ensures always post w :=
  ⟨[], .refl steps disk, by simpa using now, disk ▸ holds⟩

theorem Ensures.of_exec {action : Action ε α} {r : Except ε α} (ran : action.exec w = (r, w))
    (now : always w.disk) (holds : post r w.disk) : action.Ensures always post w :=
  .still (by rw [ran]) (by rw [ran]) now (by rw [ran]; exact holds)

theorem Ensures.of_exec_eq {x y : Action ε α} {w' : World} (same : x.exec w = y.exec w')
    (steps : w'.steps = w.steps) (disk : w'.disk = w.disk) (ensured : y.Ensures always post w') :
    x.Ensures always post w := by
  obtain ⟨taken, ⟨history, ends, fit⟩, holds, after⟩ := ensured
  rw [steps] at history
  rw [disk] at ends fit holds
  exact ⟨taken, same ▸ ⟨history, ends, fit⟩, holds, same ▸ after⟩

theorem Ensures.seen {action : Action ε α} (ensured : action.Ensures always post w) :
    action.Ensures always (fun r d => post r d ∧ always d) w := by
  obtain ⟨steps, ran, holds, ends⟩ := ensured
  refine ⟨steps, ran, holds, ends, ?_⟩
  rw [ran.disk]
  simpa using holds steps.length

theorem Ensures.ends {action : Action ε α} (ensured : action.Ensures always post w) :
    post (action.exec w).1 (action.exec w).2.disk := ensured.choose_spec.2.2

theorem Ensures.also {action : Action ε α} {always' : Disk → Prop}
    {post' : Except ε α → Disk → Prop} (one : action.Ensures always post w)
    (two : action.Ensures always' post' w) :
    action.Ensures always (fun r d => post r d ∧ post' r d) w := by
  obtain ⟨steps, ran, holds, ends⟩ := one
  exact ⟨steps, ran, holds, ends, two.ends⟩

theorem Ensures.cut {action : Action ε α} (ensured : action.Ensures always post w) (count : Nat) :
    always (Step.applyAll w.disk
      (((action.exec w).2.history.drop w.history.length).take count)) := by
  obtain ⟨steps, ran, holds, -⟩ := ensured
  have taken : (action.exec w).2.history.drop w.history.length = steps := by
    simp [World.history, ran.history]
  rw [taken]
  exact holds count

theorem Ensures.mono {action : Action ε α} {post' : Except ε α → Disk → Prop}
    (ensured : action.Ensures always post w) (weaker : ∀ r d, post r d → post' r d) :
    action.Ensures always post' w := by
  obtain ⟨steps, ran, holds, ends⟩ := ensured
  exact ⟨steps, ran, holds, weaker _ _ ends⟩

theorem Ensures.weaken {action : Action ε α} {always' : Disk → Prop}
    (ensured : action.Ensures always post w) (weaker : ∀ d, always d → always' d) :
    action.Ensures always' post w := by
  obtain ⟨steps, ran, holds, ends⟩ := ensured
  exact ⟨steps, ran, fun n => weaker _ (holds n), ends⟩

theorem Ensures.unwatched {action : Action ε α} (ensured : action.Ensures always post w) :
    action.Ensures (fun _ => True) post w := ensured.weaken fun _ _ => trivial

theorem Ensures.keeping {action : Action ε α} (ensured : action.Ensures always post w)
    (sound : w.disk.Sound) :
    action.Ensures (fun e => always e ∧ e.Sound ∧ e.home = w.disk.home)
      (fun r e => post r e ∧ e.Sound ∧ e.home = w.disk.home) w := by
  obtain ⟨steps, ran, holds, ends⟩ := ensured
  refine ⟨steps, ran, fun n => ⟨holds n, (ran.fit.take n).sound sound, by simp⟩, ends, ?_, ?_⟩
  · exact ran.disk ▸ ran.fit.sound sound
  · simp [ran.disk]

private theorem always_append {d : Disk} {first second : List Step}
    (one : ∀ n, always (Step.applyAll d (first.take n)))
    (two : ∀ n, always (Step.applyAll (Step.applyAll d first) (second.take n))) (n : Nat) :
    always (Step.applyAll d ((first ++ second).take n)) := by
  rw [List.take_append, Step.applyAll_append]
  by_cases short : n ≤ first.length
  · have none : n - first.length = 0 := by omega
    simpa [none] using one n
  · rw [List.take_of_length_le (by omega)]
    exact two _

theorem Ensures.bind_exec {x : Action ε α} {f : α → Action ε β} {mid : Except ε α → Disk → Prop}
    {post : Except ε β → Disk → Prop} (first : x.Ensures always mid w)
    (next : ∀ a, (x.exec w).1 = .ok a → mid (.ok a) (x.exec w).2.disk →
      (f a).Ensures always post (x.exec w).2)
    (fails : ∀ e d, mid (.error e) d → post (.error e) d) :
    (x >>= f).Ensures always post w := by
  obtain ⟨steps, ran, holds, ends⟩ := first
  unfold Ensures
  rw [exec_bind]
  rcases ran' : x.exec w with ⟨answer, w'⟩
  rw [ran'] at ran ends next
  cases answer with
  | error e => exact ⟨steps, ran, holds, fails _ _ ends⟩
  | ok a =>
    obtain ⟨more, ran', holds', ends'⟩ := next a rfl ends
    refine ⟨steps ++ more, ran.trans ran', always_append holds ?_, ends'⟩
    intro n
    have := holds' n
    rwa [show w'.disk = _ from ran.disk] at this

theorem Ensures.bind {x : Action ε α} {f : α → Action ε β} {mid : Except ε α → Disk → Prop}
    {post : Except ε β → Disk → Prop} (first : x.Ensures always mid w)
    (next : ∀ a w', mid (.ok a) w'.disk → (f a).Ensures always post w')
    (fails : ∀ e d, mid (.error e) d → post (.error e) d) :
    (x >>= f).Ensures always post w :=
  first.bind_exec (fun a _ holds => next a _ holds) fails

theorem Ensures.andThen {x : Action ε α} {f : α → Action ε β} {mid : Except ε α → Disk → Prop}
    {post : Except ε β → Disk → Prop} (first : x.Ensures always mid w) (sound : w.disk.Sound)
    (next : ∀ a w', w'.disk.Sound → w'.disk.home = w.disk.home → mid (.ok a) w'.disk →
      (f a).Ensures always post w')
    (fails : ∀ e d, d.Sound → d.home = w.disk.home → mid (.error e) d → post (.error e) d) :
    (x >>= f).Ensures always post w :=
  ((first.keeping sound).weaken fun _ both => both.1).bind
    (fun a w' holds => next a w' holds.2.1 holds.2.2 holds.1)
    fun e d holds => fails e d holds.2.1 holds.2.2 holds.1

theorem ensures_pure {a : α} (now : always w.disk) (holds : post (.ok a) w.disk) :
    (pure a : Action ε α).Ensures always post w := .still rfl rfl now holds

theorem ensures_throw {e : ε} (now : always w.disk) (holds : post (.error e) w.disk) :
    (throw e : Action ε α).Ensures always post w := .still rfl rfl now holds

theorem ensures_get {f : World → Action ε α} (next : (f w).Ensures always post w) :
    (get >>= f).Ensures always post w := by
  unfold Ensures
  rw [exec_get_bind]
  exact next

theorem ensures_observe_bind {f : Disk → β} {next : β → Action ε α}
    (ensured : (next (f w.disk)).Ensures always post w) :
    (observe f >>= next).Ensures always post w := by
  have read : (observe f >>= next).exec w = (next (f w.disk)).exec w := rfl
  unfold Ensures
  rw [read]
  exact ensured

theorem exec_ofExcept (answer : Except ε α) (w : World) :
    (match answer with
      | .ok a => (pure a : Action ε α)
      | .error e => throw e).exec w = (answer, w) := by
  cases answer <;> rfl

theorem exec_query (f : Disk → Except ε α) (w : World) : (query f).exec w = (f w.disk, w) := by
  unfold query
  rw [exec_bind]
  exact exec_ofExcept (f w.disk) w

theorem exec_change (f : Disk → Except ε (List Step)) (w : World) :
    (change f).exec w = match f w.disk with
      | .ok steps => (.ok (), steps.foldl World.perform w)
      | .error e => (.error e, w) := by
  unfold change
  rw [exec_bind, exec_query]
  cases f w.disk <;> rfl

theorem exec_changeOnce (f : Disk → Except ε Step) (w : World) :
    (changeOnce f).exec w = match f w.disk with
      | .ok step => (.ok (), w.perform step)
      | .error e => (.error e, w) := by
  unfold changeOnce
  rw [exec_bind, exec_query]
  cases f w.disk <;> rfl

theorem ensures_change_congr {f g : Disk → Except ε (List Step)} {post : Except ε Unit → Disk → Prop}
    (same : f w.disk = g w.disk) (ensured : (change g).Ensures always post w) :
    (change f).Ensures always post w := by
  have alike : (change f).exec w = (change g).exec w := by rw [exec_change, exec_change, same]
  unfold Ensures
  rw [alike]
  exact ensured

theorem ensures_query {f : Disk → Except ε α} (now : always w.disk)
    (holds : post (f w.disk) w.disk) : (query f).Ensures always post w := by
  refine .still ?_ ?_ now ?_ <;> simp [exec_query, holds]

theorem ensures_isCancelled {post : Except ε Bool → Disk → Prop} (now : always w.disk)
    (holds : ∀ seen, post (.ok seen) w.disk) :
    (isCancelled : Action ε Bool).Ensures always post w := .still rfl rfl now (holds _)

theorem ensures_perform {steps : List Step} {post : Except ε Unit → Disk → Prop}
    (fit : Step.AllFit w.disk steps)
    (holds : ∀ n, always (Step.applyAll w.disk (steps.take n)))
    (ends : post (.ok ()) (Step.applyAll w.disk steps)) :
    (perform steps : Action ε Unit).Ensures always post w := by
  have ran := w.perform_ran steps fit
  exact ⟨steps, ran, holds, ran.disk ▸ ends⟩

theorem ensures_change {f : Disk → Except ε (List Step)} {post : Except ε Unit → Disk → Prop}
    (now : always w.disk) (refused : ∀ e, f w.disk = .error e → post (.error e) w.disk)
    (taken : ∀ steps, f w.disk = .ok steps → Step.AllFit w.disk steps ∧
      (∀ n, always (Step.applyAll w.disk (steps.take n))) ∧
      post (.ok ()) (Step.applyAll w.disk steps)) :
    (change f).Ensures always post w := by
  have asked : (query f).Ensures always (fun r d => d = w.disk ∧ r = f w.disk) w :=
    ensures_query now ⟨rfl, rfl⟩
  refine asked.bind ?_ ?_
  · rintro steps w' ⟨same, found⟩
    obtain ⟨fit, holds, ends⟩ := taken steps found.symm
    exact ensures_perform (same ▸ fit) (same ▸ holds) (same ▸ ends)
  · rintro e d ⟨rfl, found⟩
    exact refused e found.symm

theorem ensures_changeOnce {f : Disk → Except ε Step} {post : Except ε Unit → Disk → Prop}
    (now : always w.disk) (refused : ∀ e, f w.disk = .error e → post (.error e) w.disk)
    (taken : ∀ step, f w.disk = .ok step → step.Fits w.disk ∧ always (step.apply w.disk) ∧
      post (.ok ()) (step.apply w.disk)) :
    (changeOnce f).Ensures always post w := by
  have asked : (query f).Ensures always (fun r d => d = w.disk ∧ r = f w.disk) w :=
    ensures_query now ⟨rfl, rfl⟩
  refine asked.bind ?_ ?_
  · rintro step w' ⟨same, found⟩
    obtain ⟨fits, after, ends⟩ := taken step found.symm
    refine ensures_perform ⟨same ▸ fits, trivial⟩ ?_ (same ▸ ends)
    intro n
    cases n with
    | zero => simpa [same] using now
    | succ n => simpa [same] using after
  · rintro e d ⟨rfl, found⟩
    exact refused e found.symm

theorem exec_outcome (action : Action ε α) (w : World) :
    (outcome action : Action ε' (Except ε α)).exec w
      = (.ok (action.exec w).1, (action.exec w).2) := rfl

theorem exec_ignoringFailure (action : Action ε Unit) (w : World) :
    (ignoringFailure action : Action ε' Unit).exec w = (.ok (), (action.exec w).2) := by
  have lifted : exec (liftM action.run : Action ε' (Except ε Unit)) w
      = (.ok (action.exec w).1, (action.exec w).2) := rfl
  unfold ignoringFailure
  rw [exec_bind, lifted]
  cases (action.exec w).1 <;> rfl

theorem exec_reporting (f : ε → ε') (action : Action ε α) (w : World) :
    (reporting f action).exec w = ((action.exec w).1.mapError f, (action.exec w).2) := by
  rfl

theorem exec_reporting_ok {f : ε → ε'} {action : Action ε α} {a : α} {w' : World}
    (ran : action.exec w = (.ok a, w')) : (reporting f action).exec w = (.ok a, w') := by
  rw [exec_reporting, ran]
  rfl

theorem exec_reporting_eq_ok {f : ε → ε'} {action : Action ε α} {a : α} {w w' : World} :
    (reporting f action).exec w = (.ok a, w') ↔ action.exec w = (.ok a, w') := by
  rw [exec_reporting]
  rcases action.exec w with ⟨_ | a, w₁⟩ <;> simp [Except.mapError]

/-- All steps that an action takes are such as are allowed. -/
def Takes (allowed : Step → Prop) (action : Action ε α) (w : World) : Prop :=
  ∃ steps, w.Ran (action.exec w).2 steps ∧ ∀ step ∈ steps, allowed step

variable {allowed : Step → Prop}

theorem Takes.still {action : Action ε α} (steps : (action.exec w).2.steps = w.steps)
    (disk : (action.exec w).2.disk = w.disk) : action.Takes allowed w :=
  ⟨[], .refl steps disk, by simp⟩

theorem Takes.of_exec {action : Action ε α} {r : Except ε α} (ran : action.exec w = (r, w)) :
    action.Takes allowed w := .still (by rw [ran]) (by rw [ran])

theorem Takes.perform {action : Action ε α} {r : Except ε α} {steps : List Step}
    (ran : action.exec w = (r, steps.foldl World.perform w)) (fit : Step.AllFit w.disk steps)
    (each : ∀ step ∈ steps, allowed step) : action.Takes allowed w :=
  ⟨steps, by rw [ran]; exact w.perform_ran steps fit, each⟩

theorem Takes.mono {action : Action ε α} {allowed' : Step → Prop} (takes : action.Takes allowed w)
    (weaker : ∀ step, allowed step → allowed' step) : action.Takes allowed' w := by
  obtain ⟨steps, ran, each⟩ := takes
  exact ⟨steps, ran, fun step member => weaker step (each step member)⟩

theorem Takes.sound {action : Action ε α} (takes : action.Takes allowed w) (sound : w.disk.Sound) :
    (action.exec w).2.disk.Sound := by
  obtain ⟨steps, ran, -⟩ := takes
  rw [ran.disk]
  exact ran.fit.sound sound

theorem Takes.unmoved {action : Action ε α} (takes : action.Takes (fun _ => False) w) :
    (action.exec w).2.disk = w.disk := by
  obtain ⟨steps, ran, none⟩ := takes
  obtain rfl := List.eq_nil_iff_forall_not_mem.mpr none
  exact ran.disk

theorem Takes.bind {x : Action ε α} {f : α → Action ε β} (first : x.Takes allowed w)
    (next : ∀ a w', x.exec w = (.ok a, w') → (f a).Takes allowed w') :
    (x >>= f).Takes allowed w := by
  obtain ⟨steps, ran, each⟩ := first
  unfold Takes
  rw [exec_bind]
  rcases done : x.exec w with ⟨answer, w'⟩
  rw [done] at ran
  cases answer with
  | error fault => exact ⟨steps, ran, each⟩
  | ok a =>
    obtain ⟨more, onward, each'⟩ := next a w' done
    exact ⟨steps ++ more, ran.trans onward, fun step member =>
      (List.mem_append.mp member).elim (each step) (each' step)⟩

theorem Takes.observe_bind {f : Disk → β} {next : β → Action ε α}
    (takes : (next (f w.disk)).Takes allowed w) : (observe f >>= next).Takes allowed w := takes

theorem Takes.reporting {g : ε → ε'} {action : Action ε α} (takes : action.Takes allowed w) :
    (Action.reporting g action).Takes allowed w := takes

theorem Takes.outcome {action : Action ε α} (takes : action.Takes allowed w) :
    (Action.outcome action : Action ε' (Except ε α)).Takes allowed w := takes

theorem Takes.changeOnce {call : Disk → Except ε Step}
    (each : ∀ step, call w.disk = .ok step → step.Fits w.disk ∧ allowed step) :
    (Action.changeOnce call).Takes allowed w := by
  unfold Takes
  rw [exec_changeOnce]
  cases answer : call w.disk with
  | error fault => exact ⟨[], .refl rfl rfl, by simp⟩
  | ok step =>
    obtain ⟨fits, holds⟩ := each step answer
    exact ⟨[step], w.perform_ran [step] ⟨fits, trivial⟩, by simpa using holds⟩

theorem Ensures.outcome {action : Action ε α} {post : Except ε' (Except ε α) → Disk → Prop}
    (ensured : action.Ensures always (fun r d => post (.ok r) d) w) :
    (outcome action : Action ε' (Except ε α)).Ensures always post w := ensured

theorem Ensures.tried {x : Action ε α} {f : Except ε α → Action ε' β}
    {mid : Except ε α → Disk → Prop} {post : Except ε' β → Disk → Prop}
    (first : x.Ensures always mid w) (sound : w.disk.Sound)
    (next : ∀ r w', w'.disk.Sound → w'.disk.home = w.disk.home → mid r w'.disk →
      (f r).Ensures always post w') :
    (Action.outcome x >>= f).Ensures always post w := by
  have answered : (Action.outcome x : Action ε' (Except ε α)).Ensures always
      (fun r e => ∃ answer, r = .ok answer ∧ mid answer e) w :=
    Ensures.outcome (first.mono fun r e holds => ⟨r, rfl, holds⟩)
  refine answered.andThen sound ?_ ?_
  · rintro answer w' sound' home ⟨_, ⟨rfl⟩, holds⟩
    exact next answer w' sound' home holds
  · rintro e d - - ⟨answer, impossible, -⟩
    cases impossible

theorem Ensures.ignoringFailure {action : Action ε Unit} {post : Except ε' Unit → Disk → Prop}
    (ensured : action.Ensures always (fun _ d => post (.ok ()) d) w) :
    (ignoringFailure action : Action ε' Unit).Ensures always post w := by
  unfold Ensures
  rw [exec_ignoringFailure]
  exact ensured

theorem Ensures.ignored {x : Action ε Unit} {f : Unit → Action ε' β} {mid : Disk → Prop}
    {post : Except ε' β → Disk → Prop} (first : x.Ensures always (fun _ e => mid e) w)
    (sound : w.disk.Sound)
    (next : ∀ w', w'.disk.Sound → w'.disk.home = w.disk.home → mid w'.disk →
      (f ()).Ensures always post w') :
    (Action.ignoringFailure x >>= f).Ensures always post w := by
  have answered : (Action.ignoringFailure x : Action ε' Unit).Ensures always
      (fun r e => r = .ok () ∧ mid e) w :=
    Ensures.ignoringFailure (first.mono fun _ _ holds => ⟨rfl, holds⟩)
  refine answered.andThen sound (fun _ w' sound' home holds => next w' sound' home holds.2) ?_
  rintro e d - - ⟨impossible, -⟩
  cases impossible

theorem Ensures.reporting {f : ε → ε'} {action : Action ε α} {post : Except ε' α → Disk → Prop}
    (ensured : action.Ensures always (fun r d => post (r.mapError f) d) w) :
    (reporting f action).Ensures always post w := ensured

theorem Ensures.reported {f : ε → ε'} {action : Action ε α} {holds done : Disk → Prop} {a : α}
    (ensured : action.Ensures always (fun r d => holds d ∧ (r = .ok a → done d)) w) :
    (Action.reporting f action).Ensures always (fun r d => holds d ∧ (r = .ok a → done d)) w := by
  refine Ensures.reporting (ensured.mono ?_)
  intro r d ends
  cases r with
  | error fault => exact ⟨ends.1, by simp [Except.mapError]⟩
  | ok b => exact ⟨ends.1, fun same => ends.2 (by simpa [Except.mapError] using same)⟩

end Action

end PinnedTree
