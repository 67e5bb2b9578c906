import Mathlib

/-!
# Runs of a partial step function

A system is a type of states and a step function that takes the action
performed – a client's operation, a background task, a crash – and is
undefined where the action is not enabled. A run is a list of actions; a
property of every reachable state is proved once per action and carried
along the run by `invariant_of_runOk`.

`RunOk ok` is the runs every step of which meets a condition on the action
and the state it is taken in, which is how "as long as the background
tasks are taken in this order" is said. `visited` is the states a run goes
through, for what is said of some state on the way.
-/

variable {S A : Type*}

/-- Take a list of actions one after the other. -/
def runSteps (step : S → A → Option S) : S → List A → Option S
  | s, [] => some s
  | s, a :: as => (step s a).bind (fun s' => runSteps step s' as)

/-- **Every step of the run meets the condition** in the state it is taken
in. -/
def RunOk (step : S → A → Option S) (ok : S → A → Prop) : S → List A → Prop
  | _, [] => True
  | s, a :: as => ok s a ∧ ∀ s', step s a = some s' → RunOk step ok s' as

section

variable {step : S → A → Option S} {as : List A} {ok : S → A → Prop}

instance RunOk.decidable {ok : S → A → Prop} [∀ s a, Decidable (ok s a)] :
    ∀ s as, Decidable (RunOk step ok s as)
  | _, [] => isTrue trivial
  | s, a :: as =>
    match h : step s a with
    | none => decidable_of_iff (ok s a) (by simp [RunOk, h])
    | some t =>
      have : Decidable (RunOk step ok t as) := RunOk.decidable t as
      decidable_of_iff (ok s a ∧ RunOk step ok t as) (by simp [RunOk, h])

@[simp] theorem runSteps_nil (s : S) : runSteps step s [] = some s := rfl

theorem runSteps_cons {s s' : S} {a : A} :
    runSteps step s (a :: as) = some s'
      ↔ ∃ t, step s a = some t ∧ runSteps step t as = some s' := by
  rw [runSteps, Option.bind_eq_some_iff]

/-- The state a run ends in, where it does not matter what a run that is not
enabled ends in. -/
def finalState (step : S → A → Option S) (s : S) (as : List A) : S :=
  (runSteps step s as).getD s

theorem runSteps_eq_finalState {s : S} (h : (runSteps step s as).isSome = true) :
    runSteps step s as = some (finalState step s as) := by
  obtain ⟨t, ht⟩ := Option.isSome_iff_exists.mp h
  rw [finalState, ht, Option.getD_some]

/-- A run splits at any point. -/
theorem runSteps_append {s s' : S} {as bs : List A} :
    runSteps step s (as ++ bs) = some s'
      ↔ ∃ t, runSteps step s as = some t ∧ runSteps step t bs = some s' := by
  induction as generalizing s with
  | nil => simp
  | cons a as ih =>
    simp only [List.cons_append, runSteps_cons, ih]
    constructor
    · rintro ⟨t, ht, u, hu, hr⟩
      exact ⟨u, ⟨t, ht, hu⟩, hr⟩
    · rintro ⟨u, ⟨t, ht, hu⟩, hr⟩
      exact ⟨t, ht, u, hu, hr⟩

/-- The condition along a run that is cut in two. -/
theorem runOk_append {s : S} {as bs : List A} :
    RunOk step ok s (as ++ bs)
      ↔ RunOk step ok s as ∧ ∀ t, runSteps step s as = some t → RunOk step ok t bs := by
  induction as generalizing s with
  | nil => simp [RunOk]
  | cons a as ih =>
    simp only [List.cons_append, RunOk, ih, runSteps_cons]
    constructor
    · rintro ⟨ha, h⟩
      exact ⟨⟨ha, fun t ht => (h t ht).1⟩, fun u ⟨t, ht, hu⟩ => (h t ht).2 u hu⟩
    · rintro ⟨⟨ha, h⟩, h'⟩
      exact ⟨ha, fun t ht => ⟨h t ht, fun u hu => h' u ⟨t, ht, hu⟩⟩⟩

/-- **The invariant rule.** What holds at the start and is kept by every
step that meets the condition holds at the end of every run of such
steps. -/
theorem invariant_of_runOk {inv : S → Prop}
    (hstep : ∀ s a s', inv s → ok s a → step s a = some s' → inv s') {s s' : S} (hs : inv s)
    (hok : RunOk step ok s as) (hrun : runSteps step s as = some s') : inv s' := by
  induction as generalizing s with
  | nil =>
    cases hrun
    exact hs
  | cons a as ih =>
    obtain ⟨t, ht, hr⟩ := runSteps_cons.mp hrun
    exact ih (hstep s a t hs hok.1 ht) (hok.2 t ht) hr

/-- A condition on the actions alone. -/
theorem runOk_of_forall {ok : A → Prop} (h : ∀ a ∈ as, ok a) (s : S) :
    RunOk step (fun _ a => ok a) s as := by
  induction as generalizing s with
  | nil => trivial
  | cons a as ih =>
    exact ⟨h a List.mem_cons_self, fun t _ => ih (fun b hb => h b (List.mem_cons_of_mem a hb)) t⟩

/-- The invariant rule for a step function with no condition on its steps. -/
theorem invariant_of_run {inv : S → Prop} (hstep : ∀ s a s', inv s → step s a = some s' → inv s')
    {s s' : S} (hs : inv s) (hrun : runSteps step s as = some s') : inv s' :=
  invariant_of_runOk (fun s a s' hi _ => hstep s a s' hi) hs
    (runOk_of_forall (fun _ _ => trivial) s) hrun

/-- **The invariant rule with a log**: a run adds to it what its actions add. -/
theorem log_of_runOk {B : Type*} {inv : S → Prop} {log : S → List B} {out : A → List B}
    (hstep : ∀ s a s', inv s → ok s a → step s a = some s' → inv s' ∧ log s' = log s ++ out a)
    {s s' : S} (hs : inv s) (hok : RunOk step ok s as) (hrun : runSteps step s as = some s') :
    inv s' ∧ log s' = log s ++ as.flatMap out := by
  induction as generalizing s with
  | nil =>
    cases hrun
    exact ⟨hs, (List.append_nil _).symm⟩
  | cons a as ih =>
    obtain ⟨t, ht, hr⟩ := runSteps_cons.mp hrun
    obtain ⟨hinv, hlog⟩ := hstep s a t hs hok.1 ht
    obtain ⟨hend, hrest⟩ := ih hinv (hok.2 t ht) hr
    exact ⟨hend, by rw [hrest, hlog, List.append_assoc, List.flatMap_cons]⟩

/-- A run of steps that meet a condition meets every weaker one. -/
theorem RunOk.imp {ok ok' : S → A → Prop} (h : ∀ s a, ok s a → ok' s a) {s : S}
    (hok : RunOk step ok s as) : RunOk step ok' s as := by
  induction as generalizing s with
  | nil => trivial
  | cons a as ih => exact ⟨h s a hok.1, fun t ht => ih (hok.2 t ht)⟩

/-! ## The states on the way -/

/-- **The states a run goes through**, the first and the last included. -/
def visited (step : S → A → Option S) : S → List A → List S
  | s, [] => [s]
  | s, a :: as => s :: ((step s a).map (fun t => visited step t as)).getD []

theorem self_mem_visited (s : S) (as : List A) : s ∈ visited step s as := by
  cases as <;> exact List.mem_cons_self

theorem visited_subset_cons {s t : S} {a : A} (h : step s a = some t) :
    visited step t as ⊆ visited step s (a :: as) := by
  intro u hu
  rw [visited, h]
  exact List.mem_cons_of_mem s hu

/-- The invariant rule, for the states on the way. -/
theorem invariant_of_mem_visited {inv : S → Prop}
    (hstep : ∀ s a s', inv s → ok s a → step s a = some s' → inv s') {s u : S} (hs : inv s)
    (hok : RunOk step ok s as) (hu : u ∈ visited step s as) : inv u := by
  induction as generalizing s with
  | nil =>
    obtain rfl := List.mem_singleton.mp hu
    exact hs
  | cons a as ih =>
    rcases List.mem_cons.mp hu with rfl | hu
    · exact hs
    · cases ht : step s a with
      | none =>
        rw [ht] at hu
        cases hu
      | some t =>
        rw [ht] at hu
        exact ih (hstep s a t hs hok.1 ht) (hok.2 t ht) hu

/-- **The invariant rule with the states on the way**: the invariant may say
of something that it was so in one of them. -/
theorem invariant_of_visited {inv : S → Prop} {V : S → Prop}
    (hstep : ∀ s a s', inv s → V s' → ok s a → step s a = some s' → inv s') {s s' : S} (hs : inv s)
    (hV : ∀ u ∈ visited step s as, V u) (hok : RunOk step ok s as)
    (hrun : runSteps step s as = some s') : inv s' := by
  induction as generalizing s with
  | nil =>
    cases hrun
    exact hs
  | cons a as ih =>
    obtain ⟨t, ht, hr⟩ := runSteps_cons.mp hrun
    have hVt : ∀ u ∈ visited step t as, V u := fun u hu => hV u (visited_subset_cons ht hu)
    exact ih (hstep s a t hs (hVt t (self_mem_visited t as)) hok.1 ht) hVt (hok.2 t ht) hr

end
