import ForgeLSM.Util.Run

/-!
# Simulation of one machine by another

A machine that works on representations – bytes, linked nodes – is compared with
one that works on what they stand for. Its steps can fault besides not being
enabled, so they return `Except ε (Option S)`.

`Simulates` is what has to be shown of single steps: between related states no
step faults, and what a step leads to is related to what some run of the other
machine leads to, often of one action and sometimes of none. The other machine
keeps a log, of which every step of the first tells what it adds.
`Simulates.run` carries this along a run, together with the condition each
machine puts on its steps.
-/

variable {C S A B O ε : Type*}

/-- The step of a machine, a fault being a step that cannot be taken. -/
def faultless (step : C → A → Except ε (Option C)) (c : C) (a : A) : Option C :=
  match step c a with
  | .ok next => next
  | .error _ => none

theorem faultless_eq_some {step : C → A → Except ε (Option C)} {c c' : C} {a : A} :
    faultless step c a = some c' ↔ step c a = .ok (some c') := by
  unfold faultless
  cases step c a with
  | ok next => exact ⟨fun h => congrArg Except.ok h, Except.ok.inj⟩
  | error e => exact ⟨nofun, nofun⟩

/-- What the steps of a run put out. -/
def outputs (step : C → A → Option C) (out : C → A → List O) : C → List A → List O
  | _, [] => []
  | c, a :: as => out c a ++ ((step c a).map (fun c' => outputs step out c' as)).getD []

/-- **One machine simulates another**, along steps that meet a condition. -/
structure Simulates (R : C → S → Prop) (step : C → A → Except ε (Option C)) (ok : C → A → Prop)
    (out : C → A → List O) (astep : S → B → Option S) (aok : S → B → Prop) (log : S → List O) :
    Prop where
  /-- No step faults. -/
  noFault : ∀ c a s, R c s → ok c a → ∃ next, step c a = .ok next
  /-- Every step is matched by a run, which logs what it puts out. -/
  matched : ∀ c a c' s, R c s → ok c a → step c a = .ok (some c') →
    ∃ bs s', RunOk astep aok s bs ∧ runSteps astep s bs = some s' ∧ R c' s'
      ∧ log s' = log s ++ out c a

/-- **Every run is matched by a run.** -/
theorem Simulates.run {R : C → S → Prop} {step : C → A → Except ε (Option C)} {ok : C → A → Prop}
    {out : C → A → List O} {astep : S → B → Option S} {aok : S → B → Prop} {log : S → List O}
    (h : Simulates R step ok out astep aok log) {c c' : C} {s : S} {as : List A} (hR : R c s)
    (hok : RunOk (faultless step) ok c as) (hrun : runSteps (faultless step) c as = some c') :
    ∃ bs s', RunOk astep aok s bs ∧ runSteps astep s bs = some s' ∧ R c' s'
      ∧ log s' = log s ++ outputs (faultless step) out c as := by
  induction as generalizing c s with
  | nil =>
    cases hrun
    exact ⟨[], s, trivial, rfl, hR, (List.append_nil _).symm⟩
  | cons a as ih =>
    obtain ⟨t, ht, hr⟩ := runSteps_cons.mp hrun
    obtain ⟨bs, s₁, hbok, hbrun, hR₁, hlog⟩ :=
      h.matched c a t s hR hok.1 (faultless_eq_some.mp ht)
    obtain ⟨bs', s', hbok', hbrun', hR', hlog'⟩ := ih hR₁ (hok.2 t ht) hr
    refine ⟨bs ++ bs', s', runOk_append.mpr ⟨hbok, fun u hu => ?_⟩,
      runSteps_append.mpr ⟨s₁, hbrun, hbrun'⟩, hR', ?_⟩
    · cases hu.symm.trans hbrun
      exact hbok'
    · rw [hlog', hlog, outputs, ht, List.append_assoc]
      rfl
