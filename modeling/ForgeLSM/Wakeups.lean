import ForgeLSM.Util.Run

/-!
# The wake-ups of a shutdown

`~KVStore` waits until every frozen memtable is flushed, on `bg_flush_cv_`, and
then until no compaction runs, on `bg_compaction_cv_`. What it waits for is
brought about by background tasks: a flush task empties its slot of the ring and
then notifies `bg_flush_cv_`; a compaction task resets `bg_compaction_running_`
and then notifies. But there are two bodies of a compaction task. The one that a
write starts notifies both variables; the one that a flush starts notifies
`bg_flush_cv_` twice.

`Wakeups` is the state of all of this, the mutex `flush_wait_mutex_` making each
change of a predicate and each check of it a step of its own. Waiting for the
flushes is always safe. Waiting for a compaction is safe exactly as long as no
compaction task that a flush started resets the flag while the destructor sleeps
– unless a notification of an earlier task is still to come
(`Wakeups.never_hangs_iff`).
-/

/-- The two condition variables. -/
inductive CondVar where
  | bgFlush
  | bgCompaction
  deriving DecidableEq

/-- What starts a compaction task. -/
inductive Starter where
  /-- `execute_write_request`. -/
  | write
  /-- `flush_immutable`. -/
  | flush
  deriving DecidableEq

/-- What a compaction task notifies after it has reset the flag, in order. -/
def Starter.notifications : Starter → List CondVar
  | .write => [.bgCompaction, .bgFlush]
  | .flush => [.bgFlush, .bgFlush]

/-- How far a flush task is. -/
inductive FlushTaskPhase where
  | writing
  /-- The version has the new table. -/
  | installed
  /-- The body of the flush is over. -/
  | returned
  /-- The slot is empty, and the notification is to come. -/
  | cleared
  deriving DecidableEq

/-- Where the destructor is. -/
inductive Destructor where
  | outside
  | asleep (cv : CondVar)
  /-- Notified, and about to check its predicate again. -/
  | woken (cv : CondVar)
  | finished
  deriving DecidableEq

/-- **The state of the background tasks and of the destructor.** -/
structure Wakeups where
  /-- The number of files at L0. -/
  l0 : ℕ
  /-- The numbers of files at L0 that write requests have read and will test. -/
  seen : List ℕ := []
  /-- Which slots of the ring hold a frozen memtable. -/
  slots : Fin 4 → Bool := fun _ => false
  /-- `bg_compaction_running_`. -/
  running : Bool := false
  /-- The flush tasks in the queue of `flush_pool_`, by their slots. -/
  flushQueue : List (Fin 4) := []
  /-- The flush task at work; the pool has one worker. -/
  flushing : Option (Fin 4 × FlushTaskPhase) := none
  /-- The compaction tasks queued or at work. -/
  compactions : List Starter := []
  /-- The notifications still to come from tasks that have reset the flag. -/
  notifying : List (List CondVar) := []
  destructor : Destructor := .outside

/-- The steps. -/
inductive WakeupAction where
  /-- `maybe_flush` freezes the memtable into an empty slot. -/
  | handOff (slot : Fin 4)
  /-- `execute_write_request` reads the number of files at L0. -/
  | readL0
  /-- The `i`-th of those requests starts a compaction, by the number it has read. -/
  | startByWrite (i : ℕ)
  | flushTake
  /-- `log_and_apply`, which may fail. -/
  | flushInstall (ok : Bool)
  /-- `flush_immutable` throws, and the task catches it. It may do so after
  `log_and_apply` too: the line that prints the name of the table throws when the
  number has more than six digits. -/
  | flushThrow
  /-- The end of `flush_immutable`, which may start a compaction. -/
  | flushReturn
  | flushClear
  | flushNotify
  /-- A compaction leaves so many files at L0. -/
  | compact (l0 : ℕ)
  /-- The `i`-th compaction task resets the flag. -/
  | compactionEnd (i : ℕ)
  /-- The `i`-th task that has reset the flag makes its next notification. -/
  | notify (i : ℕ)
  /-- The destructor is called. -/
  | enter
  /-- The destructor checks its predicate again. -/
  | recheck

namespace Wakeups

/-- A store that was just opened. -/
def opened (l0 : ℕ) : Wakeups := { l0 := l0 }

/-- `notify_all`, as the destructor sees it. -/
def wake (s : Wakeups) (cv : CondVar) : Wakeups :=
  if s.destructor = .asleep cv then { s with destructor := .woken cv } else s

/-- The destructor from its second wait on. -/
def awaitCompaction (s : Wakeups) : Wakeups :=
  { s with destructor := if s.running then .asleep .bgCompaction else .finished }

/-- The destructor from its first wait on. It keeps the mutex from the one
predicate to the other. -/
def awaitFlush (s : Wakeups) : Wakeups :=
  if ∃ i, s.slots i = true then { s with destructor := .asleep .bgFlush } else s.awaitCompaction

/-- The guard of both starters, for the number of files at L0 that they have, and the
task enqueued. -/
def start (s : Wakeups) (l0 : ℕ) (by_ : Starter) : Wakeups :=
  if l0 ≥ 4 ∧ s.running = false then
    { s with running := true, compactions := s.compactions ++ [by_] }
  else s

/-- **The step relation**, as a function of the action. -/
def step (s : Wakeups) : WakeupAction → Option Wakeups
  | .handOff slot =>
    if s.slots slot then none
    else some { s with
      slots := Function.update s.slots slot true, flushQueue := s.flushQueue ++ [slot] }
  | .readL0 => some { s with seen := s.seen ++ [s.l0] }
  | .startByWrite i =>
    match s.seen[i]? with
    | some l0 => some ({ s with seen := s.seen.eraseIdx i }.start l0 .write)
    | none => none
  | .flushTake =>
    match s.flushing, s.flushQueue with
    | none, slot :: rest => some { s with flushQueue := rest, flushing := some (slot, .writing) }
    | _, _ => none
  | .flushInstall ok =>
    match s.flushing with
    | some (slot, .writing) =>
      some { s with l0 := if ok then s.l0 + 1 else s.l0, flushing := some (slot, .installed) }
    | _ => none
  | .flushThrow =>
    match s.flushing with
    | some (slot, .writing) | some (slot, .installed) =>
      some { s with flushing := some (slot, .returned) }
    | _ => none
  | .flushReturn =>
    match s.flushing with
    | some (slot, .installed) =>
      some { s.start s.l0 .flush with flushing := some (slot, .returned) }
    | _ => none
  | .flushClear =>
    match s.flushing with
    | some (slot, .returned) => some { s with
        slots := Function.update s.slots slot false, flushing := some (slot, .cleared) }
    | _ => none
  | .flushNotify =>
    match s.flushing with
    | some (_, .cleared) => some ({ s with flushing := none }.wake .bgFlush)
    | _ => none
  | .compact l0 => if s.compactions ≠ [] ∧ l0 ≤ s.l0 then some { s with l0 := l0 } else none
  | .compactionEnd i =>
    match s.compactions[i]? with
    | some by_ => some { s with
        running := false, compactions := s.compactions.eraseIdx i
        notifying := s.notifying ++ [by_.notifications] }
    | none => none
  | .notify i =>
    match s.notifying[i]? with
    | some (cv :: rest) => some ({ s with notifying := s.notifying.set i rest }.wake cv)
    | _ => none
  | .enter => if s.destructor = .outside then some s.awaitFlush else none
  | .recheck =>
    match s.destructor with
    | .woken .bgFlush => some s.awaitFlush
    | .woken .bgCompaction => some s.awaitCompaction
    | _ => none

/-! ## Hanging -/

/-- What the destructor waits for on a variable. -/
def predicate (s : Wakeups) : CondVar → Prop
  | .bgFlush => ∀ i, s.slots i = false
  | .bgCompaction => s.running = false

/-- A notification of the variable is to come from a task that has reset the
flag. -/
def Pending (s : Wakeups) (cv : CondVar) : Prop := ∃ ns ∈ s.notifying, cv ∈ ns

/-- **Some task will still notify the variable**: one that has reset the flag, a
compaction task, or a flush task. -/
def WillNotify (s : Wakeups) (cv : CondVar) : Prop :=
  s.Pending cv ∨ (∃ by_ ∈ s.compactions, cv ∈ by_.notifications)
    ∨ (cv = .bgFlush ∧ (s.flushQueue ≠ [] ∨ s.flushing ≠ none))

/-- **The destructor hangs**: it sleeps, what it waits for is there, and nothing
is left to wake it. -/
def Hangs (s : Wakeups) : Prop :=
  ∃ cv, s.destructor = .asleep cv ∧ s.predicate cv ∧ ¬ s.WillNotify cv

/-- The condition on the steps: a compaction task that a flush started resets the
flag only when the destructor does not sleep on `bg_compaction_cv_`, or a
notification of that variable is still to come. -/
def Announced (s : Wakeups) : WakeupAction → Prop
  | .compactionEnd i => s.compactions[i]? = some .flush →
      s.destructor = .asleep .bgCompaction → s.Pending .bgCompaction
  | _ => True

instance (s : Wakeups) (cv : CondVar) : Decidable (s.predicate cv) := by
  cases cv <;> unfold predicate <;> infer_instance

instance (s : Wakeups) (cv : CondVar) : Decidable (s.Pending cv) :=
  inferInstanceAs (Decidable (∃ ns ∈ s.notifying, cv ∈ ns))

instance (s : Wakeups) (cv : CondVar) : Decidable (s.WillNotify cv) :=
  inferInstanceAs (Decidable (_ ∨ _ ∨ _))

instance (s : Wakeups) (a : WakeupAction) : Decidable (s.Announced a) := by
  cases a <;> unfold Announced <;> infer_instance

/-! ## What every step keeps -/

/-- The flag is set exactly while there is a compaction task, and there is at most
one. -/
def Flagged (s : Wakeups) : Prop := s.compactions.length = s.running.toNat

/-- The destructor sleeps on `bg_flush_cv_` only while a slot is full or a
notification is to come. -/
def FlushSafe (s : Wakeups) : Prop :=
  s.destructor = .asleep .bgFlush →
    (∃ i, s.slots i = true) ∨ (∃ slot, s.flushing = some (slot, .cleared)) ∨ s.Pending .bgFlush

/-- The destructor sleeps on `bg_compaction_cv_` only while the flag is set or a
notification is to come. -/
def CompactionSafe (s : Wakeups) : Prop :=
  s.destructor = .asleep .bgCompaction → s.running = true ∨ s.Pending .bgCompaction

variable {s s' : Wakeups} {a : WakeupAction}

/-- **What a step can do.** It moves a flush task on without touching what the
destructor waits for, or starts a compaction, or empties a slot, or makes a
notification, or ends a compaction, or lets the destructor check. -/
theorem step_cases (hs : s.step a = some s') :
    (∃ l0 slots q f seen, s' = { s with
            l0 := l0, slots := slots, flushQueue := q, flushing := f, seen := seen }
        ∧ (∀ i, s.slots i = true → slots i = true)
        ∧ (f = s.flushing ∨ ∀ slot, s.flushing ≠ some (slot, .cleared)))
      ∨ (∃ l0 by_ f seen, s' = { s.start l0 by_ with flushing := f, seen := seen }
        ∧ (f = s.flushing ∨ ∀ slot, s.flushing ≠ some (slot, .cleared)))
      ∨ (∃ slot slots, s' = { s with slots := slots, flushing := some (slot, .cleared) })
      ∨ s' = { s with flushing := none }.wake .bgFlush
      ∨ (∃ i by_, a = .compactionEnd i ∧ s.compactions[i]? = some by_
        ∧ s' = { s with
            running := false, compactions := s.compactions.eraseIdx i
            notifying := s.notifying ++ [by_.notifications] })
      ∨ (∃ i cv rest, s.notifying[i]? = some (cv :: rest)
        ∧ s' = { s with notifying := s.notifying.set i rest }.wake cv)
      ∨ s' = s.awaitFlush ∨ s' = s.awaitCompaction := by
  unfold step at hs
  cases a with
  | handOff slot =>
    dsimp only at hs
    split_ifs at hs
    cases hs
    refine .inl ⟨_, _, _, _, _, rfl, fun i hi => ?_, .inl rfl⟩
    by_cases hij : i = slot
    · subst hij
      exact Function.update_self ..
    · exact (Function.update_of_ne hij ..).trans hi
  | readL0 =>
    cases hs
    exact .inl ⟨_, _, _, _, _, rfl, fun _ => id, .inl rfl⟩
  | startByWrite i =>
    dsimp only at hs
    split at hs
    · rename_i l0 _
      cases hs
      refine .inr (.inl ⟨l0, .write, s.flushing, s.seen.eraseIdx i, ?_, .inl rfl⟩)
      unfold start
      split_ifs <;> rfl
    · cases hs
  | flushTake =>
    dsimp only at hs
    split at hs
    · rename_i hf _
      cases hs
      exact .inl ⟨_, _, _, _, _, rfl, fun _ => id, .inr (fun _ hc => by rw [hf] at hc; cases hc)⟩
    · cases hs
  | flushInstall ok =>
    dsimp only at hs
    split at hs
    · rename_i hf
      cases hs
      exact .inl ⟨_, _, _, _, _, rfl, fun _ => id, .inr (fun _ hc => by rw [hf] at hc; cases hc)⟩
    · cases hs
  | flushThrow =>
    dsimp only at hs
    split at hs
    · rename_i hf
      cases hs
      exact .inl ⟨_, _, _, _, _, rfl, fun _ => id, .inr (fun _ hc => by rw [hf] at hc; cases hc)⟩
    · rename_i hf
      cases hs
      exact .inl ⟨_, _, _, _, _, rfl, fun _ => id, .inr (fun _ hc => by rw [hf] at hc; cases hc)⟩
    · cases hs
  | flushReturn =>
    dsimp only at hs
    split at hs
    · rename_i hf
      cases hs
      exact .inr (.inl ⟨_, _, _, _, rfl, .inr (fun _ hc => by rw [hf] at hc; cases hc)⟩)
    · cases hs
  | flushClear =>
    dsimp only at hs
    split at hs
    · cases hs
      exact .inr (.inr (.inl ⟨_, _, rfl⟩))
    · cases hs
  | flushNotify =>
    dsimp only at hs
    split at hs
    · cases hs
      exact .inr (.inr (.inr (.inl rfl)))
    · cases hs
  | compact l0 =>
    dsimp only at hs
    split_ifs at hs
    cases hs
    exact .inl ⟨_, _, _, _, _, rfl, fun _ => id, .inl rfl⟩
  | compactionEnd i =>
    dsimp only at hs
    split at hs
    · rename_i by_ hi
      cases hs
      exact .inr (.inr (.inr (.inr (.inl ⟨i, by_, rfl, hi, rfl⟩))))
    · cases hs
  | notify i =>
    dsimp only at hs
    split at hs
    · rename_i cv rest hi
      cases hs
      exact .inr (.inr (.inr (.inr (.inr (.inl ⟨i, cv, rest, hi, rfl⟩)))))
    · cases hs
  | enter =>
    dsimp only at hs
    split_ifs at hs
    cases hs
    exact .inr (.inr (.inr (.inr (.inr (.inr (.inl rfl))))))
  | recheck =>
    dsimp only at hs
    split at hs
    · cases hs
      exact .inr (.inr (.inr (.inr (.inr (.inr (.inl rfl))))))
    · cases hs
      exact .inr (.inr (.inr (.inr (.inr (.inr (.inr rfl))))))
    · cases hs

/-- A notification leaves the destructor asleep only on the other variable. -/
theorem asleep_of_wake {cv cv' : CondVar} (h : (s.wake cv).destructor = .asleep cv') :
    s.destructor = .asleep cv' ∧ cv ≠ cv' ∧ s.wake cv = s := by
  unfold wake at h ⊢
  split_ifs at h ⊢ with hcv
  refine ⟨h, ?_, rfl⟩
  rintro rfl
  exact hcv h

/-- Once a task has made a notification of one variable, those of the other are
still to come. -/
theorem pending_set {i : ℕ} {cv cv' : CondVar} {rest : List CondVar}
    (hi : s.notifying[i]? = some (cv :: rest)) (hne : cv ≠ cv') (h : s.Pending cv') :
    ({ s with notifying := s.notifying.set i rest } : Wakeups).Pending cv' := by
  obtain ⟨ns, hns, hcv⟩ := h
  obtain ⟨j, hj⟩ := List.mem_iff_getElem?.mp hns
  by_cases hij : i = j
  · -- the task that has just notified
    subst hij
    cases hi.symm.trans hj
    have hlt : i < s.notifying.length := (List.getElem?_eq_some_iff.mp hi).1
    refine ⟨rest, List.mem_iff_getElem?.mpr ⟨i, List.getElem?_set_self hlt⟩, ?_⟩
    exact (List.mem_cons.mp hcv).resolve_left (Ne.symm hne)
  · exact ⟨ns, List.mem_iff_getElem?.mpr ⟨j, (List.getElem?_set_ne hij).trans hj⟩, hcv⟩

/-- The destructor that checks its predicates goes to sleep only if one is
false. -/
theorem awaitCompaction_safe (s : Wakeups) :
    s.awaitCompaction.FlushSafe ∧ s.awaitCompaction.CompactionSafe := by
  unfold awaitCompaction FlushSafe CompactionSafe
  dsimp only
  refine ⟨fun h => ?_, fun h => ?_⟩
  · split_ifs at h
    cases h
  · split_ifs at h with hrun
    exact .inl hrun

theorem awaitFlush_safe (s : Wakeups) : s.awaitFlush.FlushSafe ∧ s.awaitFlush.CompactionSafe := by
  unfold awaitFlush
  split_ifs with hslot
  · exact ⟨fun _ => .inl hslot, fun h => by cases h⟩
  · exact s.awaitCompaction_safe

/-- Starting a compaction changes the flag and the tasks only. -/
theorem start_frame (s : Wakeups) (l0 : ℕ) (by_ : Starter) :
    (s.start l0 by_).destructor = s.destructor ∧ (s.start l0 by_).slots = s.slots
      ∧ (s.start l0 by_).notifying = s.notifying
      ∧ (s.running = true → (s.start l0 by_).running = true) := by
  unfold start
  split_ifs
  · exact ⟨rfl, rfl, rfl, fun _ => rfl⟩
  · exact ⟨rfl, rfl, rfl, id⟩

/-- **Every step keeps the count of the compaction tasks.** -/
theorem Flagged.step (h : s.Flagged) (hs : s.step a = some s') : s'.Flagged := by
  have hwake : ∀ (t : Wakeups) (cv : CondVar), t.Flagged → (t.wake cv).Flagged := by
    intro t cv ht
    unfold wake
    split_ifs <;> exact ht
  rcases step_cases hs with ⟨_, _, _, _, _, rfl, -⟩ | ⟨l0, by_, _, _, rfl, -⟩ | ⟨_, _, rfl⟩ | rfl
    | ⟨i, by_, -, hi, rfl⟩ | ⟨_, _, _, -, rfl⟩ | rfl | rfl
  · exact h
  · -- a task is added when the flag was not set
    show (s.start l0 by_).Flagged
    unfold start
    split_ifs with hc
    · unfold Flagged at *
      rw [hc.2] at h
      rw [List.length_append, h]
      rfl
    · exact h
  · exact h
  · exact hwake _ _ h
  · have hlt : i < s.compactions.length := (List.getElem?_eq_some_iff.mp hi).1
    unfold Flagged at *
    have hle := s.running.toNat_le
    show (s.compactions.eraseIdx i).length = 0
    rw [List.length_eraseIdx_of_lt hlt]
    omega
  · exact hwake _ _ h
  · unfold awaitFlush
    split_ifs <;> exact h
  · exact h

/-- **Every step keeps the wait for the flushes safe.** -/
theorem FlushSafe.step (h : s.FlushSafe) (hs : s.step a = some s') : s'.FlushSafe := by
  rcases step_cases hs with ⟨_, _, _, _, _, rfl, hslots, hf⟩ | ⟨l0, by_, f, _, rfl, hf⟩
    | ⟨slot, _, rfl⟩ | rfl | ⟨_, _, -, -, rfl⟩ | ⟨_, _, _, hi, rfl⟩ | rfl | rfl
  · intro hasleep
    rcases h hasleep with ⟨i, hi⟩ | ⟨slot, hslot⟩ | hpending
    · exact .inl ⟨i, hslots i hi⟩
    · rcases hf with hf | hf
      · exact .inr (.inl ⟨slot, hf.trans hslot⟩)
      · exact absurd hslot (hf slot)
    · exact .inr (.inr hpending)
  · obtain ⟨hd, hsl, hn, -⟩ := s.start_frame l0 by_
    intro hasleep
    rcases h (hd.symm.trans hasleep) with ⟨i, hi⟩ | ⟨slot, hslot⟩ | ⟨ns, hns, hcv⟩
    · exact .inl ⟨i, (congrFun hsl i).trans hi⟩
    · rcases hf with hf | hf
      · exact .inr (.inl ⟨slot, hf.trans hslot⟩)
      · exact absurd hslot (hf slot)
    · refine .inr (.inr ⟨ns, ?_, hcv⟩)
      show ns ∈ (s.start l0 by_).notifying
      rw [hn]
      exact hns
  · -- the slot is empty, and its notification is to come
    exact fun _ => .inr (.inl ⟨slot, rfl⟩)
  · intro hasleep
    exact absurd rfl (asleep_of_wake hasleep).2.1
  · intro hasleep
    rcases h hasleep with hslot | hcleared | ⟨ns, hns, hcv⟩
    · exact .inl hslot
    · exact .inr (.inl hcleared)
    · exact .inr (.inr ⟨ns, List.mem_append_left _ hns, hcv⟩)
  · intro hasleep
    obtain ⟨hd, hne, heq⟩ := asleep_of_wake hasleep
    rw [heq]
    rcases h hd with hslot | hcleared | hpending
    · exact .inl hslot
    · exact .inr (.inl hcleared)
    · exact .inr (.inr (pending_set hi hne hpending))
  · exact s.awaitFlush_safe.1
  · exact s.awaitCompaction_safe.1

/-- **A step that is announced keeps the wait for the compaction safe.** -/
theorem CompactionSafe.step (h : s.CompactionSafe) (hok : s.Announced a) (hs : s.step a = some s') :
    s'.CompactionSafe := by
  rcases step_cases hs with ⟨_, _, _, _, _, rfl, -⟩ | ⟨l0, by_, f, _, rfl, -⟩ | ⟨_, _, rfl⟩ | rfl
    | ⟨i, by_, rfl, hi, rfl⟩ | ⟨_, _, _, hi, rfl⟩ | rfl | rfl
  · exact h
  · obtain ⟨hd, -, hn, hrun⟩ := s.start_frame l0 by_
    intro hasleep
    rcases h (hd.symm.trans hasleep) with hr | ⟨ns, hns, hcv⟩
    · exact .inl (hrun hr)
    · refine .inr ⟨ns, ?_, hcv⟩
      show ns ∈ (s.start l0 by_).notifying
      rw [hn]
      exact hns
  · exact h
  · intro hasleep
    obtain ⟨hd, -, heq⟩ := asleep_of_wake hasleep
    rw [heq]
    exact h hd
  · intro hasleep
    cases by_ with
    | write => exact .inr ⟨_, List.mem_append_right _ (List.mem_singleton.mpr rfl), by decide⟩
    | flush =>
      obtain ⟨ns, hns, hcv⟩ := hok hi hasleep
      exact .inr ⟨ns, List.mem_append_left _ hns, hcv⟩
  · intro hasleep
    obtain ⟨hd, hne, heq⟩ := asleep_of_wake hasleep
    rw [heq]
    exact (h hd).imp id (pending_set hi hne)
  · exact s.awaitFlush_safe.2
  · exact s.awaitCompaction_safe.2

/-! ## When the destructor does not hang -/

/-- A state in which both waits are safe is not one that hangs. -/
theorem not_hangs (hf : s.FlushSafe) (hc : s.CompactionSafe) : ¬ s.Hangs := by
  rintro ⟨cv, hasleep, hpred, hno⟩
  cases cv with
  | bgFlush =>
    rcases hf hasleep with ⟨i, hi⟩ | ⟨slot, hslot⟩ | hpending
    · rw [hpred i] at hi
      cases hi
    · exact hno (.inr (.inr ⟨rfl, .inr (by rw [hslot]; exact Option.some_ne_none _)⟩))
    · exact hno (.inl hpending)
  | bgCompaction =>
    rcases hc hasleep with hrun | hpending
    · have hfalse : s.running = false := hpred
      rw [hfalse] at hrun
      cases hrun
    · exact hno (.inl hpending)

/-- **A step that is not announced leaves the destructor hanging.** -/
theorem exists_hangs_of_not_announced (hflag : s.Flagged) (h : ¬ s.Announced a) :
    ∃ s', s.step a = some s' ∧ s'.Hangs := by
  cases a with
  | compactionEnd i =>
    unfold Announced at h
    push Not at h
    obtain ⟨hi, hasleep, hno⟩ := h
    have hstep : s.step (.compactionEnd i) = some { s with
        running := false, compactions := s.compactions.eraseIdx i
        notifying := s.notifying ++ [Starter.flush.notifications] } := by
      rw [step, hi]
    refine ⟨_, hstep, .bgCompaction, hasleep, rfl, ?_⟩
    have hlt : i < s.compactions.length := (List.getElem?_eq_some_iff.mp hi).1
    have hnil : s.compactions.eraseIdx i = [] := by
      have hle := s.running.toNat_le
      unfold Flagged at hflag
      refine List.length_eq_zero_iff.mp ?_
      rw [List.length_eraseIdx_of_lt hlt]
      omega
    rintro (⟨ns, hns, hcv⟩ | ⟨by_, hby, -⟩ | ⟨hcv, -⟩)
    · rcases List.mem_append.mp hns with hns | hns
      · exact hno ⟨ns, hns, hcv⟩
      · obtain rfl := List.mem_singleton.mp hns
        revert hcv
        decide
    · have hby' : by_ ∈ s.compactions.eraseIdx i := hby
      rw [hnil] at hby'
      cases hby'
    · cases hcv
  | _ => exact absurd trivial h

/-- **When no wake-up of a shutdown is lost.** In a run of writes, flush tasks,
compaction tasks and the destructor, from a store with any number of files at L0,
no state on the way is one in which the destructor sleeps though what it waits for
is there and nothing is left to notify it, exactly when every compaction task that
a flush started and that resets the flag while the destructor sleeps on
`bg_compaction_cv_` has a notification of that variable still to come from another
task. -/
theorem never_hangs_iff (l0 : ℕ) (run : List WakeupAction) :
    (∀ u ∈ visited step (opened l0) run, ¬ u.Hangs) ↔ RunOk step Announced (opened l0) run := by
  constructor
  · have hgen : ∀ s : Wakeups, s.Flagged → (∀ u ∈ visited step s run, ¬ u.Hangs) →
        RunOk step Announced s run := by
      induction run with
      | nil => exact fun _ _ _ => trivial
      | cons a as ih =>
        intro s hflag hvis
        refine ⟨?_, fun t ht => ih t (hflag.step ht) (fun u hu => ?_)⟩
        · by_contra hno
          obtain ⟨t, ht, hhangs⟩ := exists_hangs_of_not_announced hflag hno
          exact hvis t (visited_subset_cons ht (self_mem_visited t as)) hhangs
        · exact hvis u (visited_subset_cons ht hu)
    exact hgen (opened l0) rfl
  · intro hok u hu
    have hstep : ∀ s a s', FlushSafe s ∧ CompactionSafe s → Announced s a → step s a = some s' →
        FlushSafe s' ∧ CompactionSafe s' :=
      fun s a s' hinv ha hs => ⟨hinv.1.step hs, hinv.2.step ha hs⟩
    obtain ⟨hf, hc⟩ := invariant_of_mem_visited hstep
      ⟨fun h => Destructor.noConfusion h, fun h => Destructor.noConfusion h⟩ hok hu
    exact not_hangs hf hc

/-- With three files at L0 a memtable is handed off, and the destructor is called
and sleeps. The flush makes a fourth file and starts a compaction; its
notification sends the destructor on to wait for that. The compaction task resets
the flag and makes its two notifications. -/
def lostWakeup : List WakeupAction :=
  [.handOff ⟨0, by decide⟩, .enter, .flushTake, .flushInstall true, .flushReturn, .flushClear,
    .flushNotify, .recheck, .compact 0, .compactionEnd 0, .notify 0, .notify 0]

/-- **A lost wake-up.** At the end of that run the destructor sleeps on
`bg_compaction_cv_`, no compaction runs, and no task is left. -/
theorem hangs_lostWakeup :
    (runSteps step (opened 3) lostWakeup).isSome = true
      ∧ (finalState step (opened 3) lostWakeup).Hangs :=
  ⟨by decide, .bgCompaction, by decide, by decide, by decide⟩

end Wakeups
