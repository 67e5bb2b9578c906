import ForgeLSM.GroupCommit

/-!
# Panic

When an append to the value log or to the WAL fails in a commit, or a sync of one of
them, the leader sets `is_panic_`, and the whole batch is completed with an error.
The flag is tested at one place, the entry of `put` and `delete_key`. A request that
is past the test when it is set – stalled, before its push, or in the queue – does
not see it, and the garbage collection never looks.

`PanicStop` is the writers of `GroupCommit` with the flag, the requests that are past
the test but not yet pushed, and commits that fail. The next batch after a failure
commits like any other if its own calls succeed, and its writers are told that all is
well (`PanicStop.acked_after_panic`). The panic is a stop where the failure lasts, so
that every batch after it meets one too, and where nobody else is past the test when
it comes, so that the test keeps everybody out. Then whoever is acknowledged in the
end was completed when it came, or was in a batch that had been committed by then
(`PanicStop.never_acked`).
-/

open Function

/-- Where a commit can fail. -/
inductive PanicPoint where
  | vlogAppend
  | vlogSync
  | walAppend
  | walSync

/-- The commit of the batch comes to make such a call. -/
def PanicPoint.reached (act : Memtable) (batch : List WriteRequest) : PanicPoint → Bool
  | .vlogAppend => batch.any (fun r => !r.isDelete && !(r.isGc && Vlogs.overwritten act r))
  | .walAppend => batch.any (fun r => !r.isGc && !r.isDelete)
  | .vlogSync => batch.any WriteRequest.sync
  | .walSync => batch.any WriteRequest.sync

/-- What a leader has to complete. -/
def WriterPhase.todo : WriterPhase → List ℕ
  | .completing todo => todo
  | _ => []

/-- The writer is on the way to a commit. -/
def WriterPhase.Leads (p : WriterPhase) : Prop := p.Undrained ∨ ∃ batch, p = .committing batch

/-- **The writers, and the flag.** -/
structure PanicStop where
  writers : GroupCommit
  /-- `is_panic_`. -/
  isPanic : Bool := false
  /-- The requests past the test of the flag and not yet pushed. -/
  entered : List WriteRequest := []
  /-- The requests that are completed with an error, now or later. -/
  failed : List ℕ := []

/-- The steps. -/
inductive PanicAction where
  /-- A client comes to `put` or `delete_key`, or the garbage collection to
  `execute_write_request`. -/
  | enter (r : WriteRequest)
  /-- A request that has entered is pushed. -/
  | push (i : ℕ)
  /-- Another step of a writer, a commit that succeeds among them. -/
  | writer (a : WriterAction)
  /-- A commit fails, and its calls have left these logs. -/
  | commitFails (t : ℕ) (point : PanicPoint) (vlogs : Vlogs) (wal : Wal)

namespace PanicStop

/-- A store that was just opened. -/
def opened (store : KVStore) : PanicStop := { writers := { store := store } }

/-- **A commit that fails**: the memtable is not touched, the lock is given back, and
the leader has the batch to complete, with the error. -/
def fail (s : PanicStop) (t : ℕ) (batch : List ℕ) (vlogs : Vlogs) (wal : Wal) : PanicStop :=
  { s with
    writers := { s.writers.setPhase t (.completing batch) with
      store := { s.writers.store with vlogs := vlogs, wal := wal }
      lock := none }
    isPanic := true
    failed := s.failed ++ batch }

/-- **One step.** -/
def step (env : Env) (s : PanicStop) : PanicAction → Option PanicStop
  | .enter r =>
    if r.isGc = true ∨ s.isPanic = false then some { s with entered := s.entered ++ [r] } else none
  | .push i => (s.entered[i]?).map (fun r =>
      { s with writers := s.writers.push r, entered := s.entered.eraseIdx i })
  | .writer (.push _) => none
  | .writer a => (s.writers.step env a).map (fun w => { s with writers := w })
  | .commitFails t point vlogs wal =>
    match s.writers.phase t with
    | .committing batch =>
      if point.reached s.writers.store.active (s.writers.requestsOf batch) then
        some (s.fail t batch vlogs wal)
      else none
    | _ => none

/-- **The request is acknowledged**: it is completed, without an error. -/
def Acked (s : PanicStop) (v : ℕ) : Prop := v ∈ s.writers.completed ∧ v ∉ s.failed

/-- The request is in a batch that is past its commit, and a leader has it to
complete. -/
def Completing (s : PanicStop) (v : ℕ) : Prop := ∃ t, v ∈ (s.writers.phase t).todo

/-- Nobody but a writer itself is past the test of the flag and on the way to a
commit. -/
def Alone (s : PanicStop) (t : ℕ) : Prop :=
  s.entered = [] ∧ ∀ u, u ≠ t → ¬ (s.writers.phase u).Leads

/-- One condition on the steps: a failure lasts. No commit whose calls all succeed
comes after one with a call that failed. -/
def Lasting (s : PanicStop) : PanicAction → Prop
  | .writer (.commit _) => s.isPanic = false
  | _ => True

instance (s : PanicStop) (v : ℕ) : Decidable (s.Acked v) := inferInstanceAs (Decidable (_ ∧ _))

instance (s : PanicStop) (a : PanicAction) : Decidable (s.Lasting a) := by
  unfold Lasting
  split <;> infer_instance

/-! ## What a step can do -/

variable {env : Env} {s s' : PanicStop} {batch : List ℕ} {w : GroupCommit}

/-- **What a step can do.** A request enters, a request is pushed, a writer goes on
with its request, or a commit fails. -/
theorem step_cases {a : PanicAction} (hs : s.step env a = some s') :
    (∃ r, a = .enter r ∧ (r.isGc = true ∨ s.isPanic = false)
        ∧ s' = { s with entered := s.entered ++ [r] })
      ∨ (∃ i r, a = .push i ∧ s.entered[i]? = some r
        ∧ s' = { s with writers := s.writers.push r, entered := s.entered.eraseIdx i })
      ∨ (∃ b w, a = .writer b ∧ GroupCommit.Moves env s.writers b w ∧ ¬ b.IsPush
        ∧ s' = { s with writers := w })
      ∨ (∃ t point vlogs wal batch, a = .commitFails t point vlogs wal
        ∧ s.writers.phase t = .committing batch ∧ s' = s.fail t batch vlogs wal) := by
  cases a with
  | enter r =>
    unfold step at hs
    dsimp only at hs
    split_ifs at hs with htest
    cases hs
    exact .inl ⟨r, rfl, htest, rfl⟩
  | push i =>
    obtain ⟨r, hr, rfl⟩ := Option.map_eq_some_iff.mp hs
    exact .inr (.inl ⟨i, r, rfl, hr, rfl⟩)
  | writer b =>
    have hpush : ¬ b.IsPush := by
      cases b with
      | push r => cases hs
      | _ => exact id
    have hmap : (s.writers.step env b).map (fun w => { s with writers := w }) = some s' := by
      cases b with
      | push r => cases hs
      | _ => exact hs
    obtain ⟨w, hw, rfl⟩ := Option.map_eq_some_iff.mp hmap
    exact .inr (.inr (.inl ⟨b, w, rfl, GroupCommit.moves_of_step hw, hpush, rfl⟩))
  | commitFails t point vlogs wal =>
    unfold step at hs
    dsimp only at hs
    split at hs
    · rename_i batch ht
      split_ifs at hs
      cases hs
      exact .inr (.inr (.inr ⟨t, point, vlogs, wal, batch, rfl, ht, rfl⟩))
    · cases hs

/-- After a failure that lasts no batch is committed. -/
theorem committed_of_panic {a : PanicAction} (hp : s.isPanic = true) (hok : s.Lasting a)
    (hs : s.step env a = some s') :
    s'.writers.committed = s.writers.committed ∧ s'.isPanic = true := by
  rcases step_cases hs with ⟨_, -, -, rfl⟩ | ⟨_, _, -, -, rfl⟩ | ⟨b, w, rfl, hmoves, -, rfl⟩
    | ⟨_, _, _, _, _, -, -, rfl⟩
  · exact ⟨rfl, hp⟩
  · exact ⟨rfl, hp⟩
  · cases hmoves with
    | commit ht =>
      have hnot : s.isPanic = false := hok
      rw [hp] at hnot
      cases hnot
    | _ => exact ⟨rfl, hp⟩
  · exact ⟨rfl, rfl⟩

/-- The same along a run. -/
theorem committed_of_panic_run {as : List PanicAction} (hp : s.isPanic = true)
    (hok : RunOk (step env) Lasting s as) (hrun : runSteps (step env) s as = some s') :
    s'.writers.committed = s.writers.committed := by
  have hstep : ∀ x a y, x.writers.committed = s.writers.committed ∧ x.isPanic = true →
      Lasting x a → step env x a = some y →
        y.writers.committed = s.writers.committed ∧ y.isPanic = true := by
    rintro x a y ⟨hx, hpanic⟩ hok hs
    obtain ⟨hy, hpanic⟩ := committed_of_panic hpanic hok hs
    exact ⟨hy.trans hx, hpanic⟩
  exact (invariant_of_runOk hstep ⟨rfl, hp⟩ hok hrun).1

/-- **Nobody is on the way to a commit, and the flag is set.** -/
structure Stopped (s : PanicStop) : Prop where
  panic : s.isPanic = true
  entered : s.entered = []
  phase : ∀ u, ¬ (s.writers.phase u).Leads

/-- A writer that was alone leaves the store stopped when its commit fails. -/
theorem Alone.fail {t : ℕ} (h : s.Alone t) (batch : List ℕ) (vlogs : Vlogs) (wal : Wal) :
    (s.fail t batch vlogs wal).Stopped := by
  refine ⟨rfl, h.1, fun u => ?_⟩
  show ¬ (update s.writers.phase t (.completing batch) u).Leads
  by_cases hut : u = t
  · rw [hut, update_self]
    simp [WriterPhase.Leads, WriterPhase.Undrained]
  · rw [update_of_ne hut]
    exact h.2 u hut

/-- **The test keeps everybody out of a store that is stopped**, the garbage
collection apart, and so nothing is committed. -/
theorem Stopped.step (h : s.Stopped) {a : PanicAction} (hgc : ∀ r, a = .enter r → r.isGc = false)
    (hs : s.step env a = some s') :
    s'.Stopped ∧ s'.writers.committed = s.writers.committed := by
  -- a writer that completes its batch, or returns, is not on the way to a commit
  have hmove : ∀ (t : ℕ) (p : WriterPhase), ¬ p.Leads →
      ∀ u, ¬ (update s.writers.phase t p u).Leads := by
    intro t p hp u
    by_cases hut : u = t
    · rwa [hut, update_self]
    · rw [update_of_ne hut]
      exact h.phase u
  have hcompleting : ∀ todo, ¬ (WriterPhase.completing todo).Leads := by
    simp [WriterPhase.Leads, WriterPhase.Undrained]
  have hreturned : ¬ WriterPhase.returned.Leads := by
    simp [WriterPhase.Leads, WriterPhase.Undrained]
  rcases step_cases hs with ⟨r, rfl, htest, -⟩ | ⟨_, _, -, hr, -⟩ | ⟨b, w, -, hmoves, hpush, rfl⟩
    | ⟨t, _, _, _, batch, -, ht, -⟩
  · rw [hgc r rfl, h.panic] at htest
    simp at htest
  · rw [h.entered] at hr
    cases hr
  · cases hmoves with
    | push r => exact absurd trivial hpush
    | flushed ht | swapped ht _ => exact absurd (.inl (.inl ht)) (h.phase _)
    | drain ht _ => exact absurd (.inl (.inr ht)) (h.phase _)
    | commit ht => exact absurd (.inr ⟨_, ht⟩) (h.phase _)
    | complete ht => exact ⟨⟨h.panic, h.entered, hmove _ _ (hcompleting _)⟩, rfl⟩
    | returnLeader ht | returnWaiting ht _ => exact ⟨⟨h.panic, h.entered, hmove _ _ hreturned⟩, rfl⟩
  · exact absurd (.inr ⟨batch, ht⟩) (h.phase t)

/-- The same along a run. -/
theorem Stopped.run {as : List PanicAction} (h : s.Stopped)
    (hgc : ∀ r, .enter r ∈ as → r.isGc = false)
    (hrun : runSteps (PanicStop.step env) s as = some s') :
    s'.writers.committed = s.writers.committed := by
  induction as generalizing s with
  | nil =>
    cases hrun
    rfl
  | cons a as ih =>
    obtain ⟨s₁, hstep, hrest⟩ := runSteps_cons.mp hrun
    obtain ⟨h₁, hsame⟩ := h.step (fun r hr => hgc r (by rw [hr]; exact List.mem_cons_self)) hstep
    rw [ih h₁ (fun r hr => hgc r (List.mem_cons_of_mem a hr)) hrest, hsame]

/-! ## Every completion has a commit or a failure behind it -/

section Todo

variable {phase : ℕ → WriterPhase} {t v : ℕ} {p : WriterPhase}

/-- Who has what to complete, with one writer set apart. -/
theorem exists_todo_iff (phase : ℕ → WriterPhase) (t v : ℕ) :
    (∃ u, v ∈ (phase u).todo) ↔ v ∈ (phase t).todo ∨ ∃ u, u ≠ t ∧ v ∈ (phase u).todo := by
  constructor
  · rintro ⟨u, hu⟩
    by_cases hut : u = t
    · exact .inl (hut ▸ hu)
    · exact .inr ⟨u, hut, hu⟩
  · rintro (ht | ⟨u, -, hu⟩)
    · exact ⟨t, ht⟩
    · exact ⟨u, hu⟩

/-- The same when that writer moves on. -/
theorem exists_todo_update :
    (∃ u, v ∈ (update phase t p u).todo)
      ↔ v ∈ p.todo ∨ ∃ u, u ≠ t ∧ v ∈ (phase u).todo := by
  rw [exists_todo_iff _ t, update_self]
  refine or_congr Iff.rfl (exists_congr (fun u => and_congr_right (fun hut => ?_)))
  rw [update_of_ne hut]

/-- A writer that moves on with as much to complete changes nothing. -/
theorem exists_todo_update_of_eq (h : p.todo = (phase t).todo) :
    (∃ u, v ∈ (update phase t p u).todo) ↔ ∃ u, v ∈ (phase u).todo := by
  rw [exists_todo_update, exists_todo_iff phase t, h]

/-- A batch is past its commit, one way or the other. -/
theorem exists_todo_pastCommit (ht : phase t = .committing batch) :
    (∃ u, v ∈ (update phase t (.completing batch) u).todo)
      ↔ v ∈ batch ∨ ∃ u, v ∈ (phase u).todo := by
  rw [exists_todo_update, exists_todo_iff phase t, ht]
  exact or_congr Iff.rfl (or_iff_right List.not_mem_nil).symm

end Todo

/-- **What holds between the steps**: what is completed, or about to be, was
committed or has failed, and what was committed is completed or about to be. -/
structure Accounted (s : PanicStop) : Prop where
  out : ∀ t, s.writers.requests.length ≤ t → s.writers.phase t = .out
  completed : ∀ v ∈ s.writers.completed, v ∈ s.writers.committed.flatten ∨ v ∈ s.failed
  completing : ∀ v, s.Completing v → v ∈ s.writers.committed.flatten ∨ v ∈ s.failed
  committed : ∀ v ∈ s.writers.committed.flatten, v ∈ s.writers.completed ∨ s.Completing v

namespace Accounted

theorem opened (store : KVStore) : (opened store).Accounted where
  out _ _ := rfl
  completed _ hv := absurd hv List.not_mem_nil
  completing := by
    rintro v ⟨t, ht⟩
    cases ht
  committed _ hv := absurd hv List.not_mem_nil

section

variable (h : s.Accounted)
include h

/-- Whoever is not out has pushed, and may move on. -/
theorem out_update {t : ℕ} {p : WriterPhase} (ht : s.writers.phase t = p) (hp : p ≠ .out)
    (q : WriterPhase) :
    ∀ u, s.writers.requests.length ≤ u → update s.writers.phase t q u = .out := by
  intro u hu
  have hut : u ≠ t := by
    rintro rfl
    exact hp (ht.symm.trans (h.out u hu))
  rw [update_of_ne hut]
  exact h.out u hu

/-- A writer moves on with as much to complete as before. -/
theorem moveOn {t : ℕ} {p q : WriterPhase} (ht : s.writers.phase t = p) (hp : p ≠ .out)
    (hrequests : w.requests = s.writers.requests) (hphase : w.phase = update s.writers.phase t q)
    (hq : q.todo = p.todo) (hcompleted : w.completed = s.writers.completed)
    (hcommitted : w.committed = s.writers.committed) : Accounted { s with writers := w } := by
  have hcompleting : ∀ v, Completing { s with writers := w } v ↔ s.Completing v := by
    intro v
    show (∃ u, v ∈ (w.phase u).todo) ↔ _
    rw [hphase]
    exact exists_todo_update_of_eq (by rw [ht, hq])
  refine ⟨?_, ?_, fun v hv => ?_, fun v hv => ?_⟩
  · rw [hrequests, hphase]
    exact h.out_update ht hp q
  · rw [hcompleted, hcommitted]
    exact h.completed
  · rw [hcommitted]
    exact h.completing v ((hcompleting v).mp hv)
  · rw [hcommitted] at hv
    rw [hcompleted]
    exact (h.committed v hv).imp id (hcompleting v).mpr

/-- A request is pushed. -/
theorem push (r : WriteRequest) (entered : List WriteRequest) :
    Accounted { s with writers := s.writers.push r, entered := entered } := by
  have hnew : s.writers.phase s.writers.requests.length = .out := h.out _ le_rfl
  have htodo : (if s.writers.writeQueue = none then WriterPhase.leader else .waiting).todo
      = (s.writers.phase s.writers.requests.length).todo := by
    rw [hnew]
    split_ifs <;> rfl
  refine ⟨fun t ht => ?_, h.completed, fun v hv => ?_, fun v hv => ?_⟩
  · have hlt : s.writers.requests.length < t := by
      have hlen : (s.writers.requests ++ [r]).length ≤ t := ht
      rwa [List.length_append] at hlen
    show update s.writers.phase _ _ t = .out
    rw [update_of_ne hlt.ne']
    exact h.out t hlt.le
  · exact h.completing v ((exists_todo_update_of_eq htodo).mp hv)
  · exact (h.committed v hv).imp id (exists_todo_update_of_eq htodo).mpr

/-- A batch is committed. -/
theorem commit {t : ℕ} (ht : s.writers.phase t = .committing batch)
    (hrequests : w.requests = s.writers.requests)
    (hphase : w.phase = update s.writers.phase t (.completing batch))
    (hcompleted : w.completed = s.writers.completed)
    (hcommitted : w.committed = s.writers.committed ++ [batch]) :
    Accounted { s with writers := w } := by
  have hcompleting : ∀ v, Completing { s with writers := w } v ↔ v ∈ batch ∨ s.Completing v := by
    intro v
    show (∃ u, v ∈ (w.phase u).todo) ↔ _
    rw [hphase]
    exact exists_todo_pastCommit ht
  have hflat : w.committed.flatten = s.writers.committed.flatten ++ batch := by
    rw [hcommitted, List.flatten_append, List.flatten_singleton]
  refine ⟨?_, fun v hv => ?_, fun v hv => ?_, fun v hv => ?_⟩
  · rw [hrequests, hphase]
    exact h.out_update ht nofun _
  · rw [hcompleted] at hv
    rw [hflat]
    exact (h.completed v hv).imp (List.mem_append_left _) id
  · rw [hflat]
    rcases (hcompleting v).mp hv with hv | hv
    · exact .inl (List.mem_append_right _ hv)
    · exact (h.completing v hv).imp (List.mem_append_left _) id
  · rw [hflat] at hv
    rw [hcompleted, hcompleting]
    rcases List.mem_append.mp hv with hv | hv
    · exact (h.committed v hv).imp id .inr
    · exact .inr (.inl hv)

/-- A commit fails. -/
theorem fail {t : ℕ} (ht : s.writers.phase t = .committing batch) (vlogs : Vlogs) (wal : Wal) :
    (s.fail t batch vlogs wal).Accounted where
  out := h.out_update ht nofun _
  completed v hv := (h.completed v hv).imp id (List.mem_append_left _)
  completing v hv := by
    rcases (exists_todo_pastCommit ht).mp hv with hv | hv
    · exact .inr (List.mem_append_right _ hv)
    · exact (h.completing v hv).imp id (List.mem_append_left _)
  committed v hv := (h.committed v hv).imp id (fun hv => (exists_todo_pastCommit ht).mpr (.inr hv))

/-- A leader completes a request. -/
theorem complete {t u : ℕ} {todo : List ℕ} (ht : s.writers.phase t = .completing (u :: todo))
    (hrequests : w.requests = s.writers.requests)
    (hphase : w.phase = update s.writers.phase t (.completing todo))
    (hcompleted : w.completed = s.writers.completed ++ [u])
    (hcommitted : w.committed = s.writers.committed) : Accounted { s with writers := w } := by
  -- what was to be completed is `u`, and what still is
  have hcompleting : ∀ v, s.Completing v ↔ v = u ∨ Completing { s with writers := w } v := by
    intro v
    show (∃ x, v ∈ (s.writers.phase x).todo) ↔ v = u ∨ ∃ x, v ∈ (w.phase x).todo
    rw [hphase, exists_todo_update, exists_todo_iff _ t, ht]
    show v ∈ u :: todo ∨ _ ↔ v = u ∨ v ∈ todo ∨ _
    rw [List.mem_cons, or_assoc]
  refine ⟨?_, fun v hv => ?_, fun v hv => ?_, fun v hv => ?_⟩
  · rw [hrequests, hphase]
    exact h.out_update ht nofun _
  · rw [hcompleted] at hv
    rw [hcommitted]
    rcases List.mem_append.mp hv with hv | hv
    · exact h.completed v hv
    · exact h.completing v ((hcompleting v).mpr (.inl (List.mem_singleton.mp hv)))
  · rw [hcommitted]
    exact h.completing v ((hcompleting v).mpr (.inr hv))
  · rw [hcommitted] at hv
    rw [hcompleted]
    rcases h.committed v hv with hv | hv
    · exact .inl (List.mem_append_left _ hv)
    · rcases (hcompleting v).mp hv with rfl | hv
      · exact .inl (List.mem_append_right _ (List.mem_singleton.mpr rfl))
      · exact .inr hv

/-- **Every step keeps the account.** -/
theorem step {a : PanicAction} (hs : s.step env a = some s') : s'.Accounted := by
  rcases step_cases hs with ⟨_, -, -, rfl⟩ | ⟨i, r, -, -, rfl⟩ | ⟨b, w, -, hmoves, hpush, rfl⟩
    | ⟨_, _, vlogs, wal, _, -, ht, rfl⟩
  · exact ⟨h.out, h.completed, h.completing, h.committed⟩
  · exact h.push r _
  · cases hmoves with
    | push r => exact absurd trivial hpush
    | flushed ht | swapped ht _ | drain ht _ => exact h.moveOn ht nofun rfl rfl rfl rfl rfl
    | commit ht => exact h.commit ht rfl rfl rfl rfl
    | complete ht => exact h.complete ht rfl rfl rfl rfl
    | returnLeader ht | returnWaiting ht _ => exact h.moveOn ht nofun rfl rfl rfl rfl rfl
  · exact h.fail ht vlogs wal

end

end Accounted

/-! ## Panic is not a stop -/

/-- The logs when the sync of the WAL fails in the commit of the first request: the
value is in its log, and the record in the buffer. -/
def unsynced : KVStore := KVStore.commit Env.small {} [{ key := [97], sync := false }]

/-- Three clients are past the test of the flag. The first is in its commit, the
second in the queue, and the third has not pushed its request. -/
def beforePanic : List PanicAction :=
  [.enter { key := [97] }, .enter { key := [98] }, .enter { key := [99] }, .push 0,
    .writer (.maybeFlush 0 false), .writer (.drain 0), .push 0]

/-- The commit fails to sync the WAL. -/
def walSyncFails : PanicAction := .commitFails 0 .walSync unsynced.vlogs.sync unsynced.wal

/-- The third request is pushed, and so is a relocation that has come in between;
both are in one batch with the second. -/
def afterPanic : List PanicAction :=
  [.push 0, .enter { key := [100], isGc := true }, .push 0, .writer (.complete 0),
    .writer (.return_ 0), .writer (.maybeFlush 1 false), .writer (.drain 1)]

/-- The next batch is committed. -/
def nextBatch : List PanicAction :=
  [.writer (.commit 1), .writer (.complete 1), .writer (.complete 1), .writer (.complete 1),
    .writer (.return_ 1), .writer (.return_ 2), .writer (.return_ 3)]

/-- **Requests that are not completed when the panic comes are acknowledged after
it**: one that was in the queue, one that was between its test of the flag and its
push, and a relocation. -/
theorem acked_after_panic :
    ∃ s u, runSteps (step Env.small) (opened {}) beforePanic = some s
      ∧ s.writers.queue = [1] ∧ s.entered = [{ key := [99] }] ∧ s.writers.completed = []
      ∧ runSteps (step Env.small) s (walSyncFails :: afterPanic ++ nextBatch) = some u
      ∧ u.isPanic = true ∧ ¬ u.Acked 0 ∧ u.Acked 1 ∧ u.Acked 2 ∧ u.Acked 3
      ∧ u.writers.phase 1 = .returned ∧ u.writers.phase 2 = .returned
      ∧ u.writers.phase 3 = .returned :=
  ⟨_, _, runSteps_eq_finalState (by decide +kernel), by decide +kernel, by decide +kernel,
    by decide +kernel, runSteps_eq_finalState (by decide +kernel), by decide +kernel,
    by decide +kernel, by decide +kernel, by decide +kernel, by decide +kernel,
    by decide +kernel, by decide +kernel, by decide +kernel⟩

/-! ## Where a panic is a stop -/

/-- **A panic is a stop where the failure lasts**, and where nobody else is past the
test on the way to a commit when it comes, and the garbage collection makes no
request after it. Whoever is acknowledged then was completed when it came, or was in a
batch past its commit that a leader was about to complete – not in the queue, not
stalled and not before its push. So if no leader was completing a batch at that
moment, no request that was not completed is ever acknowledged. -/
theorem never_acked {store : KVStore} {before after : List PanicAction} {t : ℕ}
    {point : PanicPoint} {vlogs : Vlogs} {wal : Wal} {u : PanicStop}
    (hs : runSteps (step env) (opened store) before = some s)
    (hu : runSteps (step env) s (.commitFails t point vlogs wal :: after) = some u)
    (hok : RunOk (step env) Lasting s (.commitFails t point vlogs wal :: after)
      ∨ s.Alone t ∧ ∀ r, .enter r ∈ after → r.isGc = false) :
    (∀ v, v ∉ s.writers.completed → ¬ s.Completing v → ¬ u.Acked v)
      ∧ ((∀ v, ¬ s.Completing v) → ∀ v, v ∉ s.writers.completed → ¬ u.Acked v) := by
  have hacc : s.Accounted := invariant_of_run (fun _ _ _ h hs => h.step hs) (.opened store) hs
  have haccu : u.Accounted := invariant_of_run (fun _ _ _ h hs => h.step hs) hacc hu
  obtain ⟨s₁, hfail, hafter⟩ := runSteps_cons.mp hu
  obtain ⟨batch, rfl⟩ : ∃ batch, s₁ = s.fail t batch vlogs wal := by
    rcases step_cases hfail with ⟨_, ha, -⟩ | ⟨_, _, ha, -⟩ | ⟨_, _, ha, -⟩
      | ⟨_, _, _, _, batch, ha, -, rfl⟩
    · cases ha
    · cases ha
    · cases ha
    · cases ha
      exact ⟨batch, rfl⟩
  have hquiet : u.writers.committed = (s.fail t batch vlogs wal).writers.committed := by
    rcases hok with hlasting | ⟨halone, hgc⟩
    · exact committed_of_panic_run rfl (hlasting.2 _ hfail) hafter
    · exact (halone.fail batch vlogs wal).run hgc hafter
  have hmain : ∀ v, v ∉ s.writers.completed → ¬ s.Completing v → ¬ u.Acked v := by
    rintro v hcompleted hcompleting ⟨hv, hfailed⟩
    have hcommitted := (haccu.completed v hv).resolve_right hfailed
    have hbefore : v ∈ s.writers.committed.flatten := hquiet ▸ hcommitted
    exact (hacc.committed v hbefore).elim hcompleted hcompleting
  exact ⟨hmain, fun hnone v hv => hmain v hv (hnone v)⟩

/-- The next batch fails too. -/
def nextBatchFails : List PanicAction :=
  [.commitFails 1 .vlogSync unsynced.vlogs unsynced.wal, .writer (.complete 1),
    .writer (.complete 1), .writer (.complete 1), .writer (.return_ 1), .writer (.return_ 2),
    .writer (.return_ 3)]

theorem never_acked_nextBatchFails :
    ∃ s u, runSteps (step Env.small) (opened {}) beforePanic = some s
      ∧ runSteps (step Env.small) s (walSyncFails :: (afterPanic ++ nextBatchFails)) = some u
      ∧ u.writers.completed = [0, 1, 2, 3]
      ∧ ∀ v, v ∉ s.writers.completed → ¬ s.Completing v → ¬ u.Acked v :=
  have hs := runSteps_eq_finalState (show (runSteps (step Env.small) (opened {})
    beforePanic).isSome = true by decide +kernel)
  have hu := runSteps_eq_finalState (show (runSteps (step Env.small)
    (finalState (step Env.small) (opened {}) beforePanic)
    (walSyncFails :: (afterPanic ++ nextBatchFails))).isSome = true by decide +kernel)
  ⟨_, _, hs, hu, by decide +kernel, (never_acked hs hu (.inl (by decide +kernel))).1⟩

end PanicStop
