import ForgeLSM.Util.Run

/-!
# The pool of the compactions

`compaction_pool_` has two workers and one queue. It runs compactions, the removal
of old WAL files, and the garbage collection of value logs – and a collection
issues write requests, which stall like those of a client while L0 is full and
wait for a compaction to make room. The flushes have a pool of their own.

`Pools` is the state of both pools and of the threads in `execute_write_request`.
If two collections occupy both workers when a compaction is enqueued, each of them
stalls at its next write request, and so does every client; the compaction they
wait for stays in the queue, for ever (`Pools.starved_twoRotations`). It takes two
rotations of the value log in a row. As long as a value log is rotated only when
the collection of the rotation before has ended, this cannot happen
(`Pools.never_starves`).
-/

open Function

/-- Where a thread is with its write request. -/
inductive WritePhase where
  /-- It has none. -/
  | out
  /-- It has read the number of files at L0 and of frozen memtables. -/
  | read (l0 frozen : ℕ)
  /-- It waits for the two to add up to less. -/
  | stalled (bound : ℕ)
  /-- It is past the stall, in the queue of the writers or in a commit. -/
  | past
  deriving DecidableEq

/-- A task in the queue of `compaction_pool_`. -/
inductive PoolTask where
  | gc
  | removeWal
  | compaction
  deriving DecidableEq

/-- A task at work. -/
inductive PoolJob where
  /-- A collection, and where it is with its write request. -/
  | gc (phase : WritePhase)
  | removeWal
  | compaction
  deriving DecidableEq

/-- The job a task becomes when a worker takes it up. -/
def PoolTask.job : PoolTask → PoolJob
  | .gc => .gc .out
  | .removeWal => .removeWal
  | .compaction => .compaction

/-- How `flush_immutable` comes to its end. -/
inductive FlushEnd where
  /-- The table is in L0. -/
  | installed
  /-- The edit could not be logged; the flush goes on as if it had been. -/
  | notLogged
  /-- The memtable was empty, or writing or loading the table failed: it leaves
  before it looks at L0. -/
  | left

/-- A thread that makes write requests: a client, or a worker with a collection. -/
inductive WriteThread where
  | client (i : ℕ)
  | worker (w : Fin 2)

/-- **The state of the pools.** -/
structure Pools where
  /-- The number of files at L0. -/
  l0 : ℕ
  /-- The number of frozen memtables in the ring. -/
  frozen : ℕ := 0
  /-- `bg_compaction_running_`. -/
  running : Bool := false
  /-- The queue of `compaction_pool_`. -/
  queue : List PoolTask := []
  /-- The workers of `compaction_pool_`. -/
  workers : Fin 2 → Option PoolJob := fun _ => none
  /-- The flush tasks in the queue of `flush_pool_`. -/
  flushQueue : ℕ := 0
  /-- The flush task at work, and whether its table is installed. -/
  flushing : Option Bool := none
  clients : List WritePhase

/-- The steps. -/
inductive PoolAction where
  /-- A thread comes with a write request and reads the two numbers. -/
  | enter (t : WriteThread)
  /-- It starts a compaction if one is due, and comes to the stall. -/
  | begin (t : WriteThread)
  /-- What it waits for has come about. -/
  | pass (t : WriteThread)
  /-- Its commit rotates the value log, and enqueues a collection. -/
  | rotate (t : WriteThread)
  /-- It hands the memtable off, which rotates the WAL too. -/
  | handOff (t : WriteThread)
  | finish (t : WriteThread)
  | flushTake
  /-- `flush_immutable` ends, and has started a compaction if one is due. -/
  | flushInstall (end_ : FlushEnd)
  /-- The slot of the memtable is reset. -/
  | flushClear
  /-- A worker takes up the task at the front of the queue. -/
  | take (w : Fin 2)
  /-- A compaction leaves so many files at L0. -/
  | compact (w : Fin 2) (l0 : ℕ)
  | taskEnd (w : Fin 2)

namespace Pools

/-- A store that was just opened, with so many clients. -/
def opened (l0 clients : ℕ) : Pools := { l0 := l0, clients := List.replicate clients .out }

/-- The score of the stall. -/
def score (s : Pools) : ℕ := s.l0 + s.frozen

/-- Where a thread is. A worker without a collection makes no requests. -/
def phase (s : Pools) : WriteThread → Option WritePhase
  | .client i => s.clients[i]?
  | .worker w => match s.workers w with
    | some (.gc p) => some p
    | _ => none

/-- A thread moves on. -/
def setPhase (s : Pools) (p : WritePhase) : WriteThread → Pools
  | .client i => { s with clients := s.clients.set i p }
  | .worker w => { s with workers := update s.workers w (some (.gc p)) }

/-- A compaction is enqueued if so many files at L0 call for one and the flag is
not set. -/
def start (s : Pools) (l0 : ℕ) : Pools :=
  if l0 ≥ 4 ∧ s.running = false then { s with running := true, queue := s.queue ++ [.compaction] }
  else s

/-- The stall a score leads to. -/
def stall (score : ℕ) : WritePhase :=
  if score ≥ 19 then .stalled 19 else if score > 3 then .stalled score else .past

/-- **The step relation**, as a function of the action. -/
def step (s : Pools) : PoolAction → Option Pools
  | .enter t => if s.phase t = some .out then some (s.setPhase (.read s.l0 s.frozen) t) else none
  | .begin t =>
    match s.phase t with
    | some (.read l0 frozen) => some ((s.start l0).setPhase (stall (l0 + frozen)) t)
    | _ => none
  | .pass t =>
    match s.phase t with
    | some (.stalled bound) => if s.score < bound then some (s.setPhase .past t) else none
    | _ => none
  | .rotate t =>
    if s.phase t = some .past then some { s with queue := s.queue ++ [.gc] } else none
  | .handOff t =>
    if s.phase t = some .past ∧ s.frozen < 4 then
      some { s with
        frozen := s.frozen + 1, queue := s.queue ++ [.removeWal], flushQueue := s.flushQueue + 1 }
    else none
  | .finish t => if s.phase t = some .past then some (s.setPhase .out t) else none
  | .flushTake =>
    if s.flushing = none ∧ 0 < s.flushQueue then
      some { s with flushQueue := s.flushQueue - 1, flushing := some false }
    else none
  | .flushInstall end_ =>
    if s.flushing = some false then
      let t := { s with flushing := some true }
      match end_ with
      | .installed => some ({ t with l0 := s.l0 + 1 }.start (s.l0 + 1))
      | .notLogged => some (t.start s.l0)
      | .left => some t
    else none
  | .flushClear =>
    if s.flushing = some true then some { s with frozen := s.frozen - 1, flushing := none }
    else none
  | .take w =>
    match s.workers w, s.queue with
    | none, task :: queue =>
      some { s with queue := queue, workers := update s.workers w (some task.job) }
    | _, _ => none
  | .compact w l0 =>
    if s.workers w = some .compaction ∧ l0 ≤ s.l0 then some { s with l0 := l0 } else none
  | .taskEnd w =>
    match s.workers w with
    | some (.gc .out) => some { s with workers := update s.workers w none }
    | some .removeWal => some { s with workers := update s.workers w none }
    | some .compaction =>
      some { s with running := false, workers := update s.workers w none }
    | _ => none

/-! ## Starvation -/

/-- A thread is blocked in the stall. -/
def Blocked (s : Pools) : WritePhase → Prop
  | .stalled bound => bound ≤ s.score
  | _ => False

/-- **The compactions are starved by collections**: a compaction is in the queue,
each worker has a collection that is blocked in the stall, and every client with a
request is blocked there too. -/
structure Starved (s : Pools) : Prop where
  queued : .compaction ∈ s.queue
  workers : ∀ w, ∃ p ∈ s.phase (.worker w), s.Blocked p
  clients : ∀ p ∈ s.clients, p = .out ∨ s.Blocked p

/-- Whether a worker has a collection. -/
def isGc : Option PoolJob → Bool
  | some (.gc _) => true
  | _ => false

/-- The collections queued and at work. -/
def outstanding (s : Pools) : ℕ :=
  s.queue.count .gc + ((isGc (s.workers 0)).toNat + (isGc (s.workers 1)).toNat)

/-- The condition on the steps: a commit rotates the value log only when no
collection is queued or at work. -/
def Spaced (s : Pools) : PoolAction → Prop
  | .rotate _ => s.outstanding = 0
  | _ => True

instance decidableBlocked (s : Pools) (p : WritePhase) : Decidable (s.Blocked p) := by
  cases p <;> unfold Blocked <;> infer_instance

instance decidableSpaced (s : Pools) (a : PoolAction) : Decidable (s.Spaced a) := by
  cases a <;> unfold Spaced <;> infer_instance

/-! ## What a step can do -/

/-- How a thread moves on with its write request. -/
inductive Next (s : Pools) : WritePhase → WritePhase → Prop where
  | enter : Next s .out (.read s.l0 s.frozen)
  | begin (l0 frozen : ℕ) : Next s (.read l0 frozen) (stall (l0 + frozen))
  | pass {bound : ℕ} (h : s.score < bound) : Next s (.stalled bound) .past
  | finish : Next s .past .out

/-- The state after a compaction may have been started, and nothing else. -/
def MaybeStarted (s t : Pools) : Prop := t = s ∨ ∃ l0, t = s.start l0

variable {s s' : Pools} {a : PoolAction}

/-- **What a step can do.** A thread moves on, possibly with a compaction started;
a commit rotates the value log or hands the memtable off; the flush task moves on; a
worker takes up a task; or a worker whose task is not in a write request moves on
with it. -/
theorem step_cases (hs : s.step a = some s') :
    (∃ t p q u, s.phase t = some p ∧ s.Next p q ∧ s.MaybeStarted u ∧ s' = u.setPhase q t)
      ∨ (∃ t, s.phase t = some .past ∧ a = .rotate t
        ∧ s' = { s with queue := s.queue ++ [.gc] })
      ∨ (∃ t, s.phase t = some .past ∧ s' = { s with
          frozen := s.frozen + 1, queue := s.queue ++ [.removeWal]
          flushQueue := s.flushQueue + 1 })
      ∨ (∃ l0 frozen flushQueue flushing, (s.flushing ≠ none ∨ 0 < s.flushQueue)
        ∧ MaybeStarted { s with
            l0 := l0, frozen := frozen, flushQueue := flushQueue, flushing := flushing } s')
      ∨ (∃ w task queue, s.workers w = none ∧ s.queue = task :: queue
        ∧ s' = { s with
            queue := queue, workers := update s.workers w (some task.job) })
      ∨ (∃ w job l0 running, s.workers w = some job ∧ (∀ p, job = .gc p → p = .out)
        ∧ (s' = { s with l0 := l0 } ∨ s' = { s with
            running := running, workers := update s.workers w none })) := by
  unfold step at hs
  cases a with
  | enter t =>
    dsimp only at hs
    split_ifs at hs with ht
    cases hs
    exact .inl ⟨t, _, _, s, ht, .enter, .inl rfl, rfl⟩
  | begin t =>
    dsimp only at hs
    split at hs
    · rename_i l0 frozen ht
      cases hs
      exact .inl ⟨t, _, _, _, ht, .begin l0 frozen, .inr ⟨l0, rfl⟩, rfl⟩
    · cases hs
  | pass t =>
    dsimp only at hs
    split at hs
    · rename_i bound ht
      split_ifs at hs with hlt
      cases hs
      exact .inl ⟨t, _, _, s, ht, .pass hlt, .inl rfl, rfl⟩
    · cases hs
  | rotate t =>
    dsimp only at hs
    split_ifs at hs with ht
    cases hs
    exact .inr (.inl ⟨t, ht, rfl, rfl⟩)
  | handOff t =>
    dsimp only at hs
    split_ifs at hs with ht
    cases hs
    exact .inr (.inr (.inl ⟨t, ht.1, rfl⟩))
  | finish t =>
    dsimp only at hs
    split_ifs at hs with ht
    cases hs
    exact .inl ⟨t, _, _, s, ht, .finish, .inl rfl, rfl⟩
  | flushTake =>
    dsimp only at hs
    split_ifs at hs with hq
    cases hs
    exact .inr (.inr (.inr (.inl ⟨_, _, _, _, .inr hq.2, .inl rfl⟩)))
  | flushInstall end_ =>
    dsimp only at hs
    split_ifs at hs with hf
    have hbusy : s.flushing ≠ none ∨ 0 < s.flushQueue :=
      .inl (by rw [hf]; exact Option.some_ne_none _)
    refine .inr (.inr (.inr (.inl ?_)))
    cases end_ with
    | installed =>
      cases hs
      exact ⟨s.l0 + 1, s.frozen, s.flushQueue, some true, hbusy, .inr ⟨_, rfl⟩⟩
    | notLogged =>
      cases hs
      exact ⟨s.l0, s.frozen, s.flushQueue, some true, hbusy, .inr ⟨_, rfl⟩⟩
    | left =>
      cases hs
      exact ⟨s.l0, s.frozen, s.flushQueue, some true, hbusy, .inl rfl⟩
  | flushClear =>
    dsimp only at hs
    split_ifs at hs with hf
    cases hs
    exact .inr (.inr (.inr (.inl
      ⟨_, _, _, _, .inl (by rw [hf]; exact Option.some_ne_none _), .inl rfl⟩)))
  | take w =>
    dsimp only at hs
    split at hs
    · rename_i task queue hw hq
      cases hs
      exact .inr (.inr (.inr (.inr (.inl ⟨w, task, queue, hw, hq, rfl⟩))))
    · cases hs
  | compact w l0 =>
    dsimp only at hs
    split_ifs at hs with hw
    cases hs
    exact .inr (.inr (.inr (.inr (.inr
      ⟨w, _, l0, s.running, hw.1, fun _ h => PoolJob.noConfusion h, .inl rfl⟩))))
  | taskEnd w =>
    dsimp only at hs
    refine .inr (.inr (.inr (.inr (.inr ?_))))
    split at hs
    · rename_i hw
      cases hs
      exact ⟨w, _, s.l0, s.running, hw, fun _ h => (PoolJob.gc.inj h).symm, .inr rfl⟩
    · rename_i hw
      cases hs
      exact ⟨w, _, s.l0, s.running, hw, fun _ h => PoolJob.noConfusion h, .inr rfl⟩
    · rename_i hw
      cases hs
      exact ⟨w, _, s.l0, false, hw, fun _ h => PoolJob.noConfusion h, .inr rfl⟩
    · cases hs

/-- A worker that makes a request has a collection. -/
theorem workers_of_phase {w : Fin 2} {p : WritePhase} (h : s.phase (.worker w) = some p) :
    s.workers w = some (.gc p) := by
  unfold phase at h
  dsimp only at h
  split at h
  · rename_i hw
    cases h
    exact hw
  · cases h

/-- Starting a compaction touches its flag and the queue only. -/
theorem MaybeStarted.frame {t : Pools} (h : s.MaybeStarted t) :
    ∃ running queue, t = { s with running := running, queue := queue }
      ∧ (queue = s.queue ∨ queue = s.queue ++ [.compaction]) := by
  rcases h with rfl | ⟨l0, rfl⟩
  · exact ⟨_, _, rfl, .inl rfl⟩
  · unfold start
    split_ifs
    · exact ⟨_, _, rfl, .inr rfl⟩
    · exact ⟨_, _, rfl, .inl rfl⟩

/-! ## The collections outstanding -/

/-- The collections outstanding when a worker gets another job, and the queue
changes. -/
theorem outstanding_update (s : Pools) (queue : List PoolTask) (running : Bool) (w : Fin 2)
    (job : Option PoolJob) :
    Pools.outstanding { s with
        queue := queue, running := running, workers := update s.workers w job }
      + (s.queue.count .gc + (isGc (s.workers w)).toNat)
      = s.outstanding + (queue.count .gc + (isGc job).toNat) := by
  unfold outstanding
  fin_cases w
  · simp [update]
    omega
  · simp [update]
    omega

/-- A thread that moves on neither adds a collection nor ends one. -/
theorem outstanding_setPhase {t : WriteThread} {p : WritePhase} (q : WritePhase)
    (ht : s.phase t = some p) : (s.setPhase q t).outstanding = s.outstanding := by
  cases t with
  | client i => rfl
  | worker w =>
    have hupdate := s.outstanding_update s.queue s.running w (some (.gc q))
    rw [workers_of_phase ht] at hupdate
    exact Nat.add_right_cancel hupdate

/-- Nor does starting a compaction. -/
theorem MaybeStarted.outstanding {t : Pools} (h : s.MaybeStarted t) :
    t.outstanding = s.outstanding := by
  obtain ⟨running, queue, rfl, rfl | rfl⟩ := h.frame
  · rfl
  · show (s.queue ++ [PoolTask.compaction]).count .gc + _ = _
    rw [List.count_append]
    rfl

/-- **Only a rotation adds a collection.** -/
theorem outstanding_step (hs : s.step a = some s') :
    s'.outstanding ≤ s.outstanding
      ∨ (∃ t, a = .rotate t) ∧ s'.outstanding = s.outstanding + 1 := by
  rcases step_cases hs with ⟨t, p, q, u, ht, -, hu, rfl⟩ | ⟨t, -, rfl, rfl⟩ | ⟨t, -, rfl⟩
    | ⟨_, _, _, _, -, hu⟩ | ⟨w, task, queue, -, hq, rfl⟩ | ⟨w, job, _, running, -, -, rfl | rfl⟩
  · obtain ⟨running, queue, rfl, -⟩ := hu.frame
    have hphase : Pools.phase { s with running := running, queue := queue } t = some p := ht
    exact .inl ((outstanding_setPhase q hphase).trans hu.outstanding).le
  · refine .inr ⟨⟨t, rfl⟩, ?_⟩
    unfold outstanding
    dsimp only
    rw [List.count_append, List.count_singleton_self]
    omega
  · refine .inl (Nat.le_of_eq ?_)
    show (s.queue ++ [PoolTask.removeWal]).count .gc + _ = _
    rw [List.count_append]
    rfl
  · exact .inl hu.outstanding.le
  · -- a collection leaves the queue for the worker, another task adds none
    have hupdate := s.outstanding_update queue s.running w (some task.job)
    have htask : (isGc (some task.job)).toNat = [task].count .gc := by
      cases task <;> rfl
    have hcount : s.queue.count .gc = queue.count .gc + [task].count .gc := by
      rw [hq, ← List.singleton_append, List.count_append, Nat.add_comm]
    rw [htask, ← hcount] at hupdate
    exact .inl (Nat.le_of_add_le_add_right ((Nat.add_le_add_left (Nat.le_add_right ..) _).trans
      hupdate.le))
  · exact .inl le_rfl
  · have hupdate := s.outstanding_update s.queue running w none
    exact .inl (Nat.le_of_add_le_add_right ((Nat.add_le_add_left (Nat.le_add_right ..) _).trans
      hupdate.le))

/-- **A step that is spaced leaves at most one collection.** -/
theorem outstanding_le_one_step (h : s.outstanding ≤ 1) (hok : s.Spaced a)
    (hs : s.step a = some s') :
    s'.outstanding ≤ 1 := by
  rcases outstanding_step hs with hle | ⟨⟨t, rfl⟩, heq⟩
  · exact hle.trans h
  · have hzero : s.outstanding = 0 := hok
    omega

/-- Starved compactions take two collections. -/
theorem Starved.two_le_outstanding (h : s.Starved) : 2 ≤ s.outstanding := by
  have hgc : ∀ w, (isGc (s.workers w)).toNat = 1 := by
    intro w
    obtain ⟨p, hp, -⟩ := h.workers w
    rw [workers_of_phase hp]
    rfl
  have h0 := hgc 0
  have h1 := hgc 1
  unfold outstanding
  omega

/-! ## Starvation is for ever -/

/-- A write request that will not get past the stall as things are. -/
def Held (s : Pools) (p : WritePhase) : Prop :=
  p = .out ∨ p = .read s.l0 s.frozen ∨ s.Blocked p

/-- **Nothing can move but new requests, into the stall.** No flush task is left, L0
calls for a compaction, and both workers have a collection that is blocked. -/
structure Stuck (s : Pools) : Prop where
  queued : .compaction ∈ s.queue
  workers : ∀ w, ∃ p ∈ s.phase (.worker w), s.Blocked p
  clients : ∀ p ∈ s.clients, s.Held p
  full : 4 ≤ s.l0
  noFlush : s.flushing = none ∧ s.flushQueue = 0

/-- Starvation that no flush can end. -/
theorem Starved.stuck (h : s.Starved) (hfull : 4 ≤ s.l0)
    (hflush : s.flushing = none ∧ s.flushQueue = 0) : s.Stuck where
  queued := h.queued
  workers := h.workers
  clients := fun p hp => (h.clients p hp).imp id .inr
  full := hfull
  noFlush := hflush

/-- A score that stalls is not below the bound it stalls for. -/
theorem blocked_stall (h : 3 < s.score) : s.Blocked (stall s.score) := by
  unfold stall
  split_ifs
  · assumption
  · exact le_rfl

/-- A held request stays held. -/
theorem Held.next {p q : WritePhase} (h : s.Held p) (hfull : 4 ≤ s.l0) (hq : s.Next p q) :
    s.Held q := by
  have hscore : 3 < s.score := Nat.lt_of_lt_of_le hfull (Nat.le_add_right ..)
  cases hq with
  | enter => exact .inr (.inl rfl)
  | begin l0 frozen =>
    rcases h with h | h | h
    · cases h
    · cases h
      exact .inr (.inr (blocked_stall hscore))
    · cases h
  | pass hlt =>
    rcases h with h | h | h
    · cases h
    · cases h
    · exact absurd hlt (Nat.not_lt.mpr h)
  | finish =>
    rcases h with h | h | h <;> cases h

/-- In a stuck state every thread is held. -/
theorem Stuck.held (h : s.Stuck) {t : WriteThread} {p : WritePhase} (ht : s.phase t = some p) :
    s.Held p := by
  cases t with
  | client i => exact h.clients p (List.mem_of_getElem? ht)
  | worker w =>
    obtain ⟨q, hq, hblocked⟩ := h.workers w
    cases ht.symm.trans hq
    exact .inr (.inr hblocked)

/-- **A stuck state stays stuck**, whatever step is taken. -/
theorem Stuck.step (h : s.Stuck) (hs : s.step a = some s') : s'.Stuck := by
  have hpast : ∀ {t}, s.phase t ≠ some .past := fun ht => by
    rcases h.held ht with hp | hp | hp <;> cases hp
  rcases step_cases hs with ⟨t, p, q, u, ht, hnext, hu, rfl⟩ | ⟨t, ht, -⟩ | ⟨t, ht, -⟩
    | ⟨_, _, _, _, hbusy, -⟩ | ⟨w, task, queue, hw, -⟩ | ⟨w, job, _, _, hw, hout, -⟩
  · have hheld := (h.held ht).next h.full hnext
    obtain ⟨running, queue, rfl, hqueue⟩ := hu.frame
    have hqueued : .compaction ∈ queue := by
      rcases hqueue with rfl | rfl
      · exact h.queued
      · exact List.mem_append_left _ h.queued
    cases t with
    | client i =>
      refine ⟨hqueued, h.workers, fun r hr => ?_, h.full, h.noFlush⟩
      rcases List.mem_or_eq_of_mem_set hr with hr | rfl
      · exact h.clients r hr
      · exact hheld
    | worker w =>
      -- the request of a collection is blocked, and no step leads on from there
      obtain ⟨r, hr, hblocked⟩ := h.workers w
      cases ht.symm.trans hr
      cases hnext with
      | enter | begin => cases hblocked
      | pass hlt => exact absurd hlt (Nat.not_lt.mpr hblocked)
      | finish => cases hblocked
  · exact absurd ht hpast
  · exact absurd ht hpast
  · rcases hbusy with hbusy | hbusy
    · exact absurd h.noFlush.1 hbusy
    · exact absurd h.noFlush.2 hbusy.ne'
  · obtain ⟨p, hp, -⟩ := h.workers w
    rw [workers_of_phase hp] at hw
    cases hw
  · obtain ⟨p, hp, hblocked⟩ := h.workers w
    rw [workers_of_phase hp] at hw
    cases hw
    rw [hout p rfl] at hblocked
    cases hblocked

/-- **A stuck state stays stuck**, along every run. -/
theorem Stuck.run (h : s.Stuck) {as : List PoolAction}
    (hrun : runSteps Pools.step s as = some s') : s'.Stuck :=
  invariant_of_run (fun _ _ _ h hs => Stuck.step h hs) h hrun

/-- A client's write request that does not stall, and what its commit does. -/
def write (action : WriteThread → PoolAction) : List PoolAction :=
  [.enter (.client 0), .begin (.client 0), action (.client 0), .finish (.client 0)]

/-- A memtable is handed off and flushed. -/
def flush : List PoolAction :=
  write .handOff ++ [.flushTake, .flushInstall .installed, .flushClear]

/-- The value log is rotated in two commits, and the two collections take the two
workers; then a flush makes the fourth file at L0, and the collections and the
client come with write requests. -/
def twoRotations : List PoolAction :=
  List.flatten [write .rotate, write .rotate, [.take 0, .take 1], flush,
    [.enter (.worker 0), .begin (.worker 0), .enter (.worker 1), .begin (.worker 1),
      .enter (.client 0), .begin (.client 0)]]

/-- **Two collections starve the compaction they wait for**: a store with three
files at L0 and one client comes to a state that is starved, with the client
blocked, and in every state after it the compaction is still in the queue and both
workers are blocked. -/
theorem starved_twoRotations :
    ∃ s, runSteps step (opened 3 1) twoRotations = some s ∧ s.Starved
      ∧ s.clients = [.stalled 4]
      ∧ ∀ more u, runSteps step s more = some u →
          .compaction ∈ u.queue ∧ ∀ w, ∃ p ∈ u.phase (.worker w), u.Blocked p := by
  have hstarved : (finalState step (opened 3 1) twoRotations).Starved :=
    ⟨by decide +kernel, by decide +kernel, by decide +kernel⟩
  refine ⟨_, runSteps_eq_finalState (by decide +kernel), hstarved, by decide +kernel, ?_⟩
  intro more u hrun
  have hstuck := (hstarved.stuck (by decide +kernel) (by decide +kernel)).run hrun
  exact ⟨hstuck.queued, hstuck.workers⟩

/-! ## Collections one at a time -/

/-- **Background work is not starved by collections that come one at a time.** In a
run from an opened store in which the value log is rotated only when no collection
is queued or at work, no state is starved. -/
theorem never_starves {l0 clients : ℕ} {as : List PoolAction}
    (hok : RunOk step Spaced (opened l0 clients) as) :
    ∀ u ∈ visited step (opened l0 clients) as, ¬ u.Starved := by
  intro u hu hstarved
  have hopened : (opened l0 clients).outstanding ≤ 1 := Nat.zero_le 1
  have hone : u.outstanding ≤ 1 :=
    invariant_of_mem_visited (fun _ _ _ h hok hs => outstanding_le_one_step h hok hs)
      hopened hok hu
  exact absurd hstarved.two_le_outstanding (by omega)

/-- With one rotation the second worker is there for the compaction, and the stall
lifts. -/
def oneRotation : List PoolAction :=
  List.flatten [write .rotate, [.take 0], flush,
    [.enter (.worker 0), .begin (.worker 0), .enter (.client 0), .begin (.client 0),
      .take 1, .taskEnd 1, .take 1, .compact 1 0, .taskEnd 1, .pass (.worker 0),
      .pass (.client 0)]]

theorem never_starves_oneRotation :
    (runSteps step (opened 3 1) oneRotation).isSome = true
      ∧ ∀ u ∈ visited step (opened 3 1) oneRotation, ¬ u.Starved :=
  ⟨by decide +kernel, never_starves (by decide +kernel)⟩

end Pools
