import ForgeLSM.KVStore

/-!
# The engine

A store at work: the commits of the leaders, the hand-off of full memtables,
the flush pool, compaction, the removal of retired WAL segments, the garbage
collection of value logs, and kills of the process with the recovery that
follows. Each is one action or several, and a run interleaves them in any
order that `KVStore.step` enables.

A commit and the hand-off of a memtable are one action each here; a hand-off of
one leader that falls inside the commit of another is added in `Overlap`, and
`HandOff` follows the two access by access. The flush pool has one thread and
takes its tasks in order. The pool that removes WAL segments has two, so the
removals pending are done in any order, or fail.
-/

namespace KVStore

/-! ## Flushing -/

/-- The flush pool starts on the task at its head. Nothing is written for an
empty memtable. -/
def flushStart (env : Env) (s : KVStore) : Option KVStore :=
  match s.flushQueue, s.flushPhase with
  | t :: _, .queued => (s.lsm.flushStart env t.mem).map (fun lsm =>
      { s with lsm := lsm, flushPhase := if lsm.flushing.isSome then .written else .committed })
  | _, _ => none

/-- The table it has written is logged. -/
def flushCommit (env : Env) (s : KVStore) : Option KVStore :=
  match s.flushPhase with
  | .written => (s.lsm.flushCommit env).map (fun lsm =>
      { s with lsm := lsm, flushPhase := .committed })
  | _ => none

/-- The end of the task: the slot of the ring is free again. -/
def flushClear (s : KVStore) : Option KVStore :=
  match s.flushQueue, s.flushPhase with
  | t :: rest, .committed => some
      { s with
        immutables := Function.update s.immutables t.slot none
        flushQueue := rest
        flushPhase := .queued }
  | _, _ => none

/-- A step of the tree that is not a flush's. -/
def compact (env : Env) (s : KVStore) (a : LsmAction Cell) : Option KVStore :=
  (s.lsm.step env a).map (fun lsm => { s with lsm := lsm })

/-! ## Removing WAL segments -/

/-- A removal task runs: the file is gone. -/
def walRemove (s : KVStore) (id : ℕ) : Option KVStore :=
  if id ∈ s.wal.removals then some
    { s with
      wal := { s.wal with
        segments := s.wal.segments.erase id
        removals := s.wal.removals.erase id } }
  else none

/-- A removal task fails: it warns, and the file stays. -/
def walRemoveFail (s : KVStore) (id : ℕ) : Option KVStore :=
  if id ∈ s.wal.removals then some
    { s with wal := { s.wal with removals := s.wal.removals.erase id } }
  else none

/-! ## Garbage collection -/

/-- The oldest value log behind the one appended to. -/
def gcTarget (s : KVStore) : Option ℕ :=
  if s.vlogs.logs.keys.length > 1 then
    s.vlogs.logs.keys.find? (fun id => decide (id < s.vlogs.current))
  else none

/-- `run_vlog_gc` picks its log. Without one it returns. -/
def gcStart (s : KVStore) : Option KVStore :=
  if s.gc.isSome then none else some { s with gc := s.gcTarget.map (fun id => { target := id }) }

/-- The cell that makes a record of the log live: the key's pointer leads to
this very record. -/
def liveAt (env : Env) (s : KVStore) (job : GcJob) (r : VRecord) : Option Cell :=
  (live (s.lookup env r.1)).filter (fun c =>
    decide (c.ptr.fileId = job.target ∧ c.ptr.offset = job.offset + 8 + r.1.length))

/-- One round of the scan: a record is read and judged. At the end of the log
the run is given up when more than half of it is live. -/
def gcScan (env : Env) (s : KVStore) : Option KVStore :=
  match s.gc with
  | none => none
  | some job =>
    if job.scanning then
      match (s.vlogs.logs.get job.target).bind (fun log => log.readNext job.offset) with
      | some (r, next) =>
        let size := r.1.length + r.2.length
        match s.liveAt env job r with
        | some c => some { s with gc := some { job with
            offset := next
            live := job.live ++ [⟨r.1, r.2, c.stamp⟩]
            liveBytes := job.liveBytes + size
            totalBytes := job.totalBytes + size } }
        | none => some { s with gc := some { job with
            offset := next
            totalBytes := job.totalBytes + size } }
      | none =>
        if job.totalBytes > 0 ∧ 2 * job.liveBytes > job.totalBytes then some { s with gc := none }
        else some { s with gc := some { job with scanning := false } }
    else none

/-- The write request that relocates a record. -/
def gcRequest (job : GcJob) (r : GcRecord) : WriteRequest where
  key := r.key
  value := r.value
  isGc := true
  gcOldVlogId := job.target
  gcStamp := r.stamp

/-- The relocation the collector has in the queue. -/
def gcPending (s : KVStore) : Option WriteRequest :=
  match s.gc with
  | none => none
  | some job => if job.scanning then none else job.live.head?.map (gcRequest job)

/-- The relocations of a batch are what the collector has in the queue: it
sends one and waits for it. -/
def gcEnabled (s : KVStore) (batch : List WriteRequest) : Bool :=
  match batch.filter WriteRequest.isGc with
  | [] => true
  | [r] => decide (s.gcPending = some r)
  | _ => false

/-- The collector after the commit of a batch. -/
def gcAfter (s : KVStore) (batch : List WriteRequest) : Option GcJob :=
  if batch.any WriteRequest.isGc then s.gc.map (fun job => { job with live := job.live.tail })
  else s.gc

/-- All is relocated, and the file is removed. -/
def gcFinish (s : KVStore) : Option KVStore :=
  match s.gc with
  | none => none
  | some job =>
    if job.scanning = false ∧ job.live = [] then some
      { s with
        vlogs := { s.vlogs with logs := s.vlogs.logs.erase job.target }
        gc := none }
    else none

end KVStore

/-! ## The machine -/

/-- What can happen to a store. -/
inductive EngineAction where
  /-- A leader commits a batch. -/
  | commit (batch : List WriteRequest)
  | maybeFlush
  | flushStart
  | flushCommit
  | flushClear
  | compactStart
  | compactOutput
  | compactCommit
  | purgeObsoleteFiles
  | walRemove (id : ℕ)
  | walRemoveFail (id : ℕ)
  | gcStart
  | gcScan
  | gcFinish
  /-- The process is killed, in the commit of a batch of which so many records
  reach the WAL, and the store reopened. -/
  | crash (batch : List WriteRequest) (n : ℕ)
  deriving DecidableEq

/-- The operations an action commits. -/
def EngineAction.ops : EngineAction → List Op
  | .commit batch => userOps batch
  | _ => []

/-- The operations of a run, in commit order. -/
def clientOps (as : List EngineAction) : History := as.flatMap EngineAction.ops

/-- **One step of the engine.** -/
def KVStore.step (env : Env) (s : KVStore) : EngineAction → Option KVStore
  | .commit batch =>
    if s.gcEnabled batch then some { s.commit env batch with gc := s.gcAfter batch } else none
  | .maybeFlush => s.maybeFlush
  | .flushStart => s.flushStart env
  | .flushCommit => s.flushCommit env
  | .flushClear => s.flushClear
  | .compactStart => s.compact env .compactStart
  | .compactOutput => s.compact env .compactOutput
  | .compactCommit => s.compact env .compactCommit
  | .purgeObsoleteFiles => s.compact env .purgeObsoleteFiles
  | .walRemove id => s.walRemove id
  | .walRemoveFail id => s.walRemoveFail id
  | .gcStart => s.gcStart
  | .gcScan => s.gcScan env
  | .gcFinish => s.gcFinish
  | .crash batch n =>
    if s.gcEnabled batch then some (KVStore.recover env (s.kill env batch n)) else none

/-! ## What the steps do -/

namespace KVStore

variable {env : Env} {s s' : KVStore}

theorem maybeFlush_cases (h : s.maybeFlush = some s') :
    s.immutables (Ring.slotOf 4 s.currentImmIdx) = none ∧ s' =
      { s with
        immutables := Function.update s.immutables (Ring.slotOf 4 s.currentImmIdx) (some s.active)
        currentImmIdx := s.currentImmIdx + 1
        active := .empty
        wal := s.wal.rotate
        flushQueue := s.flushQueue ++ [⟨Ring.slotOf 4 s.currentImmIdx, s.active, s.wal.current,
          s.history.length⟩] } := by
  obtain ⟨t, ht, rfl⟩ := Option.map_eq_some_iff.mp h
  unfold swap at ht
  dsimp only at ht
  split_ifs at ht with hfree
  cases ht
  exact ⟨by simpa using hfree, rfl⟩

theorem flushStart_cases (h : s.flushStart env = some s') :
    ∃ t rest lsm, s.flushQueue = t :: rest ∧ s.flushPhase = .queued
      ∧ s.lsm.flushStart env t.mem = some lsm
      ∧ s' =
        { s with
          lsm := lsm
          flushPhase := if lsm.flushing.isSome then .written else .committed } := by
  unfold flushStart at h
  split at h
  · rename_i t rest hq hp
    obtain ⟨lsm, hl, rfl⟩ := Option.map_eq_some_iff.mp h
    exact ⟨t, rest, lsm, hq, hp, hl, rfl⟩
  · cases h

theorem flushCommit_cases (h : s.flushCommit env = some s') :
    ∃ lsm, s.flushPhase = .written ∧ s.lsm.flushCommit env = some lsm
      ∧ s' = { s with lsm := lsm, flushPhase := .committed } := by
  unfold flushCommit at h
  split at h
  · rename_i hp
    obtain ⟨lsm, hl, rfl⟩ := Option.map_eq_some_iff.mp h
    exact ⟨lsm, hp, hl, rfl⟩
  · cases h

theorem flushClear_cases (h : s.flushClear = some s') :
    ∃ t rest, s.flushQueue = t :: rest ∧ s.flushPhase = .committed ∧ s' =
      { s with
        immutables := Function.update s.immutables t.slot none
        flushQueue := rest
        flushPhase := .queued } := by
  unfold flushClear at h
  split at h
  · rename_i t rest hq hp
    exact ⟨t, rest, hq, hp, (Option.some.inj h).symm⟩
  · cases h

theorem compact_cases {a : LsmAction Cell} (h : s.compact env a = some s') :
    ∃ lsm, s.lsm.step env a = some lsm ∧ s' = { s with lsm := lsm } := by
  obtain ⟨lsm, hl, rfl⟩ := Option.map_eq_some_iff.mp h
  exact ⟨lsm, hl, rfl⟩

theorem walRemove_cases {id : ℕ} (h : s.walRemove id = some s') :
    id ∈ s.wal.removals ∧ s' =
      { s with
        wal := { s.wal with
          segments := s.wal.segments.erase id
          removals := s.wal.removals.erase id } } := by
  unfold walRemove at h
  split_ifs at h with hid
  exact ⟨hid, (Option.some.inj h).symm⟩

theorem walRemoveFail_cases {id : ℕ} (h : s.walRemoveFail id = some s') :
    id ∈ s.wal.removals ∧ s' =
      { s with wal := { s.wal with removals := s.wal.removals.erase id } } := by
  unfold walRemoveFail at h
  split_ifs at h with hid
  exact ⟨hid, (Option.some.inj h).symm⟩

theorem gcStart_cases (h : s.gcStart = some s') :
    s.gc = none ∧ s' = { s with gc := s.gcTarget.map (fun id => { target := id }) } := by
  unfold gcStart at h
  split_ifs at h with hgc
  exact ⟨by simpa using hgc, (Option.some.inj h).symm⟩

/-- A round of the scan takes a record in, passes it over, gives up, or comes
to the end. -/
theorem gcScan_cases (h : s.gcScan env = some s') :
    ∃ job, s.gc = some job ∧ job.scanning = true
      ∧ ((∃ log r next, s.vlogs.logs.get job.target = some log
          ∧ log.readNext job.offset = some (r, next)
          ∧ ((∃ c, s.liveAt env job r = some c ∧ s' = { s with gc := some { job with
                offset := next
                live := job.live ++ [⟨r.1, r.2, c.stamp⟩]
                liveBytes := job.liveBytes + (r.1.length + r.2.length)
                totalBytes := job.totalBytes + (r.1.length + r.2.length) } })
            ∨ s.liveAt env job r = none ∧ s' = { s with gc := some { job with
                offset := next
                totalBytes := job.totalBytes + (r.1.length + r.2.length) } }))
        ∨ s' = { s with gc := none }
        ∨ (s.vlogs.logs.get job.target).bind (fun log => log.readNext job.offset) = none
          ∧ s' = { s with gc := some { job with scanning := false } }) := by
  unfold gcScan at h
  split at h
  · cases h
  · rename_i job hjob
    by_cases hscan : job.scanning = true
    case neg =>
      rw [if_neg hscan] at h
      cases h
    rw [if_pos hscan] at h
    refine ⟨job, hjob, hscan, ?_⟩
    split at h
    · rename_i r next hread
      obtain ⟨log, hlog, hnext⟩ := Option.bind_eq_some_iff.mp hread
      refine Or.inl ⟨log, r, next, hlog, hnext, ?_⟩
      dsimp only at h
      split at h
      · rename_i c hc
        exact Or.inl ⟨c, hc, (Option.some.inj h).symm⟩
      · rename_i hc
        exact Or.inr ⟨hc, (Option.some.inj h).symm⟩
    · rename_i hread
      split_ifs at h
      · exact Or.inr (Or.inl (Option.some.inj h).symm)
      · exact Or.inr (Or.inr ⟨hread, (Option.some.inj h).symm⟩)

theorem gcFinish_cases (h : s.gcFinish = some s') :
    ∃ job, s.gc = some job ∧ job.scanning = false ∧ job.live = [] ∧ s' =
      { s with
        vlogs := { s.vlogs with logs := s.vlogs.logs.erase job.target }
        gc := none } := by
  unfold gcFinish at h
  split at h
  · cases h
  · rename_i job hjob
    split_ifs at h with hdone
    exact ⟨job, hjob, hdone.1, hdone.2, (Option.some.inj h).symm⟩

theorem step_commit_cases {batch : List WriteRequest} (h : s.step env (.commit batch) = some s') :
    s.gcEnabled batch = true ∧ s' = { s.commit env batch with gc := s.gcAfter batch } := by
  unfold step at h
  dsimp only at h
  split_ifs at h with hgc
  exact ⟨hgc, (Option.some.inj h).symm⟩

theorem step_crash_cases {batch : List WriteRequest} {n : ℕ}
    (h : s.step env (.crash batch n) = some s') :
    s.gcEnabled batch = true ∧ s' = KVStore.recover env (s.kill env batch n) := by
  unfold step at h
  dsimp only at h
  split_ifs at h with hgc
  exact ⟨hgc, (Option.some.inj h).symm⟩

end KVStore
