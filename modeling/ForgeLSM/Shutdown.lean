import ForgeLSM.Segments

/-!
# Closing a store and opening it again

`~KVStore` waits until no memtable is frozen and no compaction is at work, and
stops the pools. A pool takes its tasks in order and finishes those it has
begun; what is still queued is dropped, so of the removals of WAL segments the
newest are. Then the value logs and the WAL are closed. A value log writes out
its buffer. The WAL does not: `WAL::~WAL` closes the file and no more, and the
active memtable is not flushed either.

So what a client was told is written can be lost in a clean shutdown
(`get_closed_unsynced`), and a key can go back to an older value
(`get_closed_torn`). With the WAL's buffer empty when the store is closed, and
no torn segment left on disk, nothing is lost (`get_reopen_eq_value`).
-/

namespace KVStore

variable {env : Env} {s s' t : KVStore} {torn : List ℕ}

/-- What a store leaves on disk when it is closed: the value logs write out
their buffers, the WAL does not, and the removals still queued are dropped. -/
def leftOnDisk (s : KVStore) : KVStore :=
  { s with
    vlogs := { s.vlogs with logs := s.vlogs.logs.mapValues VLog.sync }
    wal := { s.wal with buffer := [], removals := [] } }

/-- **`KVStore::~KVStore`**: it waits for the ring and for a compaction, and
stops the pools, which have then done the oldest of the removals. -/
def close (s : KVStore) : Option KVStore :=
  if (∀ i, (s.immutables i).isNone = true) ∧ s.lsm.job.isNone = true
      ∧ s.wal.removals
        = List.range' (s.wal.current - s.wal.removals.length) s.wal.removals.length
  then some s.leftOnDisk
  else none

theorem close_cases (h : s.close = some t) :
    (∀ i, s.immutables i = none)
      ∧ s.wal.removals
        = List.range' (s.wal.current - s.wal.removals.length) s.wal.removals.length
      ∧ t = s.leftOnDisk := by
  unfold close at h
  split_ifs at h with hidle
  exact ⟨fun i => Option.isNone_iff_eq_none.mp (hidle.1 i), hidle.2.2, (Option.some.inj h).symm⟩

end KVStore

/-! ## The value logs, closed -/

namespace Vlogs

variable {vl : Vlogs}

/-- The log of an id, closed. -/
theorem get_closed {id : ℕ} {log : VLog} (h : (vl.logs.mapValues VLog.sync).get id = some log) :
    ∃ old, vl.logs.get id = some old ∧ log = old.sync := by
  rw [OrdMap.get_mapValues] at h
  obtain ⟨old, hold, rfl⟩ := Option.map_eq_some_iff.mp h
  exact ⟨old, hold, rfl⟩

/-- **Closing the logs keeps what is in them.** -/
theorem Ok.closed (h : vl.Ok) :
    Ok { vl with logs := vl.logs.mapValues VLog.sync }
      ∧ Synced { vl with logs := vl.logs.mapValues VLog.sync }
      ∧ vl.Grows { vl with logs := vl.logs.mapValues VLog.sync } := by
  refine ⟨?_, fun id log hlog => ?_, le_refl _, fun id log _ hlog => ?_⟩
  · refine
      { pos := h.pos
        current_mem := ⟨vl.log.sync, ?_⟩
        le_current := fun id log hlog => ?_
        consistent := fun id log hlog => ?_
        whole := fun id log hlog => ?_
        buffer_lt := fun id log hlog => ?_
        old := fun id log hlog _ => ?_ }
    · show (vl.logs.mapValues VLog.sync).get vl.current = _
      rw [OrdMap.get_mapValues, h.log_eq]
      rfl
    all_goals obtain ⟨old, hold, rfl⟩ := get_closed hlog
    · exact h.le_current id old hold
    · exact (h.consistent id old hold).sync
    · rw [VLog.content_sync]
      exact h.whole id old hold
    · exact Nat.zero_lt_of_lt (show 0 < VLog.bufferLimit by decide)
    · rfl
  · obtain ⟨old, -, rfl⟩ := get_closed hlog
    rfl
  · obtain ⟨old, hold, rfl⟩ := get_closed hlog
    exact ⟨old, [], hold, by simp, by simp⟩

end Vlogs

namespace KVStore

variable {env : Env} {s s' t : KVStore} {torn : List ℕ}

/-! ## Runs -/

/-- A step of one client's store: a put or a delete, synchronous or not, that
fits its encoding, with a key that replay believes; or background work other
than garbage collection, in which a compaction takes its source from L0 and no
removal of a segment fails. -/
def ShutdownStep (env : Env) (s : KVStore) : EngineAction → Prop
  | .commit [r] => r.isGc = false ∧ (r.isDelete = false → VLog.FitsRecord (r.key, r.value))
      ∧ r.key.length ≤ maxFieldSize
  | .commit _ | .crash _ _ | .gcStart | .gcScan | .gcFinish | .walRemoveFail _ => False
  | .compactStart => ∀ c ∈ Compaction.start env s.lsm.tables s.lsm.vs.current, c.target.val ≤ 1
  | _ => True

instance (s : KVStore) (a : EngineAction) : Decidable (ShutdownStep env s a) := by
  apply EngineAction.casesOn (motive := fun a => Decidable (ShutdownStep env s a)) a
  case commit => exact fun
    | [] | _ :: _ :: _ => instDecidableFalse
    | [_] => inferInstanceAs (Decidable (_ ∧ _))
  all_goals intros; unfold ShutdownStep; infer_instance

theorem ShutdownStep.client {a : EngineAction} (h : ShutdownStep env s a) :
    AsyncClientStep s a := by
  cases a with
  | commit batch =>
    match batch, h with
    | [r], ⟨hg, hf, _⟩ => exact ⟨hg, hf⟩
  | crash batch n | gcStart | gcScan | gcFinish => exact h.elim
  | _ => trivial

theorem ShutdownStep.shortKeys {batch : List WriteRequest}
    (h : ShutdownStep env s (.commit batch)) : WalSuffix.ShortKeys batch := by
  match batch, h with
  | [r], ⟨_, _, hshort⟩ =>
    intro q hq _
    obtain rfl := List.mem_singleton.mp hq
    exact hshort

/-- **The WAL left on disk is an end of the history**, when it had nothing in
its buffer and no torn segment is left. It begins no later than the open
segment did. -/
theorem Segmented.walSuffix_leftOnDisk {cut : ℕ → ℕ} (hseg : Segmented s torn cut)
    (hbuf : s.wal.buffer = []) (htorn : ∀ id ∈ s.wal.removals, id ∉ torn)
    (hlast : s.wal.removals
      = List.range' (s.wal.current - s.wal.removals.length) s.wal.removals.length) :
    WalSuffix s.leftOnDisk ∧ s.leftOnDisk.walStart ≤ cut s.wal.current := by
  obtain ⟨hcut, hstamps⟩ := hseg.records_stamps hbuf htorn hlast
  have hle := hseg.le
  have hrecords : s.leftOnDisk.wal.records = s.wal.records := rfl
  have hlen := congrArg List.length hstamps
  rw [List.length_map, List.length_range'] at hlen
  have hstart : s.leftOnDisk.walStart = cut (s.wal.current - s.wal.removals.length) := by
    unfold walStart
    rw [hrecords, hlen]
    show s.history.length - _ = _
    omega
  refine ⟨?_, hstart ▸ hcut⟩
  refine
    { pos := hseg.pos
      current_mem := ⟨_, hseg.get_current⟩
      le_current := fun id rs hrs => ?_
      removals_lt := fun id hid => by cases hid
      length_le := ?_
      stamps := by rw [hstart, hrecords, hstamps, hlen]
      short := fun r hr => ?_ }
  · rcases (hseg.keys id).mp ⟨rs, hrs⟩ with hmem | rfl
    · exact le_of_lt (hseg.lt id hmem)
    · exact le_refl _
  · rw [hrecords, hlen]
    exact Nat.sub_le _ _
  · obtain ⟨id, rs, hrs, hr⟩ := mem_records.mp hr
    exact (hseg.onDisk id rs hrs r hr).short

/-- **What a store has on its way to the disk**: the tables have the history up
to a time, the memtables that wait carry it on to where the open segment of the
WAL begins, and the segments have their operations, those torn apart. -/
structure Logged (env : Env) (s : KVStore) (torn : List ℕ) : Prop where
  pipeline : Pipeline env s
  pointed : Pointed s
  logs : EveryCell (fun _ c => HasLog s.vlogs c.ptr) s
  shallow : s.lsm.Shallow
  layers : ∃ b cut, Layers env s b ∧ Segmented s torn cut
    ∧ s.pending.foldl (fun _ task => task.upTo) b = cut s.wal.current

namespace Logged

theorem of_fresh : Logged env {} [] where
  pipeline := Pipeline.of_empty Lsm.inv_fresh rfl rfl rfl rfl
  pointed := .of_fresh
  logs := .of_fresh
  shallow := .of_fresh
  layers := ⟨0, fun _ => 0, .of_fresh, .of_fresh, rfl⟩

section

variable (h : Logged env s torn)
include h

theorem commit {batch : List WriteRequest} (hgc : ∀ r ∈ batch, r.isGc = false)
    (hen : s.gcEnabled batch = true) (hfit : RecordsFit batch)
    (hshort : WalSuffix.ShortKeys batch) :
    Logged env { s.commit env batch with gc := s.gcAfter batch } torn := by
  obtain ⟨b, cut, hl, hseg, htop⟩ := h.layers
  obtain ⟨-, hplan, happ⟩ := commit_vlogs_appends env h.pointed.vlogs (h.pointed.fits hen hfit)
  have hplaced := (plan_spec env h.pointed.vlogs (h.pointed.fits hen hfit)).2.2
  refine
    { pipeline := h.pipeline.commit batch
      pointed := h.pointed.commit hen hfit
      logs := h.logs.commit (fun _ _ hc => hc.mono happ.mem)
        (fun e he htomb => ((hplaced e he).1.appends hplan htomb).2) _
      shallow := h.shallow
      layers := ⟨b, cut, hl.commit h.pointed hen (freshRelocations_of_user hgc) _,
        hseg.commit h.pointed hen hfit hshort _, ?_⟩ }
  have hcur : (s.commit env batch).wal.current = s.wal.current := by
    unfold KVStore.commit putAll writeLogs
    dsimp only
    split_ifs <;> rfl
  exact htop.trans (congrArg cut hcur.symm)

/-- **A step keeps it**, and tears at most the segment it retires. -/
theorem step {a : EngineAction} (ha : ShutdownStep env s a) (hs : s.step env a = some s') :
    Logged env s' (torn ++ s.tornBy a) := by
  obtain ⟨hnogc, hfit⟩ := AsyncClientStep.noGc ha.client
  have htorn : a ≠ .maybeFlush → torn ++ s.tornBy a = torn := by
    intro hne
    rw [tornBy, if_neg (fun hflush => hne hflush.1), List.append_nil]
  rcases hnogc.cases with ⟨batch, rfl, hgc⟩ | ⟨hb, hgc⟩
  · obtain ⟨hen, rfl⟩ := step_commit_cases hs
    rw [htorn (by simp)]
    exact h.commit hgc hen hfit ha.shortKeys
  have hlogs := h.logs.background hb hs
  obtain ⟨b, cut, hl, hseg, htop⟩ := h.layers
  obtain ⟨hp, -, hh⟩ := h.pipeline.background hb hs
  obtain ⟨hv, -, -, -⟩ := background_frame hb hgc hs
  rw [← hv] at hlogs
  have hshallow : s'.lsm.Shallow := by
    refine h.pipeline.shallow_background h.shallow hb ?_ hs
    rintro rfl
    exact ha
  refine ⟨hp, h.pointed.background hb hgc hs, hlogs, hshallow, ?_⟩
  by_cases hflush : a = .maybeFlush
  · subst hflush
    have hpend := pending_maybeFlush h.pipeline hs
    have hcur : s'.wal.current = s.wal.current + 1 := by
      obtain ⟨-, rfl⟩ := maybeFlush_cases hs
      rfl
    refine ⟨b, _, hl.maybeFlush h.pipeline hs, hseg.maybeFlush hs, ?_⟩
    rw [hpend, List.foldl_append, hcur, Function.update_self]
    rfl
  rw [htorn hflush]
  obtain ⟨hact, b', hadv⟩ := h.pipeline.advances_background hb hflush hs b
  -- what is pending ends where it did, whether or not its first has been logged
  have htop' : s'.pending.foldl (fun _ task => task.upTo) b' = cut s.wal.current := by
    rw [← htop]
    rcases hadv with ⟨rfl, hpend, -⟩ | ⟨task, hpend, rfl, -⟩
    · rw [hpend]
    · rw [hpend]
      rfl
  have hl' := hl.advance h.pointed hadv hh hact
  by_cases hremove : ∃ id, a = .walRemove id
  · obtain ⟨id, rfl⟩ := hremove
    have hseg' := hseg.walRemove hs
    obtain ⟨-, rfl⟩ := walRemove_cases hs
    exact ⟨b', cut, hl', hseg', htop'⟩
  · have hwal : s'.wal = s.wal := by
      refine wal_background hb hflush (fun id => ⟨fun heq => hremove ⟨id, heq⟩, ?_⟩) hs
      rintro rfl
      exact ha
    refine ⟨b', cut, hl', hseg.frame hwal hv hh, ?_⟩
    rw [hwal]
    exact htop'

/-- **Every run keeps it**, with the segments the run tears. -/
theorem run {as : List EngineAction} (hok : RunOk (KVStore.step env) (ShutdownStep env) s as)
    (hrun : runSteps (KVStore.step env) s as = some s') :
    Logged env s' (torn ++ tornIn env s as) := by
  induction as generalizing s torn with
  | nil =>
    cases hrun
    rw [tornIn, List.append_nil]
    exact h
  | cons a as ih =>
    obtain ⟨t, ht, hr⟩ := runSteps_cons.mp hrun
    have hrest := ih (h.step hok.1 ht) (hok.2 t ht) hr
    rwa [tornIn, ht, Option.elim_some, ← List.append_assoc]

/-! ## Closing -/

/-- Closing waits for the memtables that are on their way. -/
theorem flushQueue_of_idle (hidle : ∀ i, s.immutables i = none) : s.flushQueue = [] := by
  cases hq : s.flushQueue with
  | nil => rfl
  | cons task rest =>
    -- the ring holds the memtable of every task
    obtain ⟨i, hi⟩ := h.pipeline.ring.exists_slot (a := task.mem) (by rw [hq]; simp)
    rw [hidle i] at hi
    cases hi

theorem cells_leftOnDisk : Cells s.leftOnDisk := by
  obtain ⟨_, cut, -, hseg, -⟩ := h.layers
  obtain ⟨hok, hsynced, hgrows⟩ := h.pointed.vlogs.closed
  have hcell : ∀ k c, CellOk s.history s.vlogs k c →
      CellOk s.leftOnDisk.history s.leftOnDisk.vlogs k c := by
    intro k c hc
    have := hc.grows hgrows []
    rwa [List.append_nil] at this
  have hcells := h.pointed.cells.mono hcell
  refine ⟨⟨hok, ⟨hcells.active, hcells.queue, hcells.lsm⟩, fun job hjob => ?_,
    h.pointed.gcLive⟩, hsynced, fun id rs hrs r hr => hcell _ _ (hseg.onDisk id rs hrs r hr).cell,
    rfl⟩
  obtain ⟨hlt, log, pre, post, hget, hfile, hfit, hoff⟩ := h.pointed.gcTarget job hjob
  refine ⟨hlt, log.sync, pre, post, ?_, ?_, hfit, hoff⟩
  · show (s.vlogs.logs.mapValues VLog.sync).get _ = _
    rw [OrdMap.get_mapValues, hget]
    rfl
  · rw [VLog.file_sync, ← h.pointed.file_eq_content hget hlt, hfile]

/-- What the disk leads to after the store is closed is there. -/
theorem hasLog_onDisk {k : Key} {c : Cell} (hc : s.leftOnDisk.onDisk env k = some c) :
    HasLog s.leftOnDisk.vlogs c.ptr := by
  obtain ⟨_, cut, -, hseg, -⟩ := h.layers
  have hlog : ∀ p, HasLog s.vlogs p → HasLog s.leftOnDisk.vlogs p := by
    intro p hp
    refine hp.mono (fun id log hget => ⟨log.sync, ?_⟩)
    show (s.vlogs.logs.mapValues VLog.sync).get id = _
    rw [OrdMap.get_mapValues, hget]
    rfl
  -- a record of the WAL, or an entry of a table
  rcases Option.or_eq_some_iff.mp hc with hrec | ⟨-, htable⟩
  · obtain ⟨r, hr, rfl⟩ := Option.map_eq_some_iff.mp hrec
    obtain ⟨id, rs, hrs, hr⟩ := mem_records.mp
      (List.mem_reverse.mp (List.mem_of_find?_eq_some hr))
    exact hlog _ (hseg.onDisk id rs hrs r hr).log
  · have htable' : (s.lsm.reopen env).lookup env k = some c := htable
    rw [h.shallow.lookup_reopen h.pipeline.lsm.shape] at htable'
    exact hlog _ (h.logs.lsm.lookup htable')

/-- **What a closed store leaves on disk** is everything, when the WAL had
nothing in its buffer and no torn segment is left. -/
theorem get_reopen (hclose : s.close = some t) (hbuf : s.wal.buffer = [])
    (htorn : ∀ id ∈ s.wal.removals, id ∉ torn) (hids : s.wal.current < 10 ^ 6) (k : Key) :
    (recover env t).get env k = s.history.value k := by
  obtain ⟨hidle, hlast, rfl⟩ := close_cases hclose
  have hcells := h.cells_leftOnDisk
  obtain ⟨b, cut, hl, hseg, htop⟩ := h.layers
  obtain ⟨hwal, hstart⟩ := hseg.walSuffix_leftOnDisk hbuf htorn hlast
  -- nothing waits, so the tables end where the open segment begins
  have hb : b = cut s.wal.current := by
    have hpend : s.pending = [] := by
      have hq := h.flushQueue_of_idle hidle
      unfold pending
      split <;> simp [hq]
    rw [hpend] at htop
    exact htop
  have hids' : ∀ id ∈ s.leftOnDisk.wal.segments.keys, id < 10 ^ 6 := by
    intro id hid
    obtain ⟨rs, hrs⟩ := (OrdMap.mem_keys_iff _).mp hid
    exact lt_of_le_of_lt (hwal.le_current id rs hrs) hids
  have hdur : DurableAt env (recover env s.leftOnDisk) b :=
    .of_recover h.pipeline.lsm h.shallow hcells hwal hids' hl.tables hl.chain.le_length
      (hb ▸ hstart)
  have hview := hdur.layers.view hdur.pipeline hdur.cells.toPointed k
  refine (get_eq_value_iff hdur.cells hdur.pipeline hview).mpr (fun c hc => ?_)
  obtain ⟨hlook, htomb⟩ := live_eq_some.mp hc
  rw [lookup_recover hdur.pipeline hwal hids'] at hlook
  exact (exists_log_recover hcells).mpr (h.hasLog_onDisk hlook htomb)

end

end Logged

/-- **A clean shutdown keeps what was written**, if the WAL has nothing in its
buffer when the store is closed and none of the segments whose removal is
dropped is torn. For any sequence of puts and deletes of one client,
synchronous or not, and hand-offs, flushes, compactions from L0 and removals
at any points, the store opened again reads back what the client did. The
segments' ids have at most six digits. -/
theorem get_reopen_eq_value {as : List EngineAction}
    (hok : RunOk (KVStore.step env) (ShutdownStep env) {} as)
    (hrun : runSteps (KVStore.step env) {} as = some s) (hclose : s.close = some t)
    (hbuf : s.wal.buffer = []) (htorn : ∀ id ∈ s.wal.removals, id ∉ tornIn env {} as)
    (hids : s.wal.current < 10 ^ 6) (k : Key) :
    (recover env t).get env k = (clientOps as).value k := by
  have hlogged := Logged.of_fresh.run hok hrun
  rw [List.nil_append] at hlogged
  obtain ⟨-, hh⟩ := Buffered.of_fresh.run (hok.imp (fun _ _ ha => ShutdownStep.client ha)) hrun
  rw [hlogged.get_reopen hclose hbuf htorn hids k, hh]
  rfl

/-- A put that is not synchronous and a synchronous one are flushed, the
removal of their segment is dropped, and a third is in the WAL. -/
def closedInOrder : List EngineAction :=
  [.commit [{ key := [97], value := [1], sync := false }], .commit [{ key := [98], value := [2] }],
    .maybeFlush, .flushStart, .flushCommit, .flushClear,
    .commit [{ key := [97], value := [3] }]]

theorem get_reopen_eq_value_closedInOrder :
    let s := finalState (KVStore.step .small) {} closedInOrder
    (s.close).isSome = true ∧ s.wal.removals = [1]
      ∧ (recover .small s.leftOnDisk).get .small [97] = (clientOps closedInOrder).value [97]
      ∧ (recover .small s.leftOnDisk).get .small [98] = (clientOps closedInOrder).value [98] :=
  have hok : RunOk (KVStore.step .small) (ShutdownStep .small) {} closedInOrder := by
    decide +kernel
  have hrun : runSteps (KVStore.step .small) {} closedInOrder
      = some (finalState (KVStore.step .small) {} closedInOrder) :=
    runSteps_eq_finalState (by decide +kernel)
  have hclose : (finalState (KVStore.step .small) {} closedInOrder).close
      = some (finalState (KVStore.step .small) {} closedInOrder).leftOnDisk :=
    if_pos (by decide +kernel)
  ⟨by decide +kernel, by decide +kernel,
    get_reopen_eq_value hok hrun hclose (by decide +kernel) (by decide +kernel)
      (by decide +kernel) [97],
    get_reopen_eq_value hok hrun hclose (by decide +kernel) (by decide +kernel)
      (by decide +kernel) [98]⟩

/-- **A clean shutdown loses a write.** A put that is not synchronous is
acknowledged, and the store closed and opened again: its record was in the
WAL's buffer. -/
theorem get_closed_unsynced :
    let puts : List EngineAction := [.commit [{ key := [97], value := [1], sync := false }]]
    let s := finalState (KVStore.step .small) {} puts
    RunOk (KVStore.step .small) (ShutdownStep .small) {} puts ∧ (s.close).isSome = true
      ∧ (clientOps puts).value [97] = some [1]
      ∧ (recover .small s.leftOnDisk).get .small [97] = none := by
  decide +kernel

/-- A key is put twice, not synchronously the second time, and its memtable
flushed. -/
def closedTorn : List EngineAction :=
  [.commit [{ key := [97], value := [1] }], .commit [{ key := [97], value := [2], sync := false }],
    .maybeFlush, .flushStart, .flushCommit, .flushClear]

/-- **A key goes back to an older value.** The table has the second put, but
the segment that is replayed over it stops at the first. -/
theorem get_closed_torn :
    let s := finalState (KVStore.step .small) {} closedTorn
    (s.close).isSome = true ∧ s.wal.buffer = [] ∧ tornIn .small {} closedTorn = [1]
      ∧ (clientOps closedTorn).value [97] = some [2]
      ∧ (recover .small s.leftOnDisk).get .small [97] = some [1] := by
  decide +kernel

end KVStore
