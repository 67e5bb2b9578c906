import ForgeLSM.Batch
import ForgeLSM.Pipeline

/-!
# What the cells of a store mean

Every cell of a store – in a memtable, in a table, in what a compaction has
still to write – stands for an operation of the history: the one with its
stamp. It is on the cell's key; a delete's cell is a tombstone, and a put's
leads to its value in the value log, be that on disk or in the log's buffer
(`CellOk`). `KVStore.Pointed` says so of a whole store, and of the records the
garbage collector has found live.

Every step but a kill keeps this, whatever the sync flags of the requests, as
long as the records fit their encoding: the log the collector reads is no
longer appended to, and such a log is on disk.
-/

/-- **A cell stands for its operation.** -/
def CellOk (h : History) (vl : Vlogs) (k : Key) (c : Cell) : Prop :=
  ∃ op, h.opAt c.stamp = some op ∧ op.key = k ∧ PointsTo vl k op.value c.ptr

variable {c : Cell}

/-- A cell keeps its meaning while the history and the logs grow. -/
theorem CellOk.grows {h : History} {vl vl' : Vlogs} (hg : vl.Grows vl') (t : History) {k : Key}
    (hc : CellOk h vl k c) : CellOk (h ++ t) vl' k c := by
  obtain ⟨op, hop, hk, hp⟩ := hc
  exact ⟨op, by rwa [History.opAt_append_left (History.le_length_of_opAt hop)], hk, hp.grows hg⟩

/-- A cell that is not a tombstone stands for a put, and leads to its
value. -/
theorem CellOk.put {h : History} {vl : Vlogs} {k : Key} (hc : CellOk h vl k c)
    (hlive : c.ptr.isTombstone = false) :
    ∃ v, h.opAt c.stamp = some ⟨k, some v⟩ ∧ PointsTo vl k (some v) c.ptr := by
  obtain ⟨⟨k', v⟩, hop, rfl, hp⟩ := hc
  cases v with
  | none =>
    rw [show c.ptr.isTombstone = true from hp] at hlive
    cases hlive
  | some v => exact ⟨v, hop, hp⟩

theorem live_eq_some {o : Option Cell} :
    live o = some c ↔ o = some c ∧ c.ptr.isTombstone = false := by
  cases o with
  | none => simp
  | some d =>
    unfold live
    dsimp only
    split_ifs with ht
    · have ht' : d.ptr.isTombstone = true := ht
      constructor
      · intro h
        cases h
      · rintro ⟨h, hc⟩
        cases h
        rw [ht'] at hc
        cases hc
    · have ht' : d.ptr.isTombstone = false := Bool.eq_false_iff.mpr ht
      constructor
      · intro h
        cases h
        exact ⟨rfl, ht'⟩
      · exact fun h => h.1

/-- **What a cell of a key's last operation shows**: the put, or nothing. -/
theorem CellOk.live_stamp {h : History} {vl : Vlogs} {k : Key} (hc : CellOk h vl k c)
    (hs : c.stamp = h.lastStamp k) : (live (some c)).map Cell.stamp = h.putStamp k := by
  obtain ⟨op, hop, -, hp⟩ := hc
  have hv : h.value k = op.value := by
    rw [History.value, History.lastOp_eq_opAt, ← hs, hop]
    rfl
  unfold History.putStamp
  rw [hv]
  cases hval : op.value with
  | none =>
    rw [hval] at hp
    have ht : c.ptr.isTombstone = true := hp
    simp [live, Payload.isTombstone, ht]
  | some v =>
    rw [hval] at hp
    have ht : c.ptr.isTombstone = false := hp.1
    simp [live, Payload.isTombstone, ht, hs]

namespace KVStore

variable {env : Env} {s s' : KVStore} {batch : List WriteRequest} {a : EngineAction} {log : VLog}
  {r : WriteRequest}

/-! ## Every cell of a store -/

/-- **Every cell of a store satisfies a predicate**: those of the memtables,
of the tables, and of what a compaction has still to write. -/
structure EveryCell (P : Key → Cell → Prop) (s : KVStore) : Prop where
  active : ∀ k c, s.active.get k = some c → P k c
  queue : ∀ t ∈ s.flushQueue, ∀ k c, t.mem.get k = some c → P k c
  lsm : s.lsm.Entries P

namespace EveryCell

variable {P Q : Key → Cell → Prop}

/-- A store just created. -/
theorem of_fresh : EveryCell P {} where
  active k c hc := by cases hc
  queue t ht := by cases ht
  lsm := Lsm.entries_fresh

theorem mono (h : EveryCell P s) (hpq : ∀ k c, P k c → Q k c) : EveryCell Q s where
  active k c hc := hpq k c (h.active k c hc)
  queue t ht k c hc := hpq k c (h.queue t ht k c hc)
  lsm := h.lsm.mono hpq

/-- **What a read finds satisfies the predicate.** -/
theorem lookup (h : EveryCell P s) (hp : Pipeline env s) {k : Key} (hc : s.lookup env k = some c) :
    P k c := by
  unfold KVStore.lookup at hc
  rcases Option.or_eq_some_iff.mp hc with hm | ⟨-, hl⟩
  · obtain ⟨m, hmem, hget⟩ := List.exists_of_findSome?_eq_some hm
    rcases List.mem_cons.mp hmem with rfl | hmem
    · exact h.active k c hget
    · rw [hp.ringScan_eq, List.mem_reverse, List.mem_map] at hmem
      obtain ⟨t, ht, rfl⟩ := hmem
      exact h.queue t ht k c hget
  · exact h.lsm.lookup hl

/-- A step of the tree, with the memtables of the queue at most. -/
theorem lsmStep (h : EveryCell P s) {a : LsmAction Cell} {lsm : Lsm Cell}
    (hm : ∀ m, a = .flushStart m → ∃ t ∈ s.flushQueue, t.mem = m)
    (hl : s.lsm.step env a = some lsm) : lsm.Entries P := by
  refine h.lsm.step (fun m ha => ?_) hl
  obtain ⟨t, ht, rfl⟩ := hm m ha
  exact h.queue t ht

/-- **Background work makes up no cell.** -/
theorem background (h : EveryCell P s) (ha : a.Background) (hs : s.step env a = some s') :
    EveryCell P s' := by
  have hcompact : ∀ b, Lsm.Compacting b → s.compact env b = some s' → EveryCell P s' := by
    intro b hb hs
    obtain ⟨lsm, hl, rfl⟩ := compact_cases hs
    exact ⟨h.active, h.queue, h.lsmStep (fun m hm => by rw [hm] at hb; exact hb.elim) hl⟩
  have hlogs : a.OnLogs → EveryCell P s' := by
    intro ha
    obtain ⟨wal, vlogs, gc, rfl⟩ := onLogs_cases ha hs
    exact ⟨h.active, h.queue, h.lsm⟩
  cases a with
  | commit batch | crash batch n => exact ha.elim
  | maybeFlush =>
    obtain ⟨-, rfl⟩ := maybeFlush_cases hs
    refine ⟨fun k c hc => ?_, fun t ht => ?_, h.lsm⟩
    · cases hc
    · rcases List.mem_append.mp ht with ht | ht
      · exact h.queue t ht
      · obtain rfl := List.mem_singleton.mp ht
        exact h.active
  | flushStart =>
    obtain ⟨t, rest, lsm, hq, -, hl, rfl⟩ := flushStart_cases hs
    have hl' : s.lsm.step env (.flushStart t.mem) = some lsm := hl
    refine ⟨h.active, h.queue, h.lsmStep (fun m hm => ⟨t, ?_, ?_⟩) hl'⟩
    · rw [hq]
      exact List.mem_cons_self
    · cases hm
      rfl
  | flushCommit =>
    obtain ⟨lsm, -, hl, rfl⟩ := flushCommit_cases hs
    have hl' : s.lsm.step env .flushCommit = some lsm := hl
    exact ⟨h.active, h.queue, h.lsmStep (fun m hm => by cases hm) hl'⟩
  | flushClear =>
    obtain ⟨t, rest, hq, -, rfl⟩ := flushClear_cases hs
    refine ⟨h.active, fun t' ht' => h.queue t' ?_, h.lsm⟩
    rw [hq]
    exact List.mem_cons_of_mem t ht'
  | compactStart => exact hcompact .compactStart trivial hs
  | compactOutput => exact hcompact .compactOutput trivial hs
  | compactCommit => exact hcompact .compactCommit trivial hs
  | purgeObsoleteFiles => exact hcompact .purgeObsoleteFiles trivial hs
  | _ => exact hlogs trivial

/-- **A commit adds the entries of its batch.** -/
theorem commit (h : EveryCell P s) (hold : ∀ k c, P k c → Q k c)
    (hnew : ∀ e ∈ (s.plan env batch).2, Q e.req.key ⟨e.ptr, e.stamp⟩) (gc : Option GcJob) :
    EveryCell Q { s.commit env batch with gc := gc } := by
  refine ⟨fun k c hc => ?_, (h.mono hold).queue, h.lsm.mono hold⟩
  have hc' : ((s.plan env batch).2.foldl Entry.put s.active).get k = some c := hc
  rcases Vlogs.get_foldl_put (s.plan env batch).2 s.active k with ⟨e, he, rfl, hget⟩ | ⟨-, hget⟩
  · rw [hget] at hc'
    cases hc'
    exact hnew e he
  · rw [hget] at hc'
    exact hold k c (h.active k c hc')

end EveryCell

/-! ## The logs in a commit -/

theorem plan_spec (env : Env) (hv : s.vlogs.Ok) (hfit : Vlogs.PutsFit batch) :
    (s.plan env batch).1.Ok ∧ s.vlogs.Appends (s.plan env batch).1
      ∧ ∀ e ∈ (s.plan env batch).2, s.vlogs.Placed (s.plan env batch).1 e.ptr
        ∧ PointsTo (s.plan env batch).1 e.req.key e.req.op.value e.ptr := by
  obtain ⟨hok, happ, -⟩ := hv.startBatch env
  obtain ⟨hok', happ', hptr⟩ := hok.placeAll env s.active s.wal.current s.history.length hfit
  exact ⟨hok', happ.trans happ', fun e he => ⟨(hptr e he).1.of_appends happ, (hptr e he).2⟩⟩

/-- **The logs after the commit of a batch**, whatever its sync flags. -/
theorem commit_vlogs_appends (env : Env) (hv : s.vlogs.Ok) (hfit : Vlogs.PutsFit batch) :
    (s.commit env batch).vlogs.Ok ∧ (s.plan env batch).1.Appends (s.commit env batch).vlogs
      ∧ s.vlogs.Appends (s.commit env batch).vlogs := by
  obtain ⟨hok, happ, -⟩ := plan_spec env hv hfit
  unfold commit putAll writeLogs
  dsimp only
  split_ifs
  · exact ⟨hok.sync, hok.appends_sync, happ.trans hok.appends_sync⟩
  · exact ⟨hok, Vlogs.Appends.refl _, happ⟩

/-- A batch with a synchronous request leaves nothing in the logs' buffers. -/
theorem synced_commit (env : Env) (hv : s.vlogs.Ok) (hfit : Vlogs.PutsFit batch)
    (hany : batch.any WriteRequest.sync = true) : (s.commit env batch).vlogs.Synced := by
  unfold commit putAll writeLogs
  dsimp only
  rw [if_pos hany]
  exact (plan_spec env hv hfit).1.synced_sync

/-- What a batch puts in the WAL and the memtable stands for its
operations. -/
theorem cellOk_of_mem_plan (hv : s.vlogs.Ok) (hfit : Vlogs.PutsFit batch)
    (hgc : ∀ r ∈ batch, r.isGc = true → r.Relocates s.history) {e : Entry}
    (he : e ∈ (s.plan env batch).2) :
    CellOk (s.history ++ userOps batch) (s.plan env batch).1 e.req.key ⟨e.ptr, e.stamp⟩ :=
  ⟨e.req.op, Vlogs.opAt_of_mem_placeAll hgc he, rfl, ((plan_spec env hv hfit).2.2 e he).2⟩

/-! ## The collector's requests -/

/-- A relocation in a batch is the one the collector has in the queue. -/
theorem gcPending_of_mem (hen : s.gcEnabled batch = true) (hr : r ∈ batch) (hg : r.isGc = true) :
    s.gcPending = some r := by
  have hmem : r ∈ batch.filter WriteRequest.isGc := List.mem_filter.mpr ⟨hr, hg⟩
  unfold gcEnabled at hen
  split at hen
  · rename_i hnil
    rw [hnil] at hmem
    cases hmem
  · rename_i q hq
    rw [hq] at hmem
    obtain rfl := List.mem_singleton.mp hmem
    exact of_decide_eq_true hen
  · cases hen

/-- What is in the queue is the first of the live records. -/
theorem gcPending_cases (h : s.gcPending = some r) :
    ∃ job rec rest, s.gc = some job ∧ job.scanning = false ∧ job.live = rec :: rest
      ∧ r = gcRequest job rec := by
  unfold gcPending at h
  split at h
  · cases h
  · rename_i job hjob
    split_ifs at h with hscan
    obtain ⟨rec, hrec, rfl⟩ := Option.map_eq_some_iff.mp h
    obtain ⟨rest, hrest⟩ := List.head?_eq_some_iff.mp hrec
    exact ⟨job, rec, rest, hjob, by simpa using hscan, hrest, rfl⟩

/-! ## The invariant -/

/-- **Every cell of a store stands for its operation**, and so do the records
the collector found live. -/
structure Pointed (s : KVStore) : Prop where
  vlogs : s.vlogs.Ok
  cells : EveryCell (CellOk s.history s.vlogs) s
  /-- The collector is at the start of a record of a log no longer appended
  to. -/
  gcTarget : ∀ job ∈ s.gc, job.target < s.vlogs.current
    ∧ ∃ (log : VLog) (pre post : List VRecord), s.vlogs.logs.get job.target = some log
      ∧ log.file = (pre ++ post).flatMap VLog.encodeRecord
      ∧ (∀ q ∈ pre ++ post, VLog.FitsRecord q)
      ∧ job.offset = (pre.flatMap VLog.encodeRecord).length
  /-- The records it found live are puts. -/
  gcLive : ∀ job ∈ s.gc, ∀ r ∈ job.live, VLog.FitsRecord (r.key, r.value)
    ∧ s.history.opAt r.stamp = some ⟨r.key, some r.value⟩

/-- The puts of the clients fit the encoding of a record. -/
def RecordsFit (batch : List WriteRequest) : Prop :=
  ∀ r ∈ batch, r.isGc = false → r.isDelete = false → VLog.FitsRecord (r.key, r.value)

instance (batch : List WriteRequest) : Decidable (RecordsFit batch) :=
  inferInstanceAs (Decidable (∀ r ∈ batch, _))

/-- A store just created has one log and one segment, both empty. -/
theorem get_vlogs_fresh {id : ℕ} (h : ({} : KVStore).vlogs.logs.get id = some log) :
    id = 1 ∧ log = {} := by
  rcases OrdMap.get_insert_cases h with heq | ⟨-, h⟩
  · exact heq
  · cases h

theorem get_segments_fresh {id : ℕ} {rs : List WalRecord}
    (h : ({} : KVStore).wal.segments.get id = some rs) : id = 1 ∧ rs = [] := by
  rcases OrdMap.get_insert_cases h with heq | ⟨-, h⟩
  · exact heq
  · cases h

namespace Pointed

theorem of_fresh : Pointed {} where
  vlogs :=
    { pos := Nat.one_pos
      current_mem := ⟨{}, OrdMap.get_insert_self _ _ _⟩
      le_current := fun id log hlog => by
        rcases get_vlogs_fresh hlog with ⟨rfl, -⟩
        exact le_refl _
      consistent := fun id log hlog => by
        rcases get_vlogs_fresh hlog with ⟨-, rfl⟩
        rfl
      whole := fun id log hlog => by
        rcases get_vlogs_fresh hlog with ⟨-, rfl⟩
        exact ⟨[], rfl, by simp⟩
      buffer_lt := fun id log hlog => by
        rcases get_vlogs_fresh hlog with ⟨-, rfl⟩
        exact Nat.zero_lt_of_lt (show 0 < VLog.bufferLimit by decide)
      old := fun id log hlog _ => by
        rcases get_vlogs_fresh hlog with ⟨-, rfl⟩
        rfl }
  cells := .of_fresh
  gcTarget job hjob := by cases hjob
  gcLive job hjob := by cases hjob

section

variable (h : Pointed s)
include h

/-- A relocation in a batch relocates an operation of the history. -/
theorem relocates (hen : s.gcEnabled batch = true) (hr : r ∈ batch) (hg : r.isGc = true) :
    r.Relocates s.history ∧ r.sync = true ∧ VLog.FitsRecord (r.key, r.value) := by
  obtain ⟨job, rec, rest, hjob, -, hlive, rfl⟩ := gcPending_cases (gcPending_of_mem hen hr hg)
  obtain ⟨hfit, hop⟩ := h.gcLive job hjob rec (by rw [hlive]; exact List.mem_cons_self)
  exact ⟨⟨rfl, hop⟩, rfl, hfit⟩

/-- All puts of a batch fit. -/
theorem fits (hen : s.gcEnabled batch = true) (hfit : RecordsFit batch) :
    Vlogs.PutsFit batch := by
  intro r hr hd
  cases hg : r.isGc with
  | false => exact hfit r hr hg hd
  | true => exact (h.relocates hen hr hg).2.2

/-! ## The collector -/

/-- A log no longer appended to is on disk. -/
theorem file_eq_content {id : ℕ} (hlog : s.vlogs.logs.get id = some log)
    (hlt : id < s.vlogs.current) : log.file = log.content := by
  rw [VLog.content, h.vlogs.old id log hlog hlt, List.append_nil]

theorem gcStart (hs : s.gcStart = some s') : Pointed s' := by
  obtain ⟨-, rfl⟩ := gcStart_cases hs
  refine
    { vlogs := h.vlogs
      cells := ⟨h.cells.active, h.cells.queue, h.cells.lsm⟩
      gcTarget := fun job hjob => ?_
      gcLive := fun job hjob => ?_ }
  · obtain ⟨id, hid, rfl⟩ := Option.map_eq_some_iff.mp hjob
    unfold KVStore.gcTarget at hid
    split_ifs at hid
    have hlt : id < s.vlogs.current := by simpa using List.find?_some hid
    obtain ⟨log, hlog⟩ := (OrdMap.mem_keys_iff _).mp (List.mem_of_find?_eq_some hid)
    obtain ⟨rs, hrs, hfit⟩ := h.vlogs.whole id log hlog
    exact ⟨hlt, log, [], rs, hlog, (h.file_eq_content hlog hlt).trans hrs, hfit, rfl⟩
  · obtain ⟨id, hid, rfl⟩ := Option.map_eq_some_iff.mp hjob
    exact fun r hr => by cases hr

/-- A pointer that a read finds in a log no longer appended to leads to a
record of the file. -/
theorem recordAt (hp : Pipeline env s) {k : Key} (hc : live (s.lookup env k) = some c)
    (hlt : c.ptr.fileId < s.vlogs.current) (hlog : s.vlogs.logs.get c.ptr.fileId = some log) :
    ∃ v, s.history.opAt c.stamp = some ⟨k, some v⟩ ∧ RecordAt log.file c.ptr (k, v) := by
  obtain ⟨hlook, htomb⟩ := live_eq_some.mp hc
  obtain ⟨v, hop, -, -, hrec⟩ := (h.cells.lookup hp hlook).put htomb
  exact ⟨v, hop, h.file_eq_content hlog hlt ▸ hrec log hlog⟩

/-- The record a pointer leads to is the one the collector reads there. -/
theorem record_eq (hp : Pipeline env s) {job : GcJob} (hjob : s.gc = some job)
    (hlog : s.vlogs.logs.get job.target = some log) {r : VRecord} {next : ℕ}
    (hread : log.readNext job.offset = some (r, next)) (hc : s.liveAt env job r = some c) :
    VLog.FitsRecord r ∧ s.history.opAt c.stamp = some ⟨r.1, some r.2⟩ := by
  obtain ⟨hlive, hat⟩ := Option.filter_eq_some_iff.mp hc
  obtain ⟨hid, hoff⟩ := of_decide_eq_true hat
  have hlt := (h.gcTarget job hjob).1
  rw [← hid] at hlog hlt
  obtain ⟨v, hop, pre, post, hfile, hfit, hptr, -⟩ := h.recordAt hp hlive hlt hlog
  have hr := hfit (r.1, v) (by simp)
  have hread' := VLog.readNext_records _ _ hfile hr
  rw [show (pre.flatMap VLog.encodeRecord).length = job.offset by
    rw [hoff] at hptr
    dsimp only at hptr
    omega, hread] at hread'
  have heq : r = (r.1, v) := congrArg Prod.fst (Option.some.inj hread')
  have hv : r.2 = v := congrArg Prod.snd heq
  rw [hv]
  exact ⟨heq ▸ hr, hop⟩

theorem gcScan (hp : Pipeline env s) (hs : s.gcScan env = some s') : Pointed s' := by
  have hcells : EveryCell _ s' := h.cells.background (a := .gcScan) trivial hs
  obtain ⟨job, hjob, -, hcase⟩ := gcScan_cases hs
  obtain ⟨hlt, log, pre, post, hlog, hfile, hfit, hoff⟩ := h.gcTarget job hjob
  rcases hcase with ⟨log', r, next, hlog', hread, hcase⟩ | rfl | ⟨-, rfl⟩
  · rw [hlog] at hlog'
    cases hlog'
    -- the record read is the next of those not read yet
    obtain ⟨q, post, rfl⟩ : ∃ q post', post = q :: post' := by
      cases post with
      | cons q post' => exact ⟨q, post', rfl⟩
      | nil =>
        rw [hoff, ← List.append_nil pre, ← hfile, VLog.readNext_end] at hread
        cases hread
    have hnext : next = ((pre ++ [q]).flatMap VLog.encodeRecord).length := by
      have hread' := VLog.readNext_records _ _ hfile (hfit q (by simp))
      rw [← hoff, hread] at hread'
      exact congrArg Prod.snd (Option.some.inj hread')
    have htarget : ∃ (log : VLog) (pre post : List VRecord),
        s.vlogs.logs.get job.target = some log
          ∧ log.file = (pre ++ post).flatMap VLog.encodeRecord
          ∧ (∀ q ∈ pre ++ post, VLog.FitsRecord q)
          ∧ next = (pre.flatMap VLog.encodeRecord).length :=
      ⟨log, pre ++ [q], post, hlog, by simpa using hfile, by simpa using hfit, hnext⟩
    rcases hcase with ⟨c, hc, rfl⟩ | ⟨-, rfl⟩
    · refine ⟨h.vlogs, hcells, fun job' hjob' => ?_, fun job' hjob' => ?_⟩
      all_goals cases hjob'
      · exact ⟨hlt, htarget⟩
      · intro rec hrec
        rcases List.mem_append.mp hrec with hrec | hrec
        · exact h.gcLive job hjob rec hrec
        · obtain rfl := List.mem_singleton.mp hrec
          exact h.record_eq hp hjob hlog hread hc
    · refine ⟨h.vlogs, hcells, fun job' hjob' => ?_, fun job' hjob' => ?_⟩
      all_goals cases hjob'
      · exact ⟨hlt, htarget⟩
      · exact h.gcLive job hjob
  · refine ⟨h.vlogs, hcells, fun job' hjob' => ?_, fun job' hjob' => ?_⟩
    all_goals cases hjob'
  · refine ⟨h.vlogs, hcells, fun job' hjob' => ?_, fun job' hjob' => ?_⟩
    all_goals cases hjob'
    · exact h.gcTarget job hjob
    · exact h.gcLive job hjob

theorem gcFinish (hs : s.gcFinish = some s') : Pointed s' := by
  obtain ⟨job, hjob, -, -, rfl⟩ := gcFinish_cases hs
  have hcell : ∀ k c, CellOk s.history s.vlogs k c →
      CellOk s.history { s.vlogs with logs := s.vlogs.logs.erase job.target } k c := by
    intro k c hc
    have := hc.grows (s.vlogs.grows_erase job.target) []
    rwa [List.append_nil] at this
  have hcells := h.cells.mono hcell
  exact
    { vlogs := h.vlogs.erase (h.gcTarget job hjob).1
      cells := ⟨hcells.active, hcells.queue, hcells.lsm⟩
      gcTarget := fun job' hjob' => by cases hjob'
      gcLive := fun job' hjob' => by cases hjob' }

/-! ## Commits -/

/-- The target of the collector is not touched by appends. -/
theorem gcTarget_appends {vl : Vlogs} (ha : s.vlogs.Appends vl) {job : GcJob}
    (hjob : s.gc = some job) : job.target < vl.current
      ∧ ∃ (log : VLog) (pre post : List VRecord), vl.logs.get job.target = some log
        ∧ log.file = (pre ++ post).flatMap VLog.encodeRecord
        ∧ (∀ q ∈ pre ++ post, VLog.FitsRecord q)
        ∧ job.offset = (pre.flatMap VLog.encodeRecord).length := by
  obtain ⟨hlt, hlog⟩ := h.gcTarget job hjob
  rw [ha.older job.target hlt]
  exact ⟨lt_of_lt_of_le hlt ha.current_le, hlog⟩

/-- The entries of a batch stand for their operations once it is committed. -/
theorem cellOk_commit (hen : s.gcEnabled batch = true) (hfit : RecordsFit batch) {e : Entry}
    (he : e ∈ (s.plan env batch).2) :
    CellOk (s.history ++ userOps batch) (s.commit env batch).vlogs e.req.key
      ⟨e.ptr, e.stamp⟩ := by
  have hall := h.fits hen hfit
  obtain ⟨-, hplan, -⟩ := commit_vlogs_appends env h.vlogs hall
  have hcell := (cellOk_of_mem_plan h.vlogs hall
    (fun r hr hg => (h.relocates hen hr hg).1) he).grows hplan.toGrows []
  rwa [List.append_nil] at hcell

theorem commit (hen : s.gcEnabled batch = true) (hfit : RecordsFit batch) :
    Pointed { s.commit env batch with gc := s.gcAfter batch } := by
  obtain ⟨hok, -, happ⟩ := commit_vlogs_appends env h.vlogs (h.fits hen hfit)
  -- the collector after the batch is where it was, with fewer records to relocate
  have hafter : ∀ job, s.gcAfter batch = some job → ∃ job₀, s.gc = some job₀
      ∧ job.target = job₀.target ∧ job.offset = job₀.offset ∧ ∀ r ∈ job.live, r ∈ job₀.live := by
    intro job hjob
    unfold gcAfter at hjob
    split_ifs at hjob
    · obtain ⟨job₀, hjob₀, rfl⟩ := Option.map_eq_some_iff.mp hjob
      exact ⟨job₀, hjob₀, rfl, rfl, fun r hr => List.mem_of_mem_tail hr⟩
    · exact ⟨job, hjob, rfl, rfl, fun r hr => hr⟩
  refine
    { vlogs := hok
      cells := h.cells.commit (fun k c hc => hc.grows happ.toGrows _)
        (fun e he => h.cellOk_commit hen hfit he) _
      gcTarget := fun job hjob => ?_
      gcLive := fun job hjob r hr => ?_ }
  · obtain ⟨job₀, hjob₀, htarget, hoffset, -⟩ := hafter job hjob
    rw [htarget, hoffset]
    exact h.gcTarget_appends happ hjob₀
  · obtain ⟨job₀, hjob₀, -, -, hlive⟩ := hafter job hjob
    obtain ⟨hf, hop⟩ := h.gcLive job₀ hjob₀ r (hlive r hr)
    refine ⟨hf, ?_⟩
    show (s.history ++ userOps batch).opAt r.stamp = _
    rwa [History.opAt_append_left (History.le_length_of_opAt hop)]

/-! ## Steps -/

/-- Background work that is not the collector's. -/
theorem background (ha : a.Background) (hgc : ¬ a.Collecting) (hs : s.step env a = some s') :
    Pointed s' := by
  have hcells := h.cells.background ha hs
  obtain ⟨hv, hg, hh, -⟩ := background_frame ha hgc hs
  refine ⟨hv ▸ h.vlogs, ?_, ?_, ?_⟩
  · rw [hv, hh]
    exact hcells
  · rw [hv, hg]
    exact h.gcTarget
  · rw [hg, hh]
    exact h.gcLive

end

end Pointed

/-- A step without kills, whose records fit. -/
def FitsStep (_ : KVStore) : EngineAction → Prop
  | .commit batch => RecordsFit batch
  | .crash _ _ => False
  | _ => True

instance (s : KVStore) (a : EngineAction) : Decidable (FitsStep s a) := by
  apply EngineAction.casesOn (motive := fun a => Decidable (FitsStep s a)) a <;> intros <;>
    unfold FitsStep <;> infer_instance

theorem FitsStep.ne_crash (h : FitsStep s a) : ∀ b n, a ≠ .crash b n := by
  rintro b n rfl
  exact h

/-- **Every step but a kill keeps the meaning of the cells.** The scan of the
collector relies on its lookups. -/
theorem Pointed.step (h : Pointed s) (hp : a = .gcScan → Pipeline env s) (ha : FitsStep s a)
    (hs : s.step env a = some s') : Pointed s' := by
  have hback : a.Background → ¬ a.Collecting → Pointed s' := fun hb hc => h.background hb hc hs
  cases a with
  | commit batch =>
    obtain ⟨hen, rfl⟩ := step_commit_cases hs
    exact h.commit hen ha
  | crash batch n => exact ha.elim
  | gcStart => exact h.gcStart hs
  | gcScan => exact h.gcScan (hp rfl) hs
  | gcFinish => exact h.gcFinish hs
  | _ => exact hback trivial id

/-- **A store that has not been killed**, whatever else was done to it. -/
structure Reached (env : Env) (s : KVStore) : Prop where
  pipeline : Pipeline env s
  pointed : Pointed s

namespace Reached

theorem of_fresh : Reached env {} where
  pipeline := Pipeline.of_empty Lsm.inv_fresh rfl rfl rfl rfl
  pointed := .of_fresh

theorem step (h : Reached env s) (ha : FitsStep s a) (hs : s.step env a = some s') :
    Reached env s' :=
  ⟨h.pipeline.step ha.ne_crash hs, h.pointed.step (fun _ => h.pipeline) ha hs⟩

end Reached

end KVStore
