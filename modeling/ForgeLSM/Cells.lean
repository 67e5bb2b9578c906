import ForgeLSM.Pointed

/-!
# A store whose records are on disk

With synchronous requests nothing stays in a buffer: the value logs are on
disk, the WAL's buffer is empty, and a WAL record, as recovery will replay it,
stands for its operation like every other cell (`KVStore.Cells`).

Every step keeps this, kills included, as long as the clients' requests are
synchronous and fit the encoding of a record. A kill may leave only the first
records of the batch being committed: they stand for the first operations of the
batch, and the history after the kill has these and no others. What recovery puts
in the memtable comes from records on disk (`Cells.mem_replayed`), so it stands for
operations too, and the store it opens is again one whose records are on disk.
-/

namespace KVStore

variable {env : Env} {s s' : KVStore} {batch : List WriteRequest} {r : WalRecord}

/-- **Every cell of a store stands for its operation**, and nothing waits in a
buffer. -/
structure Cells (s : KVStore) : Prop extends Pointed s where
  synced : s.vlogs.Synced
  /-- A record of the WAL stands for its operation once it is replayed. -/
  wal : ∀ id rs, s.wal.segments.get id = some rs →
    ∀ r ∈ rs, CellOk s.history s.vlogs r.key (replayCell r)
  walBuffer : s.wal.buffer = []

/-- The requests of the clients are synchronous and fit the encoding of a
record. -/
def FittingBatch (batch : List WriteRequest) : Prop :=
  ∀ r ∈ batch, r.isGc = false → r.sync = true ∧ VLog.FitsRecord (r.key, r.value)

instance (batch : List WriteRequest) : Decidable (FittingBatch batch) :=
  inferInstanceAs (Decidable (∀ r ∈ batch, _))

theorem FittingBatch.recordsFit (h : FittingBatch batch) :
    RecordsFit batch := fun r hr hg _ => (h r hr hg).2

/-! ## A commit -/

/-- The logs after the commit of a batch. -/
theorem commit_vlogs (env : Env) (hv : s.vlogs.Ok) (hsync : s.vlogs.Synced)
    (hfit : ∀ r ∈ batch, r.sync = true ∧ VLog.FitsRecord (r.key, r.value)) :
    (s.commit env batch).vlogs.Ok ∧ (s.commit env batch).vlogs.Synced
      ∧ (s.plan env batch).1.Appends (s.commit env batch).vlogs
      ∧ s.vlogs.Appends (s.commit env batch).vlogs := by
  have hall : Vlogs.PutsFit batch := fun r hr _ => (hfit r hr).2
  obtain ⟨hok, hplan, happ⟩ := commit_vlogs_appends env hv hall
  refine ⟨hok, ?_, hplan, happ⟩
  cases batch with
  | nil => exact (hv.startBatch env).2.2 hsync
  | cons r rs =>
    exact synced_commit env hv hall
      (List.any_eq_true.mpr ⟨r, List.mem_cons_self, (hfit r List.mem_cons_self).1⟩)

/-- The WAL after the commit of a batch of synchronous requests. -/
theorem commit_wal (hb : s.wal.buffer = []) (hsync : ∀ r ∈ batch, r.sync = true) :
    (s.commit env batch).wal = if batch = [] then s.wal else
      { s.wal with
        segments := s.wal.segments.insert s.wal.current
          (s.wal.open_ ++ (s.plan env batch).2.filterMap Entry.walRecord) } := by
  unfold commit putAll writeLogs
  dsimp only
  cases batch with
  | nil =>
    show Wal.append s.wal [] = s.wal
    unfold Wal.append
    rw [List.append_nil]
  | cons r rs =>
    have hany : (r :: rs).any WriteRequest.sync = true :=
      List.any_eq_true.mpr ⟨r, List.mem_cons_self, hsync r List.mem_cons_self⟩
    rw [if_pos hany, if_neg (by simp)]
    simp only [Wal.append, Wal.sync, Wal.open_, hb, List.nil_append]

/-- The cell recovery makes of a WAL record stands for the same
operation. -/
theorem cellOk_replayCell {h : History} {vl : Vlogs} {e : Entry}
    (hc : CellOk h vl e.req.key ⟨e.ptr, e.stamp⟩) (hop : h.opAt e.stamp = some e.req.op)
    (hr : e.walRecord = some r) : CellOk h vl r.key (replayCell r) := by
  unfold Entry.walRecord at hr
  split_ifs at hr with hg hd
  all_goals cases hr
  · refine ⟨e.req.op, hop, rfl, ?_⟩
    rw [show e.req.op.value = none by simp [WriteRequest.op, hd]]
    exact VLogPointer.isTombstone_tombstone 1
  · exact hc

/-! ## The segments of the WAL -/

/-- A record of a segment that was opened, and perhaps appended to. -/
theorem mem_insert_getD {segments : OrdMap ℕ (List WalRecord)} {i id : ℕ} {recs rs : List WalRecord}
    (h : (segments.insert i ((segments.get i).getD [] ++ recs)).get id = some rs) (hr : r ∈ rs) :
    (∃ id' rs', segments.get id' = some rs' ∧ r ∈ rs') ∨ r ∈ recs := by
  rcases OrdMap.get_insert_cases h with ⟨hid, rfl⟩ | ⟨-, h⟩
  · rcases List.mem_append.mp hr with hr | hr
    · cases hold : segments.get i with
      | none =>
        rw [hold] at hr
        cases hr
      | some old =>
        rw [hold] at hr
        exact Or.inl ⟨_, old, hold, hr⟩
    · exact Or.inr hr
  · exact Or.inl ⟨id, rs, h, hr⟩

theorem mem_openSegment {segments : OrdMap ℕ (List WalRecord)} {i id : ℕ} {rs : List WalRecord}
    (h : (Wal.openSegment segments i).get id = some rs) (hr : r ∈ rs) :
    ∃ id' rs', segments.get id' = some rs' ∧ r ∈ rs' := by
  rw [Wal.openSegment, ← List.append_nil ((segments.get i).getD [])] at h
  exact (mem_insert_getD h hr).resolve_right List.not_mem_nil

namespace Cells

/-- All requests of a batch are synchronous and fit. -/
theorem fits (h : Cells s) (hen : s.gcEnabled batch = true) (hfit : FittingBatch batch) :
    ∀ r ∈ batch, r.sync = true ∧ VLog.FitsRecord (r.key, r.value) := by
  intro r hr
  cases hg : r.isGc with
  | false => exact hfit r hr hg
  | true => exact (h.relocates hen hr hg).2

/-- **What a read finds stands for its operation.** -/
theorem lookup (h : Cells s) (hp : Pipeline env s) {k : Key} {c : Cell}
    (hc : s.lookup env k = some c) : CellOk s.history s.vlogs k c :=
  h.cells.lookup hp hc

theorem commit (h : Cells s) (hen : s.gcEnabled batch = true) (hfit : FittingBatch batch) :
    Cells { s.commit env batch with gc := s.gcAfter batch } := by
  have hall := h.fits hen hfit
  obtain ⟨-, hsync, -, happ⟩ := commit_vlogs env h.vlogs h.synced hall
  have hwal : (s.commit env batch).wal = _ := commit_wal h.walBuffer (fun r hr => (hall r hr).1)
  have hold : ∀ k c, CellOk s.history s.vlogs k c →
      CellOk (s.history ++ userOps batch) (s.commit env batch).vlogs k c :=
    fun k c hc => hc.grows happ.toGrows _
  refine ⟨h.toPointed.commit hen hfit.recordsFit, hsync, fun id rs hrs r hr => ?_, ?_⟩
  · have hrs' : (s.commit env batch).wal.segments.get id = some rs := hrs
    rw [hwal] at hrs'
    split_ifs at hrs'
    · exact hold _ _ (h.wal id rs hrs' r hr)
    · rcases mem_insert_getD hrs' hr with ⟨id', rs', hrs', hr⟩ | hr
      · exact hold _ _ (h.wal id' rs' hrs' r hr)
      · obtain ⟨e, he, her⟩ := List.mem_filterMap.mp hr
        exact cellOk_replayCell (h.cellOk_commit hen hfit.recordsFit he)
          (Vlogs.opAt_of_mem_placeAll (fun r hr hg => (h.relocates hen hr hg).1) he) her
  · show (s.commit env batch).wal.buffer = []
    rw [hwal]
    split_ifs <;> exact h.walBuffer

/-! ## Kills -/

/-- The records of a batch that reach the WAL are of the operations that are
counted as committed. -/
theorem stamp_le_of_mem_take {n : ℕ}
    (hr : r ∈ ((s.plan env batch).2.filterMap Entry.walRecord).take n) :
    r.stamp ≤ s.history.length + n := by
  have hst : r.stamp ∈ (List.range' (s.history.length + 1) (userOps batch).length).take n := by
    unfold plan at hr
    rw [← Vlogs.stamps_walRecords, ← List.map_take]
    exact List.mem_map_of_mem hr
  obtain ⟨i, hi, hget⟩ := List.mem_take_iff_getElem.mp hst
  rw [List.getElem_range'] at hget
  omega

theorem kill (h : Cells s) (hen : s.gcEnabled batch = true) (hfit : FittingBatch batch) (n : ℕ) :
    Cells (s.kill env batch n) := by
  have hall := h.fits hen hfit
  have hgc : ∀ r ∈ batch, r.isGc = true → r.Relocates s.history := fun r hr hg =>
    (h.relocates hen hr hg).1
  obtain ⟨hok, happ, -⟩ := plan_spec env h.vlogs (fun r hr _ => (hall r hr).2)
  have happ' := happ.trans hok.appends_sync
  have hlen : n - s.wal.buffer.length = n := by
    rw [h.walBuffer]
    rfl
  have hold : ∀ k c, CellOk s.history s.vlogs k c →
      CellOk (s.history ++ (userOps batch).take (n - s.wal.buffer.length))
        (s.plan env batch).1.sync k c :=
    fun k c hc => hc.grows happ'.toGrows _
  refine
    { vlogs := hok.sync
      cells := ⟨fun k c hc => hold k c (h.cells.active k c hc),
        fun t ht k c hc => hold k c (h.cells.queue t ht k c hc), h.cells.lsm.mono hold⟩
      gcTarget := fun job hjob => h.gcTarget_appends happ' hjob
      gcLive := fun job hjob rec hrec => ?_
      synced := hok.synced_sync
      wal := fun id rs hrs r hr => ?_
      walBuffer := h.walBuffer }
  · obtain ⟨hf, hop⟩ := h.gcLive job hjob rec hrec
    refine ⟨hf, ?_⟩
    show (s.history ++ _).opAt _ = _
    rwa [History.opAt_append_left (History.le_length_of_opAt hop)]
  · rcases mem_insert_getD hrs hr with ⟨id', rs', hrs', hr⟩ | hr
    · exact hold _ _ (h.wal id' rs' hrs' r hr)
    · rw [h.walBuffer, List.nil_append] at hr
      obtain ⟨e, he, her⟩ := List.mem_filterMap.mp (List.mem_of_mem_take hr)
      have hop := Vlogs.opAt_of_mem_placeAll hgc he
      obtain ⟨op, hop', hk, hp⟩ := cellOk_replayCell
        ((cellOk_of_mem_plan h.vlogs (fun r hr _ => (hall r hr).2) hgc he).grows
          hok.appends_sync.toGrows []) (by rwa [List.append_nil]) her
      refine ⟨op, ?_, hk, hp⟩
      have hst : (replayCell r).stamp ≤ s.history.length + n := stamp_le_of_mem_take hr
      show (s.history ++ (userOps batch).take (n - s.wal.buffer.length)).opAt _ = _
      rw [hlen, ← hop', List.append_nil, ← History.opAt_take (h := s.history ++ userOps batch) hst,
        List.take_length_add_append]

/-- The logs recovery opens are the logs on disk. -/
theorem recover_vlogs (h : Cells s) : (KVStore.recover env s).vlogs =
    { logs := s.vlogs.logs.mapValues (fun l => VLog.openFile l.file)
      current := s.vlogs.current } := by
  have hmax : s.vlogs.logs.maxKey = s.vlogs.current :=
    OrdMap.maxKey_eq h.vlogs.log_eq h.vlogs.le_current
  unfold KVStore.recover
  dsimp only
  rw [hmax, if_neg (Nat.ne_of_gt h.vlogs.pos)]

/-- A log opened again has what was on disk. -/
theorem get_recover_vlogs (h : Cells s) {id : ℕ} {log : VLog}
    (hlog : (KVStore.recover env s).vlogs.logs.get id = some log) :
    ∃ old, s.vlogs.logs.get id = some old ∧ log = VLog.openFile old.file
      ∧ log.content = old.content := by
  rw [h.recover_vlogs, OrdMap.get_mapValues] at hlog
  obtain ⟨old, hold, rfl⟩ := Option.map_eq_some_iff.mp hlog
  refine ⟨old, hold, rfl, ?_⟩
  unfold VLog.content VLog.openFile
  rw [h.synced id old hold]

theorem vlogs_recover (h : Cells s) : (KVStore.recover env s).vlogs.Ok where
  pos := by
    rw [h.recover_vlogs]
    exact h.vlogs.pos
  current_mem := by
    rw [h.recover_vlogs]
    exact ⟨_, by rw [OrdMap.get_mapValues, h.vlogs.log_eq]; rfl⟩
  le_current id log hlog := by
    obtain ⟨old, hold, -⟩ := h.get_recover_vlogs hlog
    rw [h.recover_vlogs]
    exact h.vlogs.le_current id old hold
  consistent id log hlog := by
    obtain ⟨old, -, rfl, -⟩ := h.get_recover_vlogs hlog
    rfl
  whole id log hlog := by
    obtain ⟨old, hold, -, hc⟩ := h.get_recover_vlogs hlog
    rw [hc]
    exact h.vlogs.whole id old hold
  buffer_lt id log hlog := by
    obtain ⟨old, -, rfl, -⟩ := h.get_recover_vlogs hlog
    exact Nat.zero_lt_of_lt (show 0 < VLog.bufferLimit by decide)
  old id log hlog _ := by
    obtain ⟨old, -, rfl, -⟩ := h.get_recover_vlogs hlog
    rfl

theorem grows_recover (env : Env) (h : Cells s) : s.vlogs.Grows (KVStore.recover env s).vlogs where
  current_le := by rw [h.recover_vlogs]
  kept id log _ hlog := by
    obtain ⟨old, hold, -, hc⟩ := h.get_recover_vlogs hlog
    exact ⟨old, [], hold, by simpa using hc, by simp⟩

/-- What replay puts in the memtable comes from the records. -/
theorem get_foldl_replay {rs : List WalRecord} {m : Memtable} {k : Key} {c : Cell}
    (hc : (rs.foldl (fun m r => m.insert r.key (replayCell r)) m).get k = some c) :
    m.get k = some c ∨ ∃ r ∈ rs, r.key = k ∧ c = replayCell r := by
  induction rs generalizing m with
  | nil => exact Or.inl hc
  | cons r rs ih =>
    rcases ih hc with hm | ⟨r', hr', hk⟩
    · rcases OrdMap.get_insert_cases hm with ⟨hk, hv⟩ | ⟨-, hm⟩
      · exact Or.inr ⟨r, List.mem_cons_self, hk.symm, hv⟩
      · exact Or.inl hm
    · exact Or.inr ⟨r', List.mem_cons_of_mem r hr', hk⟩

/-- What is replayed is on disk. -/
theorem mem_replayed {w : Wal} (hr : r ∈ replayed env w) :
    ∃ id rs, w.segments.get id = some rs ∧ r ∈ rs := by
  obtain ⟨id, -, hrs⟩ := List.mem_flatMap.mp hr
  have hmem := (List.takeWhile_sublist _).subset hrs
  cases hseg : w.segments.get id with
  | none =>
    rw [hseg] at hmem
    cases hmem
  | some rs =>
    rw [hseg] at hmem
    exact ⟨id, rs, hseg, hmem⟩

theorem recover (h : Cells s) : Cells (KVStore.recover env s) := by
  have hcell : ∀ k c, CellOk s.history s.vlogs k c →
      CellOk s.history (KVStore.recover env s).vlogs k c := by
    intro k c hc
    have := hc.grows (h.grows_recover env) []
    rwa [List.append_nil] at this
  refine
    { vlogs := h.vlogs_recover
      cells := ⟨fun k c hc => ?_, fun t ht => (by cases ht),
        ⟨fun seq t ht k c hc => ?_, fun c hc => by cases hc⟩⟩
      gcTarget := fun job hjob => by cases hjob
      gcLive := fun job hjob => by cases hjob
      synced := fun id log hlog => ?_
      wal := fun id rs hrs r hr => ?_
      walBuffer := rfl }
  · rcases get_foldl_replay hc with hc | ⟨r, hr, rfl, rfl⟩
    · cases hc
    · obtain ⟨id, rs, hrs, hr⟩ := mem_replayed hr
      exact hcell _ _ (h.wal id rs hrs r hr)
  · have ht' : (s.lsm.tables.filterKeys _).get seq = some t := ht
    rw [OrdMap.get_filterKeys] at ht'
    split_ifs at ht'
    exact hcell k c (h.cells.lsm.tables seq t ht' k c hc)
  · obtain ⟨old, -, rfl, -⟩ := h.get_recover_vlogs hlog
    rfl
  · obtain ⟨id', rs', hrs', hr⟩ := mem_openSegment hrs hr
    exact hcell _ _ (h.wal id' rs' hrs' r hr)

end Cells

/-! ## Steps -/

/-- The batch a step commits, in whole or in part. -/
def Fitting : EngineAction → Prop
  | .commit batch | .crash batch _ => FittingBatch batch
  | _ => True

/-- **Every step keeps the meaning of the cells.** The scan of the collector
relies on its lookups. -/
theorem Cells.step {a : EngineAction} (h : Cells s) (hp : a = .gcScan → Pipeline env s)
    (ha : Fitting a) (hs : s.step env a = some s') : Cells s' := by
  have hpointed : FitsStep s a → Pointed s' := fun hfits => h.toPointed.step hp hfits hs
  have haside : FitsStep s a → a.Aside → Cells s' := by
    intro hfits ha
    obtain ⟨-, hvlogs, hwal, hhistory, -⟩ := aside_frame ha hs
    refine ⟨hpointed hfits, hvlogs ▸ h.synced, ?_, hwal ▸ h.walBuffer⟩
    rw [hwal, hhistory, hvlogs]
    exact h.wal
  cases a with
  | commit batch =>
    obtain ⟨hen, rfl⟩ := step_commit_cases hs
    exact h.commit hen ha
  | crash batch n =>
    obtain ⟨hen, rfl⟩ := step_crash_cases hs
    exact (h.kill hen ha n).recover
  | maybeFlush =>
    have hcells := hpointed trivial
    obtain ⟨-, rfl⟩ := maybeFlush_cases hs
    refine ⟨hcells, h.synced, fun id rs hrs r hr => ?_, rfl⟩
    obtain ⟨id', rs', hrs', hr⟩ := mem_openSegment hrs hr
    exact h.wal id' rs' hrs' r hr
  | walRemove id =>
    have hcells := hpointed trivial
    obtain ⟨-, rfl⟩ := walRemove_cases hs
    exact ⟨hcells, h.synced, fun id' rs hrs => h.wal id' rs (OrdMap.get_erase_cases hrs).2,
      h.walBuffer⟩
  | walRemoveFail id =>
    have hcells := hpointed trivial
    obtain ⟨-, rfl⟩ := walRemoveFail_cases hs
    exact ⟨hcells, h.synced, h.wal, h.walBuffer⟩
  | gcFinish =>
    have hcells := hpointed trivial
    obtain ⟨job, -, -, -, rfl⟩ := gcFinish_cases hs
    refine ⟨hcells, fun id log hlog => ?_, fun id rs hrs r hr => ?_, h.walBuffer⟩
    · exact h.synced id log (OrdMap.get_erase_cases hlog).2
    · have hcell := (h.wal id rs hrs r hr).grows (s.vlogs.grows_erase job.target) []
      rwa [List.append_nil] at hcell
  | _ => exact haside trivial trivial

/-- A store just created. -/
theorem cells_fresh : Cells {} := by
  refine ⟨.of_fresh, fun id log hlog => ?_, fun id rs hrs r hr => ?_, rfl⟩
  · rcases get_vlogs_fresh hlog with ⟨-, rfl⟩
    rfl
  · rw [(get_segments_fresh hrs).2] at hr
    cases hr

end KVStore
