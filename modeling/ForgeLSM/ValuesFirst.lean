import ForgeLSM.WalReplay

/-!
# Values before records

A record of the WAL is a pointer into a value log, and is of use only if the
value is there. Both logs are buffered, and a batch that is not synchronous
leaves its values in the one buffer and its records in the other; a value log
may be full in the middle of a batch and another be opened, and its buffer may be
written out early. A commit keeps the order: it syncs the value log before it
writes a byte to the WAL, and a value log is synced before another is opened.

So whenever the process is killed, what a replay returns as a put points to its
value in the part of the value log that was synced
(`KVStore.valuesThere_of_killedIn`) – provided the put was one whose sizes fit
the 32 bits they are written in. Nothing checks that. A value of `2 ^ 32` bytes
is written as an empty one, and the record says so too
(`KVStore.not_valuesThere_hugeValue`).
-/

/-! ## Value logs extended -/

variable {batch : List WriteRequest}

namespace Vlogs

/-- **The logs have been extended**: what was written is, and what was synced. -/
def Extends (vl vl' : Vlogs) : Prop :=
  ∀ id log, vl.logs.get id = some log →
    ∃ log', vl'.logs.get id = some log' ∧ log.file <+: log'.file ∧ log.content <+: log'.content

variable {vl : Vlogs}

theorem Extends.refl (vl : Vlogs) : vl.Extends vl := fun _ log h =>
  ⟨log, h, List.prefix_refl _, List.prefix_refl _⟩

theorem Extends.trans {a b c : Vlogs} (hab : a.Extends b) (hbc : b.Extends c) : a.Extends c := by
  intro id log h
  obtain ⟨log', h', hf, hc⟩ := hab id log h
  obtain ⟨log'', h'', hf', hc'⟩ := hbc id log' h'
  exact ⟨log'', h'', hf.trans hf', hc.trans hc'⟩

/-- The log appended to is replaced by a longer one. -/
theorem extends_insert_current (vl : Vlogs) {log' : VLog} (hf : vl.log.file <+: log'.file)
    (hc : vl.log.content <+: log'.content) :
    vl.Extends { vl with logs := vl.logs.insert vl.current log' } := by
  intro id log h
  by_cases hid : id = vl.current
  · subst hid
    have hlog : vl.log = log := by rw [Vlogs.log, h]; rfl
    exact ⟨log', OrdMap.get_insert_self _ _ _, hlog ▸ hf, hlog ▸ hc⟩
  · exact ⟨log, (OrdMap.get_insert_of_ne _ _ hid).trans h, List.prefix_refl _, List.prefix_refl _⟩

theorem extends_sync (vl : Vlogs) : vl.Extends vl.sync :=
  vl.extends_insert_current ⟨vl.log.buffer, rfl⟩ (by rw [VLog.content_sync])

theorem Ok.extends_rotate (h : vl.Ok) : vl.Extends vl.rotate := by
  intro id log hlog
  obtain ⟨log', hlog', hf, hc⟩ := vl.extends_sync id log hlog
  have hid := h.le_current id log hlog
  exact ⟨log', (OrdMap.get_insert_of_ne _ _ (by omega)).trans hlog', hf, hc⟩

theorem Ok.extends_startBatch (h : vl.Ok) (env : Env) : vl.Extends (vl.startBatch env) := by
  unfold Vlogs.startBatch
  split_ifs
  · exact h.extends_rotate
  · exact Extends.refl vl

/-- An append extends the log. -/
theorem prefix_append (l : VLog) (fileId : ℕ) (k : Key) (v : Value) :
    l.file <+: (l.append fileId k v).2.file ∧ l.content <+: (l.append fileId k v).2.content := by
  refine ⟨?_, ?_⟩
  · unfold VLog.append
    dsimp only
    split_ifs
    · exact ⟨_, rfl⟩
    · exact List.prefix_refl _
  · rw [VLog.content_append]
    exact List.prefix_append _ _

/-- One request extends the logs, and the offset it gets is a 64-bit one. -/
theorem Ok.extends_place (h : vl.Ok) (env : Env) (act : Memtable) (walId : ℕ) (r : WriteRequest) :
    vl.Extends (vl.place env act walId r).1
      ∧ ∀ ptr, (vl.place env act walId r).2 = some ptr → ptr.offset < 2 ^ 64 := by
  unfold Vlogs.place
  split_ifs
  · refine ⟨Extends.refl vl, fun ptr hptr => ?_⟩
    cases hptr
    show uint64Max < 2 ^ 64
    decide
  · exact ⟨Extends.refl vl, fun ptr hptr => by cases hptr⟩
  · obtain ⟨hroom, -, hoff⟩ := h.room env
    have hgrow : vl.Extends (vl.room env) := by
      unfold Vlogs.room
      split_ifs
      · exact h.extends_rotate
      · exact Extends.refl vl
    obtain ⟨hf, hc⟩ := prefix_append (vl.room env).log (vl.room env).current r.key r.value
    refine ⟨hgrow.trans (extends_insert_current _ hf hc), fun ptr hptr => ?_⟩
    cases hptr
    show (vl.room env).log.currentOffset + (vl.room env).log.buffer.length + 8 + u32 r.key.length
      < 2 ^ 64
    have hb := hroom.buffer_lt _ _ hroom.log_eq
    have hmax := env.maxFileSize_lt
    have hk := u32_lt r.key.length
    unfold VLog.bufferLimit at hb
    omega

/-- **A batch extends the logs**, and the offsets it gets are 64-bit ones. -/
theorem Ok.extends_placeAll (h : vl.Ok) (env : Env) (act : Memtable) (walId n : ℕ)
    (hfit : PutsFit batch) :
    vl.Extends (vl.placeAll env act walId n batch).1
      ∧ ∀ e ∈ (vl.placeAll env act walId n batch).2, e.ptr.offset < 2 ^ 64 := by
  induction batch generalizing vl n with
  | nil => exact ⟨Extends.refl vl, fun e he => by cases he⟩
  | cons r rs ih =>
    obtain ⟨hext, hoff⟩ := h.extends_place env act walId r
    obtain ⟨hok, -, -⟩ := h.place env act walId (hfit r List.mem_cons_self)
    obtain ⟨hext', hoff'⟩ := ih hok (if r.isGc then n else n + 1)
      (fun q hq => hfit q (List.mem_cons_of_mem r hq))
    unfold Vlogs.placeAll
    dsimp only
    split
    · exact ⟨hext.trans hext', hoff'⟩
    · rename_i ptr hptr
      refine ⟨hext.trans hext', fun e he => ?_⟩
      rcases List.mem_cons.mp he with rfl | he
      · exact hoff ptr hptr
      · exact hoff' e he

end Vlogs

/-! ## Records that point to their values -/

/-- **The record points to its value**, in what a log has written or in what it
has synced: it is a delete's, or its put's value is there. -/
def WalRecord.PointsInto (r : WalRecord) (h : History) (bytesOf : VLog → List Byte)
    (vl : Vlogs) : Prop :=
  ∀ p, r.pointer = some p → p.Fits ∧ r.key.length < 2 ^ 32
    ∧ ∃ v log, h.opAt r.stamp = some ⟨r.key, some v⟩ ∧ vl.logs.get p.fileId = some log
      ∧ p.Holds (bytesOf log) v

/-- A record keeps pointing to its value in bytes that have those it pointed
into. -/
theorem WalRecord.PointsInto.mono {r : WalRecord} {h : History}
    {bytesOf bytesOf' : VLog → List Byte} {vl vl' : Vlogs} (hr : r.PointsInto h bytesOf vl)
    (t : History) (hle : ∀ id log, vl.logs.get id = some log →
      ∃ log', vl'.logs.get id = some log' ∧ bytesOf log <+: bytesOf' log') :
    r.PointsInto (h ++ t) bytesOf' vl' := by
  intro p hp
  obtain ⟨hfits, hkey, v, log, hop, hlog, hholds⟩ := hr p hp
  obtain ⟨log', hlog', hpre⟩ := hle p.fileId log hlog
  refine ⟨hfits, hkey, v, log', ?_, hlog', hholds.mono hpre⟩
  rwa [History.opAt_append_left (History.le_length_of_opAt hop)]

namespace KVStore

variable {env : Env} {s s' : KVStore}

/-- **What the steps are to keep to**: no relocations and no removal of value
logs, puts whose sizes fit, and numbers of value logs that fit. -/
def FittingStep (env : Env) (s : KVStore) : EngineAction → Prop
  | .commit batch => (∀ r ∈ batch, r.isGc = false
      ∧ (r.isDelete = false → VLog.FitsRecord (r.key, r.value)))
      ∧ (s.plan env batch).1.current < 2 ^ 32
  | .gcStart => False
  | .gcScan => False
  | .gcFinish => False
  | .crash _ _ => False
  | _ => True

instance decidableFittingStep (env : Env) (s : KVStore) (a : EngineAction) :
    Decidable (s.FittingStep env a) := by
  apply EngineAction.casesOn (motive := fun a => Decidable (FittingStep env s a)) a <;> intros <;>
    unfold FittingStep <;> infer_instance

/-- **Values come first**: the records in the files of the WAL point to values
that are synced, those in its buffer to values that are at least written. -/
structure ValuesFirst (s : KVStore) : Prop where
  vlogs : s.vlogs.Ok
  files : ∀ id rs, s.wal.segments.get id = some rs →
    ∀ r ∈ rs, r.PointsInto s.history VLog.file s.vlogs
  buffer : ∀ r ∈ s.wal.buffer, r.PointsInto s.history VLog.content s.vlogs

/-- The records of a batch point to their values, once it has its pointers. -/
theorem plan_pointsInto (hv : s.vlogs.Ok) (hok : s.FittingStep env (.commit batch)) :
    (s.plan env batch).1.Ok ∧ s.vlogs.Extends (s.plan env batch).1
      ∧ ∀ r ∈ (s.plan env batch).2.filterMap Entry.walRecord,
        r.PointsInto (s.history ++ userOps batch) VLog.content (s.plan env batch).1 := by
  obtain ⟨hreq, hcur⟩ := hok
  have hfit : Vlogs.PutsFit batch := fun r hr => (hreq r hr).2
  have hgc : ∀ r ∈ batch, r.isGc = true → r.Relocates s.history := fun r hr hg =>
    absurd (hg.symm.trans (hreq r hr).1) (by decide)
  obtain ⟨hstart, -, -⟩ := hv.startBatch env
  obtain ⟨hext, hoff⟩ :=
    hstart.extends_placeAll env s.active s.wal.current s.history.length hfit
  obtain ⟨hplan, -, hplaced⟩ := plan_spec env hv hfit
  refine ⟨hplan, (hv.extends_startBatch env).trans hext, fun r hr p hp => ?_⟩
  obtain ⟨e, he, hr⟩ := List.mem_filterMap.mp hr
  unfold Entry.walRecord at hr
  split_ifs at hr with hg hd
  · cases hr
    cases hp
  · cases hr
    cases hp
    have hput : e.req.isDelete = false := Bool.eq_false_iff.mpr hd
    have hsize := hfit e.req (Vlogs.req_mem_of_mem_placeAll he) hput
    unfold VLog.FitsRecord at hsize
    obtain ⟨op, hop, hkey, hpoints⟩ := cellOk_of_mem_plan hv hfit hgc he
    have hlen := (ptr_of_mem_placeAll he).2 hput
    have hval : op = ⟨e.req.key, some e.req.value⟩ := by
      have hop' := Vlogs.opAt_of_mem_placeAll hgc he
      rw [hop] at hop'
      rw [Option.some.inj hop', WriteRequest.op, if_neg hd]
    rw [hval] at hop hpoints
    obtain ⟨htomb, hle, hrec⟩ := hpoints
    obtain ⟨-, log, hlog⟩ := (hplaced e he).1 htomb
    refine ⟨⟨lt_of_le_of_lt hle hcur, hoff e he, hlen ▸ u32_lt _⟩, ?_, e.req.value, log, hop, hlog,
      (hrec log hlog).holds⟩
    dsimp only at hsize ⊢
    omega

namespace ValuesFirst

theorem of_fresh : ValuesFirst {} where
  vlogs := cells_fresh.vlogs
  files id rs hget r hr := by
    rw [(get_segments_fresh hget).2] at hr
    cases hr
  buffer r hr := by cases hr

/-- What touches none of the logs. -/
theorem frame (h : ValuesFirst s) (hv : s'.vlogs = s.vlogs) (hw : s'.wal = s.wal)
    (hh : s'.history = s.history) : ValuesFirst s' where
  vlogs := hv ▸ h.vlogs
  files := by
    rw [hw, hv, hh]
    exact h.files
  buffer := by
    rw [hw, hv, hh]
    exact h.buffer

/-- Once the value log is synced, all that is written is synced. -/
theorem content_prefix_sync {vl vl' : Vlogs} (hext : vl.Extends vl') (hok : vl'.Ok) :
    ∀ id log, vl.logs.get id = some log →
      ∃ log', vl'.sync.logs.get id = some log' ∧ log.content <+: log'.file := by
  intro id log hlog
  obtain ⟨log', hlog', -, hc⟩ := (hext.trans vl'.extends_sync) id log hlog
  have hfile : log'.file = log'.content := by
    rw [VLog.content, hok.synced_sync id log' hlog', List.append_nil]
  exact ⟨log', hlog', hfile ▸ hc⟩

/-- The records on their way to the WAL, once the value log is synced. -/
theorem pending_pointsInto (h : ValuesFirst s) (hok : s.FittingStep env (.commit batch))
    {r : WalRecord} (hr : r ∈ s.wal.buffer ++ (s.plan env batch).2.filterMap Entry.walRecord) :
    r.PointsInto (s.history ++ userOps batch) VLog.file (s.plan env batch).1.sync := by
  obtain ⟨hplan, hext, hnew⟩ := plan_pointsInto h.vlogs hok
  rcases List.mem_append.mp hr with hr | hr
  · exact (h.buffer r hr).mono _ (content_prefix_sync hext hplan)
  · have hrefl := (hnew r hr).mono [] (content_prefix_sync (Vlogs.Extends.refl _) hplan)
    rwa [List.append_nil] at hrefl

/-- The records in the files keep pointing to their values. -/
theorem files_pointsInto (h : ValuesFirst s) {vl : Vlogs} (hext : s.vlogs.Extends vl) (t : History)
    {id : ℕ} {rs : List WalRecord} (hget : s.wal.segments.get id = some rs) {r : WalRecord}
    (hr : r ∈ rs) : r.PointsInto (s.history ++ t) VLog.file vl :=
  (h.files id rs hget r hr).mono t (fun id log hlog => by
    obtain ⟨log', hlog', hf, -⟩ := hext id log hlog
    exact ⟨log', hlog', hf⟩)

theorem open_pointsInto (h : ValuesFirst s) {vl : Vlogs} (hext : s.vlogs.Extends vl) (t : History)
    {r : WalRecord} (hr : r ∈ s.wal.open_) : r.PointsInto (s.history ++ t) VLog.file vl := by
  unfold Wal.open_ at hr
  cases hget : s.wal.segments.get s.wal.current with
  | none =>
    rw [hget] at hr
    cases hr
  | some rs =>
    rw [hget] at hr
    exact h.files_pointsInto hext t hget hr

/-- **A commit keeps the order.** -/
theorem commit (h : ValuesFirst s) (hok : s.FittingStep env (.commit batch)) :
    ValuesFirst (s.commit env batch) := by
  obtain ⟨hplan, hext, hnew⟩ := plan_pointsInto h.vlogs hok
  unfold KVStore.commit putAll writeLogs
  dsimp only
  by_cases hsync : batch.any WriteRequest.sync = true
  · rw [if_pos hsync, if_pos hsync]
    have hext' := hext.trans (s.plan env batch).1.extends_sync
    refine ⟨hplan.sync, fun id rs hget r hr => ?_, fun r hr => by cases hr⟩
    rcases mem_insert_getD hget hr with ⟨id', rs', hget', hr'⟩ | hr'
    · exact h.files_pointsInto hext' _ hget' hr'
    · exact h.pending_pointsInto hok hr'
  · rw [if_neg hsync, if_neg hsync]
    refine ⟨hplan, fun id rs hget r hr => h.files_pointsInto hext _ hget hr, fun r hr => ?_⟩
    rcases List.mem_append.mp hr with hr | hr
    · exact (h.buffer r hr).mono _ (fun id log hlog => by
        obtain ⟨log', hlog', -, hc⟩ := hext id log hlog
        exact ⟨log', hlog', hc⟩)
    · exact hnew r hr

theorem step (h : ValuesFirst s) {a : EngineAction} (hok : s.FittingStep env a)
    (hs : s.step env a = some s') : ValuesFirst s' := by
  have haside : a.Aside → ValuesFirst s' := by
    intro ha
    obtain ⟨-, hvlogs, hwal, hhistory, -⟩ := aside_frame ha hs
    exact h.frame hvlogs hwal hhistory
  cases a with
  | commit batch =>
    obtain ⟨-, rfl⟩ := step_commit_cases hs
    exact (h.commit hok).frame rfl rfl rfl
  | maybeFlush =>
    obtain ⟨-, rfl⟩ := maybeFlush_cases hs
    refine ⟨h.vlogs, fun id rs hget r hr => ?_, fun r hr => by cases hr⟩
    obtain ⟨id', rs', hget', hr'⟩ := mem_openSegment hget hr
    exact h.files id' rs' hget' r hr'
  | walRemove id =>
    obtain ⟨-, rfl⟩ := walRemove_cases hs
    refine ⟨h.vlogs, fun j rs hget r hr => ?_, h.buffer⟩
    exact h.files j rs (OrdMap.get_erase_cases hget).2 r hr
  | walRemoveFail id =>
    obtain ⟨-, rfl⟩ := walRemoveFail_cases hs
    exact ⟨h.vlogs, h.files, h.buffer⟩
  | gcFinish | crash batch n => exact hok.elim
  | _ => exact haside trivial

end ValuesFirst

/-! ## Killed in a commit -/

end KVStore

/-- **What a killed process leaves of the logs**: the bytes of the value logs that
are synced, and the bytes of the WAL files. -/
structure CrashDisk where
  vlogs : OrdMap ℕ (List Byte)
  wals : OrdMap ℕ (List Byte)

/-- The bytes of the value logs that are synced. -/
def Vlogs.synced (vl : Vlogs) : OrdMap ℕ (List Byte) := vl.logs.mapValues VLog.file

/-- The WAL files. -/
def Wal.files (w : Wal) : OrdMap ℕ (List Byte) :=
  w.segments.mapValues (fun rs => rs.flatMap (fun r => r.call.bytes))

namespace KVStore

/-- The value logs in the commit of a batch: before it, or when so many of its
requests have their pointers. -/
def placed (env : Env) (s : KVStore) (batch : List WriteRequest) : Option ℕ → Vlogs
  | none => s.vlogs
  | some k => ((s.vlogs.startBatch env).placeAll env s.active s.wal.current s.history.length
      (batch.take k)).1

/-- **What is left by a process killed in the commit of a batch.** In front of the
WAL phase it has placed some of the requests, and may have been syncing the value
log or opening the next one. If the batch is to be synced, it then syncs the value
log, and some of the bytes on their way to the WAL are in its file. -/
inductive KilledIn (env : Env) (s : KVStore) (batch : List WriteRequest) : CrashDisk → Prop where
  | placing (k : Option ℕ) : KilledIn env s batch ⟨(s.placed env batch k).synced, s.wal.files⟩
  | syncing (k : Option ℕ) : KilledIn env s batch ⟨(s.placed env batch k).sync.synced, s.wal.files⟩
  | rotating (k : Option ℕ) :
      KilledIn env s batch ⟨(s.placed env batch k).rotate.synced, s.wal.files⟩
  | writing (n : ℕ) (hsync : batch.any WriteRequest.sync = true) : KilledIn env s batch
      ⟨(s.plan env batch).1.sync.synced, s.wal.files.insert s.wal.current
        ((s.wal.open_.flatMap (fun r => r.call.bytes)) ++ ((s.wal.buffer
          ++ (s.plan env batch).2.filterMap Entry.walRecord).flatMap
            (fun r => r.call.bytes)).take n)⟩

/-- The records that were written to a file of the WAL or were to be by the commit
of the batch. -/
def written (env : Env) (s : KVStore) (batch : List WriteRequest) (id : ℕ) : List WalRecord :=
  ((s.wal.segments.get id).getD []) ++ if id = s.wal.current then
    s.wal.buffer ++ (s.plan env batch).2.filterMap Entry.walRecord else []

end KVStore

/-- **Every put that a replay returns has its value there.** The `i`th entry is of
the `i`th record written to the file. Its range is inside the synced bytes of its
value log and has the value of the put with the record's stamp. -/
def CrashDisk.ValuesThere (d : CrashDisk) (ops : History) (written : ℕ → List WalRecord) : Prop :=
  ∀ id bytes, d.wals.get id = some bytes →
    ∀ (i : ℕ) (e : WALEntry), (WAL.replay bytes).entries[i]? = some e → e.isTombstone = false →
      ∃ (r : WalRecord) (v : Value) (file : List Byte), (written id)[i]? = some r
        ∧ ops.opAt r.stamp = some ⟨e.key, some v⟩
        ∧ d.vlogs.get e.pointer.fileId = some file ∧ e.pointer.Holds file v

/-- What is read back of a record that points to its value. -/
theorem WalRecord.PointsInto.readBack {r : WalRecord} {ops : History} {vl : Vlogs}
    (hr : r.PointsInto ops VLog.file vl) (ht : r.call.readBack.isTombstone = false) :
    ∃ v file, ops.opAt r.stamp = some ⟨r.call.readBack.key, some v⟩
      ∧ vl.synced.get r.call.readBack.pointer.fileId = some file
      ∧ r.call.readBack.pointer.Holds file v := by
  obtain ⟨key, pointer, stamp⟩ := r
  cases pointer with
  | none => cases ht
  | some p =>
    obtain ⟨hfits, hkey, v, log, hop, hlog, hholds⟩ := hr p rfl
    have hback : (WalRecord.call ⟨key, some p, stamp⟩).readBack = ⟨key, p, false⟩ := by
      have hlen : p.length ≠ WAL.tombstoneLen := by
        intro heq
        simp [WalRecord.call, WALCall.readBack, WAL.entryOf, hfits.held_eq, heq] at ht
      rw [WalRecord.call, WALCall.readBack, hfits.held_eq, u32_of_lt hkey, List.take_length,
        WAL.entryOf, if_neg hlen]
    rw [hback]
    refine ⟨v, log.file, hop, ?_, hholds⟩
    rw [Vlogs.synced, OrdMap.get_mapValues, hlog]
    rfl

/-- **Of a file of records that point to their values**, cut anywhere, every put
that a replay returns has its value there. -/
theorem values_of_records {rs : List WalRecord} {ops : History} {vl : Vlogs}
    (hrs : ∀ r ∈ rs, r.PointsInto ops VLog.file vl) (n : ℕ) {i : ℕ} {e : WALEntry}
    (he : (WAL.replay ((rs.flatMap (fun r => r.call.bytes)).take n)).entries[i]? = some e)
    (ht : e.isTombstone = false) :
    ∃ r v file, rs[i]? = some r ∧ ops.opAt r.stamp = some ⟨e.key, some v⟩
      ∧ vl.synced.get e.pointer.fileId = some file ∧ e.pointer.Holds file v := by
  have hfits : ∀ c ∈ rs.map WalRecord.call, c.Fits := by
    intro c hc
    obtain ⟨r, -, rfl⟩ := List.mem_map.mp hc
    unfold WalRecord.call
    cases r.pointer with
    | none => trivial
    | some p => exact p.fits_held
  have hpre := WALCall.entries_replay_take_prefix hfits n
  rw [List.flatMap_map, List.map_map] at hpre
  obtain ⟨hi, hlast⟩ := List.getElem?_eq_some_iff.mp he
  obtain ⟨rest, hrest⟩ := hpre
  have hback : (rs.map (WALCall.readBack ∘ WalRecord.call))[i]? = some e := by
    rw [← hrest, List.getElem?_append_left hi]
    exact he
  rw [List.getElem?_map] at hback
  obtain ⟨r, hr, rfl⟩ := Option.map_eq_some_iff.mp hback
  obtain ⟨v, file, h⟩ := (hrs r (List.mem_of_getElem? hr)).readBack ht
  exact ⟨r, v, file, hr, h⟩

namespace KVStore

variable {env : Env} {s s' : KVStore}

/-- The WAL files are as they were, and the value logs have been extended. -/
theorem ValuesFirst.valuesThere_of_extends (h : ValuesFirst s) {vl : Vlogs}
    (hext : s.vlogs.Extends vl) (batch : List WriteRequest) :
    CrashDisk.ValuesThere ⟨vl.synced, s.wal.files⟩ (s.history ++ userOps batch)
      (s.written env batch) := by
  intro id bytes hbytes i e he ht
  have hbytes' : s.wal.files.get id = some bytes := hbytes
  rw [Wal.files, OrdMap.get_mapValues] at hbytes'
  obtain ⟨rs, hget, rfl⟩ := Option.map_eq_some_iff.mp hbytes'
  rw [← List.take_length (l := rs.flatMap (fun r => r.call.bytes))] at he
  obtain ⟨r, v, file, hr, hrest⟩ :=
    values_of_records (fun r hr => h.files_pointsInto hext (userOps batch) hget hr) _ he ht
  refine ⟨r, v, file, ?_, hrest⟩
  rw [written, hget, Option.getD_some, List.getElem?_append_left]
  · exact hr
  · exact (List.getElem?_eq_some_iff.mp hr).1

/-- The value logs are good and extended at every point of a batch. -/
theorem placed_spec (hv : s.vlogs.Ok) (hok : s.FittingStep env (.commit batch)) (k : Option ℕ) :
    (s.placed env batch k).Ok ∧ s.vlogs.Extends (s.placed env batch k) := by
  cases k with
  | none => exact ⟨hv, Vlogs.Extends.refl _⟩
  | some k =>
    have hfit : Vlogs.PutsFit (batch.take k) := fun r hr =>
      (hok.1 r (List.mem_of_mem_take hr)).2
    obtain ⟨hstart, -, -⟩ := hv.startBatch env
    exact ⟨(hstart.placeAll env s.active s.wal.current s.history.length hfit).1,
      (hv.extends_startBatch env).trans
        (hstart.extends_placeAll env s.active s.wal.current s.history.length hfit).1⟩

/-- **A record of the WAL never refers to a value that is not durable.** A store has
committed batches, synchronous or not, whose puts fit, and is killed in the commit
of another one, anywhere. Every put that a replay of a WAL file then returns has its
value in the synced bytes of its value log. -/
theorem valuesThere_of_killedIn (actions : List EngineAction)
    (hok : RunOk (KVStore.step env) (FittingStep env) {} actions)
    (hrun : runSteps (KVStore.step env) {} actions = some s) {batch : List WriteRequest}
    (hbatch : s.FittingStep env (.commit batch)) {d : CrashDisk} (hd : KilledIn env s batch d) :
    d.ValuesThere (s.history ++ userOps batch) (s.written env batch) := by
  have h : ValuesFirst s := invariant_of_runOk (fun _ _ _ h hok hs => h.step hok hs)
    ValuesFirst.of_fresh hok hrun
  cases hd with
  | placing k => exact h.valuesThere_of_extends (placed_spec h.vlogs hbatch k).2 batch
  | syncing k =>
    obtain ⟨-, hext⟩ := placed_spec h.vlogs hbatch k
    exact h.valuesThere_of_extends (hext.trans (Vlogs.extends_sync _)) batch
  | rotating k =>
    obtain ⟨hplaced, hext⟩ := placed_spec h.vlogs hbatch k
    exact h.valuesThere_of_extends (hext.trans hplaced.extends_rotate) batch
  | writing n hsync =>
    obtain ⟨-, hext, -⟩ := plan_pointsInto h.vlogs hbatch
    have hext' := hext.trans (s.plan env batch).1.extends_sync
    intro id bytes hbytes i e he ht
    rcases OrdMap.get_insert_cases hbytes with ⟨rfl, rfl⟩ | ⟨-, hbytes'⟩
    · have hcut : ∀ a b : List WalRecord, (a.flatMap (fun r => r.call.bytes))
          ++ (b.flatMap (fun r => r.call.bytes)).take n
          = ((a ++ b).flatMap (fun r => r.call.bytes)).take
            ((a.flatMap (fun r => r.call.bytes)).length + n) := by
        intro a b
        rw [List.flatMap_append, List.take_length_add_append]
      rw [hcut] at he
      obtain ⟨r, v, file, hr, hrest⟩ := values_of_records (fun r hr => by
        rcases List.mem_append.mp hr with hr | hr
        · exact h.open_pointsInto hext' (userOps batch) hr
        · exact h.pending_pointsInto hbatch hr) _ he ht
      refine ⟨r, v, file, ?_, hrest⟩
      rw [written, if_pos rfl]
      exact hr
    · exact h.valuesThere_of_extends hext' batch id bytes hbytes' i e he ht

/-- Three keys are put and not synced, one of them by a batch of its own. -/
def unsyncedRun : List EngineAction :=
  [.commit [{ key := [97], value := [1], sync := false }],
    .commit [{ key := [98], value := [2], sync := false },
      { key := [99], value := [3], sync := false }]]

/-- A fourth is put, to be synced. -/
def syncedBatch : List WriteRequest := [{ key := [100], value := [4] }]

/-- The process is killed when three records and a part of the fourth are in the
file. -/
def killedDisk : CrashDisk :=
  let s := finalState (KVStore.step Env.small) {} unsyncedRun
  ⟨(s.plan Env.small syncedBatch).1.sync.synced, s.wal.files.insert s.wal.current
    ((s.wal.open_.flatMap (fun r => r.call.bytes)) ++ ((s.wal.buffer
      ++ (s.plan Env.small syncedBatch).2.filterMap Entry.walRecord).flatMap
        (fun r => r.call.bytes)).take 80)⟩

theorem valuesThere_of_killedIn_killedDisk :
    (killedDisk.wals.get 1).map (fun bytes => (WAL.replay bytes).entries)
        = some [⟨[97], ⟨1, 9, 1⟩, false⟩, ⟨[98], ⟨1, 19, 1⟩, false⟩, ⟨[99], ⟨1, 29, 1⟩, false⟩]
      ∧ killedDisk.ValuesThere
        ((finalState (KVStore.step Env.small) {} unsyncedRun).history ++ userOps syncedBatch)
        ((finalState (KVStore.step Env.small) {} unsyncedRun).written Env.small syncedBatch) :=
  ⟨by decide +kernel, valuesThere_of_killedIn unsyncedRun (by decide +kernel)
    (runSteps_eq_finalState (by decide +kernel)) (by decide +kernel) (.writing 80 rfl)⟩

/-! ## A value that does not fit -/

/-- The put of a value of `2 ^ 32` bytes gets a pointer of length zero. -/
theorem plan_huge {v : Value} (hv : v.length = 2 ^ 32) :
    ({} : KVStore).plan Env.small [{ key := [97], value := v }]
      = (⟨OrdMap.empty.insert 1 ⟨[], [1, 0, 0, 0, 0, 0, 0, 0, 97], 0⟩, 1⟩,
        [⟨{ key := [97], value := v }, ⟨1, 9, 0⟩, 1⟩]) := by
  have hu : u32 v.length = 0 := by rw [hv]; decide
  have hbytes : VLog.encodeRecord ([97], v) = [1, 0, 0, 0, 0, 0, 0, 0, 97] := by
    unfold VLog.encodeRecord
    dsimp only
    rw [hu, List.take_zero]
    decide
  have happ : ({} : VLog).append 1 [97] v
      = (⟨1, 9, 0⟩, ⟨[], [1, 0, 0, 0, 0, 0, 0, 0, 97], 0⟩) := by
    unfold VLog.append
    rw [hbytes, hu]
    rfl
  have hplace : ({} : KVStore).vlogs.place Env.small .empty 1 { key := [97], value := v }
      = (⟨OrdMap.empty.insert 1 ⟨[], [1, 0, 0, 0, 0, 0, 0, 0, 97], 0⟩, 1⟩, some ⟨1, 9, 0⟩) := by
    show (let a := ({} : VLog).append 1 [97] v
      ((⟨(OrdMap.empty.insert 1 {}).insert 1 a.2, 1⟩ : Vlogs),
        some { a.1 with fileId := 1 })) = _
    rw [happ]
    rfl
  show (({} : KVStore).vlogs.placeAll Env.small .empty 1 0 [{ key := [97], value := v }]) = _
  rw [Vlogs.placeAll, hplace]
  rfl

/-- A value of `2 ^ 32` bytes. -/
def hugeValue : Value := List.replicate (2 ^ 32) 0

/-- **The record of a put may refer to bytes that are not its value.** A value of
`2 ^ 32` bytes is put into an empty store. When the commit has written the WAL, a
replay returns a put of no bytes. -/
theorem not_valuesThere_hugeValue :
    ∃ d, KilledIn Env.small {} [{ key := [97], value := hugeValue }] d
      ∧ (d.wals.get 1).map (fun bytes => (WAL.replay bytes).entries)
        = some [⟨[97], ⟨1, 9, 0⟩, false⟩]
      ∧ ¬ d.ValuesThere (userOps [{ key := [97], value := hugeValue }])
        (KVStore.written Env.small {} [{ key := [97], value := hugeValue }]) := by
  have hlen : hugeValue.length = 2 ^ 32 := List.length_replicate
  have hplan := plan_huge hlen
  generalize hugeValue = v at *
  have hget : (((({} : KVStore).wal.files.insert 1 ((({} : KVStore).wal.open_.flatMap
      (fun r => r.call.bytes)) ++ ((({} : KVStore).wal.buffer
        ++ (({} : KVStore).plan Env.small [{ key := [97], value := v }]).2.filterMap
          Entry.walRecord).flatMap (fun r => r.call.bytes)).take 25)).get 1).map
            (fun bytes => (WAL.replay bytes).entries)) = some [⟨[97], ⟨1, 9, 0⟩, false⟩] := by
    rw [hplan, OrdMap.get_insert_self]
    show some ((WAL.replay (([⟨[97], some ⟨1, 9, 0⟩, 1⟩] : List WalRecord).flatMap
      (fun r => r.call.bytes) |>.take 25)).entries) = _
    decide +kernel
  refine ⟨_, .writing 25 rfl, hget, fun h => ?_⟩
  obtain ⟨bytes, hbytes, hentries⟩ := Option.map_eq_some_iff.mp hget
  obtain ⟨r, w, file, -, hop, -, -, hslice⟩ := h 1 bytes hbytes 0 ⟨[97], ⟨1, 9, 0⟩, false⟩
    (by rw [hentries]; rfl) rfl
  have hval : w = v := by
    unfold History.opAt at hop
    split_ifs at hop
    have hmem : (⟨[97], some w⟩ : Op) ∈ [(⟨[97], some v⟩ : Op)] := List.mem_of_getElem? hop
    cases List.mem_singleton.mp hmem
    rfl
  rw [← hval, ← hslice, slice, List.take_zero] at hlen
  cases hlen

end KVStore
