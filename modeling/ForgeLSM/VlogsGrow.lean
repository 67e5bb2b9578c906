import ForgeLSM.KVStore

/-!
# Value logs that grow

Between two states of the store value logs are appended to, synced, opened
and removed. `Vlogs.Grows` is what all of this has in common: a log that was
there and still is has kept its records and has perhaps more. A pointer that
led to its value (`PointsTo`) therefore does so for as long as its log is
there.

A commit is gentler (`Vlogs.Appends`): it removes nothing, and leaves the
logs behind the one appended to as they are.

`Vlogs.Ok` is what the logs themselves keep: whole records, an offset counter
that counts, a buffer below its limit, and one log appended to, newer than
every other. With it a batch of requests gets pointers that lead to its
values (`Vlogs.Ok.placeAll`).
-/

/-- **A pointer leads to what it stands for**: a delete's is a tombstone, a
put's leads to the value, as long as its log is there. -/
def PointsTo (vl : Vlogs) (k : Key) : Option Value → VLogPointer → Prop
  | none, ptr => ptr.isTombstone = true
  | some v, ptr => ptr.isTombstone = false ∧ ptr.fileId ≤ vl.current
      ∧ ∀ log, vl.logs.get ptr.fileId = some log → RecordAt log.content ptr (k, v)

variable {ptr : VLogPointer}

namespace Vlogs

/-- **The logs have grown**: those still there have kept their records. -/
structure Grows (vl vl' : Vlogs) : Prop where
  current_le : vl.current ≤ vl'.current
  kept : ∀ id log', id ≤ vl.current → vl'.logs.get id = some log' →
    ∃ (log : VLog) (rs : List VRecord), vl.logs.get id = some log
      ∧ log'.content = log.content ++ rs.flatMap VLog.encodeRecord
      ∧ ∀ r ∈ rs, VLog.FitsRecord r

/-- **The logs have been appended to**: the older ones are as they were. -/
structure Appends (vl vl' : Vlogs) : Prop extends Grows vl vl' where
  older : ∀ id, id < vl.current → vl'.logs.get id = vl.logs.get id
  mem : ∀ id log, vl.logs.get id = some log → ∃ log', vl'.logs.get id = some log'

/-- **Where a batch writes**: to a log that is there, not an older one. -/
def Placed (vl vl' : Vlogs) (ptr : VLogPointer) : Prop :=
  ptr.isTombstone = false →
    vl.current ≤ ptr.fileId ∧ ∃ log, vl'.logs.get ptr.fileId = some log

/-- **What the logs keep.** -/
structure Ok (vl : Vlogs) : Prop where
  pos : 0 < vl.current
  current_mem : ∃ log, vl.logs.get vl.current = some log
  le_current : ∀ id log, vl.logs.get id = some log → id ≤ vl.current
  consistent : ∀ id log, vl.logs.get id = some log → log.Consistent
  whole : ∀ id log, vl.logs.get id = some log → WholeRecords log.content
  buffer_lt : ∀ id log, vl.logs.get id = some log → log.buffer.length < VLog.bufferLimit
  /-- A log no longer appended to is on disk. -/
  old : ∀ id log, vl.logs.get id = some log → id < vl.current → log.buffer = []

/-- Everything is on disk. -/
def Synced (vl : Vlogs) : Prop := ∀ id log, vl.logs.get id = some log → log.buffer = []

instance (vl : Vlogs) : Decidable vl.Synced :=
  decidable_of_iff (∀ e ∈ vl.logs.entries, e.2.buffer = [])
    ⟨fun h id log hlog => h (id, log) ((OrdMap.mem_entries_iff _).mpr hlog),
      fun h e he => h e.1 e.2 ((OrdMap.mem_entries_iff _).mp he)⟩

theorem Grows.refl (vl : Vlogs) : Grows vl vl where
  current_le := le_refl _
  kept id log _ h := ⟨log, [], h, by simp, by simp⟩

variable {a b c : Vlogs}

theorem Grows.trans (hab : Grows a b) (hbc : Grows b c) : Grows a c where
  current_le := le_trans hab.current_le hbc.current_le
  kept id log hid h := by
    obtain ⟨log', rs', hlog', hc', hfit'⟩ := hbc.kept id log (le_trans hid hab.current_le) h
    obtain ⟨log'', rs'', hlog'', hc'', hfit''⟩ := hab.kept id log' hid hlog'
    refine ⟨log'', rs'' ++ rs', hlog'', ?_, fun r hr => ?_⟩
    · rw [hc', hc'', List.flatMap_append, List.append_assoc]
    · rcases List.mem_append.mp hr with hr | hr
      · exact hfit'' r hr
      · exact hfit' r hr

theorem Appends.refl (vl : Vlogs) : Appends vl vl where
  toGrows := Grows.refl vl
  older _ _ := rfl
  mem _ log h := ⟨log, h⟩

theorem Appends.trans (hab : Appends a b) (hbc : Appends b c) :
    Appends a c where
  toGrows := hab.toGrows.trans hbc.toGrows
  older id hid :=
    (hbc.older id (lt_of_lt_of_le hid hab.current_le)).trans (hab.older id hid)
  mem id log h := by
    obtain ⟨log', h'⟩ := hab.mem id log h
    exact hbc.mem id log' h'

theorem Placed.appends (hbc : Appends b c) (h : Placed a b ptr) : Placed a c ptr := by
  intro ht
  obtain ⟨hle, log, hlog⟩ := h ht
  exact ⟨hle, hbc.mem _ log hlog⟩

theorem Placed.of_appends (hab : Appends a b) (h : Placed b c ptr) : Placed a c ptr := fun ht =>
  ⟨le_trans hab.current_le (h ht).1, (h ht).2⟩

end Vlogs

theorem RecordAt.append_records {bytes : List Byte} {r : VRecord} (h : RecordAt bytes ptr r)
    {rs : List VRecord} (hfit : ∀ q ∈ rs, VLog.FitsRecord q) :
    RecordAt (bytes ++ rs.flatMap VLog.encodeRecord) ptr r := by
  induction rs generalizing bytes with
  | nil => simpa using h
  | cons q rs ih =>
    rw [List.flatMap_cons, ← List.append_assoc]
    exact ih (h.append (hfit q List.mem_cons_self))
      (fun p hp => hfit p (List.mem_cons_of_mem q hp))

/-- **A pointer keeps leading to its value** while the logs grow. -/
theorem PointsTo.grows {vl vl' : Vlogs} (hg : vl.Grows vl') {k : Key} {v : Option Value}
    (h : PointsTo vl k v ptr) : PointsTo vl' k v ptr := by
  cases v with
  | none => exact h
  | some v =>
    obtain ⟨htomb, hle, hrec⟩ := h
    refine ⟨htomb, le_trans hle hg.current_le, fun log' hlog' => ?_⟩
    obtain ⟨log, rs, hlog, hc, hfit⟩ := hg.kept _ log' hle hlog'
    rw [hc]
    exact (hrec log hlog).append_records hfit

namespace Vlogs

variable {vl : Vlogs}

/-! ## The operations on the logs -/

theorem Ok.log_eq (h : vl.Ok) : vl.logs.get vl.current = some vl.log := by
  obtain ⟨log, hlog⟩ := h.current_mem
  rw [Vlogs.log, hlog]
  rfl

/-- The log appended to is replaced by one that has kept its records. -/
theorem appends_insert_current {log' : VLog} (h : vl.Ok) (rs : List VRecord)
    (hc : log'.content = vl.log.content ++ rs.flatMap VLog.encodeRecord)
    (hfit : ∀ r ∈ rs, VLog.FitsRecord r) :
    vl.Appends { vl with logs := vl.logs.insert vl.current log' } where
  current_le := le_refl _
  kept id log hid hlog := by
    rcases OrdMap.get_insert_cases hlog with ⟨rfl, rfl⟩ | ⟨-, hlog⟩
    · exact ⟨_, rs, h.log_eq, hc, hfit⟩
    · exact ⟨log, [], hlog, by simp, by simp⟩
  older id hid := OrdMap.get_insert_of_ne _ _ (Nat.ne_of_lt hid)
  mem id log hlog := by
    rw [OrdMap.get_insert]
    split_ifs
    · exact ⟨log', rfl⟩
    · exact ⟨log, hlog⟩

/-- The log appended to is replaced by another good one. -/
theorem Ok.insert_current {log' : VLog} (h : vl.Ok) (hcons : log'.Consistent)
    (hw : WholeRecords log'.content) (hb : log'.buffer.length < VLog.bufferLimit) :
    Ok { vl with logs := vl.logs.insert vl.current log' } := by
  have hcase : ∀ id log, (vl.logs.insert vl.current log').get id = some log →
      id = vl.current ∧ log = log' ∨ vl.logs.get id = some log :=
    fun id log hlog => (OrdMap.get_insert_cases hlog).imp_right And.right
  refine
    { pos := h.pos
      current_mem := ⟨log', OrdMap.get_insert_self _ _ _⟩
      le_current := fun id log hlog => ?_
      consistent := fun id log hlog => ?_
      whole := fun id log hlog => ?_
      buffer_lt := fun id log hlog => ?_
      old := fun id log hlog hlt => ?_ }
  all_goals rcases hcase id log hlog with ⟨rfl, rfl⟩ | hlog
  · exact le_refl _
  · exact h.le_current id log hlog
  · exact hcons
  · exact h.consistent id log hlog
  · exact hw
  · exact h.whole id log hlog
  · exact hb
  · exact h.buffer_lt id log hlog
  · exact absurd hlt (lt_irrefl _)
  · exact h.old id log hlog hlt

theorem Ok.sync (h : vl.Ok) : vl.sync.Ok :=
  h.insert_current (h.consistent _ _ h.log_eq).sync
    (by rw [VLog.content_sync]; exact h.whole _ _ h.log_eq)
    (by rw [VLog.buffer_sync]; decide)

theorem Ok.appends_sync (h : vl.Ok) : vl.Appends vl.sync :=
  appends_insert_current h [] (by simp) (by simp)

/-- After a sync all is on disk. -/
theorem Ok.synced_sync (h : vl.Ok) : vl.sync.Synced := by
  intro id log hlog
  rcases OrdMap.get_insert_cases hlog with ⟨-, rfl⟩ | ⟨heq, hlog⟩
  · rfl
  · exact h.old id log hlog (lt_of_le_of_ne (h.le_current id log hlog) heq)

/-- A log opened after the last one. -/
theorem get_rotate {id : ℕ} {log : VLog} (h : vl.rotate.logs.get id = some log) :
    id = vl.current + 1 ∧ log = {} ∨ id ≠ vl.current + 1 ∧ vl.sync.logs.get id = some log := by
  exact OrdMap.get_insert_cases h

theorem Ok.rotate (h : vl.Ok) : vl.rotate.Ok where
  pos := Nat.succ_pos _
  current_mem := ⟨{}, OrdMap.get_insert_self _ _ _⟩
  le_current id log hlog := by
    rcases get_rotate hlog with ⟨rfl, -⟩ | ⟨-, hlog⟩
    · exact le_refl _
    · exact Nat.le_succ_of_le (h.sync.le_current id log hlog)
  consistent id log hlog := by
    rcases get_rotate hlog with ⟨-, rfl⟩ | ⟨-, hlog⟩
    · rfl
    · exact h.sync.consistent id log hlog
  whole id log hlog := by
    rcases get_rotate hlog with ⟨-, rfl⟩ | ⟨-, hlog⟩
    · exact ⟨[], rfl, by simp⟩
    · exact h.sync.whole id log hlog
  buffer_lt id log hlog := by
    rcases get_rotate hlog with ⟨-, rfl⟩ | ⟨-, hlog⟩
    · decide
    · exact h.sync.buffer_lt id log hlog
  old id log hlog hlt := by
    rcases get_rotate hlog with ⟨-, rfl⟩ | ⟨-, hlog⟩
    · rfl
    · exact h.synced_sync id log hlog

theorem Ok.appends_rotate (h : vl.Ok) : vl.Appends vl.rotate where
  current_le := Nat.le_succ _
  kept id log hid hlog := by
    rcases get_rotate hlog with ⟨rfl, -⟩ | ⟨-, hlog⟩
    · exact absurd hid (by omega)
    · exact h.appends_sync.kept id log hid hlog
  older id hid := by
    rw [← h.appends_sync.older id hid]
    exact OrdMap.get_insert_of_ne _ _ (by omega)
  mem id log hlog := by
    obtain ⟨log', hlog'⟩ := h.appends_sync.mem id log hlog
    have hid := h.le_current id log hlog
    exact ⟨log', by rw [← hlog']; exact OrdMap.get_insert_of_ne _ _ (by omega)⟩

theorem Ok.synced_rotate (h : vl.Ok) : vl.rotate.Synced := by
  intro id log hlog
  rcases get_rotate hlog with ⟨-, rfl⟩ | ⟨-, hlog⟩
  · rfl
  · exact h.synced_sync id log hlog

/-- A log removed. -/
theorem grows_erase (vl : Vlogs) (id : ℕ) : vl.Grows { vl with logs := vl.logs.erase id } where
  current_le := le_refl _
  kept id' log hid hlog := ⟨log, [], (OrdMap.get_erase_cases hlog).2, by simp, by simp⟩

theorem Ok.erase (h : vl.Ok) {id : ℕ} (hid : id < vl.current) :
    Ok { vl with logs := vl.logs.erase id } := by
  have hsub : ∀ id' log, (vl.logs.erase id).get id' = some log → vl.logs.get id' = some log :=
    fun id' log hlog => (OrdMap.get_erase_cases hlog).2
  refine
    { pos := h.pos
      current_mem := ⟨vl.log, ?_⟩
      le_current := fun id' log hlog => h.le_current id' log (hsub id' log hlog)
      consistent := fun id' log hlog => h.consistent id' log (hsub id' log hlog)
      whole := fun id' log hlog => h.whole id' log (hsub id' log hlog)
      buffer_lt := fun id' log hlog => h.buffer_lt id' log (hsub id' log hlog)
      old := fun id' log hlog => h.old id' log (hsub id' log hlog) }
  show (vl.logs.erase id).get vl.current = _
  rw [OrdMap.get_erase, if_neg (Nat.ne_of_gt hid), h.log_eq]

/-! ## A batch -/

/-- An append leaves the buffer below its limit. -/
theorem length_buffer_append_lt (l : VLog) (fileId : ℕ) (key : Key) (value : Value) :
    (l.append fileId key value).2.buffer.length < VLog.bufferLimit := by
  unfold VLog.append
  dsimp only
  split_ifs with hfull
  · exact Nat.zero_lt_of_lt (show 0 < VLog.bufferLimit by decide)
  · exact not_le.mp hfull

theorem Ok.room (h : vl.Ok) (env : Env) : (vl.room env).Ok ∧ vl.Appends (vl.room env)
    ∧ (vl.room env).log.currentOffset ≤ env.maxFileSize := by
  unfold Vlogs.room
  split_ifs with hfull
  · refine ⟨h.rotate, h.appends_rotate, ?_⟩
    have hlog : vl.rotate.log = {} := by
      unfold Vlogs.log Vlogs.rotate
      rw [OrdMap.get_insert_self]
      rfl
    rw [hlog]
    exact Nat.zero_le _
  · exact ⟨h, Appends.refl vl, le_of_lt (not_le.mp hfull)⟩

/-- The logs after an append, and the pointer it hands out. -/
theorem Ok.append (h : vl.Ok) {env : Env} (hoff : vl.log.currentOffset ≤ env.maxFileSize)
    {k : Key} {v : Value} (hfit : VLog.FitsRecord (k, v)) :
    let a := vl.log.append vl.current k v
    let vl' : Vlogs := { vl with logs := vl.logs.insert vl.current a.2 }
    vl'.Ok ∧ vl.Appends vl' ∧ Placed vl vl' { a.1 with fileId := vl.current }
      ∧ PointsTo vl' k (some v) { a.1 with fileId := vl.current } := by
  intro a vl'
  have hcons := h.consistent _ _ h.log_eq
  have hwhole := h.whole _ _ h.log_eq
  have hc : a.2.content = vl.log.content ++ VLog.encodeRecord (k, v) := VLog.content_append _ _ _ _
  refine ⟨?_, ?_, fun _ => ⟨le_refl _, a.2, OrdMap.get_insert_self _ _ _⟩, ?_, le_refl _,
    fun log hlog => ?_⟩
  · refine h.insert_current (hcons.append _ _ _) ?_ (length_buffer_append_lt _ _ _ _)
    rw [hc]
    exact hwhole.append hfit
  · refine appends_insert_current h [(k, v)] ?_ (by simpa using hfit)
    rw [hc]
    simp
  · -- no log grows as long as the offset that marks a tombstone
    have hb := h.buffer_lt _ _ h.log_eq
    have hmax := env.maxFileSize_lt
    have hk := u32_lt k.length
    have hlt : vl.log.currentOffset + vl.log.buffer.length + 8 + u32 k.length < uint64Max := by
      unfold VLog.bufferLimit at hb
      unfold uint64Max
      omega
    have hne : ¬ (vl.log.currentOffset + vl.log.buffer.length + 8 + u32 k.length = uint64Max) :=
      Nat.ne_of_lt hlt
    simp [VLogPointer.isTombstone, a, VLog.append, hne]
  · have hlog' : (vl.logs.insert vl.current a.2).get vl.current = some log := hlog
    rw [OrdMap.get_insert_self] at hlog'
    cases hlog'
    exact VLog.recordAt_append hcons hwhole vl.current hfit

/-- **One request gets a pointer that leads to its value.** -/
theorem Ok.place (h : vl.Ok) (env : Env) (act : Memtable) (walId : ℕ) {r : WriteRequest}
    (hfit : r.isDelete = false → VLog.FitsRecord (r.key, r.value)) :
    (vl.place env act walId r).1.Ok ∧ vl.Appends (vl.place env act walId r).1
      ∧ ∀ ptr, (vl.place env act walId r).2 = some ptr →
        vl.Placed (vl.place env act walId r).1 ptr
          ∧ PointsTo (vl.place env act walId r).1 r.key r.op.value ptr := by
  unfold Vlogs.place WriteRequest.op
  by_cases hd : r.isDelete = true
  · rw [if_pos hd, if_pos hd]
    refine ⟨h, Appends.refl vl, fun ptr hptr => ?_⟩
    cases hptr
    have ht := VLogPointer.isTombstone_tombstone walId
    exact ⟨fun hf => absurd (ht.symm.trans hf) (by simp), ht⟩
  · rw [if_neg hd, if_neg hd]
    by_cases hg : (r.isGc && overwritten act r) = true
    · rw [if_pos hg]
      exact ⟨h, Appends.refl vl, fun ptr hptr => by cases hptr⟩
    · rw [if_neg hg]
      obtain ⟨hroom, hgrow, hoff⟩ := h.room env
      obtain ⟨hok, hgrow', hplaced, hptr'⟩ := hroom.append hoff (hfit (Bool.eq_false_iff.mpr hd))
      refine ⟨hok, hgrow.trans hgrow', fun ptr hptr => ?_⟩
      cases hptr
      exact ⟨hplaced.of_appends hgrow, hptr'⟩

/-- **The values of a batch fit** the encoding of a record. -/
def PutsFit (batch : List WriteRequest) : Prop :=
  ∀ r ∈ batch, r.isDelete = false → VLog.FitsRecord (r.key, r.value)

/-- **A batch gets pointers that lead to its values.** -/
theorem Ok.placeAll (h : vl.Ok) (env : Env) (act : Memtable) (walId n : ℕ)
    {batch : List WriteRequest} (hfit : PutsFit batch) :
    (vl.placeAll env act walId n batch).1.Ok ∧ vl.Appends (vl.placeAll env act walId n batch).1
      ∧ ∀ e ∈ (vl.placeAll env act walId n batch).2,
        vl.Placed (vl.placeAll env act walId n batch).1 e.ptr
          ∧ PointsTo (vl.placeAll env act walId n batch).1 e.req.key e.req.op.value e.ptr := by
  induction batch generalizing vl n with
  | nil => exact ⟨h, Appends.refl vl, fun e he => by cases he⟩
  | cons r rs ih =>
    obtain ⟨hok, hgrow, hptr⟩ := h.place env act walId (hfit r List.mem_cons_self)
    obtain ⟨hok', hgrow', hptr'⟩ := ih hok (if r.isGc then n else n + 1)
      (fun q hq => hfit q (List.mem_cons_of_mem r hq))
    unfold Vlogs.placeAll
    dsimp only
    split
    · exact ⟨hok', hgrow.trans hgrow', fun e he =>
        ⟨(hptr' e he).1.of_appends hgrow, (hptr' e he).2⟩⟩
    · rename_i ptr hp
      refine ⟨hok', hgrow.trans hgrow', fun e he => ?_⟩
      rcases List.mem_cons.mp he with rfl | he
      · exact ⟨(hptr ptr hp).1.appends hgrow', (hptr ptr hp).2.grows hgrow'.toGrows⟩
      · exact ⟨(hptr' e he).1.of_appends hgrow, (hptr' e he).2⟩

theorem Ok.startBatch (h : vl.Ok) (env : Env) :
    (vl.startBatch env).Ok ∧ vl.Appends (vl.startBatch env)
      ∧ (vl.Synced → (vl.startBatch env).Synced) := by
  unfold Vlogs.startBatch
  split_ifs
  · exact ⟨h.rotate, h.appends_rotate, fun _ => h.synced_rotate⟩
  · exact ⟨h, Appends.refl vl, id⟩

end Vlogs
