import ForgeLSM.FileTree
import ForgeLSM.SkipListMap
import ForgeLSM.WalReplay

/-!
# The store, in bytes and nodes

`KVStore` is the store with ordered maps for its memtables, lists of records for
the segments of its WAL, and tables for the files of its tree. Here it is with
what the process has: memtables are skip lists of linked nodes, every file is its
bytes, and a recovery starts from bytes alone. Nothing is kept for the proofs'
sake: no stamps, no history.

The steps are those of `KVStore.step`, but for the compaction, which is taken
round by round. Every one of them can fault – follow a link that is not there,
read past the end of a block, find a table that does not load.

`FileStore.Rep` says what such a store stands for. `Reads` is the part of it that
a read depends on.
-/

/-! ## A memtable -/

namespace SkipList

/-- What is not defined is a fault. -/
def orFault {α : Type} : Option α → Except TableError α
  | some a => .ok a
  | none => .error .outOfBounds

/-- As many steps as a search or a walk can take. -/
def fuel (m : SkipList) : ℕ := m.nodes.length + kMaxHeight

/-- `Memtable::get`. -/
def find (m : SkipList) (k : Key) : Except TableError (Option VLogPointer) :=
  orFault (m.get m.fuel k)

/-- The entries from `begin` on. -/
def contents (m : SkipList) : Except TableError (List (Key × VLogPointer)) :=
  orFault (m.seekToFirst.bind (m.collect m.fuel))

/-- The puts of some entries, whose heights are drawn. -/
def drawPuts (heights : ℕ → Height) (es : List (Key × VLogPointer)) : List SkipPut :=
  es.zipIdx.map (fun e => ⟨e.1.1, e.1.2, heights e.2⟩)

/-- `Memtable::put`, for one entry after the other. -/
def putEach (m : SkipList) (heights : ℕ → Height) (es : List (Key × VLogPointer)) :
    Except TableError SkipList :=
  orFault (putAll (m.fuel + es.length) m (drawPuts heights es))

end SkipList

/-! ## The write-ahead log -/

/-- The WAL: the bytes of the segments, those buffered for the open one, and the
removals waiting. -/
structure FileWal where
  files : OrdMap ℕ (List Byte)
  buffer : List Byte := []
  current : ℕ := 1
  removals : List ℕ := []

namespace FileWal

/-- The bytes of the open segment. -/
def open_ (w : FileWal) : List Byte := (w.files.get w.current).getD []

/-- `WAL::append` and `WAL::append_delete`. -/
def append (w : FileWal) (calls : List WALCall) : FileWal :=
  { w with buffer := w.buffer ++ calls.flatMap WALCall.bytes }

/-- `WAL::sync`. -/
def sync (w : FileWal) : FileWal :=
  { w with files := w.files.insert w.current (w.open_ ++ w.buffer), buffer := [] }

/-- A segment is opened: it is created when it is not there. -/
def openSegment (files : OrdMap ℕ (List Byte)) (id : ℕ) : OrdMap ℕ (List Byte) :=
  files.insert id ((files.get id).getD [])

/-- **`KVStore::rotate_wal`.** -/
def rotate (w : FileWal) : FileWal where
  files := openSegment w.files (w.current + 1)
  current := w.current + 1
  removals := w.removals ++ [w.current]

/-- What the segments replay to, taken by path. -/
def replayed (env : Env) (w : FileWal) : List WALEntry :=
  (env.stdSort.sort (fun a b => decide (KVStore.walName a < KVStore.walName b))
    w.files.keys).flatMap (fun id => (WAL.replay ((w.files.get id).getD [])).entries)

end FileWal

/-! ## The store -/

/-- A task of the flush pool. -/
structure FileTask where
  slot : Fin 4
  mem : SkipList

/-- A run of `run_vlog_gc`. -/
structure FileGc where
  target : ℕ
  offset : ℕ := 0
  scanning : Bool := true
  live : List VRecord := []
  liveBytes : ℕ := 0
  totalBytes : ℕ := 0

/-- **The state of a store.** -/
structure FileStore where
  tree : FileTree := {}
  active : SkipList := .init
  immutables : Fin 4 → Option SkipList := fun _ => none
  currentImmIdx : ℕ := 0
  flushQueue : List FileTask := []
  flushPhase : FlushPhase := .queued
  vlogs : Vlogs := { logs := OrdMap.empty.insert 1 {} }
  wal : FileWal := { files := OrdMap.empty.insert 1 [] }
  gc : Option FileGc := none

namespace FileStore

/-! ### Reading -/

/-- The memtables in the order `get` looks at them. -/
def memtables (s : FileStore) : List SkipList :=
  s.active :: Ring.scan s.immutables s.currentImmIdx

/-- **The search of `KVStore::get`.** -/
def lookup (env : Env) (s : FileStore) (k : Key) : Except TableError (Option VLogPointer) := do
  match ← findSomeE (fun m => m.find k) s.memtables with
  | some ptr => .ok (some ptr)
  | none => s.tree.lookup env k

/-- **`KVStore::get_pointer`.** -/
def getPointer (env : Env) (s : FileStore) (k : Key) : Except TableError (Option VLogPointer) := do
  let found ← s.lookup env k
  .ok (live found)

/-- **`KVStore::get`.** -/
def get (env : Env) (s : FileStore) (k : Key) : Except TableError (Option Value) := do
  let found ← s.getPointer env k
  .ok (found.bind (fun ptr => (s.vlogs.logs.get ptr.fileId).bind (fun log => log.readAt ptr)))

/-! ### Writing -/

/-- Whether a request is a relocation and finds its key overwritten. -/
def overwritten (act : SkipList) (r : WriteRequest) : Except TableError Bool :=
  if r.isGc then do
    let found ← act.find r.key
    .ok (found.any (fun ptr => decide (ptr.fileId > r.gcOldVlogId)))
  else .ok false

/-- **One request in the value-log phase of a commit.** -/
def place (env : Env) (act : SkipList) (walId : ℕ) (p : Vlogs) (r : WriteRequest) :
    Except TableError (Vlogs × Option VLogPointer) :=
  if r.isDelete then .ok (p, some (.tombstone walId))
  else do
    let gone ← overwritten act r
    if gone then .ok (p, none)
    else
      let p := p.room env
      let a := p.log.append p.current r.key r.value
      .ok ({ p with logs := p.logs.insert p.current a.2 }, some { a.1 with fileId := p.current })

/-- The value-log phase of a commit. -/
def placeAll (env : Env) (act : SkipList) (walId : ℕ) :
    Vlogs → List WriteRequest → Except TableError (Vlogs × List (WriteRequest × VLogPointer))
  | p, [] => .ok (p, [])
  | p, r :: rs => do
    let a ← place env act walId p r
    let rest ← placeAll env act walId a.1 rs
    .ok (rest.1, a.2.toList.map (fun ptr => (r, ptr)) ++ rest.2)

/-- The record of a request. Relocations have none. -/
def walCall (e : WriteRequest × VLogPointer) : Option WALCall :=
  if e.1.isGc then none
  else some (if e.1.isDelete then .appendDelete e.1.key else .append e.1.key e.2)

/-- The value-log phase of the commit of a batch. -/
def plan (env : Env) (s : FileStore) (batch : List WriteRequest) :
    Except TableError (Vlogs × List (WriteRequest × VLogPointer)) :=
  placeAll env s.active s.wal.current (s.vlogs.startBatch env) batch

/-- **The commit of a batch.** -/
def commit (env : Env) (s : FileStore) (batch : List WriteRequest) (heights : ℕ → Height) :
    Except TableError FileStore := do
  let p ← s.plan env batch
  let needsSync := batch.any WriteRequest.sync
  let wal := s.wal.append (p.2.filterMap walCall)
  let active ← s.active.putEach heights (p.2.map (fun e => (e.1.key, e.2)))
  .ok { s with
    vlogs := if needsSync then p.1.sync else p.1
    wal := if needsSync then wal.sync else wal
    active := active }

/-- **`KVStore::maybe_flush`** of a memtable that is full. -/
def maybeFlush (s : FileStore) : Option FileStore :=
  let slot := Ring.slotOf 4 s.currentImmIdx
  if (s.immutables slot).isSome then none
  else some
    { s with
      immutables := Function.update s.immutables slot (some s.active)
      currentImmIdx := s.currentImmIdx + 1
      active := .init
      wal := s.wal.rotate
      flushQueue := s.flushQueue ++ [⟨slot, s.active⟩] }

/-! ### Flushing and compaction -/

/-- The flush pool starts on the task at its head. -/
def flushStart (env : Env) (s : FileStore) : Except TableError (Option FileStore) :=
  match s.flushQueue, s.flushPhase with
  | t :: _, .queued => do
    let entries ← t.mem.contents
    let tree ← s.tree.flushStart env entries
    .ok (tree.map (fun tree =>
      { s with tree := tree, flushPhase := if tree.flushing.isSome then .written else .committed }))
  | _, _ => .ok none

/-- The table it has written is logged. -/
def flushCommit (env : Env) (s : FileStore) : Option FileStore :=
  match s.flushPhase with
  | .written => (s.tree.flushCommit env).map (fun tree =>
      { s with tree := tree, flushPhase := .committed })
  | _ => none

section

variable (s : FileStore)

/-- The end of the task. -/
def flushClear : Option FileStore :=
  match s.flushQueue, s.flushPhase with
  | t :: rest, .committed => some
      { s with
        immutables := Function.update s.immutables t.slot none
        flushQueue := rest
        flushPhase := .queued }
  | _, _ => none

/-- A step of the tree that is not a flush's. -/
def onTree (step : FileTree → Option FileTree) : Option FileStore :=
  (step s.tree).map (fun tree => { s with tree := tree })

/-- Likewise, one that can fault. -/
def onTreeE (step : FileTree → Except TableError (Option FileTree)) :
    Except TableError (Option FileStore) := do
  let tree ← step s.tree
  .ok (tree.map (fun tree => { s with tree := tree }))

/-! ### Removing WAL segments -/

/-- A removal task runs. -/
def walRemove (id : ℕ) : Option FileStore :=
  if id ∈ s.wal.removals then some
    { s with
      wal := { s.wal with
        files := s.wal.files.erase id
        removals := s.wal.removals.erase id } }
  else none

/-- A removal task fails. -/
def walRemoveFail (id : ℕ) : Option FileStore :=
  if id ∈ s.wal.removals then some
    { s with wal := { s.wal with removals := s.wal.removals.erase id } }
  else none

/-! ### Garbage collection -/

/-- The oldest value log behind the one appended to. -/
def gcTarget : Option ℕ :=
  if s.vlogs.logs.keys.length > 1 then
    s.vlogs.logs.keys.find? (fun id => decide (id < s.vlogs.current))
  else none

/-- `run_vlog_gc` picks its log. -/
def gcStart : Option FileStore :=
  if s.gc.isSome then none else some { s with gc := s.gcTarget.map (fun id => { target := id }) }

end

/-- Whether a record of the log is live. -/
def isLive (env : Env) (s : FileStore) (job : FileGc) (r : VRecord) : Except TableError Bool := do
  let found ← s.getPointer env r.1
  .ok (found.any (fun ptr =>
    decide (ptr.fileId = job.target ∧ ptr.offset = job.offset + 8 + r.1.length)))

/-- One round of the scan. -/
def gcScan (env : Env) (s : FileStore) : Except TableError (Option FileStore) :=
  match s.gc with
  | none => .ok none
  | some job =>
    if job.scanning then
      match (s.vlogs.logs.get job.target).bind (fun log => log.readNext job.offset) with
      | some (r, next) => do
        let size := r.1.length + r.2.length
        let live ← s.isLive env job r
        .ok (some { s with gc := some { job with
          offset := next
          live := if live then job.live ++ [r] else job.live
          liveBytes := if live then job.liveBytes + size else job.liveBytes
          totalBytes := job.totalBytes + size } })
      | none =>
        if job.totalBytes > 0 ∧ 2 * job.liveBytes > job.totalBytes then
          .ok (some { s with gc := none })
        else .ok (some { s with gc := some { job with scanning := false } })
    else .ok none

/-- The relocation the collector has in the queue. -/
def gcPending (s : FileStore) : Option WriteRequest :=
  match s.gc with
  | none => none
  | some job =>
    if job.scanning then none
    else job.live.head?.map (fun r =>
      { key := r.1, value := r.2, isGc := true, gcOldVlogId := job.target })

/-- The relocations of a batch are what the collector has in the queue. -/
def gcEnabled (s : FileStore) (batch : List WriteRequest) : Bool :=
  match batch.filter WriteRequest.isGc with
  | [] => true
  | [r] => decide (s.gcPending = some r)
  | _ => false

/-- The collector after the commit of a batch. -/
def gcAfter (s : FileStore) (batch : List WriteRequest) : Option FileGc :=
  if batch.any WriteRequest.isGc then s.gc.map (fun job => { job with live := job.live.tail })
  else s.gc

/-- All is relocated, and the file is removed. -/
def gcFinish (s : FileStore) : Option FileStore :=
  match s.gc with
  | none => none
  | some job =>
    if job.scanning = false ∧ job.live = [] then some
      { s with
        vlogs := { s.vlogs with logs := s.vlogs.logs.erase job.target }
        gc := none }
    else none

/-! ### Recovery -/

/-- What is on disk when the process is killed in the commit of a batch: the
records of the value log, and so many bytes of those on their way to the WAL. -/
def kill (env : Env) (s : FileStore) (batch : List WriteRequest) (n : ℕ) :
    Except TableError FileStore := do
  let p ← s.plan env batch
  .ok { s with
    vlogs := p.1.sync
    wal := { s.wal with
      files := s.wal.files.insert s.wal.current (s.wal.open_
        ++ (s.wal.buffer ++ (p.2.filterMap walCall).flatMap WALCall.bytes).take n) } }

/-- What a replayed record puts. -/
def replayPut (e : WALEntry) : Key × VLogPointer :=
  (e.key, if e.isTombstone then .tombstone 1 else e.pointer)

/-- The store that is opened on what is on disk, with a memtable. -/
def reopened (env : Env) (s : FileStore) (active : SkipList) : FileStore :=
  let maxVlogId := s.vlogs.logs.maxKey
  let logs := s.vlogs.logs.mapValues (fun l => VLog.openFile l.file)
  let maxWalId := s.wal.files.maxKey
  let walId := if maxWalId > 0 then maxWalId else 1
  { tree := s.tree.recover env
    active := active
    vlogs :=
      if maxVlogId = 0 then { logs := logs.insert 1 {}, current := 1 }
      else { logs := logs, current := maxVlogId }
    wal := { files := FileWal.openSegment s.wal.files walId, current := walId } }

/-- **`KVStore::recover`.** -/
def recover (env : Env) (s : FileStore) (heights : ℕ → Height) : Except TableError FileStore := do
  -- tables are opened ahead of their use
  let _ ← collectE s.tree.reader (activeSsts (s.tree.recover env).vs.current)
  let active ← SkipList.init.putEach heights ((s.wal.replayed env).map replayPut)
  .ok (s.reopened env active)

end FileStore

/-! ## The machine -/

/-- What happens, and how high the nodes are that it makes. The output of a
compaction is a round of its loop, and the number of a kill that of the bytes that
reach the WAL. -/
abbrev FileAction := EngineAction × (ℕ → Height)

/-- **One step of the store.** -/
def FileStore.step (env : Env) (Q : StdQueue) (s : FileStore) :
    FileAction → Except TableError (Option FileStore)
  | (.commit batch, heights) =>
    if s.gcEnabled batch then do
      let s' ← s.commit env batch heights
      .ok (some { s' with gc := s.gcAfter batch })
    else .ok none
  | (.maybeFlush, _) => .ok s.maybeFlush
  | (.flushStart, _) => s.flushStart env
  | (.flushCommit, _) => .ok (s.flushCommit env)
  | (.flushClear, _) => .ok s.flushClear
  | (.compactStart, _) => s.onTreeE (FileTree.compactStart env)
  | (.compactOutput, _) => s.onTreeE (FileTree.compactOutput env Q)
  | (.compactCommit, _) => .ok (s.onTree (FileTree.compactCommit env))
  | (.purgeObsoleteFiles, _) => .ok (s.onTree FileTree.purgeObsoleteFiles)
  | (.walRemove id, _) => .ok (s.walRemove id)
  | (.walRemoveFail id, _) => .ok (s.walRemoveFail id)
  | (.gcStart, _) => .ok s.gcStart
  | (.gcScan, _) => s.gcScan env
  | (.gcFinish, _) => .ok s.gcFinish
  | (.crash batch n, heights) =>
    if s.gcEnabled batch then do
      let killed ← s.kill env batch n
      let s' ← killed.recover env heights
      .ok (some s')
    else .ok none

/-! ## What a store stands for -/

/-- **A skip list stands for a memtable.** -/
structure MemRep (m : SkipList) (a : Memtable) : Prop where
  rep : ∃ order, m.Rep order (a.mapValues Cell.ptr)
  fits : ∀ e ∈ a.entries, EntryFits (e.1, e.2.ptr)

theorem SkipList.map_drawPuts (heights : ℕ → Height) (es : List (Key × VLogPointer)) :
    (drawPuts heights es).map (fun p => (p.key, p.ptr)) = es := by
  unfold drawPuts
  rw [List.map_map]
  exact List.zipIdx_map_fst 0 es

namespace MemRep

variable {m : SkipList} {a : Memtable}

section Insert

variable {γ : Type} (key : γ → Key) (cell : γ → Cell)

/-- Cells are inserted with their pointers. -/
theorem mapValues_foldl_insert (l : List γ) (a : Memtable) :
    (l.foldl (fun a x => a.insert (key x) (cell x)) a).mapValues Cell.ptr
      = (l.map (fun x => (key x, (cell x).ptr))).foldl (fun m e => m.insert e.1 e.2)
        (a.mapValues Cell.ptr) := by
  induction l generalizing a with
  | nil => rfl
  | cons x l ih =>
    rw [List.foldl_cons, ih, OrdMap.mapValues_insert, List.map_cons, List.foldl_cons]

theorem fits_foldl_insert {l : List γ} (ha : ∀ e ∈ a.entries, EntryFits (e.1, e.2.ptr))
    (hl : ∀ x ∈ l, EntryFits (key x, (cell x).ptr)) :
    ∀ e ∈ (l.foldl (fun a x => a.insert (key x) (cell x)) a).entries,
      EntryFits (e.1, e.2.ptr) := by
  induction l generalizing a with
  | nil => exact ha
  | cons x l ih =>
    obtain ⟨hx, hl⟩ := List.forall_mem_cons.mp hl
    refine ih (fun e he => ?_) hl
    rcases mem_insertAssoc he with rfl | he
    · exact hx
    · exact ha e he

/-- **Entries are put as they are inserted**, however high their nodes. -/
theorem putEach (h : MemRep m a) (heights : ℕ → Height) {l : List γ}
    (hkeys : ∀ x ∈ l, (key x).length < 2 ^ 32) :
    ∃ m', m.putEach heights (l.map (fun x => (key x, (cell x).ptr))) = .ok m'
      ∧ ((∀ x ∈ l, (cell x).ptr.Fits) →
        MemRep m' (l.foldl (fun a x => a.insert (key x) (cell x)) a)) := by
  obtain ⟨order, hrep⟩ := h.rep
  generalize hes : l.map (fun x => (key x, (cell x).ptr)) = es
  have hputs := SkipList.map_drawPuts heights es
  have hlen := congrArg List.length hputs
  rw [List.length_map] at hlen
  have hpkeys : ∀ p ∈ SkipList.drawPuts heights es, p.key.length < 2 ^ 32 := by
    intro p hp
    have hmem : (p.key, p.ptr) ∈ es := hputs ▸ List.mem_map_of_mem hp
    rw [← hes] at hmem
    obtain ⟨x, hx, heq⟩ := List.mem_map.mp hmem
    have hkey : key x = p.key := congrArg Prod.fst heq
    exact hkey ▸ hkeys x hx
  have hfuel : m.nodes.length + (SkipList.drawPuts heights es).length + kMaxHeight
      ≤ m.fuel + es.length := by
    rw [hlen]
    unfold SkipList.fuel
    omega
  obtain ⟨m', order', hrun, hrep', -⟩ := SkipList.putAll_spec hpkeys hrep hfuel
  refine ⟨m', ?_, fun hfits => ⟨⟨order', ?_⟩,
    fits_foldl_insert key cell h.fits (fun x hx => ⟨hkeys x hx, hfits x hx⟩)⟩⟩
  · unfold SkipList.putEach
    rw [hrun]
    rfl
  · rw [mapValues_foldl_insert, hes, ← hputs, List.foldl_map]
    exact hrep'

end Insert

theorem init : MemRep .init .empty where
  rep := ⟨[], SkipList.rep_init⟩
  fits e he := by cases he

theorem find (h : MemRep m a) (k : Key) : m.find k = .ok ((a.get k).map Cell.ptr) := by
  obtain ⟨order, hrep⟩ := h.rep
  unfold SkipList.find
  rw [hrep.get k (show _ ≤ m.fuel from le_rfl), OrdMap.get_mapValues]
  rfl

theorem contents (h : MemRep m a) : m.contents = .ok (a.mapValues Cell.ptr).entries := by
  obtain ⟨order, hrep⟩ := h.rep
  unfold SkipList.contents
  rw [hrep.collect_first (show _ ≤ m.fuel from le_rfl)]
  rfl

end MemRep

/-- The record is one that replay believes, and its pointer fits its types. -/
structure WalRecord.Sound (r : WalRecord) : Prop where
  call : r.call.Sound
  fits : ∀ p ∈ r.pointer, p.Fits

/-- **Bytes stand for records.** -/
structure SegmentRep (file : List Byte) (rs : List WalRecord) : Prop where
  written : file = rs.flatMap (fun r => r.call.bytes)
  sound : ∀ r ∈ rs, r.Sound

/-- **Bytes replay to records.** There may be more of them than the records have. -/
structure ReplaysTo (file : List Byte) (rs : List WalRecord) : Prop where
  entries : (WAL.replay file).entries = rs.map (fun r => r.call.entry)
  sound : ∀ r ∈ rs, r.Sound

namespace SegmentRep

variable {file file' : List Byte} {rs rs' : List WalRecord}

theorem nil : SegmentRep [] [] := ⟨rfl, fun _ hr => by cases hr⟩

theorem append (h : SegmentRep file rs) (h' : SegmentRep file' rs') :
    SegmentRep (file ++ file') (rs ++ rs') where
  written := by rw [h.written, h'.written, List.flatMap_append]
  sound r hr := (List.mem_append.mp hr).elim (h.sound r) (h'.sound r)

theorem getD {o : Option (List Byte)} {o' : Option (List WalRecord)}
    (h : Option.Rel SegmentRep o o') : SegmentRep (o.getD []) (o'.getD []) := by
  cases h with
  | none => exact nil
  | some h => exact h

/-- **Records that are followed by bytes of which nothing is replayed.** -/
theorem replaysTo (h : SegmentRep file rs) {tail : List Byte} {rs' : List WalRecord}
    (htail : ReplaysTo tail rs') : ReplaysTo (file ++ tail) (rs ++ rs') where
  entries := by
    have hsound : ∀ c ∈ rs.map WalRecord.call, c.Sound := by
      rintro _ hc
      obtain ⟨r, hr, rfl⟩ := List.mem_map.mp hc
      exact (h.sound r hr).call
    rw [h.written, ← List.flatMap_map, WALCall.entries_replay_flatMap hsound, htail.entries,
      List.map_map, List.map_append]
    rfl
  sound r hr := (List.mem_append.mp hr).elim (h.sound r) (htail.sound r)

end SegmentRep

theorem ReplaysTo.nil : ReplaysTo [] [] := ⟨rfl, fun _ hr => by cases hr⟩

/-- **A WAL stands for one.** -/
structure WalRep (w : FileWal) (w' : Wal) : Prop where
  files : ∀ id, Option.Rel SegmentRep (w.files.get id) (w'.segments.get id)
  buffer : SegmentRep w.buffer w'.buffer
  current : w.current = w'.current
  removals : w.removals = w'.removals

namespace WalRep

variable {w : FileWal} {w' : Wal}

theorem open_ (h : WalRep w w') : SegmentRep w.open_ w'.open_ := by
  unfold FileWal.open_ Wal.open_
  rw [h.current]
  exact SegmentRep.getD (h.files _)

theorem append (h : WalRep w w') {calls : List WALCall} {rs : List WalRecord}
    (hrs : SegmentRep (calls.flatMap WALCall.bytes) rs) : WalRep (w.append calls) (w'.append rs) :=
  { h with buffer := h.buffer.append hrs }

theorem sync (h : WalRep w w') : WalRep w.sync w'.sync where
  files := by
    unfold FileWal.sync Wal.sync
    rw [h.current]
    exact rel_insert h.files _ (h.open_.append h.buffer)
  buffer := SegmentRep.nil
  current := h.current
  removals := h.removals

theorem openSegment {files : OrdMap ℕ (List Byte)} {segments : OrdMap ℕ (List WalRecord)}
    (h : ∀ id, Option.Rel SegmentRep (files.get id) (segments.get id)) (i id : ℕ) :
    Option.Rel SegmentRep ((FileWal.openSegment files i).get id)
      ((Wal.openSegment segments i).get id) :=
  rel_insert h i (SegmentRep.getD (h i)) id

theorem rotate (h : WalRep w w') : WalRep w.rotate w'.rotate where
  files := by
    unfold FileWal.rotate Wal.rotate
    rw [h.current]
    exact openSegment h.files _
  buffer := SegmentRep.nil
  current := congrArg (· + 1) h.current
  removals := by
    unfold FileWal.rotate Wal.rotate
    rw [h.removals, h.current]

end WalRep

/-- A run of the collector, without the stamps of its records. -/
def GcJob.erase (job : GcJob) : FileGc :=
  { job with live := job.live.map (fun r => (r.key, r.value)) }

/-- A task of the flush pool stands for one. -/
structure TaskRep (t : FileTask) (t' : FlushTask) : Prop where
  slot : t.slot = t'.slot
  mem : MemRep t.mem t'.mem

namespace FileStore

/-- **What a read depends on stands for what it should.** -/
structure Reads (env : Env) (c : FileStore) (s : KVStore) : Prop where
  tree : c.tree.Rep env Cell.ptr s.lsm
  active : MemRep c.active s.active
  immutables : ∀ i, Option.Rel MemRep (c.immutables i) (s.immutables i)
  currentImmIdx : c.currentImmIdx = s.currentImmIdx
  vlogs : c.vlogs = s.vlogs

/-- **A store of bytes and nodes stands for a store.** The segments retired with the
memtables that wait are the last ones. -/
structure Rep (env : Env) (c : FileStore) (s : KVStore) : Prop extends Reads env c s where
  flushQueue : List.Forall₂ TaskRep c.flushQueue s.flushQueue
  flushPhase : c.flushPhase = s.flushPhase
  wal : WalRep c.wal s.wal
  gc : c.gc = s.gc.map GcJob.erase
  walIds : ∀ j t, s.flushQueue[j]? = some t → t.walId + s.flushQueue.length = s.wal.current + j

variable {env : Env} {c c' : FileStore} {s s' : KVStore}

/-- A store just created. -/
theorem rep_fresh : Rep env {} {} where
  tree := FileTree.rep_empty
  active := MemRep.init
  immutables _ := .none
  currentImmIdx := rfl
  vlogs := rfl
  flushQueue := .nil
  flushPhase := rfl
  wal :=
    { files := rel_insert (fun _ => .none) 1 SegmentRep.nil
      buffer := SegmentRep.nil
      current := rfl
      removals := rfl }
  gc := rfl
  walIds j t ht := by cases ht

/-! ### Reading -/

section Reading

variable (hk : env.FiltersFit)

include hk

/-- **A lookup does not fault, and finds the pointer it should.** -/
theorem Reads.lookup_eq (h : Reads env c s) (k : Key) :
    c.lookup env k = .ok ((s.lookup env k).map Cell.ptr) := by
  have hmems : List.Forall₂ MemRep c.memtables (s.active :: s.ringScan) := by
    unfold memtables KVStore.ringScan
    rw [h.currentImmIdx]
    exact .cons h.active (Ring.forall₂_scan h.immutables _)
  unfold FileStore.lookup KVStore.lookup
  rw [findSomeE_of_forall₂ hmems (fun m a hm => hm.find k)]
  cases (s.active :: s.ringScan).findSome? (fun m => m.get k) with
  | none => exact h.tree.lookup_eq hk k
  | some cell => rfl

theorem Reads.getPointer_eq (h : Reads env c s) (k : Key) :
    c.getPointer env k = .ok (s.getPointer env k) := by
  unfold FileStore.getPointer KVStore.getPointer
  rw [h.lookup_eq hk k]
  cases s.lookup env k with
  | none => rfl
  | some cell =>
    show Except.ok (if cell.ptr.isTombstone then none else some cell.ptr)
      = Except.ok ((if cell.ptr.isTombstone then none else some cell).map Cell.ptr)
    split_ifs <;> rfl

/-- **A read does not fault, and returns what it should.** -/
theorem Reads.get_eq (h : Reads env c s) (k : Key) : c.get env k = .ok (s.get env k) := by
  unfold FileStore.get KVStore.get Vlogs.readCell
  rw [h.getPointer_eq hk k, KVStore.getPointer, h.vlogs]
  cases live (s.lookup env k) <;> rfl

end Reading

end FileStore
