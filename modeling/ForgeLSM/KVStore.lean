import ForgeLSM.History
import ForgeLSM.Lsm
import ForgeLSM.Util.Ring
import ForgeLSM.VLog

/-!
# The store

The state of an open store and the operations on it: the read path through
the memtables, the ring of frozen memtables and the tree of tables to the
value log; the commit of a batch of write requests; the hand-off of a full
memtable to the flush pool and of its WAL segment to removal; and recovery
from what is on disk.

The store holds pointers. For the proofs each pointer carries the *stamp* of
the operation that wrote its value (`Cell`), and the state carries the
history of the operations committed; a flush task likewise carries the WAL
segment and the time its memtable was retired with. None of these is read by
any operation; they say what the pointers mean. A relocation by the garbage
collector gives an old operation a new pointer, so it keeps the operation's stamp.

A commit is two things in a row, the logs and then the memtable (`writeLogs`,
`putAll`), and so is a hand-off, the memtable and then the segment (`swap`,
`rotateWal`). Here each of the two is one action. What comes of a hand-off that falls
inside the commit of another leader is the subject of `Overlap`.

A WAL segment is the list of its records. Value logs are bytes.
-/

/-! ## The parts -/

/-- A pointer and the stamp of the operation it stands for. -/
structure Cell where
  ptr : VLogPointer
  stamp : ℕ
  deriving DecidableEq

instance : Payload Cell := ⟨fun c => c.ptr.isTombstone⟩

/-- A memtable: an ordered map, whatever the skip list under it. -/
abbrev Memtable := OrdMap Key Cell

/-- `KVStore::WriteRequest`. -/
structure WriteRequest where
  key : Key
  value : Value := []
  sync : Bool := true
  isDelete : Bool := false
  isGc : Bool := false
  gcOldVlogId : ℕ := 0
  /-- The stamp of the operation a relocation stands for. -/
  gcStamp : ℕ := 0
  deriving DecidableEq

/-- The operation of a client's request. -/
def WriteRequest.op (r : WriteRequest) : Op :=
  ⟨r.key, if r.isDelete then none else some r.value⟩

/-- The operations of a batch, in order. Relocations are not operations. -/
def userOps (batch : List WriteRequest) : List Op :=
  (batch.filter (fun r => !r.isGc)).map WriteRequest.op

/-- A WAL record: the key, and the pointer or the mark of a delete. -/
structure WalRecord where
  key : Key
  pointer : Option VLogPointer
  stamp : ℕ
  deriving DecidableEq

/-- The write-ahead log: the segments on disk, the buffer of the open one,
and the removals waiting in the compaction pool. -/
structure Wal where
  segments : OrdMap ℕ (List WalRecord)
  buffer : List WalRecord := []
  current : ℕ := 1
  removals : List ℕ := []
  deriving DecidableEq

/-- The value logs that are open, and the one appended to. -/
structure Vlogs where
  logs : OrdMap ℕ VLog
  current : ℕ := 1
  deriving DecidableEq

/-- A task of the flush pool: the frozen memtable and the slot of the ring
that holds it. -/
structure FlushTask where
  slot : Fin 4
  mem : Memtable
  /-- The WAL segment that was retired with the memtable. -/
  walId : ℕ
  /-- How many operations were committed when it was frozen. -/
  upTo : ℕ

/-- How far the flush pool is with the task at its head. -/
inductive FlushPhase where
  | queued
  | written
  | committed
  deriving DecidableEq

/-- A live record of the value log being collected. -/
structure GcRecord where
  key : Key
  value : Value
  stamp : ℕ
  deriving DecidableEq

/-- A run of `run_vlog_gc`: the log it collects, how far it has read, what it
found live, and whether it is still reading. -/
structure GcJob where
  target : ℕ
  offset : ℕ := 0
  scanning : Bool := true
  live : List GcRecord := []
  liveBytes : ℕ := 0
  totalBytes : ℕ := 0
  deriving DecidableEq

/-- **The state of a store.** -/
structure KVStore where
  lsm : Lsm Cell := {}
  active : Memtable := .empty
  /-- The ring of frozen memtables. -/
  immutables : Fin 4 → Option Memtable := fun _ => none
  /-- `current_imm_idx_`, a `uint64_t` of the source. What counts is its value modulo
  the four slots, which a wrap at 2^64 does not change. -/
  currentImmIdx : ℕ := 0
  /-- The tasks of the flush pool, the head being run. -/
  flushQueue : List FlushTask := []
  flushPhase : FlushPhase := .queued
  vlogs : Vlogs := { logs := OrdMap.empty.insert 1 {} }
  wal : Wal := { segments := OrdMap.empty.insert 1 [] }
  gc : Option GcJob := none
  /-- The operations committed. -/
  history : History := []

/-! ## The write-ahead log -/

namespace Wal

/-- The records of the open segment on disk. -/
def open_ (w : Wal) : List WalRecord := (w.segments.get w.current).getD []

/-- `WAL::append` and `WAL::append_delete`, for the records of a batch. -/
def append (w : Wal) (rs : List WalRecord) : Wal := { w with buffer := w.buffer ++ rs }

/-- `WAL::sync`. -/
def sync (w : Wal) : Wal :=
  { w with segments := w.segments.insert w.current (w.open_ ++ w.buffer), buffer := [] }

/-- A segment is opened: it is created when it is not there. -/
def openSegment (segments : OrdMap ℕ (List WalRecord)) (id : ℕ) : OrdMap ℕ (List WalRecord) :=
  segments.insert id ((segments.get id).getD [])

/-- **`KVStore::rotate_wal`**: the next segment is opened and the removal of
the old one is enqueued. What the old one had in its buffer is gone with
it. -/
def rotate (w : Wal) : Wal where
  segments := openSegment w.segments (w.current + 1)
  buffer := []
  current := w.current + 1
  removals := w.removals ++ [w.current]

end Wal

/-! ## The value logs -/

namespace Vlogs

/-- The log appended to. -/
def log (p : Vlogs) : VLog := (p.logs.get p.current).getD {}

/-- A rotation: the log is synced and the next one opened. -/
def rotate (p : Vlogs) : Vlogs :=
  ⟨(p.logs.insert p.current p.log.sync).insert (p.current + 1) {}, p.current + 1⟩

/-- The rotation at the start of a batch. -/
def startBatch (env : Env) (p : Vlogs) : Vlogs :=
  if p.log.currentOffset > env.maxFileSize then p.rotate else p

/-- The value behind what a lookup finds: none for a tombstone, or when its log
is not open or does not have the bytes. -/
def readCell (p : Vlogs) (o : Option Cell) : Option Value :=
  (live o).bind (fun c => (p.logs.get c.ptr.fileId).bind (fun log => log.readAt c.ptr))

/-- The sync of the log appended to. -/
def sync (p : Vlogs) : Vlogs := { p with logs := p.logs.insert p.current p.log.sync }

/-- Whether a relocation finds its key overwritten: the active memtable has
the key, with a file id past the log being collected. A delete's file id is
a WAL id. -/
def overwritten (act : Memtable) (r : WriteRequest) : Bool :=
  match act.get r.key with
  | none => false
  | some c => decide (c.ptr.fileId > r.gcOldVlogId)

/-- The rotation in the middle of a batch, before an append. -/
def room (env : Env) (p : Vlogs) : Vlogs :=
  if p.log.currentOffset ≥ env.maxFileSize then p.rotate else p

/-- **One request in the value-log phase of a commit**: the pointer it gets,
none when it is ignored. -/
def place (env : Env) (act : Memtable) (walId : ℕ) (p : Vlogs) (r : WriteRequest) :
    Vlogs × Option VLogPointer :=
  if r.isDelete then (p, some (.tombstone walId))
  else if r.isGc && overwritten act r then (p, none)
  else
    let p := p.room env
    let a := p.log.append p.current r.key r.value
    ({ p with logs := p.logs.insert p.current a.2 }, some { a.1 with fileId := p.current })

end Vlogs

/-- What a request of a batch writes: its pointer, and the stamp it stands
for. -/
structure Entry where
  req : WriteRequest
  ptr : VLogPointer
  stamp : ℕ
  deriving DecidableEq

/-- The value-log phase of a commit, for requests that follow `n`
operations. -/
def Vlogs.placeAll (env : Env) (act : Memtable) (walId : ℕ) :
    Vlogs → ℕ → List WriteRequest → Vlogs × List Entry
  | p, _, [] => (p, [])
  | p, n, r :: rs =>
    let a := p.place env act walId r
    let rest := placeAll env act walId a.1 (if r.isGc then n else n + 1) rs
    match a.2 with
    | none => rest
    | some ptr => (rest.1, ⟨r, ptr, if r.isGc then r.gcStamp else n + 1⟩ :: rest.2)

namespace Entry

/-- The WAL record of an entry. Relocations have none. -/
def walRecord (e : Entry) : Option WalRecord :=
  if e.req.isGc then none
  else some ⟨e.req.key, if e.req.isDelete then none else some e.ptr, e.stamp⟩

/-- The memtable after an entry is put. -/
def put (m : Memtable) (e : Entry) : Memtable := m.insert e.req.key ⟨e.ptr, e.stamp⟩

end Entry

namespace KVStore

/-! ## Reading -/

/-- The frozen memtables in the order `get` looks at them, newest first. -/
def ringScan (s : KVStore) : List Memtable := Ring.scan s.immutables s.currentImmIdx

/-- **The search of `KVStore::get`**: the active memtable, the ring, the tree
of tables. -/
def lookup (env : Env) (s : KVStore) (k : Key) : Option Cell :=
  ((s.active :: s.ringScan).findSome? (fun m => m.get k)).or (s.lsm.lookup env k)

/-- `KVStore::get_pointer`. -/
def getPointer (env : Env) (s : KVStore) (k : Key) : Option VLogPointer :=
  (live (s.lookup env k)).map Cell.ptr

/-- **`KVStore::get`.** -/
def get (env : Env) (s : KVStore) (k : Key) : Option Value := s.vlogs.readCell (s.lookup env k)

/-! ## Writing -/

/-- The value-log phase of the commit of a batch. -/
def plan (env : Env) (s : KVStore) (batch : List WriteRequest) : Vlogs × List Entry :=
  (s.vlogs.startBatch env).placeAll env s.active s.wal.current s.history.length batch

/-- The logs of a commit: its values are synced if a request asks for it, and its
records appended to the WAL. -/
def writeLogs (s : KVStore) (batch : List WriteRequest) (p : Vlogs × List Entry) : KVStore :=
  let needsSync := batch.any WriteRequest.sync
  let wal := s.wal.append (p.2.filterMap Entry.walRecord)
  { s with
    vlogs := if needsSync then p.1.sync else p.1
    wal := if needsSync then wal.sync else wal }

/-- The puts of a commit. -/
def putAll (s : KVStore) (batch : List WriteRequest) (es : List Entry) : KVStore :=
  { s with active := es.foldl Entry.put s.active, history := s.history ++ userOps batch }

/-- **The commit of a batch** by its leader: the value logs, the WAL, the
memtable. -/
def commit (env : Env) (s : KVStore) (batch : List WriteRequest) : KVStore :=
  let p := s.plan env batch
  (s.writeLogs batch p).putAll batch p.2

/-- The first half of `KVStore::maybe_flush`: the memtable goes to the ring, once
the slot is free, and its flush is queued. How full a memtable is, its allocator
says; any may be. -/
def swap (s : KVStore) : Option KVStore :=
  let slot := Ring.slotOf 4 s.currentImmIdx
  if (s.immutables slot).isSome then none
  else some
    { s with
      immutables := Function.update s.immutables slot (some s.active)
      currentImmIdx := s.currentImmIdx + 1
      active := .empty
      flushQueue := s.flushQueue ++ [⟨slot, s.active, s.wal.current, s.history.length⟩] }

/-- The second half: `KVStore::rotate_wal`. -/
def rotateWal (s : KVStore) : KVStore := { s with wal := s.wal.rotate }

/-- **`KVStore::maybe_flush`** of a memtable that is full. -/
def maybeFlush (s : KVStore) : Option KVStore := s.swap.map rotateWal

/-! ## Recovery -/

/-- The name `wal_%06u.log`, without the directory. -/
def walName (id : ℕ) : FileName := [119, 97, 108, 95] ++ padDecimal 6 id ++ [46, 108, 111, 103]

/-- `WAL::MAX_FIELD_SIZE`. -/
def maxFieldSize : ℕ := 64 * 1024 * 1024

/-- `WAL::replay`: it stops at a key too long to be believed. -/
def replay (rs : List WalRecord) : List WalRecord :=
  rs.takeWhile (fun r => decide (r.key.length ≤ maxFieldSize))

/-- The entry a replayed record puts. A tombstone gets the WAL id the store
has before it has looked, 1. -/
def replayCell (r : WalRecord) : Cell := ⟨r.pointer.getD (.tombstone 1), r.stamp⟩

/-- The segments in the order they are replayed: by path. -/
def walOrder (env : Env) (w : Wal) : List ℕ :=
  env.stdSort.sort (fun a b => decide (walName a < walName b)) w.segments.keys

/-- The records in the order they are replayed. -/
def replayed (env : Env) (w : Wal) : List WalRecord :=
  (walOrder env w).flatMap (fun id => replay ((w.segments.get id).getD []))

/-- **`KVStore::recover`**, on what a process that is gone has left on
disk. -/
def recover (env : Env) (s : KVStore) : KVStore :=
  let maxVlogId := s.vlogs.logs.maxKey
  let logs := s.vlogs.logs.mapValues (fun l => VLog.openFile l.file)
  let maxWalId := s.wal.segments.maxKey
  let walId := if maxWalId > 0 then maxWalId else 1
  { lsm := s.lsm.reopen env
    active := (replayed env s.wal).foldl (fun m r => m.insert r.key (replayCell r)) .empty
    vlogs :=
      if maxVlogId = 0 then { logs := logs.insert 1 {}, current := 1 }
      else { logs := logs, current := maxVlogId }
    wal :=
      { segments := Wal.openSegment s.wal.segments walId
        current := walId }
    history := s.history }

/-- What is on disk when the process is killed in the commit of a batch: the
records of the value log, and the first `n` records on their way to the
WAL. -/
def kill (env : Env) (s : KVStore) (batch : List WriteRequest) (n : ℕ) : KVStore :=
  let p := s.plan env batch
  { s with
    vlogs := p.1.sync
    wal := { s.wal with
      segments := s.wal.segments.insert s.wal.current (s.wal.open_
        ++ (s.wal.buffer ++ p.2.filterMap Entry.walRecord).take n) }
    history := s.history ++ (userOps batch).take (n - s.wal.buffer.length) }

end KVStore
