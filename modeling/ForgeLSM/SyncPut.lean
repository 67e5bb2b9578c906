import ForgeLSM.WalFile

/-!
# The sizes of a put

`put` takes any key and any value. The logs it writes them to have 32 bits for a
size: `VLog::append` cuts both sizes to 32 bits and adds them up in 32 bits,
`WAL::append` cuts the size of the key, and the reader of the WAL believes no key
of more than 64 MiB and takes one length of a value for the mark of a delete.
None of this is checked when the put is made.

So a put that returned is what the logs say exactly when its record is shorter
than 2^32 bytes and its key is one the reader believes
(`PutLogs.put_represented_iff`). A longer key does not only lose its own put: the
replay stops there, and what was put after it is lost as well.
-/

/-- The two logs a put goes to. -/
structure PutLogs where
  vlog : VLog
  wal : WAL

namespace PutLogs

/-- **A put with `sync`**, all writes succeeding: the value log takes the record
and is synced, then the WAL takes the pointer and is synced. The pointer is what
the memtable gets. -/
def put (l : PutLogs) (fileId : ℕ) (key : Key) (value : Value) : VLogPointer × PutLogs :=
  let a := l.vlog.append fileId key value
  (a.1, { vlog := a.2.sync, wal := (l.wal.append key a.1).sync })

/-- The bytes that a put adds to the file of the WAL. -/
def walRecord (l : PutLogs) (fileId : ℕ) (key : Key) (value : Value) : List Byte :=
  (l.put fileId key value).2.wal.file.drop l.wal.sync.file.length

/-- **The put is what the logs say it is**: its record in the value log has all of
its key and value, the pointer has the length of the value, the record in the WAL
has the length of the key, and a replay reads the put back and goes on behind
it. -/
structure Represented (l : PutLogs) (fileId : ℕ) (key : Key) (value : Value) : Prop where
  vlog : (l.put fileId key value).2.vlog.file.length
    = l.vlog.content.length + (8 + key.length + value.length)
  length : (l.put fileId key value).1.length = value.length
  keySize : leAt 4 (l.walRecord fileId key value) 0 = key.length
  replay : ∀ later : List Byte, (WAL.replay (l.walRecord fileId key value ++ later)).entries
    = ⟨key, (l.put fileId key value).1, false⟩ :: (WAL.replay later).entries

variable {l : PutLogs} {fileId : ℕ} {key : Key} {value : Value}

theorem walRecord_eq (l : PutLogs) (fileId : ℕ) (key : Key) (value : Value) :
    l.walRecord fileId key value = WAL.recordBytes key (l.put fileId key value).1.fileId
      (l.put fileId key value).1.offset (l.put fileId key value).1.length := by
  have hfile : (l.put fileId key value).2.wal.file = l.wal.sync.file
      ++ WAL.recordBytes key (l.put fileId key value).1.fileId
        (l.put fileId key value).1.offset (l.put fileId key value).1.length := by
    simp only [put, WAL.sync, WAL.append, List.append_assoc]
  rw [walRecord, hfile, List.drop_left]

/-- The value log grows by the record. -/
theorem vlog_put (l : PutLogs) (fileId : ℕ) (key : Key) (value : Value) :
    (l.put fileId key value).2.vlog.file.length
      = l.vlog.content.length + (VLog.encodeRecord (key, value)).length := by
  show ((l.vlog.append fileId key value).2.sync).file.length = _
  rw [VLog.file_sync, VLog.content_append, List.length_append]

/-- A replay stops at a key it does not believe, and returns nothing from there
on. -/
theorem replay_longKey {ptr : VLogPointer} (hfits : ptr.Fits) (hkey : key.length < 2 ^ 32)
    (hbig : KVStore.maxFieldSize < key.length) (later : List Byte) :
    (WAL.replay (WAL.recordBytes key ptr.fileId ptr.offset ptr.length ++ later)).entries = [] := by
  obtain ⟨hid, hoff, hl⟩ := hfits
  refine WAL.entries_replay_of_ne (fun e rest he => ?_)
  rw [WAL.readRecord_recordBytes key hid hoff hl later, u32_of_lt hkey, if_pos hbig] at he
  cases he

/-- A replay goes on behind a record exactly when it believes the size of the
key. -/
theorem replay_recordBytes {ptr : VLogPointer} (hfits : ptr.Fits)
    (hlen : ptr.length ≠ WAL.tombstoneLen) (hkey : key.length < 2 ^ 32) :
    (∀ later, (WAL.replay (WAL.recordBytes key ptr.fileId ptr.offset ptr.length ++ later)).entries
        = ⟨key, ptr, false⟩ :: (WAL.replay later).entries)
      ↔ key.length ≤ KVStore.maxFieldSize := by
  constructor
  · intro h
    by_contra hbig
    have hnone := replay_longKey hfits hkey (not_le.mp hbig) []
    rw [h []] at hnone
    cases hnone
  · intro hle later
    obtain ⟨hid, hoff, hl⟩ := hfits
    refine WAL.entries_replay_of_entry ?_
    rw [WAL.readRecord_recordBytes key hid hoff hl later, u32_of_lt hkey, List.take_length,
      WAL.entryOf, if_neg hlen, if_neg (not_lt.mpr hle)]

/-- **Which puts the logs can represent.** A put with `sync` that returned is what
the logs say it is exactly when its record in the value log is shorter than 2^32
bytes and its key has at most 64 MiB. The number of the value log and the offset
in it are within their types. -/
theorem put_represented_iff (l : PutLogs) (key : Key) (value : Value) (hid : fileId < 2 ^ 32)
    (hoff : l.vlog.currentOffset + l.vlog.buffer.length + 8 + u32 key.length < 2 ^ 64) :
    l.Represented fileId key value
      ↔ 8 + key.length + value.length < 2 ^ 32 ∧ key.length ≤ KVStore.maxFieldSize := by
  have hptr : (l.put fileId key value).1.Fits := ⟨hid, hoff, u32_lt _⟩
  have hvalue : (l.put fileId key value).1.length = u32 value.length := rfl
  constructor
  · intro h
    have hsum : 8 + key.length + value.length < 2 ^ 32 := by
      have hgrow := h.vlog
      rw [vlog_put] at hgrow
      have hcut : (VLog.encodeRecord (key, value)).length
          ≤ u32 (8 + u32 key.length + u32 value.length) := List.length_take_le _ _
      have hlt := u32_lt (8 + u32 key.length + u32 value.length)
      omega
    refine ⟨hsum, ?_⟩
    have hne : (l.put fileId key value).1.length ≠ WAL.tombstoneLen := by
      rw [h.length]
      unfold WAL.tombstoneLen
      omega
    refine (replay_recordBytes hptr hne (by omega)).mp (fun later => ?_)
    rw [← walRecord_eq]
    exact h.replay later
  · rintro ⟨hsum, hkey⟩
    have hfit : VLog.FitsRecord (key, value) := hsum
    have hlen : (l.put fileId key value).1.length = value.length := by
      rw [hvalue, u32_of_lt (by omega)]
    have hne : (l.put fileId key value).1.length ≠ WAL.tombstoneLen := by
      rw [hlen]
      unfold WAL.tombstoneLen
      omega
    refine ⟨?_, hlen, ?_, ?_⟩
    · rw [vlog_put, hfit.length_encodeRecord]
    · rw [walRecord_eq]
      refine leAt_eq [] _ rfl rfl ?_ |>.trans (u32_of_lt (by omega))
      exact u32_lt key.length
    · rw [walRecord_eq]
      exact (replay_recordBytes hptr hne (by omega)).mpr hkey

/-- A put of one byte under a key of one byte. -/
theorem put_represented_iff_small : (⟨{}, {}⟩ : PutLogs).Represented 1 [97] [1] :=
  (put_represented_iff ⟨{}, {}⟩ [97] [1] (by decide) (by decide)).mpr ⟨by decide, by decide⟩

/-- A put into empty logs under a key that the reader does not believe, and
another put after it. -/
theorem replay_put_longKey (hkey : key.length < 2 ^ 32) (hbig : KVStore.maxFieldSize < key.length)
    (later : List Byte) :
    (WAL.replay ((⟨{}, {}⟩ : PutLogs).walRecord 1 key [1] ++ later)).entries = [] := by
  have hptr : ((⟨{}, {}⟩ : PutLogs).put 1 key [1]).1.Fits := by
    have hu := u32_lt key.length
    refine ⟨Nat.one_lt_two_pow (by decide), ?_, u32_lt _⟩
    show 0 + 0 + 8 + u32 key.length < 2 ^ 64
    omega
  rw [walRecord_eq]
  exact replay_longKey hptr hkey hbig later

/-- A key of 64 MiB and a byte. -/
def longKey : Key := List.replicate (64 * 1024 * 1024 + 1) 0

/-- **A put that the logs do not represent.** The put of the long key returns, and
a replay of the WAL stops at its record: it is lost, and so is what follows it. -/
theorem not_represented_longKey :
    ¬ (⟨{}, {}⟩ : PutLogs).Represented 1 longKey [1]
      ∧ ∀ later : List Byte,
        (WAL.replay ((⟨{}, {}⟩ : PutLogs).walRecord 1 longKey [1] ++ later)).entries = [] := by
  have hlen : longKey.length = 64 * 1024 * 1024 + 1 := by
    unfold longKey
    rw [List.length_replicate]
  have hbig : KVStore.maxFieldSize < longKey.length := by
    rw [hlen]
    exact Nat.lt_succ_self _
  have hstop := replay_put_longKey (by rw [hlen]; norm_num) hbig
  refine ⟨fun h => ?_, hstop⟩
  have hput := h.replay []
  rw [hstop] at hput
  cases hput

end PutLogs
