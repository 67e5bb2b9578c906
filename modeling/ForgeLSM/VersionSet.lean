import ForgeLSM.VersionEdit

/-!
# Versions and the version set

A `Version` is the list of table files at each of the six levels. The
`VersionSet` holds the current one, hands out file numbers, and records
every change in the MANIFEST before it makes it: `VersionSet.logAndApply`
appends the edit to the file and builds the next version from it, and
`VersionSet.recover` builds a version from the edits read back.

The MANIFEST is kept here as the list of its records; the bytes on disk are
`VersionSet.manifestBytes`, each record preceded by its length, and
`readRecords` is the loop that reads them back, stopping at the first record
it cannot read. `readRecords_flatMap_frame` says it reads back what was
written.

An edit is applied by two loops written apart, one in `log_and_apply` and
one in `recover`. `Version.applyEdit` and `Version.applyRecovered` are the
two.
-/

/-- `Version::MAX_LEVELS`. -/
abbrev maxLevels : ℕ := 6

/-- A level of the tree. -/
abbrev Level := Fin maxLevels

instance neZeroMaxLevels : NeZero maxLevels := ⟨by decide⟩

/-- **A version**: the table files of every level. -/
@[ext] structure Version where
  files : Level → List FileMetaData
  deriving DecidableEq

namespace Version

/-- The version of a fresh database. -/
def empty : Version := ⟨fun _ => []⟩

/-- The order a level is kept in: L0 newest file first, the others by their
least key. -/
def levelLt (level : Level) (a b : FileMetaData) : Bool :=
  if level = 0 then decide (b.sequence < a.sequence) else decide (a.minKey < b.minKey)

/-- Sort every level. -/
def sortLevels (S : StdSort) (v : Version) : Version :=
  ⟨fun level => S.sort (levelLt level) (v.files level)⟩

/-- Whether an edit deletes the file `seq` of a level. -/
def deletes (e : VersionEdit) (level : Level) (seq : ℕ) : Bool :=
  e.deletedFiles.any (fun d => decide (d.1 = (level.val : ℤ)) && decide (d.2 = seq))

/-- The files an edit adds to a level, in order. -/
def added (e : VersionEdit) (level : Level) : List FileMetaData :=
  (e.newFiles.filter (fun f => decide (f.1 = (level.val : ℤ)))).map Prod.snd

/-- **The next version, as `log_and_apply` builds it**: level by level, the
files the edit does not delete, then the files it adds, then the sort. -/
def applyEdit (S : StdSort) (v : Version) (e : VersionEdit) : Version :=
  sortLevels S ⟨fun level =>
    (v.files level).filter (fun f => !deletes e level f.sequence) ++ added e level⟩

/-- One deletion, as the loop of `recover` carries it out. Only levels 0 and
1 pass its guard. -/
def recoverDelete (v : Version) (d : ℤ × ℕ) : Version :=
  if d.1 < 0 ∨ d.1 > 1 then v
  else ⟨fun level =>
    if (level.val : ℤ) = d.1 then (v.files level).filter (fun f => !decide (f.sequence = d.2))
    else v.files level⟩

/-- One addition, as the loop of `recover` carries it out. -/
def recoverAdd (v : Version) (f : ℤ × FileMetaData) : Version :=
  if f.1 < 0 ∨ f.1 ≥ maxLevels then v
  else ⟨fun level =>
    if (level.val : ℤ) = f.1 then v.files level ++ [f.2] else v.files level⟩

/-- **One edit, as `recover` applies it**: its deletions, then its
additions. -/
def applyRecovered (v : Version) (e : VersionEdit) : Version :=
  e.newFiles.foldl recoverAdd (e.deletedFiles.foldl recoverDelete v)

/-- The version `recover` builds from the records it read: every edit in
turn, then one sort. -/
def recoverVersion (S : StdSort) (edits : List VersionEdit) : Version :=
  sortLevels S (edits.foldl applyRecovered empty)

end Version

/-! ## The MANIFEST file -/

/-- A record as it stands in the file: its length, then its bytes. -/
def frame (e : VersionEdit) : List Byte :=
  VersionEdit.putUint32 e.encodeTo.length ++ e.encodeTo

/-- The longest record `recover` accepts, 64 MiB. -/
def maxRecord : ℕ := 64 * 1024 * 1024

/-- **The reading loop of `recover`**, over at most `n` records. It stops at
a length it cannot read or does not believe, at a record cut short, and at
a record that does not decode. -/
def readRecords : ℕ → List Byte → List VersionEdit
  | 0, _ => []
  | n + 1, bs =>
    match takeLe 4 bs with
    | none => []
    | some (len, bs) =>
      if len > maxRecord then []
      else match takeBytes len bs with
        | none => []
        | some (rec, rest) =>
          match VersionEdit.decodeFrom rec with
          | none => []
          | some e => e :: readRecords n rest

/-- The version set. -/
structure VersionSet where
  nextFileNumber : ℕ := 1
  current : Version := .empty
  /-- Numbers handed out and not committed yet. -/
  pendingOutputs : List ℕ := []
  /-- The records of the MANIFEST. -/
  manifest : List VersionEdit := []
  manifestFileSize : ℕ := 0
  deriving DecidableEq

namespace VersionSet

/-- The bytes of the MANIFEST. -/
def manifestBytes (vs : VersionSet) : List Byte := vs.manifest.flatMap frame

/-- **`VersionSet::new_file_number`.** The counter is a `uint32_t`: the number
after `2 ^ 32 - 1` is 0, and numbers in use are handed out again. -/
def newFileNumber (vs : VersionSet) : ℕ × VersionSet :=
  let seq := (vs.nextFileNumber + 1) % 2 ^ 32
  (seq, { vs with nextFileNumber := seq, pendingOutputs := vs.pendingOutputs ++ [seq] })

/-- **A number that was not handed out before**: what `new_file_number` returns
as long as the counter does not wrap (`newFileNumber_eq_fresh`). Flushes and
compactions take their numbers here, so the runs of the tree, and of the engine
over it, are those that hand out fewer than `2 ^ 32 - 1` numbers. -/
def freshFileNumber (vs : VersionSet) : ℕ × VersionSet :=
  (vs.nextFileNumber + 1,
    { vs with
      nextFileNumber := vs.nextFileNumber + 1
      pendingOutputs := vs.pendingOutputs ++ [vs.nextFileNumber + 1] })

theorem newFileNumber_eq_fresh {vs : VersionSet} (h : vs.nextFileNumber + 1 < 2 ^ 32) :
    vs.newFileNumber = vs.freshFileNumber := by
  rw [newFileNumber, Nat.mod_eq_of_lt h, freshFileNumber]

/-- `VersionSet::remove_pending_output`. -/
def removePendingOutput (vs : VersionSet) (seq : ℕ) : VersionSet :=
  { vs with pendingOutputs := vs.pendingOutputs.filter (fun s => decide (s ≠ seq)) }

/-- The edit that is written: the caller's, with the counter filled in when
the caller left it out. -/
def prepare (vs : VersionSet) (e : VersionEdit) : VersionEdit :=
  match e.nextFileSequence with
  | some _ => e
  | none => e.setNextFileSequence vs.nextFileNumber

/-- The file size past which the MANIFEST is rewritten, 1 MiB. -/
def rewriteLimit : ℕ := 1024 * 1024

/-- Whether logging the edit makes the MANIFEST long enough to be
rewritten. -/
def rewrites (vs : VersionSet) (e : VersionEdit) : Bool :=
  decide (vs.manifestFileSize + (frame (vs.prepare e)).length > rewriteLimit)

/-- The one record of a rewritten MANIFEST: every file of the version. -/
def snapshotEdit (next : ℕ) (v : Version) : VersionEdit where
  newFiles := (List.finRange maxLevels).flatMap
    (fun level => (v.files level).map (fun f => ((level.val : ℤ), f)))
  nextFileSequence := some next

/-- **`VersionSet::log_and_apply`**, all writes succeeding: the record is
appended, the next version is built, its files are no longer pending, and a
MANIFEST grown past the limit is replaced by a snapshot. -/
def logAndApply (S : StdSort) (vs : VersionSet) (e : VersionEdit) : VersionSet :=
  let e' := vs.prepare e
  let next := e'.nextFileSequence.getD vs.nextFileNumber
  let v := vs.current.applyEdit S e
  let pending := vs.pendingOutputs.filter (fun s => !(e.newFiles.any (fun f => f.2.sequence == s)))
  if vs.rewrites e then
    let snap := snapshotEdit next v
    { nextFileNumber := next, current := v, pendingOutputs := pending,
      manifest := [snap], manifestFileSize := (frame snap).length }
  else
    { nextFileNumber := next, current := v, pendingOutputs := pending,
      manifest := vs.manifest ++ [e'],
      manifestFileSize := vs.manifestFileSize + (frame e').length }

/-- The file number counter after the records were read: the last one
recorded. -/
def recoverNext (edits : List VersionEdit) : ℕ :=
  edits.foldl (fun n e => e.nextFileSequence.getD n) 1

/-- `VersionSet::recover` on records already read. -/
def recoverRecords (S : StdSort) (edits : List VersionEdit) : VersionSet where
  nextFileNumber := recoverNext edits
  current := Version.recoverVersion S edits
  manifest := edits
  manifestFileSize := (edits.flatMap frame).length

/-- **`VersionSet::recover`** on the bytes of a MANIFEST. -/
def recover (S : StdSort) (file : List Byte) : VersionSet :=
  recoverRecords S (readRecords file.length file)

end VersionSet

/-! ## Reading back what was written -/

/-- A framed record decodes and leaves the rest of the file. -/
theorem readRecords_frame {e : VersionEdit} (hf : e.Fits)
    (hlen : e.encodeTo.length ≤ maxRecord) (n : ℕ) (rest : List Byte) :
    readRecords (n + 1) (frame e ++ rest) = e :: readRecords n rest := by
  have h32 : e.encodeTo.length < 2 ^ 32 := lt_of_le_of_lt hlen (by decide)
  rw [readRecords, frame, List.append_assoc, VersionEdit.takeLe_putUint32 h32]
  simp only [not_lt.mpr hlen, if_false]
  rw [takeBytes_append]
  simp only [VersionEdit.decodeFrom_encodeTo hf]

theorem length_frame (e : VersionEdit) : (frame e).length = 4 + e.encodeTo.length := by
  simp [frame, VersionEdit.putUint32]

variable {edits : List VersionEdit}

/-- The records in front of what is not read. -/
theorem readRecords_flatMap_append (h : ∀ e ∈ edits, e.Fits ∧ e.encodeTo.length ≤ maxRecord)
    {tail : List Byte} (htail : ∀ n, readRecords n tail = []) {n : ℕ} (hn : edits.length ≤ n) :
    readRecords n (edits.flatMap frame ++ tail) = edits := by
  induction edits generalizing n with
  | nil => exact htail n
  | cons e edits ih =>
    obtain ⟨n, rfl⟩ : ∃ m, n = m + 1 := ⟨n - 1, by rw [List.length_cons] at hn; omega⟩
    obtain ⟨hf, hlen⟩ := h e List.mem_cons_self
    rw [List.flatMap_cons, List.append_assoc, readRecords_frame hf hlen,
      ih (fun e' he' => h e' (List.mem_cons_of_mem e he')) (Nat.le_of_succ_le_succ hn)]

/-- **The reading loop reads back the records of the file**, when each of
them fits its types and the length limit. -/
theorem readRecords_flatMap_frame (h : ∀ e ∈ edits, e.Fits ∧ e.encodeTo.length ≤ maxRecord) {n : ℕ}
    (hn : edits.length ≤ n) : readRecords n (edits.flatMap frame) = edits := by
  have hnil : ∀ n, readRecords n [] = [] := fun n => by cases n <;> rfl
  have hread := readRecords_flatMap_append h hnil hn
  rwa [List.append_nil] at hread

/-- A file has no more records than bytes. -/
theorem length_le_length_flatMap_frame (edits : List VersionEdit) :
    edits.length ≤ (edits.flatMap frame).length := by
  induction edits with
  | nil => exact Nat.le_refl 0
  | cons e edits ih =>
    rw [List.flatMap_cons, List.length_append, List.length_cons, length_frame]
    omega

/-- `recover` on the bytes of well-formed records is `recover` on the
records. -/
theorem VersionSet.recover_flatMap_frame (S : StdSort)
    (h : ∀ e ∈ edits, e.Fits ∧ e.encodeTo.length ≤ maxRecord) :
    VersionSet.recover S (edits.flatMap frame) = VersionSet.recoverRecords S edits := by
  rw [recover, readRecords_flatMap_frame h (length_le_length_flatMap_frame edits)]
