import ForgeLSM.ManifestReplay
import ForgeLSM.Util.WriteAll

/-!
# The MANIFEST rewritten

Once the MANIFEST is longer than a mebibyte, `log_and_apply` replaces it by one
record that lists every file of the version. The record is written to a
temporary file next to the MANIFEST, synced, and renamed over it.

Two things make this safe. The record replays to the version it was taken of, in
the same order at every level – the replay appends the files level by level and
then sorts lists that are sorted already – and it carries the file number counter
(`VersionSet.logged_rewritten`). And nothing but the rename touches the MANIFEST,
at a point where the temporary file holds all of the record, so that a process
killed anywhere in the rewrite leaves the old file or the new one
(`AtCrash.manifest_rewriteOps`).
-/

/-! ## The files of the rewrite -/

/-- The two files the rewrite works on. -/
structure ManifestDir where
  /-- The bytes of `MANIFEST`. -/
  manifest : List Byte
  /-- The bytes of `MANIFEST.tmp`, if there is such a file. -/
  tmp : Option (List Byte)
  deriving DecidableEq

/-- The calls the rewrite makes on them. -/
inductive DirOp where
  /-- `std::filesystem::remove(tmp_path, ec)`. -/
  | removeTmp
  /-- `m_open(tmp_path, M_FLAGS, M_MODE)`: created if absent, written at its end. -/
  | openTmp
  | appendTmp (bytes : List Byte)
  | fsyncTmp
  /-- `std::filesystem::rename(tmp_path, manifest_path_)`. -/
  | renameTmp
  deriving DecidableEq

namespace ManifestDir

/-- One call, carried out to its end. -/
def apply (d : ManifestDir) : DirOp → ManifestDir
  | .removeTmp => { d with tmp := none }
  | .openTmp => { d with tmp := some (d.tmp.getD []) }
  | .appendTmp bytes => { d with tmp := d.tmp.map (fun bs => bs ++ bytes) }
  | .fsyncTmp => d
  | .renameTmp => { manifest := d.tmp.getD d.manifest, tmp := none }

/-- A sequence of calls. -/
def run (d : ManifestDir) (ops : List DirOp) : ManifestDir := ops.foldl apply d

/-- Only the rename touches the MANIFEST. -/
theorem manifest_apply (d : ManifestDir) {op : DirOp} (h : op ≠ .renameTmp) :
    (d.apply op).manifest = d.manifest := by
  cases op with
  | renameTmp => exact absurd rfl h
  | _ => rfl

end ManifestDir

/-- The calls of the rewrite that leave the MANIFEST alone: the temporary file
is made anew and, if it could be opened, receives what `write_all_m` writes of
the record. -/
def stageOps (srec : List Byte) (opened : Bool) (rs : List WriteResult) : List DirOp :=
  .removeTmp :: if opened then [.openTmp, .appendTmp (writeAll rs srec).1, .fsyncTmp] else []

/-- **The calls of the rewrite**, as a function of what they return. The rename
is reached only when the whole record was written and synced. -/
def rewriteOps (srec : List Byte) (opened : Bool) (rs : List WriteResult) (synced : Bool) :
    List DirOp :=
  stageOps srec opened rs
    ++ if opened && (writeAll rs srec).2 && synced then [.renameTmp] else []

/-- **The directory a killed process leaves**: the calls it made are complete,
but for the last one if it was a write, which may have put down a part of its
bytes. -/
inductive AtCrash : ManifestDir → List DirOp → ManifestDir → Prop
  | between (d : ManifestDir) (ops : List DirOp) : AtCrash d ops d
  | torn (d : ManifestDir) {bytes part : List Byte} (hpart : part <+: bytes)
      (ops : List DirOp) : AtCrash d (.appendTmp bytes :: ops) (d.apply (.appendTmp part))
  | later {d d' : ManifestDir} {op : DirOp} {ops : List DirOp}
      (h : AtCrash (d.apply op) ops d') : AtCrash d (op :: ops) d'

namespace AtCrash

variable {d d' : ManifestDir} {ops ops' : List DirOp}

/-- Calls without a rename leave the MANIFEST as it is, wherever they are cut
off. -/
theorem manifest_eq (h : AtCrash d ops d') (hops : ∀ op ∈ ops, op ≠ .renameTmp) :
    d'.manifest = d.manifest := by
  induction h with
  | between => rfl
  | torn => rfl
  | later _ ih =>
    rw [ih (fun op hop => hops op (List.mem_cons_of_mem _ hop)),
      ManifestDir.manifest_apply _ (hops _ List.mem_cons_self)]

/-- A sequence is cut off in its first part or in its second. -/
theorem append (h : AtCrash d (ops ++ ops') d') :
    AtCrash d ops d' ∨ AtCrash (d.run ops) ops' d' := by
  induction ops generalizing d with
  | nil => exact .inr h
  | cons op ops ih =>
    cases h with
    | between => exact .inl (.between _ _)
    | torn _ hpart => exact .inl (.torn _ hpart _)
    | later h => exact (ih h).imp .later id

/-- The rename is atomic. -/
theorem renameTmp (h : AtCrash d [.renameTmp] d') : d' = d ∨ d' = d.apply .renameTmp := by
  cases h with
  | between => exact .inl rfl
  | later h =>
    cases h
    exact .inr rfl

end AtCrash

/-- The staging calls do not rename. -/
theorem renameTmp_not_mem_stageOps (srec : List Byte) (opened : Bool) (rs : List WriteResult) :
    ∀ op ∈ stageOps srec opened rs, op ≠ .renameTmp := by
  intro op hop
  rintro rfl
  cases opened with
  | false | true => simp [stageOps] at hop

variable {rs : List WriteResult}

/-- When the record was written whole, the staging calls leave it alone in the
temporary file, whatever was there before. -/
theorem ManifestDir.run_stageOps (d : ManifestDir) {srec : List Byte}
    (hok : (writeAll rs srec).2 = true) :
    d.run (stageOps srec true rs) = { d with tmp := some srec } := by
  simp [run, stageOps, apply, writeAll_eq_of_ok hok]

/-- **A killed rewrite leaves the old MANIFEST or the new one**, each of them
complete. -/
theorem AtCrash.manifest_rewriteOps {d d' : ManifestDir} {srec : List Byte} {opened : Bool}
    {synced : Bool} (h : AtCrash d (rewriteOps srec opened rs synced) d') :
    d'.manifest = d.manifest ∨ d'.manifest = srec := by
  have hstage := renameTmp_not_mem_stageOps srec opened rs
  unfold rewriteOps at h
  split_ifs at h with hok
  · rw [Bool.and_eq_true, Bool.and_eq_true] at hok
    obtain ⟨⟨rfl, hw⟩, -⟩ := hok
    rcases h.append with h | h
    · exact .inl (h.manifest_eq hstage)
    · rw [d.run_stageOps hw] at h
      rcases h.renameTmp with rfl | rfl
      · exact .inl rfl
      · exact .inr rfl
  · rw [List.append_nil] at h
    exact .inl (h.manifest_eq hstage)

/-- A rewrite in which nothing fails puts the record in the MANIFEST's place. -/
theorem ManifestDir.run_rewriteOps (d : ManifestDir) {srec : List Byte}
    (hok : (writeAll rs srec).2 = true) :
    d.run (rewriteOps srec true rs true) = { manifest := srec, tmp := none } := by
  have hstage := d.run_stageOps hok
  unfold run at hstage
  rw [run, rewriteOps, List.foldl_append, hstage, hok]
  rfl

/-! ## The record of the rewrite -/

variable {e : VersionEdit} {f : ℤ × FileMetaData}

namespace VersionEdit

/-- An encoded field is no longer than the record it is part of. -/
theorem length_putNewFile_le (hf : f ∈ e.newFiles) : (putNewFile f).length ≤ e.encodeTo.length := by
  have hsub : (e.newFiles.flatMap putNewFile).length ≤ e.encodeTo.length := by
    rw [encodeTo, List.length_append, List.length_append]
    omega
  refine le_trans ?_ hsub
  rw [List.length_flatMap]
  exact List.le_sum_of_mem (List.mem_map_of_mem hf)

/-- The keys of a record that `recover` accepts have lengths that fit their
32 bits. -/
theorem length_keys_lt (hlen : e.encodeTo.length ≤ maxRecord) (hf : f ∈ e.newFiles) :
    f.2.minKey.length < 2 ^ 32 ∧ f.2.maxKey.length < 2 ^ 32 := by
  have hle := le_trans (length_putNewFile_le hf) hlen
  have hmax : maxRecord < 2 ^ 32 := by decide
  simp only [putNewFile, putString, List.length_append] at hle
  omega

end VersionEdit

namespace VersionSet

/-- The numbers of the version set are within the ranges of their types:
`uint32_t` file numbers and `uint64_t` file sizes. -/
structure Typed (vs : VersionSet) : Prop where
  next : vs.nextFileNumber < 2 ^ 32
  files : ∀ level, ∀ f ∈ vs.current.files level, f.sequence < 2 ^ 32 ∧ f.fileSize < 2 ^ 64

/-- The record a rewrite would write now. -/
def snapshot (vs : VersionSet) : VersionEdit := snapshotEdit vs.nextFileNumber vs.current

variable {vs : VersionSet}

/-- A file the snapshot lists is a file of the version. -/
theorem mem_newFiles_snapshot :
    f ∈ vs.snapshot.newFiles ↔ ∃ level : Level, f.1 = level.val ∧ f.2 ∈ vs.current.files level := by
  unfold snapshot snapshotEdit
  simp only [List.mem_flatMap, List.mem_finRange, true_and, List.mem_map]
  constructor
  · rintro ⟨level, g, hg, rfl⟩
    exact ⟨level, rfl, hg⟩
  · rintro ⟨level, hl, hf⟩
    exact ⟨level, f.2, hf, Prod.ext hl.symm rfl⟩

/-- **The snapshot fits its encoding** as soon as it is short enough to be read
back. -/
theorem fits_snapshot (ht : vs.Typed) (hlen : vs.snapshot.encodeTo.length ≤ maxRecord) :
    vs.snapshot.Fits where
  newFiles := by
    intro f hf
    obtain ⟨hmin, hmax⟩ := VersionEdit.length_keys_lt hlen hf
    obtain ⟨level, hl, hmem⟩ := mem_newFiles_snapshot.mp hf
    obtain ⟨hseq, hsize⟩ := ht.files level f.2 hmem
    refine ⟨?_, hseq, hsize, hmin, hmax⟩
    have hlt : level.val < 6 := level.isLt
    unfold VersionEdit.LevelFits
    omega
  deletedFiles := by
    intro d hd
    cases hd
  nextFileSequence := by
    intro n hn
    cases hn
    exact ht.next

/-- The MANIFEST after a rewrite is the snapshot of the version set. -/
theorem manifest_logAndApply (S : StdSort) (hrw : vs.rewrites e = true) :
    (vs.logAndApply S e).manifest = [(vs.logAndApply S e).snapshot] := by
  unfold logAndApply snapshot
  dsimp only
  rw [if_pos hrw]

/-- The version `log_and_apply` installs, rewriting or not. -/
theorem current_logAndApply (S : StdSort) (vs : VersionSet) (e : VersionEdit) :
    (vs.logAndApply S e).current = vs.current.applyEdit S e := by
  unfold logAndApply
  dsimp only
  split_ifs <;> rfl

/-- **A rewritten MANIFEST replays to the version in memory**, with nothing
lost. -/
theorem logged_rewritten (S : StdSort) (hrw : vs.rewrites e = true)
    (ht : (vs.logAndApply S e).Typed)
    (hlen : (vs.logAndApply S e).snapshot.encodeTo.length ≤ maxRecord) :
    Logged (vs.logAndApply S e) (fun _ => []) where
  replays := by
    rw [manifest_logAndApply S hrw]
    exact replays_snapshotEdit _ _
  readable := by
    intro e' he'
    rw [manifest_logAndApply S hrw, List.mem_singleton] at he'
    exact he' ▸ ⟨fits_snapshot ht hlen, hlen⟩
  sorted := by
    intro level
    rw [current_logAndApply]
    exact Version.applyEdit_sorted S _ e level

/-- **The rewritten MANIFEST is faithful.** A `log_and_apply` that rewrites the
MANIFEST leaves a file from which `recover` reads the same files, in the same
order, at every level, and the same file number counter; and a process killed
anywhere in the rewrite – whatever the old file and a left-over temporary file
hold, whatever the calls return – leaves the old MANIFEST or the new one. -/
theorem recover_rewritten (S : StdSort) (vs : VersionSet) (e : VersionEdit)
    (hrw : vs.rewrites e = true) (htie : (vs.logAndApply S e).current.TieFree)
    (ht : (vs.logAndApply S e).Typed)
    (hlen : (vs.logAndApply S e).snapshot.encodeTo.length ≤ maxRecord) :
    (∀ level, (recover S (vs.logAndApply S e).manifestBytes).current.files level
        = (vs.logAndApply S e).current.files level)
      ∧ (recover S (vs.logAndApply S e).manifestBytes).nextFileNumber
        = (vs.logAndApply S e).nextFileNumber
      ∧ (∀ d : ManifestDir, (d.run (rewriteOps (frame (vs.logAndApply S e).snapshot)
          true [] true)).manifest = (vs.logAndApply S e).manifestBytes)
      ∧ ∀ (d d' : ManifestDir) (opened synced : Bool) (rs : List WriteResult),
        AtCrash d (rewriteOps (frame (vs.logAndApply S e).snapshot) opened rs synced) d' →
          d'.manifest = d.manifest ∨ d'.manifest = (vs.logAndApply S e).manifestBytes := by
  have hlog := logged_rewritten S hrw ht hlen
  have hbytes : (vs.logAndApply S e).manifestBytes = frame (vs.logAndApply S e).snapshot := by
    rw [manifestBytes, manifest_logAndApply S hrw, List.flatMap_singleton]
  refine ⟨hlog.recover_eq S (fun _ => rfl) htie, ?_, fun d => ?_, fun d d' opened synced rs h => ?_⟩
  · rw [manifestBytes, recover_flatMap_frame S hlog.readable, manifest_logAndApply S hrw]
    rfl
  · rw [hbytes, d.run_rewriteOps]
    cases hframe : frame (vs.logAndApply S e).snapshot <;> rfl
  · rw [hbytes]
    exact h.manifest_rewriteOps

/-- A version set with files at the first, the second and the last level, about
to outgrow its MANIFEST. -/
def grown : VersionSet where
  nextFileNumber := 9
  current := ⟨fun level =>
    if level = 0 then [⟨8, 45, [97], [99]⟩, ⟨7, 45, [97], [98]⟩]
    else if level = 1 then [⟨5, 45, [97], [98]⟩]
    else if level = 5 then [⟨3, 45, [97], [98]⟩, ⟨2, 45, [100], [101]⟩]
    else []⟩
  manifestFileSize := rewriteLimit

/-- A flush that moves the MANIFEST past the limit. -/
def flushedNine : VersionEdit := ({} : VersionEdit).addFile 0 9 45 [98] [98]

/-- The rewrite of that MANIFEST, read back; and the files of a rewrite killed in
the middle of its record, with a temporary file left over from before. -/
theorem recover_rewritten_grown :
    (grown.logAndApply StdSort.insertion flushedNine).current.files 0
        = [⟨9, 45, [98], [98]⟩, ⟨8, 45, [97], [99]⟩, ⟨7, 45, [97], [98]⟩]
      ∧ (∀ level, (recover StdSort.insertion
            (grown.logAndApply StdSort.insertion flushedNine).manifestBytes).current.files level
          = (grown.logAndApply StdSort.insertion flushedNine).current.files level)
      ∧ AtCrash ⟨[1], some [2]⟩ (rewriteOps [3, 4] true [] true) ⟨[1], some [3]⟩ := by
  have hpart : [(3 : Byte)] <+: [3, 4] := ⟨[4], rfl⟩
  refine ⟨by decide +kernel, ?_, .later (.later (.torn _ hpart _))⟩
  exact (recover_rewritten StdSort.insertion grown flushedNine (by decide +kernel)
    (by decide +kernel) ⟨by decide +kernel, by decide +kernel⟩ (by decide +kernel)).1

end VersionSet
