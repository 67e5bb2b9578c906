import ForgeLSM.LsmRecovery

/-!
# The end of the MANIFEST

`log_and_apply` appends a record to the MANIFEST, and the append may stop after
any number of bytes: the call returns false, or the process is killed and the
next one replays the file. Either way the bytes that were written stay. The
replay passes over an incomplete record at the end but leaves it there, and the
next record goes behind it, where the length of the incomplete one takes in its
bytes.

`ManifestLog` is the machine of the version set and its file. An edit that was
logged behind an incomplete record is lost to every later `recover`
(`ManifestLog.not_effective_tornCalls`). Every edit whose call returned true
takes effect as long as records are appended only where the file is whole, or
by a call that rewrites it (`ManifestLog.effective_of_runOk`).
-/

/-! ## The reading loop at an incomplete record -/

variable {e : VersionEdit}

/-- A part of a record, not all of it, is not read. -/
theorem readRecords_take_frame (hlen : e.encodeTo.length ≤ maxRecord) {i : ℕ}
    (hi : i < (frame e).length) (n : ℕ) : readRecords n ((frame e).take i) = [] := by
  cases n with
  | zero => rfl
  | succ n =>
    have h32 : e.encodeTo.length < 2 ^ 32 := lt_of_le_of_lt hlen (by decide)
    rw [readRecords]
    cases hlenField : takeLe 4 ((frame e).take i) with
    | none => rfl
    | some p =>
      obtain ⟨len, bs⟩ := p
      -- the length field is there, so it is the record's
      have hfour : 4 ≤ i := by
        have hle := length_of_takeLe hlenField
        rw [List.length_take] at hle
        omega
      have hsplit : (frame e).take i
          = VersionEdit.putUint32 e.encodeTo.length ++ e.encodeTo.take (i - 4) := by
        have hput : (VersionEdit.putUint32 e.encodeTo.length).length = 4 := by
          simp [VersionEdit.putUint32]
        rw [frame, List.take_append, hput, List.take_of_length_le (by omega)]
      rw [hsplit, VersionEdit.takeLe_putUint32 h32] at hlenField
      cases hlenField
      have hshort : takeBytes e.encodeTo.length (e.encodeTo.take (i - 4)) = none := by
        rw [length_frame] at hi
        cases hbytes : takeBytes e.encodeTo.length (e.encodeTo.take (i - 4)) with
        | none => rfl
        | some q =>
          have hle := length_of_takeBytes hbytes
          rw [List.length_take] at hle
          omega
      simp only [hshort, ite_self]

/-! ## The machine -/

/-- **The version set and its MANIFEST**, with the edits its calls were for. -/
structure ManifestLog where
  vs : VersionSet := {}
  /-- The bytes of the MANIFEST. -/
  file : List Byte := []
  /-- The edits `log_and_apply` was called with. -/
  calls : List VersionEdit := []
  /-- Those of them for which it returned true. -/
  acked : List VersionEdit := []
  deriving DecidableEq

/-- What can happen to the MANIFEST. -/
inductive ManifestAction where
  | newFileNumber
  /-- `log_and_apply` returns true. -/
  | logAndApply (e : VersionEdit)
  /-- The append stops after so many bytes, or the sync behind it fails:
  `log_and_apply` returns false. -/
  | logFails (e : VersionEdit) (n : ℕ)
  /-- The process is killed when so many bytes have been appended, and the next
  one runs `recover`. -/
  | crash (e : VersionEdit) (n : ℕ)
  deriving DecidableEq

namespace ManifestLog

variable {S : StdSort} {s s' : ManifestLog}

/-- The bytes of the record of an edit. -/
def record (s : ManifestLog) (e : VersionEdit) : List Byte := frame (s.vs.prepare e)

/-- A call that returns true. The record is appended in any case, and then the
file may be replaced by one of a single record. -/
def logAndApply (S : StdSort) (s : ManifestLog) (e : VersionEdit) : ManifestLog where
  vs := s.vs.logAndApply S e
  file := if s.vs.rewrites e then (s.vs.logAndApply S e).manifestBytes else s.file ++ s.record e
  calls := s.calls ++ [e]
  acked := s.acked ++ [e]

/-- A call that returns false. The counter of an edit that carries one has been
set already. -/
def logFails (s : ManifestLog) (e : VersionEdit) (n : ℕ) : ManifestLog :=
  { s with
    vs := { s.vs with nextFileNumber := e.nextFileSequence.getD s.vs.nextFileNumber }
    file := s.file ++ (s.record e).take n
    calls := s.calls ++ [e] }

/-- `VersionSet::recover` on the file as it is. -/
def reopen (S : StdSort) (s : ManifestLog) : ManifestLog :=
  { s with vs := { VersionSet.recover S s.file with manifestFileSize := s.file.length } }

/-- **One step.** -/
def step (S : StdSort) (s : ManifestLog) : ManifestAction → Option ManifestLog
  | .newFileNumber => some { s with vs := s.vs.newFileNumber.2 }
  | .logAndApply e => some (s.logAndApply S e)
  | .logFails e n => some (s.logFails e n)
  | .crash e n => some ((s.logFails e n).reopen S)

/-- The version a list of edits makes of an empty one. -/
def versionOf (S : StdSort) (es : List VersionEdit) : Version :=
  es.foldl (Version.applyEdit S) .empty

/-- **The edits whose calls returned true take effect**: the next `recover`
finds the files of the version that some of the edits make, in the order of
their calls and those among them. -/
def Effective (S : StdSort) (s : ManifestLog) : Prop :=
  ∃ es ∈ s.calls.sublists, s.acked.Sublist es
    ∧ ∀ level, ((VersionSet.recover S s.file).current.files level).Perm
      ((versionOf S es).files level)

instance (S : StdSort) (s : ManifestLog) : Decidable (s.Effective S) :=
  inferInstanceAs (Decidable (∃ es ∈ _, _))

/-- The file is nothing but whole records. -/
def Whole (file : List Byte) : Prop := (readRecords file.length file).flatMap frame = file

instance (file : List Byte) : Decidable (Whole file) := inferInstanceAs (Decidable (_ = _))

/-- The edit is for levels 0 and 1. -/
def Shallow (e : VersionEdit) : Prop :=
  (∀ d ∈ e.deletedFiles, d.1 = 0 ∨ d.1 = 1) ∧ ∀ f ∈ e.newFiles, f.1 = 0 ∨ f.1 = 1

instance (e : VersionEdit) : Decidable (Shallow e) := inferInstanceAs (Decidable (_ ∧ _))

/-- The record fits its types, and `recover` believes its length. -/
def Readable (e : VersionEdit) : Prop := e.Fits ∧ e.encodeTo.length ≤ maxRecord

instance (e : VersionEdit) : Decidable (Readable e) := inferInstanceAs (Decidable (_ ∧ _))

/-- **What a step is careful about**: the edits are for levels 0 and 1 and have
records that can be read back, and a record is appended where the file is
whole – or else nothing of it, or by a call that rewrites the file. -/
def CarefulStep (S : StdSort) (s : ManifestLog) : ManifestAction → Prop
  | .newFileNumber => True
  | .logAndApply e => Shallow e ∧ Readable (s.vs.prepare e)
      ∧ if s.vs.rewrites e then ∀ r ∈ (s.vs.logAndApply S e).manifest, Readable r
        else Whole s.file
  | .logFails e n | .crash e n => Shallow e ∧ Readable (s.vs.prepare e) ∧ (n = 0 ∨ Whole s.file)

instance (S : StdSort) (s : ManifestLog) (a : ManifestAction) : Decidable (s.CarefulStep S a) := by
  cases a <;> unfold CarefulStep <;> infer_instance

/-! ## Versions up to the order of files -/

/-- The two versions have the same files at every level. -/
def SameFiles (v w : Version) : Prop := ∀ level, (v.files level).Perm (w.files level)

theorem SameFiles.trans {u v w : Version} (h : SameFiles u v) (h' : SameFiles v w) :
    SameFiles u w := fun level => (h level).trans (h' level)

/-- An edit makes the same of the same files. -/
theorem SameFiles.applyEdit {v w : Version} (h : SameFiles v w) (S : StdSort) (e : VersionEdit) :
    SameFiles (v.applyEdit S e) (w.applyEdit S e) := by
  intro level
  have hfiles := ((h level).filter (fun f => !Version.deletes e level f.sequence)).append_right
    (Version.added e level)
  exact (Version.applyEdit_perm S v e level).trans
    (hfiles.trans (Version.applyEdit_perm S w e level).symm)

theorem sameFiles_of_replays {v r : Version} (h : Replays v r (fun _ => [])) : SameFiles r v := by
  intro level
  have hperm := (h level).1
  rwa [List.append_nil] at hperm

theorem SameFiles.replays {v r : Version} (h : SameFiles r v) : Replays v r (fun _ => []) := by
  intro level
  refine ⟨?_, fun _ => rfl⟩
  rw [List.append_nil]
  exact h level

/-- An edit for levels 0 and 1 is replayed as it was applied. -/
theorem SameFiles.applyRecovered {v r : Version} (h : SameFiles r v) (he : Shallow e)
    (S : StdSort) :
    SameFiles (r.applyRecovered e) (v.applyEdit S e) := by
  refine sameFiles_of_replays ?_
  have hnone : (fun level => [] ++ deepDeleted v e level) = fun _ => [] := by
    funext level
    unfold deepDeleted
    split_ifs with hl
    · rfl
    · refine List.filter_eq_nil_iff.mpr (fun f _ hf => ?_)
      obtain ⟨d, hd, hlevel⟩ := List.any_eq_true.mp hf
      have hdlevel : d.1 = (level.val : ℤ) := by
        simp only [Bool.and_eq_true, decide_eq_true_eq] at hlevel
        exact hlevel.1
      rcases he.1 d hd with h0 | h1 <;> omega
  exact hnone ▸ h.replays.applyEdit S e

theorem versionOf_append (S : StdSort) (es : List VersionEdit) (e : VersionEdit) :
    versionOf S (es ++ [e]) = (versionOf S es).applyEdit S e := by
  rw [versionOf, List.foldl_append]
  rfl

/-! ## The invariant -/

/-- **What the file and the memory hold**: records `recs` and a `tail` that is
not read, which replay to the version of the edits `logged`; and in memory the
version of the edits `mem`. The edits whose calls returned true are among
both. -/
structure Inv (S : StdSort) (s : ManifestLog) (recs : List VersionEdit) (tail : List Byte)
    (mem logged : List VersionEdit) : Prop where
  file : s.file = recs.flatMap frame ++ tail
  readable : ∀ r ∈ recs, Readable r
  unread : ∀ n, readRecords n tail = []
  memory : SameFiles s.vs.current (versionOf S mem)
  disk : SameFiles (recs.foldl Version.applyRecovered .empty) (versionOf S logged)
  ackedMem : s.acked.Sublist mem
  memCalls : mem.Sublist s.calls
  ackedLogged : s.acked.Sublist logged
  loggedCalls : logged.Sublist s.calls

section

variable {recs : List VersionEdit} {tail : List Byte} {mem logged : List VersionEdit}

theorem readRecords_nil (n : ℕ) : readRecords n [] = [] := by
  cases n <;> rfl

theorem inv_fresh : Inv S {} [] [] [] [] where
  file := rfl
  readable r hr := by cases hr
  unread := readRecords_nil
  memory _ := List.Perm.refl _
  disk _ := List.Perm.refl _
  ackedMem := List.Sublist.refl _
  memCalls := List.Sublist.refl _
  ackedLogged := List.Sublist.refl _
  loggedCalls := List.Sublist.refl _

section

variable (h : Inv S s recs tail mem logged)
include h

/-- What `recover` reads. -/
theorem Inv.readRecords_file : readRecords s.file.length s.file = recs := by
  have hlen : recs.length ≤ s.file.length := by
    rw [h.file, List.length_append]
    exact (length_le_length_flatMap_frame recs).trans (Nat.le_add_right _ _)
  have hread := readRecords_flatMap_append h.readable h.unread hlen
  rwa [← h.file] at hread

/-- A file of whole records has nothing behind them. -/
theorem Inv.tail_eq_nil (hwhole : Whole s.file) : tail = [] := by
  rw [Whole, h.readRecords_file] at hwhole
  have hfile := h.file
  rw [← hwhole] at hfile
  exact List.self_eq_append_right.mp hfile

/-- The files `recover` finds. -/
theorem Inv.sameFiles_recover :
    SameFiles (VersionSet.recover S s.file).current (versionOf S logged) := by
  intro level
  rw [VersionSet.recover, h.readRecords_file]
  exact (S.perm (Version.strictWeak_levelLt level) _).trans (h.disk level)

theorem Inv.effective : s.Effective S :=
  ⟨logged, List.mem_sublists.mpr h.loggedCalls, h.ackedLogged, h.sameFiles_recover⟩

end

/-! ### Steps -/

theorem sublist_concat {as bs : List VersionEdit} (h : as.Sublist bs) (e : VersionEdit) :
    as.Sublist (bs ++ [e]) := h.trans (List.sublist_append_left bs [e])

section

variable (h : Inv S s recs tail mem logged)
include h

/-- The version in memory after an edit. -/
theorem Inv.memory_logAndApply (e : VersionEdit) :
    SameFiles (s.vs.logAndApply S e).current (versionOf S (mem ++ [e])) := by
  rw [VersionSet.logAndApply_current, versionOf_append]
  exact h.memory.applyEdit S e

/-- What the records replay to after one more. -/
theorem Inv.disk_append (he : Shallow e) :
    SameFiles ((recs ++ [s.vs.prepare e]).foldl Version.applyRecovered .empty)
      (versionOf S (logged ++ [e])) := by
  rw [List.foldl_append, List.foldl_cons, List.foldl_nil, VersionSet.applyRecovered_prepare,
    versionOf_append]
  exact h.disk.applyRecovered he S

/-- The records with one more. -/
theorem Inv.readable_append (he : Readable (s.vs.prepare e)) :
    ∀ r ∈ recs ++ [s.vs.prepare e], Readable r := by
  intro r hr
  rcases List.mem_append.mp hr with hold | hnew
  · exact h.readable r hold
  · rw [List.mem_singleton.mp hnew]
    exact he

/-- The file with one more record, where it was whole. -/
theorem Inv.file_append (hwhole : Whole s.file) (e : VersionEdit) :
    s.file ++ s.record e = (recs ++ [s.vs.prepare e]).flatMap frame ++ [] := by
  rw [h.file, h.tail_eq_nil hwhole, List.append_nil, List.append_nil, List.flatMap_append,
    List.flatMap_singleton]
  rfl

/-- **A call that returns true.** -/
theorem Inv.logAndApply (he : Shallow e) (hread : Readable (s.vs.prepare e)) (hwhole : Whole s.file)
    (hplain : s.vs.rewrites e = false) :
    Inv S (s.logAndApply S e) (recs ++ [s.vs.prepare e]) [] (mem ++ [e]) (logged ++ [e]) where
  file := by
    show (if s.vs.rewrites e then _ else s.file ++ s.record e) = _
    rw [hplain]
    exact h.file_append hwhole e
  readable := h.readable_append hread
  unread := readRecords_nil
  memory := h.memory_logAndApply e
  disk := h.disk_append he
  ackedMem := h.ackedMem.append (List.Sublist.refl _)
  memCalls := h.memCalls.append (List.Sublist.refl _)
  ackedLogged := h.ackedLogged.append (List.Sublist.refl _)
  loggedCalls := h.loggedCalls.append (List.Sublist.refl _)

/-- **A call that returns true and rewrites the file.** The edits in memory are
then the ones on disk. -/
theorem Inv.rewrite (hrw : s.vs.rewrites e = true)
    (hread : ∀ r ∈ (s.vs.logAndApply S e).manifest, Readable r) :
    Inv S (s.logAndApply S e) (s.vs.logAndApply S e).manifest [] (mem ++ [e]) (mem ++ [e]) where
  file := by
    show (if s.vs.rewrites e then _ else s.file ++ s.record e) = _
    rw [hrw, List.append_nil]
    rfl
  readable := hread
  unread := readRecords_nil
  memory := h.memory_logAndApply e
  disk := by
    refine SameFiles.trans ?_ (h.memory_logAndApply e)
    unfold VersionSet.logAndApply
    dsimp only
    rw [if_pos hrw]
    exact sameFiles_of_replays (VersionSet.replays_snapshotEdit _ _)
  ackedMem := h.ackedMem.append (List.Sublist.refl _)
  memCalls := h.memCalls.append (List.Sublist.refl _)
  ackedLogged := h.ackedMem.append (List.Sublist.refl _)
  loggedCalls := h.memCalls.append (List.Sublist.refl _)

/-- **A call that returns false**, after any number of bytes: the record is not
read back, or it is and the edit is one of those on disk. -/
theorem Inv.logFails (he : Shallow e) (hread : Readable (s.vs.prepare e)) {n : ℕ}
    (hn : n = 0 ∨ Whole s.file) :
    ∃ recs' tail' logged', Inv S (s.logFails e n) recs' tail' mem logged' := by
  rcases hn with rfl | hwhole
  · exact ⟨recs, tail, logged,
      { h with
        file := by
          show s.file ++ (s.record e).take 0 = _
          rw [List.take_zero, List.append_nil, h.file]
        memCalls := sublist_concat h.memCalls e
        loggedCalls := sublist_concat h.loggedCalls e }⟩
  · by_cases hlt : n < (s.record e).length
    · refine ⟨recs, (s.record e).take n, logged,
        { h with
          file := ?_
          unread := readRecords_take_frame hread.2 hlt
          memCalls := sublist_concat h.memCalls e
          loggedCalls := sublist_concat h.loggedCalls e }⟩
      show s.file ++ (s.record e).take n = _
      rw [h.file, h.tail_eq_nil hwhole, List.append_nil]
    · refine ⟨recs ++ [s.vs.prepare e], [], logged ++ [e],
        { file := ?_
          readable := h.readable_append hread
          unread := readRecords_nil
          memory := h.memory
          disk := h.disk_append he
          ackedMem := h.ackedMem
          memCalls := sublist_concat h.memCalls e
          ackedLogged := sublist_concat h.ackedLogged e
          loggedCalls := h.loggedCalls.append (List.Sublist.refl _) }⟩
      show s.file ++ (s.record e).take n = _
      rw [List.take_of_length_le (Nat.le_of_not_lt hlt)]
      exact h.file_append hwhole e

/-- **The next process** has in memory what is on disk. -/
theorem Inv.reopen : Inv S (s.reopen S) recs tail logged logged :=
  { h with
    memory := h.sameFiles_recover
    ackedMem := h.ackedLogged
    memCalls := h.loggedCalls }

end

end

/-- The invariant, whatever the records and edits are. -/
def Sound (S : StdSort) (s : ManifestLog) : Prop :=
  ∃ recs tail mem logged, Inv S s recs tail mem logged

theorem Sound.step {a : ManifestAction} (h : s.Sound S) (hok : s.CarefulStep S a)
    (hs : s.step S a = some s') : s'.Sound S := by
  obtain ⟨recs, tail, mem, logged, h⟩ := h
  cases a with
  | newFileNumber =>
    cases hs
    exact ⟨recs, tail, mem, logged, { h with }⟩
  | logAndApply e =>
    cases hs
    obtain ⟨he, hread, hfile⟩ := hok
    split_ifs at hfile with hrw
    · exact ⟨_, _, _, _, h.rewrite hrw hfile⟩
    · exact ⟨_, _, _, _, h.logAndApply he hread hfile (by simpa using hrw)⟩
  | logFails e n =>
    cases hs
    obtain ⟨recs', tail', logged', h'⟩ := h.logFails hok.1 hok.2.1 hok.2.2
    exact ⟨_, _, _, _, h'⟩
  | crash e n =>
    cases hs
    obtain ⟨recs', tail', logged', h'⟩ := h.logFails hok.1 hok.2.1 hok.2.2
    exact ⟨_, _, _, _, h'.reopen⟩

/-! ## What takes effect -/

/-- **Every edit whose call returned true takes effect** in the version the next
`recover` builds, after any run of calls that return true, calls that stop
after any number of bytes, and kills – as long as no record is appended to a
file that ends in the middle of one, unless the file is then rewritten. -/
theorem effective_of_runOk (S : StdSort) {actions : List ManifestAction}
    (hok : RunOk (step S) (CarefulStep S) {} actions)
    (hrun : runSteps (step S) {} actions = some s) : s.Effective S := by
  have hsound : s.Sound S := invariant_of_runOk (fun _ _ _ h hok hs => Sound.step h hok hs)
    ⟨_, _, _, _, inv_fresh⟩ hok hrun
  obtain ⟨_, _, _, _, h⟩ := hsound
  exact h.effective

/-- The edit of a flush that adds a file to L0. -/
def flushed (seq : ℕ) : VersionEdit := ({} : VersionEdit).addFile 0 seq 24 [97] [98]

/-- A record is cut short by a kill, after another was whole though its call
failed. -/
def tornLast : List ManifestAction :=
  [.newFileNumber, .logAndApply (flushed 2), .newFileNumber, .logFails (flushed 3) 99,
    .newFileNumber, .logAndApply (flushed 4), .newFileNumber, .crash (flushed 5) 7]

theorem effective_of_runOk_tornLast :
    (finalState (step StdSort.insertion) {} tornLast).acked = [flushed 2, flushed 4]
      ∧ (finalState (step StdSort.insertion) {} tornLast).Effective StdSort.insertion :=
  ⟨by decide +kernel, effective_of_runOk StdSort.insertion
    (by decide +kernel : RunOk (step StdSort.insertion) (CarefulStep StdSort.insertion) {} tornLast)
    (runSteps_eq_finalState (by decide +kernel))⟩

/-- A record is cut short by a kill, and the next process logs another. -/
def tornCalls : List ManifestAction :=
  [.newFileNumber, .logAndApply (flushed 2), .newFileNumber, .crash (flushed 3) 7,
    .newFileNumber, .logAndApply (flushed 4)]

/-- **An edit logged behind an incomplete record is lost.** Its call returned
true, and the version in memory has its file; the next `recover` finds only the
file of the edit before the incomplete one. -/
theorem not_effective_tornCalls :
    runSteps (step StdSort.insertion) {} tornCalls
        = some (finalState (step StdSort.insertion) {} tornCalls)
      ∧ (finalState (step StdSort.insertion) {} tornCalls).acked = [flushed 2, flushed 4]
      ∧ ((finalState (step StdSort.insertion) {} tornCalls).vs.current.files 0).map
          FileMetaData.sequence = [4, 2]
      ∧ ((VersionSet.recover StdSort.insertion
          (finalState (step StdSort.insertion) {} tornCalls).file).current.files 0).map
            FileMetaData.sequence = [2]
      ∧ ¬ (finalState (step StdSort.insertion) {} tornCalls).Effective StdSort.insertion :=
  ⟨runSteps_eq_finalState (by decide +kernel), by decide +kernel, by decide +kernel,
    by decide +kernel, by decide +kernel⟩

end ManifestLog
