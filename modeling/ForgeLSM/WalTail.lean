import ForgeLSM.Util.Run
import ForgeLSM.WalFile

/-!
# The write-ahead logs across crashes

A process appends records to the log that is open and syncs it; it is killed
when some of the bytes on their way have reached the file, perhaps in the
middle of a record; the next process replays the files and opens the highest of
them to append to. It does not cut off what the file has behind its last whole
record.

So a record that is synced is not always replayed: the bytes of a torn record
and of the one appended behind it are read as one, whose checksum is wrong, and
the replay stops there (`WalDir.not_durable_tornRun`). It is replayed, by every
process from then on, if no records are synced to a file that ends in the middle
of one (`WalDir.durable_of_runOk`).

The removal of files whose records have been flushed is not part of this; a
rotation only opens the next file.
-/

/-- The log that is open: its number, and its `buffer_`. -/
structure OpenWal where
  id : ℕ
  buffer : List Byte := []
  /-- The calls the bytes of the buffer are from. -/
  pending : List WALCall := []
  deriving DecidableEq

/-- **The files of the write-ahead logs**, and the process that has one of them
open, if there is one. -/
structure WalDir where
  files : OrdMap ℕ (List Byte) := .empty
  open_ : Option OpenWal := none
  /-- The records whose sync has returned, with the file they are in. -/
  synced : List (ℕ × WALEntry) := []
  deriving DecidableEq

/-- What can happen to the files. -/
inductive WalAction where
  | append (c : WALCall)
  | sync
  | rotate
  /-- The process is killed when so many bytes of the buffer have reached the
  file. -/
  | crash (n : ℕ)
  | recover
  deriving DecidableEq

namespace WalDir

/-- The bytes of a file. -/
def file (s : WalDir) (id : ℕ) : List Byte := (s.files.get id).getD []

/-- The log as its object sees it. -/
def wal (s : WalDir) (w : OpenWal) : WAL := ⟨s.file w.id, w.buffer⟩

/-- A file is opened: it is created when it is not there. -/
def openFile (s : WalDir) (id : ℕ) : WalDir :=
  { s with files := s.files.insert id (s.file id), open_ := some { id := id } }

/-- The open log gets a record. -/
def append (s : WalDir) (w : OpenWal) (c : WALCall) : WalDir :=
  { s with
    open_ := some { w with buffer := ((s.wal w).call c).buffer, pending := w.pending ++ [c] } }

/-- The open log is synced. -/
def sync (s : WalDir) (w : OpenWal) : WalDir where
  files := s.files.insert w.id (s.wal w).sync.file
  open_ := some { w with buffer := (s.wal w).sync.buffer, pending := [] }
  synced := s.synced ++ w.pending.map (fun c => (w.id, c.entry))

/-- The process is killed. -/
def crash (s : WalDir) (w : OpenWal) (n : ℕ) : WalDir :=
  { s with files := s.files.insert w.id (s.file w.id ++ w.buffer.take n), open_ := none }

/-- The log that `KVStore::recover` opens. -/
def recoverId (s : WalDir) : ℕ := if s.files.maxKey > 0 then s.files.maxKey else 1

/-- **One step.** -/
def step (s : WalDir) : WalAction → Option WalDir
  | .append c => s.open_.map (fun w => s.append w c)
  | .sync => s.open_.map (fun w => s.sync w)
  | .rotate => s.open_.map (fun w => s.openFile (w.id + 1))
  | .crash n => s.open_.map (fun w => s.crash w n)
  | .recover => if s.open_.isSome then none else some (s.openFile s.recoverId)

/-- The records of a file whose sync has returned. -/
def syncedIn (s : WalDir) (id : ℕ) : List WALEntry :=
  s.synced.filterMap (fun p => if p.1 = id then some p.2 else none)

/-- **Every record whose sync has returned is replayed**, in its order. -/
def Durable (s : WalDir) : Prop :=
  ∀ id, (s.syncedIn id).Sublist (WAL.replay (s.file id)).entries

/-- **What a step is careful about**: records are such as a replay believes, and
are not synced to a file that ends in the middle of a record. -/
def CarefulStep (s : WalDir) : WalAction → Prop
  | .append c => c.Sound
  | .sync => ∀ w ∈ s.open_, w.buffer = [] ∨ WAL.Whole (s.file w.id)
  | _ => True

instance decidableCarefulStep (s : WalDir) (a : WalAction) : Decidable (s.CarefulStep a) := by
  cases a <;> unfold CarefulStep <;> infer_instance

/-! ## The invariant -/

variable {s s' : WalDir}

/-- The buffer is the bytes of the calls, and synced records are replayed. -/
structure Inv (s : WalDir) : Prop where
  buffer : ∀ w ∈ s.open_, w.buffer = w.pending.flatMap WALCall.bytes
  sound : ∀ w ∈ s.open_, ∀ c ∈ w.pending, c.Sound
  durable : s.Durable

theorem file_insert (s : WalDir) (files : OrdMap ℕ (List Byte)) (id id' : ℕ) (bs : List Byte)
    (h : s.files = files.insert id bs) :
    s.file id' = if id' = id then bs else (files.get id').getD [] := by
  rw [file, h, OrdMap.get_insert]
  split_ifs <;> rfl

/-- **A file may get longer**: what was replayed still is. -/
theorem Durable.grow (h : s.Durable) (id : ℕ) (more : List Byte)
    (hfiles : s'.files = s.files.insert id (s.file id ++ more)) (hsynced : s'.synced = s.synced) :
    s'.Durable := by
  intro id'
  have hin : s'.syncedIn id' = s.syncedIn id' := by rw [syncedIn, hsynced, syncedIn]
  rw [hin, file_insert s' s.files id id' _ hfiles]
  split_ifs with heq
  · rw [heq]
    exact (h id).trans (WAL.entries_replay_prefix (s.file id) more).sublist
  · exact h id'

theorem Inv.of_closed (hopen : s.open_ = none) (h : s.Durable) : Inv s where
  buffer w hw := by
    rw [hopen] at hw
    cases hw
  sound w hw := by
    rw [hopen] at hw
    cases hw
  durable := h

theorem Inv.openFile (h : Inv s) (id : ℕ) : Inv (s.openFile id) where
  buffer w hw := by
    cases hw
    rfl
  sound w hw c hc := by
    cases hw
    cases hc
  durable := h.durable.grow id [] (by rw [List.append_nil]; rfl) rfl

theorem bytes_ne_nil (c : WALCall) : c.bytes ≠ [] := by
  intro h
  have hlen := congrArg List.length h
  cases c <;> simp [WALCall.bytes, WAL.length_recordBytes] at hlen

/-- **A sync to a file of whole records makes those in the buffer durable.** -/
theorem Inv.sync (h : Inv s) {w : OpenWal} (hw : w ∈ s.open_)
    (hok : w.buffer = [] ∨ WAL.Whole (s.file w.id)) : Inv (s.sync w) where
  buffer w' hw' := by
    cases hw'
    rfl
  sound w' hw' c hc := by
    cases hw'
    cases hc
  durable := by
    have hbuf := h.buffer w hw
    rcases hok with hnil | hwhole
    · -- there was nothing to write
      have hpend : w.pending = [] := by
        rw [hnil] at hbuf
        cases hp : w.pending with
        | nil => rfl
        | cons c cs =>
          rw [hp, List.flatMap_cons] at hbuf
          exact absurd (List.append_eq_nil_iff.mp hbuf.symm).1 (bytes_ne_nil c)
      refine h.durable.grow w.id w.buffer rfl ?_
      show s.synced ++ w.pending.map _ = s.synced
      rw [hpend, List.map_nil, List.append_nil]
    · intro id
      have hin : (s.sync w).syncedIn id
          = s.syncedIn id ++ if w.id = id then w.pending.map WALCall.entry else [] := by
        unfold syncedIn WalDir.sync
        rw [List.filterMap_append, List.filterMap_map]
        congr 1
        split_ifs with heq
        · rw [← List.filterMap_eq_map]
          exact List.filterMap_congr (fun c _ => if_pos heq)
        · exact List.filterMap_eq_nil_iff.mpr (fun c _ => if_neg heq)
      rw [hin, file_insert (s.sync w) s.files w.id id (s.file w.id ++ w.buffer) rfl]
      by_cases heq : id = w.id
      · have hentries := WALCall.entries_replay_flatMap (h.sound w hw) []
        rw [List.append_nil] at hentries
        rw [if_pos heq, if_pos heq.symm, WAL.entries_replay_append hwhole, hbuf, hentries, heq]
        exact (h.durable w.id).append (List.sublist_append_left _ _)
      · rw [if_neg heq, if_neg (Ne.symm heq), List.append_nil]
        exact h.durable id

theorem Inv.step (h : Inv s) {a : WalAction} (hok : s.CarefulStep a) (hs : s.step a = some s') :
    Inv s' := by
  cases a with
  | append c =>
    obtain ⟨w, hw, rfl⟩ := Option.map_eq_some_iff.mp hs
    refine ⟨fun w' hw' => ?_, fun w' hw' d hd => ?_, h.durable⟩
    · cases hw'
      show ((s.wal w).call c).buffer = _
      rw [WAL.call_eq, List.flatMap_append, List.flatMap_singleton, ← h.buffer w hw]
      rfl
    · cases hw'
      rcases List.mem_append.mp hd with hd | hd
      · exact h.sound w hw d hd
      · obtain rfl := List.mem_singleton.mp hd
        exact hok
  | sync =>
    obtain ⟨w, hw, rfl⟩ := Option.map_eq_some_iff.mp hs
    exact h.sync hw (hok w hw)
  | rotate =>
    obtain ⟨w, -, rfl⟩ := Option.map_eq_some_iff.mp hs
    exact h.openFile (w.id + 1)
  | crash n =>
    obtain ⟨w, -, rfl⟩ := Option.map_eq_some_iff.mp hs
    exact Inv.of_closed rfl (h.durable.grow w.id (w.buffer.take n) rfl rfl)
  | recover =>
    unfold WalDir.step at hs
    dsimp only at hs
    split_ifs at hs
    cases hs
    exact h.openFile s.recoverId

/-! ## Durability -/

/-- **What was synced is replayed ever after**, as long as no record is synced to
a file that ends in the middle of one. -/
theorem durable_of_runOk (actions : List WalAction)
    (hok : RunOk step CarefulStep {} actions) (hrun : runSteps step {} actions = some s) :
    s.Durable := by
  have hinit : Inv {} := Inv.of_closed rfl (fun id => List.nil_sublist _)
  exact (invariant_of_runOk (fun s a s' h hok hs => h.step hok hs) hinit hok hrun).durable

/-- A record is torn by a crash. The next process goes on in another file. -/
def rotatedRun : List WalAction :=
  [.recover, .append (.append [97] ⟨1, 9, 1⟩), .sync, .append (.append [98] ⟨1, 19, 1⟩), .crash 5,
    .recover, .rotate, .append (.append [99] ⟨1, 19, 1⟩), .sync]

theorem durable_of_runOk_rotatedRun :
    (finalState step {} rotatedRun).synced
        = [(1, ⟨[97], ⟨1, 9, 1⟩, false⟩), (2, ⟨[99], ⟨1, 19, 1⟩, false⟩)]
      ∧ (finalState step {} rotatedRun).Durable :=
  ⟨by decide +kernel, durable_of_runOk rotatedRun (by decide +kernel)
    (runSteps_eq_finalState (by decide +kernel))⟩

/-- A record is torn by a crash. The next process goes on behind it. -/
def tornRun : List WalAction :=
  [.recover, .append (.append [97] ⟨1, 9, 1⟩), .sync, .append (.append [98] ⟨1, 19, 1⟩), .crash 5,
    .recover, .append (.append [99] ⟨1, 19, 1⟩), .sync]

/-- **A record that was synced behind a torn one is not replayed.** -/
theorem not_durable_tornRun :
    runSteps step {} tornRun = some (finalState step {} tornRun)
      ∧ (finalState step {} tornRun).syncedIn 1
        = [⟨[97], ⟨1, 9, 1⟩, false⟩, ⟨[99], ⟨1, 19, 1⟩, false⟩]
      ∧ (WAL.replay ((finalState step {} tornRun).file 1)).entries = [⟨[97], ⟨1, 9, 1⟩, false⟩]
      ∧ ¬ (finalState step {} tornRun).Durable := by
  have hsynced : (finalState step {} tornRun).syncedIn 1
      = [⟨[97], ⟨1, 9, 1⟩, false⟩, ⟨[99], ⟨1, 19, 1⟩, false⟩] := by decide +kernel
  have hreplay : (WAL.replay ((finalState step {} tornRun).file 1)).entries
      = [⟨[97], ⟨1, 9, 1⟩, false⟩] := by decide +kernel
  refine ⟨runSteps_eq_finalState (by decide +kernel), hsynced, hreplay, fun h => ?_⟩
  have hsub := h 1
  rw [hsynced, hreplay] at hsub
  exact absurd hsub.length_le (by decide)

end WalDir
