import ForgeLSM.Util.Run
import ForgeLSM.Util.WriteAll
import ForgeLSM.VLog

/-!
# A value log whose writes fail

`VLog::append` hands out a pointer before a byte of the record is written: it
counts from `current_offset_` and the size of the buffer. `VLog::sync` writes
the buffer out, and when that fails it leaves counter and buffer as they were –
but the bytes that were written stay in the file. `append` syncs a buffer that
is full and does not look at the result.

So a write that fails after some bytes puts counter and file out of step. The
next sync writes the buffer once more, behind them, and returns true; the
pointers then lead too far to the front
(`VLogFile.not_readable_cutShort`). As long as no buffer is written out to a
file that is longer than the counter says, a sync that returns true vouches for
every pointer handed out before it (`VLogFile.readable_of_runOk`).
-/

/-- What the calls of one `VLog::sync` return: those of `write`, and that of
`fsync`. -/
structure SyncIo where
  writes : List WriteResult := []
  fsync : Bool := true
  deriving DecidableEq

namespace VLog

/-- **`VLog::sync`**, with what its calls return, and what it returns. -/
def syncWith (l : VLog) (io : SyncIo) : VLog × Bool :=
  if l.buffer = [] then (l, io.fsync)
  else
    let w := writeAll io.writes l.buffer
    if w.2 then
      (⟨l.file ++ w.1, [], l.currentOffset + l.buffer.length⟩, io.fsync)
    else ({ l with file := l.file ++ w.1 }, false)

/-- **`VLog::append`**, with what the calls of the sync it may make return. -/
def appendWith (l : VLog) (fileId : ℕ) (key : Key) (value : Value) (io : SyncIo) :
    VLogPointer × VLog :=
  let l' := { l with buffer := l.buffer ++ encodeRecord (key, value) }
  (⟨fileId, l.currentOffset + l.buffer.length + 8 + u32 key.length, u32 value.length⟩,
    if l'.buffer.length ≥ bufferLimit then (l'.syncWith io).1 else l')

/-- **What a sync does**: there is nothing to write, or all of it is written, or
some bytes from the start. -/
theorem syncWith_cases (l : VLog) (io : SyncIo) :
    l.buffer = [] ∧ l.syncWith io = (l, io.fsync)
      ∨ l.buffer ≠ [] ∧ (writeAll io.writes l.buffer).2 = true
        ∧ l.syncWith io = (l.sync, io.fsync)
      ∨ l.buffer ≠ [] ∧ (writeAll io.writes l.buffer).2 = false
        ∧ ∃ written, written <+: l.buffer
          ∧ l.syncWith io = ({ l with file := l.file ++ written }, false) := by
  unfold syncWith
  by_cases hempty : l.buffer = []
  · exact Or.inl ⟨hempty, if_pos hempty⟩
  · rw [if_neg hempty]
    cases hok : (writeAll io.writes l.buffer).2 with
    | true =>
      refine Or.inr (Or.inl ⟨hempty, rfl, ?_⟩)
      dsimp only
      rw [if_pos hok, writeAll_eq_of_ok hok]
      rfl
    | false =>
      refine Or.inr (Or.inr ⟨hempty, rfl, _, writeAll_prefix io.writes l.buffer, ?_⟩)
      dsimp only
      rw [if_neg (by simp [hok])]

/-- Where no call fails this is `sync`. -/
theorem syncWith_succeeding (l : VLog) : l.syncWith {} = (l.sync, true) := by
  rcases l.syncWith_cases {} with ⟨hempty, h⟩ | ⟨-, -, h⟩ | ⟨-, hfail, -⟩
  · rw [h, sync, hempty, List.append_nil, List.length_nil, Nat.add_zero, ← hempty]
  · exact h
  · cases hbuf : l.buffer <;> rw [hbuf] at hfail <;> cases hfail

/-- Where no call fails this is `append`. -/
theorem appendWith_succeeding (l : VLog) (fileId : ℕ) (key : Key) (value : Value) :
    l.appendWith fileId key value {} = l.append fileId key value := by
  unfold appendWith append
  dsimp only
  rw [syncWith_succeeding]

/-- **What the counter takes the file to end up as**: the bytes it has counted,
and the buffer. -/
def expected (l : VLog) : List Byte := l.file.take l.currentOffset ++ l.buffer

/-- A write of the buffer, if it succeeds, begins where the counter says. -/
def InStep (l : VLog) (io : SyncIo) : Prop :=
  l.buffer = [] ∨ (writeAll io.writes l.buffer).2 = false ∨ l.Consistent

instance (l : VLog) (io : SyncIo) : Decidable (l.InStep io) :=
  inferInstanceAs (Decidable (_ ∨ _ ∨ l.currentOffset = l.file.length))

end VLog

/-- **A value log in use**, and what has been appended to it. -/
structure VLogFile where
  log : VLog
  /-- The pointers handed out, with their records. -/
  appended : List (VLogPointer × VRecord) := []
  /-- Those handed out before the last sync that returned true. -/
  synced : List (VLogPointer × VRecord) := []
  deriving DecidableEq

/-- The calls on a value log. -/
inductive VLogAction where
  | append (fileId : ℕ) (key : Key) (value : Value) (io : SyncIo)
  | sync (io : SyncIo)
  deriving DecidableEq

namespace VLogFile

/-- A log that has just been opened on a file. -/
def opened (file : List Byte) : VLogFile := { log := VLog.openFile file }

/-- **One call.** -/
def step (s : VLogFile) : VLogAction → Option VLogFile
  | .append fileId key value io =>
    let a := s.log.appendWith fileId key value io
    some { s with log := a.2, appended := s.appended ++ [(a.1, (key, value))] }
  | .sync io =>
    let r := s.log.syncWith io
    some { s with log := r.1, synced := if r.2 then s.appended else s.synced }

/-- **A sync that returned true vouches for the pointers handed out before
it**: each reads its value. -/
def Readable (s : VLogFile) : Prop := ∀ p ∈ s.synced, s.log.readAt p.1 = some p.2.2

instance (s : VLogFile) : Decidable s.Readable := inferInstanceAs (Decidable (∀ p ∈ _, _))

/-- **The condition on a call**: the record fits its header, and no buffer is
written out to a file that is longer than the counter says. -/
def InStep (s : VLogFile) : VLogAction → Prop
  | .append _ key value io => VLog.FitsRecord (key, value)
      ∧ ((s.log.buffer ++ VLog.encodeRecord (key, value)).length ≥ VLog.bufferLimit →
        VLog.InStep { s.log with buffer := s.log.buffer ++ VLog.encodeRecord (key, value) } io)
  | .sync io => s.log.InStep io

instance (s : VLogFile) (a : VLogAction) : Decidable (s.InStep a) := by
  cases a <;> unfold InStep <;> infer_instance

/-! ## The invariant -/

variable {s s' : VLogFile}

/-- The values appended are where the counter takes them to be, and those synced
are in the file. -/
structure Inv (s : VLogFile) : Prop where
  offset : s.log.currentOffset ≤ s.log.file.length
  appended : ∀ p ∈ s.appended, p.1.Holds s.log.expected p.2.2
  synced : ∀ p ∈ s.synced, p.1.Holds s.log.file p.2.2

theorem inv_opened (file : List Byte) : Inv (opened file) where
  offset := le_rfl
  appended p hp := by cases hp
  synced p hp := by cases hp

/-- What a sync does to a log in step: the file gets longer, what the counter
takes it to end up as stays, and after a success the file is that. -/
theorem syncWith_spec {l : VLog} (hoff : l.currentOffset ≤ l.file.length) {io : SyncIo}
    (hin : l.InStep io) :
    (l.syncWith io).1.currentOffset ≤ (l.syncWith io).1.file.length
      ∧ l.file <+: (l.syncWith io).1.file
      ∧ l.expected <+: (l.syncWith io).1.expected
      ∧ ((l.syncWith io).2 = true → l.expected <+: (l.syncWith io).1.file) := by
  rcases l.syncWith_cases io with ⟨hempty, h⟩ | ⟨hne, hok, h⟩ | ⟨-, -, written, -, h⟩ <;> rw [h]
  · refine ⟨hoff, List.prefix_refl _, List.prefix_refl _, fun _ => ?_⟩
    rw [VLog.expected, hempty, List.append_nil]
    exact List.take_prefix _ _
  · -- the whole buffer is written, and begins where the counter says
    have hcons : l.Consistent := by
      rcases hin with hbuf | hfail | hcons
      · exact absurd hbuf hne
      · rw [hfail] at hok
        cases hok
      · exact hcons
    have hfile : l.expected = l.sync.file := by
      rw [VLog.expected, show l.currentOffset = l.file.length from hcons, List.take_length]
      rfl
    have hexp : l.sync.expected = l.sync.file := by
      rw [VLog.expected, show l.sync.currentOffset = l.sync.file.length from hcons.sync,
        List.take_length, VLog.buffer_sync, List.append_nil]
    refine ⟨hcons.sync.le, List.prefix_append _ _, ?_, fun _ => ?_⟩
    · rw [hfile, hexp]
    · rw [hfile]
  · refine ⟨?_, List.prefix_append _ _, ?_, nofun⟩
    · dsimp only
      rw [List.length_append]
      omega
    · unfold VLog.expected
      dsimp only
      rw [List.take_append_of_le_length hoff]

/-- A log keeps the invariant when it is synced. -/
theorem Inv.sync (h : Inv s) {io : SyncIo} (hin : s.log.InStep io) (synced : Bool)
    (hs : synced = true → (s.log.syncWith io).2 = true) :
    Inv { s with
      log := (s.log.syncWith io).1
      synced := if synced then s.appended else s.synced } := by
  obtain ⟨hoff, hfile, hexp, hdone⟩ := syncWith_spec h.offset hin
  refine ⟨hoff, fun p hp => (h.appended p hp).mono hexp, fun p hp => ?_⟩
  cases synced with
  | false => exact (h.synced p hp).mono hfile
  | true => exact (h.appended p hp).mono (hdone (hs rfl))

/-- A record in the buffer is where its pointer says. -/
theorem Inv.buffer (h : Inv s) (fileId : ℕ) {key : Key} {value : Value}
    (hfit : VLog.FitsRecord (key, value)) :
    Inv { s with
      log := { s.log with buffer := s.log.buffer ++ VLog.encodeRecord (key, value) }
      appended := s.appended ++ [(⟨fileId, s.log.currentOffset + s.log.buffer.length + 8
        + u32 key.length, u32 value.length⟩, (key, value))] } := by
  have hexp : VLog.expected { s.log with buffer := s.log.buffer ++ VLog.encodeRecord (key, value) }
      = s.log.expected ++ VLog.encodeRecord (key, value) := by
    unfold VLog.expected
    rw [List.append_assoc]
  refine ⟨h.offset, fun p hp => ?_, h.synced⟩
  rw [hexp]
  rcases List.mem_append.mp hp with hold | hnew
  · exact (h.appended p hold).mono (List.prefix_append _ _)
  · obtain rfl := List.mem_singleton.mp hnew
    have hsize : key.length < 2 ^ 32 ∧ value.length < 2 ^ 32 := by
      unfold VLog.FitsRecord at hfit
      dsimp only at hfit
      omega
    have hsplit : s.log.expected ++ VLog.encodeRecord (key, value)
        = (s.log.expected ++ (leBytes 4 key.length ++ leBytes 4 value.length ++ key))
          ++ (value ++ []) := by
      rw [hfit.encodeRecord_eq]
      simp only [List.append_assoc, List.append_nil]
    have hlen : s.log.expected.length = s.log.currentOffset + s.log.buffer.length := by
      rw [VLog.expected, List.length_append, List.length_take, min_eq_left h.offset]
    refine ⟨?_, slice_eq _ value [] hsplit ?_ (u32_of_lt hsize.2)⟩
    · dsimp only
      rw [hsplit, u32_of_lt hsize.1, u32_of_lt hsize.2]
      simp only [List.length_append, length_leBytes, hlen, List.length_nil]
      omega
    · dsimp only
      rw [u32_of_lt hsize.1]
      simp only [List.length_append, length_leBytes, hlen]
      omega

theorem Inv.step {a : VLogAction} (h : Inv s) (hin : s.InStep a) (hs : s.step a = some s') :
    Inv s' := by
  cases a with
  | append fileId key value io =>
    cases hs
    have hbuf := h.buffer fileId hin.1
    unfold VLog.appendWith
    dsimp only
    split_ifs with hfull
    · have hsync := hbuf.sync (hin.2 hfull) false nofun
      exact hsync
    · exact hbuf
  | sync io =>
    cases hs
    exact h.sync hin _ id

/-- **A sync that returns true vouches for every pointer handed out before
it**, whatever the calls underneath return, in every run in which no buffer is
written out to a file longer than the counter says. -/
theorem readable_of_runOk (file : List Byte) {actions : List VLogAction}
    (hok : RunOk step InStep (opened file) actions)
    (hrun : runSteps step (opened file) actions = some s) : s.Readable := by
  have hinv : Inv s := invariant_of_runOk (fun _ _ _ h hin hs => Inv.step h hin hs)
    (inv_opened file) hok hrun
  exact fun p hp => (hinv.synced p hp).readAt

/-- A sync is interrupted, writes a part, and writes the rest; another fails
before it has written anything, and is repeated. -/
def failsAtOnce : List VLogAction :=
  [.append 1 [97] [1, 2] {}, .sync ⟨[.interrupted, .wrote 3], true⟩,
    .append 1 [98] [3] {}, .sync ⟨[.failed], true⟩, .sync {}]

theorem readable_of_runOk_failsAtOnce :
    (finalState step (opened [0, 0]) failsAtOnce).synced
        = [(⟨1, 11, 2⟩, ([97], [1, 2])), (⟨1, 22, 1⟩, ([98], [3]))]
      ∧ (finalState step (opened [0, 0]) failsAtOnce).Readable :=
  ⟨by decide +kernel, readable_of_runOk [0, 0]
    (by decide +kernel : RunOk step InStep (opened [0, 0]) failsAtOnce)
    (runSteps_eq_finalState (by decide +kernel))⟩

/-- A sync fails after five bytes, and is repeated. -/
def cutShort : List VLogAction :=
  [.append 1 [97] [1, 2] {}, .sync ⟨[.wrote 5, .failed], true⟩, .sync {}]

/-- **A pointer that a sync vouched for reads other bytes.** -/
theorem not_readable_cutShort :
    runSteps step (opened []) cutShort = some (finalState step (opened []) cutShort)
      ∧ (finalState step (opened []) cutShort).synced = [(⟨1, 9, 2⟩, ([97], [1, 2]))]
      ∧ (finalState step (opened []) cutShort).log.readAt ⟨1, 9, 2⟩ = some [2, 0]
      ∧ ¬ (finalState step (opened []) cutShort).Readable :=
  ⟨runSteps_eq_finalState (by decide +kernel), by decide +kernel, by decide +kernel,
    by decide +kernel⟩

end VLogFile
