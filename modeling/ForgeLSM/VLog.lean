import ForgeLSM.Basic

/-!
# The value log

Values live in append-only files of records, each a key and its value with
their lengths in front. An append goes to a buffer, which `sync` writes out;
the offset handed out counts what the file and the buffer hold together. A
reader goes either by pointer, straight to the value (`VLog.readAt`), or
record by record from the start of the file (`VLog.readNext`), as the
garbage collector does.

`RecordAt` ties the two together: a pointer is good when the bytes of the
log are whole records and the pointer's is one of them. It survives every
later append, it is what `append` establishes, and it is all that both
readers need.
-/

/-- A value log: the bytes of its file, the bytes buffered, and the offset
counter. -/
structure VLog where
  file : List Byte := []
  buffer : List Byte := []
  currentOffset : ℕ := 0
  deriving DecidableEq

/-- A record: a key and its value. -/
abbrev VRecord := Key × Value

namespace VLog

/-- A log opened on a file: the counter starts at the size of the file. -/
def openFile (file : List Byte) : VLog := ⟨file, [], file.length⟩

/-- The bytes of a record. The sizes are cut to 32 bits, and so many bytes are
copied; but `record_len`, by which the buffer is enlarged, is added up in 32 bits
too, and what is copied past it is not in the buffer. -/
def encodeRecord (r : VRecord) : List Byte :=
  let keySize := u32 r.1.length
  let valueSize := u32 r.2.length
  (leBytes 4 keySize ++ leBytes 4 valueSize ++ r.1.take keySize ++ r.2.take valueSize).take
    (u32 (8 + keySize + valueSize))

/-- `VLog::sync`. -/
def sync (l : VLog) : VLog where
  file := l.file ++ l.buffer
  buffer := []
  currentOffset := l.currentOffset + l.buffer.length

/-- The size at which the buffer is written out unasked, 4 MiB. -/
def bufferLimit : ℕ := 4 * 1024 * 1024

/-- **`VLog::append`**: the pointer handed out, and the log after it. -/
def append (l : VLog) (fileId : ℕ) (key : Key) (value : Value) : VLogPointer × VLog :=
  let l' := { l with buffer := l.buffer ++ encodeRecord (key, value) }
  (⟨fileId, l.currentOffset + l.buffer.length + 8 + u32 key.length, u32 value.length⟩,
    if l'.buffer.length ≥ bufferLimit then l'.sync else l')

/-- `platform_pread`: so many bytes from an offset of the file, all or
nothing. No bytes are there at any offset. -/
def pread (file : List Byte) (count offset : ℕ) : Option (List Byte) :=
  if count = 0 ∨ offset + count ≤ file.length then some ((file.drop offset).take count) else none

/-- **`VLog::read_at`.** -/
def readAt (l : VLog) (ptr : VLogPointer) : Option Value :=
  if ptr.length = 0 then some [] else pread l.file ptr.length ptr.offset

/-- **`VLog::read_next`**: the record at an offset of the file, and the offset
of the record behind it. -/
def readNext (l : VLog) (offset : ℕ) : Option (VRecord × ℕ) :=
  match pread l.file 8 offset with
  | none => none
  | some headers =>
    let keySize := leNat (headers.take 4)
    let valueSize := leNat (headers.drop 4)
    match pread l.file keySize (offset + 8), pread l.file valueSize (offset + 8 + keySize) with
    | some key, some value => some ((key, value), offset + 8 + keySize + valueSize)
    | _, _ => none

/-- Everything appended, written out or not. -/
def content (l : VLog) : List Byte := l.file ++ l.buffer

/-- The counter is the size of the file. -/
def Consistent (l : VLog) : Prop := l.currentOffset = l.file.length

/-- A record whose size fits the 32-bit arithmetic of the header. -/
def FitsRecord (r : VRecord) : Prop := 8 + r.1.length + r.2.length < 2 ^ 32

instance (r : VRecord) : Decidable (FitsRecord r) := inferInstanceAs (Decidable (_ < _))

end VLog

/-- **A good pointer**: the bytes are whole records, and the pointer's value
is that of one of them. -/
def RecordAt (bytes : List Byte) (ptr : VLogPointer) (r : VRecord) : Prop :=
  ∃ pre post : List VRecord,
    bytes = (pre ++ r :: post).flatMap VLog.encodeRecord
      ∧ (∀ q ∈ pre ++ r :: post, VLog.FitsRecord q)
      ∧ ptr.offset = (pre.flatMap VLog.encodeRecord).length + 8 + r.1.length
      ∧ ptr.length = r.2.length

/-- The bytes are whole records. -/
def WholeRecords (bytes : List Byte) : Prop :=
  ∃ rs : List VRecord, bytes = rs.flatMap VLog.encodeRecord ∧ ∀ q ∈ rs, VLog.FitsRecord q

/-! ## Appending -/

variable {r : VRecord} {l : VLog}

namespace VLog

/-- A record that fits is written out in full. -/
theorem FitsRecord.encodeRecord_eq (h : FitsRecord r) :
    encodeRecord r = leBytes 4 r.1.length ++ leBytes 4 r.2.length ++ r.1 ++ r.2 := by
  unfold FitsRecord at h
  unfold encodeRecord
  dsimp only
  rw [u32_of_lt (n := r.1.length) (by omega), u32_of_lt (n := r.2.length) (by omega),
    u32_of_lt h, List.take_length, List.take_length]
  exact List.take_of_length_le (by simp only [List.length_append, length_leBytes]; omega)

theorem FitsRecord.length_encodeRecord (h : FitsRecord r) :
    (encodeRecord r).length = 8 + r.1.length + r.2.length := by
  rw [h.encodeRecord_eq]
  simp only [List.length_append, length_leBytes]

@[simp] theorem content_sync (l : VLog) : l.sync.content = l.content := by
  simp [content, sync]

@[simp] theorem buffer_sync (l : VLog) : l.sync.buffer = [] := rfl

@[simp] theorem file_sync (l : VLog) : l.sync.file = l.content := rfl

theorem Consistent.sync (h : l.Consistent) : l.sync.Consistent := by
  unfold Consistent VLog.sync at *
  simp [h]

/-- An append adds its record to the content. -/
theorem content_append (l : VLog) (fileId : ℕ) (key : Key) (value : Value) :
    (l.append fileId key value).2.content = l.content ++ encodeRecord (key, value) := by
  unfold append
  dsimp only
  split_ifs
  · rw [content_sync]
    simp [content]
  · simp [content]

theorem Consistent.append (h : l.Consistent) (fileId : ℕ) (key : Key) (value : Value) :
    (l.append fileId key value).2.Consistent := by
  unfold VLog.append
  dsimp only
  split_ifs
  · exact Consistent.sync (l := { l with buffer := l.buffer ++ encodeRecord (key, value) }) h
  · exact h

end VLog

variable {bytes : List Byte}

theorem WholeRecords.append (h : WholeRecords bytes) (hr : VLog.FitsRecord r) :
    WholeRecords (bytes ++ VLog.encodeRecord r) := by
  obtain ⟨rs, rfl, hfit⟩ := h
  refine ⟨rs ++ [r], by simp, fun q hq => ?_⟩
  rcases List.mem_append.mp hq with hq | hq
  · exact hfit q hq
  · obtain rfl := List.mem_singleton.mp hq
    exact hr

/-- **A good pointer stays good** when a record is appended. -/
theorem RecordAt.append {ptr : VLogPointer} (h : RecordAt bytes ptr r) {q : VRecord}
    (hq : VLog.FitsRecord q) : RecordAt (bytes ++ VLog.encodeRecord q) ptr r := by
  obtain ⟨pre, post, rfl, hfit, hoff, hlen⟩ := h
  refine ⟨pre, post ++ [q], by simp, fun p hp => ?_, hoff, hlen⟩
  rw [← List.cons_append, ← List.append_assoc] at hp
  rcases List.mem_append.mp hp with hp | hp
  · exact hfit p hp
  · obtain rfl := List.mem_singleton.mp hp
    exact hq

/-- **The pointer an append hands out is good.** -/
theorem VLog.recordAt_append (hc : l.Consistent) (hw : WholeRecords l.content) (fileId : ℕ)
    {key : Key} {value : Value} (hfit : FitsRecord (key, value)) :
    RecordAt (l.append fileId key value).2.content (l.append fileId key value).1 (key, value) := by
  obtain ⟨rs, hrs, hall⟩ := hw
  have hsize : key.length < 2 ^ 32 ∧ value.length < 2 ^ 32 := by
    unfold FitsRecord at hfit
    dsimp only at hfit
    omega
  refine ⟨rs, [], ?_, fun q hq => ?_, ?_, u32_of_lt hsize.2⟩
  · rw [content_append, hrs]
    simp
  · rcases List.mem_append.mp hq with hq | hq
    · exact hall q hq
    · obtain rfl := List.mem_singleton.mp hq
      exact hfit
  · show l.currentOffset + l.buffer.length + 8 + u32 key.length = _
    rw [← hrs, content, List.length_append, hc, u32_of_lt hsize.1]

/-! ## Reading -/

namespace VLog

theorem pread_append (pre x post : List Byte) :
    pread (pre ++ x ++ post) x.length pre.length = some x := by
  have hle : pre.length + x.length ≤ (pre ++ x ++ post).length := by
    simp only [List.length_append]
    omega
  rw [pread, if_pos (Or.inr hle), List.append_assoc, List.drop_left, List.take_left]

/-- A slice of a file, found by its offset. -/
theorem pread_of_eq {file x : List Byte} {count offset : ℕ} (pre post : List Byte)
    (hf : file = pre ++ x ++ post) (hc : count = x.length) (ho : offset = pre.length) :
    pread file count offset = some x := by
  subst hf hc ho
  exact pread_append pre x post

/-- What is read has the length asked for, and is in the file. -/
theorem pread_eq_some {file x : List Byte} {count offset : ℕ}
    (h : pread file count offset = some x) :
    x.length = count ∧ (count = 0 ∨ offset + count ≤ file.length) := by
  unfold pread at h
  split_ifs at h with hin
  rw [← Option.some.inj h, List.length_take, List.length_drop]
  omega

/-- What is in the file is read. -/
theorem pread_of_le {file : List Byte} {count offset : ℕ} (h : offset + count ≤ file.length) :
    pread file count offset = some (slice file offset count) := by
  rw [pread, if_pos (Or.inr h), slice]

/-- **The sequential reader reads the record it stands in front of**, whatever
is before and behind it. -/
theorem readNext_encodeRecord (front back : List Byte)
    (hfile : l.file = front ++ (encodeRecord r ++ back)) (hr : FitsRecord r) :
    l.readNext front.length = some (r, front.length + (encodeRecord r).length) := by
  have hsplit : l.file = front ++ (leBytes 4 r.1.length ++ leBytes 4 r.2.length)
      ++ (r.1 ++ r.2 ++ back) := by
    rw [hfile, hr.encodeRecord_eq]
    simp only [List.append_assoc]
  have hsize : 8 + r.1.length + r.2.length < 2 ^ 32 := hr
  have hk : leNat (leBytes 4 r.1.length) = r.1.length := by
    rw [leNat_leBytes, Nat.mod_eq_of_lt]
    omega
  have hv : leNat (leBytes 4 r.2.length) = r.2.length := by
    rw [leNat_leBytes, Nat.mod_eq_of_lt]
    omega
  have htake : (leBytes 4 r.1.length ++ leBytes 4 r.2.length).take 4 = leBytes 4 r.1.length :=
    List.take_left' (length_leBytes 4 _)
  have hdrop : (leBytes 4 r.1.length ++ leBytes 4 r.2.length).drop 4 = leBytes 4 r.2.length :=
    List.drop_left' (length_leBytes 4 _)
  have hkey : pread l.file r.1.length (front.length + 8) = some r.1 := by
    refine pread_of_eq (front ++ (leBytes 4 r.1.length ++ leBytes 4 r.2.length)) (r.2 ++ back)
      ?_ rfl ?_
    · rw [hsplit]
      simp only [List.append_assoc]
    · simp only [List.length_append, length_leBytes]
  have hval : pread l.file r.2.length (front.length + 8 + r.1.length) = some r.2 := by
    refine pread_of_eq (front ++ (leBytes 4 r.1.length ++ leBytes 4 r.2.length ++ r.1)) back
      ?_ rfl ?_
    · rw [hsplit]
      simp only [List.append_assoc]
    · simp only [List.length_append, length_leBytes]
      omega
  unfold readNext
  rw [pread_of_eq _ _ hsplit (by simp) rfl]
  simp only [htake, hdrop, hk, hv, hkey, hval, hr.length_encodeRecord]
  congr 2
  omega

/-- **The sequential reader reads whole records one by one.** -/
theorem readNext_records (pre post : List VRecord)
    (hfile : l.file = (pre ++ r :: post).flatMap encodeRecord) (hr : FitsRecord r) :
    l.readNext (pre.flatMap encodeRecord).length
      = some (r, ((pre ++ [r]).flatMap encodeRecord).length) := by
  rw [readNext_encodeRecord _ (post.flatMap encodeRecord) (by rw [hfile]; simp) hr]
  simp

/-- At the end of the file there is no record. -/
theorem readNext_end (l : VLog) : l.readNext l.file.length = none := by
  unfold readNext pread
  rw [if_neg (by omega)]

end VLog

/-! ## Where the records are -/

/-- **Records are told apart**: bytes are a list of records in one way. -/
theorem flatMap_encodeRecord_inj {rs us : List VRecord} (hrs : ∀ q ∈ rs, VLog.FitsRecord q)
    (hus : ∀ q ∈ us, VLog.FitsRecord q)
    (h : rs.flatMap VLog.encodeRecord = us.flatMap VLog.encodeRecord) : rs = us := by
  induction rs generalizing us with
  | nil =>
    cases us with
    | nil => rfl
    | cons u us =>
      have hlen := congrArg List.length h
      rw [List.flatMap_cons, List.length_append,
        (hus u List.mem_cons_self).length_encodeRecord] at hlen
      simp only [List.flatMap_nil, List.length_nil] at hlen
      omega
  | cons r rs ih =>
    cases us with
    | nil =>
      have hlen := congrArg List.length h
      rw [List.flatMap_cons, List.length_append,
        (hrs r List.mem_cons_self).length_encodeRecord] at hlen
      simp only [List.flatMap_nil, List.length_nil] at hlen
      omega
    | cons u us =>
      -- the sequential reader reads one record at the start
      have hr := VLog.readNext_records (l := VLog.openFile ((r :: rs).flatMap VLog.encodeRecord))
        [] rs rfl (hrs r List.mem_cons_self)
      have hu := VLog.readNext_records (l := VLog.openFile ((r :: rs).flatMap VLog.encodeRecord))
        [] us h (hus u List.mem_cons_self)
      rw [hr] at hu
      obtain rfl : r = u := congrArg Prod.fst (Option.some.inj hu)
      rw [List.flatMap_cons, List.flatMap_cons, List.append_cancel_left_eq] at h
      rw [ih (fun q hq => hrs q (List.mem_cons_of_mem r hq))
        (fun q hq => hus q (List.mem_cons_of_mem r hq)) h]

/-- **A good pointer past some records** leads to the next record, or past
it. -/
theorem RecordAt.next {ptr : VLogPointer} (h : RecordAt bytes ptr r) {pre post : List VRecord}
    (hbytes : bytes = (pre ++ post).flatMap VLog.encodeRecord)
    (hfit : ∀ q ∈ pre ++ post, VLog.FitsRecord q)
    (hle : (pre.flatMap VLog.encodeRecord).length + 8 + r.1.length ≤ ptr.offset) :
    ∃ q rest, post = q :: rest
      ∧ (q = r ∧ ptr.offset = (pre.flatMap VLog.encodeRecord).length + 8 + r.1.length
        ∨ ((pre ++ [q]).flatMap VLog.encodeRecord).length + 8 + r.1.length ≤ ptr.offset) := by
  obtain ⟨pre', post', hbytes', hfit', hoff, -⟩ := h
  have hlists : pre ++ post = pre' ++ r :: post' :=
    flatMap_encodeRecord_inj hfit hfit' (hbytes.symm.trans hbytes')
  rcases List.append_eq_append_iff.mp hlists with ⟨mid, rfl, hpost⟩ | ⟨mid, rfl, hpost⟩
  · cases mid with
    | nil =>
      refine ⟨r, post', hpost, Or.inl ⟨rfl, ?_⟩⟩
      rw [hoff, List.append_nil]
    | cons q mid =>
      refine ⟨q, mid ++ r :: post', hpost, Or.inr ?_⟩
      have hsplit : (pre ++ q :: mid).flatMap VLog.encodeRecord
          = (pre ++ [q]).flatMap VLog.encodeRecord ++ mid.flatMap VLog.encodeRecord := by
        simp
      rw [hoff, hsplit, List.length_append]
      omega
  · cases mid with
    | nil =>
      refine ⟨r, post', hpost.symm, Or.inl ⟨rfl, ?_⟩⟩
      rw [hoff, List.append_nil]
    | cons q mid =>
      -- the record is among those passed
      obtain ⟨rfl, -⟩ := List.cons.inj hpost
      rw [hoff, List.flatMap_append, List.flatMap_cons, List.length_append, List.length_append,
        (hfit' r (List.mem_append_right pre' List.mem_cons_self)).length_encodeRecord] at hle
      omega

/-! ## The range of a pointer -/

/-- The range of the pointer is inside the bytes, and has the value. -/
def VLogPointer.Holds (p : VLogPointer) (bytes : List Byte) (v : Value) : Prop :=
  p.offset + p.length ≤ bytes.length ∧ slice bytes p.offset p.length = v

variable {p : VLogPointer} {v : Value}

theorem VLogPointer.Holds.mono {bytes bytes' : List Byte} (h : p.Holds bytes v)
    (hle : bytes <+: bytes') : p.Holds bytes' v := by
  obtain ⟨hlen, rfl⟩ := h
  obtain ⟨more, rfl⟩ := hle
  refine ⟨by rw [List.length_append]; omega, ?_⟩
  unfold slice
  rw [List.drop_append_of_le_length (by omega), List.take_append_of_le_length]
  rw [List.length_drop]
  omega

theorem VLogPointer.Holds.length_eq (h : p.Holds bytes v) : v.length = p.length := by
  obtain ⟨hlen, rfl⟩ := h
  unfold slice
  rw [List.length_take, List.length_drop]
  omega

/-- A good pointer has its value in its range. -/
theorem RecordAt.holds {k : Key} (h : RecordAt bytes p (k, v)) : p.Holds bytes v := by
  obtain ⟨pre, post, rfl, hfit, hoff, hlen⟩ := h
  have hlen : p.length = v.length := hlen
  have hr : VLog.FitsRecord (k, v) := hfit _ (List.mem_append_right pre List.mem_cons_self)
  have hsplit : (pre ++ (k, v) :: post).flatMap VLog.encodeRecord
      = (pre.flatMap VLog.encodeRecord ++ (leBytes 4 k.length ++ leBytes 4 v.length ++ k))
        ++ (v ++ post.flatMap VLog.encodeRecord) := by
    rw [List.flatMap_append, List.flatMap_cons, hr.encodeRecord_eq]
    simp only [List.append_assoc]
  have hfront : p.offset
      = (pre.flatMap VLog.encodeRecord
          ++ (leBytes 4 k.length ++ leBytes 4 v.length ++ k)).length := by
    rw [hoff]
    simp only [List.length_append, length_leBytes]
    omega
  refine ⟨?_, slice_eq _ v _ hsplit hfront hlen⟩
  rw [hsplit, List.length_append, ← hfront, hlen, List.length_append]
  omega

/-- The value in the range of a pointer is what is read. -/
theorem VLogPointer.Holds.readAt (h : p.Holds l.file v) : l.readAt p = some v := by
  obtain ⟨hlen, rfl⟩ := h
  unfold VLog.readAt
  split_ifs with hzero
  · rw [slice, hzero, List.take_zero]
  · exact VLog.pread_of_le hlen

/-- **What a read of a log gives**: the value, when the range of the pointer is
in the file and not still in the buffer. -/
theorem VLogPointer.Holds.readAt_content (h : p.Holds l.content v) :
    l.readAt p = if p.length = 0 ∨ p.offset + p.length ≤ l.file.length then some v else none := by
  by_cases hfile : p.offset + p.length ≤ l.file.length
  · rw [if_pos (Or.inr hfile)]
    obtain ⟨-, rfl⟩ := h
    refine VLogPointer.Holds.readAt ⟨hfile, ?_⟩
    unfold slice VLog.content
    rw [List.drop_append_of_le_length (by omega), List.take_append_of_le_length]
    rw [List.length_drop]
    omega
  · unfold VLog.readAt VLog.pread
    by_cases hzero : p.length = 0
    · obtain ⟨-, rfl⟩ := h
      rw [if_pos hzero, if_pos (Or.inl hzero), slice, hzero, List.take_zero]
    · have hout := not_or.mpr ⟨hzero, hfile⟩
      rw [if_neg hzero, if_neg hout, if_neg hout]
