import ForgeLSM.Crc32
import ForgeLSM.KVStore
import ForgeLSM.TableFormat

/-!
# The bytes of the write-ahead log

A record of the write-ahead log is a header – the size of the key, the pointer,
a checksum of both and the key – and the key. A delete has a length that no
value has for its mark. Records follow each other with nothing in between.

`WAL.replay` reads a file from its start and stops where no whole record with
its checksum follows. What it takes off the input as a record is the bytes of
one (`WAL.readRecord_eq_entry`), so that neither what follows a record nor how
much of the next one is there makes a difference to it: of a file cut anywhere
it returns the records in front of the cut (`WALCall.entries_replay_take`).
-/

/-- `WALEntry`. -/
structure WALEntry where
  key : Key
  pointer : VLogPointer
  isTombstone : Bool := false
  deriving DecidableEq

/-- `ReplayResult`. -/
structure ReplayResult where
  /-- The records read. -/
  entries : List WALEntry
  /-- The file did not end where a record ended. -/
  tainted : Bool
  deriving DecidableEq

/-- A write-ahead log: the bytes of its file, and `buffer_`. -/
structure WAL where
  file : List Byte := []
  buffer : List Byte := []
  deriving DecidableEq

/-- A call that adds a record. -/
inductive WALCall where
  | append (key : Key) (ptr : VLogPointer)
  | appendDelete (key : Key)
  deriving DecidableEq

namespace WAL

/-! ## Writing -/

/-- The length that marks a tombstone. -/
def tombstoneLen : ℕ := 0xFFFFFFFF

/-- The bytes of a record. -/
def recordBytes (key : Key) (vlogId vlogOffset vlogLen : ℕ) : List Byte :=
  let keySize := u32 key.length
  let checksum := recordChecksum keySize vlogId vlogOffset vlogLen key
  leBytes 4 keySize ++ (leBytes 4 vlogId ++ (leBytes 8 vlogOffset ++ (leBytes 4 vlogLen
    ++ (leBytes 4 checksum.toNat ++ key.take keySize))))

/-- **`WAL::append`.** -/
def append (w : WAL) (key : Key) (ptr : VLogPointer) : WAL :=
  { w with buffer := w.buffer ++ recordBytes key ptr.fileId ptr.offset ptr.length }

/-- **`WAL::append_delete`.** -/
def appendDelete (w : WAL) (key : Key) : WAL :=
  { w with buffer := w.buffer ++ recordBytes key 0 0 tombstoneLen }

/-- **`WAL::sync`.** -/
def sync (w : WAL) : WAL := { file := w.file ++ w.buffer, buffer := [] }

/-- One of the two calls. -/
def call (w : WAL) : WALCall → WAL
  | .append key ptr => w.append key ptr
  | .appendDelete key => w.appendDelete key

/-! ## Reading -/

/-- What a round of the loop of `replay` comes to. -/
inductive ReplayStep where
  /-- `hit_eof_cleanly`: fewer bytes are left than the first field has. -/
  | eof
  /-- No whole record follows, or its checksum is wrong. -/
  | broken
  | entry (e : WALEntry) (rest : List Byte)
  deriving DecidableEq

/-- The entry that the fields of a record make. -/
def entryOf (key : Key) (vlogId vlogOffset vlogLen : ℕ) : WALEntry :=
  if vlogLen = tombstoneLen then ⟨key, ⟨0, 0, 0⟩, true⟩
  else ⟨key, ⟨vlogId, vlogOffset, vlogLen⟩, false⟩

/-- A record behind its first field. -/
def readBody (keySize : ℕ) (bs : List Byte) : Option (WALEntry × List Byte) := do
  let (vlogId, bs) ← takeLe 4 bs
  let (vlogOffset, bs) ← takeLe 8 bs
  let (vlogLen, bs) ← takeLe 4 bs
  let (storedChecksum, bs) ← takeLe 4 bs
  if keySize > KVStore.maxFieldSize then none
  else
    let (key, bs) ← takeBytes keySize bs
    if storedChecksum ≠ (recordChecksum keySize vlogId vlogOffset vlogLen key).toNat then none
    else some (entryOf key vlogId vlogOffset vlogLen, bs)

/-- A round of the loop. -/
def readRecord (bs : List Byte) : ReplayStep :=
  match takeLe 4 bs with
  | none => .eof
  | some (keySize, bs) =>
    match readBody keySize bs with
    | none => .broken
    | some (e, rest) => .entry e rest

/-- The loop, for so many rounds. -/
def replayLoop : ℕ → List Byte → ReplayResult
  | 0, _ => ⟨[], false⟩
  | fuel + 1, bs =>
    match readRecord bs with
    | .eof => ⟨[], false⟩
    | .broken => ⟨[], true⟩
    | .entry e rest =>
      let r := replayLoop fuel rest
      ⟨e :: r.entries, r.tainted⟩

/-- **`WAL::replay`** of the bytes of a file. A round takes bytes off them, so
that there are not more rounds than bytes. -/
def replay (file : List Byte) : ReplayResult := replayLoop (file.length + 1) file

end WAL

namespace WALCall

open WAL

/-- The bytes a call adds. -/
def bytes : WALCall → List Byte
  | append key ptr => recordBytes key ptr.fileId ptr.offset ptr.length
  | appendDelete key => recordBytes key 0 0 tombstoneLen

/-- **What a call stands for.** -/
def entry : WALCall → WALEntry
  | append key ptr => ⟨key, ptr, false⟩
  | appendDelete key => ⟨key, ⟨0, 0, 0⟩, true⟩

/-- What is read back of a record: sizes are cut to 32 bits when it is written. -/
def readBack : WALCall → WALEntry
  | append key ptr => entryOf (key.take (u32 key.length)) ptr.fileId ptr.offset ptr.length
  | appendDelete key => entryOf (key.take (u32 key.length)) 0 0 tombstoneLen

/-- The key of the record. -/
def key : WALCall → Key
  | append key _ => key
  | appendDelete key => key

/-- The numbers of the pointer fit their types. -/
def Fits : WALCall → Prop
  | append _ ptr => ptr.Fits
  | appendDelete _ => True

/-- The key is one that `replay` believes, the numbers of the pointer fit their
types, and its length is not the mark of a tombstone. -/
def Sound : WALCall → Prop
  | append key ptr => key.length ≤ KVStore.maxFieldSize ∧ ptr.Fits ∧ ptr.length ≠ tombstoneLen
  | appendDelete key => key.length ≤ KVStore.maxFieldSize

instance decidableSound (c : WALCall) : Decidable c.Sound := by
  cases c <;> unfold Sound <;> infer_instance

end WALCall

namespace WAL

/-! ## One record -/

theorem length_recordBytes (key : Key) (vlogId vlogOffset vlogLen : ℕ) :
    (recordBytes key vlogId vlogOffset vlogLen).length = 24 + u32 key.length := by
  have hle : u32 key.length ≤ key.length := Nat.mod_le _ _
  simp only [recordBytes, List.length_append, length_leBytes, List.length_take, min_eq_left hle]
  omega

theorem recordChecksum_lt (keySize vlogId vlogOffset vlogLen : ℕ) (key : Key) :
    (recordChecksum keySize vlogId vlogOffset vlogLen key).toNat < 256 ^ 4 := by
  simpa using (recordChecksum keySize vlogId vlogOffset vlogLen key).isLt

/-- **The round trip of a record**, whatever follows it. -/
theorem readRecord_recordBytes {vlogId vlogOffset vlogLen : ℕ} (key : Key) (hid : vlogId < 2 ^ 32)
    (hoff : vlogOffset < 2 ^ 64) (hlen : vlogLen < 2 ^ 32) (rest : List Byte) :
    readRecord (recordBytes key vlogId vlogOffset vlogLen ++ rest)
      = if u32 key.length > KVStore.maxFieldSize then .broken
        else .entry (entryOf (key.take (u32 key.length)) vlogId vlogOffset vlogLen) rest := by
  have hsize : u32 key.length < 256 ^ 4 := u32_lt key.length
  have hkey : (key.take (u32 key.length)).length = u32 key.length :=
    List.length_take_of_le (Nat.mod_le _ _)
  unfold readRecord readBody recordBytes
  simp only [List.append_assoc, takeLe_leBytes hsize,
    takeLe_leBytes (show vlogId < 256 ^ 4 from hid),
    takeLe_leBytes (show vlogOffset < 256 ^ 8 from hoff),
    takeLe_leBytes (show vlogLen < 256 ^ 4 from hlen), takeLe_leBytes (recordChecksum_lt ..),
    takeBytes_append_of_length rest hkey, recordChecksum_take, Option.bind_eq_bind,
    Option.bind_some, ne_eq, not_true_eq_false, if_false]
  by_cases hbig : u32 key.length > KVStore.maxFieldSize
  · rw [if_pos hbig, if_pos hbig]
  · rw [if_neg hbig, if_neg hbig]

variable {bs rest : List Byte} {e : WALEntry}

section

variable (h : readRecord bs = .entry e rest)
include h

/-- **What is read as a record is the bytes of one.** -/
theorem readRecord_eq_entry :
    ∃ (key : Key) (vlogId vlogOffset vlogLen : ℕ),
      bs = recordBytes key vlogId vlogOffset vlogLen ++ rest
        ∧ key.length ≤ KVStore.maxFieldSize
        ∧ vlogId < 2 ^ 32 ∧ vlogOffset < 2 ^ 64 ∧ vlogLen < 2 ^ 32
        ∧ e = entryOf key vlogId vlogOffset vlogLen := by
  unfold readRecord at h
  split at h
  · cases h
  · rename_i keySize bs1 hsize
    split at h
    · cases h
    · rename_i e' rest' hbody
      cases h
      unfold readBody at hbody
      simp only [Option.bind_eq_bind, Option.bind_eq_some_iff, Prod.exists] at hbody
      obtain ⟨vlogId, bs2, hid, vlogOffset, bs3, hoff, vlogLen, bs4, hlen, stored, bs5, hsum,
        hbody⟩ := hbody
      split_ifs at hbody with hbig
      simp only [Option.bind_eq_some_iff, Prod.exists] at hbody
      obtain ⟨key, bs6, hkey, hbody⟩ := hbody
      split_ifs at hbody with hne
      cases hbody
      obtain ⟨hks, rfl⟩ := takeLe_eq_some.mp hsize
      obtain ⟨hid', rfl⟩ := takeLe_eq_some.mp hid
      obtain ⟨hoff', rfl⟩ := takeLe_eq_some.mp hoff
      obtain ⟨hlen', rfl⟩ := takeLe_eq_some.mp hlen
      obtain ⟨-, rfl⟩ := takeLe_eq_some.mp hsum
      obtain ⟨rfl, rfl⟩ := takeBytes_eq_some.mp hkey
      have hu : u32 key.length = key.length := u32_of_lt hks
      refine ⟨key, vlogId, vlogOffset, vlogLen, ?_, not_lt.mp hbig, hid', hoff', hlen', rfl⟩
      rw [not_not] at hne
      simp only [recordBytes, hu, List.take_length, List.append_assoc, hne]

/-- What follows a record does not matter to it. -/
theorem readRecord_append (more : List Byte) :
    readRecord (bs ++ more) = .entry e (rest ++ more) := by
  obtain ⟨key, vlogId, vlogOffset, vlogLen, rfl, hkey, hid, hoff, hlen, rfl⟩ :=
    readRecord_eq_entry h
  have hu : u32 key.length = key.length :=
    u32_of_lt (lt_of_le_of_lt hkey (by decide))
  rw [List.append_assoc, readRecord_recordBytes key hid hoff hlen, if_neg (by omega), hu,
    List.take_length]

/-- **A record read is the front of the input**, and is read without the rest. -/
theorem exists_accepted_of_readRecord : ∃ r, readRecord r = .entry e [] ∧ bs = r ++ rest := by
  obtain ⟨key, vlogId, vlogOffset, vlogLen, rfl, hkey, hid, hoff, hlen, rfl⟩ :=
    readRecord_eq_entry h
  have hu : u32 key.length = key.length :=
    u32_of_lt (lt_of_le_of_lt hkey (by decide))
  refine ⟨recordBytes key vlogId vlogOffset vlogLen, ?_, rfl⟩
  have hread := readRecord_recordBytes key hid hoff hlen []
  rwa [List.append_nil, if_neg (by omega), hu, List.take_length] at hread

/-- A record read is taken off the input. -/
theorem length_of_readRecord : rest.length + (24 + e.key.length) = bs.length := by
  obtain ⟨key, vlogId, vlogOffset, vlogLen, rfl, hkey, -, -, -, rfl⟩ := readRecord_eq_entry h
  have hu : u32 key.length = key.length :=
    u32_of_lt (lt_of_le_of_lt hkey (by decide))
  have hk : (entryOf key vlogId vlogOffset vlogLen).key = key := by
    unfold entryOf
    split_ifs <;> rfl
  rw [List.length_append, length_recordBytes, hu, hk]
  omega

end

/-- The first field says how long the record is. -/
theorem length_eq_of_append {key key' : Key}
    {vlogId vlogOffset vlogLen vlogId' vlogOffset' vlogLen' : ℕ}
    {a b : List Byte} (h : recordBytes key vlogId vlogOffset vlogLen ++ a
      = recordBytes key' vlogId' vlogOffset' vlogLen' ++ b) :
    (recordBytes key vlogId vlogOffset vlogLen).length
      = (recordBytes key' vlogId' vlogOffset' vlogLen').length := by
  have hread : ∀ (key : Key) (i o l : ℕ) (a : List Byte),
      (takeLe 4 (recordBytes key i o l ++ a)).map Prod.fst = some (u32 key.length) := by
    intro key i o l a
    have hsize : u32 key.length < 256 ^ 4 := u32_lt key.length
    simp only [recordBytes, List.append_assoc, takeLe_leBytes hsize, Option.map_some]
  have hsize : some (u32 key.length) = some (u32 key'.length) := by
    rw [← hread key, h, hread]
  rw [length_recordBytes, length_recordBytes, Option.some.inj hsize]

/-- **A record cut short is not read.** -/
theorem readRecord_take_ne {key : Key} {vlogId vlogOffset vlogLen n : ℕ}
    (hn : n < (recordBytes key vlogId vlogOffset vlogLen).length) (e : WALEntry)
    (rest : List Byte) :
    readRecord ((recordBytes key vlogId vlogOffset vlogLen).take n) ≠ .entry e rest := by
  intro h
  obtain ⟨key', vlogId', vlogOffset', vlogLen', heq, -⟩ := readRecord_eq_entry h
  have hfull := List.take_append_drop n (recordBytes key vlogId vlogOffset vlogLen)
  rw [heq, List.append_assoc, ← List.append_nil (recordBytes key vlogId vlogOffset vlogLen)]
    at hfull
  have hlen := congrArg List.length heq
  rw [List.length_take, List.length_append, length_eq_of_append hfull] at hlen
  omega

/-! ## The loop -/

/-- More rounds than bytes make no difference. -/
theorem replayLoop_eq {n m : ℕ} {bs : List Byte} (hn : bs.length < n) (hm : bs.length < m) :
    replayLoop n bs = replayLoop m bs := by
  induction n generalizing m bs with
  | zero => exact absurd hn (Nat.not_lt_zero _)
  | succ n ih =>
    cases m with
    | zero => exact absurd hm (Nat.not_lt_zero _)
    | succ m =>
      unfold replayLoop
      cases h : readRecord bs with
      | eof => rfl
      | broken => rfl
      | entry e rest =>
        have hlen := length_of_readRecord h
        have hrest : replayLoop n rest = replayLoop m rest := ih (by omega) (by omega)
        simp only [hrest]

/-- A record is read, and the rest replayed. -/
theorem entries_replay_of_entry (h : readRecord bs = .entry e rest) :
    (replay bs).entries = e :: (replay rest).entries := by
  have hlen := length_of_readRecord h
  have hrest : replayLoop bs.length rest = replay rest := replayLoop_eq (by omega) (by omega)
  unfold replay
  rw [replayLoop, h]
  simp only [hrest]
  rfl

/-- No record is read, and the replay ends. -/
theorem entries_replay_of_ne {bs : List Byte} (h : ∀ e rest, readRecord bs ≠ .entry e rest) :
    (replay bs).entries = [] := by
  unfold replay
  rw [replayLoop]
  cases hr : readRecord bs with
  | eof => rfl
  | broken => rfl
  | entry e rest => exact absurd hr (h e rest)

/-- **How a replay goes on**, as a rule of induction: it reads a record and goes
on behind it, or it ends. -/
theorem replay_induction {motive : List Byte → Prop}
    (entry : ∀ bs e rest, readRecord bs = .entry e rest → motive rest → motive bs)
    (stop : ∀ bs, (∀ e rest, readRecord bs ≠ .entry e rest) → motive bs) (bs : List Byte) :
    motive bs := by
  induction hn : bs.length using Nat.strong_induction_on generalizing bs with
  | _ n ih =>
    cases hr : readRecord bs with
    | eof | broken => exact stop bs (fun e rest h => by rw [hr] at h; cases h)
    | entry e rest =>
      have hlen := length_of_readRecord hr
      exact entry bs e rest hr (ih rest.length (by omega) rest rfl)

/-- **What a replay returns it goes on to return**, whatever is appended to the
file. -/
theorem entries_replay_prefix (bs more : List Byte) :
    (replay bs).entries <+: (replay (bs ++ more)).entries := by
  induction bs using replay_induction with
  | entry bs e rest h ih =>
    rw [entries_replay_of_entry h, entries_replay_of_entry (readRecord_append h more)]
    exact (List.prefix_cons_inj e).mpr ih
  | stop bs h =>
    rw [entries_replay_of_ne h]
    exact List.nil_prefix

/-- **The file is whole records**: those that a replay returns fill it. -/
def Whole (bs : List Byte) : Prop :=
  ((replay bs).entries.map (fun e => 24 + e.key.length)).sum = bs.length

instance (bs : List Byte) : Decidable (Whole bs) := inferInstanceAs (Decidable (_ = _))

/-- A file with a record in front is whole records exactly when the rest is. -/
theorem whole_iff_of_readRecord (hr : readRecord bs = .entry e rest) : Whole bs ↔ Whole rest := by
  have hlen := length_of_readRecord hr
  unfold Whole
  rw [entries_replay_of_entry hr, List.map_cons, List.sum_cons]
  omega

/-- Whole records in which no record is read are none. -/
theorem Whole.eq_nil {bs : List Byte} (h : Whole bs)
    (hr : ∀ e rest, readRecord bs ≠ .entry e rest) : bs = [] := by
  unfold Whole at h
  rw [entries_replay_of_ne hr] at h
  exact List.length_eq_zero_iff.mp h.symm

/-- **What is appended to whole records is replayed behind them.** -/
theorem entries_replay_append {bs : List Byte} (h : Whole bs) (more : List Byte) :
    (replay (bs ++ more)).entries = (replay bs).entries ++ (replay more).entries := by
  induction bs using replay_induction with
  | entry bs e rest hr ih =>
    rw [entries_replay_of_entry (readRecord_append hr more),
      ih ((whole_iff_of_readRecord hr).mp h), entries_replay_of_entry hr, List.cons_append]
  | stop bs hr =>
    obtain rfl := h.eq_nil hr
    rw [entries_replay_of_ne hr, List.nil_append, List.nil_append]

/-! ## The tainted flag -/

/-- A record is read, and the flag is that of the rest. -/
theorem tainted_replay_of_entry (h : readRecord bs = .entry e rest) :
    (replay bs).tainted = (replay rest).tainted := by
  have hlen := length_of_readRecord h
  have hrest : replayLoop bs.length rest = replay rest := replayLoop_eq (by omega) (by omega)
  unfold replay
  rw [replayLoop, h]
  simp only [hrest]
  rfl

/-- **Where no record is read, the flag asks for four bytes**, those of the
first field. -/
theorem tainted_replay_of_ne {bs : List Byte} (h : ∀ e rest, readRecord bs ≠ .entry e rest) :
    (replay bs).tainted = false ↔ bs.length < 4 := by
  have heof : readRecord bs = .eof ↔ bs.length < 4 := by
    rw [← takeLe_eq_none]
    unfold readRecord
    split
    · rename_i hnone
      simp [hnone]
    · rename_i keySize rest hsize
      rw [hsize]
      split <;> simp
  rw [← heof]
  unfold replay
  rw [replayLoop]
  cases hr : readRecord bs with
  | eof => simp
  | broken => simp
  | entry e rest => exact absurd hr (h e rest)

theorem tainted_replay_append {bs : List Byte} (h : Whole bs) (more : List Byte) :
    (replay (bs ++ more)).tainted = (replay more).tainted := by
  induction bs using replay_induction with
  | entry bs e rest hr ih =>
    rw [tainted_replay_of_entry (readRecord_append hr more), ih ((whole_iff_of_readRecord hr).mp h)]
  | stop bs hr =>
    rw [h.eq_nil hr, List.nil_append]

/-- A string that the loop accepts as a record. -/
def Accepted (r : List Byte) : Prop := ∃ e, readRecord r = .entry e []

/-- **A concatenation of accepted records.** -/
def IsRecords (bs : List Byte) : Prop :=
  ∃ records : List (List Byte), (∀ r ∈ records, Accepted r) ∧ records.flatten = bs

/-- A file is a concatenation of accepted records exactly when a replay takes
every byte of it. -/
theorem isRecords_iff_whole (bs : List Byte) : IsRecords bs ↔ Whole bs := by
  constructor
  · rintro ⟨records, hacc, rfl⟩
    induction records with
    | nil => rfl
    | cons r records ih =>
      obtain ⟨e, he⟩ := hacc r List.mem_cons_self
      exact (whole_iff_of_readRecord (readRecord_append he records.flatten)).mpr
        (ih (fun x hx => hacc x (List.mem_cons_of_mem r hx)))
  · intro h
    induction bs using replay_induction with
    | entry bs e rest hr ih =>
      obtain ⟨records, hacc, hflat⟩ := ih ((whole_iff_of_readRecord hr).mp h)
      obtain ⟨r, he, rfl⟩ := exists_accepted_of_readRecord hr
      refine ⟨r :: records, ?_, by rw [List.flatten_cons, hflat]⟩
      intro x hx
      rcases List.mem_cons.mp hx with rfl | hx
      · exact ⟨e, he⟩
      · exact hacc x hx
    | stop bs hr => exact ⟨[], nofun, (h.eq_nil hr).symm⟩

/-- **A file is accepted records and a rest in which no record is read.** -/
theorem exists_whole_append (bs : List Byte) :
    ∃ front rest, bs = front ++ rest ∧ Whole front ∧ ∀ e more, readRecord rest ≠ .entry e more := by
  induction bs using replay_induction with
  | entry bs e rest hr ih =>
    obtain ⟨front, left, rfl, hfront, hleft⟩ := ih
    obtain ⟨r, he, rfl⟩ := exists_accepted_of_readRecord hr
    exact ⟨r ++ front, left, (List.append_assoc r front left).symm,
      (whole_iff_of_readRecord (readRecord_append he front)).mpr hfront, hleft⟩
  | stop bs hr => exact ⟨[], bs, rfl, rfl, hr⟩

/-- A rest in which no record is read is not part of the records. -/
theorem Whole.append_iff {front rest : List Byte} (h : Whole front)
    (hr : ∀ e more, readRecord rest ≠ .entry e more) : Whole (front ++ rest) ↔ rest = [] := by
  have hsum : ((replay (front ++ rest)).entries.map (fun e => 24 + e.key.length)).sum
      = front.length := by
    rw [entries_replay_append h, entries_replay_of_ne hr, List.append_nil]
    exact h
  unfold Whole
  rw [hsum, List.length_append, ← List.length_eq_zero_iff]
  omega

/-- What is shorter than a header is not read. -/
theorem readRecord_ne_of_length_lt {bs : List Byte} (h : bs.length < 24) (e : WALEntry)
    (rest : List Byte) : readRecord bs ≠ .entry e rest := by
  intro hr
  have hlen := length_of_readRecord hr
  omega

/-- **When the flag is exact**: unless the file is accepted records and one, two
or three bytes behind them. The flag is then clear, although these bytes are
left, because the loop takes a first field cut short for the end of the file. -/
theorem tainted_exact_iff (bs : List Byte) :
    (((replay bs).tainted = false ↔ IsRecords bs)
        ↔ ¬ ∃ front rest, bs = front ++ rest ∧ IsRecords front
          ∧ (rest.length = 1 ∨ rest.length = 2 ∨ rest.length = 3))
      ∧ (IsRecords bs ↔ Whole bs) := by
  refine ⟨?_, isRecords_iff_whole bs⟩
  simp only [isRecords_iff_whole]
  obtain ⟨front, rest, rfl, hfront, hrest⟩ := exists_whole_append bs
  have hflag : (replay (front ++ rest)).tainted = false ↔ rest.length < 4 := by
    rw [tainted_replay_append hfront]
    exact tainted_replay_of_ne hrest
  rw [hflag, hfront.append_iff hrest, ← List.length_eq_zero_iff]
  constructor
  · rintro hexact ⟨front', rest', heq, hfront', hlen'⟩
    -- the flag of the other decomposition is clear, and its rest is not empty
    have hshort : ∀ e more, readRecord rest' ≠ .entry e more :=
      readRecord_ne_of_length_lt (by omega)
    have hclear : rest.length < 4 := by
      rw [← hflag, heq, tainted_replay_append hfront', tainted_replay_of_ne hshort]
      omega
    have hwhole : Whole (front' ++ rest') := by
      rw [← heq, hfront.append_iff hrest]
      exact List.length_eq_zero_iff.mp (hexact.mp hclear)
    have hnil := (hfront'.append_iff hshort).mp hwhole
    rw [hnil] at hlen'
    simp at hlen'
  · intro hnone
    constructor
    · intro hlt
      by_contra hpos
      exact hnone ⟨front, rest, rfl, hfront, by omega⟩
    · intro hzero
      omega

/-- One byte is left behind no record, and the flag is clear. -/
theorem tainted_oneByte : (replay [7]).tainted = false ∧ ¬ IsRecords [7] := by
  refine ⟨by decide, ?_⟩
  rw [isRecords_iff_whole]
  decide

end WAL

/-! ## What the calls wrote -/

namespace WALCall

open WAL

/-- A call's record is read back, unless its key is too long to be believed. -/
theorem readRecord_bytes {c : WALCall} (h : c.Fits) (rest : List Byte) :
    readRecord (c.bytes ++ rest)
      = if u32 c.key.length > KVStore.maxFieldSize then .broken else .entry c.readBack rest := by
  cases c with
  | append key ptr => exact readRecord_recordBytes key h.1 h.2.1 h.2.2 rest
  | appendDelete key =>
    exact readRecord_recordBytes key (by decide) (by decide) (by decide) rest

/-- What is sound is read back as what it stands for. -/
theorem Sound.readRecord_bytes {c : WALCall} (h : c.Sound) (rest : List Byte) :
    readRecord (c.bytes ++ rest) = .entry c.entry rest := by
  have hfits : c.Fits ∧ c.key.length ≤ KVStore.maxFieldSize := by
    cases c with
    | append key ptr => exact ⟨h.2.1, h.1⟩
    | appendDelete key => exact ⟨trivial, h⟩
  have hu : u32 c.key.length = c.key.length :=
    u32_of_lt (lt_of_le_of_lt hfits.2 (by decide))
  have hback : c.readBack = c.entry := by
    cases c with
    | append key ptr =>
      rw [readBack, show u32 key.length = key.length from hu, List.take_length, entryOf,
        if_neg h.2.2]
      rfl
    | appendDelete key =>
      rw [readBack, show u32 key.length = key.length from hu, List.take_length, entryOf, if_pos rfl]
      rfl
  rw [WALCall.readRecord_bytes hfits.1, hu, if_neg (not_lt.mpr hfits.2), hback]

theorem readRecord_bytes_take {c : WALCall} {n : ℕ} (hn : n < c.bytes.length) (e : WALEntry)
    (rest : List Byte) : readRecord (c.bytes.take n) ≠ .entry e rest := by
  cases c with
  | append key ptr | appendDelete key => exact readRecord_take_ne hn e rest

variable {calls : List WALCall}

/-- **Records are replayed in their order**, and then what follows. -/
theorem entries_replay_flatMap (h : ∀ c ∈ calls, c.Sound) (rest : List Byte) :
    (replay (calls.flatMap bytes ++ rest)).entries = calls.map entry ++ (replay rest).entries := by
  induction calls with
  | nil => rfl
  | cons c calls ih =>
    rw [List.flatMap_cons, List.append_assoc,
      entries_replay_of_entry ((h c List.mem_cons_self).readRecord_bytes _),
      ih (fun d hd => h d (List.mem_cons_of_mem c hd)), List.map_cons, List.cons_append]

/-- **What is replayed of records cut anywhere** are the first of them. -/
theorem entries_replay_take_prefix (h : ∀ c ∈ calls, c.Fits) (n : ℕ) :
    (replay ((calls.flatMap bytes).take n)).entries <+: calls.map readBack := by
  induction calls generalizing n with
  | nil =>
    rw [List.flatMap_nil, List.take_nil]
    exact List.nil_prefix
  | cons c calls ih =>
    rw [List.flatMap_cons, List.take_append, List.map_cons]
    by_cases hn : c.bytes.length ≤ n
    · rw [List.take_of_length_le hn]
      have hread := readRecord_bytes (h c List.mem_cons_self)
        ((calls.flatMap bytes).take (n - c.bytes.length))
      split_ifs at hread
      · rw [entries_replay_of_ne (fun e rest hr => by rw [hread] at hr; cases hr)]
        exact List.nil_prefix
      · rw [entries_replay_of_entry hread]
        exact (List.prefix_cons_inj _).mpr (ih (fun d hd => h d (List.mem_cons_of_mem c hd)) _)
    · rw [show n - c.bytes.length = 0 by omega, List.take_zero, List.append_nil,
        entries_replay_of_ne (readRecord_bytes_take (by omega))]
      exact List.nil_prefix

/-- Where each record of a row ends, the first at an offset. -/
def recordEnds : ℕ → List WALCall → List (WALCall × ℕ)
  | _, [] => []
  | off, c :: calls => (c, off + c.bytes.length) :: recordEnds (off + c.bytes.length) calls

theorem le_of_mem_recordEnds {off : ℕ} {p : WALCall × ℕ} (hp : p ∈ recordEnds off calls) :
    off ≤ p.2 := by
  induction calls generalizing off with
  | nil => cases hp
  | cons c calls ih =>
    rcases List.mem_cons.mp hp with rfl | hp
    · exact Nat.le_add_right _ _
    · exact le_trans (Nat.le_add_right _ _) (ih hp)

/-- **Of records cut anywhere those in front of the cut are replayed.** -/
theorem entries_replay_take (h : ∀ c ∈ calls, c.Sound) (off n : ℕ) :
    (replay ((calls.flatMap bytes).take n)).entries
      = ((recordEnds off calls).filter (fun p => decide (p.2 ≤ off + n))).map
          (fun p => p.1.entry) := by
  induction calls generalizing off n with
  | nil =>
    rw [List.flatMap_nil, List.take_nil]
    rfl
  | cons c calls ih =>
    rw [List.flatMap_cons, List.take_append, recordEnds]
    by_cases hn : c.bytes.length ≤ n
    · -- the cut is behind the record
      have hle : decide (off + c.bytes.length ≤ off + n) = true := decide_eq_true (by omega)
      have hcut : off + c.bytes.length + (n - c.bytes.length) = off + n := by omega
      rw [List.take_of_length_le hn,
        entries_replay_of_entry ((h c List.mem_cons_self).readRecord_bytes _),
        ih (fun d hd => h d (List.mem_cons_of_mem c hd)) (off + c.bytes.length), hcut,
        List.filter_cons, if_pos hle, List.map_cons]
    · -- the cut is in it, and every other record ends behind it
      have hcut : n - c.bytes.length = 0 := by omega
      have hnone : ((c, off + c.bytes.length) :: recordEnds (off + c.bytes.length) calls).filter
          (fun p => decide (p.2 ≤ off + n)) = [] := by
        refine List.filter_eq_nil_iff.mpr (fun p hp => ?_)
        have hle : off + c.bytes.length ≤ p.2 := by
          rcases List.mem_cons.mp hp with rfl | hp
          · exact le_refl _
          · exact le_of_mem_recordEnds hp
        rw [decide_eq_true_eq]
        omega
      rw [hnone, hcut, List.take_zero, List.append_nil,
        entries_replay_of_ne (readRecord_bytes_take (by omega))]
      rfl

end WALCall

namespace WAL

theorem call_eq (w : WAL) (c : WALCall) :
    w.call c = { w with buffer := w.buffer ++ c.bytes } := by
  cases c <;> rfl

theorem foldl_call (w : WAL) (calls : List WALCall) :
    calls.foldl call w = { w with buffer := w.buffer ++ calls.flatMap WALCall.bytes } := by
  induction calls generalizing w with
  | nil => simp
  | cons c calls ih => rw [List.foldl_cons, ih, call_eq, List.flatMap_cons, List.append_assoc]

/-- **A replay of any truncation.** Records are written to a log that is empty
and synced. A replay of the first `n` bytes returns the records that end within
them, in order, and a replay of the file all of them. -/
theorem replay_truncated (calls : List WALCall) (h : ∀ c ∈ calls, c.Sound) (n : ℕ) :
    (replay ((calls.foldl call {}).sync.file.take n)).entries
        = ((WALCall.recordEnds 0 calls).filter (fun p => decide (p.2 ≤ n))).map
            (fun p => p.1.entry)
      ∧ (replay (calls.foldl call {}).sync.file).entries = calls.map WALCall.entry := by
  have hfile : (calls.foldl call {}).sync.file = calls.flatMap WALCall.bytes := by
    rw [foldl_call]
    rfl
  rw [hfile]
  constructor
  · have hcut := WALCall.entries_replay_take h 0 n
    rw [Nat.zero_add] at hcut
    exact hcut
  · have hall := WALCall.entries_replay_flatMap h []
    rw [List.append_nil] at hall
    rw [hall]
    exact List.append_nil _

/-- Two records, of a put and of a delete. -/
def twoCalls : List WALCall := [.append [97] ⟨1, 9, 3⟩, .appendDelete [98]]

/-- The file ends in the middle of the delete's record. -/
theorem replay_truncated_twoCalls :
    (∀ c ∈ twoCalls, c.Sound)
      ∧ (replay ((twoCalls.foldl call {}).sync.file.take 30)).entries
        = [⟨[97], ⟨1, 9, 3⟩, false⟩]
      ∧ (replay (twoCalls.foldl call {}).sync.file).entries
        = [⟨[97], ⟨1, 9, 3⟩, false⟩, ⟨[98], ⟨0, 0, 0⟩, true⟩] :=
  have hsound : ∀ c ∈ twoCalls, c.Sound := by decide
  have h := replay_truncated twoCalls hsound 30
  ⟨hsound, h.1.trans (by decide), h.2⟩

/-! ## Bursts

A record on disk may not be what was written. As long as the size of the key
stands and the damage lies within 32 bits, the checksum shows it. -/

/-- A record on disk with the checksum it was written with, whatever its fields
are now. -/
def storedBytes (key : Key) (ptr : VLogPointer) (checksum : BitVec 32) : List Byte :=
  leBytes 4 key.length ++ (leBytes 4 ptr.fileId ++ (leBytes 8 ptr.offset ++ (leBytes 4 ptr.length
    ++ (leBytes 4 checksum.toNat ++ key))))

/-- The checksum of a record as it was written. -/
def checksumOf (key : Key) (ptr : VLogPointer) : BitVec 32 :=
  recordChecksum key.length ptr.fileId ptr.offset ptr.length key

/-- What the checksum of a record is of. -/
def streamOf (key : Key) (ptr : VLogPointer) : List Byte :=
  checksumStream key.length ptr.fileId ptr.offset ptr.length key

/-- What `append` writes is stored with its own checksum. -/
theorem recordBytes_eq_storedBytes {key : Key} (hkey : key.length < 2 ^ 32) (ptr : VLogPointer) :
    recordBytes key ptr.fileId ptr.offset ptr.length
      = storedBytes key ptr (checksumOf key ptr) := by
  simp only [recordBytes, storedBytes, checksumOf, u32_of_lt hkey, List.take_length]

/-- A record with a checksum that is not its own is not read. -/
theorem readRecord_storedBytes {key : Key} (hkey : key.length < 2 ^ 32) {ptr : VLogPointer}
    (hptr : ptr.Fits) {checksum : BitVec 32} (hne : checksum ≠ checksumOf key ptr)
    (rest : List Byte) : readRecord (storedBytes key ptr checksum ++ rest) = .broken := by
  have hsum : checksum.toNat < 256 ^ 4 := checksum.isLt
  have hne' : checksum.toNat ≠ (checksumOf key ptr).toNat := fun h => hne (BitVec.eq_of_toNat_eq h)
  unfold readRecord readBody storedBytes
  simp only [List.append_assoc, takeLe_leBytes (show key.length < 256 ^ 4 from hkey),
    takeLe_leBytes (show ptr.fileId < 256 ^ 4 from hptr.1),
    takeLe_leBytes (show ptr.offset < 256 ^ 8 from hptr.2.1),
    takeLe_leBytes (show ptr.length < 256 ^ 4 from hptr.2.2), takeLe_leBytes hsum,
    takeBytes_append, Option.bind_eq_bind, Option.bind_some]
  split_ifs with hbig hsum'
  · rfl
  · rfl
  · exact absurd (not_not.mp hsum') hne'

/-- **Bursts are detected.** A record is changed, without its size, within 32
consecutive bits of what its checksum is of. The checksum is then another, and a
replay that comes to the record stops in front of it. -/
theorem burst_detected (key key' : Key) (ptr ptr' : VLogPointer) (hkey : key.length < 2 ^ 32)
    (hptr : ptr'.Fits) (hsize : key'.length = key.length)
    (hne : streamOf key ptr ≠ streamOf key' ptr') (start : ℕ)
    (hwin : DifferWithin 32 start (streamOf key ptr) (streamOf key' ptr')) :
    recordBytes key ptr.fileId ptr.offset ptr.length = storedBytes key ptr (checksumOf key ptr)
      ∧ checksumOf key ptr ≠ checksumOf key' ptr'
      ∧ ∀ front rest, Whole front →
        replay (front ++ (storedBytes key' ptr' (checksumOf key ptr) ++ rest))
          = ⟨(replay front).entries, true⟩ := by
  have hlen : (streamOf key ptr).length = (streamOf key' ptr').length := by
    simp only [streamOf, checksumStream, List.length_append, length_leBytes, hsize]
  have hsum : checksumOf key ptr ≠ checksumOf key' ptr' := by
    unfold checksumOf
    rw [recordChecksum_eq, recordChecksum_eq]
    intro h
    exact crcUpdate_ne_of_burst _ hlen hne hwin ((BitVec.xor_left_inj _).mp h)
  refine ⟨recordBytes_eq_storedBytes hkey ptr, hsum, fun front rest hfront => ?_⟩
  have hread := readRecord_storedBytes (hsize ▸ hkey) hptr hsum rest
  have hstop : ∀ e more,
      readRecord (storedBytes key' ptr' (checksumOf key ptr) ++ rest) ≠ .entry e more := by
    intro e more h
    rw [hread] at h
    cases h
  have hentries : (replay (front ++ (storedBytes key' ptr' (checksumOf key ptr) ++ rest))).entries
      = (replay front).entries := by
    rw [entries_replay_append hfront, entries_replay_of_ne hstop, List.append_nil]
  have htainted : (replay (front
      ++ (storedBytes key' ptr' (checksumOf key ptr) ++ rest))).tainted = true := by
    rw [tainted_replay_append hfront, ← Bool.not_eq_false, tainted_replay_of_ne hstop]
    simp only [storedBytes, List.length_append, length_leBytes]
    omega
  rw [← hentries, ← htainted]

/-- The lowest bit of the offset of a record is turned over. -/
theorem burst_detected_offset :
    checksumOf [97] ⟨1, 9, 3⟩ ≠ checksumOf [97] ⟨1, 8, 3⟩
      ∧ (replay (storedBytes [97] ⟨1, 8, 3⟩ (checksumOf [97] ⟨1, 9, 3⟩))).entries = [] := by
  have h := burst_detected [97] [97] ⟨1, 9, 3⟩ ⟨1, 8, 3⟩ (by decide) (by decide) rfl (by decide) 64
    (by decide +kernel)
  exact ⟨h.2.1, congrArg ReplayResult.entries (h.2.2 [] [] rfl)⟩

end WAL
