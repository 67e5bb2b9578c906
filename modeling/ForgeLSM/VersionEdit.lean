import ForgeLSM.Basic

/-!
# Version edits and their encoding

A `VersionEdit` is one record of the MANIFEST: the tables it adds, the
tables it deletes, and the file number counter. It is encoded as a sequence
of tagged fields without separators, each integer little-endian, each string
preceded by its length.

`VersionEdit.decodeFrom_encodeTo` is the round trip, for every edit whose
fields fit the widths of the source's types (`VersionEdit.Fits`).
-/

/-- What the version records about a table file. -/
structure FileMetaData where
  sequence : ℕ
  fileSize : ℕ
  minKey : Key
  maxKey : Key
  deriving DecidableEq, Repr

/-- The table's fields fit the widths of their types. -/
def FileMetaData.Fits (f : FileMetaData) : Prop :=
  f.sequence < 2 ^ 32 ∧ f.fileSize < 2 ^ 64 ∧ f.minKey.length < 2 ^ 32
    ∧ f.maxKey.length < 2 ^ 32

instance (f : FileMetaData) : Decidable f.Fits := inferInstanceAs (Decidable (_ ∧ _ ∧ _ ∧ _))

/-- One record of the MANIFEST. Levels are `int`s; the next file number is
present when `has_next_file_sequence_` is set. -/
structure VersionEdit where
  newFiles : List (ℤ × FileMetaData) := []
  deletedFiles : List (ℤ × ℕ) := []
  nextFileSequence : Option ℕ := none
  deriving DecidableEq, Repr

namespace VersionEdit

/-- `VersionEdit::add_file`. -/
def addFile (e : VersionEdit) (level : ℤ) (sequence fileSize : ℕ) (minKey maxKey : Key) :
    VersionEdit :=
  { e with newFiles := e.newFiles ++ [(level, ⟨sequence, fileSize, minKey, maxKey⟩)] }

/-- `VersionEdit::delete_file`. -/
def deleteFile (e : VersionEdit) (level : ℤ) (sequence : ℕ) : VersionEdit :=
  { e with deletedFiles := e.deletedFiles ++ [(level, sequence)] }

/-- `VersionEdit::set_next_file_sequence`. -/
def setNextFileSequence (e : VersionEdit) (seq : ℕ) : VersionEdit :=
  { e with nextFileSequence := some seq }

/-! ## Encoding -/

def kNextFileSequence : ℕ := 1
def kDeletedFile : ℕ := 2
def kNewFile : ℕ := 3

def putUint32 (v : ℕ) : List Byte := leBytes 4 v

def putUint64 (v : ℕ) : List Byte := leBytes 8 v

def putString (str : List Byte) : List Byte := putUint32 str.length ++ str

/-- `static_cast<uint32_t>(level)`. -/
def levelToUint32 (level : ℤ) : ℕ := (level % 2 ^ 32).toNat

/-- `static_cast<int>(level)`. -/
def levelOfUint32 (v : ℕ) : ℤ := if v < 2 ^ 31 then v else (v : ℤ) - 2 ^ 32

/-- The field that sets the file number counter. -/
def putNextFile (seq : ℕ) : List Byte := putUint32 kNextFileSequence ++ putUint32 seq

/-- The field that deletes a table. -/
def putDeleted (d : ℤ × ℕ) : List Byte :=
  putUint32 kDeletedFile ++ (putUint32 (levelToUint32 d.1) ++ putUint32 d.2)

/-- The field that adds a table. -/
def putNewFile (f : ℤ × FileMetaData) : List Byte :=
  putUint32 kNewFile ++ (putUint32 (levelToUint32 f.1) ++ (putUint32 f.2.sequence
    ++ (putUint64 f.2.fileSize ++ (putString f.2.minKey ++ putString f.2.maxKey))))

/-- **`VersionEdit::encode_to`**: the counter if it is set, then the
deletions, then the additions. -/
def encodeTo (e : VersionEdit) : List Byte :=
  (e.nextFileSequence.elim [] putNextFile)
    ++ (e.deletedFiles.flatMap putDeleted ++ e.newFiles.flatMap putNewFile)

/-! ## Decoding -/

/-- Read a string: its length, then its bytes. -/
def getString (bs : List Byte) : Option (List Byte × List Byte) :=
  (takeLe 4 bs).bind (fun p => takeBytes p.1 p.2)

/-- The body of a deletion field. -/
def getDeleted (bs : List Byte) : Option ((ℤ × ℕ) × List Byte) := do
  let (level, bs) ← takeLe 4 bs
  let (seq, bs) ← takeLe 4 bs
  some ((levelOfUint32 level, seq), bs)

/-- The body of an addition field. -/
def getNewFile (bs : List Byte) : Option ((ℤ × FileMetaData) × List Byte) := do
  let (level, bs) ← takeLe 4 bs
  let (sequence, bs) ← takeLe 4 bs
  let (fileSize, bs) ← takeLe 8 bs
  let (minKey, bs) ← getString bs
  let (maxKey, bs) ← getString bs
  some ((levelOfUint32 level, ⟨sequence, fileSize, minKey, maxKey⟩), bs)

/-- One round of the decoding loop: the tag, and the field it announces. An
unknown tag is an error. -/
def decodeField (e : VersionEdit) (bs : List Byte) : Option (VersionEdit × List Byte) := do
  let (tag, bs) ← takeLe 4 bs
  if tag = kNextFileSequence then
    let (seq, bs) ← takeLe 4 bs
    some (e.setNextFileSequence seq, bs)
  else if tag = kDeletedFile then
    let (d, bs) ← getDeleted bs
    some ({ e with deletedFiles := e.deletedFiles ++ [d] }, bs)
  else if tag = kNewFile then
    let (f, bs) ← getNewFile bs
    some ({ e with newFiles := e.newFiles ++ [f] }, bs)
  else none

/-- The loop `while (p < limit)`, over at most `n` fields. -/
def decodeLoop : ℕ → VersionEdit → List Byte → Option VersionEdit
  | _, e, [] => some e
  | 0, _, _ :: _ => none
  | n + 1, e, b :: bs => (decodeField e (b :: bs)).bind (fun p => decodeLoop n p.1 p.2)

/-- **`VersionEdit::decode_from`**. A field takes at least four bytes, so the
length of the input bounds the number of rounds. -/
def decodeFrom (src : List Byte) : Option VersionEdit := decodeLoop src.length {} src

/-! ## The round trip -/

/-- A level is an `int`. -/
def LevelFits (level : ℤ) : Prop := -2 ^ 31 ≤ level ∧ level < 2 ^ 31

instance (level : ℤ) : Decidable (LevelFits level) := inferInstanceAs (Decidable (_ ∧ _))

/-- **The edit's fields fit the widths of their types.** -/
structure Fits (e : VersionEdit) : Prop where
  newFiles : ∀ f ∈ e.newFiles, LevelFits f.1 ∧ f.2.Fits
  deletedFiles : ∀ d ∈ e.deletedFiles, LevelFits d.1 ∧ d.2 < 2 ^ 32
  nextFileSequence : ∀ n ∈ e.nextFileSequence, n < 2 ^ 32

instance (e : VersionEdit) : Decidable e.Fits :=
  decidable_of_iff ((∀ f ∈ e.newFiles, LevelFits f.1 ∧ f.2.Fits)
      ∧ (∀ d ∈ e.deletedFiles, LevelFits d.1 ∧ d.2 < 2 ^ 32)
      ∧ ∀ n ∈ e.nextFileSequence, n < 2 ^ 32)
    ⟨fun h => ⟨h.1, h.2.1, h.2.2⟩, fun h => ⟨h.1, h.2, h.3⟩⟩

theorem takeLe_putUint32 {v : ℕ} (h : v < 2 ^ 32) (rest : List Byte) :
    takeLe 4 (putUint32 v ++ rest) = some (v, rest) :=
  takeLe_leBytes (by norm_num at h ⊢; exact h) rest

theorem takeLe_putUint64 {v : ℕ} (h : v < 2 ^ 64) (rest : List Byte) :
    takeLe 8 (putUint64 v ++ rest) = some (v, rest) :=
  takeLe_leBytes (by norm_num at h ⊢; exact h) rest

theorem getString_putString {str : List Byte} (h : str.length < 2 ^ 32) (rest : List Byte) :
    getString (putString str ++ rest) = some (str, rest) := by
  rw [getString, putString, List.append_assoc, takeLe_putUint32 h]
  exact takeBytes_append str rest

theorem levelToUint32_lt (level : ℤ) : levelToUint32 level < 2 ^ 32 := by
  unfold levelToUint32
  omega

/-- A level survives the two casts. -/
theorem levelOfUint32_levelToUint32 {level : ℤ} (h : LevelFits level) :
    levelOfUint32 (levelToUint32 level) = level := by
  obtain ⟨h₁, h₂⟩ := h
  unfold levelOfUint32 levelToUint32
  split_ifs <;> omega

theorem decodeField_putNextFile (e : VersionEdit) {n : ℕ} (h : n < 2 ^ 32)
    (rest : List Byte) :
    decodeField e (putNextFile n ++ rest) = some (e.setNextFileSequence n, rest) := by
  simp only [decodeField, putNextFile, List.append_assoc,
    takeLe_putUint32 (v := kNextFileSequence) (by decide), Option.bind_eq_bind,
    Option.bind_some, if_true, takeLe_putUint32 h]

theorem decodeField_putDeleted (e : VersionEdit) {d : ℤ × ℕ}
    (h : LevelFits d.1 ∧ d.2 < 2 ^ 32) (rest : List Byte) :
    decodeField e (putDeleted d ++ rest)
      = some ({ e with deletedFiles := e.deletedFiles ++ [d] }, rest) := by
  simp only [decodeField, putDeleted, List.append_assoc,
    takeLe_putUint32 (v := kDeletedFile) (by decide), Option.bind_eq_bind,
    Option.bind_some, getDeleted, takeLe_putUint32 (levelToUint32_lt d.1),
    takeLe_putUint32 h.2, levelOfUint32_levelToUint32 h.1, Prod.mk.eta,
    show kDeletedFile ≠ kNextFileSequence by decide, if_false, if_true]

theorem decodeField_putNewFile (e : VersionEdit) {f : ℤ × FileMetaData}
    (h : LevelFits f.1 ∧ f.2.Fits) (rest : List Byte) :
    decodeField e (putNewFile f ++ rest)
      = some ({ e with newFiles := e.newFiles ++ [f] }, rest) := by
  obtain ⟨hl, hs, hz, hmin, hmax⟩ := h
  simp only [decodeField, putNewFile, List.append_assoc,
    takeLe_putUint32 (v := kNewFile) (by decide), Option.bind_eq_bind,
    Option.bind_some, getNewFile, takeLe_putUint32 (levelToUint32_lt f.1),
    takeLe_putUint32 hs, takeLe_putUint64 hz, getString_putString hmin,
    getString_putString hmax, levelOfUint32_levelToUint32 hl,
    show kNewFile ≠ kNextFileSequence by decide, show kNewFile ≠ kDeletedFile by decide,
    if_false, if_true]

/-- More rounds do no harm. -/
theorem decodeLoop_mono {n m : ℕ} {e r : VersionEdit} {bs : List Byte}
    (h : decodeLoop n e bs = some r) (hnm : n ≤ m) : decodeLoop m e bs = some r := by
  induction n generalizing m e bs with
  | zero =>
    cases bs with
    | nil => cases m <;> exact h
    | cons b bs => cases h
  | succ n ih =>
    cases bs with
    | nil => cases m <;> exact h
    | cons b bs =>
      obtain ⟨m, rfl⟩ : ∃ m', m = m' + 1 := ⟨m - 1, by omega⟩
      obtain ⟨p, hp, hr⟩ := Option.bind_eq_some_iff.mp h
      exact Option.bind_eq_some_iff.mpr ⟨p, hp, ih hr (by omega)⟩

/-- A field decoded off the front of the input costs one round. -/
theorem decodeLoop_step {n : ℕ} {e e' : VersionEdit} {bs rest : List Byte}
    (hne : bs ≠ []) (h : decodeField e bs = some (e', rest)) :
    decodeLoop (n + 1) e bs = decodeLoop n e' rest := by
  cases bs with
  | nil => exact absurd rfl hne
  | cons b bs => rw [decodeLoop, h, Option.bind_some]

theorem decodeLoop_flatMap_putDeleted (n : ℕ) (e : VersionEdit) (ds : List (ℤ × ℕ))
    (h : ∀ d ∈ ds, LevelFits d.1 ∧ d.2 < 2 ^ 32) (rest : List Byte) :
    decodeLoop (ds.length + n) e (ds.flatMap putDeleted ++ rest)
      = decodeLoop n { e with deletedFiles := e.deletedFiles ++ ds } rest := by
  induction ds generalizing e with
  | nil => simp
  | cons d ds ih =>
    rw [List.length_cons, show ds.length + 1 + n = ds.length + n + 1 by omega,
      List.flatMap_cons, List.append_assoc,
      decodeLoop_step (by simp [putDeleted, putUint32, leBytes])
        (decodeField_putDeleted e (h d List.mem_cons_self) _),
      ih _ (fun d' hd' => h d' (List.mem_cons_of_mem d hd'))]
    simp

theorem decodeLoop_flatMap_putNewFile (n : ℕ) (e : VersionEdit)
    (fs : List (ℤ × FileMetaData)) (h : ∀ f ∈ fs, LevelFits f.1 ∧ f.2.Fits)
    (rest : List Byte) :
    decodeLoop (fs.length + n) e (fs.flatMap putNewFile ++ rest)
      = decodeLoop n { e with newFiles := e.newFiles ++ fs } rest := by
  induction fs generalizing e with
  | nil => simp
  | cons f fs ih =>
    rw [List.length_cons, show fs.length + 1 + n = fs.length + n + 1 by omega,
      List.flatMap_cons, List.append_assoc,
      decodeLoop_step (by simp [putNewFile, putUint32, leBytes])
        (decodeField_putNewFile e (h f List.mem_cons_self) _),
      ih _ (fun f' hf' => h f' (List.mem_cons_of_mem f hf'))]
    simp

/-- Every field takes at least one byte, so an edit has no more fields than
its encoding has bytes. -/
theorem fields_le_length_encodeTo (e : VersionEdit) :
    (e.nextFileSequence.elim 0 (fun _ => 1)) + (e.deletedFiles.length + e.newFiles.length)
      ≤ e.encodeTo.length := by
  have hd : ∀ ds : List (ℤ × ℕ), ds.length ≤ (ds.flatMap putDeleted).length := by
    intro ds
    induction ds with
    | nil => simp
    | cons d ds ih =>
      rw [List.flatMap_cons, List.length_append, List.length_cons]
      simp only [putDeleted, putUint32, List.length_append, length_leBytes]
      omega
  have hf : ∀ fs : List (ℤ × FileMetaData), fs.length ≤ (fs.flatMap putNewFile).length := by
    intro fs
    induction fs with
    | nil => simp
    | cons f fs ih =>
      rw [List.flatMap_cons, List.length_append, List.length_cons]
      simp only [putNewFile, putUint32, putUint64, List.length_append, length_leBytes]
      omega
  have h₁ := hd e.deletedFiles
  have h₂ := hf e.newFiles
  rw [encodeTo, List.length_append, List.length_append]
  cases e.nextFileSequence with
  | none => simp only [Option.elim_none, List.length_nil]; omega
  | some n =>
    simp only [Option.elim_some, putNextFile, putUint32, List.length_append, length_leBytes]
    omega

/-- **Decoding undoes encoding**, on every edit whose fields fit their
types. -/
theorem decodeFrom_encodeTo {e : VersionEdit} (h : e.Fits) :
    decodeFrom e.encodeTo = some e := by
  have hrest : ∀ e₀ : VersionEdit, e₀.newFiles = [] → e₀.deletedFiles = [] →
      decodeLoop (e.deletedFiles.length + e.newFiles.length) e₀
        (e.deletedFiles.flatMap putDeleted ++ e.newFiles.flatMap putNewFile)
      = some { e₀ with deletedFiles := e.deletedFiles, newFiles := e.newFiles } := by
    intro e₀ hn hd
    have hnil := decodeLoop_flatMap_putNewFile 0
      { e₀ with deletedFiles := e₀.deletedFiles ++ e.deletedFiles } e.newFiles h.newFiles []
    rw [List.append_nil, Nat.add_zero] at hnil
    rw [decodeLoop_flatMap_putDeleted _ _ _ h.deletedFiles, hnil]
    simp [decodeLoop, hn, hd]
  have hlen := fields_le_length_encodeTo e
  refine decodeLoop_mono ?_ hlen
  rw [encodeTo]
  cases hn : e.nextFileSequence with
  | none =>
    rw [Option.elim_none, Option.elim_none, List.nil_append, Nat.zero_add,
      hrest {} rfl rfl]
    simp [← hn]
  | some n =>
    rw [Option.elim_some, Option.elim_some, Nat.add_comm 1,
      decodeLoop_step (by simp [putNextFile, putUint32, leBytes])
        (decodeField_putNextFile {} (h.nextFileSequence n hn) _),
      hrest _ rfl rfl]
    simp [setNextFileSequence, ← hn]

end VersionEdit
