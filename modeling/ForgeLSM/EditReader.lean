import ForgeLSM.VersionEdit

/-!
# Reading an edit through a pointer

`VersionEdit::decode_from` goes over the record with a pointer. Each of its
helpers compares the pointer with the end of the record, and gives up or copies
bytes from where the pointer stands. `VersionEdit.decodeFrom` has the record as
a list whose front is taken off, where a read past the end cannot even be
written down. Here the pointer is there, the comparisons are the code's, and a
copy that takes bytes behind the end is an error of its own, `overrun`.

No record makes it (`decodeBytes_eq`): the reader with the pointer and the one
without it refuse the same records and read the same edit from the others. So
the round trip of the one is that of the other.
-/

/-- How a read ends that gives nothing. -/
inductive ReadError where
  /-- The code returns false. -/
  | refused
  /-- Bytes are copied that are not there. The code does not notice. -/
  | overrun
  deriving DecidableEq

namespace VersionEdit

/-! ## The reader -/

section Reader

variable (src : List Byte)

/-- The bytes a `memcpy` or an `assign` takes from a position. -/
def copyBytes (p n : ℕ) : Except ReadError (List Byte) :=
  if p + n ≤ src.length then .ok (slice src p n) else .error .overrun

/-- An integer of so many bytes, and the position behind it. -/
def getUint (w p : ℕ) : Except ReadError (ℕ × ℕ) :=
  if p + w > src.length then .error .refused
  else (copyBytes src p w).map (fun bs => (leNat bs, p + w))

/-- `get_uint32`. -/
def getUint32 (p : ℕ) : Except ReadError (ℕ × ℕ) := getUint src 4 p

/-- `get_uint64`. -/
def getUint64 (p : ℕ) : Except ReadError (ℕ × ℕ) := getUint src 8 p

/-- `get_string`. -/
def getStringAt (p : ℕ) : Except ReadError (List Byte × ℕ) := do
  let (len, p) ← getUint32 src p
  if p + len > src.length then .error .refused
  else (copyBytes src p len).map (fun bs => (bs, p + len))

/-- The case `kDeletedFile`. -/
def getDeletedAt (p : ℕ) : Except ReadError ((ℤ × ℕ) × ℕ) := do
  let (level, p) ← getUint32 src p
  let (seq, p) ← getUint32 src p
  .ok ((levelOfUint32 level, seq), p)

/-- The case `kNewFile`. -/
def getNewFileAt (p : ℕ) : Except ReadError ((ℤ × FileMetaData) × ℕ) := do
  let (level, p) ← getUint32 src p
  let (sequence, p) ← getUint32 src p
  let (fileSize, p) ← getUint64 src p
  let (minKey, p) ← getStringAt src p
  let (maxKey, p) ← getStringAt src p
  .ok ((levelOfUint32 level, ⟨sequence, fileSize, minKey, maxKey⟩), p)

/-- One round of the loop. -/
def decodeFieldAt (e : VersionEdit) (p : ℕ) : Except ReadError (VersionEdit × ℕ) := do
  let (tag, p) ← getUint32 src p
  if tag = kNextFileSequence then
    let (seq, p) ← getUint32 src p
    .ok (e.setNextFileSequence seq, p)
  else if tag = kDeletedFile then
    let (d, p) ← getDeletedAt src p
    .ok ({ e with deletedFiles := e.deletedFiles ++ [d] }, p)
  else if tag = kNewFile then
    let (f, p) ← getNewFileAt src p
    .ok ({ e with newFiles := e.newFiles ++ [f] }, p)
  else .error .refused

end Reader

/-! ## The two readers, step by step -/

/-- **A read with the pointer does what a read off the front does**: it refuses
where that one fails, and else has the same result and stands in front of the
same bytes. -/
def Follows {α : Type} (src : List Byte) (x : Except ReadError (α × ℕ))
    (o : Option (α × List Byte)) : Prop :=
  match o with
  | none => x = .error .refused
  | some (a, rest) => ∃ p, x = .ok (a, p) ∧ p ≤ src.length ∧ rest = src.drop p

variable {p : ℕ}

section Follows

variable {α β : Type} {src : List Byte}

theorem Follows.ok {a : α} (hp : p ≤ src.length) :
    Follows src (.ok (a, p)) (some (a, src.drop p)) :=
  ⟨p, rfl, hp, rfl⟩

/-- Reads one after the other. -/
theorem Follows.bind {x : Except ReadError (α × ℕ)} {o : Option (α × List Byte)}
    (h : Follows src x o) {f : α × ℕ → Except ReadError (β × ℕ)}
    {g : α × List Byte → Option (β × List Byte)}
    (hfg : ∀ a p, p ≤ src.length → Follows src (f (a, p)) (g (a, src.drop p))) :
    Follows src (x >>= f) (o >>= g) := by
  cases o with
  | none =>
    have hx : x = .error .refused := h
    rw [hx]
    rfl
  | some r =>
    obtain ⟨p, rfl, hp, hrest⟩ := h
    obtain ⟨a, rest⟩ := r
    obtain rfl : rest = src.drop p := hrest
    exact hfg a p hp

section

variable (hp : p ≤ src.length)
include hp

/-- A block of bytes that was compared with the end first. -/
theorem follows_copyBytes (n : ℕ) (f : List Byte → α) :
    Follows src
      (if p + n > src.length then .error .refused
        else (copyBytes src p n).map (fun bs => (f bs, p + n)))
      ((takeBytes n (src.drop p)).map (fun r => (f r.1, r.2))) := by
  have hlen : (src.drop p).length = src.length - p := List.length_drop
  unfold takeBytes copyBytes
  by_cases h : p + n ≤ src.length
  · have hn : n ≤ (src.drop p).length := by omega
    rw [if_neg (not_lt.mpr h), if_pos h, if_pos hn]
    exact ⟨p + n, rfl, h, List.drop_drop⟩
  · have hn : ¬ n ≤ (src.drop p).length := by omega
    rw [if_pos (not_le.mp h), if_neg hn]
    rfl

theorem follows_getUint (w : ℕ) : Follows src (getUint src w p) (takeLe w (src.drop p)) :=
  follows_copyBytes hp w leNat

theorem follows_getString : Follows src (getStringAt src p) (getString (src.drop p)) := by
  refine (follows_getUint hp 4).bind (fun len p hp => ?_)
  have hread := follows_copyBytes hp len (fun bs : List Byte => bs)
  rwa [show (takeBytes len (src.drop p)).map (fun r => (r.1, r.2))
    = takeBytes len (src.drop p) from Option.map_id'] at hread

theorem follows_getDeleted : Follows src (getDeletedAt src p) (getDeleted (src.drop p)) := by
  refine (follows_getUint hp 4).bind (fun level p hp => ?_)
  exact (follows_getUint hp 4).bind (fun seq p hp => .ok hp)

theorem follows_getNewFile : Follows src (getNewFileAt src p) (getNewFile (src.drop p)) := by
  refine (follows_getUint hp 4).bind (fun level p hp => ?_)
  refine (follows_getUint hp 4).bind (fun sequence p hp => ?_)
  refine (follows_getUint hp 8).bind (fun fileSize p hp => ?_)
  refine (follows_getString hp).bind (fun minKey p hp => ?_)
  exact (follows_getString hp).bind (fun maxKey p hp => .ok hp)

end

theorem follows_decodeField (e : VersionEdit) (hp : p ≤ src.length) :
    Follows src (decodeFieldAt src e p) (decodeField e (src.drop p)) := by
  refine (follows_getUint hp 4).bind (fun tag p hp => ?_)
  dsimp only
  split_ifs
  · exact (follows_getUint hp 4).bind (fun seq p hp => .ok hp)
  · exact (follows_getDeleted hp).bind (fun d p hp => .ok hp)
  · exact (follows_getNewFile hp).bind (fun f p hp => .ok hp)
  · rfl

end Follows

/-! ## The loop -/

section Advance

variable {src : List Byte}

/-- A read that ends well comes from a read that ended well in front of it. -/
theorem exists_of_bind_eq_ok {α β : Type} {x : Except ReadError α} {f : α → Except ReadError β}
    {b : β} (h : (x >>= f) = .ok b) : ∃ a, x = .ok a ∧ f a = .ok b := by
  cases x with
  | error err => cases h
  | ok a => exact ⟨a, rfl, h⟩

theorem getUint_advances {w p : ℕ} {r : ℕ × ℕ} (h : getUint src w p = .ok r) : r.2 = p + w := by
  unfold getUint copyBytes at h
  split_ifs at h
  · cases h
    rfl
  · cases h

theorem getStringAt_advances {r : List Byte × ℕ} (h : getStringAt src p = .ok r) : p ≤ r.2 := by
  obtain ⟨len, hlen, h⟩ := exists_of_bind_eq_ok h
  have hpos := getUint_advances hlen
  dsimp only at h
  unfold copyBytes at h
  split_ifs at h
  · cases h
    show p ≤ len.2 + len.1
    omega
  · cases h

theorem getDeletedAt_advances {r : (ℤ × ℕ) × ℕ} (h : getDeletedAt src p = .ok r) : p ≤ r.2 := by
  obtain ⟨level, hlevel, h⟩ := exists_of_bind_eq_ok h
  obtain ⟨seq, hseq, h⟩ := exists_of_bind_eq_ok h
  cases h
  have h₁ := getUint_advances hlevel
  have h₂ := getUint_advances hseq
  show p ≤ seq.2
  omega

theorem getNewFileAt_advances {r : (ℤ × FileMetaData) × ℕ} (h : getNewFileAt src p = .ok r) :
    p ≤ r.2 := by
  obtain ⟨level, hlevel, h⟩ := exists_of_bind_eq_ok h
  obtain ⟨sequence, hsequence, h⟩ := exists_of_bind_eq_ok h
  obtain ⟨fileSize, hfileSize, h⟩ := exists_of_bind_eq_ok h
  obtain ⟨minKey, hminKey, h⟩ := exists_of_bind_eq_ok h
  obtain ⟨maxKey, hmaxKey, h⟩ := exists_of_bind_eq_ok h
  cases h
  have h₁ := getUint_advances hlevel
  have h₂ := getUint_advances hsequence
  have h₃ := getUint_advances hfileSize
  have h₄ := getStringAt_advances hminKey
  have h₅ := getStringAt_advances hmaxKey
  show p ≤ maxKey.2
  omega

/-- **A round moves the pointer**, by its tag at least. -/
theorem decodeFieldAt_advances {e : VersionEdit} {r : VersionEdit × ℕ}
    (h : decodeFieldAt src e p = .ok r) : p < r.2 := by
  obtain ⟨tag, htag, h⟩ := exists_of_bind_eq_ok h
  have hpos := getUint_advances htag
  dsimp only at h
  split_ifs at h
  · obtain ⟨seq, hseq, h⟩ := exists_of_bind_eq_ok h
    cases h
    have hle := getUint_advances hseq
    show p < seq.2
    omega
  · obtain ⟨d, hd, h⟩ := exists_of_bind_eq_ok h
    cases h
    have hle := getDeletedAt_advances hd
    show p < d.2
    omega
  · obtain ⟨f, hf, h⟩ := exists_of_bind_eq_ok h
    cases h
    have hle := getNewFileAt_advances hf
    show p < f.2
    omega

end Advance

/-- The loop `while (p < limit)`. -/
def decodeLoopAt (src : List Byte) (e : VersionEdit) (p : ℕ) : Except ReadError VersionEdit :=
  if p < src.length then
    match _hround : decodeFieldAt src e p with
    | .error err => .error err
    | .ok (e', p') => decodeLoopAt src e' p'
  else .ok e
termination_by src.length - p
decreasing_by
  have hlt := decodeFieldAt_advances _hround
  dsimp only at hlt
  omega

/-- **`VersionEdit::decode_from`**, with its pointer. -/
def decodeBytes (src : List Byte) : Except ReadError VersionEdit := decodeLoopAt src {} 0

/-- What the code returns of a read off the front. -/
def outcome : Option VersionEdit → Except ReadError VersionEdit
  | none => .error .refused
  | some e => .ok e

/-- The two loops do the same, as long as there are rounds for what is left. -/
theorem decodeLoopAt_eq {src : List Byte} {n : ℕ} {e : VersionEdit} (hp : p ≤ src.length)
    (hn : src.length - p ≤ n) : decodeLoopAt src e p = outcome (decodeLoop n e (src.drop p)) := by
  induction n generalizing e p with
  | zero =>
    rw [decodeLoopAt, if_neg (by omega), List.drop_eq_nil_of_le (by omega)]
    rfl
  | succ n ih =>
    rw [decodeLoopAt]
    split_ifs with hlt
    · have hne : src.drop p ≠ [] := fun hnil => by
        have hle := List.drop_eq_nil_iff.mp hnil
        omega
      have hround := follows_decodeField e hp
      cases hd : decodeField e (src.drop p) with
      | none =>
        rw [hd] at hround
        have hx : decodeFieldAt src e p = .error .refused := hround
        obtain ⟨b, bs, hbs⟩ := List.exists_cons_of_ne_nil hne
        rw [hbs] at hd ⊢
        rw [decodeLoop, hd]
        split
        · rename_i err herr
          rw [hx] at herr
          cases herr
          rfl
        · rename_i e' p' hok
          rw [hx] at hok
          cases hok
      | some r =>
        rw [hd] at hround
        obtain ⟨p', hx, hp', hrest⟩ := hround
        have hadv := decodeFieldAt_advances hx
        have hstep : decodeLoop (n + 1) e (src.drop p) = decodeLoop n r.1 r.2 :=
          decodeLoop_step hne hd
        rw [hstep, hrest, ← ih hp' (by dsimp only at hadv; omega)]
        split
        · rename_i err herr
          rw [hx] at herr
          cases herr
        · rename_i e' q hok
          rw [hx] at hok
          cases hok
          rfl
    · rw [List.drop_eq_nil_of_le (by omega)]
      rfl

/-- **The pointer stays within the record**: with it an edit is read exactly as
it is off the front. -/
theorem decodeBytes_eq (src : List Byte) : decodeBytes src = outcome (decodeFrom src) :=
  decodeLoopAt_eq (Nat.zero_le _) (Nat.sub_le _ _)

/-- **The codec of version edits.** Every edit whose fields are of their types is
read back from its encoding, all of it and in order, whatever the bytes of its
keys; and no string of bytes at all makes the reader go past its end. -/
theorem decodeBytes_encodeTo :
    (∀ e : VersionEdit, e.Fits → decodeBytes e.encodeTo = .ok e)
      ∧ ∀ src : List Byte, decodeBytes src ≠ .error .overrun := by
  refine ⟨fun e he => ?_, fun src hover => ?_⟩
  · rw [decodeBytes_eq, decodeFrom_encodeTo he]
    rfl
  · rw [decodeBytes_eq] at hover
    cases hd : decodeFrom src with
    | none | some e =>
      rw [hd] at hover
      cases hover

/-- An edit of each kind of field, its keys made of bytes that look like tags. -/
def tagLike : VersionEdit where
  newFiles := [(1, ⟨7, 300, [3, 0, 0, 0], [2, 0, 0, 0, 1]⟩), (0, ⟨8, 2 ^ 63, [], [255]⟩)]
  deletedFiles := [(0, 5), (5, 4294967295)]
  nextFileSequence := some 9

theorem decodeBytes_encodeTo_tagLike :
    tagLike.Fits ∧ decodeBytes tagLike.encodeTo = .ok tagLike :=
  ⟨by decide, decodeBytes_encodeTo.1 tagLike (by decide)⟩

end VersionEdit
