import ForgeLSM.Bloom
import ForgeLSM.Crc32

/-!
# The bytes of a table

A table file is a row of data blocks, an index with the last key, the offset
and the length of each, a bloom filter, and a footer of four numbers, the last
of them the checksum of all that comes before the footer.

An entry of a block leaves out what its key shares with the key before it, and
from time to time – every sixteenth entry, and wherever nothing is
shared – an entry with its whole key is a *restart*, whose offset is listed
at the end of the block.

The format has 32 bits for a length, and of a key of 2^32 bytes or more the writer
takes only as many bytes as the cast leaves (`cutKey`).

`SSTableWriter.write` writes the file byte by byte. What it has written is said
in terms of `DataBlock`, a row of entries each of which says how much of its key
it leaves out: the file is the blocks, their index and the rest
(`SSTableWriter.write_eq`), and the entries of the blocks are those given. A
reader's proof starts from there, and needs nothing of how the writer cuts
blocks or picks restarts.
-/

/-! ## Pointers -/

/-- The numbers of the pointer fit their types. -/
def VLogPointer.Fits (p : VLogPointer) : Prop :=
  p.fileId < 2 ^ 32 ∧ p.offset < 2 ^ 64 ∧ p.length < 2 ^ 32

instance VLogPointer.decidableFits (p : VLogPointer) : Decidable p.Fits :=
  inferInstanceAs (Decidable (_ ∧ _ ∧ _))

/-- The 16 bytes of a pointer. -/
def VLogPointer.bytes (p : VLogPointer) : List Byte :=
  leBytes 4 p.fileId ++ (leBytes 8 p.offset ++ leBytes 4 p.length)

/-- The pointer whose bytes are at an offset. -/
def VLogPointer.readFrom (bs : List Byte) (off : ℕ) : VLogPointer :=
  ⟨leAt 4 bs off, leAt 8 bs (off + 4), leAt 4 bs (off + 12)⟩

@[simp] theorem VLogPointer.length_bytes (p : VLogPointer) : p.bytes.length = 16 := by
  simp [bytes]

/-- **A pointer is read back where it was written.** -/
theorem VLogPointer.Fits.readFrom_eq {p : VLogPointer} (h : p.Fits) (pre post : List Byte)
    {bs : List Byte} {off : ℕ} (hbs : bs = pre ++ (p.bytes ++ post)) (hoff : off = pre.length) :
    VLogPointer.readFrom bs off = p := by
  obtain ⟨h1, h2, h3⟩ := h
  rw [VLogPointer.bytes, List.append_assoc, List.append_assoc] at hbs
  have hid : leAt 4 bs off = p.fileId :=
    leAt_eq pre (leBytes 8 p.offset ++ (leBytes 4 p.length ++ post)) hbs hoff (by simpa using h1)
  have hpos : leAt 8 bs (off + 4) = p.offset :=
    leAt_eq (pre ++ leBytes 4 p.fileId) (leBytes 4 p.length ++ post)
      (by rw [hbs, List.append_assoc]) (by simp [hoff]) (by simpa using h2)
  have hlen : leAt 4 bs (off + 12) = p.length :=
    leAt_eq (pre ++ (leBytes 4 p.fileId ++ leBytes 8 p.offset)) post
      (by simp only [hbs, List.append_assoc]) (by simp [hoff]) (by simpa using h3)
  rw [VLogPointer.readFrom, hid, hpos, hlen]

/-! ## The writer -/

/-- `IndexEntry`: the last key of a block, and where the block is. -/
structure IndexEntry where
  maxKey : Key
  offset : ℕ
  length : ℕ
  deriving DecidableEq

/-- What is written of a key, or of the rest of one: as many bytes as its size says when
it is cast to `uint32_t`. -/
def cutKey (key : Key) : Key := key.take (u32 key.length)

@[simp] theorem length_cutKey (key : Key) : (cutKey key).length = u32 key.length := by
  rw [cutKey, List.length_take, min_eq_left (u32_le _)]

theorem cutKey_of_lt {key : Key} (h : key.length < 2 ^ 32) : cutKey key = key := by
  rw [cutKey, u32_of_lt h, List.take_length]

/-- The pieces an index entry is written in. -/
def IndexEntry.pieces (e : IndexEntry) : List (List Byte) :=
  [leBytes 4 e.maxKey.length, cutKey e.maxKey, leBytes 4 e.offset, leBytes 4 e.length]

/-- The entry that is read back for one that was written: of its key there is as much
as was written. -/
def IndexEntry.cut (e : IndexEntry) : IndexEntry := { e with maxKey := cutKey e.maxKey }

theorem IndexEntry.cut_of_lt {e : IndexEntry} (h : e.maxKey.length < 2 ^ 32) : e.cut = e := by
  rw [IndexEntry.cut, cutKey_of_lt h]

theorem IndexEntry.pieces_cut (e : IndexEntry) : e.cut.pieces = e.pieces := by
  have hcut : cutKey (cutKey e.maxKey) = cutKey e.maxKey :=
    cutKey_of_lt (by rw [length_cutKey]; exact u32_lt _)
  rw [pieces, pieces, cut]
  dsimp only
  rw [hcut, length_cutKey, leBytes_u32]

/-- How many bytes two keys share at the front. The loop counts them in a `uint32_t`,
and so would never end for two keys that share 2^32 of them. -/
def commonPrefix : Key → Key → ℕ
  | a :: as, b :: bs => if a = b then commonPrefix as bs + 1 else 0
  | _, _ => 0

/-- `restart_interval`. -/
def restartInterval : ℕ := 16

/-- `block_limit`. -/
def blockLimit : ℕ := 4096

/-- The block being filled: `block_buf`, `restarts`, `last_key`, `counter`. -/
structure BlockBuf where
  bytes : List Byte := []
  restarts : List ℕ := []
  lastKey : Key := []
  counter : ℕ := 0
  deriving DecidableEq

namespace BlockBuf

/-- How much of a key its entry would leave out. -/
def shared (b : BlockBuf) (key : Key) : ℕ :=
  if b.counter % restartInterval ≠ 0 ∧ b.bytes ≠ [] then commonPrefix b.lastKey key else 0

/-- The size of an entry: three numbers, the rest of the key, the pointer. The
length of the rest, `unshared`, is a `uint32_t`. -/
def entrySize (key : Key) (shared : ℕ) : ℕ := 4 * 3 + u32 (key.length - shared) + 16

/-- The test for a block that has no room for an entry. -/
def overflows (b : BlockBuf) (key : Key) (shared : ℕ) : Bool :=
  let trailer := (b.restarts.length + if shared = 0 then 1 else 0) * 4 + 4
  decide (b.bytes ≠ []) && decide (b.bytes.length + entrySize key shared + trailer > blockLimit)

/-- The bytes of an entry: `shared`, `unshared`, the size of the pointer, `unshared`
bytes of the key and the pointer. -/
def entryBytes (shared : ℕ) (key : Key) (ptr : VLogPointer) : List Byte :=
  leBytes 4 shared ++ (leBytes 4 (key.length - shared) ++ (leBytes 4 16
    ++ (cutKey (key.drop shared) ++ ptr.bytes)))

/-- An entry is added. -/
def put (b : BlockBuf) (e : Key × VLogPointer) (shared : ℕ) : BlockBuf where
  bytes := b.bytes ++ entryBytes shared e.1 e.2
  restarts := if shared = 0 then b.restarts ++ [b.bytes.length] else b.restarts
  lastKey := e.1
  counter := b.counter + 1

/-- The bytes of the block with its restarts and their number. -/
def finish (b : BlockBuf) : List Byte :=
  b.bytes ++ (b.restarts.flatMap (leBytes 4) ++ leBytes 4 b.restarts.length)

end BlockBuf

/-- The state of `SSTableWriter::write`: what it has written and its checksum,
the index so far, and the block being filled. -/
structure SSTableWriter where
  out : List Byte := []
  checksum : BitVec 32 := 0
  index : List IndexEntry := []
  buf : BlockBuf := {}

namespace SSTableWriter

/-- Bytes are written and taken into the checksum. -/
def emit (w : SSTableWriter) (bs : List Byte) : SSTableWriter :=
  { w with out := w.out ++ bs, checksum := computeCrc32Incremental w.checksum bs }

/-- The block is indexed under its last key and written, `flush_block_buf`. -/
def cutBlock (w : SSTableWriter) : SSTableWriter :=
  let e : IndexEntry :=
    ⟨w.buf.lastKey, w.out.length, w.buf.bytes.length + w.buf.restarts.length * 4 + 4⟩
  { w.emit w.buf.finish with index := w.index ++ [e], buf := {} }

/-- **One round of the loop over the entries.** A block without room is written
first, and the entry then starts the next one with its whole key. -/
def addEntry (w : SSTableWriter) (e : Key × VLogPointer) : SSTableWriter :=
  let shared := w.buf.shared e.1
  if w.buf.overflows e.1 shared then
    let w := w.cutBlock
    { w with buf := w.buf.put e 0 }
  else { w with buf := w.buf.put e shared }

/-- The last block is written, if there is one. -/
def finishBlocks (w : SSTableWriter) : SSTableWriter :=
  if w.buf.bytes = [] then w else w.cutBlock

/-- The index entries are written, each in its pieces. -/
def emitIndex (w : SSTableWriter) : SSTableWriter :=
  w.index.foldl (fun w e => e.pieces.foldl emit w) w

/-- **`SSTableWriter::write`**, all writes succeeding: the bytes of the file. -/
def write (env : Env) (entries : List (Key × VLogPointer)) : List Byte :=
  let w := (entries.foldl addEntry {}).finishBlocks
  let indexOffset := w.out.length
  let w := w.emitIndex
  let bloomOffset := w.out.length
  let bloom := BloomFilter.build env (entries.map Prod.fst)
  let w := (w.emit (leBytes 4 bloom.numHashes)).emit bloom.bits
  w.out ++ (leBytes 4 indexOffset ++ (leBytes 4 bloomOffset
    ++ (leBytes 4 (4 + bloom.bits.length) ++ leBytes 4 w.checksum.toNat)))

end SSTableWriter

/-! ## Blocks as rows of entries -/

/-- An entry of a block, with how much of its key it leaves out. -/
structure BlockItem where
  shared : ℕ
  key : Key
  ptr : VLogPointer

namespace BlockItem

/-- The bytes of the entry. -/
def bytes (i : BlockItem) : List Byte := BlockBuf.entryBytes i.shared i.key i.ptr

/-- What the entry is for. -/
def entry (i : BlockItem) : Key × VLogPointer := (i.key, i.ptr)

/-- **Each key can be told from the one before**: what an entry leaves out, the
key before it has. -/
def Chain : Key → List BlockItem → Prop
  | _, [] => True
  | prev, i :: is => i.shared ≤ prev.length ∧ i.shared ≤ i.key.length
    ∧ i.key.take i.shared = prev.take i.shared ∧ Chain i.key is

/-- The offsets of the entries with their whole key, for a row that starts at
an offset. -/
def restarts : ℕ → List BlockItem → List ℕ
  | _, [] => []
  | off, i :: is =>
    (if i.shared = 0 then [off] else []) ++ restarts (off + i.bytes.length) is

/-- The entries of a row, one after the other. -/
def rowBytes (is : List BlockItem) : List Byte := is.flatMap bytes

/-- The last key of a row that follows a key. -/
def lastKey : Key → List BlockItem → Key
  | prev, [] => prev
  | _, i :: is => lastKey i.key is

@[simp] theorem rowBytes_nil : rowBytes [] = [] := rfl

@[simp] theorem rowBytes_cons (i : BlockItem) (is : List BlockItem) :
    rowBytes (i :: is) = i.bytes ++ rowBytes is := rfl

@[simp] theorem rowBytes_append (is js : List BlockItem) :
    rowBytes (is ++ js) = rowBytes is ++ rowBytes js :=
  List.flatMap_append

/-- The size of an entry. -/
theorem length_bytes (i : BlockItem) : i.bytes.length = 28 + u32 (i.key.length - i.shared) := by
  simp only [bytes, BlockBuf.entryBytes, List.length_append, length_leBytes, length_cutKey,
    List.length_drop, VLogPointer.length_bytes]
  omega

theorem lastKey_append (prev : Key) (is : List BlockItem) (i : BlockItem) :
    lastKey prev (is ++ [i]) = i.key := by
  induction is generalizing prev with
  | nil => rfl
  | cons j js ih => exact ih j.key

/-- A row goes on with an entry that leaves out no more than the last key
has. -/
theorem Chain.append {prev : Key} {is : List BlockItem} (h : Chain prev is) {i : BlockItem}
    (hp : i.shared ≤ (lastKey prev is).length) (hk : i.shared ≤ i.key.length)
    (heq : i.key.take i.shared = (lastKey prev is).take i.shared) : Chain prev (is ++ [i]) := by
  induction is generalizing prev with
  | nil => exact ⟨hp, hk, heq, trivial⟩
  | cons j js ih => exact ⟨h.1, h.2.1, h.2.2.1, ih h.2.2.2 hp heq⟩

theorem restarts_append (off : ℕ) (is js : List BlockItem) :
    restarts off (is ++ js) = restarts off is ++ restarts (off + (rowBytes is).length) js := by
  induction is generalizing off with
  | nil => rfl
  | cons i is ih =>
    rw [List.cons_append, restarts, restarts, ih, rowBytes_cons, List.length_append,
      ← Nat.add_assoc, List.append_assoc]

end BlockItem

/-- **A data block**: a row of entries, the first with its whole key. -/
structure DataBlock where
  items : List BlockItem
  nonempty : items ≠ []
  chain : BlockItem.Chain [] items

namespace DataBlock

open BlockItem

/-- The offsets of the restarts. -/
def restarts (b : DataBlock) : List ℕ := BlockItem.restarts 0 b.items

/-- The bytes of the block. -/
def bytes (b : DataBlock) : List Byte :=
  rowBytes b.items ++ (b.restarts.flatMap (leBytes 4) ++ leBytes 4 b.restarts.length)

/-- The last key of the block. -/
def maxKey (b : DataBlock) : Key := lastKey [] b.items

/-- The entries of the block. -/
def entries (b : DataBlock) : List (Key × VLogPointer) := b.items.map entry

/-- The index of a row of blocks, the first at an offset. -/
def indexFrom : ℕ → List DataBlock → List IndexEntry
  | _, [] => []
  | off, b :: bs => ⟨b.maxKey, off, b.bytes.length⟩ :: indexFrom (off + b.bytes.length) bs

theorem length_bytes (b : DataBlock) :
    b.bytes.length = (rowBytes b.items).length + b.restarts.length * 4 + 4 := by
  have hflat : ∀ l : List ℕ, (l.flatMap (leBytes 4)).length = l.length * 4 := by
    intro l
    induction l with
    | nil => rfl
    | cons x l ih =>
      rw [List.flatMap_cons, List.length_append, ih, length_leBytes, List.length_cons]
      omega
  rw [bytes, List.length_append, List.length_append, hflat, length_leBytes]
  omega

theorem indexFrom_append (off : ℕ) (bs cs : List DataBlock) :
    indexFrom off (bs ++ cs)
      = indexFrom off bs ++ indexFrom (off + (bs.flatMap bytes).length) cs := by
  induction bs generalizing off with
  | nil => rfl
  | cons b bs ih =>
    rw [List.cons_append, indexFrom, indexFrom, ih, List.flatMap_cons, List.length_append,
      ← Nat.add_assoc, List.cons_append]

end DataBlock

/-! ## What the writer has written -/

/-- What two keys share is a front of both. -/
theorem commonPrefix_spec (a b : Key) : commonPrefix a b ≤ a.length ∧ commonPrefix a b ≤ b.length
    ∧ b.take (commonPrefix a b) = a.take (commonPrefix a b) := by
  induction a generalizing b with
  | nil => exact ⟨le_rfl, Nat.zero_le _, rfl⟩
  | cons x a ih =>
    cases b with
    | nil => exact ⟨Nat.zero_le _, le_rfl, rfl⟩
    | cons y b =>
      unfold commonPrefix
      split_ifs with hxy
      · obtain ⟨h1, h2, h3⟩ := ih b
        refine ⟨Nat.succ_le_succ h1, Nat.succ_le_succ h2, ?_⟩
        rw [List.take_succ_cons, List.take_succ_cons, h3, hxy]
      · exact ⟨Nat.zero_le _, Nat.zero_le _, rfl⟩

open BlockItem

/-- The buffer holds a row of entries. -/
structure BlockBuf.Holds (b : BlockBuf) (is : List BlockItem) : Prop where
  bytes : b.bytes = rowBytes is
  restarts : b.restarts = BlockItem.restarts 0 is
  lastKey : b.lastKey = BlockItem.lastKey [] is
  chain : Chain [] is

namespace BlockBuf.Holds

variable {b : BlockBuf} {is : List BlockItem}

theorem nil : BlockBuf.Holds {} [] := ⟨rfl, rfl, rfl, trivial⟩

theorem bytes_eq_nil_iff (h : b.Holds is) : b.bytes = [] ↔ is = [] := by
  rw [h.bytes]
  refine ⟨fun hb => ?_, fun hi => by rw [hi]; rfl⟩
  cases is with
  | nil => rfl
  | cons i is =>
    have hlen := congrArg List.length hb
    rw [rowBytes_cons, List.length_append, i.length_bytes, List.length_nil] at hlen
    omega

/-- What an entry may leave out. -/
theorem shared_spec (h : b.Holds is) (key : Key) :
    b.shared key ≤ (BlockItem.lastKey [] is).length ∧ b.shared key ≤ key.length
      ∧ key.take (b.shared key) = (BlockItem.lastKey [] is).take (b.shared key) := by
  unfold BlockBuf.shared
  split_ifs
  · rw [h.lastKey]
    exact commonPrefix_spec _ _
  · exact ⟨Nat.zero_le _, Nat.zero_le _, rfl⟩

/-- **An entry is added to the row.** -/
theorem put (h : b.Holds is) {shared : ℕ} (e : Key × VLogPointer)
    (h1 : shared ≤ (BlockItem.lastKey [] is).length) (h2 : shared ≤ e.1.length)
    (h3 : e.1.take shared = (BlockItem.lastKey [] is).take shared) :
    (b.put e shared).Holds (is ++ [⟨shared, e.1, e.2⟩]) where
  bytes := by
    rw [BlockBuf.put, h.bytes, rowBytes_append]
    simp [BlockItem.bytes]
  restarts := by
    rw [restarts_append, ← h.restarts, ← h.bytes, Nat.zero_add]
    unfold BlockBuf.put BlockItem.restarts
    dsimp only
    split_ifs <;> simp [BlockItem.restarts]
  lastKey := (lastKey_append [] is ⟨shared, e.1, e.2⟩).symm
  chain := h.chain.append h1 h2 h3

/-- What is written for the row. -/
theorem finish_eq (h : b.Holds is) (hne : is ≠ []) :
    b.finish = (DataBlock.mk is hne h.chain).bytes := by
  rw [BlockBuf.finish, h.bytes, h.restarts]
  rfl

end BlockBuf.Holds

namespace SSTableWriter

/-- **The state of the writer**: the blocks written and the row of the block
being filled. -/
structure Wrote (w : SSTableWriter) (blocks : List DataBlock) (is : List BlockItem) : Prop where
  out : w.out = blocks.flatMap DataBlock.bytes
  index : w.index = DataBlock.indexFrom 0 blocks
  checksum : w.checksum = computeCrc32 w.out
  buf : w.buf.Holds is

variable {w : SSTableWriter} {blocks : List DataBlock} {is : List BlockItem}

/-- The checksum keeps up with what is written. -/
theorem checksum_emit (h : w.checksum = computeCrc32 w.out) (bs : List Byte) :
    (w.emit bs).checksum = computeCrc32 (w.emit bs).out := by
  show computeCrc32Incremental w.checksum bs = computeCrc32 (w.out ++ bs)
  rw [h, ← computeCrc32Incremental_zero, ← computeCrc32Incremental_zero,
    computeCrc32Incremental_append]

/-- **A block is written.** -/
theorem Wrote.cutBlock (h : w.Wrote blocks is) (hne : is ≠ []) :
    w.cutBlock.Wrote (blocks ++ [⟨is, hne, h.buf.chain⟩]) [] where
  out := by
    rw [List.flatMap_append, ← h.out, List.flatMap_singleton, ← h.buf.finish_eq hne]
    rfl
  index := by
    rw [DataBlock.indexFrom_append, ← h.index, ← h.out, Nat.zero_add]
    unfold SSTableWriter.cutBlock DataBlock.indexFrom
    rw [DataBlock.length_bytes, h.buf.lastKey, h.buf.bytes, h.buf.restarts]
    rfl
  checksum := checksum_emit h.checksum _
  buf := .nil

/-- **One round of the loop**: the entry is the last of those written. The block is written
first if it has no room for the entry, and else the entry joins its row. -/
theorem Wrote.addEntry (h : w.Wrote blocks is) (e : Key × VLogPointer) :
    ∃ blocks' is', (w.addEntry e).Wrote blocks' is'
      ∧ blocks'.flatMap DataBlock.entries ++ is'.map entry
        = blocks.flatMap DataBlock.entries ++ is.map entry ++ [e]
      ∧ ((∃ b : DataBlock, b.items = is ∧ blocks' = blocks ++ [b] ∧ is' = [⟨0, e.1, e.2⟩]
          ∧ (w.addEntry e).buf.counter = 1)
        ∨ w.buf.overflows e.1 (w.buf.shared e.1) = false ∧ blocks' = blocks
          ∧ is' = is ++ [⟨w.buf.shared e.1, e.1, e.2⟩]
          ∧ (w.addEntry e).buf.counter = w.buf.counter + 1) := by
  unfold SSTableWriter.addEntry
  dsimp only
  split_ifs with hover
  · have hne : is ≠ [] := by
      rintro rfl
      simp [BlockBuf.overflows, h.buf.bytes] at hover
    have hcut := h.cutBlock hne
    refine ⟨_, _, ⟨hcut.out, hcut.index, hcut.checksum, ?_⟩, ?_, Or.inl ⟨_, rfl, rfl, rfl, rfl⟩⟩
    · exact hcut.buf.put e (Nat.zero_le _) (Nat.zero_le _) rfl
    · rw [List.flatMap_append, List.flatMap_singleton]
      rfl
  · obtain ⟨h1, h2, h3⟩ := h.buf.shared_spec e.1
    refine ⟨blocks, _, ⟨h.out, h.index, h.checksum, h.buf.put e h1 h2 h3⟩, ?_,
      Or.inr ⟨Bool.eq_false_iff.mpr hover, rfl, rfl, rfl⟩⟩
    rw [List.map_append, ← List.append_assoc]
    rfl

/-- **The whole loop**, for what every round keeps of the blocks and the row. -/
theorem exists_rows {P : SSTableWriter → List DataBlock → List BlockItem → Prop} (hnew : P {} [] [])
    (hstep : ∀ w blocks is e, P w blocks is → ∃ blocks' is', P (w.addEntry e) blocks' is'
      ∧ blocks'.flatMap DataBlock.entries ++ is'.map entry
        = blocks.flatMap DataBlock.entries ++ is.map entry ++ [e])
    (entries : List (Key × VLogPointer)) :
    ∃ blocks is, P (entries.foldl SSTableWriter.addEntry {}) blocks is
      ∧ blocks.flatMap DataBlock.entries ++ is.map entry = entries := by
  induction entries using List.reverseRecOn with
  | nil => exact ⟨[], [], hnew, rfl⟩
  | append_singleton entries e ih =>
    obtain ⟨blocks, is, h, he⟩ := ih
    obtain ⟨blocks', is', h', he'⟩ := hstep _ _ _ e h
    rw [List.foldl_append]
    exact ⟨blocks', is', h', by rw [he', he]⟩

/-- The last block is written, if it has an entry. -/
theorem Wrote.finishBlocks (h : w.Wrote blocks is) :
    ∃ blocks', w.finishBlocks.Wrote blocks' []
      ∧ blocks'.flatMap DataBlock.entries = blocks.flatMap DataBlock.entries ++ is.map entry
      ∧ ∀ b ∈ blocks', b ∈ blocks ∨ b.items = is := by
  unfold SSTableWriter.finishBlocks
  split_ifs with hbuf
  · obtain rfl := h.buf.bytes_eq_nil_iff.mp hbuf
    exact ⟨blocks, h, (List.append_nil _).symm, fun b hb => Or.inl hb⟩
  · have hne : is ≠ [] := fun hi => hbuf (h.buf.bytes_eq_nil_iff.mpr hi)
    refine ⟨_, h.cutBlock hne, ?_, fun b hb => ?_⟩
    · rw [List.flatMap_append, List.flatMap_singleton]
      rfl
    · rcases List.mem_append.mp hb with hb | hb
      · exact Or.inl hb
      · rw [List.mem_singleton.mp hb]
        exact Or.inr rfl

/-- The blocks of the file. -/
theorem exists_blocks (entries : List (Key × VLogPointer)) :
    ∃ blocks, (entries.foldl SSTableWriter.addEntry {}).finishBlocks.Wrote blocks []
      ∧ blocks.flatMap DataBlock.entries = entries := by
  obtain ⟨blocks, is, h, he⟩ : ∃ blocks is,
      (entries.foldl SSTableWriter.addEntry {}).Wrote blocks is
        ∧ blocks.flatMap DataBlock.entries ++ is.map entry = entries :=
    exists_rows ⟨rfl, rfl, rfl, .nil⟩ (fun w blocks is e h => by
      obtain ⟨blocks', is', h', he', -⟩ := h.addEntry e
      exact ⟨blocks', is', h', he'⟩) entries
  obtain ⟨blocks', h', he', -⟩ := h.finishBlocks
  exact ⟨blocks', h', he'.trans he⟩

/-- The bytes of an index. -/
def indexBytes (index : List IndexEntry) : List Byte := index.flatMap (fun e => e.pieces.flatten)

theorem foldl_emit (ps : List (List Byte)) (w : SSTableWriter)
    (h : w.checksum = computeCrc32 w.out) :
    (ps.foldl emit w).out = w.out ++ ps.flatten
      ∧ (ps.foldl emit w).checksum = computeCrc32 (ps.foldl emit w).out := by
  induction ps generalizing w with
  | nil => exact ⟨(List.append_nil _).symm, h⟩
  | cons p ps ih =>
    obtain ⟨hout, hsum⟩ := ih (w.emit p) (checksum_emit h p)
    refine ⟨?_, hsum⟩
    rw [List.foldl_cons, hout, List.flatten_cons, ← List.append_assoc]
    rfl

/-- What writing the index adds. -/
theorem emitIndex_spec (h : w.checksum = computeCrc32 w.out) :
    w.emitIndex.out = w.out ++ indexBytes w.index
      ∧ w.emitIndex.checksum = computeCrc32 w.emitIndex.out := by
  have hpieces : w.emitIndex = (w.index.flatMap IndexEntry.pieces).foldl emit w := by
    unfold emitIndex
    rw [List.foldl_flatMap]
  rw [hpieces]
  obtain ⟨hout, hsum⟩ := foldl_emit (w.index.flatMap IndexEntry.pieces) w h
  refine ⟨?_, hsum⟩
  rw [hout, indexBytes, List.flatMap, List.flatMap, List.flatten_flatten, List.map_map]
  rfl

/-- What the footer covers: the blocks, the index and the filter. -/
def payload (blocks : List DataBlock) (bloom : BloomFilter) : List Byte :=
  blocks.flatMap DataBlock.bytes ++ (indexBytes (DataBlock.indexFrom 0 blocks)
    ++ (leBytes 4 bloom.numHashes ++ bloom.bits))

/-- The footer. -/
def footer (blocks : List DataBlock) (bloom : BloomFilter) : List Byte :=
  let indexOffset := (blocks.flatMap DataBlock.bytes).length
  leBytes 4 indexOffset
    ++ (leBytes 4 (indexOffset + (indexBytes (DataBlock.indexFrom 0 blocks)).length)
    ++ (leBytes 4 (4 + bloom.bits.length)
    ++ leBytes 4 (computeCrc32 (payload blocks bloom)).toNat))

/-- What is written behind the blocks. -/
theorem write_eq_of_wrote (env : Env) {entries : List (Key × VLogPointer)}
    (h : (entries.foldl SSTableWriter.addEntry {}).finishBlocks.Wrote blocks []) :
    write env entries = payload blocks (BloomFilter.build env (entries.map Prod.fst))
      ++ footer blocks (BloomFilter.build env (entries.map Prod.fst)) := by
  unfold write
  dsimp only
  generalize BloomFilter.build env (entries.map Prod.fst) = bloom
  generalize (entries.foldl SSTableWriter.addEntry {}).finishBlocks = w at h ⊢
  obtain ⟨hout, hsum⟩ := emitIndex_spec h.checksum
  have hpayload : ((w.emitIndex.emit (leBytes 4 bloom.numHashes)).emit bloom.bits).out
      = payload blocks bloom := by
    show w.emitIndex.out ++ _ ++ _ = _
    rw [hout, h.out, h.index, payload]
    simp only [List.append_assoc]
  rw [checksum_emit (checksum_emit hsum _), hpayload, hout, h.out, h.index, List.length_append]
  rfl

/-- **What is in a table file**: the entries in blocks, the index of the
blocks, the filter of the keys, and the footer. -/
theorem write_eq (env : Env) (entries : List (Key × VLogPointer)) :
    ∃ blocks, blocks.flatMap DataBlock.entries = entries
      ∧ write env entries = payload blocks (BloomFilter.build env (entries.map Prod.fst))
        ++ footer blocks (BloomFilter.build env (entries.map Prod.fst)) := by
  obtain ⟨blocks, h, he⟩ := exists_blocks entries
  exact ⟨blocks, he, write_eq_of_wrote env h⟩

/-- The file of a table with one entry: one block that holds it. -/
theorem write_singleton (env : Env) (key : Key) (ptr : VLogPointer) :
    ∃ b : DataBlock, b.items = [⟨0, key, ptr⟩]
      ∧ write env [(key, ptr)]
        = payload [b] (BloomFilter.build env [key])
          ++ footer [b] (BloomFilter.build env [key]) := by
  refine ⟨⟨[⟨0, key, ptr⟩], by simp, Nat.zero_le _, Nat.zero_le _, rfl, trivial⟩, rfl, ?_⟩
  obtain ⟨blocks, hentries, hwrite⟩ := write_eq env [(key, ptr)]
  rw [hwrite]
  -- the blocks have one entry between them, and none is empty
  have hblocks : blocks = [⟨[⟨0, key, ptr⟩], by simp, Nat.zero_le _, Nat.zero_le _, rfl,
      trivial⟩] := by
    cases blocks with
    | nil => cases hentries
    | cons b rest =>
      obtain ⟨i, is, hitems⟩ := List.exists_cons_of_ne_nil b.nonempty
      have hchain := b.chain
      rw [hitems] at hchain
      have hshared : i.shared = 0 := Nat.le_zero.mp hchain.1
      rw [List.flatMap_cons, DataBlock.entries, hitems, List.map_cons, List.cons_append,
        List.cons.injEq, List.append_eq_nil_iff, List.map_eq_nil_iff] at hentries
      obtain ⟨hi, rfl, hrest⟩ := hentries
      cases rest with
      | nil =>
        obtain ⟨items, hne, hc⟩ := b
        obtain ⟨shared, k, p⟩ := i
        cases hi
        cases hshared
        cases hitems
        rfl
      | cons c rest =>
        rw [List.flatMap_cons, List.append_eq_nil_iff] at hrest
        exact absurd (List.map_eq_nil_iff.mp hrest.1) c.nonempty
  rw [hblocks]
  rfl

end SSTableWriter
