import ForgeLSM.TableFormat
import ForgeLSM.VLog

/-!
# Reading a table

`SSTableReader.load` checks the checksum of a file and reads its index.
`SSTableReader.get` finds the block that can have a key, and in it the last
restart before the key by binary search and the entry from there by a linear
scan. Both are given here as the code computes them on any bytes, offsets in 32
bits where it computes them in 32 bits, with its exceptions and with a fault of
their own for a read of bytes that are not there.

On a file that `SSTableWriter.write` wrote neither exceptions nor faults occur,
and a lookup finds what the table was written with
(`SSTableReader.get_load_write`).
-/

/-- Why a read of a table breaks off. -/
inductive TableError where
  /-- Bytes are read that are not there. The code does not notice. -/
  | outOfBounds
  /-- A `std::runtime_error`, with its text. -/
  | corrupt (what : String)
  deriving DecidableEq

/-- Whether so many bytes from an offset are there. -/
def inBounds (bs : List Byte) (off n : ℕ) : Prop := off + n ≤ bs.length

instance (bs : List Byte) (off n : ℕ) : Decidable (inBounds bs off n) :=
  inferInstanceAs (Decidable (_ ≤ _))

/-- `std::string::resize`. -/
def resize (s : Key) (n : ℕ) : Key := s.take n ++ List.replicate (n - s.length) 0

/-- The comparison of a `std::string_view` of so many bytes with a key. Of the
view, the bytes up to the shorter length are seen. -/
def compareView (seen : List Byte) (len : ℕ) (key : Key) : Ordering :=
  if seen < key.take seen.length then .lt
  else if key.take seen.length < seen then .gt
  else compare len key.length

namespace SSTableReader

/-! ## Looking a key up in a block -/

/-- The number of restarts, in the last four bytes of a block. -/
def numRestarts (block : List Byte) : ℕ := leAt 4 block (block.length - 4)

/-- Where the restarts of a block begin, as `get` and the iterator compute it: a
`uint32_t`, of a product that is one. -/
def restartsOffset (block : List Byte) : ℕ :=
  u32 (block.length - 4 - u32 (numRestarts block * 4))

/-- **A block with restarts**, as `get` and the iterator test it: there is at least
one, and those that are counted are there. The length of a block is a `uint32_t`
of the index. -/
structure HasRestarts (block : List Byte) : Prop where
  length_lt : block.length < 2 ^ 32
  pos : 0 < numRestarts block
  le : numRestarts block * 4 + 4 ≤ block.length

/-- The restarts of such a block end at their number. -/
theorem HasRestarts.restartsOffset_add {block : List Byte} (h : HasRestarts block) :
    restartsOffset block + numRestarts block * 4 + 4 = block.length := by
  have hlt := h.length_lt
  have hle := h.le
  unfold restartsOffset
  rw [u32_of_lt (n := numRestarts block * 4) (by omega), u32_of_lt (by omega)]
  omega

/-- **The binary search over the restarts**, `hi` being `right + 1`: the
pointer when a restart has the key, and else the last restart found before
it. -/
def searchRestarts (block : List Byte) (restartsOffset : ℕ) (key : Key) (out : VLogPointer)
    (left hi target : ℕ) : Except TableError (VLogPointer ⊕ ℕ) :=
  if left < hi then
    let mid := left + (hi - 1 - left) / 2
    if u32 (restartsOffset + mid * 4 + 4) > block.length then
      .error (.corrupt "SSTable corrupted: restarts index out of bounds")
    else if ¬ inBounds block (restartsOffset + mid * 4) 4 then .error .outOfBounds
    else
      let rOff := leAt 4 block (restartsOffset + mid * 4)
      if u32 (rOff + 12) > restartsOffset then
        .error (.corrupt "SSTable corrupted: entry header out of bounds")
      else if ¬ inBounds block rOff 12 then .error .outOfBounds
      else
        let unshared := leAt 4 block (rOff + 4)
        let valLen := leAt 4 block (rOff + 8)
        if u32 (rOff + 12 + unshared + valLen) > restartsOffset then
          .error (.corrupt "SSTable corrupted: entry payload out of bounds")
        else if ¬ inBounds block (rOff + 12) (min unshared key.length) then .error .outOfBounds
        else
          match compareView (slice block (rOff + 12) (min unshared key.length)) unshared key with
          | .lt => searchRestarts block restartsOffset key out (mid + 1) hi mid
          | .gt => searchRestarts block restartsOffset key out left mid target
          | .eq =>
            if valLen = 16 then
              if inBounds block (rOff + 12 + unshared) 16 then
                .ok (.inl (VLogPointer.readFrom block (rOff + 12 + unshared)))
              else .error .outOfBounds
            else .ok (.inl out)
  else .ok (.inr target)
termination_by hi - left
decreasing_by all_goals omega

/-- **The linear scan** from an offset, with the key of the entry before it. A
pointer of another size would be left uninitialised; it is zero here. -/
def scanBlock (block : List Byte) (restartsOffset : ℕ) (key : Key) (p : ℕ) (currentKey : Key) :
    Except TableError (Option VLogPointer) :=
  if p < restartsOffset then
    if p + 12 > restartsOffset then
      .error (.corrupt "SSTable corrupted: linear scan header OOB")
    else if ¬ inBounds block p 12 then .error .outOfBounds
    else
      let shared := leAt 4 block p
      let unshared := leAt 4 block (p + 4)
      let valLen := leAt 4 block (p + 8)
      if p + 12 + unshared + valLen > restartsOffset then
        .error (.corrupt "SSTable corrupted: linear scan payload OOB")
      else if ¬ inBounds block (p + 12) (unshared + valLen) then .error .outOfBounds
      else
        let currentKey := resize currentKey shared ++ slice block (p + 12) unshared
        let ptr :=
          if valLen = 16 then VLogPointer.readFrom block (p + 12 + unshared) else ⟨0, 0, 0⟩
        if currentKey = key then .ok (some ptr)
        else if currentKey > key then .ok none
        else scanBlock block restartsOffset key (p + 12 + unshared + valLen) currentKey
  else .ok none
termination_by restartsOffset - p
decreasing_by omega

/-- The search of a block: the restarts, then the entries from the one
found. -/
def getInBlock (block : List Byte) (key : Key) (out : VLogPointer) :
    Except TableError (Option VLogPointer) :=
  if block.length < 4 then .ok none
  else
    if numRestarts block = 0 ∨ numRestarts block > (block.length - 4) / 4 then .ok none
    else
      match searchRestarts block (restartsOffset block) key out 0 (numRestarts block) 0 with
      | .error e => .error e
      | .ok (.inl ptr) => .ok (some ptr)
      | .ok (.inr target) =>
        if u32 (restartsOffset block + target * 4 + 4) > block.length then
          .error (.corrupt "SSTable corrupted")
        else if ¬ inBounds block (restartsOffset block + target * 4) 4 then .error .outOfBounds
        else
          let scanOff := leAt 4 block (restartsOffset block + target * 4)
          if scanOff > restartsOffset block then
            .error (.corrupt "SSTable corrupted: scan_off out of bounds")
          else scanBlock block (restartsOffset block) key scanOff []

end SSTableReader

/-! ## Loading a file -/

/-- **An open table**: what `load` keeps of the file. -/
structure SSTableReader where
  file : List Byte
  index : List IndexEntry
  minKey : Key := []
  maxKey : Key := []
  bloom : BloomFilter := ⟨[], 0⟩
  deriving DecidableEq

/-- What the block cache has of an open table, by the offsets of the blocks. -/
structure BlockCache (r : SSTableReader) where
  blocks : ℕ → Option (List Byte)

namespace BlockCache

variable {r : SSTableReader}

/-- A cache that has none. -/
def empty (r : SSTableReader) : BlockCache r := ⟨fun _ => none⟩

/-- A block, from the cache or else from the file. -/
def load (cache : BlockCache r) (e : IndexEntry) : Option (List Byte) :=
  (cache.blocks e.offset).or (VLog.pread r.file e.length e.offset)

/-- **A coherent cache**: each block it has is what is in the file. -/
def Coherent (cache : BlockCache r) : Prop :=
  ∀ e ∈ r.index, ∀ b, cache.blocks e.offset = some b →
    VLog.pread r.file e.length e.offset = some b

theorem Coherent.empty (r : SSTableReader) : (BlockCache.empty r).Coherent := by
  intro e _ b h
  cases h

/-- A block comes from a coherent cache as it is in the file. -/
theorem Coherent.load_eq {cache : BlockCache r} (h : cache.Coherent) {e : IndexEntry}
    (he : e ∈ r.index) {block : List Byte}
    (hblock : VLog.pread r.file e.length e.offset = some block) : cache.load e = some block := by
  unfold load
  cases hc : cache.blocks e.offset with
  | none => exact hblock
  | some b =>
    rw [← hblock, h e he b hc]
    rfl

end BlockCache

namespace SSTableReader

/-- The loop that computes the checksum, 4096 bytes at a time. -/
def checksumLoop (computed : BitVec 32) (data : List Byte) : BitVec 32 :=
  if data = [] then computed
  else checksumLoop (computeCrc32Incremental computed (data.take 4096)) (data.drop 4096)
termination_by data.length
decreasing_by
  rename_i h
  have := List.length_pos_of_ne_nil h
  rw [List.length_drop]
  omega

/-- **The loop that reads the index.** -/
def parseIndex (file : List Byte) (bloomOffset off : ℕ) : Except TableError (List IndexEntry) :=
  if off < bloomOffset then
    if ¬ inBounds file off 4 then .error .outOfBounds
    else
      let ks := leAt 4 file off
      if ¬ inBounds file (off + 4) (ks + 8) then .error .outOfBounds
      else
        match parseIndex file bloomOffset (off + 4 + ks + 8) with
        | .error e => .error e
        | .ok index => .ok
          (⟨slice file (off + 4) ks, leAt 4 file (off + 4 + ks), leAt 4 file (off + 4 + ks + 4)⟩
            :: index)
  else .ok []
termination_by bloomOffset - off
decreasing_by omega

/-- `BloomFilter::load`: a filter cut short is as good as none. -/
def loadBloom (file : List Byte) (offset size k : ℕ) : BloomFilter :=
  if size = 0 then ⟨[], 0⟩
  else if inBounds file offset size then ⟨slice file offset size, k⟩
  else ⟨[], k⟩

/-- The least key, from the first entry of the first block. -/
def readMinKey (file : List Byte) (e : IndexEntry) : Except TableError Key :=
  if ¬ inBounds file (e.offset + 4) 4 then .error .outOfBounds
  else
    let ks := leAt 4 file (e.offset + 4)
    if ¬ inBounds file (e.offset + 12) ks then .error .outOfBounds
    else .ok (slice file (e.offset + 12) ks)

/-- **`SSTableReader::load`** on the bytes of a file: none when it is refused. -/
def load (file : List Byte) : Except TableError (Option SSTableReader) :=
  if file.length < 16 then .ok none
  else
    let payloadSize := file.length - 16
    let indexOffset := leAt 4 file payloadSize
    let bloomOffset := leAt 4 file (payloadSize + 4)
    let bloomSizeTotal := leAt 4 file (payloadSize + 8)
    let storedChecksum := leAt 4 file (payloadSize + 12)
    if (checksumLoop 0 (file.take payloadSize)).toNat ≠ storedChecksum then .ok none
    else
      let bloom :=
        if bloomSizeTotal ≥ 4 ∧ u32 (bloomOffset + 4) ≤ payloadSize then
          loadBloom file (u32 (bloomOffset + 4)) (bloomSizeTotal - 4) (leAt 4 file bloomOffset)
        else ⟨[], 0⟩
      match parseIndex file bloomOffset indexOffset with
      | .error e => .error e
      | .ok [] => .ok (some { file := file, index := [], bloom := bloom })
      | .ok (e :: index) =>
        match readMinKey file e with
        | .error err => .error err
        | .ok minKey => .ok (some
          { file := file
            index := e :: index
            minKey := minKey
            maxKey := ((e :: index).getLast (by simp)).maxKey
            bloom := bloom })

/-- **`SSTableReader::get`**: the range check, the first block whose last key
is not below the key, and the search of it. The block is found by
`std::lower_bound`, which is said to be the first one only of an index in the
order of its keys, as every index is that `SSTableWriter.write` wrote. -/
def get (r : SSTableReader) (cache : BlockCache r) (key : Key) (out : VLogPointer) :
    Except TableError (Option VLogPointer) :=
  if key < r.minKey ∨ key > r.maxKey then .ok none
  else match r.index.find? (fun e => !decide (e.maxKey < key)) with
    | none => .ok none
    | some e =>
      match cache.load e with
      | none => .ok none
      | some block => getInBlock block key out

end SSTableReader
