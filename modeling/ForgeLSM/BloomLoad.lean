import ForgeLSM.KVStore
import ForgeLSM.TableLookup

/-!
# The filter of an open table

A `BloomFilter` object keeps its bits in one of three places: `bits_` after
`build` and after a `load` of less than a mebibyte, a mapping of the file
(`mmap_view_`) after a `load` of more, and bytes it does not own (`mmap_ptr_`
alone) after `load_raw`. `may_contain` looks for them in the first two only.
`BloomObject` is the object with all of these fields.

A filter written to a table and loaded from it answers as it did when it was
built (`BloomObject.mayContain_load`), as long as the table is shorter than 2^32
bytes: the footer has 32 bits for the place of the filter, and with a longer file
the reader takes other bytes for it. `load_raw` loads a filter that admits every
key (`BloomObject.mayContain_loadRaw`). It rules nothing out that the built one
admits, so no key is lost; but it rules nothing out at all.
-/

/-! ## The object -/

/-- **The fields of a filter object**, a pointer by the bytes from where it
points on. -/
structure BloomObject where
  bits : List Byte := []
  mmapPtr : Option (List Byte) := none
  mmapView : Option (List Byte) := none
  k : ℕ := 0
  m : ℕ := 0
  deriving DecidableEq

namespace BloomObject

open BloomFilter (testBit probeIndex byteSize hashCount)

/-- `BloomFilter::cleanup`. It leaves `k_` and `m_` as they are. -/
def cleanup (o : BloomObject) : BloomObject :=
  { o with bits := [], mmapPtr := none, mmapView := none }

/-- **`BloomFilter::build`.** -/
def build (o : BloomObject) (env : Env) (keys : List Key) : BloomObject :=
  if keys = [] then { o.cleanup with k := 0, m := 0 }
  else
    let f := BloomFilter.build env keys
    { o.cleanup with
      bits := f.bits, mmapPtr := some f.bits, k := f.numHashes, m := f.bits.length * 8 }

/-- **`BloomFilter::load_raw`.** -/
def loadRaw (o : BloomObject) (ptr : Option (List Byte)) (bloomSize k : ℕ) : BloomObject :=
  if bloomSize = 0 ∨ ptr = none then o.cleanup
  else { o.cleanup with k := k, m := bloomSize * 8, mmapPtr := ptr }

/-- **`BloomFilter::load`** from a file that can be opened and mapped: what it
returns, and the object. A small filter is read into `bits_`. A mapping starts on
a page, so that of a large one begins before the filter; its length is a sum of
two `uint32_t`. -/
def load (o : BloomObject) (pageSize : ℕ) (file : List Byte) (fileOffset bloomSize k : ℕ) :
    Bool × BloomObject :=
  if bloomSize = 0 then (true, o.cleanup)
  else
    let o := { o.cleanup with k := k, m := bloomSize * 8 }
    if bloomSize < 1024 * 1024 then
      let bits := slice file fileOffset bloomSize
      if bits.length ≠ bloomSize then (false, o.cleanup)
      else (true, { o with bits := bits, mmapPtr := some bits })
    else
      let viewOffset := fileOffset / pageSize * pageSize
      let offsetDiff := fileOffset - viewOffset
      let view := slice file viewOffset (u32 (bloomSize + offsetDiff))
      (true, { o with mmapView := some view, mmapPtr := some (view.drop offsetDiff) })

/-- **`BloomFilter::may_contain`.** -/
def mayContain (o : BloomObject) (key : Key) : Bool :=
  let ptr := if o.mmapView.isSome then o.mmapPtr else if o.bits = [] then none else some o.bits
  match ptr with
  | none => true
  | some bytes =>
    if o.m = 0 ∨ o.k = 0 then true
    else (List.range o.k).all (fun i => testBit bytes (probeIndex o.m key i))

/-! ## What each way of filling it admits -/

/-- Whichever field holds the bits of a filter, the object answers as the
filter. -/
theorem all_testBit_eq (f : BloomFilter) (key : Key) (hne : f.bits ≠ []) :
    (if f.bits.length * 8 = 0 ∨ f.numHashes = 0 then true
      else (List.range f.numHashes).all
        (fun i => testBit f.bits (probeIndex (f.bits.length * 8) key i)))
      = f.mayContain key := by
  have hlen : f.bits.length ≠ 0 := by simpa using hne
  rw [BloomFilter.mayContain, Nat.mul_comm]
  by_cases hk : f.numHashes = 0
  · simp [hk]
  · rw [if_neg (by omega)]
    simp [hne, hk]

theorem mayContain_build (o : BloomObject) (env : Env) (keys : List Key) (key : Key) :
    (o.build env keys).mayContain key = (BloomFilter.build env keys).mayContain key := by
  unfold build
  split_ifs with hkeys
  · simp [mayContain, cleanup, hkeys, BloomFilter.build, BloomFilter.mayContain]
  · by_cases hbits : (BloomFilter.build env keys).bits = []
    · simp [mayContain, cleanup, BloomFilter.mayContain, hbits]
    · rw [← all_testBit_eq _ key hbits]
      simp only [mayContain, cleanup, hbits, if_false, Option.isSome_none, Bool.false_eq_true]

/-- **`load` gives the filter that is in the file**, whichever way it takes, when 32
bits are enough for the length of the mapping. -/
theorem mayContain_load (o : BloomObject) {pageSize : ℕ} {file : List Byte}
    {fileOffset bloomSize : ℕ} (k : ℕ) (hin : inBounds file fileOffset bloomSize)
    (hsize : bloomSize + fileOffset % pageSize < 2 ^ 32) (key : Key) :
    (o.load pageSize file fileOffset bloomSize k).2.mayContain key
      = (BloomFilter.mk (slice file fileOffset bloomSize) k).mayContain key := by
  unfold inBounds at hin
  have hlen : (slice file fileOffset bloomSize).length = bloomSize := by
    rw [slice, List.length_take, List.length_drop]
    omega
  unfold load
  dsimp only
  split_ifs with h0 hsmall hcut
  · have hnil : slice file fileOffset bloomSize = [] := List.length_eq_zero_iff.mp (hlen.trans h0)
    simp [mayContain, cleanup, BloomFilter.mayContain, hnil]
  · exact absurd hlen hcut
  · have hne : slice file fileOffset bloomSize ≠ [] := by
      intro h
      rw [h] at hlen
      exact h0 hlen.symm
    rw [← all_testBit_eq _ key hne]
    simp only [mayContain, cleanup, hne, if_false, Option.isSome_none, Bool.false_eq_true, hlen]
  · -- the bytes behind the start of the mapping are those of the filter
    have hne : slice file fileOffset bloomSize ≠ [] := by
      intro h
      rw [h] at hlen
      exact h0 hlen.symm
    have hview : ∀ start, start ≤ fileOffset →
        (slice file start (bloomSize + (fileOffset - start))).drop (fileOffset - start)
          = slice file fileOffset bloomSize := by
      intro start hstart
      rw [slice, slice, List.drop_take, List.drop_drop, Nat.add_sub_cancel,
        Nat.add_sub_cancel' hstart]
    have hstart : fileOffset / pageSize * pageSize ≤ fileOffset := Nat.div_mul_le_self _ _
    have hdiff : fileOffset - fileOffset / pageSize * pageSize = fileOffset % pageSize := by
      rw [Nat.mod_eq_sub_mul_div, Nat.mul_comm]
    rw [← all_testBit_eq _ key hne, u32_of_lt (by rw [hdiff]; exact hsize)]
    simp only [mayContain, cleanup, hview _ hstart, Option.isSome_some, if_true, hlen]

/-- **`load_raw` gives a filter that admits every key**: it sets only the pointer
that `may_contain` does not look at without a mapping. -/
theorem mayContain_loadRaw (o : BloomObject) (ptr : Option (List Byte)) (bloomSize k : ℕ)
    (key : Key) : (o.loadRaw ptr bloomSize k).mayContain key = true := by
  unfold loadRaw
  split_ifs <;> rfl

/-! ## The loaded filter and the built one -/

/-- **When a loaded filter answers like the built one.** The bytes and the hash
count are written out and loaded back, through `load_raw` and through `load`. The
second always answers like the filter that was built, if it and the part of a page
in front of it have less than 2^32 bytes; so does the first exactly
where that filter admits the key: it has no bytes, or each probe of the key falls
on a bit of one of its keys. -/
theorem loaded_agrees_iff (env : Env) (keys : List Key) (probe : Key)
    (hk : hashCount env keys.length < 2 ^ 32) (o : BloomObject) (pageSize : ℕ)
    (pre post : List Byte)
    (hsize : byteSize env keys.length + (pre.length + 4) % pageSize < 2 ^ 32) :
    let f := BloomFilter.build env keys
    let file := pre ++ (leBytes 4 f.numHashes ++ (f.bits ++ post))
    let size := u32 f.bits.length
    let k := leAt 4 file pre.length
    ((o.loadRaw (some (file.drop (pre.length + 4))) size k).mayContain probe
          = (o.build env keys).mayContain probe
        ∧ (o.load pageSize file (pre.length + 4) size k).2.mayContain probe
          = (o.build env keys).mayContain probe)
      ↔ keys = [] ∨ byteSize env keys.length = 0 ∨ BloomFilter.Covered env keys probe := by
  intro f file size k
  have hfk : f.numHashes < 256 ^ 4
      ∧ f.bits.length + (pre.length + 4) % pageSize < 2 ^ 32 := by
    by_cases hne : keys = []
    · have hnil : f.bits.length = 0 ∧ f.numHashes = 0 := by
        simp [f, hne, BloomFilter.build]
      omega
    · rw [BloomFilter.numHashes_build env hne, BloomFilter.length_build env hne]
      exact ⟨by simpa using hk, hsize⟩
  have hkeq : k = f.numHashes := leAt_eq pre _ rfl rfl hfk.1
  have hseq : size = f.bits.length := u32_of_lt (lt_of_le_of_lt (Nat.le_add_right _ _) hfk.2)
  have hbits : slice file (pre.length + 4) f.bits.length = f.bits :=
    slice_eq (pre ++ leBytes 4 f.numHashes) _ post (by simp only [file, List.append_assoc])
      (by simp) rfl
  have hin : inBounds file (pre.length + 4) f.bits.length := by
    simp only [inBounds, file, List.length_append, length_leBytes]
    omega
  rw [mayContain_loadRaw, hseq, hkeq, mayContain_load o _ hin hfk.2, hbits, mayContain_build,
    and_iff_left rfl, eq_comm]
  exact BloomFilter.mayContain_build_iff env keys probe

/-- Filters of ten bits a key and seven hashes: the sizes for one key and for two
keys at the default false-positive rate. -/
def sized : Env := { Env.small with disableBloom := false, bloomSize := fun n => (10 * n, 7) }

/-- The filter of a key, asked for that key. -/
theorem loaded_agrees_iff_present :
    (({} : BloomObject).loadRaw (some (BloomFilter.build sized [[97]]).bits) 2 7).mayContain [97]
      = (({} : BloomObject).build sized [[97]]).mayContain [97] := by
  have h := ((loaded_agrees_iff sized [[97]] [97] (by decide) {} 4096 [] [] (by decide)).mpr
    (.inr (.inr (fun i hi => ⟨[97], List.mem_singleton.mpr rfl, i, hi, rfl⟩)))).1
  exact h

/-- **The filter of a key, asked for another one**: the built filter rules the
key out and so does the one that `load` loads, but not the one that `load_raw`
loads. -/
theorem loadRaw_admits_absent :
    let f := BloomFilter.build sized [[97]]
    (({} : BloomObject).build sized [[97]]).mayContain [98] = false
      ∧ (({} : BloomObject).load 4096 (leBytes 4 f.numHashes ++ f.bits) 4 f.bits.length
          f.numHashes).2.mayContain [98] = false
      ∧ (({} : BloomObject).loadRaw (some f.bits) f.bits.length f.numHashes).mayContain [98]
          = true := by
  decide +kernel

end BloomObject

/-! ## The filter of a table file -/

namespace SSTableReader

open SSTableWriter DataBlock

/-- The filter `load` takes from a file, by the place the footer gives. -/
def bloomOf (file : List Byte) : BloomFilter :=
  let payloadSize := file.length - 16
  let bloomOffset := leAt 4 file (payloadSize + 4)
  let bloomSizeTotal := leAt 4 file (payloadSize + 8)
  if bloomSizeTotal ≥ 4 ∧ u32 (bloomOffset + 4) ≤ payloadSize then
    loadBloom file (u32 (bloomOffset + 4)) (bloomSizeTotal - 4) (leAt 4 file bloomOffset)
  else ⟨[], 0⟩

/-- **The filter object of an open table**, as `load` makes it: the place of the
filter is computed in 32 bits. -/
def bloomObject (pageSize : ℕ) (file : List Byte) : BloomObject :=
  let payloadSize := file.length - 16
  let bloomOffset := leAt 4 file (payloadSize + 4)
  let bloomSizeTotal := leAt 4 file (payloadSize + 8)
  if bloomSizeTotal ≥ 4 ∧ u32 (bloomOffset + 4) ≤ payloadSize then
    (({} : BloomObject).load pageSize file (u32 (bloomOffset + 4)) (bloomSizeTotal - 4)
      (leAt 4 file bloomOffset)).2
  else {}

/-- The filter object of an open table, as the `load` for Windows makes it, which
has the whole file mapped. -/
def bloomMapped (file : List Byte) : BloomObject :=
  let payloadSize := file.length - 16
  let bloomOffset := leAt 4 file (payloadSize + 4)
  let bloomSizeTotal := leAt 4 file (payloadSize + 8)
  if bloomSizeTotal ≥ 4 ∧ u32 (bloomOffset + 4) ≤ payloadSize then
    ({} : BloomObject).loadRaw (some (file.drop (bloomOffset + 4))) (bloomSizeTotal - 4)
      (leAt 4 file bloomOffset)
  else {}

/-- The filter of an open table is the one the footer leads to. -/
theorem bloom_of_load {file : List Byte} {r : SSTableReader} (h : load file = .ok (some r)) :
    r.bloom = bloomOf file := by
  unfold load at h
  by_cases hshort : file.length < 16
  · rw [if_pos hshort] at h
    cases h
  rw [if_neg hshort] at h
  dsimp only at h
  by_cases hsum : (checksumLoop 0 (file.take (file.length - 16))).toNat
      = leAt 4 file (file.length - 16 + 12)
  · rw [if_neg (not_not.mpr hsum)] at h
    split at h
    · cases h
    · cases h
      rfl
    · split at h
      · cases h
      · cases h
        rfl
  · rw [if_pos hsum] at h
    cases h

/-- **The filter of a file as it is written** is the one it was written with,
when 32 bits are enough for the file. -/
theorem bloom_file {blocks : List DataBlock} {bloom : BloomFilter} (hk : bloom.numHashes < 2 ^ 32)
    (hsize : (payload blocks bloom ++ footer blocks bloom).length < 2 ^ 32) (key : Key)
    (pageSize : ℕ) :
    (bloomOf (payload blocks bloom ++ footer blocks bloom)).mayContain key = bloom.mayContain key
      ∧ (bloomObject pageSize (payload blocks bloom ++ footer blocks bloom)).mayContain key
        = bloom.mayContain key := by
  obtain ⟨-, hoff, htotal, -⟩ := footer_reads blocks bloom
  have hlen := FileImage.length_payload blocks bloom
  have hfile : payload blocks bloom ++ footer blocks bloom
      = (blocks.flatMap bytes ++ indexBytes (indexFrom 0 blocks))
        ++ (leBytes 4 bloom.numHashes ++ (bloom.bits ++ footer blocks bloom)) := by
    simp only [payload, List.append_assoc]
  rw [List.length_append, FileImage.length_footer] at hsize
  have hsub : (payload blocks bloom ++ footer blocks bloom).length - 16
      = (payload blocks bloom).length := by
    rw [List.length_append, FileImage.length_footer, Nat.add_sub_cancel]
  generalize hfl : payload blocks bloom ++ footer blocks bloom = file at *
  generalize hstart : (blocks.flatMap bytes).length + (indexBytes (indexFrom 0 blocks)).length
    = start at *
  rw [u32_of_lt (by omega)] at hoff htotal
  have hnum : leAt 4 file start = bloom.numHashes :=
    leAt_eq _ _ hfile (by rw [← hstart, List.length_append]) (by simpa using hk)
  have hbits : slice file (start + 4) bloom.bits.length = bloom.bits :=
    slice_eq (blocks.flatMap bytes ++ indexBytes (indexFrom 0 blocks)
      ++ leBytes 4 bloom.numHashes) _ (footer blocks bloom)
      (by simp only [hfile, List.append_assoc]) (by simp [← hstart]; omega) rfl
  have hin : inBounds file (start + 4) bloom.bits.length := by
    have : file.length = (payload blocks bloom).length + 16 := by
      rw [← hfl, List.length_append, FileImage.length_footer]
    unfold inBounds
    omega
  have hmap : bloom.bits.length + (start + 4) % pageSize < 2 ^ 32 := by
    have := Nat.mod_le (start + 4) pageSize
    omega
  have hguard : 4 + bloom.bits.length ≥ 4 ∧ start + 4 ≤ (payload blocks bloom).length := by
    omega
  unfold bloomOf bloomObject
  dsimp only
  rw [hsub, hoff, htotal, u32_of_lt (show start + 4 < 2 ^ 32 by omega), if_pos hguard,
    if_pos hguard, Nat.add_sub_cancel_left, hnum, BloomObject.mayContain_load _ _ hin hmap, hbits]
  refine ⟨?_, rfl⟩
  unfold loadBloom
  split_ifs with h0
  · have hnil : bloom.bits = [] := List.length_eq_zero_iff.mp h0
    simp [BloomFilter.mayContain, hnil]
  · rw [hbits]

/-- The filter object of the `load` for Windows admits every key. -/
theorem mayContain_bloomMapped (file : List Byte) (key : Key) :
    (bloomMapped file).mayContain key = true := by
  unfold bloomMapped
  dsimp only
  split_ifs
  · exact BloomObject.mayContain_loadRaw _ _ _ _ _
  · rfl

/-- **The filter never hides a key.** A filter admits the keys it is built from,
whatever its size. Written to a table of less than 2^32 bytes and loaded again,
through the heap, a mapping or `load_raw`, it still does. And so `get` and
`get_pointer` return the same whether they ask the filters or not, for every
state of the store and every key. -/
theorem bloom_hides_nothing (env : Env) (pageSize : ℕ) :
    (∀ (keys : List Key) (o : BloomObject), ∀ key ∈ keys,
        (o.build env keys).mayContain key = true)
      ∧ (∀ (contents : OrdMap Key VLogPointer), contents.entries ≠ [] →
        BloomFilter.hashCount env contents.keys.length < 2 ^ 32 →
        (SSTableWriter.write env contents.entries).length < 2 ^ 32 →
        ∃ r, load (SSTableWriter.write env contents.entries) = .ok (some r)
          ∧ ∀ key ∈ contents.keys, r.bloom.mayContain key = true
            ∧ (bloomObject pageSize (SSTableWriter.write env contents.entries)).mayContain key
              = true
            ∧ (bloomMapped (SSTableWriter.write env contents.entries)).mayContain key = true)
      ∧ ∀ (s : KVStore) (k : Key),
        s.get { env with disableBloom := true } k = s.get { env with disableBloom := false } k
          ∧ s.getPointer { env with disableBloom := true } k
            = s.getPointer { env with disableBloom := false } k := by
  refine ⟨fun keys o key hkey => ?_, fun contents hne hk hsize => ?_, fun s k => ?_⟩
  · rw [BloomObject.mayContain_build]
    exact BloomFilter.mayContain_build env hkey
  · obtain ⟨img, hfile, -⟩ := exists_fileImage env hne hsize
    obtain ⟨r, hload, -⟩ := load_file img
    rw [hfile] at hload
    refine ⟨r, hload, fun key hkey => ?_⟩
    have hadm := BloomFilter.mayContain_build env hkey
    have hkeys : contents.entries.map Prod.fst ≠ [] := by simpa using hne
    obtain ⟨blocks, -, hwrite⟩ := write_eq env contents.entries
    rw [hwrite] at hsize
    have hnum := BloomFilter.numHashes_build env hkeys
    obtain ⟨hof, hobj⟩ := bloom_file (hnum ▸ hk) hsize key pageSize
    rw [bloom_of_load hload, hwrite, hof, hobj]
    exact ⟨hadm, hadm, mayContain_bloomMapped _ key⟩
  · have hlookup : ∀ b, s.lookup { env with disableBloom := b } k = s.lookup env k := by
      intro b
      have hprobe : probeFile { env with disableBloom := b } s.lsm.tables k
          = probeFile env s.lsm.tables k :=
        funext (fun f => probeFile_disableBloom env b s.lsm.tables k f)
      unfold KVStore.lookup Lsm.lookup lookupVersion lookupLevel
      rw [hprobe]
    unfold KVStore.get KVStore.getPointer
    rw [hlookup true, hlookup false]
    exact ⟨rfl, rfl⟩

/-- A table of two keys, loaded again. -/
theorem bloom_hides_nothing_twoEntries :
    ∃ r, load (SSTableWriter.write BloomObject.sized twoEntries.entries) = .ok (some r)
      ∧ r.bloom.mayContain [97, 98] = true :=
  have ⟨r, hload, hadm⟩ := (bloom_hides_nothing BloomObject.sized 4096).2.1 twoEntries (by decide)
    (by decide) (by decide +kernel)
  ⟨r, hload, (hadm [97, 98] (by decide)).1⟩

/-- A key of 2^31 bytes, one of which is not zero. -/
def hugeKey (n : ℕ) : Key := List.replicate 36 0 ++ ([1, 0, 0, 0] ++ ([0, 0] ++ List.replicate n 0))

/-- The file of a table with that key: its filter is behind 2^32 + 48 bytes, and
the footer says 48, which is inside the key. -/
theorem bloom_hugeKey {n : ℕ} (hn : n + 42 = 2 ^ 31) (ptr : VLogPointer) :
    (∃ r, load (SSTableWriter.write BloomObject.sized [(hugeKey n, ptr)]) = .ok (some r))
      ∧ bloomOf (SSTableWriter.write BloomObject.sized [(hugeKey n, ptr)]) = ⟨[0, 0], 1⟩ := by
  obtain ⟨b, hitems, hwrite⟩ := write_singleton BloomObject.sized (hugeKey n) ptr
  have hbits : (BloomFilter.build BloomObject.sized [hugeKey n]).bits.length = 2 := by
    rw [BloomFilter.length_build BloomObject.sized (List.cons_ne_nil (hugeKey n) []),
      List.length_singleton]
    rfl
  generalize BloomFilter.build BloomObject.sized [hugeKey n] = bloom at hwrite hbits
  have hkey : (hugeKey n).length = 2 ^ 31 := by
    simp only [hugeKey, List.length_append, List.length_replicate, List.length_cons,
      List.length_nil]
    omega
  have hblock : b.bytes.length = 2 ^ 31 + 36 := by
    rw [b.length_bytes, DataBlock.restarts, hitems]
    simp [BlockItem.restarts, BlockItem.length_bytes, hkey, u32]
  have hindex : (indexBytes (indexFrom 0 [b])).length = 2 ^ 31 + 12 := by
    simp [indexBytes, indexFrom, IndexEntry.pieces, DataBlock.maxKey, hitems, BlockItem.lastKey,
      hkey, u32]
  have hlen := FileImage.length_payload [b] bloom
  obtain ⟨hioff, hboff, htotal, hsum⟩ := footer_reads [b] bloom
  rw [List.flatMap_singleton] at hlen hioff hboff
  rw [hblock, hindex, hbits] at hlen
  rw [hblock] at hioff hboff
  rw [hindex] at hboff
  rw [hbits] at htotal
  -- the front of the file, up to the end of the key
  obtain ⟨post, hfront⟩ : ∃ post, payload [b] bloom ++ footer [b] bloom
      = (leBytes 4 0 ++ (leBytes 4 (2 ^ 31) ++ leBytes 4 16)) ++ (hugeKey n ++ post) := by
    refine ⟨ptr.bytes ++ (b.restarts.flatMap (leBytes 4) ++ (leBytes 4 b.restarts.length
      ++ (indexBytes (indexFrom 0 [b]) ++ (leBytes 4 bloom.numHashes ++ (bloom.bits
        ++ footer [b] bloom))))), ?_⟩
    rw [payload, List.flatMap_singleton, DataBlock.bytes, hitems]
    simp only [BlockItem.rowBytes_cons, BlockItem.rowBytes_nil, BlockItem.bytes,
      BlockBuf.entryBytes, List.drop_zero, List.append_assoc, List.nil_append, hkey, Nat.sub_zero,
      cutKey_of_lt (hkey.trans_lt (by norm_num))]
  have hsub : (payload [b] bloom ++ footer [b] bloom).length - 16
      = (payload [b] bloom).length := by
    rw [List.length_append, FileImage.length_footer, Nat.add_sub_cancel]
  have hfileLen : (payload [b] bloom ++ footer [b] bloom).length
      = (payload [b] bloom).length + 16 := by
    rw [List.length_append, FileImage.length_footer]
  have hpayload : (payload [b] bloom ++ footer [b] bloom).take (payload [b] bloom).length
      = payload [b] bloom := List.take_left
  rw [hwrite]
  generalize payload [b] bloom ++ footer [b] bloom = file at *
  generalize hhead : leBytes 4 0 ++ (leBytes 4 (2 ^ 31) ++ leBytes 4 16) = head at hfront
  have hhead12 : head.length = 12 := by
    simp [← hhead]
  unfold hugeKey at hfront
  have hnum : leAt 4 file 48 = leNat [1, 0, 0, 0] := by
    refine congrArg leNat (slice_eq (head ++ List.replicate 36 0) _
      ([0, 0] ++ List.replicate n 0 ++ post) ?_ ?_ rfl)
    · simp only [hfront, List.append_assoc]
    · rw [List.length_append, hhead12, List.length_replicate]
  have hslice : slice file 52 2 = [0, 0] := by
    refine slice_eq (head ++ (List.replicate 36 0 ++ [1, 0, 0, 0])) _
      (List.replicate n 0 ++ post) ?_ ?_ rfl
    · simp only [hfront, List.append_assoc]
    · simp [hhead12]
  constructor
  · unfold load
    dsimp only
    rw [if_neg (by omega), hsub, hioff, hboff, hsum, hpayload, checksumLoop_eq,
      computeCrc32Incremental_zero, if_neg (not_not.mpr rfl)]
    have hparse : parseIndex file (u32 (2 ^ 31 + 36 + (2 ^ 31 + 12))) (u32 (2 ^ 31 + 36))
        = .ok [] := by
      rw [parseIndex, if_neg (by decide)]
    rw [hparse]
    exact ⟨_, rfl⟩
  · have hoffset : u32 (2 ^ 31 + 36 + (2 ^ 31 + 12)) = 48 := by decide
    have hin : inBounds file 52 2 := by
      unfold inBounds
      omega
    unfold bloomOf
    dsimp only
    rw [hsub, hboff, htotal, hoffset, hnum, if_pos ⟨by decide, le_trans (by decide) hlen.ge⟩]
    show loadBloom file 52 2 _ = _
    rw [loadBloom, if_neg (by decide), if_pos hin, hslice]
    rfl

/-- **A loaded filter that hides the key of its table.** The table has one key,
of 2^31 bytes, and is longer than 2^32 bytes; what is loaded as its filter are
bytes of the key. -/
theorem bloom_hides_hugeKey :
    ∃ r, load (SSTableWriter.write BloomObject.sized [(hugeKey 2147483606, ⟨1, 9, 1⟩)])
        = .ok (some r)
      ∧ r.bloom.mayContain (hugeKey 2147483606) = false := by
  obtain ⟨⟨r, hload⟩, hbloom⟩ := bloom_hugeKey (n := 2147483606) (by norm_num) ⟨1, 9, 1⟩
  refine ⟨r, hload, ?_⟩
  rw [bloom_of_load hload, hbloom]
  have hbit := BloomFilter.testBit_replicate 2
    (BloomFilter.probeIndex 16 (hugeKey 2147483606) 0)
  have hrep : List.replicate 2 (0 : Byte) = [0, 0] := rfl
  rw [hrep] at hbit
  simp [BloomFilter.mayContain, hbit]

end SSTableReader
