import ForgeLSM.TableLookup

/-!
# One checksum, computed four ways

The engine computes the same CRC-32 in several loops: over a whole string, over a string in
pieces, over the fields of a WAL record, and, in the loader of a table, 4096 bytes at a time.
The writer of a table adds its blocks, the pieces of its index and its filter one after the
other, and what it stores is compared with what a loader computes from the file.

All of them are the CRC-32 of the standard, the register of which takes one bit at a time
(`crc32Bitwise`). The table is what the register does in eight steps, and a call that goes on
from the result of another one undoes its last complement, so that how a string is cut makes
no difference (`checksums_agree`).
-/

/-- One bit of the reflected CRC-32: the register moves down a place, and the polynomial is
added when the bit that falls out differs from the bit of the input. -/
def crcBit (crc : BitVec 32) (bit : Bool) : BitVec 32 :=
  if crc.getLsbD 0 ^^ bit then (crc >>> 1) ^^^ 0xEDB88320#32 else crc >>> 1

/-- **The reflected CRC-32, bit by bit**, the lowest bit of each byte first. -/
def crc32Bitwise (data : List Byte) : BitVec 32 :=
  (streamBits data).foldl crcBit 0xFFFFFFFF#32 ^^^ 0xFFFFFFFF#32

open ShiftRegister

/-- A bit that is added to the register falls out of it in the same step. -/
theorem crcBit_eq_feed (crc : BitVec 32) (bit : Bool) : crcBit crc bit = feed crcPoly crc bit := by
  have hlow : (crc ^^^ BitVec.setWidth 32 (BitVec.ofBool bit)).getLsbD 0
      = (crc.getLsbD 0 ^^ bit) := by
    rw [BitVec.getLsbD_xor]
    cases bit <;> rfl
  have hrest : (crc ^^^ BitVec.setWidth 32 (BitVec.ofBool bit)) >>> 1 = crc >>> 1 := by
    rw [BitVec.ushiftRight_xor_distrib]
    cases bit <;> exact BitVec.xor_zero
  unfold crcBit feed shift
  rw [hlow, hrest]
  cases crc.getLsbD 0 ^^ bit with
  | true => rfl
  | false => exact BitVec.xor_zero.symm

/-- **The table gives what the bits do.** -/
theorem computeCrc32_eq_bitwise (data : List Byte) : computeCrc32 data = crc32Bitwise data := by
  have hbit : crcBit = feed crcPoly := funext (fun crc => funext (crcBit_eq_feed crc))
  unfold computeCrc32 crc32Bitwise
  rw [crcUpdate_eq_feedAll, hbit]
  rfl

/-- **However a string is cut**, its pieces give what the whole does. -/
theorem foldl_computeCrc32Incremental (chunks : List (List Byte)) :
    chunks.foldl computeCrc32Incremental 0 = computeCrc32 chunks.flatten := by
  have hfrom : ∀ crc, chunks.foldl computeCrc32Incremental crc
      = computeCrc32Incremental crc chunks.flatten := by
    induction chunks with
    | nil =>
      intro crc
      show crc = crc ^^^ 0xFFFFFFFF#32 ^^^ 0xFFFFFFFF#32
      rw [BitVec.xor_assoc, BitVec.xor_self, BitVec.xor_zero]
    | cons chunk chunks ih =>
      intro crc
      rw [List.foldl_cons, ih, List.flatten_cons, computeCrc32Incremental_append]
  rw [hfrom, computeCrc32Incremental_zero]

/-- The footer ends with the checksum, behind three numbers. -/
theorem SSTableWriter.footer_eq (blocks : List DataBlock) (bloom : BloomFilter) :
    ∃ numbers, numbers.length = 12 ∧ footer blocks bloom
      = numbers ++ leBytes 4 (computeCrc32 (payload blocks bloom)).toNat := by
  refine ⟨leBytes 4 (blocks.flatMap DataBlock.bytes).length
    ++ (leBytes 4 ((blocks.flatMap DataBlock.bytes).length
      + (indexBytes (DataBlock.indexFrom 0 blocks)).length)
    ++ leBytes 4 (4 + bloom.bits.length)), ?_, ?_⟩
  · simp only [List.length_append, length_leBytes]
  · rw [List.append_assoc, List.append_assoc]
    rfl

/-- **The checksums agree**, with each other and with the standard, for every string and every
way to cut it. So the checksum that the writer of a table has added up block by block is that
of all the bytes in front of the footer, which is what a loader computes, whether from the
whole of a mapped file or from 4096 bytes at a time. -/
theorem checksums_agree :
    (∀ data, computeCrc32 data = crc32Bitwise data)
      ∧ (∀ chunks : List (List Byte),
        chunks.foldl computeCrc32Incremental 0 = computeCrc32 chunks.flatten)
      ∧ (∀ keySize vlogId vlogOffset vlogLen key,
        recordChecksum keySize vlogId vlogOffset vlogLen key
          = computeCrc32 (checksumStream keySize vlogId vlogOffset vlogLen (key.take keySize)))
      ∧ (∀ vlogId vlogOffset vlogLen key,
        recordChecksum key.length vlogId vlogOffset vlogLen key
          = computeCrc32 (checksumStream key.length vlogId vlogOffset vlogLen key))
      ∧ (∀ data, SSTableReader.checksumLoop 0 data = computeCrc32 data)
      ∧ ∀ env entries, ∃ payload numbers, numbers.length = 12
        ∧ SSTableWriter.write env entries
          = payload ++ (numbers ++ leBytes 4 (computeCrc32 payload).toNat) := by
  refine ⟨computeCrc32_eq_bitwise, foldl_computeCrc32Incremental, recordChecksum_eq_computeCrc32,
    fun vlogId vlogOffset vlogLen key => ?_, fun data => ?_, fun env entries => ?_⟩
  · rw [recordChecksum_eq_computeCrc32, List.take_length]
  · rw [SSTableReader.checksumLoop_eq, computeCrc32Incremental_zero]
  · obtain ⟨blocks, -, hwrite⟩ := SSTableWriter.write_eq env entries
    obtain ⟨numbers, hlen, hfooter⟩ := SSTableWriter.footer_eq blocks
      (BloomFilter.build env (entries.map Prod.fst))
    exact ⟨_, numbers, hlen, by rw [hwrite, hfooter]⟩
