import ForgeLSM.Util.Bytes
import ForgeLSM.Util.ShiftRegister

/-!
# Checksums

The CRC-32 of the engine, computed byte by byte with a table. One loop runs
under all of its routines, over a register that they complement on the way in
and on the way out: `computeCrc32` over a whole string, and
`computeCrc32Incremental` over the pieces of one, each call taking the result
of the last, and `recordChecksum` over the fields of a WAL record. The
complements cancel between two calls, so that the pieces give what the whole
does (`computeCrc32Incremental_append`).

Bit by bit the register is a shift register with feedback, whose polynomial has
its top bit set. It therefore tells two strings apart that differ only within 32
bits (`crcUpdate_ne_of_burst`).
-/

/-- One shift of the register: the polynomial is added when a bit falls out. -/
def crcShift (crc : BitVec 32) : BitVec 32 :=
  (crc >>> 1) ^^^ (0xEDB88320#32 &&& -(crc &&& 1#32))

/-- `crc32_table`, as `init_crc32_table` fills it. -/
def crc32Table (i : ℕ) : BitVec 32 := crcShift^[8] (BitVec.ofNat 32 i)

/-- The register after a byte. -/
def crcByte (crc : BitVec 32) (b : Byte) : BitVec 32 :=
  (crc >>> 8) ^^^ crc32Table ((crc ^^^ BitVec.ofNat 32 b.val) &&& 0xFF#32).toNat

/-- The loop over the bytes. -/
def crcUpdate (crc : BitVec 32) (data : List Byte) : BitVec 32 := data.foldl crcByte crc

/-- **`compute_crc32`.** -/
def computeCrc32 (data : List Byte) : BitVec 32 := crcUpdate 0xFFFFFFFF#32 data ^^^ 0xFFFFFFFF#32

/-- **`compute_crc32_incremental`.** -/
def computeCrc32Incremental (crc : BitVec 32) (data : List Byte) : BitVec 32 :=
  crcUpdate (crc ^^^ 0xFFFFFFFF#32) data ^^^ 0xFFFFFFFF#32

/-- **`record_checksum`**: of the header fields of a WAL record and so many bytes
of its key. -/
def recordChecksum (keySize vlogId vlogOffset vlogLen : ℕ) (key : List Byte) : BitVec 32 :=
  let crc := crcUpdate 0xFFFFFFFF#32 (leBytes 4 keySize)
  let crc := crcUpdate crc (leBytes 4 vlogId)
  let crc := crcUpdate crc (leBytes 8 vlogOffset)
  let crc := crcUpdate crc (leBytes 4 vlogLen)
  let crc := if 0 < keySize ∧ key ≠ [] then crcUpdate crc (key.take keySize) else crc
  crc ^^^ 0xFFFFFFFF#32

theorem crcUpdate_append (crc : BitVec 32) (a b : List Byte) :
    crcUpdate crc (a ++ b) = crcUpdate (crcUpdate crc a) b :=
  List.foldl_append

/-- **Pieces give what the whole does.** -/
theorem computeCrc32Incremental_append (crc : BitVec 32) (a b : List Byte) :
    computeCrc32Incremental crc (a ++ b)
      = computeCrc32Incremental (computeCrc32Incremental crc a) b := by
  unfold computeCrc32Incremental
  rw [crcUpdate_append, BitVec.xor_assoc, BitVec.xor_self, BitVec.xor_zero]

/-- From zero, the pieces start where the whole does. -/
theorem computeCrc32Incremental_zero (data : List Byte) :
    computeCrc32Incremental 0 data = computeCrc32 data := by
  unfold computeCrc32Incremental computeCrc32
  rw [BitVec.ofNat_eq_ofNat, BitVec.zero_xor]

/-- Only the bytes of the key that the size counts are read. -/
theorem recordChecksum_take (keySize vlogId vlogOffset vlogLen : ℕ) (key : List Byte) :
    recordChecksum keySize vlogId vlogOffset vlogLen (key.take keySize)
      = recordChecksum keySize vlogId vlogOffset vlogLen key := by
  have hcond : (0 < keySize ∧ key.take keySize ≠ []) ↔ (0 < keySize ∧ key ≠ []) := by
    refine and_congr_right (fun hpos => not_congr ?_)
    rw [List.take_eq_nil_iff]
    exact or_iff_right (Nat.ne_of_gt hpos)
  unfold recordChecksum
  simp only [hcond, List.take_take, min_self]

/-! ## The register bit by bit

`crcByte` takes eight bits at a time with the table. Bit by bit it is a shift
register with feedback, fed the bits of a byte from the lowest up. -/

open ShiftRegister

/-- The polynomial, its bits reversed. -/
def crcPoly : BitVec 32 := 0xEDB88320#32

/-- The bits of a byte in the order of the CRC, the lowest first. -/
def byteBits (b : Byte) : List Bool := (List.range 8).map (fun i => b.val.testBit i)

/-- The bits of a string in the order of the CRC. -/
def streamBits (data : List Byte) : List Bool := data.flatMap byteBits

theorem crcShift_eq (crc : BitVec 32) : crcShift crc = shift crcPoly crc := by
  have hmask : -(crc &&& 1#32) = if crc.getLsbD 0 then 0xFFFFFFFF#32 else 0#32 := by
    rw [BitVec.and_one_eq_setWidth_ofBool_getLsbD]
    cases crc.getLsbD 0 <;> rfl
  unfold crcShift shift
  rw [hmask]
  cases crc.getLsbD 0 <;> rfl

/-- The table takes eight bits at once. -/
theorem crcByte_eq_iterate (crc : BitVec 32) (b : Byte) :
    crcByte crc b = (shift crcPoly)^[8] (crc ^^^ BitVec.ofNat 32 b.val) := by
  have hshift : crcShift = shift crcPoly := funext crcShift_eq
  have hbyte : BitVec.ofNat 32 b.val >>> 8 = 0#32 := by
    apply BitVec.eq_of_toNat_eq
    have hlt := b.isLt
    rw [BitVec.toNat_ushiftRight, BitVec.toNat_ofNat, Nat.shiftRight_eq_div_pow]
    simp
    omega
  generalize hx : crc ^^^ BitVec.ofNat 32 b.val = x
  have hcrc : crc >>> 8 = x >>> 8 := by
    rw [← hx, BitVec.ushiftRight_xor_distrib, hbyte, BitVec.xor_zero]
  have hsplit : x = (x &&& ~~~0xFF#32) ^^^ (x &&& 0xFF#32) := by
    ext i
    simp only [BitVec.getElem_xor, BitVec.getElem_and, BitVec.getElem_not]
    cases x[i] <;> cases (0xFF#32)[i] <;> rfl
  have hlow : ∀ i < 8, (x &&& ~~~0xFF#32).getLsbD i = false := by
    intro i hi
    have hmask : (~~~0xFF#32 : BitVec 32).getLsbD i = false := by
      interval_cases i <;> rfl
    rw [BitVec.getLsbD_and, hmask, Bool.and_false]
  have hhigh : (x &&& ~~~0xFF#32) >>> 8 = x >>> 8 := by
    have hlt := x.isLt
    apply BitVec.eq_of_toNat_eq
    rw [BitVec.ushiftRight_and_distrib, BitVec.toNat_and,
      show (~~~0xFF#32 >>> 8).toNat = 2 ^ 24 - 1 from rfl, Nat.and_two_pow_sub_one_eq_mod,
      BitVec.toNat_ushiftRight, Nat.shiftRight_eq_div_pow]
    omega
  unfold crcByte crc32Table
  rw [hx, hcrc, hshift, BitVec.ofNat_toNat, BitVec.setWidth_eq]
  conv_rhs => rw [hsplit]
  rw [iterate_shift_xor, iterate_shift_of_low crcPoly hlow, hhigh]

/-- **A byte is its eight bits.** -/
theorem crcByte_eq_feedAll (crc : BitVec 32) (b : Byte) :
    crcByte crc b = feedAll crcPoly crc (byteBits b) := by
  have hzero : ∀ b : Byte, feedAll crcPoly 0#32 (byteBits b)
      = (shift crcPoly)^[8] (BitVec.ofNat 32 b.val) := by
    decide +kernel
  rw [crcByte_eq_iterate, iterate_shift_xor, feedAll_eq_iterate_xor, hzero]
  rfl

theorem crcUpdate_eq_feedAll (crc : BitVec 32) (data : List Byte) :
    crcUpdate crc data = feedAll crcPoly crc (streamBits data) := by
  induction data generalizing crc with
  | nil => rfl
  | cons b data ih =>
    rw [streamBits, List.flatMap_cons, feedAll_append, ← crcByte_eq_feedAll]
    exact ih (crcByte crc b)

/-! ## Bursts -/

/-- The bits of a byte are the byte. -/
theorem byteBits_injective : Function.Injective byteBits := by
  have hval : ∀ b : Byte, (byteBits b).foldr (fun x n => x.toNat + 2 * n) 0 = b.val := by
    decide +kernel
  intro a b h
  exact Fin.ext (by rw [← hval a, h, hval b])

theorem length_streamBits (data : List Byte) : (streamBits data).length = 8 * data.length := by
  induction data with
  | nil => rfl
  | cons b data ih =>
    rw [streamBits, List.flatMap_cons, List.length_append, List.length_cons, ← streamBits, ih]
    simp only [byteBits, List.length_map, List.length_range]
    omega

theorem streamBits_injective : Function.Injective streamBits := by
  intro xs
  induction xs with
  | nil =>
    intro ys h
    have hlen := congrArg List.length h
    rw [length_streamBits, length_streamBits, List.length_nil] at hlen
    exact (List.length_eq_zero_iff.mp (by omega)).symm
  | cons x xs ih =>
    intro ys h
    cases ys with
    | nil =>
      have hlen := congrArg List.length h
      rw [length_streamBits, length_streamBits, List.length_nil, List.length_cons] at hlen
      omega
    | cons y ys =>
      rw [streamBits, streamBits, List.flatMap_cons, List.flatMap_cons] at h
      obtain ⟨hxy, hrest⟩ := List.append_inj h (by simp [byteBits])
      rw [byteBits_injective hxy, ih hrest]

/-- Two strings differ only within so many bits from a bit on, in the order of
the CRC. -/
def DifferWithin (n start : ℕ) (a b : List Byte) : Prop :=
  ∀ i : ℕ, (streamBits a)[i]? ≠ (streamBits b)[i]? → start ≤ i ∧ i < start + n

instance (n start : ℕ) (a b : List Byte) : Decidable (DifferWithin n start a b) :=
  decidable_of_iff (∀ i < max (8 * a.length) (8 * b.length),
    (streamBits a)[i]? ≠ (streamBits b)[i]? → start ≤ i ∧ i < start + n) (by
    refine ⟨fun h i hi => ?_, fun h i _ => h i⟩
    by_cases hlt : i < max (8 * a.length) (8 * b.length)
    · exact h i hlt hi
    · rw [List.getElem?_eq_none (by rw [length_streamBits]; omega),
        List.getElem?_eq_none (by rw [length_streamBits]; omega)] at hi
      exact absurd rfl hi)

/-- **The CRC detects bursts** of as many bits as it has. -/
theorem crcUpdate_ne_of_burst (crc : BitVec 32) {a b : List Byte} (hlen : a.length = b.length)
    (hne : a ≠ b) {start : ℕ} (hwin : DifferWithin 32 start a b) :
    crcUpdate crc a ≠ crcUpdate crc b := by
  rw [crcUpdate_eq_feedAll, crcUpdate_eq_feedAll]
  refine feedAll_ne_of_burst rfl crc ?_ (fun h => hne (streamBits_injective h)) hwin
  rw [length_streamBits, length_streamBits, hlen]

/-- The bytes that the checksum of a record is of. -/
def checksumStream (keySize vlogId vlogOffset vlogLen : ℕ) (key : List Byte) : List Byte :=
  leBytes 4 keySize ++ (leBytes 4 vlogId ++ (leBytes 8 vlogOffset ++ (leBytes 4 vlogLen ++ key)))

/-- The checksum of a record is that of its fields and of the key as far as its size says. -/
theorem recordChecksum_eq_computeCrc32 (keySize vlogId vlogOffset vlogLen : ℕ) (key : List Byte) :
    recordChecksum keySize vlogId vlogOffset vlogLen key
      = computeCrc32 (checksumStream keySize vlogId vlogOffset vlogLen (key.take keySize)) := by
  have hkey : ∀ crc : BitVec 32, (if 0 < keySize ∧ key ≠ [] then
      crcUpdate crc (key.take keySize) else crc) = crcUpdate crc (key.take keySize) := by
    intro crc
    by_cases h : 0 < keySize ∧ key ≠ []
    · rw [if_pos h]
    · have hnil : key.take keySize = [] := List.take_eq_nil_iff.mpr (by
        by_contra hc
        exact h ⟨Nat.pos_of_ne_zero (fun h0 => hc (Or.inl h0)), fun h0 => hc (Or.inr h0)⟩)
      rw [if_neg h, hnil]
      rfl
  unfold recordChecksum computeCrc32 checksumStream
  simp only [hkey, crcUpdate_append]

theorem recordChecksum_eq (vlogId vlogOffset vlogLen : ℕ) (key : List Byte) :
    recordChecksum key.length vlogId vlogOffset vlogLen key
      = crcUpdate 0xFFFFFFFF#32 (checksumStream key.length vlogId vlogOffset vlogLen key)
        ^^^ 0xFFFFFFFF#32 := by
  rw [recordChecksum_eq_computeCrc32, List.take_length]
  rfl
