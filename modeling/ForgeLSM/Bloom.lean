import ForgeLSM.Basic

/-!
# Bloom filters

Every table carries a bloom filter of its keys, and a lookup skips a table
whose filter rules the key out. What makes the skip sound is that a filter
never rules out a key it was built from (`BloomFilter.mayContain_build`).
The proof follows the two loops: building sets, for each key, the bits at a
sequence of indices computed from the key's hash, and no others; querying
tests the bits at the same indices. So a filter admits exactly the keys each of
whose probes falls on a probe of one of its own
(`BloomFilter.mayContain_build_iff`).

The number of bits and of hashes comes from a floating-point formula. It is
`Env.bloomSize`, left arbitrary: the argument does not depend on it.
-/

namespace BloomFilter

/-! ## The hash -/

/-- The multiplier of MurmurHash64A. -/
def murmurM : UInt64 := 0xc6a4a7935bd1e995

/-- The loop over whole eight-byte words, and the bytes left over. -/
def hashBlocks (h : UInt64) : List Byte → UInt64 × List Byte
  | b0 :: b1 :: b2 :: b3 :: b4 :: b5 :: b6 :: b7 :: rest =>
    let k := UInt64.ofNat (leNat [b0, b1, b2, b3, b4, b5, b6, b7])
    let k := k * murmurM
    let k := k ^^^ (k >>> 47)
    let k := k * murmurM
    hashBlocks ((h ^^^ k) * murmurM) rest
  | tail => (h, tail)

/-- The bytes left over, from the byte at position `i` on, each mixed in at
its own place of the word. -/
def mixTail (h : UInt64) (i : ℕ) : List Byte → UInt64
  | [] => h
  | b :: bs => mixTail (h ^^^ (UInt64.ofNat b.val <<< UInt64.ofNat (8 * i))) (i + 1) bs

/-- The parameter `int len`: the length of the key, cut to a signed number of
32 bits. -/
def hashLen (key : List Byte) : ℤ := (key.length : ℤ).bmod (2 ^ 32)

/-- **`hash64`**, MurmurHash64A. Of a key too long for an `int` only the first
`len` bytes are hashed, and none of them if `len` is negative. -/
def hash64 (key : List Byte) (seed : UInt64) : UInt64 :=
  let len := hashLen key
  let (h, tail) := hashBlocks (seed ^^^ (UInt64.ofInt len * murmurM)) (key.take len.toNat)
  let h := if tail = [] then h else mixTail h 0 tail * murmurM
  let h := h ^^^ (h >>> 47)
  let h := h * murmurM
  h ^^^ (h >>> 47)

end BloomFilter

/-! ## The filter -/

/-- A bloom filter: its bytes and the number of hashes. -/
structure BloomFilter where
  bits : List Byte
  numHashes : ℕ
  deriving DecidableEq

namespace BloomFilter

/-- The index of the `i`-th probe of a key in a filter of `m` bits. -/
def probeIndex (m : ℕ) (key : Key) (i : ℕ) : ℕ :=
  let base := hash64 key 0x9747b28c
  let h2 := (base >>> 33) ||| (base <<< 31)
  ((base + UInt64.ofNat i * h2) % UInt64.ofNat m).toNat

/-- Set one bit. -/
def setBit (bits : List Byte) (idx : ℕ) : List Byte :=
  bits.modify (idx / 8) (fun b => Fin.ofNat 256 (b.val ||| 2 ^ (idx % 8)))

/-- Test one bit. -/
def testBit (bits : List Byte) (idx : ℕ) : Bool :=
  (bits.getD (idx / 8) 0).val.testBit (idx % 8)

/-- Set the bits of one key. -/
def addKey (k : ℕ) (bits : List Byte) (key : Key) : List Byte :=
  (List.range k).foldl (fun bits i => setBit bits (probeIndex (8 * bits.length) key i)) bits

/-- The number of hashes for `n` keys, at least one. -/
def hashCount (env : Env) (n : ℕ) : ℕ :=
  if (env.bloomSize n).2 = 0 then 1 else (env.bloomSize n).2

/-- The number of bytes for `n` keys. -/
def byteSize (env : Env) (n : ℕ) : ℕ := ((env.bloomSize n).1 + 7) / 8

/-- **`BloomFilter::build`.** -/
def build (env : Env) (keys : List Key) : BloomFilter :=
  if keys = [] then ⟨[], 0⟩
  else
    let k := hashCount env keys.length
    ⟨keys.foldl (addKey k) (List.replicate (byteSize env keys.length) 0), k⟩

/-- **`BloomFilter::may_contain`.** -/
def mayContain (f : BloomFilter) (key : Key) : Bool :=
  f.bits == [] || f.numHashes == 0
    || (List.range f.numHashes).all (fun i => testBit f.bits (probeIndex (8 * f.bits.length) key i))

/-! ## Which bits are set -/

@[simp] theorem length_setBit (bits : List Byte) (idx : ℕ) :
    (setBit bits idx).length = bits.length := by
  simp [setBit]

/-- A probe falls inside the filter. -/
theorem probeIndex_lt {m : ℕ} (hm : 0 < m) (key : Key) (i : ℕ) : probeIndex m key i < m := by
  unfold probeIndex
  rw [UInt64.toNat_mod, UInt64.toNat_ofNat']
  rcases Nat.eq_zero_or_pos (m % 2 ^ 64) with h | h
  · rw [h, Nat.mod_zero]
    have hlt := (hash64 key 0x9747b28c + UInt64.ofNat i
      * ((hash64 key 0x9747b28c >>> 33) ||| (hash64 key 0x9747b28c <<< 31))).toNat_lt
    have hle := Nat.le_of_dvd hm (Nat.dvd_of_mod_eq_zero h)
    exact lt_of_lt_of_le hlt hle
  · exact lt_of_lt_of_le (Nat.mod_lt _ h) (Nat.mod_le m _)

/-- The byte of a set bit, as a number. -/
theorem val_setByte (b : Byte) (i : ℕ) :
    (Fin.ofNat 256 (b.val ||| 2 ^ (i % 8)) : Byte).val = b.val ||| 2 ^ (i % 8) := by
  have hpow : 2 ^ (i % 8) < 2 ^ 8 := Nat.pow_lt_pow_right (by decide) (Nat.mod_lt i (by decide))
  exact Nat.mod_eq_of_lt (Nat.or_lt_two_pow b.isLt hpow)

/-- **Setting a bit sets that bit and touches no other.** -/
theorem testBit_setBit {bits : List Byte} {idx : ℕ} (h : idx < 8 * bits.length) (j : ℕ) :
    testBit (setBit bits idx) j = true ↔ testBit bits j = true ∨ j = idx := by
  have hbyte : idx / 8 < bits.length := by omega
  unfold testBit setBit
  rw [List.getD_eq_getElem?_getD, List.getD_eq_getElem?_getD]
  by_cases hij : idx / 8 = j / 8
  · rw [← hij, List.getElem?_modify_eq, List.getElem?_eq_getElem hbyte]
    show ((Fin.ofNat 256 _ : Byte).val).testBit _ = true ↔ _
    rw [val_setByte, Nat.testBit_or, Bool.or_eq_true, Nat.testBit_two_pow, decide_eq_true_eq]
    refine or_congr Iff.rfl ⟨fun hmod => ?_, fun he => by rw [he]⟩
    omega
  · rw [List.getElem?_modify_ne _ _ hij]
    refine ⟨Or.inl, fun h => h.resolve_right ?_⟩
    rintro rfl
    exact hij rfl

@[simp] theorem length_addKey (k : ℕ) (bits : List Byte) (key : Key) :
    (addKey k bits key).length = bits.length := by
  unfold addKey
  induction List.range k generalizing bits with
  | nil => rfl
  | cons i is ih => rw [List.foldl_cons, ih, length_setBit]

theorem length_foldl_addKey (k : ℕ) (keys : List Key) (bits : List Byte) :
    (keys.foldl (addKey k) bits).length = bits.length := by
  induction keys generalizing bits with
  | nil => rfl
  | cons key keys ih => rw [List.foldl_cons, ih, length_addKey]

/-- The probes of a key, in turn, set the bits they fall on. -/
theorem testBit_addKey (k : ℕ) {bits : List Byte} (hpos : 0 < bits.length) (key : Key) (j : ℕ) :
    testBit (addKey k bits key) j = true
      ↔ testBit bits j = true ∨ ∃ i < k, j = probeIndex (8 * bits.length) key i := by
  unfold addKey
  simp only [← List.mem_range]
  induction List.range k generalizing bits with
  | nil => simp
  | cons i is ih =>
    have hlt := probeIndex_lt (m := 8 * bits.length) (by omega) key i
    have hpos' : 0 < (setBit bits (probeIndex (8 * bits.length) key i)).length := by
      rw [length_setBit]
      exact hpos
    rw [List.foldl_cons, ih hpos', length_setBit, testBit_setBit hlt, List.exists_mem_cons_iff,
      or_assoc]

/-- **The bits of a filter**: those that a probe of one of its keys falls on,
besides those that were set before. -/
theorem testBit_foldl_addKey (k : ℕ) (keys : List Key) {bits : List Byte}
    (hpos : 0 < bits.length) (j : ℕ) :
    testBit (keys.foldl (addKey k) bits) j = true
      ↔ testBit bits j = true
        ∨ ∃ key ∈ keys, ∃ i < k, j = probeIndex (8 * bits.length) key i := by
  induction keys generalizing bits with
  | nil => simp
  | cons key keys ih =>
    have hpos' : 0 < (addKey k bits key).length := by
      rw [length_addKey]
      exact hpos
    rw [List.foldl_cons, ih hpos', length_addKey, testBit_addKey k hpos,
      List.exists_mem_cons_iff, or_assoc]

/-- A byte array of zeros has no bit set. -/
theorem testBit_replicate (n j : ℕ) : testBit (List.replicate n 0) j = false := by
  unfold testBit
  rw [List.getD_eq_getElem?_getD, List.getElem?_replicate]
  split_ifs <;> exact Nat.zero_testBit _

/-! ## What a filter admits -/

/-- There is at least one hash. -/
theorem hashCount_pos (env : Env) (n : ℕ) : 0 < hashCount env n := by
  unfold hashCount
  split_ifs with h
  · exact Nat.one_pos
  · exact Nat.pos_of_ne_zero h

theorem numHashes_build (env : Env) {keys : List Key} (hne : keys ≠ []) :
    (build env keys).numHashes = hashCount env keys.length := by
  rw [build, if_neg hne]

theorem length_build (env : Env) {keys : List Key} (hne : keys ≠ []) :
    (build env keys).bits.length = byteSize env keys.length := by
  rw [build, if_neg hne]
  exact (length_foldl_addKey _ _ _).trans List.length_replicate

/-- A key is **covered** by the keys of a filter: each of its probes falls on
the bit of a probe of one of them. -/
def Covered (env : Env) (keys : List Key) (probe : Key) : Prop :=
  let k := hashCount env keys.length
  let m := 8 * byteSize env keys.length
  ∀ i < k, ∃ key ∈ keys, ∃ j < k, probeIndex m probe i = probeIndex m key j

/-- **What a filter admits**: everything if it has no bytes, and else the keys
covered by its own. -/
theorem mayContain_build_iff (env : Env) (keys : List Key) (probe : Key) :
    (build env keys).mayContain probe = true
      ↔ keys = [] ∨ byteSize env keys.length = 0 ∨ Covered env keys probe := by
  by_cases hne : keys = []
  · simp [hne, build, mayContain]
  have hlen := length_build env hne
  have hk := hashCount_pos env keys.length
  rw [or_iff_right hne]
  rcases Nat.eq_zero_or_pos (byteSize env keys.length) with h0 | hpos
  · have hnil : (build env keys).bits = [] := List.length_eq_zero_iff.mp (hlen.trans h0)
    simp [mayContain, hnil, h0]
  · have hbits : (build env keys).bits ≠ [] := by
      rw [← List.length_pos_iff, hlen]
      exact hpos
    have htest : ∀ j, testBit (build env keys).bits j = true
        ↔ ∃ key ∈ keys, ∃ i < hashCount env keys.length,
          j = probeIndex (8 * byteSize env keys.length) key i := by
      intro j
      rw [build, if_neg hne]
      have hzero : 0 < (List.replicate (byteSize env keys.length) (0 : Byte)).length := by
        rw [List.length_replicate]
        exact hpos
      have hbit := testBit_foldl_addKey (hashCount env keys.length) keys hzero j
      rw [testBit_replicate, List.length_replicate] at hbit
      exact hbit.trans (or_iff_right Bool.false_ne_true)
    rw [or_iff_right hpos.ne', mayContain, numHashes_build env hne, hlen, Bool.or_eq_true,
      Bool.or_eq_true, beq_iff_eq, beq_iff_eq, or_iff_right (not_or.mpr ⟨hbits, hk.ne'⟩),
      List.all_eq_true]
    simp only [List.mem_range, htest]
    rfl

/-- **A filter never rules out a key it was built from.** -/
theorem mayContain_build (env : Env) {keys : List Key} {key : Key} (h : key ∈ keys) :
    (build env keys).mayContain key = true :=
  (mayContain_build_iff env keys key).mpr
    (.inr (.inr (fun i hi => ⟨key, h, i, hi, rfl⟩)))

end BloomFilter
