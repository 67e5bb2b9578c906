import ForgeLSM.Util.OrdMap
import ForgeLSM.Util.Bytes
import ForgeLSM.Util.StdSort

/-!
# Keys, pointers and the environment of the engine

Keys and values are byte strings; keys compare as `std::string` does,
byte by byte as unsigned numbers, a prefix before its extensions – the
order of lists of bytes.

The engine separates keys from values. What a memtable, a table or a WAL
record holds for a key is a `VLogPointer`: the value-log file, the offset of
the value in it and its length. A delete is a pointer too, the tombstone
(`VLogPointer.isTombstone`).

`Env` gathers what the engine's behaviour depends on besides its input: the
options it was opened with, the static limit on the size of a value log,
and the parts of the platform whose result the language leaves open – the
order `std::sort` gives equivalent elements, the `double` comparisons of
compaction scores, and the floating-point sizing of bloom filters.
-/

/-- A key: a byte string. -/
abbrev Key := List Byte

/-- A value: a byte string. -/
abbrev Value := List Byte

/-- Where a value lies: the value-log file, the offset of the value's first
byte, and its length. -/
structure VLogPointer where
  fileId : ℕ
  offset : ℕ
  length : ℕ
  deriving DecidableEq, Repr

/-- `std::numeric_limits<uint64_t>::max()`. -/
def uint64Max : ℕ := 2 ^ 64 - 1

/-- **The tombstone test**: no bytes, at an offset no file reaches. -/
def VLogPointer.isTombstone (ptr : VLogPointer) : Bool :=
  ptr.length == 0 && ptr.offset == uint64Max

/-- The pointer a delete stores; its file id is a WAL id. -/
def VLogPointer.tombstone (walId : ℕ) : VLogPointer := ⟨walId, uint64Max, 0⟩

@[simp] theorem VLogPointer.isTombstone_tombstone (walId : ℕ) :
    (VLogPointer.tombstone walId).isTombstone = true := by
  simp [isTombstone, tombstone]

/-- What the ordered structures of the engine hold for a key. The tree of
sorted tables moves these around and never looks inside, except to ask
whether one is a tombstone. -/
class Payload (V : Type) where
  /-- Whether the payload marks a deletion. -/
  isTombstone : V → Bool

instance : Payload VLogPointer := ⟨VLogPointer.isTombstone⟩

/-- **What a lookup that found a payload reports**: a tombstone counts as
absent. -/
def live {V : Type} [Payload V] : Option V → Option V
  | none => none
  | some v => if Payload.isTombstone v then none else some v

@[simp] theorem live_none {V : Type} [Payload V] : live (none : Option V) = none := rfl

/-- The options of the engine that its algorithms read. -/
structure Options where
  flushThreshold : ℕ := 0
  l0CompactionTrigger : ℕ := 0
  levelSizeMultiplier : ℕ := 10
  deriving DecidableEq, Repr

namespace Options

/-- `KVStore::flush_threshold_bytes`. -/
def flushThresholdBytes (o : Options) : ℕ :=
  if o.flushThreshold > 0 then o.flushThreshold else 1024 * 1024

/-- The number of L0 files at which L0 is due for compaction. -/
def l0Trigger (o : Options) : ℕ :=
  if o.l0CompactionTrigger > 0 then o.l0CompactionTrigger else 4

end Options

/-- The comparisons a compaction makes between scores, each score the
`double` quotient of a size by a limit. What the code relies on is only that
an empty level never scores `1.0`. -/
structure Scoring where
  /-- `(double)size / limit >= 1.0` -/
  geOne : ℕ → ℕ → Bool
  /-- The first score is greater than the second. -/
  gt : ℕ × ℕ → ℕ × ℕ → Bool
  /-- An empty level is not due, whatever its limit. -/
  geOne_zero : ∀ limit, geOne 0 limit = false

/-- Scores compared as exact ratios. -/
def Scoring.exact : Scoring where
  geOne size limit := decide (0 < size ∧ limit ≤ size)
  gt a b := decide (b.1 * a.2 < a.1 * b.2)
  geOne_zero limit := by simp

/-- **What the engine runs in.** -/
structure Env where
  /-- The options the store was opened with. -/
  opts : Options
  /-- `VLog::MAX_FILE_SIZE`, a mutable static. -/
  maxFileSize : ℕ
  /-- It leaves room below the offset that marks a tombstone. -/
  maxFileSize_lt : maxFileSize < 2 ^ 63
  /-- `disable_bloom_`. -/
  disableBloom : Bool
  /-- The bit count and hash count the sizing formula of a bloom filter
  yields for a number of keys. -/
  bloomSize : ℕ → ℕ × ℕ
  /-- The standard library's sort. -/
  stdSort : StdSort
  /-- The comparisons of compaction scores. -/
  scoring : Scoring

/-- A small engine: every L0 file is due for compaction, tables hold one key,
a value log is full after one record, and the rest is as simple as it can
be. -/
def Env.small : Env where
  opts := { flushThreshold := 1, l0CompactionTrigger := 1 }
  maxFileSize := 8
  maxFileSize_lt := by decide
  disableBloom := true
  bloomSize := fun _ => (0, 0)
  stdSort := StdSort.insertion
  scoring := Scoring.exact
