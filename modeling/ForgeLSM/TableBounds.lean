import ForgeLSM.BloomLoad

/-!
# Reading tables that no writer wrote

A file may be damaged, or made up. What a lookup reads of a block is compared with
the end of the block first, and what `load` reads of a file is trusted because of
its checksum. Neither is enough.

The binary search over the restarts adds up an offset and two lengths in 32 bits
before it compares them, so that a sum past 2^32 passes. The linear scan makes
the same comparisons with pointers, and is safe. `getInBlock_bounded` says when
the lookup of a key is: what the search for it reads lies in the block, at each of
the slots it looks at (`probes`). That no sum at a restart reaches 2^32 is enough
for every key (`HasRestarts.readsInside`).

The checksum of a file is over its payload, and the footer, which says how the
payload is to be cut, is behind it. So `load` never refuses a file for what the
footer says of the index and the filter (`loadMapped_eq_none`). What it accepts
is within bounds exactly if the footer cuts the file as it should
(`loadMapped_bounded`), as the footers of `SSTableWriter.write` do
(`loadMapped_write`).
-/

namespace SSTableReader

/-! ## What a search reads -/

/-- A restart of a block. -/
def restartAt (block : List Byte) (i : ℕ) : ℕ := leAt 4 block (restartsOffset block + i * 4)

/-- The end of the entry at an offset of a block. -/
def entryEnd (block : List Byte) (r : ℕ) : ℕ :=
  r + 12 + leAt 4 block (r + 4) + leAt 4 block (r + 8)

/-- The header of an entry passes for one in front of the restarts, in 32 bits. -/
def HeaderPasses (block : List Byte) (r : ℕ) : Prop := u32 (r + 12) ≤ restartsOffset block

/-- The entry does, with its header. -/
def EntryPasses (block : List Byte) (r : ℕ) : Prop :=
  HeaderPasses block r ∧ u32 (entryEnd block r) ≤ restartsOffset block

instance (block : List Byte) (r : ℕ) : Decidable (EntryPasses block r) :=
  inferInstanceAs (Decidable ((_ ≤ _) ∧ (_ ≤ _)))

/-- What the search finds of an entry: how the bytes of its key that are there compare
with the key. -/
def compareAt (block : List Byte) (key : Key) (r : ℕ) : Ordering :=
  compareView (slice block (r + 12) (min (leAt 4 block (r + 4)) key.length))
    (leAt 4 block (r + 4)) key

/-- **The slots that the search for a key looks at**: the one in the middle, and then
those of the half that the comparison there leads to. An entry that is refused, or has
the key, ends it. -/
def probes (block : List Byte) (key : Key) (left hi : ℕ) : List ℕ :=
  if left < hi then
    let mid := left + (hi - 1 - left) / 2
    let r := restartAt block mid
    mid :: if EntryPasses block r then
        match compareAt block key r with
        | .lt => probes block key (mid + 1) hi
        | .gt => probes block key left mid
        | .eq => []
      else []
  else []
termination_by hi - left
decreasing_by all_goals omega

/-- **What the search reads of an entry is in the block**: the header if it passes and,
if the entry passes, as many bytes of its key as are compared with the key, and the
pointer if the key is the one. -/
structure ReadsInside (block : List Byte) (key : Key) (r : ℕ) : Prop where
  header : HeaderPasses block r → r + 12 ≤ block.length
  seen : EntryPasses block r → r + 12 + min (leAt 4 block (r + 4)) key.length ≤ block.length
  pointer : EntryPasses block r → compareAt block key r = .eq → leAt 4 block (r + 8) = 16 →
    r + 12 + leAt 4 block (r + 4) + 16 ≤ block.length

/-- **The sums at an offset stay below 2^32**: the end of the header of the entry
there and, when the header is in front of the restarts, the end of the entry. -/
def SumsFit (block : List Byte) (r : ℕ) : Prop :=
  r + 12 < 2 ^ 32 ∧ (r + 12 ≤ restartsOffset block → entryEnd block r < 2 ^ 32)

instance (block : List Byte) (r : ℕ) : Decidable (SumsFit block r) :=
  inferInstanceAs (Decidable (_ ∧ _))

/-- **Sums that fit are enough, for every key**: what passes is in front of the
restarts. -/
theorem HasRestarts.readsInside {block : List Byte} (h : HasRestarts block) {r : ℕ}
    (hfit : SumsFit block r) (key : Key) : ReadsInside block key r := by
  have hadd := h.restartsOffset_add
  have hheader : HeaderPasses block r → r + 12 ≤ restartsOffset block := by
    intro hpass
    rwa [HeaderPasses, u32_of_lt hfit.1] at hpass
  have hentry : EntryPasses block r → entryEnd block r ≤ restartsOffset block := by
    intro hpass
    have hend := hpass.2
    rwa [u32_of_lt (hfit.2 (hheader hpass.1))] at hend
  unfold entryEnd at hentry
  refine ⟨fun hpass => ?_, fun hpass => ?_, fun hpass _ h16 => ?_⟩
  · have := hheader hpass
    omega
  · have := hentry hpass
    omega
  · have := hentry hpass
    omega

/-- The search looks at slots of its window. -/
theorem lt_of_mem_probes {block : List Byte} {key : Key} {left hi i : ℕ}
    (hmem : i ∈ probes block key left hi) : i < hi := by
  induction hn : hi - left using Nat.strong_induction_on generalizing left hi with
  | _ n ih =>
    rw [probes] at hmem
    by_cases hlt : left < hi
    case neg =>
      rw [if_neg hlt] at hmem
      cases hmem
    rw [if_pos hlt] at hmem
    rcases List.mem_cons.mp hmem with rfl | hmem
    · omega
    split_ifs at hmem
    · split at hmem
      · exact ih _ (by omega) hmem rfl
      · have := ih _ (by omega) hmem rfl
        omega
      · cases hmem
    · cases hmem

/-! ## The search -/

namespace HasRestarts

variable {block : List Byte} (h : HasRestarts block)
include h

/-- A slot of the restarts is in the block, and passes for it. -/
theorem slot {i : ℕ} (hi : i < numRestarts block) :
    inBounds block (restartsOffset block + i * 4) 4
      ∧ ¬ u32 (restartsOffset block + i * 4 + 4) > block.length := by
  have hadd := h.restartsOffset_add
  have hlt := h.length_lt
  refine ⟨by unfold inBounds; omega, ?_⟩
  rw [u32_of_lt (by omega)]
  omega

/-- **The search stays inside the block exactly if what it reads does** at each slot it
looks at. -/
theorem searchRestarts_bounded_iff (key : Key) (out : VLogPointer) (left : ℕ) {hi target : ℕ}
    (hhi : hi ≤ numRestarts block) :
    searchRestarts block (restartsOffset block) key out left hi target ≠ .error .outOfBounds
      ↔ ∀ i ∈ probes block key left hi, ReadsInside block key (restartAt block i) := by
  -- a half is shorter
  induction hn : hi - left using Nat.strong_induction_on generalizing left hi target with
  | _ n ih =>
    rw [searchRestarts, probes]
    by_cases hlt : left < hi
    case neg =>
      rw [if_neg hlt, if_neg hlt]
      simp
    rw [if_pos hlt, if_pos hlt]
    dsimp only
    obtain ⟨mid, hmid⟩ : ∃ mid, mid = left + (hi - 1 - left) / 2 := ⟨_, rfl⟩
    have hslot := h.slot (i := mid) (by omega)
    rw [← hmid, if_neg hslot.2, if_neg (not_not.mpr hslot.1), ← restartAt, List.forall_mem_cons]
    generalize restartAt block mid = r
    rw [← entryEnd, ← compareAt]
    by_cases hheader : HeaderPasses block r
    case neg =>
      have hentry : ¬ EntryPasses block r := fun hpass => hheader hpass.1
      rw [if_pos (not_le.mp hheader), if_neg hentry]
      exact iff_of_true (by simp) ⟨⟨fun hp => absurd hp hheader, fun hp => absurd hp hentry,
        fun hp => absurd hp hentry⟩, by simp⟩
    rw [if_neg (not_lt.mpr hheader)]
    by_cases hin : inBounds block r 12
    case neg =>
      rw [if_pos hin]
      exact iff_of_false (by simp) (fun hall => hin (hall.1.header hheader))
    rw [if_neg (not_not.mpr hin)]
    by_cases hend : u32 (entryEnd block r) ≤ restartsOffset block
    case neg =>
      have hentry : ¬ EntryPasses block r := fun hpass => hend hpass.2
      rw [if_pos (not_le.mp hend), if_neg hentry]
      exact iff_of_true (by simp) ⟨⟨fun _ => hin, fun hp => absurd hp hentry,
        fun hp => absurd hp hentry⟩, by simp⟩
    have hentry : EntryPasses block r := ⟨hheader, hend⟩
    rw [if_neg (not_lt.mpr hend), if_pos hentry]
    by_cases hseen : inBounds block (r + 12) (min (leAt 4 block (r + 4)) key.length)
    case neg =>
      rw [if_pos hseen]
      exact iff_of_false (by simp) (fun hall => hseen (hall.1.seen hentry))
    rw [if_neg (not_not.mpr hseen)]
    -- an entry with another key leaves the search to a half
    have hother : compareAt block key r ≠ .eq → ReadsInside block key r := fun hne =>
      ⟨fun _ => hin, fun _ => hseen, fun _ heq => absurd heq hne⟩
    cases hcmp : compareAt block key r with
    | lt =>
      rw [ih _ (by omega) (mid + 1) hhi rfl]
      exact (and_iff_right (hother (by rw [hcmp]; decide))).symm
    | gt =>
      rw [ih _ (by omega) left (by omega) rfl]
      exact (and_iff_right (hother (by rw [hcmp]; decide))).symm
    | eq =>
      by_cases h16 : leAt 4 block (r + 8) = 16
      · by_cases hptr : inBounds block (r + 12 + leAt 4 block (r + 4)) 16
        · rw [if_pos h16, if_pos hptr]
          exact iff_of_true (by simp) ⟨⟨fun _ => hin, fun _ => hseen, fun _ _ _ => hptr⟩, by simp⟩
        · rw [if_pos h16, if_neg hptr]
          exact iff_of_false (by simp) (fun hall => hptr (hall.1.pointer hentry hcmp h16))
      · rw [if_neg h16]
        exact iff_of_true (by simp) ⟨⟨fun _ => hin, fun _ => hseen,
          fun _ _ heq => absurd heq h16⟩, by simp⟩

end HasRestarts

/-- The restart that the search ends with is one of the block's. -/
theorem searchRestarts_lt {block : List Byte} {offset : ℕ} {key : Key} {out : VLogPointer}
    {left hi target t n : ℕ} (hhi : hi ≤ n) (htarget : target < n)
    (h : searchRestarts block offset key out left hi target = .ok (.inr t)) : t < n := by
  fun_induction searchRestarts block offset key out left hi target
  case case7 hlt mid _ _ rOff _ _ unshared valLen _ _ hcmp ih => exact ih hhi (by omega) h
  case case8 hlt mid _ _ rOff _ _ unshared valLen _ _ hcmp ih => exact ih (by omega) htarget h
  case case12 =>
    cases h
    exact htarget
  all_goals cases h

/-- **The linear scan stays in front of the restarts**, whatever it reads. -/
theorem scanBlock_bounded {block : List Byte} {restartsOffset : ℕ}
    (hle : restartsOffset ≤ block.length) (key : Key) (p : ℕ) (currentKey : Key) :
    scanBlock block restartsOffset key p currentKey ≠ .error .outOfBounds := by
  induction hn : restartsOffset - p using Nat.strong_induction_on generalizing p currentKey with
  | _ n ih =>
    rw [scanBlock]
    by_cases hp : p < restartsOffset
    · rw [if_pos hp]
      by_cases hheader : p + 12 > restartsOffset
      · rw [if_pos hheader]
        simp
      rw [if_neg hheader, if_neg (not_not.mpr (by unfold inBounds; omega))]
      dsimp only
      by_cases hpayload : p + 12 + leAt 4 block (p + 4) + leAt 4 block (p + 8) > restartsOffset
      · rw [if_pos hpayload]
        simp
      rw [if_neg hpayload, if_neg (not_not.mpr (by unfold inBounds; omega))]
      generalize resize currentKey (leAt 4 block p) ++ slice block (p + 12) (leAt 4 block (p + 4))
        = nextKey
      by_cases heq : nextKey = key
      · rw [if_pos heq]
        simp
      rw [if_neg heq]
      by_cases hgt : nextKey > key
      · rw [if_pos hgt]
        simp
      rw [if_neg hgt]
      have hless : restartsOffset - (p + 12 + leAt 4 block (p + 4) + leAt 4 block (p + 8)) < n := by
        omega
      exact ih _ hless _ _ rfl
    · rw [if_neg hp]
      simp

/-- **A lookup leaves the block only in the search of the restarts**, and only if there
are restarts to search. -/
theorem getInBlock_outOfBounds_iff {block : List Byte} (hlen : block.length < 2 ^ 32) (key : Key)
    (out : VLogPointer) :
    getInBlock block key out = .error .outOfBounds
      ↔ HasRestarts block ∧ searchRestarts block (restartsOffset block) key out 0
          (numRestarts block) 0 = .error .outOfBounds := by
  unfold getInBlock
  by_cases hshort : block.length < 4
  · rw [if_pos hshort]
    refine iff_of_false (by simp) (fun h => ?_)
    have hle := h.1.le
    omega
  rw [if_neg hshort]
  by_cases hcount : numRestarts block = 0 ∨ numRestarts block > (block.length - 4) / 4
  · rw [if_pos hcount]
    refine iff_of_false (by simp) (fun h => ?_)
    have hpos := h.1.pos
    have hle := h.1.le
    omega
  have h : HasRestarts block := ⟨hlen, by omega, by omega⟩
  have hadd := h.restartsOffset_add
  rw [if_neg hcount, and_iff_right h]
  cases hsearch : searchRestarts block (restartsOffset block) key out 0 (numRestarts block) 0 with
  | error e => simp
  | ok found =>
    refine iff_of_false ?_ (by simp)
    cases found with
    | inl ptr => simp
    | inr t =>
      have hslot := h.slot (searchRestarts_lt le_rfl h.pos hsearch)
      dsimp only
      rw [if_neg hslot.2, if_neg (not_not.mpr hslot.1)]
      split_ifs
      · simp
      · exact scanBlock_bounded (by omega) key _ _

open SSTableWriter DataBlock

/-- What `load` keeps of a mapped file. -/
structure MappedTable where
  index : List IndexEntry
  minKey : Key := []
  maxKey : Key := []
  /-- What `load_raw` is given: where the bits are, how many bytes, and `k`. -/
  bloom : Option (ℕ × ℕ × ℕ) := none
  deriving DecidableEq

/-- The range of the keys: the least of the first block, the greatest of the
last. -/
def readRange (file : List Byte) : List IndexEntry → Except TableError (Key × Key)
  | [] => .ok ([], [])
  | e :: index =>
    match readMinKey file e with
    | .error err => .error err
    | .ok minKey => .ok (minKey, ((e :: index).getLast (List.cons_ne_nil e index)).maxKey)

/-- **`SSTableReader::load`** of a file that is mapped, as on Windows. Nothing it
reads is compared with the size of the file. -/
def loadMapped (file : List Byte) : Except TableError (Option MappedTable) :=
  if file.length < 16 then .ok none
  else
    let payloadSize := file.length - 16
    let indexOffset := leAt 4 file payloadSize
    let bloomOffset := leAt 4 file (payloadSize + 4)
    let bloomSizeTotal := leAt 4 file (payloadSize + 8)
    let storedChecksum := leAt 4 file (payloadSize + 12)
    if (computeCrc32 (file.take payloadSize)).toNat ≠ storedChecksum then .ok none
    else
      match parseIndex file bloomOffset indexOffset with
      | .error e => .error e
      | .ok index =>
        match readRange file index with
        | .error e => .error e
        | .ok (minKey, maxKey) =>
          if bloomSizeTotal ≥ 4 ∧ u32 (bloomOffset + 4) ≤ payloadSize then
            if ¬ inBounds file bloomOffset 4 then .error .outOfBounds
            else .ok (some ⟨index, minKey, maxKey,
              some (bloomOffset + 4, bloomSizeTotal - 4, leAt 4 file bloomOffset)⟩)
          else .ok (some ⟨index, minKey, maxKey, none⟩)

/-- **A table within bounds**: its blocks are in front of the index, and the bits
of its filter in the payload. -/
def WellBounded (file : List Byte) (t : MappedTable) : Prop :=
  let payloadSize := file.length - 16
  let indexOffset := leAt 4 file payloadSize
  indexOffset ≤ payloadSize ∧ (∀ e ∈ t.index, e.offset + e.length ≤ indexOffset)
    ∧ ∀ b ∈ t.bloom, b.1 + b.2.1 ≤ payloadSize

instance (file : List Byte) (t : MappedTable) : Decidable (WellBounded file t) :=
  inferInstanceAs (Decidable (_ ∧ _ ∧ _))

/-- **What is refused**: a file without a footer, and one whose checksum is
wrong. -/
theorem loadMapped_eq_none {file : List Byte} :
    loadMapped file = .ok none ↔ file.length < 16
      ∨ (computeCrc32 (file.take (file.length - 16))).toNat
        ≠ leAt 4 file (file.length - 16 + 12) := by
  unfold loadMapped
  by_cases hshort : file.length < 16
  · simp [hshort]
  rw [if_neg hshort]
  dsimp only
  by_cases hsum : (computeCrc32 (file.take (file.length - 16))).toNat
      = leAt 4 file (file.length - 16 + 12)
  · rw [if_neg (not_not.mpr hsum)]
    refine iff_of_false ?_ (not_or.mpr ⟨hshort, not_not.mpr hsum⟩)
    split
    · simp
    · split
      · simp
      · split_ifs <;> simp
  · rw [if_pos hsum]
    exact iff_of_true rfl (Or.inr hsum)

/-- **A written file is within bounds.** -/
theorem loadMapped_file (img : FileImage) :
    ∃ t, loadMapped img.file = .ok (some t) ∧ WellBounded img.file t := by
  obtain ⟨hindexOff, hbloomOff, hsum⟩ := footer_fields img
  have hlen := img.length_file
  have hsize := img.payload_lt
  have hparts := FileImage.length_payload img.blocks img.bloom
  have hpayload : img.file.take (payload img.blocks img.bloom).length
      = payload img.blocks img.bloom := List.take_left
  have htotal : leAt 4 img.file ((payload img.blocks img.bloom).length + 8)
      = 4 + img.bloom.bits.length :=
    (footer_reads img.blocks img.bloom).2.2.1.trans (u32_of_lt (by omega))
  have hblocks : ∀ e ∈ (indexFrom 0 img.blocks).map IndexEntry.cut,
      e.offset + e.length ≤ (img.blocks.flatMap bytes).length := by
    intro e he
    obtain ⟨e', he', rfl⟩ := List.mem_map.mp he
    obtain ⟨pre, b, post, heq, rfl⟩ := exists_of_mem_indexFrom he'
    rw [heq, List.flatMap_append, List.flatMap_cons, List.length_append, List.length_append]
    dsimp only [IndexEntry.cut]
    omega
  obtain ⟨e, rest, minKey, hindex, hmin, -⟩ := readMinKey_file img
  have hrange : readRange img.file ((indexFrom 0 img.blocks).map IndexEntry.cut)
      = .ok (minKey, ((e :: rest).getLast (by simp)).maxKey) := by
    rw [hindex, readRange, hmin]
  unfold loadMapped
  dsimp only
  rw [if_neg (by omega), hlen, Nat.add_sub_cancel, hindexOff, hbloomOff, htotal, hsum, hpayload,
    if_neg (not_not.mpr rfl), parseIndex_file]
  dsimp only
  rw [hrange]
  dsimp only
  rw [u32_of_lt (by omega), if_pos (by omega), if_neg (not_not.mpr (by unfold inBounds; omega))]
  refine ⟨_, rfl, ?_⟩
  unfold WellBounded
  dsimp only
  rw [hlen, Nat.add_sub_cancel, hindexOff]
  refine ⟨by omega, hblocks, fun b hb => ?_⟩
  cases hb
  dsimp only
  omega

/-- The files of `SSTableWriter::write` of less than 2^32 bytes are loaded without a read
outside of them, and are within bounds, whatever their entries. -/
theorem loadMapped_write (env : Env) {entries : List (Key × VLogPointer)} (hne : entries ≠ [])
    (hsize : (SSTableWriter.write env entries).length < 2 ^ 32) :
    ∃ t, loadMapped (SSTableWriter.write env entries) = .ok (some t)
      ∧ WellBounded (SSTableWriter.write env entries) t := by
  obtain ⟨img, hfile, -⟩ := exists_fileImage env hne hsize
  rw [← hfile]
  exact loadMapped_file img

/-- The least key that an index names can be read. -/
def HasMinKey (file : List Byte) (index : List IndexEntry) : Prop :=
  ∀ e ∈ index.head?, inBounds file (e.offset + 4) 4
    ∧ inBounds file (e.offset + 12) (leAt 4 file (e.offset + 4))

/-- **The footer cuts the file into blocks, an index and a filter.** From `index_offset` on
there are the entries of an index up to `bloom_offset`. The blocks that they name are in front of
them, and the first has a key. The filter, if the footer has room for one, ends in the payload. -/
def Cut (file : List Byte) (index : List IndexEntry) : Prop :=
  let payloadSize := file.length - 16
  let indexOffset := leAt 4 file payloadSize
  let bloomOffset := leAt 4 file (payloadSize + 4)
  let bloomSizeTotal := leAt 4 file (payloadSize + 8)
  indexOffset ≤ payloadSize ∧ IndexAt file bloomOffset indexOffset index
    ∧ (∀ e ∈ index, e.offset + e.length ≤ indexOffset) ∧ HasMinKey file index
    ∧ (bloomSizeTotal ≥ 4 ∧ u32 (bloomOffset + 4) ≤ payloadSize →
      bloomOffset + bloomSizeTotal ≤ payloadSize)

/-- The range of the keys is read when the least key can be. -/
theorem readRange_cases (file : List Byte) (index : List IndexEntry) :
    (HasMinKey file index ∧ ∃ range, readRange file index = .ok range)
      ∨ (¬ HasMinKey file index ∧ readRange file index = .error .outOfBounds) := by
  cases index with
  | nil => exact Or.inl ⟨nofun, _, rfl⟩
  | cons e index =>
    have hhead : HasMinKey file (e :: index) ↔ inBounds file (e.offset + 4) 4
        ∧ inBounds file (e.offset + 12) (leAt 4 file (e.offset + 4)) := by
      simp [HasMinKey]
    rw [hhead, readRange, readMinKey]
    by_cases h4 : inBounds file (e.offset + 4) 4
    · rw [if_neg (not_not.mpr h4)]
      dsimp only
      by_cases hks : inBounds file (e.offset + 12) (leAt 4 file (e.offset + 4))
      · rw [if_neg (not_not.mpr hks)]
        exact Or.inl ⟨⟨h4, hks⟩, _, rfl⟩
      · rw [if_pos hks]
        exact Or.inr ⟨fun h => hks h.2, rfl⟩
    · rw [if_pos h4]
      exact Or.inr ⟨fun h => h4 h.1, rfl⟩

/-- **The last step of `load`**, to the filter, when the index and the range are read: the table is
within bounds exactly if its blocks are and the filter is. -/
theorem filter_bounded_iff {file : List Byte} {index : List IndexEntry} (minKey maxKey : Key)
    {payloadSize indexOffset bloomOffset bloomSizeTotal : ℕ}
    (hpayload : file.length - 16 = payloadSize)
    (hindexOffset : leAt 4 file payloadSize = indexOffset)
    {r : Except TableError (Option MappedTable)}
    (hr : r = if bloomSizeTotal ≥ 4 ∧ u32 (bloomOffset + 4) ≤ payloadSize then
        if ¬ inBounds file bloomOffset 4 then .error .outOfBounds
        else .ok (some ⟨index, minKey, maxKey,
          some (bloomOffset + 4, bloomSizeTotal - 4, leAt 4 file bloomOffset)⟩)
      else .ok (some ⟨index, minKey, maxKey, none⟩)) :
    (r ≠ .error .outOfBounds ∧ ∀ t, r = .ok (some t) → WellBounded file t)
      ↔ indexOffset ≤ payloadSize ∧ (∀ e ∈ index, e.offset + e.length ≤ indexOffset)
        ∧ (bloomSizeTotal ≥ 4 ∧ u32 (bloomOffset + 4) ≤ payloadSize →
          bloomOffset + bloomSizeTotal ≤ payloadSize) := by
  unfold WellBounded
  dsimp only
  rw [hpayload, hindexOffset]
  by_cases hroom : bloomSizeTotal ≥ 4 ∧ u32 (bloomOffset + 4) ≤ payloadSize
  · rw [if_pos hroom] at hr
    constructor
    · rintro ⟨hread, hwell⟩
      by_cases hin : inBounds file bloomOffset 4
      · rw [if_neg (not_not.mpr hin)] at hr
        obtain ⟨hle, hblocks, hbits⟩ := hwell _ hr
        have hend := hbits _ rfl
        dsimp only at hend
        exact ⟨hle, hblocks, fun _ => by omega⟩
      · rw [if_pos hin] at hr
        exact absurd hr hread
    · rintro ⟨hle, hblocks, hbloom⟩
      have hend := hbloom hroom
      have hin : inBounds file bloomOffset 4 := by
        unfold inBounds
        omega
      rw [if_neg (not_not.mpr hin)] at hr
      subst hr
      refine ⟨nofun, fun t ht => ?_⟩
      cases ht
      refine ⟨hle, hblocks, fun b hb => ?_⟩
      cases hb
      dsimp only
      omega
  · rw [if_neg hroom] at hr
    subst hr
    constructor
    · rintro ⟨-, hwell⟩
      obtain ⟨hle, hblocks, -⟩ := hwell _ rfl
      exact ⟨hle, hblocks, fun h => absurd h hroom⟩
    · rintro ⟨hle, hblocks, -⟩
      refine ⟨nofun, fun t ht => ?_⟩
      cases ht
      exact ⟨hle, hblocks, nofun⟩

/-- **When what `load` accepts is within bounds.** On any bytes, `load` reads only what is there
and the table that it returns, if it returns one, is within bounds, exactly if the file is
refused – it has no footer, or the checksum of its payload is not the one stored – or the footer
cuts it as it should. The code checks the former only. -/
theorem loadMapped_bounded (file : List Byte) :
    (loadMapped file ≠ .error .outOfBounds
        ∧ ∀ t, loadMapped file = .ok (some t) → WellBounded file t)
      ↔ (file.length < 16 ∨ (computeCrc32 (file.take (file.length - 16))).toNat
          ≠ leAt 4 file (file.length - 16 + 12))
        ∨ ∃ index, Cut file index := by
  by_cases hrefused : file.length < 16 ∨ (computeCrc32 (file.take (file.length - 16))).toNat
      ≠ leAt 4 file (file.length - 16 + 12)
  · rw [loadMapped_eq_none.mpr hrefused]
    exact iff_of_true ⟨nofun, nofun⟩ (Or.inl hrefused)
  rw [or_iff_right hrefused]
  obtain ⟨hlen, hsum⟩ := not_or.mp hrefused
  unfold loadMapped Cut
  rw [if_neg hlen]
  dsimp only
  rw [if_neg hsum]
  generalize hpayload : file.length - 16 = payloadSize
  generalize hindexOffset : leAt 4 file payloadSize = indexOffset
  generalize leAt 4 file (payloadSize + 4) = bloomOffset
  generalize leAt 4 file (payloadSize + 8) = bloomSizeTotal
  cases hparse : parseIndex file bloomOffset indexOffset with
  | error err =>
    obtain rfl := parseIndex_eq_error hparse
    refine iff_of_false (fun h => h.1 rfl) ?_
    rintro ⟨index, -, hindex, -⟩
    rw [parseIndex_eq_ok.mpr hindex] at hparse
    cases hparse
  | ok index =>
    have hunique : ∀ index', IndexAt file bloomOffset indexOffset index' ↔ index' = index := by
      intro index'
      rw [← parseIndex_eq_ok, hparse]
      exact ⟨fun h => (Except.ok.inj h).symm, fun h => congrArg Except.ok h.symm⟩
    dsimp only
    rcases readRange_cases file index with ⟨hmin, ⟨minKey, maxKey⟩, hrange⟩ | ⟨hmin, hrange⟩
    · rw [hrange]
      dsimp only
      rw [filter_bounded_iff minKey maxKey hpayload hindexOffset rfl]
      constructor
      · rintro ⟨hle, hblocks, hbloom⟩
        exact ⟨index, hle, (hunique index).mpr rfl, hblocks, hmin, hbloom⟩
      · rintro ⟨index', hle, hindex', hblocks, -, hbloom⟩
        obtain rfl := (hunique index').mp hindex'
        exact ⟨hle, hblocks, hbloom⟩
    · rw [hrange]
      refine iff_of_false (fun h => h.1 rfl) ?_
      rintro ⟨index', -, hindex', -, hmin', -⟩
      obtain rfl := (hunique index').mp hindex'
      exact hmin hmin'

/-- A file of twelve bytes – an entry of the index for a block of 1000 bytes – and a
footer with the right checksum. -/
def strayFile (indexOffset bloomOffset bloomSize : ℕ) : List Byte :=
  let payload : List Byte := [0, 0, 0, 0, 0, 0, 0, 0, 0xE8, 3, 0, 0]
  payload ++ (leBytes 4 indexOffset ++ (leBytes 4 bloomOffset
    ++ (leBytes 4 bloomSize ++ leBytes 4 (computeCrc32 payload).toNat)))

/-- By the first footer the block of an entry is not in the file, by the second the
bits of the filter are not, and by the third bytes behind the file are read. -/
theorem loadMapped_stray :
    (loadMapped (strayFile 0 12 0) = .ok (some { index := [⟨[], 0, 1000⟩] })
        ∧ ¬ WellBounded (strayFile 0 12 0) { index := [⟨[], 0, 1000⟩] })
      ∧ (loadMapped (strayFile 0 0 1004) = .ok (some { index := [], bloom := some (4, 1000, 0) })
        ∧ ¬ WellBounded (strayFile 0 0 1004) { index := [], bloom := some (4, 1000, 0) })
      ∧ loadMapped (strayFile 0 (2 ^ 32 - 1) 0) = .error .outOfBounds := by
  decide +kernel

end SSTableReader
