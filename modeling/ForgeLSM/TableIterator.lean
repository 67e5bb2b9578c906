import ForgeLSM.TableLookup

/-!
# Iterating over a table

`SSTableIterator` goes through the entries of a table, block by block. It is
given here as the code computes it on any index and any blocks. Every step to a
valid entry moves on, within the block or to the next one
(`SSTableIterator.next_lt`), so that the loops over it – `seek`, which skips the
entries below its target, and the caller's, which takes all that are left – end
whatever the bytes are, and can be written as functions.

On a file that `SSTableWriter.write` wrote, the iterator yields the entries it
was written with (`SSTableIterator.collect_load_write`), if their keys are below
2^32 bytes. Of a longer key it yields the front that the writer left
(`SSTableIterator.collect_load_write_longKey`).
-/

/-- `SSTableIterator`: the block it is in, the offset behind the entry it is at,
and the entry. -/
structure SSTableIterator where
  blockIdx : ℕ := 0
  currentBlock : Option (List Byte) := none
  offsetInBlock : ℕ := 0
  valid : Bool := false
  currentKey : Key := []
  currentValue : VLogPointer := ⟨0, 0, 0⟩
  deriving DecidableEq

namespace SSTableIterator

open SSTableReader (numRestarts restartsOffset)

/-! ## The source -/

section Source

variable {r : SSTableReader} (cache : BlockCache r)

/-- `load_block`: a block of the index, from the cache or else from the
file. -/
def loadBlock (idx : ℕ) : Except TableError (List Byte) :=
  match r.index[idx]? with
  | none => .error .outOfBounds
  | some e =>
    match cache.load e with
    | none => .error (.corrupt "SSTableIterator: I/O error reading block")
    | some block => .ok block

section

variable (it : SSTableIterator)

/-- The part of `parse_current_entry` that reads the entry, at an offset before
the restarts. -/
def parseEntry (block : List Byte) : Except TableError SSTableIterator :=
  let off := it.offsetInBlock
  if off + 12 > restartsOffset block then
    .error (.corrupt "SSTableIterator: Corrupted entry header bounds")
  else if ¬ inBounds block off 12 then .error .outOfBounds
  else
    let shared := leAt 4 block off
    let unshared := leAt 4 block (off + 4)
    let valLen := leAt 4 block (off + 8)
    if off + 12 + unshared + valLen > restartsOffset block then
      .error (.corrupt "SSTableIterator: Corrupted entry payload bounds")
    else if ¬ inBounds block (off + 12) (unshared + valLen) then .error .outOfBounds
    else .ok
      { it with
        currentKey := resize it.currentKey shared ++ slice block (off + 12) unshared
        currentValue :=
          if valLen = 16 then VLogPointer.readFrom block (off + 12 + unshared)
          else it.currentValue
        offsetInBlock := off + 12 + unshared + valLen
        valid := true }

/-- **`parse_current_entry`.** -/
def parseCurrentEntry : Except TableError SSTableIterator :=
  match it.currentBlock with
  | none => .ok { it with valid := false }
  | some block =>
    if it.offsetInBlock ≥ block.length then .ok { it with valid := false }
    else if block.length < 4 then .ok { it with valid := false }
    else
      if numRestarts block = 0 ∨ numRestarts block > (block.length - 4) / 4 then
        .error (.corrupt "SSTableIterator: Corrupted num_restarts")
      else if it.offsetInBlock ≥ restartsOffset block then .ok { it with valid := false }
      else it.parseEntry block

/-- A block is entered at its first entry. -/
def enterBlock (idx : ℕ) : Except TableError SSTableIterator :=
  match loadBlock cache idx with
  | .error e => .error e
  | .ok block => parseCurrentEntry
      { it with blockIdx := idx, currentBlock := some block, offsetInBlock := 0 }

/-- **`seek_to_first`.** -/
def seekToFirst : Except TableError SSTableIterator :=
  let it := { it with blockIdx := 0, offsetInBlock := 0, valid := false }
  if r.index.isEmpty then .ok it else it.enterBlock cache 0

/-- **`next`.** -/
def next : Except TableError SSTableIterator :=
  if !it.valid then .ok it
  else match it.currentBlock with
    | none => .error .outOfBounds
    | some block =>
      if block.length < 4 then .error .outOfBounds
      else if it.offsetInBlock ≥ restartsOffset block then
        let it := { it with blockIdx := it.blockIdx + 1, offsetInBlock := 0 }
        if it.blockIdx < r.index.length then it.enterBlock cache it.blockIdx
        else .ok { it with valid := false }
      else it.parseCurrentEntry

end

end Source

/-! ## Every step moves on -/

/-- An entry that is parsed ends further on in the block. -/
theorem parseCurrentEntry_moves {it it' : SSTableIterator} (h : it.parseCurrentEntry = .ok it')
    (hv : it'.valid = true) :
    ∃ block, it.currentBlock = some block ∧ it'.currentBlock = some block
      ∧ it'.blockIdx = it.blockIdx ∧ it.offsetInBlock < it'.offsetInBlock
      ∧ it.offsetInBlock < block.length := by
  unfold parseCurrentEntry at h
  split at h
  · cases h
    cases hv
  · rename_i block hblock
    split_ifs at h with h1 h2 h3 h4
    · cases h
      cases hv
    · cases h
      cases hv
    · cases h
      cases hv
    · unfold parseEntry at h
      dsimp only at h
      split_ifs at h
      all_goals
        cases h
        refine ⟨block, hblock, hblock, rfl, ?_, not_le.mp h1⟩
        show it.offsetInBlock < it.offsetInBlock + 12 + _ + _
        omega

/-- What is left: blocks, and bytes of the block. -/
def left (r : SSTableReader) (it : SSTableIterator) : ℕ × ℕ :=
  (r.index.length - it.blockIdx, (it.currentBlock.getD []).length - it.offsetInBlock)

/-- **A step from an entry to an entry leaves less.** -/
theorem next_lt {r : SSTableReader} {cache : BlockCache r} {it it' : SSTableIterator}
    (h : it.next cache = .ok it') (hvalid : it.valid = true) (hv : it'.valid = true) :
    Prod.Lex (· < ·) (· < ·) (left r it') (left r it) := by
  unfold next at h
  rw [hvalid] at h
  simp only [Bool.not_true, Bool.false_eq_true, if_false] at h
  split at h
  · cases h
  · rename_i block hblock
    split_ifs at h with h1 h2 h3
    -- the next block
    · unfold enterBlock at h
      split at h
      · cases h
      · obtain ⟨block', -, -, hidx, -, -⟩ := parseCurrentEntry_moves h hv
        refine Prod.Lex.left _ _ ?_
        show r.index.length - it'.blockIdx < r.index.length - it.blockIdx
        rw [hidx]
        dsimp only at h3 ⊢
        omega
    · cases h
      cases hv
    -- the same block
    · obtain ⟨block', hb, hb', hidx, hlt, hlen⟩ := parseCurrentEntry_moves h hv
      unfold left
      rw [hidx, hb', hb]
      refine Prod.Lex.right _ ?_
      show block'.length - it'.offsetInBlock < block'.length - it.offsetInBlock
      omega

/-! ## The loops -/

section Loops

variable {r : SSTableReader} (cache : BlockCache r)

/-- The binary search of `seek` over the index: the first block whose last key
is not below the target, and the last block if there is none. -/
def searchIndex (index : List IndexEntry) (target : Key) (left right blockIdx : ℕ) : ℕ :=
  if left ≤ right then
    let mid := left + (right - left) / 2
    if target ≤ (index.getD mid ⟨[], 0, 0⟩).maxKey then
      if mid = 0 then mid else searchIndex index target left (mid - 1) mid
    else searchIndex index target (mid + 1) right blockIdx
  else blockIdx
termination_by right + 1 - left
decreasing_by all_goals omega

/-- The loop of `seek` over the entries below the target. -/
def skipBelow (target : Key) (it : SSTableIterator) : Except TableError SSTableIterator :=
  if _hv : it.valid = true ∧ it.currentKey < target then
    match _h : it.next cache with
    | .error e => .error e
    | .ok it' => if _hv' : it'.valid = true then skipBelow target it' else .ok it'
  else .ok it
termination_by left r it
decreasing_by exact next_lt _h _hv.1 _hv'

/-- **`seek`.** -/
def seek (target : Key) (it : SSTableIterator) : Except TableError SSTableIterator :=
  if r.index.isEmpty then .ok { it with valid := false }
  else
    let last := r.index.length - 1
    match it.enterBlock cache (searchIndex r.index target 0 last last) with
    | .error e => .error e
    | .ok it => it.skipBelow cache target

/-- **A caller's loop**: the entries from where the iterator is until it is no
longer valid. -/
def collect (it : SSTableIterator) : Except TableError (List (Key × VLogPointer)) :=
  if _hv : it.valid = true then
    match _h : it.next cache with
    | .error e => .error e
    | .ok it' =>
      if _hv' : it'.valid = true then
        match collect it' with
        | .error e => .error e
        | .ok es => .ok ((it.currentKey, it.currentValue) :: es)
      else .ok [(it.currentKey, it.currentValue)]
  else .ok []
termination_by left r it
decreasing_by exact next_lt _h _hv _hv'

end Loops

/-! ## On a written file -/

open SSTableWriter DataBlock BlockItem

section Written

variable {img : Image} {r : SSTableReader} {cache : BlockCache r} {b : DataBlock}
  {pre post : List BlockItem} {i : BlockItem} {before after : List DataBlock}

/-- The index entry of a block. -/
theorem getElem?_indexFrom (off : ℕ) (pre : List DataBlock) (b : DataBlock)
    (post : List DataBlock) :
    (indexFrom off (pre ++ b :: post))[pre.length]?
      = some ⟨b.maxKey, off + (pre.flatMap DataBlock.bytes).length, b.bytes.length⟩ := by
  induction pre generalizing off with
  | nil => rfl
  | cons c pre ih =>
    rw [List.cons_append, indexFrom, List.length_cons, List.getElem?_cons_succ, ih,
      List.flatMap_cons, List.length_append, Nat.add_assoc]

theorem length_indexFrom (off : ℕ) (blocks : List DataBlock) :
    (indexFrom off blocks).length = blocks.length := by
  induction blocks generalizing off with
  | nil => rfl
  | cons b blocks ih => rw [indexFrom, List.length_cons, List.length_cons, ih]

/-- A block is loaded as it was written. -/
theorem loadBlock_eq (hcache : cache.Coherent) (hfile : r.file = img.file)
    (hindex : r.index = indexFrom 0 img.blocks) {pre post : List DataBlock}
    (heq : img.blocks = pre ++ b :: post) : loadBlock cache pre.length = .ok b.bytes := by
  have hget : r.index[pre.length]?
      = some ⟨b.maxKey, 0 + (pre.flatMap DataBlock.bytes).length, b.bytes.length⟩ := by
    rw [hindex, heq, getElem?_indexFrom]
  have hload : cache.load ⟨b.maxKey, 0 + (pre.flatMap DataBlock.bytes).length, b.bytes.length⟩
      = some b.bytes := by
    refine hcache.load_eq (List.mem_of_getElem? hget) ?_
    rw [hfile]
    exact FileImage.pread_block heq
  unfold loadBlock
  rw [hget]
  dsimp only
  rw [hload]

/-- **An entry is parsed where it lies**, given the key before it. -/
theorem parseCurrentEntry_eq (hb : b.Readable) (hitems : b.items = pre ++ i :: post)
    {it : SSTableIterator} (hblock : it.currentBlock = some b.bytes)
    (hoff : it.offsetInBlock = (rowBytes pre).length) (h1 : i.shared ≤ it.currentKey.length)
    (h3 : i.key.take i.shared = it.currentKey.take i.shared) :
    it.parseCurrentEntry = .ok
      { it with
        currentKey := i.key
        currentValue := i.ptr
        offsetInBlock := (rowBytes (pre ++ [i])).length
        valid := true } := by
  have hat := hb.at hitems
  have hend := hb.end_le hitems
  have hlen := b.length_bytes
  have hpos : 0 < b.restarts.length := b.restarts_pos
  unfold parseCurrentEntry
  rw [hblock]
  dsimp only
  rw [hoff, if_neg (by omega), if_neg (by omega), numRestarts_eq hb, if_neg (by omega),
    restartsOffset_eq hb, if_neg (by omega)]
  unfold parseEntry
  dsimp only
  rw [restartsOffset_eq hb, hoff, if_neg (by omega), if_neg (by unfold inBounds; omega),
    hat.shared, hat.unshared, hat.valLen, if_neg (by omega), if_neg (by unfold inBounds; omega),
    hat.rest, resize_append h1 h3, if_pos rfl, hat.ptr, rowBytes_append, List.length_append,
    rowBytes_cons, rowBytes_nil, List.append_nil, (hb.fits_mid hitems).length_bytes]
  congr 2
  omega

/-- **The iterator is at an entry of the file**: the block, the entry and what
comes before and after both. -/
structure On (img : Image) (it : SSTableIterator) (before : List DataBlock) (b : DataBlock)
    (after : List DataBlock) (pre : List BlockItem) (i : BlockItem) (post : List BlockItem) :
    Prop where
  blocks : img.blocks = before ++ b :: after
  items : b.items = pre ++ i :: post
  blockIdx : it.blockIdx = before.length
  block : it.currentBlock = some b.bytes
  offset : it.offsetInBlock = (rowBytes (pre ++ [i])).length
  valid : it.valid = true
  key : it.currentKey = i.key
  value : it.currentValue = i.ptr

/-- The entries from there on. -/
def rest (after : List DataBlock) (i : BlockItem) (post : List BlockItem) :
    List (Key × VLogPointer) :=
  (i :: post).map entry ++ after.flatMap entries

/-- A block is entered at its first entry, wherever the iterator was. -/
theorem enterBlock_spec (hcache : cache.Coherent) (hfile : r.file = img.file)
    (hindex : r.index = indexFrom 0 img.blocks) (it : SSTableIterator)
    (heq : img.blocks = before ++ b :: after) :
    ∃ it' i post, it.enterBlock cache before.length = .ok it'
      ∧ On img it' before b after [] i post := by
  have hb : b.Readable := img.readable (by rw [heq]; simp)
  obtain ⟨i, post, hitems⟩ : ∃ i post, b.items = [] ++ i :: post :=
    List.exists_cons_of_ne_nil b.nonempty
  have hi0 : i.shared = 0 := by
    have hchain := b.chain
    rw [hitems] at hchain
    exact Nat.le_zero.mp hchain.1
  unfold enterBlock
  rw [loadBlock_eq hcache hfile hindex heq]
  dsimp only
  rw [parseCurrentEntry_eq hb hitems rfl rfl (by rw [hi0]; exact Nat.zero_le _)
    (by rw [hi0]; rfl)]
  exact ⟨_, i, post, rfl, ⟨heq, hitems, rfl, rfl, rfl, rfl, rfl, rfl⟩⟩

/-- **One step**: to the next entry of the block, to the first of the next
block, or to the end. -/
theorem next_spec (hcache : cache.Coherent) (hfile : r.file = img.file)
    (hindex : r.index = indexFrom 0 img.blocks) {it : SSTableIterator}
    (h : On img it before b after pre i post) :
    ∃ it', it.next cache = .ok it'
      ∧ ((∃ before' b' after' pre' j post', On img it' before' b' after' pre' j post'
          ∧ rest after i post = i.entry :: rest after' j post')
        ∨ it'.valid = false ∧ rest after i post = [i.entry]) := by
  have hb : b.Readable := img.readable (by rw [h.blocks]; simp)
  have hlen := b.length_bytes
  have hitems := h.items
  unfold next
  rw [h.valid]
  simp only [Bool.not_true, Bool.false_eq_true, if_false, h.block]
  rw [if_neg (by omega), restartsOffset_eq hb, h.offset]
  cases post with
  | cons j post =>
    -- the next entry is in this block
    have hitems' : b.items = (pre ++ [i]) ++ j :: post := by
      rw [hitems, List.append_assoc]
      rfl
    have hend := hb.end_le hitems'
    have hchain := b.chain
    rw [hitems'] at hchain
    obtain ⟨h1, -, h3, -⟩ := hchain.right
    rw [lastKey_append, ← h.key] at h1 h3
    rw [if_neg (by omega), parseCurrentEntry_eq hb hitems' h.block h.offset h1 h3]
    exact ⟨_, rfl, Or.inl ⟨before, b, after, pre ++ [i], j, post,
      ⟨h.blocks, hitems', h.blockIdx, h.block, rfl, rfl, rfl, rfl⟩, rfl⟩⟩
  | nil =>
    rw [if_pos (by rw [hitems]), hindex, length_indexFrom, h.blocks, h.blockIdx]
    cases after with
    | cons c after =>
      have heq : img.blocks = (before ++ [b]) ++ c :: after := by
        rw [h.blocks, List.append_assoc]
        rfl
      obtain ⟨it', j, post, hit, hon⟩ := enterBlock_spec hcache hfile hindex
        { it with
          blockIdx := before.length + 1
          currentBlock := some b.bytes
          offsetInBlock := 0
          valid := true } heq
      rw [List.length_append, List.length_singleton] at hit
      rw [if_pos (by simp), hit]
      refine ⟨it', rfl, Or.inl ⟨_, c, after, [], j, post, hon, ?_⟩⟩
      have hitemsc := hon.items
      rw [List.nil_append] at hitemsc
      rw [rest, rest, List.flatMap_cons, entries, hitemsc]
      rfl
    | nil =>
      rw [if_neg (by simp)]
      exact ⟨_, rfl, Or.inr ⟨rfl, rfl⟩⟩

theorem collect_of_invalid {it : SSTableIterator} (h : it.valid = false) :
    it.collect cache = .ok [] := by
  rw [collect, dif_neg (by simp [h])]

/-- **The caller's loop yields all that is left.** -/
theorem collect_eq (hcache : cache.Coherent) (hfile : r.file = img.file)
    (hindex : r.index = indexFrom 0 img.blocks) (n : ℕ) {it : SSTableIterator}
    (h : On img it before b after pre i post) (hn : (rest after i post).length ≤ n) :
    it.collect cache = .ok (rest after i post) := by
  induction n generalizing it before b after pre i post with
  | zero => exact absurd hn (by simp [rest])
  | succ n ih =>
    obtain ⟨it', hnext, hcases⟩ := next_spec hcache hfile hindex h
    rw [collect, dif_pos h.valid]
    split
    · rename_i e he
      rw [hnext] at he
      cases he
    rename_i it'' he
    rw [hnext] at he
    cases he
    rw [h.key, h.value]
    rcases hcases with ⟨before', b', after', pre', j, post', hon, hrest⟩ | ⟨hinv, hrest⟩
    · rw [hrest, List.length_cons] at hn
      rw [dif_pos hon.valid, ih hon (by omega), hrest]
      rfl
    · rw [dif_neg (by simp [hinv]), hrest]
      rfl

/-- **The loop of `seek` skips what is below the target.** -/
theorem skipBelow_spec (hcache : cache.Coherent) (hfile : r.file = img.file)
    (hindex : r.index = indexFrom 0 img.blocks) (target : Key) {p : Key × VLogPointer → Bool}
    (hp : ∀ e, p e = true ↔ e.1 < target) (n : ℕ) {it : SSTableIterator}
    (h : On img it before b after pre i post) (hn : (rest after i post).length ≤ n) :
    ∃ it', it.skipBelow cache target = .ok it'
      ∧ it'.collect cache = .ok ((rest after i post).dropWhile p) := by
  have hcons : rest after i post = i.entry :: (post.map entry ++ after.flatMap entries) := rfl
  induction n generalizing it before b after pre i post with
  | zero => exact absurd hn (by simp [rest])
  | succ n ih =>
    by_cases hk : i.key < target
    case neg =>
      refine ⟨it, ?_, ?_⟩
      · rw [skipBelow, dif_neg (by rw [h.key]; exact fun hc => hk hc.2)]
      · rw [collect_eq hcache hfile hindex (n + 1) h hn, hcons,
          List.dropWhile_cons_of_neg (fun hc => hk ((hp _).mp hc))]
    have hpi : p i.entry = true := (hp _).mpr hk
    obtain ⟨it', hnext, hcases⟩ := next_spec hcache hfile hindex h
    rw [skipBelow, dif_pos ⟨h.valid, by rw [h.key]; exact hk⟩]
    split
    · rename_i e he
      rw [hnext] at he
      cases he
    rename_i it'' he
    rw [hnext] at he
    cases he
    rcases hcases with ⟨before', b', after', pre', j, post', hon, hrest⟩ | ⟨hinv, hrest⟩
    · rw [hrest, List.length_cons] at hn
      rw [dif_pos hon.valid, hrest, List.dropWhile_cons_of_pos hpi]
      exact ih hon (by omega) rfl
    · rw [dif_neg (by simp [hinv]), hrest, List.dropWhile_cons_of_pos hpi]
      exact ⟨it', rfl, collect_of_invalid hinv⟩

/-- The last keys of the blocks ascend. -/
theorem maxKey_lt (img : Image) {pre post : List DataBlock} {b c : DataBlock}
    (heq : img.blocks = pre ++ b :: post) (hc : c ∈ pre) : c.maxKey < b.maxKey := by
  obtain ⟨pc, hpc⟩ := c.exists_mem_maxKey
  obtain ⟨pb, hpb⟩ := b.exists_mem_maxKey
  have hs := img.sorted
  rw [heq, List.flatMap_append, List.flatMap_cons] at hs
  exact (List.pairwise_append.mp hs).2.2 _ (List.mem_flatMap.mpr ⟨c, hc, hpc⟩) _
    (List.mem_append_left _ hpb)

/-- **The block `seek` goes to**: every block before it ends below the
target. -/
theorem searchIndex_spec (img : Image) (target : Key) (n : ℕ) :
    ∀ left right blockIdx, right + 1 - left ≤ n → right < img.blocks.length →
      blockIdx ≤ right + 1 → blockIdx < img.blocks.length →
      (∀ c ∈ img.blocks.take left, c.maxKey < target) →
      searchIndex (indexFrom 0 img.blocks) target left right blockIdx < img.blocks.length
        ∧ ∀ c ∈ img.blocks.take (searchIndex (indexFrom 0 img.blocks) target left right blockIdx),
          c.maxKey < target := by
  induction n with
  | zero =>
    intro left right blockIdx hn _ hidx hlt hleft
    rw [searchIndex, if_neg (by omega)]
    refine ⟨hlt, fun c hc => hleft c (List.take_subset_take_left _ (by omega) hc)⟩
  | succ n ih =>
    intro left right blockIdx hn hright hidx hlt hleft
    by_cases hle : left ≤ right
    case neg =>
      rw [searchIndex, if_neg hle]
      refine ⟨hlt, fun c hc => hleft c (List.take_subset_take_left _ (by omega) hc)⟩
    rw [searchIndex, if_pos hle]
    dsimp only
    obtain ⟨mid, hmid⟩ : ∃ mid, mid = left + (right - left) / 2 := ⟨_, rfl⟩
    rw [← hmid]
    have hmidlt : mid < img.blocks.length := by omega
    have hsplit : img.blocks = img.blocks.take mid
        ++ img.blocks[mid] :: img.blocks.drop (mid + 1) := by
      rw [← List.drop_eq_getElem_cons hmidlt, List.take_append_drop]
    have hlen : (img.blocks.take mid).length = mid := List.length_take_of_le hmidlt.le
    have hkey : ((indexFrom 0 img.blocks).getD mid ⟨[], 0, 0⟩).maxKey
        = img.blocks[mid].maxKey := by
      have hget := getElem?_indexFrom 0 (img.blocks.take mid) img.blocks[mid]
        (img.blocks.drop (mid + 1))
      rw [← hsplit, hlen] at hget
      rw [List.getD_eq_getElem?_getD, hget]
      rfl
    rw [hkey]
    split_ifs with htarget hzero
    · rw [hzero]
      exact ⟨by omega, fun c hc => by cases hc⟩
    · exact ih left (mid - 1) mid (by omega) (by omega) (by omega) hmidlt hleft
    · refine ih (mid + 1) right blockIdx (by omega) hright hidx hlt (fun c hc => ?_)
      rw [List.take_add_one, List.getElem?_eq_getElem hmidlt] at hc
      rcases List.mem_append.mp hc with hc | hc
      · exact lt_trans (maxKey_lt img hsplit hc) (not_le.mp htarget)
      · rw [List.mem_singleton.mp hc]
        exact not_le.mp htarget

/-- **The iterator goes through a file from its first entry to its last.** -/
theorem collect_image (hcache : cache.Coherent) (hfile : r.file = img.file)
    (hindex : r.index = indexFrom 0 img.blocks) (it : SSTableIterator) :
    ∃ it', it.seekToFirst cache = .ok it' ∧ it'.valid = true
      ∧ it'.collect cache = .ok (img.blocks.flatMap entries) := by
  obtain ⟨b, after, hblocks⟩ : ∃ b after, img.blocks = [] ++ b :: after :=
    List.exists_cons_of_ne_nil img.nonempty
  obtain ⟨it', i, post, hit, hon⟩ := enterBlock_spec hcache hfile hindex
    { it with blockIdx := 0, offsetInBlock := 0, valid := false } hblocks
  have hempty : r.index.isEmpty = false := by
    rw [hindex, hblocks]
    rfl
  refine ⟨it', ?_, hon.valid, ?_⟩
  · unfold seekToFirst
    dsimp only
    rw [hempty]
    exact hit
  · rw [collect_eq hcache hfile hindex _ hon le_rfl, hblocks, List.nil_append,
      List.flatMap_cons, entries, hon.items]
    rfl

end Written

/-- **The round trip of an iteration.** Over a file written from entries with
ascending keys, of less than 2^32 bytes and with keys of less than 2^32 bytes, the
iterator started at the first
entry and moved on until it is no longer valid yields the entries, in their
order; and from whatever position it was in, `seek` to any key and the steps
from there on yield the entries from that key on. -/
theorem collect_load_write (env : Env) (contents : OrdMap Key VLogPointer)
    (hne : contents.entries ≠ []) (hfits : ∀ e ∈ contents.entries, EntryFits e)
    (hsize : (SSTableWriter.write env contents.entries).length < 2 ^ 32) :
    ∃ r, SSTableReader.load (SSTableWriter.write env contents.entries) = .ok (some r)
      ∧ ∀ cache : BlockCache r, cache.Coherent → ∀ it : SSTableIterator,
        (∃ it', it.seekToFirst cache = .ok it' ∧ it'.collect cache = .ok contents.entries)
        ∧ ∀ target, ∃ it', it.seek cache target = .ok it'
          ∧ it'.collect cache = .ok (contents.entries.filter (fun e => decide (target ≤ e.1))) := by
  obtain ⟨img, himgfile, himg⟩ := SSTableReader.exists_image env contents hne hfits hsize
  obtain ⟨r, hload, hfile, hindex, -, -⟩ := SSTableReader.load_image img
  refine ⟨r, by rw [← himgfile]; exact hload, fun cache hcache it => ?_⟩
  have hlen : r.index.length = img.blocks.length := by
    rw [hindex, length_indexFrom]
  have hpos : 0 < img.blocks.length := List.length_pos_of_ne_nil img.nonempty
  have hempty : r.index.isEmpty = false := by
    rw [List.isEmpty_eq_false_iff, ← List.length_pos_iff]
    omega
  constructor
  · obtain ⟨it', hit, -, hcollect⟩ := collect_image hcache hfile hindex it
    exact ⟨it', hit, by rw [hcollect, himg]⟩
  · intro target
    obtain ⟨hlt, hbefore⟩ := searchIndex_spec img target _ 0 (img.blocks.length - 1)
      (img.blocks.length - 1) le_rfl (by omega) (by omega) (by omega) (fun c hc => by cases hc)
    obtain ⟨idx, hidx⟩ : ∃ idx, idx = searchIndex (indexFrom 0 img.blocks) target 0
      (img.blocks.length - 1) (img.blocks.length - 1) := ⟨_, rfl⟩
    rw [← hidx] at hlt hbefore
    have hblocks : img.blocks = img.blocks.take idx
        ++ img.blocks[idx] :: img.blocks.drop (idx + 1) := by
      rw [← List.drop_eq_getElem_cons hlt, List.take_append_drop]
    obtain ⟨it', i, post, hit, hon⟩ := enterBlock_spec hcache hfile hindex it hblocks
    rw [List.length_take_of_le hlt.le] at hit
    obtain ⟨it'', hskip, hcollect⟩ := skipBelow_spec hcache hfile hindex target
      (fun _ => decide_eq_true_iff) _ hon le_rfl
    refine ⟨it'', ?_, ?_⟩
    · unfold seek
      dsimp only
      rw [hempty, hlen, hindex, ← hidx, hit]
      exact hskip
    · -- what is before the block is below the target
      have hrest : rest (img.blocks.drop (idx + 1)) i post
          = (img.blocks[idx] :: img.blocks.drop (idx + 1)).flatMap entries := by
        rw [List.flatMap_cons, entries, hon.items]
        rfl
      have hall : contents.entries = (img.blocks.take idx).flatMap entries
          ++ rest (img.blocks.drop (idx + 1)) i post := by
        rw [hrest, ← List.flatMap_append, ← hblocks, himg]
      have hsorted := contents.sorted
      rw [hall] at hsorted
      have hskipped : ((img.blocks.take idx).flatMap entries).filter
          (fun e => decide (target ≤ e.1)) = [] := by
        refine List.filter_eq_nil_iff.mpr (fun e he => ?_)
        obtain ⟨c, hc, hec⟩ := List.mem_flatMap.mp he
        have hle := le_maxKey (img.readable (List.mem_of_mem_take hc)).sorted hec
        simpa using lt_of_le_of_lt hle (hbefore c hc)
      rw [hcollect, hall, List.filter_append, hskipped, List.nil_append,
        OrdMap.dropWhile_lt_eq_filter (List.pairwise_append.mp hsorted).2.1
          (fun _ => decide_eq_true_iff) (fun _ => decide_eq_true_iff)]

/-- Three keys, one of them an extension of another. -/
def threeEntries : OrdMap Key VLogPointer :=
  ((OrdMap.empty.insert [97] ⟨1, 9, 3⟩).insert [97, 98] ⟨1, 22, 2⟩).insert [99] (.tombstone 1)

theorem collect_load_write_threeEntries :
    ∃ r, SSTableReader.load (SSTableWriter.write .small threeEntries.entries) = .ok (some r)
      ∧ ∃ it, seek (BlockCache.empty r) [97, 97] {} = .ok it
        ∧ it.collect (.empty r) = .ok [([97, 98], ⟨1, 22, 2⟩), ([99], .tombstone 1)] := by
  obtain ⟨r, hload, hall⟩ := collect_load_write .small threeEntries (by decide) (by decide)
    (by decide +kernel)
  exact ⟨r, hload, (hall (.empty r) (.empty r) {}).2 [97, 97]⟩

/-- **A key of 2^32 bytes comes back empty.** -/
theorem collect_load_write_longKey :
    let key : Key := List.replicate (2 ^ 32) 0
    (SSTableWriter.write .small [(key, ⟨1, 9, 3⟩)]).length < 2 ^ 32
      ∧ ∃ r, SSTableReader.load (SSTableWriter.write .small [(key, ⟨1, 9, 3⟩)]) = .ok (some r)
        ∧ ∃ it, seekToFirst (BlockCache.empty r) {} = .ok it
          ∧ it.collect (.empty r) = .ok [([], ⟨1, 9, 3⟩)] := by
  have hlen : (List.replicate (2 ^ 32) (0 : Byte)).length = 2 ^ 32 := List.length_replicate
  generalize List.replicate (2 ^ 32) (0 : Byte) = key at hlen ⊢
  dsimp only
  obtain ⟨img, himgfile, himg⟩ := SSTableReader.exists_image_cut
    (show BloomFilter.byteSize .small 1 < 2 ^ 31 by decide) hlen
    (show (VLogPointer.mk 1 9 3).Fits by decide)
  obtain ⟨r, hload, hfile, hindex, -, -⟩ := SSTableReader.load_image img
  obtain ⟨it, hit, -, hcollect⟩ := collect_image (.empty r) hfile hindex {}
  exact ⟨himgfile ▸ img.size, r, himgfile ▸ hload, it, hit, by rw [hcollect, himg]⟩

end SSTableIterator
