import ForgeLSM.TableLookup

/-!
# How the writer cuts blocks

What `SSTableWriter.write` writes is a row of blocks (`SSTableWriter.write_eq`), and a reader
needs no more. Here is the rest of what holds of the blocks. Whether an entry still fits is
decided before its restart is listed, from an estimate of what is to be added at the end of
the block, and an entry that does not fit is coded anew, with its whole key, in the block that
it opens. The estimate is exact, since it counts the restart that is yet to come
(`BlockItem.Formed`). So a block is over the limit only if its one entry alone is.

A restart comes with every sixteenth entry of a block, and with an entry that shares nothing
with the key before it. The restarts listed are those two kinds together.

The index gives the place of a block in 32 bits. Up to that size the blocks tile the front of
the file as it says (`Tiles`).
-/

open BlockItem

/-! ## Rows -/

/-- **A row as the writer forms it**: with more than one entry it fits the limit, restarts
included, and every sixteenth entry has its whole key. -/
structure BlockItem.Formed (is : List BlockItem) : Prop where
  size : is.length ≤ 1
    ∨ (rowBytes is).length + (BlockItem.restarts 0 is).length * 4 + 4 ≤ blockLimit
  whole : ∀ j i, is[j]? = some i → j % restartInterval = 0 → i.shared = 0

namespace BlockItem

theorem formed_nil : Formed [] where
  size := Or.inl (Nat.zero_le 1)
  whole j i hi _ := by cases hi

theorem formed_singleton (e : Key × VLogPointer) : Formed [⟨0, e.1, e.2⟩] where
  size := Or.inl (le_refl 1)
  whole j i hi _ := by
    rw [List.mem_singleton.mp (List.mem_of_getElem? hi)]

/-- Entries that follow each other with no restart are fewer than the interval. -/
theorem Formed.run_lt {is pre run post : List BlockItem} (h : Formed is)
    (heq : is = pre ++ (run ++ post)) (hrun : ∀ i ∈ run, i.shared ≠ 0) :
    run.length < restartInterval := by
  by_contra hlong
  -- a multiple of the interval lies among as many places
  obtain ⟨k, hk, hmod⟩ : ∃ k < run.length, (pre.length + k) % restartInterval = 0 := by
    refine ⟨(restartInterval - pre.length % restartInterval) % restartInterval, ?_, ?_⟩
    all_goals
      unfold restartInterval at *
      omega
  have hget : is[pre.length + k]? = some run[k] := by
    rw [heq, List.getElem?_append_right (Nat.le_add_right _ _), Nat.add_sub_cancel_left,
      List.getElem?_append_left hk, List.getElem?_eq_getElem hk]
  exact hrun _ (List.getElem_mem hk) (h.whole _ _ hget hmod)

/-- The restarts of a row are ascending. -/
theorem pairwise_restarts (off : ℕ) (is : List BlockItem) :
    (restarts off is).Pairwise (· < ·) := by
  induction is generalizing off with
  | nil => exact List.Pairwise.nil
  | cons i is ih =>
    unfold restarts
    refine List.pairwise_append.mpr ⟨?_, ih _, fun x hx y hy => ?_⟩
    · split_ifs
      · exact List.pairwise_singleton _ _
      · exact List.Pairwise.nil
    · have hxo : x = off := by
        split_ifs at hx
        · exact List.mem_singleton.mp hx
        · cases hx
      obtain ⟨pre, j, post, -, -, hy⟩ := exists_of_mem_restarts hy
      have hlen := i.length_bytes
      omega

/-- An entry with its whole key is listed. -/
theorem mem_restarts (off : ℕ) (pre : List BlockItem) {i : BlockItem} (hi : i.shared = 0)
    (post : List BlockItem) : off + (rowBytes pre).length ∈ restarts off (pre ++ i :: post) := by
  rw [restarts_append]
  refine List.mem_append_right _ ?_
  rw [restarts, if_pos hi]
  exact List.mem_cons_self

end BlockItem

namespace SSTableWriter

/-! ## The loop -/

variable {w : SSTableWriter} {blocks : List DataBlock} {is : List BlockItem}

/-- An entry that does not overflow the block keeps the row in form. -/
theorem Wrote.formed_append (h : w.Wrote blocks is) (hform : Formed is)
    (hcount : w.buf.counter = is.length) {e : Key × VLogPointer}
    (hover : w.buf.overflows e.1 (w.buf.shared e.1) = false) :
    Formed (is ++ [⟨w.buf.shared e.1, e.1, e.2⟩]) where
  size := by
    by_cases hnil : is = []
    · rw [hnil]
      exact Or.inl (le_refl 1)
    · right
      have hbytes : w.buf.bytes ≠ [] := fun hb => hnil (h.buf.bytes_eq_nil_iff.mp hb)
      have hroom : w.buf.bytes.length + BlockBuf.entrySize e.1 (w.buf.shared e.1)
          + ((w.buf.restarts.length + if w.buf.shared e.1 = 0 then 1 else 0) * 4 + 4)
            ≤ blockLimit := by
        unfold BlockBuf.overflows at hover
        rw [decide_eq_true hbytes, Bool.true_and, decide_eq_false_iff_not] at hover
        exact not_lt.mp hover
      have hrestarts : (BlockItem.restarts 0 (is ++ [⟨w.buf.shared e.1, e.1, e.2⟩])).length
          = w.buf.restarts.length + if w.buf.shared e.1 = 0 then 1 else 0 := by
        rw [restarts_append, List.length_append, ← h.buf.restarts, BlockItem.restarts]
        split_ifs <;> rfl
      have hbytes : (rowBytes (is ++ [⟨w.buf.shared e.1, e.1, e.2⟩])).length
          = w.buf.bytes.length + BlockBuf.entrySize e.1 (w.buf.shared e.1) := by
        rw [rowBytes_append, List.length_append, ← h.buf.bytes, rowBytes_cons, rowBytes_nil,
          List.append_nil, BlockItem.length_bytes, BlockBuf.entrySize]
        dsimp only
        omega
      rw [hrestarts, hbytes]
      exact hroom
  whole j i hi hmod := by
    rcases Nat.lt_or_ge j is.length with hlt | hge
    · rw [List.getElem?_append_left hlt] at hi
      exact hform.whole j i hi hmod
    · rw [List.getElem?_append_right hge] at hi
      have hj : j = is.length := by
        have := (List.getElem?_eq_some_iff.mp hi).1
        rw [List.length_singleton] at this
        omega
      rw [List.mem_singleton.mp (List.mem_of_getElem? hi)]
      -- the counter stands at a multiple of the interval
      show w.buf.shared e.1 = 0
      unfold BlockBuf.shared
      rw [hcount, ← hj, if_neg (fun hc => hc.1 hmod)]

/-- **The writer forms its rows**, those written and the one being filled. -/
structure Forms (w : SSTableWriter) (blocks : List DataBlock) (is : List BlockItem) : Prop where
  wrote : w.Wrote blocks is
  counter : w.buf.counter = is.length
  row : Formed is
  rows : ∀ b ∈ blocks, Formed b.items

theorem Forms.addEntry (h : w.Forms blocks is) (e : Key × VLogPointer) :
    ∃ blocks' is', (w.addEntry e).Forms blocks' is'
      ∧ blocks'.flatMap DataBlock.entries ++ is'.map entry
        = blocks.flatMap DataBlock.entries ++ is.map entry ++ [e] := by
  obtain ⟨blocks', is', hw, he, ⟨b, hb, rfl, rfl, hcount⟩ | ⟨hover, rfl, rfl, hcount⟩⟩ :=
    h.wrote.addEntry e
  · refine ⟨_, _, ⟨hw, hcount, formed_singleton e, fun c hc => ?_⟩, he⟩
    rcases List.mem_append.mp hc with hc | hc
    · exact h.rows c hc
    · rw [List.mem_singleton.mp hc, hb]
      exact h.row
  · refine ⟨_, _, ⟨hw, ?_, h.wrote.formed_append h.row h.counter hover, h.rows⟩, he⟩
    rw [hcount, h.counter, List.length_append, List.length_singleton]

/-- The blocks of the file are formed. -/
theorem exists_formed (entries : List (Key × VLogPointer)) :
    ∃ blocks, (entries.foldl SSTableWriter.addEntry {}).finishBlocks.Wrote blocks []
      ∧ blocks.flatMap DataBlock.entries = entries ∧ ∀ b ∈ blocks, Formed b.items := by
  obtain ⟨blocks, is, h, he⟩ : ∃ blocks is,
      (entries.foldl SSTableWriter.addEntry {}).Forms blocks is
        ∧ blocks.flatMap DataBlock.entries ++ is.map entry = entries :=
    exists_rows ⟨⟨rfl, rfl, rfl, .nil⟩, rfl, formed_nil, nofun⟩
      (fun w blocks is e h => h.addEntry e) entries
  obtain ⟨blocks', hw, he', hcases⟩ := h.wrote.finishBlocks
  refine ⟨blocks', hw, he'.trans he, fun b hb => ?_⟩
  rcases hcases b hb with hold | hlast
  · exact h.rows b hold
  · exact hlast ▸ h.row

end SSTableWriter

/-! ## The file -/

/-- **Ranges that tile**: each begins where the one before ends, from a place to a place. -/
def Tiles : ℕ → List (ℕ × ℕ) → ℕ → Prop
  | start, [], stop => start = stop
  | start, (offset, length) :: ranges, stop => offset = start ∧ Tiles (start + length) ranges stop

/-- The offset and length of an index entry, as the 32 bits they are written in. -/
def IndexEntry.range (e : IndexEntry) : ℕ × ℕ := (u32 e.offset, u32 e.length)

/-- **A block in form.** Its restarts are those of its entries that have their whole key. -/
structure DataBlock.InForm (b : DataBlock) : Prop where
  size : b.bytes.length ≤ blockLimit ∨ b.items.length = 1
  restarts_head : b.restarts.head? = some 0
  restarts_sorted : b.restarts.Pairwise (· < ·)
  mem_restarts : ∀ x, x ∈ b.restarts ↔ ∃ pre i post, b.items = pre ++ i :: post
    ∧ i.shared = 0 ∧ x = (rowBytes pre).length
  spaced : ∀ pre run post, b.items = pre ++ (run ++ post) → (∀ i ∈ run, i.shared ≠ 0) →
    run.length < restartInterval

theorem DataBlock.inForm {b : DataBlock} (h : Formed b.items) : b.InForm where
  size := by
    rcases h.size with hone | hfit
    · have := List.length_pos_of_ne_nil b.nonempty
      exact Or.inr (by omega)
    · rw [b.length_bytes]
      exact Or.inl hfit
  restarts_head := by rw [List.head?_eq_getElem?, b.restarts_zero]
  restarts_sorted := pairwise_restarts 0 b.items
  mem_restarts x := by
    constructor
    · intro hx
      obtain ⟨pre, i, post, heq, hi, hx⟩ := exists_of_mem_restarts hx
      exact ⟨pre, i, post, heq, hi, by rw [hx, Nat.zero_add]⟩
    · rintro ⟨pre, i, post, heq, hi, rfl⟩
      rw [DataBlock.restarts, heq, ← Nat.zero_add (rowBytes pre).length]
      exact BlockItem.mem_restarts 0 pre hi post
  spaced pre run post heq hrun := h.run_lt heq hrun

namespace DataBlock

variable {blocks : List DataBlock}

/-- The places the index gives tile the blocks, from where the first of them begins. -/
theorem tiles_indexFrom {off : ℕ} (hsize : off + (blocks.flatMap bytes).length < 2 ^ 32) :
    Tiles off ((indexFrom off blocks).map IndexEntry.range)
      (off + (blocks.flatMap bytes).length) := by
  induction blocks generalizing off with
  | nil => rfl
  | cons b blocks ih =>
    rw [List.flatMap_cons, List.length_append, ← Nat.add_assoc] at hsize ⊢
    have hoff : u32 off = off := u32_of_lt (by omega)
    have hlen : u32 b.bytes.length = b.bytes.length := u32_of_lt (by omega)
    rw [indexFrom, List.map_cons, IndexEntry.range]
    exact ⟨hoff, hlen.symm ▸ ih hsize⟩

/-- At the places the index gives are the blocks. -/
theorem slices_indexFrom (pre : List Byte) (post : List Byte) {file : List Byte}
    (hfile : file = pre ++ (blocks.flatMap bytes ++ post))
    (hsize : pre.length + (blocks.flatMap bytes).length < 2 ^ 32) :
    (indexFrom pre.length blocks).map (fun e => slice file e.range.1 e.range.2)
      = blocks.map bytes := by
  induction blocks generalizing pre with
  | nil => rfl
  | cons b blocks ih =>
    rw [List.flatMap_cons, List.length_append] at hsize
    rw [List.flatMap_cons, List.append_assoc] at hfile
    have hrest := ih (pre ++ b.bytes) (by rw [hfile, List.append_assoc])
      (by rw [List.length_append]; omega)
    have hoff : u32 pre.length = pre.length := u32_of_lt (by omega)
    have hlen : u32 b.bytes.length = b.bytes.length := u32_of_lt (by omega)
    have hfirst := slice_eq pre b.bytes _ hfile hoff hlen
    rw [List.length_append] at hrest
    rw [indexFrom, List.map_cons, List.map_cons, hrest]
    exact congrArg (· :: _) hfirst

theorem map_maxKey_indexFrom (off : ℕ) (blocks : List DataBlock) :
    (indexFrom off blocks).map IndexEntry.maxKey = blocks.map maxKey := by
  induction blocks generalizing off with
  | nil => rfl
  | cons b blocks ih => rw [indexFrom, List.map_cons, List.map_cons, ih]

/-- The last keys of blocks ascend as their entries do. -/
theorem pairwise_maxKey (hsorted : (blocks.flatMap entries).Pairwise (fun a b => a.1 < b.1)) :
    (blocks.map maxKey).Pairwise (· < ·) := by
  rw [List.pairwise_map]
  refine (List.pairwise_flatMap.mp hsorted).2.imp (fun {b c} hbc => ?_)
  obtain ⟨p, hp⟩ := b.exists_mem_maxKey
  obtain ⟨q, hq⟩ := c.exists_mem_maxKey
  exact hbc _ hp _ hq

end DataBlock

namespace SSTableWriter

/-- **The blocks of a written table**, for entries in ascending order of key, with keys of less
than `2 ^ 32` bytes. Each block holds an entry and is in form, and the index has the last key of
each, in ascending order; no key is cut, in a block or in the index. If the blocks have
less than `2 ^ 32` bytes together, they tile the file up to the index, as the fields of the index
and of the footer say. -/
theorem write_blocks (env : Env) {entries : List (Key × VLogPointer)}
    (hsorted : entries.Pairwise (fun a b => a.1 < b.1))
    (hkeys : ∀ e ∈ entries, e.1.length < 2 ^ 32) :
    ∃ blocks : List DataBlock, blocks.flatMap DataBlock.entries = entries
      ∧ write env entries = payload blocks (BloomFilter.build env (entries.map Prod.fst))
        ++ footer blocks (BloomFilter.build env (entries.map Prod.fst))
      ∧ (∀ b ∈ blocks, b.entries ≠ [] ∧ b.InForm
        ∧ b.entries.getLast?.map Prod.fst = some b.maxKey
        ∧ ∀ i ∈ b.items, cutKey (i.key.drop i.shared) = i.key.drop i.shared)
      ∧ (∀ e ∈ DataBlock.indexFrom 0 blocks, e.cut = e)
      ∧ (DataBlock.indexFrom 0 blocks).map IndexEntry.maxKey = blocks.map DataBlock.maxKey
      ∧ ((DataBlock.indexFrom 0 blocks).map IndexEntry.maxKey).Pairwise (· < ·)
      ∧ ((blocks.flatMap DataBlock.bytes).length < 2 ^ 32 →
        Tiles 0 ((DataBlock.indexFrom 0 blocks).map IndexEntry.range)
            (u32 (blocks.flatMap DataBlock.bytes).length)
          ∧ (DataBlock.indexFrom 0 blocks).map
              (fun e => slice (write env entries) e.range.1 e.range.2)
            = blocks.map DataBlock.bytes) := by
  obtain ⟨blocks, hwrote, hentries, hformed⟩ := exists_formed entries
  have hwrite := write_eq_of_wrote env hwrote
  have hmax := DataBlock.map_maxKey_indexFrom 0 blocks
  rw [← hentries] at hkeys
  refine ⟨blocks, hentries, hwrite, fun b hb => ⟨?_, ?_, b.getLast?_entries, fun i hi => ?_⟩,
    fun e he => DataBlock.cut_of_mem_indexFrom hkeys he, hmax, ?_, fun hsize => ⟨?_, ?_⟩⟩
  · exact fun hnil => b.nonempty (List.map_eq_nil_iff.mp hnil)
  · exact DataBlock.inForm (hformed b hb)
  · have hkey : i.key.length < 2 ^ 32 :=
      hkeys i.entry (List.mem_flatMap.mpr ⟨b, hb, List.mem_map_of_mem hi⟩)
    exact cutKey_of_lt (lt_of_le_of_lt (List.length_drop ▸ Nat.sub_le _ _) hkey)
  · rw [hmax]
    exact DataBlock.pairwise_maxKey (hentries.symm ▸ hsorted)
  · rw [u32_of_lt hsize]
    rw [← Nat.zero_add (blocks.flatMap DataBlock.bytes).length] at hsize ⊢
    exact DataBlock.tiles_indexFrom hsize
  · obtain ⟨post, hfile⟩ : ∃ post, write env entries = blocks.flatMap DataBlock.bytes ++ post :=
      ⟨_, by rw [hwrite, payload, List.append_assoc]⟩
    exact DataBlock.slices_indexFrom [] post hfile (by rwa [List.length_nil, Nat.zero_add])

theorem write_blocks_twoEntries :
    SSTableReader.twoEntries.entries.Pairwise (fun a b => a.1 < b.1)
      ∧ ∃ blocks : List DataBlock,
        blocks.flatMap DataBlock.entries = SSTableReader.twoEntries.entries
          ∧ ∀ b ∈ blocks, b.InForm := by
  have hsorted : SSTableReader.twoEntries.entries.Pairwise (fun a b => a.1 < b.1) := by decide
  obtain ⟨blocks, hentries, -, hform, -⟩ := write_blocks Env.small hsorted (by decide)
  exact ⟨hsorted, blocks, hentries, fun b hb => (hform b hb).2.1⟩

/-- What is written for one entry: a block, with the one restart. -/
theorem finishBlocks_singleton {key : Key} (hkey : key.length < 2 ^ 32) (ptr : VLogPointer) :
    ([(key, ptr)].foldl addEntry {}).finishBlocks.out.length = key.length + 36
      ∧ ([(key, ptr)].foldl addEntry {}).finishBlocks.index = [⟨key, 0, key.length + 36⟩] := by
  have hlen : (BlockBuf.entryBytes 0 key ptr).length = key.length + 28 := by
    simp only [BlockBuf.entryBytes, List.length_append, length_leBytes, List.drop_zero,
      cutKey_of_lt hkey, VLogPointer.length_bytes]
    omega
  have hadd : ([(key, ptr)].foldl addEntry {}) = { buf := BlockBuf.put {} (key, ptr) 0 } := rfl
  have hne : (BlockBuf.put {} (key, ptr) 0).bytes ≠ [] := by
    intro hnil
    have := congrArg List.length hnil
    simp only [BlockBuf.put, List.nil_append, hlen, List.length_nil] at this
    omega
  rw [hadd, finishBlocks, if_neg hne]
  simp [cutBlock, emit, BlockBuf.finish, BlockBuf.put, hlen]

/-- A key that takes its block to `2 ^ 32` bytes: the index and the footer give it none. -/
theorem ranges_longKey :
    let entries : List (Key × VLogPointer) := [(List.replicate (2 ^ 32 - 36) 0, ⟨0, 0, 0⟩)]
    let w := (entries.foldl addEntry {}).finishBlocks
    w.out.length = 2 ^ 32 ∧ u32 w.out.length = 0 ∧ w.index.map IndexEntry.range = [(0, 0)]
      ∧ ¬ Tiles 0 (w.index.map IndexEntry.range) w.out.length
      ∧ w.index.map (fun e => slice (write .small entries) e.range.1 e.range.2) = [[]] := by
  have hlen : (List.replicate (2 ^ 32 - 36) (0 : Byte)).length = 2 ^ 32 - 36 :=
    List.length_replicate
  generalize List.replicate (2 ^ 32 - 36) (0 : Byte) = key at hlen ⊢
  dsimp only
  obtain ⟨hout, hindex⟩ := finishBlocks_singleton (hlen.trans_lt (by norm_num)) ⟨0, 0, 0⟩
  have hrange : (IndexEntry.mk key 0 (2 ^ 32 - 36 + 36)).range = (0, 0) := by
    norm_num [IndexEntry.range, u32]
  rw [hout, hindex, hlen, List.map_singleton, List.map_singleton, hrange]
  refine ⟨rfl, rfl, rfl, ?_, rfl⟩
  rintro ⟨-, hstop⟩
  cases hstop

end SSTableWriter
