import ForgeLSM.SSTable
import ForgeLSM.TableReader

/-!
# Looking keys up in a written table

What `load` and `get` do on a file of the form that `SSTableWriter.write_eq`
describes. An entry of a block is read back where it lies (`BlockItem.At`); the
binary search keeps that the restart it has found comes before the key
(`DataBlock.searchRestarts_spec`), so that the linear scan from there finds the
key if the block has it (`DataBlock.scanBlock_spec`); and the block the index gives
for a key is the only one that can have it.

All of this is about keys below 2^32 bytes. The length of a longer one is cut to 32
bits when it is written, and the table then holds the front of the key in its place:
the file is accepted, and the key is not found (`get_load_write_longKey`).
-/

/-! ## Comparing -/

/-- Two keys compare as their fronts of the shorter length do, and then as
their lengths do. -/
theorem compareView_take (m key : Key) :
    compareView (m.take (min m.length key.length)) m.length key
      = if m < key then .lt else if key < m then .gt else .eq := by
  unfold compareView
  induction m generalizing key with
  | nil =>
    cases key with
    | nil => simp
    | cons b key => simp [Nat.compare_eq_ite_lt]
  | cons a m ih =>
    cases key with
    | nil => simp [Nat.compare_eq_ite_lt]
    | cons b key =>
      have hih := ih key
      simp only [List.length_cons, Nat.succ_min_succ, List.take_succ_cons, List.cons_lt_cons_iff]
        at hih ⊢
      rcases lt_trichotomy a b with hab | hab | hab
      · simp [hab]
      · subst hab
        simpa [Nat.compare_eq_ite_lt] using hih
      · simp [hab, hab.ne', not_lt.mpr hab.le]

/-! ## Entries where they lie -/

/-- **An entry fits the format**: its key has a size of 32 bits, and the numbers of
its pointer fit their types. -/
def EntryFits (e : Key × VLogPointer) : Prop := e.1.length < 2 ^ 32 ∧ e.2.Fits

instance (e : Key × VLogPointer) : Decidable (EntryFits e) :=
  inferInstanceAs (Decidable (_ ∧ _))

/-- The numbers of an entry fit their fields. -/
def BlockItem.Fits (i : BlockItem) : Prop := i.shared ≤ i.key.length ∧ EntryFits i.entry

/-- The bytes of such an entry, the key uncut. -/
theorem BlockItem.Fits.bytes_eq {i : BlockItem} (hi : i.Fits) :
    i.bytes = leBytes 4 i.shared ++ (leBytes 4 (i.key.length - i.shared) ++ (leBytes 4 16
      ++ (i.key.drop i.shared ++ i.ptr.bytes))) := by
  have hlt : (i.key.drop i.shared).length < 2 ^ 32 :=
    lt_of_le_of_lt (List.length_drop ▸ Nat.sub_le _ _) hi.2.1
  rw [BlockItem.bytes, BlockBuf.entryBytes, cutKey_of_lt hlt]

theorem BlockItem.Fits.length_bytes {i : BlockItem} (hi : i.Fits) :
    i.bytes.length = 28 + (i.key.length - i.shared) := by
  have hlt : i.key.length < 2 ^ 32 := hi.2.1
  rw [i.length_bytes, u32_of_lt (lt_of_le_of_lt (Nat.sub_le _ _) hlt)]

/-- **An entry at an offset of a block**, field by field. -/
structure BlockItem.At (bs : List Byte) (off : ℕ) (i : BlockItem) : Prop where
  bound : off + (28 + (i.key.length - i.shared)) ≤ bs.length
  shared : leAt 4 bs off = i.shared
  unshared : leAt 4 bs (off + 4) = i.key.length - i.shared
  valLen : leAt 4 bs (off + 8) = 16
  rest : slice bs (off + 12) (i.key.length - i.shared) = i.key.drop i.shared
  ptr : VLogPointer.readFrom bs (off + 12 + (i.key.length - i.shared)) = i.ptr

variable {off : ℕ}

/-- An entry is read back where it was written. -/
theorem BlockItem.Fits.at {i : BlockItem} (hi : i.Fits) (pre post : List Byte) {bs : List Byte}
    (hbs : bs = pre ++ (i.bytes ++ post)) (hoff : off = pre.length) : i.At bs off := by
  rw [hi.bytes_eq] at hbs
  have hs := hi.1
  have hk : i.key.length < 2 ^ 32 := hi.2.1
  have hp : i.ptr.Fits := hi.2.2
  have hs32 : i.shared < 256 ^ 4 := lt_of_le_of_lt hs (by simpa using hk)
  have hu32 : i.key.length - i.shared < 256 ^ 4 :=
    lt_of_le_of_lt (Nat.sub_le _ _) (by simpa using hk)
  simp only [List.append_assoc] at hbs
  refine
    { bound := ?_
      shared := leAt_eq pre _ hbs hoff hs32
      unshared := leAt_eq (pre ++ leBytes 4 i.shared) _ (by rw [hbs, List.append_assoc])
        (by simp [hoff]) hu32
      valLen := leAt_eq (pre ++ (leBytes 4 i.shared ++ leBytes 4 (i.key.length - i.shared)))
        (i.key.drop i.shared ++ (i.ptr.bytes ++ post)) (by simp only [hbs, List.append_assoc])
        (by simp [hoff]) (by norm_num)
      rest := slice_eq (pre ++ (leBytes 4 i.shared ++ (leBytes 4 (i.key.length - i.shared)
        ++ leBytes 4 16))) _ (i.ptr.bytes ++ post) (by simp only [hbs, List.append_assoc])
        (by simp [hoff]) (by rw [List.length_drop])
      ptr := hp.readFrom_eq (pre ++ (leBytes 4 i.shared ++ (leBytes 4 (i.key.length - i.shared)
        ++ (leBytes 4 16 ++ i.key.drop i.shared)))) post (by simp only [hbs, List.append_assoc])
        (by simp [hoff]; omega) }
  rw [hoff, hbs]
  simp only [List.length_append, length_leBytes, List.length_drop, VLogPointer.length_bytes]
  omega

variable {prev : Key} {is : List BlockItem}

namespace BlockItem

/-- A row from an entry with its whole key on needs no key before it. -/
theorem Chain.of_shared_eq_zero {i : BlockItem} (h : Chain prev (i :: is)) (hi : i.shared = 0)
    (key : Key) : Chain key (i :: is) := by
  obtain ⟨-, h2, -, h4⟩ := h
  exact ⟨hi ▸ Nat.zero_le _, h2, by rw [hi]; rfl, h4⟩

/-- The rest of a row follows the last key of the front. -/
theorem Chain.right {is js : List BlockItem} (h : Chain prev (is ++ js)) :
    Chain (lastKey prev is) js := by
  induction is generalizing prev with
  | nil => exact h
  | cons i is ih => exact ih h.2.2.2

/-- No entry leaves out more than its key has. -/
theorem Chain.shared_le (h : Chain prev is) {i : BlockItem} (hi : i ∈ is) :
    i.shared ≤ i.key.length := by
  induction is generalizing prev with
  | nil => cases hi
  | cons j js ih =>
    rcases List.mem_cons.mp hi with rfl | hi
    · exact h.2.1
    · exact ih h.2.2.2 hi

/-- A restart is where an entry with its whole key lies. -/
theorem exists_of_mem_restarts {off x : ℕ} (h : x ∈ restarts off is) :
    ∃ pre i post, is = pre ++ i :: post ∧ i.shared = 0 ∧ x = off + (rowBytes pre).length := by
  induction is generalizing off with
  | nil => cases h
  | cons i is ih =>
    rcases List.mem_append.mp h with h | h
    · by_cases hi : i.shared = 0
      · rw [if_pos hi] at h
        exact ⟨[], i, is, rfl, hi, List.mem_singleton.mp h⟩
      · rw [if_neg hi] at h
        cases h
    · obtain ⟨pre, j, post, rfl, hj, rfl⟩ := ih h
      refine ⟨i :: pre, j, post, rfl, hj, ?_⟩
      rw [rowBytes_cons, List.length_append, Nat.add_assoc]

end BlockItem

/-- A number of a list laid out in four bytes each. -/
theorem leAt_flatMap_leBytes {l : List ℕ} {t x : ℕ} (hx : l[t]? = some x) (hfits : x < 256 ^ 4)
    (pre post : List Byte) {bs : List Byte} (hbs : bs = pre ++ (l.flatMap (leBytes 4) ++ post)) :
    leAt 4 bs (pre.length + t * 4) = x := by
  induction l generalizing t pre with
  | nil => cases hx
  | cons y l ih =>
    rw [List.flatMap_cons, List.append_assoc] at hbs
    cases t with
    | zero =>
      obtain rfl : y = x := Option.some.inj hx
      exact leAt_eq pre _ hbs (by omega) hfits
    | succ t =>
      have hrest := ih hx (pre ++ leBytes 4 y) (by rw [hbs, List.append_assoc])
      rwa [List.length_append, length_leBytes,
        show pre.length + 4 + t * 4 = pre.length + (t + 1) * 4 by omega] at hrest

/-! ## Searching a block -/

namespace DataBlock

open BlockItem SSTableReader

/-- **A block that can be read**: its numbers fit their fields, its keys
ascend, and 32 bits are enough for its offsets. -/
structure Readable (b : DataBlock) : Prop where
  fits : ∀ i ∈ b.items, i.Fits
  sorted : b.entries.Pairwise (fun x y => x.1 < y.1)
  size : b.bytes.length < 2 ^ 32

/-- The `t`-th restart is a place to look for a key from: nothing before it
can be the key, and the row from there can be read. -/
def StartsBefore (b : DataBlock) (key : Key) (t : ℕ) : Prop :=
  ∃ pre post, b.items = pre ++ post ∧ b.restarts[t]? = some (rowBytes pre).length
    ∧ Chain [] post ∧ ∀ i ∈ pre, i.key < key

variable {b : DataBlock} {pre post : List BlockItem}

theorem restarts_zero (b : DataBlock) : b.restarts[0]? = some 0 := by
  obtain ⟨items, hne, hchain⟩ := b
  cases items with
  | nil => exact absurd rfl hne
  | cons i is =>
    have hi : i.shared = 0 := Nat.le_zero.mp hchain.1
    simp [restarts, BlockItem.restarts, hi]

theorem restarts_pos (b : DataBlock) : 0 < b.restarts.length :=
  (List.getElem?_eq_some_iff.mp b.restarts_zero).1

/-- The first restart will always do. -/
theorem startsBefore_zero (b : DataBlock) (key : Key) : b.StartsBefore key 0 :=
  ⟨[], b.items, rfl, b.restarts_zero, b.chain, fun i hi => by cases hi⟩

section

variable (hb : b.Readable)
include hb

/-- The number of restarts is at the end of the block. -/
theorem numRestarts_eq : numRestarts b.bytes = b.restarts.length := by
  have hlen := b.length_bytes
  have hsize := hb.size
  refine leAt_eq (rowBytes b.items ++ b.restarts.flatMap (leBytes 4)) [] ?_ ?_ (by omega)
  · rw [bytes, List.append_nil, List.append_assoc]
  · rw [bytes, ← List.append_assoc, List.length_append, length_leBytes, Nat.add_sub_cancel]

/-- A block that was written passes the test. -/
theorem Readable.hasRestarts : HasRestarts b.bytes := by
  have hlen := b.length_bytes
  have hpos := b.restarts_pos
  exact ⟨hb.size, by rw [numRestarts_eq hb]; exact hpos, by rw [numRestarts_eq hb]; omega⟩

/-- The restarts begin behind the entries. -/
theorem restartsOffset_eq : restartsOffset b.bytes = (rowBytes b.items).length := by
  have hadd := hb.hasRestarts.restartsOffset_add
  have hlen := b.length_bytes
  rw [numRestarts_eq hb] at hadd
  omega

theorem Readable.fits_mid {i : BlockItem} (heq : b.items = pre ++ i :: post) : i.Fits :=
  hb.fits i (by rw [heq]; simp)

/-- The offset of an entry of the row, and the entry there. -/
theorem Readable.at {i : BlockItem} (heq : b.items = pre ++ i :: post) :
    i.At b.bytes (rowBytes pre).length := by
  refine (hb.fits_mid heq).at (rowBytes pre) (rowBytes post
    ++ (b.restarts.flatMap (leBytes 4) ++ leBytes 4 b.restarts.length)) ?_ rfl
  rw [bytes, heq, rowBytes_append, rowBytes_cons, List.append_assoc, List.append_assoc]

/-- An entry ends before the restarts. -/
theorem Readable.end_le {i : BlockItem} (heq : b.items = pre ++ i :: post) :
    (rowBytes pre).length + (28 + (i.key.length - i.shared)) ≤ (rowBytes b.items).length := by
  rw [← (hb.fits_mid heq).length_bytes, heq, rowBytes_append, rowBytes_cons, List.length_append,
    List.length_append]
  omega

/-- The restarts are read back where they lie. -/
theorem Readable.leAt_restart {t x : ℕ} (ht : b.restarts[t]? = some x) :
    leAt 4 b.bytes ((rowBytes b.items).length + t * 4) = x := by
  obtain ⟨pre, i, post, heq, -, hx⟩ := exists_of_mem_restarts (List.mem_of_getElem? ht)
  have hend := hb.end_le heq
  have hlen := b.length_bytes
  have hsize := hb.size
  exact leAt_flatMap_leBytes ht (by omega) (rowBytes b.items) (leBytes 4 b.restarts.length) rfl

/-- Keys before an entry of the row are below its own. -/
theorem Readable.lt_of_mem_pre {i : BlockItem} (heq : b.items = pre ++ i :: post) {j : BlockItem}
    (hj : j ∈ pre) : j.key < i.key := by
  have hs := hb.sorted
  rw [entries, heq, List.map_append] at hs
  exact (List.pairwise_append.mp hs).2.2 j.entry (List.mem_map_of_mem hj) i.entry
    (List.mem_map_of_mem List.mem_cons_self)

/-- **The binary search** finds the key at a restart, or a restart to look for
it from. -/
theorem searchRestarts_spec (key : Key) (out : VLogPointer) :
    ∀ n left hi target, hi - left ≤ n → hi ≤ b.restarts.length → b.StartsBefore key target →
      (∃ ptr, searchRestarts b.bytes (rowBytes b.items).length key out left hi target
          = .ok (.inl ptr) ∧ (key, ptr) ∈ b.entries)
        ∨ ∃ t, searchRestarts b.bytes (rowBytes b.items).length key out left hi target
          = .ok (.inr t) ∧ b.StartsBefore key t := by
  have hlen := b.length_bytes
  have hsize := hb.size
  intro n
  induction n with
  | zero =>
    intro left hi target hn _ htarget
    rw [searchRestarts, if_neg (by omega)]
    exact Or.inr ⟨target, rfl, htarget⟩
  | succ n ih =>
    intro left hi target hn hhi htarget
    by_cases hlt : left < hi
    case neg =>
      rw [searchRestarts, if_neg hlt]
      exact Or.inr ⟨target, rfl, htarget⟩
    rw [searchRestarts, if_pos hlt]
    dsimp only
    obtain ⟨mid, hmid⟩ : ∃ mid, mid = left + (hi - 1 - left) / 2 := ⟨_, rfl⟩
    rw [← hmid]
    have hlow : left ≤ mid := by omega
    have hhigh : mid < hi := by omega
    obtain ⟨x, hx⟩ : ∃ x, b.restarts[mid]? = some x :=
      ⟨_, List.getElem?_eq_getElem (lt_of_lt_of_le hhigh hhi)⟩
    obtain ⟨pre, i, post, heq, hi0, hpre⟩ := exists_of_mem_restarts (List.mem_of_getElem? hx)
    rw [Nat.zero_add] at hpre
    have hat := hb.at heq
    have hend := hb.end_le heq
    rw [hi0, Nat.sub_zero] at hend
    have hrest := hat.rest
    have hptr := hat.ptr
    have hun := hat.unshared
    rw [hi0, Nat.sub_zero] at hrest hptr hun
    rw [List.drop_zero] at hrest
    rw [if_neg (by rw [u32_of_lt] <;> omega), if_neg (by unfold inBounds; omega),
      hb.leAt_restart hx, hpre, if_neg (by rw [u32_of_lt] <;> omega),
      if_neg (by unfold inBounds; omega), hun, hat.valLen,
      if_neg (by rw [u32_of_lt] <;> omega), if_neg (by unfold inBounds; omega)]
    have hview : slice b.bytes ((rowBytes pre).length + 12) (min i.key.length key.length)
        = i.key.take (min i.key.length key.length) := by
      rw [slice_min, hrest]
    rw [hview, compareView_take]
    rcases lt_trichotomy i.key key with hk | hk | hk
    · rw [if_pos hk]
      refine ih (mid + 1) hi mid (by omega) hhi ⟨pre, i :: post, heq, by rw [hx, hpre], ?_, ?_⟩
      · have hchain := b.chain
        rw [heq] at hchain
        exact hchain.right.of_shared_eq_zero hi0 []
      · exact fun j hj => lt_trans (hb.lt_of_mem_pre heq hj) hk
    · rw [if_neg (by rw [hk]; exact lt_irrefl _), if_neg (by rw [hk]; exact lt_irrefl _)]
      dsimp only
      rw [if_pos rfl, if_pos (by unfold inBounds; omega), hptr]
      refine Or.inl ⟨i.ptr, rfl, ?_⟩
      rw [entries, heq, ← hk]
      exact List.mem_map_of_mem (List.mem_append_right pre List.mem_cons_self)
    · rw [if_neg (lt_asymm hk), if_pos hk]
      exact ih left mid target (by omega) (by omega) htarget

end

/-- A key that can be told from the one before is put together again. -/
theorem resize_append {i : BlockItem} (h1 : i.shared ≤ prev.length)
    (h3 : i.key.take i.shared = prev.take i.shared) :
    resize prev i.shared ++ i.key.drop i.shared = i.key := by
  rw [resize, Nat.sub_eq_zero_of_le h1, List.replicate_zero, List.append_nil, ← h3,
    List.take_append_drop]

/-- **The linear scan** of the rest of a row finds the key if it is there. -/
theorem scanBlock_spec (hb : b.Readable) (key : Key) (heq : b.items = pre ++ post)
    (hchain : Chain prev post) :
    ∃ o, scanBlock b.bytes (rowBytes b.items).length key (rowBytes pre).length prev = .ok o
      ∧ ∀ ptr, o = some ptr ↔ (key, ptr) ∈ post.map entry := by
  induction post generalizing pre prev with
  | nil =>
    rw [List.append_nil] at heq
    rw [scanBlock, if_neg (by rw [heq]; exact lt_irrefl _)]
    exact ⟨none, rfl, by simp⟩
  | cons i post ih =>
    obtain ⟨h1, -, h3, h4⟩ := hchain
    have hat := hb.at heq
    have hend := hb.end_le heq
    have hlen := b.length_bytes
    have hsorted : ((i :: post).map entry).Pairwise (fun x y => x.1 < y.1) := by
      have hs := hb.sorted
      rw [entries, heq, List.map_append] at hs
      exact (List.pairwise_append.mp hs).2.1
    rw [scanBlock, if_pos (by omega), if_neg (by omega), if_neg (by unfold inBounds; omega)]
    dsimp only
    rw [hat.shared, hat.unshared, hat.valLen, if_neg (by omega),
      if_neg (by unfold inBounds; omega), hat.rest, resize_append h1 h3, if_pos rfl, hat.ptr]
    have hlater : ∀ ptr, i.key ≥ key → (key, ptr) ∉ post.map entry := by
      intro ptr hge hmem
      exact absurd ((List.pairwise_cons.mp hsorted).1 _ hmem) (not_lt.mpr hge)
    rcases lt_trichotomy i.key key with hk | hk | hk
    · rw [if_neg hk.ne, if_neg (lt_asymm hk)]
      have heq' : b.items = (pre ++ [i]) ++ post := by
        rw [heq, List.append_assoc]
        rfl
      obtain ⟨o, ho, hmem⟩ := ih heq' h4
      rw [rowBytes_append, List.length_append, rowBytes_cons, rowBytes_nil, List.append_nil,
        (hb.fits_mid heq).length_bytes] at ho
      refine ⟨o, ?_, fun ptr => ?_⟩
      · rw [← ho]
        congr 1
        omega
      · rw [hmem ptr, List.map_cons, List.mem_cons]
        refine ⟨Or.inr, fun h => h.resolve_left (fun hc => ?_)⟩
        exact hk.ne (congrArg Prod.fst hc).symm
    · rw [if_pos hk]
      refine ⟨_, rfl, fun ptr => ?_⟩
      rw [List.map_cons, List.mem_cons]
      constructor
      · intro h
        cases h
        exact Or.inl (by rw [← hk]; rfl)
      · intro h
        have heq' := h.resolve_right (hlater ptr hk.ge)
        exact congrArg some (congrArg Prod.snd heq').symm
    · rw [if_neg hk.ne', if_pos hk]
      refine ⟨none, rfl, fun ptr => iff_of_false (Option.some_ne_none ptr).symm (fun h => ?_)⟩
      rw [List.map_cons, List.mem_cons] at h
      have heq' := h.resolve_right (hlater ptr hk.le)
      exact absurd (congrArg Prod.fst heq').symm hk.ne'

/-- **A block answers with what it holds.** -/
theorem getInBlock_spec (hb : b.Readable) (key : Key) (out : VLogPointer) :
    ∃ o, getInBlock b.bytes key out = .ok o ∧ ∀ ptr, o = some ptr ↔ (key, ptr) ∈ b.entries := by
  have hlen := b.length_bytes
  have hsize := hb.size
  have hpos := b.restarts_pos
  unfold getInBlock
  dsimp only
  rw [if_neg (by omega), numRestarts_eq hb, if_neg (by omega), restartsOffset_eq hb]
  rcases searchRestarts_spec hb key out _ 0 b.restarts.length 0 le_rfl le_rfl
    (b.startsBefore_zero key) with ⟨ptr, hs, hmem⟩ | ⟨t, hs, pre, post, heq, ht, hchain, hpre⟩
  · rw [hs]
    refine ⟨some ptr, rfl, fun ptr' => ?_⟩
    let m : OrdMap Key VLogPointer := ⟨b.entries, hb.sorted⟩
    rw [← m.mem_entries_iff.mp hmem]
    exact m.mem_entries_iff.symm
  · rw [hs]
    have htlt : t < b.restarts.length := (List.getElem?_eq_some_iff.mp ht).1
    have hle : (rowBytes pre).length ≤ (rowBytes b.items).length := by
      rw [heq, rowBytes_append, List.length_append]
      omega
    dsimp only
    rw [if_neg (by rw [u32_of_lt] <;> omega), if_neg (by unfold inBounds; omega),
      hb.leAt_restart ht, if_neg (by omega)]
    obtain ⟨o, ho, hmem⟩ := scanBlock_spec hb key heq hchain
    refine ⟨o, ho, fun ptr => ?_⟩
    -- the entries before the restart are below the key
    rw [hmem ptr, entries, heq, List.map_append, List.mem_append]
    refine ⟨Or.inr, fun h => h.resolve_left (fun hc => ?_)⟩
    obtain ⟨i, hi, hie⟩ := List.mem_map.mp hc
    exact (hpre i hi).ne (congrArg Prod.fst hie)

end DataBlock

/-! ## The index -/

variable {e : IndexEntry}

namespace DataBlock

open BlockItem

variable {b : DataBlock}

/-- The greatest key of a block is that of its last entry. -/
theorem lastKey_eq_getLast (prev : Key) (h : is ≠ []) : lastKey prev is = (is.getLast h).key := by
  induction is generalizing prev with
  | nil => exact absurd rfl h
  | cons i is ih =>
    cases is with
    | nil => rfl
    | cons j js => exact ih i.key (List.cons_ne_nil j js)

theorem getLast?_entries (b : DataBlock) : b.entries.getLast?.map Prod.fst = some b.maxKey := by
  rw [entries, List.getLast?_map, List.getLast?_eq_getLast_of_ne_nil b.nonempty, maxKey,
    lastKey_eq_getLast [] b.nonempty]
  rfl

theorem exists_mem_maxKey (b : DataBlock) : ∃ ptr, (b.maxKey, ptr) ∈ b.entries := by
  refine ⟨(b.items.getLast b.nonempty).ptr, ?_⟩
  rw [maxKey, lastKey_eq_getLast [] b.nonempty]
  exact List.mem_map_of_mem (List.getLast_mem b.nonempty)

theorem le_maxKey (hs : b.entries.Pairwise (fun x y => x.1 < y.1)) {e : Key × VLogPointer}
    (he : e ∈ b.entries) : e.1 ≤ b.maxKey := by
  obtain ⟨i, hi, rfl⟩ := List.mem_map.mp he
  rw [maxKey, lastKey_eq_getLast [] b.nonempty]
  have hsplit := List.dropLast_append_getLast b.nonempty
  rw [← hsplit] at hi
  rcases List.mem_append.mp hi with hi | hi
  · rw [entries, ← hsplit, List.map_append] at hs
    exact ((List.pairwise_append.mp hs).2.2 i.entry (List.mem_map_of_mem hi) _
      (List.mem_map_of_mem (List.mem_singleton.mpr rfl))).le
  · rw [List.mem_singleton.mp hi]
    exact le_rfl

/-- An entry of the index is that of a block. -/
theorem exists_of_mem_indexFrom {blocks : List DataBlock} (h : e ∈ indexFrom off blocks) :
    ∃ pre b post, blocks = pre ++ b :: post
      ∧ e = ⟨b.maxKey, off + (pre.flatMap bytes).length, b.bytes.length⟩ := by
  induction blocks generalizing off with
  | nil => cases h
  | cons b blocks ih =>
    rcases List.mem_cons.mp h with rfl | h
    · exact ⟨[], b, blocks, rfl, rfl⟩
    · obtain ⟨pre, c, post, rfl, rfl⟩ := ih h
      refine ⟨b :: pre, c, post, rfl, ?_⟩
      rw [List.flatMap_cons, List.length_append, Nat.add_assoc]

/-- The index of blocks with keys that fit has whole keys. -/
theorem cut_of_mem_indexFrom {blocks : List DataBlock}
    (hkeys : ∀ e ∈ blocks.flatMap entries, e.1.length < 2 ^ 32) (h : e ∈ indexFrom off blocks) :
    e.cut = e := by
  obtain ⟨pre, b, post, heq, rfl⟩ := exists_of_mem_indexFrom h
  obtain ⟨ptr, hmem⟩ := b.exists_mem_maxKey
  have hb : b ∈ blocks := by
    rw [heq]
    simp
  exact IndexEntry.cut_of_lt (hkeys _ (List.mem_flatMap.mpr ⟨b, hb, hmem⟩))

/-- **What the index gives for a key**: the first block whose last key is not
below it. -/
theorem find?_indexFrom (key : Key) (off : ℕ) (blocks : List DataBlock) :
    (∃ pre b post, blocks = pre ++ b :: post ∧ (∀ c ∈ pre, c.maxKey < key) ∧ key ≤ b.maxKey
        ∧ (indexFrom off blocks).find? (fun e => !decide (e.maxKey < key))
          = some ⟨b.maxKey, off + (pre.flatMap bytes).length, b.bytes.length⟩)
      ∨ (indexFrom off blocks).find? (fun e => !decide (e.maxKey < key)) = none
        ∧ ∀ c ∈ blocks, c.maxKey < key := by
  induction blocks generalizing off with
  | nil => exact Or.inr ⟨rfl, fun c hc => by cases hc⟩
  | cons b blocks ih =>
    by_cases hb : b.maxKey < key
    · have hskip : (indexFrom off (b :: blocks)).find? (fun e => !decide (e.maxKey < key))
          = (indexFrom (off + b.bytes.length) blocks).find? (fun e => !decide (e.maxKey < key)) :=
        List.find?_cons_of_neg (by simpa using hb)
      rw [hskip]
      rcases ih (off + b.bytes.length) with ⟨pre, c, post, rfl, hpre, hc, hf⟩ | ⟨hf, hall⟩
      · refine Or.inl ⟨b :: pre, c, post, rfl, ?_, hc, ?_⟩
        · exact List.forall_mem_cons.mpr ⟨hb, hpre⟩
        · rw [hf, List.flatMap_cons, List.length_append, Nat.add_assoc]
      · exact Or.inr ⟨hf, List.forall_mem_cons.mpr ⟨hb, hall⟩⟩
    · refine Or.inl ⟨[], b, blocks, rfl, List.forall_mem_nil _, not_lt.mp hb, ?_⟩
      exact List.find?_cons_of_pos (by simpa using hb)

end DataBlock

/-! ## A written file -/

namespace SSTableWriter

open DataBlock

/-- **A file as it is written**: blocks, index, filter and footer, with 32 bits enough
for its offsets. -/
structure FileImage where
  blocks : List DataBlock
  bloom : BloomFilter
  nonempty : blocks ≠ []
  size : (payload blocks bloom ++ footer blocks bloom).length < 2 ^ 32

/-- **A file that can be read back**: its keys ascend, and its entries fit the
format. -/
structure Image extends FileImage where
  sorted : (blocks.flatMap entries).Pairwise (fun x y => x.1 < y.1)
  fits : ∀ e ∈ blocks.flatMap entries, EntryFits e

theorem indexBytes_cut (index : List IndexEntry) :
    indexBytes (index.map IndexEntry.cut) = indexBytes index := by
  rw [indexBytes, indexBytes, List.flatMap_map]
  exact List.flatMap_congr (fun e _ => by rw [e.pieces_cut])

namespace FileImage

/-- The bytes of the file. -/
def file (img : FileImage) : List Byte :=
  payload img.blocks img.bloom ++ footer img.blocks img.bloom

variable {img : FileImage}

theorem length_footer (blocks : List DataBlock) (bloom : BloomFilter) :
    (footer blocks bloom).length = 16 := by
  simp [footer]

theorem length_file (img : FileImage) :
    img.file.length = (payload img.blocks img.bloom).length + 16 := by
  rw [file, List.length_append, length_footer]

theorem payload_lt (img : FileImage) : (payload img.blocks img.bloom).length + 16 < 2 ^ 32 := by
  rw [← img.length_file]
  exact img.size

/-- The parts of the payload, one after the other. -/
theorem length_payload (blocks : List DataBlock) (bloom : BloomFilter) :
    (payload blocks bloom).length = (blocks.flatMap bytes).length
      + (indexBytes (indexFrom 0 blocks)).length + 4 + bloom.bits.length := by
  simp only [payload, List.length_append, length_leBytes]
  omega

/-- What follows the blocks. -/
def tail (img : FileImage) : List Byte :=
  indexBytes (indexFrom 0 img.blocks) ++ (leBytes 4 img.bloom.numHashes ++ (img.bloom.bits
    ++ footer img.blocks img.bloom))

theorem file_eq_data (img : FileImage) : img.file = img.blocks.flatMap bytes ++ img.tail := by
  simp only [file, payload, tail, List.append_assoc]

/-- A block is read where the index says. -/
theorem pread_block {pre post : List DataBlock} {b : DataBlock}
    (heq : img.blocks = pre ++ b :: post) :
    VLog.pread img.file b.bytes.length (0 + (pre.flatMap bytes).length) = some b.bytes := by
  have hdata : img.blocks.flatMap bytes
      = pre.flatMap bytes ++ (b.bytes ++ post.flatMap bytes) := by
    rw [heq, List.flatMap_append, List.flatMap_cons]
  have hfile := img.file_eq_data
  rw [hdata, List.append_assoc, List.append_assoc] at hfile
  rw [Nat.zero_add, VLog.pread_of_le (by rw [hfile]; simp only [List.length_append]; omega)]
  exact congrArg some (slice_eq _ _ _ hfile rfl rfl)

/-- A block and what is before it have less than 2^32 bytes. -/
theorem block_lt {pre post : List DataBlock} {b : DataBlock}
    (heq : img.blocks = pre ++ b :: post) :
    (pre.flatMap bytes).length + b.bytes.length < 2 ^ 32 := by
  have hsize := img.payload_lt
  rw [length_payload, heq, List.flatMap_append, List.flatMap_cons, List.length_append,
    List.length_append] at hsize
  omega

/-- The numbers of the index fit their fields, once its keys are cut. -/
theorem index_fits (he : e ∈ (indexFrom 0 img.blocks).map IndexEntry.cut) :
    e.maxKey.length < 2 ^ 32 ∧ e.offset < 2 ^ 32 ∧ e.length < 2 ^ 32 := by
  obtain ⟨e', he', rfl⟩ := List.mem_map.mp he
  obtain ⟨pre, b, post, heq, rfl⟩ := exists_of_mem_indexFrom he'
  have hlt := block_lt heq
  refine ⟨?_, ?_, ?_⟩
  · show (cutKey b.maxKey).length < 2 ^ 32
    rw [length_cutKey]
    exact u32_lt _
  · show 0 + (pre.flatMap bytes).length < 2 ^ 32
    omega
  · show b.bytes.length < 2 ^ 32
    omega

end FileImage

namespace Image

/-- The blocks of a file can be read. -/
theorem readable (img : Image) {b : DataBlock} (hb : b ∈ img.blocks) : b.Readable := by
  obtain ⟨pre, post, heq⟩ := List.append_of_mem hb
  have hlt := FileImage.block_lt heq
  refine ⟨fun i hi => ⟨b.chain.shared_le hi, ?_⟩, ?_, by omega⟩
  · exact img.fits i.entry (List.mem_flatMap.mpr ⟨b, hb, List.mem_map_of_mem hi⟩)
  · have hs := img.sorted
    rw [heq, List.flatMap_append, List.flatMap_cons] at hs
    exact (List.pairwise_append.mp (List.pairwise_append.mp hs).2.1).1

/-- No key of the index is cut. -/
theorem cut_index (img : Image) :
    (indexFrom 0 img.blocks).map IndexEntry.cut = indexFrom 0 img.blocks :=
  (List.map_congr_left (fun _ he =>
    cut_of_mem_indexFrom (fun e he' => (img.fits e he').1) he)).trans (List.map_id _)

end Image

end SSTableWriter

namespace SSTableReader

open SSTableWriter DataBlock

/-- Chunks of 4096 bytes give the checksum of the whole. -/
theorem checksumLoop_eq (computed : BitVec 32) (data : List Byte) :
    checksumLoop computed data = computeCrc32Incremental computed data := by
  fun_induction checksumLoop computed data with
  | case1 computed =>
    unfold computeCrc32Incremental crcUpdate
    rw [List.foldl_nil, BitVec.xor_assoc, BitVec.xor_self, BitVec.xor_zero]
  | case2 computed data hne ih =>
    rw [ih, ← computeCrc32Incremental_append, List.take_append_drop]

/-- **An entry of the index is laid out at an offset.** -/
structure EntryAt (file : List Byte) (off : ℕ) (e : IndexEntry) : Prop where
  fits : e.maxKey.length < 2 ^ 32 ∧ e.offset < 2 ^ 32 ∧ e.length < 2 ^ 32
  bytes : e.pieces.flatten <+: file.drop off

variable {file : List Byte}

theorem EntryAt.pieces (h : EntryAt file off e) :
    e.pieces = [leBytes 4 e.maxKey.length, e.maxKey, leBytes 4 e.offset, leBytes 4 e.length] := by
  rw [IndexEntry.pieces, cutKey_of_lt h.fits.1]

theorem length_flatten_pieces (e : IndexEntry) :
    e.pieces.flatten.length = 4 + u32 e.maxKey.length + 8 := by
  simp [IndexEntry.pieces]
  omega

/-- What is laid out is read back. -/
theorem EntryAt.reads (h : EntryAt file off e) :
    inBounds file (off + 4) (e.maxKey.length + 8) ∧ leAt 4 file off = e.maxKey.length
      ∧ slice file (off + 4) e.maxKey.length = e.maxKey
      ∧ leAt 4 file (off + 4 + e.maxKey.length) = e.offset
      ∧ leAt 4 file (off + 4 + e.maxKey.length + 4) = e.length := by
  obtain ⟨hkey, hoffset, hlength⟩ := h.fits
  obtain ⟨post, hpost⟩ := h.bytes
  have hlen := congrArg List.length hpost
  rw [List.length_append, length_flatten_pieces, u32_of_lt hkey, List.length_drop] at hlen
  have hoff : off = (file.take off).length := by
    rw [List.length_take]
    omega
  have hfile : file = file.take off ++ (leBytes 4 e.maxKey.length ++ (e.maxKey
      ++ (leBytes 4 e.offset ++ (leBytes 4 e.length ++ post)))) := by
    have hflat : e.pieces.flatten ++ post = leBytes 4 e.maxKey.length ++ (e.maxKey
        ++ (leBytes 4 e.offset ++ (leBytes 4 e.length ++ post))) := by
      simp [h.pieces]
    rw [← hflat, hpost, List.take_append_drop]
  refine ⟨by unfold inBounds; omega, leAt_eq _ _ hfile hoff (by simpa using hkey), ?_, ?_, ?_⟩
  · exact slice_eq (file.take off ++ leBytes 4 e.maxKey.length) _ _
      (by rw [List.append_assoc]; exact hfile) (by simp [← hoff]) rfl
  · exact leAt_eq (file.take off ++ (leBytes 4 e.maxKey.length ++ e.maxKey)) _
      (by simp only [List.append_assoc]; exact hfile) (by simp [← hoff]; omega)
      (by simpa using hoffset)
  · exact leAt_eq (file.take off ++ (leBytes 4 e.maxKey.length ++ (e.maxKey ++ leBytes 4 e.offset)))
      _ (by simp only [List.append_assoc]; exact hfile) (by simp [← hoff]; omega)
      (by simpa using hlength)

theorem EntryAt.unique {e e' : IndexEntry} (h : EntryAt file off e) (h' : EntryAt file off e') :
    e = e' := by
  obtain ⟨-, hks, hkey, hoffset, hlength⟩ := h.reads
  obtain ⟨-, hks', hkey', hoffset', hlength'⟩ := h'.reads
  have hlen : e.maxKey.length = e'.maxKey.length := hks.symm.trans hks'
  rw [hlen] at hkey hoffset hlength
  cases e
  cases e'
  dsimp only at *
  rw [← hkey, ← hoffset, ← hlength, hkey', hoffset', hlength']

/-- What is read is laid out. -/
theorem entryAt_of_inBounds (h : inBounds file (off + 4) (leAt 4 file off + 8)) :
    EntryAt file off ⟨slice file (off + 4) (leAt 4 file off),
      leAt 4 file (off + 4 + leAt 4 file off), leAt 4 file (off + 4 + leAt 4 file off + 4)⟩ := by
  unfold inBounds at h
  have hlt : ∀ p, leAt 4 file p < 2 ^ 32 := by
    intro p
    have hlen : (slice file p 4).length ≤ 4 := List.length_take_le _ _
    exact lt_of_lt_of_le (leNat_lt _) (Nat.pow_le_pow_right (by decide : 256 > 0) hlen)
  generalize hks : leAt 4 file off = ks at *
  have hkey : (slice file (off + 4) ks).length = ks := by
    rw [slice, List.length_take, List.length_drop]
    omega
  refine ⟨⟨by rw [hkey, ← hks]; exact hlt _, hlt _, hlt _⟩, ?_⟩
  have hflat : IndexEntry.pieces ⟨slice file (off + 4) ks, leAt 4 file (off + 4 + ks),
      leAt 4 file (off + 4 + ks + 4)⟩ = [slice file off 4, slice file (off + 4) ks,
        slice file (off + 4 + ks) 4, slice file (off + 4 + ks + 4) 4] := by
    rw [IndexEntry.pieces, cutKey_of_lt (by rw [hkey, ← hks]; exact hlt _)]
    dsimp only
    rw [hkey, ← hks, leBytes_leAt (by omega), leBytes_leAt (by omega), leBytes_leAt (by omega)]
  simp only [hflat, List.flatten_cons, List.flatten_nil, List.append_nil, slice_append_slice]
  exact List.take_prefix _ _

/-- **An index is laid out from an offset on**, up to the first entry that reaches the filter. -/
def IndexAt (file : List Byte) (bloomOffset : ℕ) : ℕ → List IndexEntry → Prop
  | off, [] => bloomOffset ≤ off
  | off, e :: index => off < bloomOffset ∧ EntryAt file off e
    ∧ IndexAt file bloomOffset (off + 4 + e.maxKey.length + 8) index

/-- **A round of the loop** reads the entry that is there, or past the file. -/
theorem parseIndex_round (file : List Byte) {bloomOffset off : ℕ} (hlt : off < bloomOffset) :
    (parseIndex file bloomOffset off = .error .outOfBounds ∧ ∀ e, ¬ EntryAt file off e)
      ∨ ∃ e, EntryAt file off e ∧ parseIndex file bloomOffset off
        = (parseIndex file bloomOffset (off + 4 + e.maxKey.length + 8)).map (e :: ·) := by
  by_cases hin : inBounds file (off + 4) (leAt 4 file off + 8)
  · have hin4 : inBounds file off 4 := by
      unfold inBounds at hin ⊢
      omega
    have hat := entryAt_of_inBounds hin
    refine Or.inr ⟨_, hat, ?_⟩
    have hlen : (slice file (off + 4) (leAt 4 file off)).length = leAt 4 file off :=
      hat.reads.2.1.symm
    rw [parseIndex, if_pos hlt, if_neg (not_not.mpr hin4)]
    dsimp only
    rw [if_neg (not_not.mpr hin), hlen]
    cases parseIndex file bloomOffset (off + 4 + leAt 4 file off + 8) <;> rfl
  · refine Or.inl ⟨?_, fun e he => ?_⟩
    · rw [parseIndex, if_pos hlt]
      dsimp only
      rw [if_pos hin, ite_self]
    · obtain ⟨hin', hks, -⟩ := he.reads
      rw [← hks] at hin'
      exact hin hin'

/-- **The loop reads the index that is laid out**, and no other. -/
theorem parseIndex_eq_ok {bloomOffset off : ℕ} {index : List IndexEntry} :
    parseIndex file bloomOffset off = .ok index ↔ IndexAt file bloomOffset off index := by
  induction index generalizing off with
  | nil =>
    rw [IndexAt]
    by_cases hlt : off < bloomOffset
    · refine iff_of_false ?_ (not_le.mpr hlt)
      rcases parseIndex_round file hlt with ⟨herr, -⟩ | ⟨e, -, hmap⟩
      · rw [herr]
        nofun
      · rw [hmap]
        cases parseIndex file bloomOffset (off + 4 + e.maxKey.length + 8) <;> nofun
    · rw [parseIndex, if_neg hlt]
      exact iff_of_true rfl (not_lt.mp hlt)
  | cons e index ih =>
    rw [IndexAt, ← ih]
    by_cases hlt : off < bloomOffset
    · rcases parseIndex_round file hlt with ⟨herr, hno⟩ | ⟨e', hat', hmap⟩
      · rw [herr]
        exact iff_of_false nofun (fun h => hno e h.2.1)
      · rw [hmap]
        constructor
        · intro h
          cases hrest : parseIndex file bloomOffset (off + 4 + e'.maxKey.length + 8) with
          | error err =>
            rw [hrest] at h
            cases h
          | ok rest =>
            rw [hrest] at h
            cases h
            exact ⟨hlt, hat', hrest⟩
        · rintro ⟨-, hat, hrest⟩
          obtain rfl := hat.unique hat'
          rw [hrest]
          rfl
    · rw [parseIndex, if_neg hlt]
      exact iff_of_false nofun (fun h => hlt h.1)

/-- The loop throws nothing. -/
theorem parseIndex_eq_error {bloomOffset off : ℕ} {err : TableError}
    (h : parseIndex file bloomOffset off = .error err) : err = .outOfBounds := by
  induction hn : bloomOffset - off using Nat.strong_induction_on generalizing off with
  | _ n ih =>
    by_cases hlt : off < bloomOffset
    · rcases parseIndex_round file hlt with ⟨herr, -⟩ | ⟨e, -, hmap⟩
      · exact Except.error.inj (h.symm.trans herr)
      · cases hrest : parseIndex file bloomOffset (off + 4 + e.maxKey.length + 8) with
        | error err' =>
          rw [hmap, hrest] at h
          cases h
          exact ih _ (by omega) hrest rfl
        | ok rest =>
          rw [hmap, hrest] at h
          cases h
    · rw [parseIndex, if_neg hlt] at h
      cases h

/-- **The index is read back.** -/
theorem parseIndex_eq {index : List IndexEntry}
    (hfits : ∀ e ∈ index, e.maxKey.length < 2 ^ 32 ∧ e.offset < 2 ^ 32 ∧ e.length < 2 ^ 32)
    (pre post : List Byte) {off bloomOffset : ℕ} (hfile : file = pre ++ (indexBytes index ++ post))
    (hoff : off = pre.length) (hbloom : bloomOffset = off + (indexBytes index).length) :
    parseIndex file bloomOffset off = .ok index := by
  rw [parseIndex_eq_ok]
  induction index generalizing pre off with
  | nil => exact hbloom.le
  | cons e index ih =>
    have hbytes : indexBytes (e :: index) = e.pieces.flatten ++ indexBytes index := rfl
    have hlen := length_flatten_pieces e
    rw [u32_of_lt (hfits e List.mem_cons_self).1] at hlen
    rw [hbytes, List.length_append] at hbloom
    rw [hbytes, List.append_assoc] at hfile
    refine ⟨by omega, ⟨hfits e List.mem_cons_self, ?_⟩, ?_⟩
    · rw [hfile, hoff, List.drop_left]
      exact List.prefix_append _ _
    · exact ih (fun e' he' => hfits e' (List.mem_cons_of_mem e he')) (pre ++ e.pieces.flatten)
        (by rw [hfile, List.append_assoc]) (by rw [List.length_append]; omega) (by omega)

/-- The least key is read back, as far as it was written. -/
theorem readMinKey_eq {img : FileImage} {b : DataBlock} {rest : List DataBlock}
    (hblocks : img.blocks = b :: rest) {i : BlockItem} (hitems : b.items = i :: is) (maxKey : Key)
    (length : ℕ) : readMinKey img.file ⟨maxKey, 0, length⟩ = .ok (cutKey i.key) := by
  have hi0 : i.shared = 0 := by
    have hchain := b.chain
    rw [hitems] at hchain
    exact Nat.le_zero.mp hchain.1
  obtain ⟨post, hfile⟩ : ∃ post, img.file = leBytes 4 0 ++ (leBytes 4 i.key.length
      ++ (leBytes 4 16 ++ (cutKey i.key ++ (i.ptr.bytes ++ post)))) := by
    rw [img.file_eq_data, hblocks, List.flatMap_cons, DataBlock.bytes, hitems,
      BlockItem.rowBytes_cons, BlockItem.bytes, BlockBuf.entryBytes, hi0, Nat.sub_zero,
      List.drop_zero]
    simp only [List.append_assoc]
    exact ⟨_, rfl⟩
  have hlen := congrArg List.length hfile
  simp only [List.length_append, length_leBytes, length_cutKey, VLogPointer.length_bytes] at hlen
  have hpow : (256 : ℕ) ^ 4 = 2 ^ 32 := by norm_num
  have hks : leAt 4 img.file 4 = u32 i.key.length := by
    rw [leAt_eq_mod (leBytes 4 0) _ hfile (length_leBytes 4 0).symm, hpow]
    rfl
  have hkey : slice img.file 12 (u32 i.key.length) = cutKey i.key :=
    slice_eq (leBytes 4 0 ++ (leBytes 4 i.key.length ++ leBytes 4 16)) _ (i.ptr.bytes ++ post)
      (by simp only [hfile, List.append_assoc]) (by simp) (length_cutKey _).symm
  unfold readMinKey
  dsimp only
  rw [if_neg (by unfold inBounds; omega), Nat.zero_add, Nat.zero_add, hks,
    if_neg (by unfold inBounds; omega), hkey]

/-- The footer of a file of any size, each number cut to its 32 bits. -/
theorem footer_reads (blocks : List DataBlock) (bloom : BloomFilter) :
    let file := payload blocks bloom ++ footer blocks bloom
    let n := (payload blocks bloom).length
    let indexOffset := (blocks.flatMap bytes).length
    leAt 4 file n = u32 indexOffset
      ∧ leAt 4 file (n + 4) = u32 (indexOffset + (indexBytes (indexFrom 0 blocks)).length)
      ∧ leAt 4 file (n + 8) = u32 (4 + bloom.bits.length)
      ∧ leAt 4 file (n + 12) = (computeCrc32 (payload blocks bloom)).toNat := by
  have hpow : 256 ^ 4 = 2 ^ 32 := by norm_num
  simp only [u32, ← hpow, footer]
  generalize (blocks.flatMap bytes).length = a
  generalize (indexBytes (indexFrom 0 blocks)).length = b
  generalize 4 + bloom.bits.length = c
  generalize hcrc : (computeCrc32 (payload blocks bloom)).toNat = d
  have hd : d < 256 ^ 4 := by
    rw [← hcrc, hpow]
    exact BitVec.isLt _
  refine ⟨leAt_eq_mod _ _ rfl rfl, ?_, ?_, ?_⟩
  · exact leAt_eq_mod (payload blocks bloom ++ leBytes 4 a) _ (by rw [List.append_assoc])
      (by simp)
  · exact leAt_eq_mod (payload blocks bloom ++ (leBytes 4 a ++ leBytes 4 (a + b))) (leBytes 4 d)
      (by simp only [List.append_assoc]) (by simp)
  · exact leAt_eq (payload blocks bloom ++ (leBytes 4 a ++ (leBytes 4 (a + b) ++ leBytes 4 c))) []
      (by simp only [List.append_assoc, List.append_nil]) (by simp) hd

/-- The footer is read back. -/
theorem footer_fields (img : FileImage) :
    let n := (payload img.blocks img.bloom).length
    leAt 4 img.file n = (img.blocks.flatMap bytes).length
      ∧ leAt 4 img.file (n + 4)
        = (img.blocks.flatMap bytes).length + (indexBytes (indexFrom 0 img.blocks)).length
      ∧ leAt 4 img.file (n + 12) = (computeCrc32 (payload img.blocks img.bloom)).toNat := by
  have hsize := img.payload_lt
  rw [FileImage.length_payload] at hsize
  obtain ⟨hindex, hbloom, -, hsum⟩ := footer_reads img.blocks img.bloom
  rw [u32_of_lt (by omega)] at hindex hbloom
  exact ⟨hindex, hbloom, hsum⟩

/-- The index of a written file is read back from where the footer says, its keys cut. -/
theorem parseIndex_file (img : FileImage) :
    parseIndex img.file
      ((img.blocks.flatMap bytes).length + (indexBytes (indexFrom 0 img.blocks)).length)
      (img.blocks.flatMap bytes).length = .ok ((indexFrom 0 img.blocks).map IndexEntry.cut) := by
  have hdata := img.file_eq_data
  rw [FileImage.tail, ← indexBytes_cut] at hdata
  exact parseIndex_eq (fun _ he => FileImage.index_fits he) (img.blocks.flatMap bytes) _ hdata rfl
    (by rw [indexBytes_cut])

/-- The first block of a written file is at its start, and its least key is read
back from there. -/
theorem readMinKey_file (img : FileImage) :
    ∃ e rest minKey, (indexFrom 0 img.blocks).map IndexEntry.cut = e :: rest
      ∧ readMinKey img.file e = .ok minKey
      ∧ (img.blocks.flatMap entries).head?.map (cutKey ∘ Prod.fst) = some minKey := by
  obtain ⟨b, rest, hblocks⟩ := List.exists_cons_of_ne_nil img.nonempty
  obtain ⟨i, is, hitems⟩ := List.exists_cons_of_ne_nil b.nonempty
  refine ⟨⟨cutKey b.maxKey, 0, b.bytes.length⟩,
    (indexFrom (0 + b.bytes.length) rest).map IndexEntry.cut, cutKey i.key, ?_,
    readMinKey_eq hblocks hitems _ _, ?_⟩
  · rw [hblocks, indexFrom]
    rfl
  · rw [hblocks, List.flatMap_cons, entries, hitems]
    rfl

/-- **A written file is accepted**, and what is kept of it is its index and its
first and last keys, each cut to its size in 32 bits. -/
theorem load_file (img : FileImage) :
    ∃ r, load img.file = .ok (some r) ∧ r.file = img.file
      ∧ r.index = (indexFrom 0 img.blocks).map IndexEntry.cut
      ∧ (img.blocks.flatMap entries).head?.map (cutKey ∘ Prod.fst) = some r.minKey
      ∧ (img.blocks.flatMap entries).getLast?.map (cutKey ∘ Prod.fst) = some r.maxKey := by
  obtain ⟨hindexOff, hbloomOff, hsum⟩ := footer_fields img
  have hlen := img.length_file
  have hpayload : img.file.take (payload img.blocks img.bloom).length
      = payload img.blocks img.bloom := List.take_left
  obtain ⟨e, rest, minKey, hindex, hmin, hhead⟩ := readMinKey_file img
  unfold load
  dsimp only
  rw [if_neg (by omega), hlen, Nat.add_sub_cancel, hindexOff, hbloomOff, hsum, hpayload,
    checksumLoop_eq, computeCrc32Incremental_zero, if_neg (not_not.mpr rfl), parseIndex_file,
    hindex]
  dsimp only
  rw [hmin]
  refine ⟨_, rfl, rfl, rfl, hhead, ?_⟩
  -- the last entry of the index is that of the last block
  obtain ⟨init, c, hlast⟩ := (List.eq_nil_or_concat' img.blocks).resolve_left img.nonempty
  have hindex' : (indexFrom 0 img.blocks).map IndexEntry.cut
      = (indexFrom 0 init).map IndexEntry.cut
        ++ [⟨cutKey c.maxKey, 0 + (init.flatMap bytes).length, c.bytes.length⟩] := by
    rw [hlast, indexFrom_append, List.map_append]
    rfl
  have hmax : ∀ (l : List IndexEntry) (h : l ≠ []),
      l = (indexFrom 0 img.blocks).map IndexEntry.cut → (l.getLast h).maxKey = cutKey c.maxKey := by
    rintro l h rfl
    simp only [hindex', List.getLast_append_singleton]
  show _ = some (IndexEntry.maxKey (List.getLast _ _))
  rw [hmax _ _ hindex.symm, hlast, List.flatMap_append, List.flatMap_singleton,
    List.getLast?_append_of_ne_nil _ (by simp [entries, c.nonempty]), ← Option.map_map,
    c.getLast?_entries]
  rfl

/-- **A file that can be read back is accepted**, with its index and its first and last
keys. -/
theorem load_image (img : Image) :
    ∃ r, load img.file = .ok (some r) ∧ r.file = img.file ∧ r.index = indexFrom 0 img.blocks
      ∧ (img.blocks.flatMap entries).head?.map Prod.fst = some r.minKey
      ∧ (img.blocks.flatMap entries).getLast?.map Prod.fst = some r.maxKey := by
  obtain ⟨r, hload, hfile, hindex, hmin, hmax⟩ := load_file img.toFileImage
  refine ⟨r, hload, hfile, hindex.trans img.cut_index, hmin ▸ ?_, hmax ▸ ?_⟩
  · refine Option.map_congr (fun e he => (cutKey_of_lt (img.fits e ?_).1).symm)
    exact List.mem_of_mem_head? he
  · refine Option.map_congr (fun e he => (cutKey_of_lt (img.fits e ?_).1).symm)
    exact List.mem_of_mem_getLast? he

/-- **A file answers with what it holds.** -/
theorem get_file {img : Image} {r : SSTableReader} (hfile : r.file = img.file)
    (hindex : r.index = indexFrom 0 img.blocks)
    (hmin : ∀ e ∈ img.blocks.flatMap entries, r.minKey ≤ e.1)
    (hmax : ∀ e ∈ img.blocks.flatMap entries, e.1 ≤ r.maxKey) {cache : BlockCache r}
    (hcache : cache.Coherent) (key : Key) (out : VLogPointer) :
    ∃ o, r.get cache key out = .ok o
      ∧ ∀ ptr, o = some ptr ↔ (key, ptr) ∈ img.blocks.flatMap entries := by
  have hmiss : (∀ ptr, (key, ptr) ∉ img.blocks.flatMap entries) →
      ∀ ptr, none = some ptr ↔ (key, ptr) ∈ img.blocks.flatMap entries :=
    fun h ptr => iff_of_false (Option.some_ne_none ptr).symm (h ptr)
  unfold get
  by_cases hrange : key < r.minKey ∨ key > r.maxKey
  · rw [if_pos hrange]
    refine ⟨none, rfl, hmiss (fun ptr hmem => ?_)⟩
    exact hrange.elim (not_lt.mpr (hmin _ hmem)) (not_lt.mpr (hmax _ hmem))
  rw [if_neg hrange, hindex]
  have hle : ∀ c ∈ img.blocks, ∀ e ∈ c.entries, e.1 ≤ c.maxKey := fun c hc e he =>
    le_maxKey (img.readable hc).sorted he
  rcases find?_indexFrom key 0 img.blocks with ⟨pre, b, post, heq, hpre, hb, hf⟩ | ⟨hf, hall⟩
  · have hbmem : b ∈ img.blocks := by
      rw [heq]
      simp
    have hload : cache.load ⟨b.maxKey, 0 + (pre.flatMap bytes).length, b.bytes.length⟩
        = some b.bytes := by
      refine hcache.load_eq ?_ ?_
      · rw [hindex]
        exact List.mem_of_find?_eq_some hf
      · rw [hfile]
        exact FileImage.pread_block heq
    obtain ⟨o, ho, hmem⟩ := getInBlock_spec (img.readable hbmem) key out
    refine ⟨o, ?_, fun ptr => ?_⟩
    · rw [hf]
      dsimp only
      rw [hload]
      exact ho
    · -- blocks before end below the key, and blocks after start past it
      rw [hmem ptr, heq, List.flatMap_append, List.flatMap_cons, List.mem_append, List.mem_append]
      refine ⟨fun h => Or.inr (Or.inl h), ?_⟩
      rintro (h | h | h)
      · obtain ⟨c, hc, hmemc⟩ := List.mem_flatMap.mp h
        exact absurd (hle c (by rw [heq]; simp [hc]) _ hmemc) (not_le.mpr (hpre c hc))
      · exact h
      · obtain ⟨maxPtr, hmaxmem⟩ := b.exists_mem_maxKey
        have hs := img.sorted
        rw [heq, List.flatMap_append, List.flatMap_cons] at hs
        have hlt := (List.pairwise_append.mp (List.pairwise_append.mp hs).2.1).2.2 _ hmaxmem _ h
        exact absurd hb (not_le.mpr hlt)
  · rw [hf]
    refine ⟨none, rfl, hmiss (fun ptr hmem => ?_)⟩
    obtain ⟨c, hc, hmemc⟩ := List.mem_flatMap.mp hmem
    exact absurd (hle c hc _ hmemc) (not_le.mpr (hall c hc))

/-- The image of a table with entries. -/
theorem exists_fileImage (env : Env) {entries : List (Key × VLogPointer)} (hne : entries ≠ [])
    (hsize : (SSTableWriter.write env entries).length < 2 ^ 32) :
    ∃ img : FileImage, img.file = SSTableWriter.write env entries
      ∧ img.blocks.flatMap DataBlock.entries = entries := by
  obtain ⟨blocks, hentries, hwrite⟩ := write_eq env entries
  refine ⟨⟨blocks, BloomFilter.build env (entries.map Prod.fst), ?_, hwrite ▸ hsize⟩,
    hwrite.symm, hentries⟩
  rintro rfl
  exact hne hentries.symm

/-- The image of a table with ascending keys and entries that fit. -/
theorem exists_image (env : Env) (contents : OrdMap Key VLogPointer)
    (hne : contents.entries ≠ []) (hfits : ∀ e ∈ contents.entries, EntryFits e)
    (hsize : (SSTableWriter.write env contents.entries).length < 2 ^ 32) :
    ∃ img : Image, img.file = SSTableWriter.write env contents.entries
      ∧ img.blocks.flatMap entries = contents.entries := by
  obtain ⟨img, hfile, hentries⟩ := exists_fileImage env hne hsize
  exact ⟨⟨img, hentries ▸ contents.sorted, hentries ▸ hfits⟩, hfile, hentries⟩

/-- **The file of a table is the table**: opened, it has the same range and
answers every lookup as the table does. -/
theorem load_write_refines (env : Env) (contents : OrdMap Key VLogPointer)
    (hne : contents.entries ≠ []) (hfits : ∀ e ∈ contents.entries, EntryFits e)
    (hsize : (SSTableWriter.write env contents.entries).length < 2 ^ 32) :
    ∃ r, load (SSTableWriter.write env contents.entries) = .ok (some r)
      ∧ r.minKey = (SSTable.write env contents hne).minKey
      ∧ r.maxKey = (SSTable.write env contents hne).maxKey
      ∧ ∀ cache : BlockCache r, cache.Coherent → ∀ key out,
        r.get cache key out = .ok ((SSTable.write env contents hne).get key) := by
  obtain ⟨img, himgfile, himg⟩ := exists_image env contents hne hfits hsize
  obtain ⟨r, hload, hfile, hindex, hmin, hmax⟩ := load_image img
  rw [himg, List.head?_eq_some_head hne] at hmin
  rw [himg, List.getLast?_eq_getLast_of_ne_nil hne] at hmax
  have hmin' : r.minKey = (SSTable.write env contents hne).minKey := (Option.some.inj hmin).symm
  have hmax' : r.maxKey = (SSTable.write env contents hne).maxKey := (Option.some.inj hmax).symm
  have hrange : ∀ e ∈ contents.entries, r.minKey ≤ e.1 ∧ e.1 ≤ r.maxKey := by
    intro e he
    rw [hmin', hmax']
    exact (SSTable.write env contents hne).mem_range he
  refine ⟨r, by rw [← himgfile]; exact hload, hmin', hmax', fun cache hcache key out => ?_⟩
  obtain ⟨o, ho, hmem⟩ := get_file hfile hindex (by rw [himg]; exact fun e he => (hrange e he).1)
    (by rw [himg]; exact fun e he => (hrange e he).2) hcache key out
  rw [ho, SSTable.get_eq]
  refine congrArg Except.ok (Option.ext (fun ptr => ?_))
  rw [hmem ptr, himg]
  exact contents.mem_entries_iff

/-- **The round trip of a table file.** A file written from entries with
ascending keys, of less than 2^32 bytes and with keys of less than 2^32 bytes, is
accepted; its least and greatest keys are the first and the last; and a lookup of
any key returns the pointer the key was written with, all of it, or that there is
none. It never throws, and it reads no byte that is not there. -/
theorem get_load_write (env : Env) (contents : OrdMap Key VLogPointer)
    (hne : contents.entries ≠ []) (hfits : ∀ e ∈ contents.entries, EntryFits e)
    (hsize : (SSTableWriter.write env contents.entries).length < 2 ^ 32) :
    ∃ r, load (SSTableWriter.write env contents.entries) = .ok (some r)
      ∧ r.minKey = (contents.entries.head hne).1 ∧ r.maxKey = (contents.entries.getLast hne).1
      ∧ ∀ cache : BlockCache r, cache.Coherent → ∀ key out,
        r.get cache key out = .ok (contents.get key) := by
  obtain ⟨r, hload, hmin, hmax, hget⟩ := load_write_refines env contents hne hfits hsize
  refine ⟨r, hload, hmin, hmax, fun cache hcache key out => ?_⟩
  rw [hget cache hcache key out, SSTable.get_eq]
  rfl

/-- A key and an extension of it. -/
def twoEntries : OrdMap Key VLogPointer :=
  (OrdMap.empty.insert [97] ⟨1, 9, 3⟩).insert [97, 98] ⟨1, 22, 2⟩

theorem get_load_write_twoEntries :
    ∃ r, load (SSTableWriter.write .small twoEntries.entries) = .ok (some r)
      ∧ r.minKey = [97] ∧ r.maxKey = [97, 98]
      ∧ r.get (.empty r) [97, 98] ⟨0, 0, 0⟩ = .ok (some ⟨1, 22, 2⟩)
      ∧ r.get (.empty r) [97, 97] ⟨0, 0, 0⟩ = .ok none := by
  obtain ⟨r, hload, hmin, hmax, hget⟩ := get_load_write .small twoEntries (by decide) (by decide)
    (by decide +kernel)
  have hempty := BlockCache.Coherent.empty r
  exact ⟨r, hload, hmin, hmax, hget _ hempty _ _, hget _ hempty _ _⟩

/-- **The file of a key of 2^32 bytes**, whose size is 0 in 32 bits, is one of the empty
key. -/
theorem exists_image_cut {env : Env} (hbits : BloomFilter.byteSize env 1 < 2 ^ 31) {key : Key}
    (hlen : key.length = 2 ^ 32) {ptr : VLogPointer} (hptr : ptr.Fits) :
    ∃ img : Image, img.file = SSTableWriter.write env [(key, ptr)]
      ∧ img.blocks.flatMap entries = [([], ptr)] := by
  have hcut : u32 key.length = 0 := by
    rw [hlen, u32, Nat.mod_self]
  obtain ⟨b, hitems, hwrite⟩ := write_singleton env key ptr
  let c : DataBlock := ⟨[⟨0, [], ptr⟩], by simp, Nat.zero_le _, Nat.zero_le _, rfl, trivial⟩
  have hkey : cutKey key = [] := by
    rw [cutKey, hcut, List.take_zero]
  have hentry : BlockBuf.entryBytes 0 key ptr = BlockBuf.entryBytes 0 [] ptr := by
    unfold BlockBuf.entryBytes
    rw [Nat.sub_zero, List.drop_zero, hkey, ← leBytes_u32 key.length, hcut]
    rfl
  have hbytes : b.bytes = c.bytes := by
    simp only [DataBlock.bytes, DataBlock.restarts, hitems, c, BlockItem.restarts,
      BlockItem.rowBytes_cons, BlockItem.bytes, hentry]
  have hindex : indexBytes (indexFrom 0 [b]) = indexBytes (indexFrom 0 [c]) := by
    rw [← indexBytes_cut, ← indexBytes_cut (indexFrom 0 [c])]
    simp only [indexFrom, List.map_cons, List.map_nil, IndexEntry.cut, hbytes, DataBlock.maxKey,
      hitems, BlockItem.lastKey, hkey, c]
    rfl
  have hpayload : ∀ bloom, payload [b] bloom = payload [c] bloom := by
    intro bloom
    simp only [payload, List.flatMap_singleton, hbytes, hindex]
  have hfooter : ∀ bloom, footer [b] bloom = footer [c] bloom := by
    intro bloom
    simp only [footer, List.flatMap_singleton, hbytes, hindex, hpayload]
  rw [hpayload, hfooter] at hwrite
  have hsize : (payload [c] (BloomFilter.build env [key])
      ++ footer [c] (BloomFilter.build env [key])).length < 2 ^ 32 := by
    have hblock : c.bytes.length = 36 := by
      simp [c, DataBlock.length_bytes, DataBlock.restarts, BlockItem.restarts,
        BlockItem.length_bytes, u32]
    have hlen : (indexBytes (indexFrom 0 [c])).length = 12 := by
      simp [indexBytes, indexFrom, IndexEntry.pieces, DataBlock.maxKey, c, BlockItem.lastKey, u32]
    rw [List.length_append, FileImage.length_footer, FileImage.length_payload,
      List.flatMap_singleton, hblock, hlen,
      BloomFilter.length_build env (List.cons_ne_nil key []), List.length_singleton]
    omega
  refine ⟨⟨⟨[c], _, List.cons_ne_nil _ _, hsize⟩, ?_, ?_⟩, hwrite.symm, rfl⟩
  · exact List.pairwise_singleton _ _
  · intro e he
    rw [List.mem_singleton.mp he]
    exact ⟨(show 0 < 2 ^ 32 by norm_num), hptr⟩

/-- **A key of 2^32 bytes is lost**: its file is short enough, and is accepted, but with
the empty key for it. -/
theorem get_load_write_longKey :
    let key : Key := List.replicate (2 ^ 32) 0
    (SSTableWriter.write .small [(key, ⟨1, 9, 3⟩)]).length < 2 ^ 32
      ∧ ∃ r, load (SSTableWriter.write .small [(key, ⟨1, 9, 3⟩)]) = .ok (some r)
        ∧ r.minKey = [] ∧ r.get (.empty r) key ⟨0, 0, 0⟩ = .ok none := by
  have hlen : (List.replicate (2 ^ 32) (0 : Byte)).length = 2 ^ 32 := List.length_replicate
  generalize List.replicate (2 ^ 32) (0 : Byte) = key at hlen ⊢
  dsimp only
  obtain ⟨img, himgfile, himg⟩ := exists_image_cut
    (show BloomFilter.byteSize .small 1 < 2 ^ 31 by decide) hlen
    (show (VLogPointer.mk 1 9 3).Fits by decide)
  obtain ⟨r, hload, hfile, hindex, hmin, hmax⟩ := load_image img
  rw [himg] at hmin hmax
  have hpast : r.maxKey < key := by
    rw [← Option.some.inj hmax]
    cases key with
    | nil => cases hlen
    | cons b key => exact List.nil_lt_cons b key
  refine ⟨himgfile ▸ img.size, r, himgfile ▸ hload, (Option.some.inj hmin).symm, ?_⟩
  rw [get, if_pos (Or.inr hpast)]

end SSTableReader
