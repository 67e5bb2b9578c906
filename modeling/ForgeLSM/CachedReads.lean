import ForgeLSM.Cache
import ForgeLSM.IteratorBounds
import ForgeLSM.Util.Decimal
import ForgeLSM.Util.Run

/-!
# Reading through the block cache

All lookups and all iterators of all tables read their blocks through one cache. A block is
looked for under the path of its table and its offset; on a miss it is read from the file and
put into the cache. Between the two steps, and between one block and the next, other readers
do the same, and blocks are evicted.

Here the readers are taken apart into such steps. A call – a lookup, or `next`, `seek` or
`seek_to_first` on an iterator – is a `Phase`, which says what it does next, and `ReadMachine`
is any number of calls with the cache they share. The cache changes nothing: every call
answers as it does where there is no cache at all, which is what `SSTableReader.get` and
`SSTableIterator.call` say with an empty one. The reason is that a block in the cache is one
that some call has read from the file under the same key, and the key tells the table and the
offset.

It does not tell the length. In a table as it is written an offset is that of one block
(`SSTableReader.oneLength_of_load_write`); a file that gives two lengths for one offset is
accepted too, and then the block that is read first is served for both.
-/

/-! ## Keys -/

/-- `path + ":" + std::to_string(offset)`. -/
def cacheKey (path : List Byte) (offset : ℕ) : List Byte := path ++ 58 :: padDecimal 1 offset

theorem not_mem_fixedDecimal {b : Byte} (hb : 58 ≤ b.val) (w n : ℕ) : b ∉ fixedDecimal w n := by
  induction w generalizing n with
  | zero => exact List.not_mem_nil
  | succ w ih =>
    intro hmem
    rcases List.mem_append.mp hmem with hmem | hmem
    · exact ih _ hmem
    · have hval := val_digitByte (Nat.mod_lt n (by decide : 10 > 0))
      rw [← List.mem_singleton.mp hmem] at hval
      omega

/-- **A key tells its path and its offset**, whatever is in the path: the colon is the last
one. -/
theorem cacheKey_inj {path path' : List Byte} {offset offset' : ℕ}
    (h : cacheKey path offset = cacheKey path' offset') : path = path' ∧ offset = offset' := by
  have hcolon : ∀ n, (58 : Byte) ∉ padDecimal 1 n := fun n => not_mem_fixedDecimal (by decide) _ n
  have hsplit : ∀ {p q a b : List Byte}, (58 : Byte) ∉ a → (58 : Byte) ∉ b →
      p ++ 58 :: a = q ++ 58 :: b → p = q ∧ a = b := by
    intro p q a b ha hb heq
    rcases List.append_eq_append_iff.mp heq with ⟨x, rfl, hx⟩ | ⟨x, rfl, hx⟩
    · cases x with
      | nil => exact ⟨(List.append_nil p).symm, (List.cons.inj hx).2⟩
      | cons y x => exact absurd ((List.cons.inj hx).2 ▸ by simp) ha
    · cases x with
      | nil => exact ⟨List.append_nil q, (List.cons.inj hx).2.symm⟩
      | cons y x => exact absurd ((List.cons.inj hx).2 ▸ by simp) hb
  obtain ⟨hpath, hoffset⟩ := hsplit (hcolon _) (hcolon _) h
  exact ⟨hpath, padDecimal_injective 1 hoffset⟩

/-! ## Calls, taken apart -/

/-- A call of a reader: a lookup, or a call on an iterator as it is. -/
inductive ReadCall where
  | get (key : Key) (out : VLogPointer)
  | iterate (it : SSTableIterator) (c : SSTableIterator.IterCall)

/-- What a call returns or throws. -/
inductive Answer where
  | found (res : Except TableError (Option VLogPointer))
  | moved (res : Except TableError SSTableIterator)

/-- What a call does with a block. -/
inductive BlockUse where
  /-- The lookup of a key in it. -/
  | search (key : Key) (out : VLogPointer)
  /-- An iterator enters it, and then skips what is below the target of a `seek`. -/
  | enter (it : SSTableIterator) (idx : ℕ) (target : Option Key)

/-- **Where a call is.** -/
inductive Phase where
  /-- About to look for a block in the cache. -/
  | access (e : IndexEntry) (use : BlockUse)
  /-- The block was not in the cache. -/
  | fill (e : IndexEntry) (use : BlockUse)
  /-- In front of the loop of `seek`. -/
  | skip (target : Key) (it : SSTableIterator)
  | finished (a : Answer)

namespace Phase

open SSTableIterator

/-- The iterator stands at an entry: a `seek` goes on to its loop. -/
def arrived (it : SSTableIterator) : Option Key → Phase
  | none => .finished (.moved (.ok it))
  | some target => .skip target it

/-- The iterator stands at an entry, unless it has thrown. -/
def follow (target : Option Key) : Except TableError SSTableIterator → Phase
  | .error e => .finished (.moved (.error e))
  | .ok it => arrived it target

/-- The call goes on with a block, or with none that could be read. -/
def resume : BlockUse → Option (List Byte) → Phase
  | .search _ _, none => .finished (.found (.ok none))
  | .search key out, some block => .finished (.found (SSTableReader.getInBlock block key out))
  | .enter _ _ _, none =>
    .finished (.moved (.error (.corrupt "SSTableIterator: I/O error reading block")))
  | .enter it idx target, some block =>
    follow target (parseCurrentEntry
      { it with blockIdx := idx, currentBlock := some block, offsetInBlock := 0 })

section

variable (r : SSTableReader)

/-- An iterator is about to enter a block of the index. -/
def enter (it : SSTableIterator) (idx : ℕ) (target : Option Key) : Phase :=
  match r.index[idx]? with
  | none => .finished (.moved (.error .outOfBounds))
  | some e => .access e (.enter it idx target)

/-- `next`, up to the block it needs, if it needs one. -/
def next (it : SSTableIterator) (target : Option Key) : Phase :=
  if !it.valid then arrived it target
  else match it.currentBlock with
    | none => .finished (.moved (.error .outOfBounds))
    | some block =>
      if block.length < 4 then .finished (.moved (.error .outOfBounds))
      else if it.offsetInBlock ≥ SSTableReader.restartsOffset block then
        let it := { it with blockIdx := it.blockIdx + 1, offsetInBlock := 0 }
        if it.blockIdx < r.index.length then enter r it it.blockIdx target
        else arrived { it with valid := false } target
      else follow target it.parseCurrentEntry

/-- A round of the loop of `seek`. -/
def skipOne (target : Key) (it : SSTableIterator) : Phase :=
  if it.valid = true ∧ it.currentKey < target then next r it (some target)
  else .finished (.moved (.ok it))

/-- A call begins. -/
def start : ReadCall → Phase
  | .get key out =>
    if key < r.minKey ∨ key > r.maxKey then .finished (.found (.ok none))
    else match r.index.find? (fun e => !decide (e.maxKey < key)) with
      | none => .finished (.found (.ok none))
      | some e => .access e (.search key out)
  | .iterate it .seekToFirst =>
    let it := { it with blockIdx := 0, offsetInBlock := 0, valid := false }
    if r.index.isEmpty then .finished (.moved (.ok it)) else enter r it 0 none
  | .iterate it (.seek target) =>
    if r.index.isEmpty then .finished (.moved (.ok { it with valid := false }))
    else
      let last := r.index.length - 1
      enter r it (searchIndex r.index target 0 last last) (some target)
  | .iterate it .next => next r it none

end

end Phase

/-- The answer of a call where there is no cache. -/
def ReadCall.direct (r : SSTableReader) : ReadCall → Answer
  | .get key out => .found (r.get (.empty r) key out)
  | .iterate it c => .moved (it.call (.empty r) c)

/-! ## Calls that share a cache -/

/-- The cache of blocks, by the keys they are looked for under. -/
abbrev SharedCache := ShardedLRUCache (List Byte) (List Byte)

/-- A table that is open, and the path it was opened by. -/
structure OpenTable where
  path : List Byte
  reader : SSTableReader

/-- A call on a table. -/
structure Reading (ι : Type) where
  table : ι
  call : ReadCall
  phase : Phase
  /-- The steps it has taken. -/
  steps : ℕ := 0

/-- **The calls made so far, with their cache**, and the blocks they were served. -/
structure ReadMachine (ι : Type) where
  cache : SharedCache
  calls : List (Reading ι) := []
  served : List (ι × IndexEntry × List Byte) := []

/-- What happens: a call is made, or one goes on. -/
inductive CachedReadAction (ι : Type) where
  | call (table : ι) (c : ReadCall)
  | step (i : ℕ)

namespace ReadMachine

section

variable {ι : Type} (hash : List Byte → ℕ) (size : List Byte → ℕ) (tables : ι → OpenTable)

/-- A call that is not finished takes a step: where it is then, what becomes of the cache,
and the block it was served. -/
def advance (cache : SharedCache) (t : OpenTable) :
    Phase → Option (Phase × SharedCache × Option (IndexEntry × List Byte))
  | .access e use =>
    match cache.get hash (cacheKey t.path e.offset) with
    | (cache, some block) => some (.resume use (some block), cache, some (e, block))
    | (cache, none) => some (.fill e use, cache, none)
  | .fill e use =>
    match VLog.pread t.reader.file e.length e.offset with
    | some block => some (.resume use (some block),
        cache.put hash size (cacheKey t.path e.offset) block, some (e, block))
    | none => some (.resume use none, cache, none)
  | .skip target it => some (.skipOne t.reader target it, cache, none)
  | .finished _ => none

/-- **One step.** -/
def step (m : ReadMachine ι) : CachedReadAction ι → Option (ReadMachine ι)
  | .call table c =>
    some { m with calls := m.calls ++ [⟨table, c, .start (tables table).reader c, 0⟩] }
  | .step i => do
    let c ← m.calls[i]?
    let (phase, cache, block) ← advance hash size m.cache (tables c.table) c.phase
    some
      { cache := cache
        calls := m.calls.set i { c with phase := phase, steps := c.steps + 1 }
        served := m.served ++ (block.map (fun b => (c.table, b))).toList }

end

end ReadMachine

/-! ## A call by itself -/

/-- **What a call comes to** where every block is read from the file, and how many steps it
takes at most: two for a block that is first looked for in the cache. -/
inductive Phase.Yields (r : SSTableReader) : Phase → ℕ → Answer → Prop
  | finished (a : Answer) : Yields r (.finished a) 0 a
  | access {e : IndexEntry} {use : BlockUse} {n : ℕ} {a : Answer} (he : e ∈ r.index)
    (h : Yields r (.resume use (VLog.pread r.file e.length e.offset)) n a) :
    Yields r (.access e use) (n + 2) a
  | fill {e : IndexEntry} {use : BlockUse} {n : ℕ} {a : Answer} (he : e ∈ r.index)
    (h : Yields r (.resume use (VLog.pread r.file e.length e.offset)) n a) :
    Yields r (.fill e use) (n + 1) a
  | skip {target : Key} {it : SSTableIterator} {n : ℕ} {a : Answer}
    (h : Yields r (.skipOne r target it) n a) : Yields r (.skip target it) (n + 1) a

/-- The call comes to an answer. -/
def Phase.Reaches (r : SSTableReader) (p : Phase) (a : Answer) : Prop := ∃ n, p.Yields r n a

namespace Phase

open SSTableIterator

variable {r : SSTableReader} {a : Answer} {it : SSTableIterator}

theorem reaches_finished : Reaches r (.finished a) a := ⟨0, .finished a⟩

theorem reaches_access {e : IndexEntry} {use : BlockUse} (he : e ∈ r.index)
    (h : Reaches r (.resume use (VLog.pread r.file e.length e.offset)) a) :
    Reaches r (.access e use) a :=
  h.elim (fun n hn => ⟨n + 2, .access he hn⟩)

theorem reaches_skip {target : Key} (h : Reaches r (.skipOne r target it) a) :
    Reaches r (.skip target it) a :=
  h.elim (fun n hn => ⟨n + 1, .skip hn⟩)

theorem reaches_enter {idx : ℕ} {target : Option Key}
    (h : Reaches r (follow target (it.enterBlock (.empty r) idx)) a) :
    Reaches r (enter r it idx target) a := by
  unfold enterBlock loadBlock at h
  unfold enter
  cases hidx : r.index[idx]? with
  | none =>
    rw [hidx] at h
    exact h
  | some e =>
    rw [hidx] at h
    refine reaches_access (List.mem_of_getElem? hidx) ?_
    have hload : (BlockCache.empty r).load e = VLog.pread r.file e.length e.offset := rfl
    dsimp only at h
    rw [hload] at h
    cases hread : VLog.pread r.file e.length e.offset with
    | none | some block =>
      rw [hread] at h
      exact h

theorem reaches_next {target : Option Key} (h : Reaches r (follow target (it.next (.empty r))) a) :
    Reaches r (next r it target) a := by
  unfold SSTableIterator.next at h
  unfold next
  split_ifs at h ⊢ with hvalid
  · exact h
  · cases hblock : it.currentBlock with
    | none =>
      rw [hblock] at h
      exact h
    | some block =>
      rw [hblock] at h
      dsimp only at h ⊢
      split_ifs at h ⊢ with hfour hend hlast
      · exact h
      · exact reaches_enter h
      · exact h
      · exact h

/-- **The loop of `seek`** comes to what it comes to with no cache. -/
theorem reaches_skipBelow (target : Key) (it : SSTableIterator) :
    Reaches r (.skip target it) (.moved (it.skipBelow (.empty r) target)) := by
  fun_induction SSTableIterator.skipBelow (.empty r) target it with
  | case1 it hv e hnext =>
    refine reaches_skip ?_
    rw [skipOne, if_pos hv]
    refine reaches_next ?_
    rw [hnext]
    exact reaches_finished
  | case2 it hv it' hnext hv' ih =>
    refine reaches_skip ?_
    rw [skipOne, if_pos hv]
    refine reaches_next ?_
    rw [hnext]
    exact ih
  | case3 it hv it' hnext hv' =>
    refine reaches_skip ?_
    rw [skipOne, if_pos hv]
    refine reaches_next ?_
    rw [hnext]
    refine reaches_skip ?_
    rw [skipOne, if_neg (fun h => hv' h.1)]
    exact reaches_finished
  | case4 it hv =>
    refine reaches_skip ?_
    rw [skipOne, if_neg hv]
    exact reaches_finished

/-- A call that ends where its iterator arrives. -/
theorem reaches_follow (x : Except TableError SSTableIterator) :
    Reaches r (follow none x) (.moved x) := by
  cases x <;> exact reaches_finished

/-- **A call comes to its answer.** -/
theorem reaches_start (c : ReadCall) : Reaches r (start r c) (c.direct r) := by
  cases c with
  | get key out =>
    unfold start ReadCall.direct SSTableReader.get
    dsimp only
    split_ifs with hrange
    · exact reaches_finished
    · cases hfind : r.index.find? (fun e => !decide (e.maxKey < key)) with
      | none => exact reaches_finished
      | some e =>
        refine reaches_access (List.mem_of_find?_eq_some hfind) ?_
        have hload : (BlockCache.empty r).load e = VLog.pread r.file e.length e.offset := rfl
        dsimp only
        rw [hload]
        cases VLog.pread r.file e.length e.offset <;> exact reaches_finished
  | iterate it c =>
    cases c with
    | next => exact reaches_next (reaches_follow _)
    | seekToFirst =>
      unfold start ReadCall.direct call seekToFirst
      dsimp only
      split_ifs
      · exact reaches_finished
      · exact reaches_enter (reaches_follow _)
    | seek target =>
      unfold start ReadCall.direct call seek
      dsimp only
      split_ifs
      · exact reaches_finished
      · refine reaches_enter ?_
        cases it.enterBlock (.empty r) _ with
        | error e => exact reaches_finished
        | ok it => exact reaches_skipBelow target it

end Phase

/-! ## Tables -/

namespace SSTableReader

/-- The index gives one length for an offset. -/
def OneLength (r : SSTableReader) : Prop :=
  ∀ e ∈ r.index, ∀ e' ∈ r.index, e.offset = e'.offset → e.length = e'.length

theorem le_offset_of_mem_indexFrom {off : ℕ} {blocks : List DataBlock} {e : IndexEntry}
    (h : e ∈ DataBlock.indexFrom off blocks) : off ≤ e.offset := by
  obtain ⟨pre, b, post, -, rfl⟩ := DataBlock.exists_of_mem_indexFrom h
  exact Nat.le_add_right _ _

/-- The blocks of a row begin at different offsets. -/
theorem nodup_offset_indexFrom (off : ℕ) (blocks : List DataBlock) :
    ((DataBlock.indexFrom off blocks).map IndexEntry.offset).Nodup := by
  induction blocks generalizing off with
  | nil => exact List.nodup_nil
  | cons b blocks ih =>
    refine List.nodup_cons.mpr ⟨fun hmem => ?_, ih _⟩
    obtain ⟨e, he, heq⟩ := List.mem_map.mp hmem
    have hle := le_offset_of_mem_indexFrom he
    have hlen := b.length_bytes
    dsimp only at heq
    omega

/-- **A written table has one length for an offset.** -/
theorem oneLength_of_load_write (env : Env) {entries : List (Key × VLogPointer)}
    (hne : entries ≠ []) (hsize : (SSTableWriter.write env entries).length < 2 ^ 32)
    {r : SSTableReader} (hload : load (SSTableWriter.write env entries) = .ok (some r)) :
    r.OneLength := by
  obtain ⟨img, himg, -⟩ := exists_fileImage env hne hsize
  obtain ⟨r', hload', -, hindex, -⟩ := load_file img
  rw [himg, hload] at hload'
  obtain rfl := Option.some.inj (Except.ok.inj hload')
  intro e he e' he' hoff
  rw [hindex] at he he'
  -- cutting the keys of an index leaves the offsets as they are
  obtain ⟨e₀, he₀, rfl⟩ := List.mem_map.mp he
  obtain ⟨e₁, he₁, rfl⟩ := List.mem_map.mp he'
  rw [List.inj_on_of_nodup_map (nodup_offset_indexFrom 0 img.blocks) he₀ he₁ hoff]

end SSTableReader

/-! ## The calls together -/

namespace ReadMachine

section

variable {ι : Type} {hash : List Byte → ℕ} {size : List Byte → ℕ} {tables : ι → OpenTable}

/-- What may be in the cache under a key: a block of a table that has this key. -/
def Cached (tables : ι → OpenTable) (key block : List Byte) : Prop :=
  ∃ t, ∃ e ∈ (tables t).reader.index, key = cacheKey (tables t).path e.offset
    ∧ VLog.pread (tables t).reader.file e.length e.offset = some block

/-- **A block in the cache is the block that is asked for.** -/
theorem Cached.pread_eq (hpaths : ∀ t u, (tables t).path = (tables u).path → t = u)
    (hone : ∀ t, (tables t).reader.OneLength) {t : ι} {e : IndexEntry} {block : List Byte}
    (he : e ∈ (tables t).reader.index)
    (h : Cached tables (cacheKey (tables t).path e.offset) block) :
    VLog.pread (tables t).reader.file e.length e.offset = some block := by
  obtain ⟨u, e', he', hkey, hread⟩ := h
  obtain ⟨hpath, hoff⟩ := cacheKey_inj hkey
  obtain rfl := hpaths t u hpath
  rw [hone t e he e' he' hoff, hoff]
  exact hread

/-- **A step of a call.** It comes nearer to the answer, and what it is served and what it puts
into the cache is in the file. -/
theorem advance_spec (hpaths : ∀ t u, (tables t).path = (tables u).path → t = u)
    (hone : ∀ t, (tables t).reader.OneLength) {cache : SharedCache}
    (hcache : cache.Holds (Cached tables)) {t : ι} {p : Phase} {n : ℕ} {a : Answer}
    (hp : p.Yields (tables t).reader n a) {p' : Phase}
    {cache' : SharedCache} {block : Option (IndexEntry × List Byte)}
    (h : advance hash size cache (tables t) p = some (p', cache', block)) :
    cache'.Holds (Cached tables)
      ∧ (∃ n', n' + 1 ≤ n ∧ p'.Yields (tables t).reader n' a)
      ∧ ∀ s ∈ block, s.1 ∈ (tables t).reader.index
        ∧ VLog.pread (tables t).reader.file s.1.length s.1.offset = some s.2 := by
  have hinj : ∀ {q : Phase} {c : SharedCache}
      {b : Option (IndexEntry × List Byte)}, some (q, c, b) = some (p', cache', block) →
      q = p' ∧ c = cache' ∧ b = block := by
    rintro q c b ⟨⟩
    exact ⟨rfl, rfl, rfl⟩
  cases hp with
  | finished => cases h
  | @skip target it n _ hrest =>
    rw [advance] at h
    obtain ⟨rfl, rfl, rfl⟩ := hinj h
    exact ⟨hcache, ⟨n, le_rfl, hrest⟩, nofun⟩
  | @fill e use n _ he hrest =>
    rw [advance] at h
    cases hread : VLog.pread (tables t).reader.file e.length e.offset with
    | none =>
      rw [hread] at h hrest
      obtain ⟨rfl, rfl, rfl⟩ := hinj h
      exact ⟨hcache, ⟨n, le_rfl, hrest⟩, nofun⟩
    | some b =>
      rw [hread] at h hrest
      obtain ⟨rfl, rfl, rfl⟩ := hinj h
      refine ⟨hcache.put size ⟨t, e, he, rfl, hread⟩, ⟨n, le_rfl, hrest⟩, ?_⟩
      rintro s hs
      obtain rfl := Option.mem_some.mp hs
      exact ⟨he, hread⟩
  | @access e use n _ he hrest =>
    rw [advance] at h
    have hholds : (cache.get hash (cacheKey (tables t).path e.offset)).1.Holds (Cached tables) :=
      hcache.get _
    have hhit : ∀ b, (cache.get hash (cacheKey (tables t).path e.offset)).2 = some b →
        Cached tables (cacheKey (tables t).path e.offset) b := fun b => hcache.of_get
    generalize cache.get hash (cacheKey (tables t).path e.offset) = g at h hholds hhit
    obtain ⟨after, found⟩ := g
    cases found with
    | none =>
      obtain ⟨rfl, rfl, rfl⟩ := hinj h
      exact ⟨hholds, ⟨n + 1, le_rfl, .fill he hrest⟩, nofun⟩
    | some b =>
      obtain ⟨rfl, rfl, rfl⟩ := hinj h
      have hread := Cached.pread_eq hpaths hone he (hhit b rfl)
      rw [hread] at hrest
      refine ⟨hholds, ⟨n, Nat.le_succ _, hrest⟩, ?_⟩
      rintro s hs
      obtain rfl := Option.mem_some.mp hs
      exact ⟨he, hread⟩

/-- **What holds of the calls**, for a bound on the steps of each. -/
structure Inv (tables : ι → OpenTable) (bound : ι → ReadCall → ℕ) (m : ReadMachine ι) : Prop where
  cache : m.cache.Holds (Cached tables)
  calls : ∀ c ∈ m.calls, ∃ n, c.phase.Yields (tables c.table).reader n
    (c.call.direct (tables c.table).reader) ∧ c.steps + n ≤ bound c.table c.call
  served : ∀ s ∈ m.served, s.2.1 ∈ (tables s.1).reader.index
    ∧ VLog.pread (tables s.1).reader.file s.2.1.length s.2.1.offset = some s.2.2

variable {bound : ι → ReadCall → ℕ} {m m' : ReadMachine ι}

theorem Inv.step (hpaths : ∀ t u, (tables t).path = (tables u).path → t = u)
    (hone : ∀ t, (tables t).reader.OneLength)
    (hbound : ∀ t c, (Phase.start (tables t).reader c).Yields (tables t).reader (bound t c)
      (c.direct (tables t).reader))
    (hm : m.Inv tables bound) {a : CachedReadAction ι} (h : m.step hash size tables a = some m') :
    m'.Inv tables bound := by
  cases a with
  | call t c =>
    cases h
    refine ⟨hm.cache, fun c' hc' => ?_, hm.served⟩
    rcases List.mem_append.mp hc' with hc' | hc'
    · exact hm.calls c' hc'
    · rw [List.mem_singleton.mp hc']
      exact ⟨bound t c, hbound t c, (Nat.zero_add _).le⟩
  | step i =>
    simp only [ReadMachine.step, Option.bind_eq_bind, Option.bind_eq_some_iff] at h
    obtain ⟨c, hc, ⟨p, cache, block⟩, hadv, heq⟩ := h
    cases heq
    obtain ⟨n, hn, hsteps⟩ := hm.calls c (List.mem_of_getElem? hc)
    obtain ⟨hcache, ⟨n', hlt, hn'⟩, hblock⟩ := advance_spec hpaths hone hm.cache hn hadv
    refine ⟨hcache, fun c' hc' => ?_, fun s hs => ?_⟩
    · rcases List.mem_or_eq_of_mem_set hc' with hc' | rfl
      · exact hm.calls c' hc'
      · refine ⟨n', hn', ?_⟩
        dsimp only
        omega
    · rcases List.mem_append.mp hs with hs | hs
      · exact hm.served s hs
      · obtain ⟨b, hb, rfl⟩ := Option.map_eq_some_iff.mp (Option.mem_toList.mp hs)
        exact hblock b hb

/-- A call that has not finished can go on. -/
theorem exists_step {i : ℕ} {c : Reading ι} (hc : m.calls[i]? = some c)
    (hphase : ∀ a, c.phase ≠ .finished a) : ∃ m', m.step hash size tables (.step i) = some m' := by
  have hadv : ∃ x, advance hash size m.cache (tables c.table) c.phase = some x := by
    cases hp : c.phase with
    | finished a => exact absurd hp (hphase a)
    | skip target it => exact ⟨_, rfl⟩
    | fill e use =>
      rw [advance]
      cases VLog.pread (tables c.table).reader.file e.length e.offset <;> exact ⟨_, rfl⟩
    | access e use =>
      rw [advance]
      obtain ⟨after, found⟩ := m.cache.get hash (cacheKey (tables c.table).path e.offset)
      cases found <;> exact ⟨_, rfl⟩
  obtain ⟨⟨p, cache, block⟩, hadv⟩ := hadv
  simp only [step, hc, hadv, Option.bind_eq_bind, Option.bind_some]
  exact ⟨_, rfl⟩

end

/-- **The cache is transparent** for tables with one length for an offset, whatever the
capacity, the hash and the order in which calls are made and go on. Every block served is that
of the file; a call that has finished has answered as it does with no cache; and every call
can go on until it has finished, after no more steps than a bound for the call alone. -/
theorem answers_direct {ι : Type} (hash size : List Byte → ℕ) (tables : ι → OpenTable)
    (hpaths : ∀ t u, (tables t).path = (tables u).path → t = u)
    (hone : ∀ t, (tables t).reader.OneLength) :
    ∃ bound : ι → ReadCall → ℕ,
      ∀ (capacity : ℕ) (actions : List (CachedReadAction ι)) (m : ReadMachine ι),
      runSteps (step hash size tables) { cache := .new capacity } actions = some m →
        (∀ t e block, (t, e, block) ∈ m.served → e ∈ (tables t).reader.index
          ∧ VLog.pread (tables t).reader.file e.length e.offset = some block)
        ∧ ∀ i c, m.calls[i]? = some c →
          (∀ a, c.phase = .finished a → a = c.call.direct (tables c.table).reader)
          ∧ ((∀ a, c.phase ≠ .finished a) →
            ∃ m', m.step hash size tables (.step i) = some m')
          ∧ c.steps ≤ bound c.table c.call := by
  choose bound hbound using fun t c => Phase.reaches_start (r := (tables t).reader) c
  refine ⟨bound, fun capacity actions m hrun => ?_⟩
  have hinv : m.Inv tables bound :=
    invariant_of_run (fun s a s' hs hstep => hs.step hpaths hone hbound hstep)
      ⟨ShardedLRUCache.holds_new capacity, List.forall_mem_nil _, List.forall_mem_nil _⟩ hrun
  refine ⟨fun t e block hs => hinv.served _ hs, fun i c hc => ?_⟩
  obtain ⟨n, hn, hsteps⟩ := hinv.calls c (List.mem_of_getElem? hc)
  refine ⟨fun a ha => ?_, exists_step hc, by omega⟩
  rw [ha] at hn
  cases hn
  rfl

/-- The file of a table, opened by two paths. -/
theorem answers_direct_twoEntries :
    ∃ r, SSTableReader.load (SSTableWriter.write .small SSTableReader.twoEntries.entries)
        = .ok (some r)
      ∧ ∃ bound : Bool → ReadCall → ℕ,
        ∀ (actions : List (CachedReadAction Bool)) (m : ReadMachine Bool),
        runSteps (step (fun _ => 0) List.length (fun t : Bool => ⟨if t then [97] else [98], r⟩))
          { cache := .new 64 } actions = some m →
          ∀ (i : ℕ) (c : Reading Bool), m.calls[i]? = some c → c.steps ≤ bound c.table c.call
            ∧ ∀ a, c.phase = .finished a → a = c.call.direct r := by
  obtain ⟨r, hload, -⟩ := SSTableReader.load_write_refines .small SSTableReader.twoEntries
    (by decide) (by decide) (by decide +kernel)
  have hone := SSTableReader.oneLength_of_load_write .small
    (show SSTableReader.twoEntries.entries ≠ [] by decide) (by decide +kernel) hload
  have hpaths : ∀ t u : Bool, (if t then [97] else [98] : List Byte) = (if u then [97] else [98]) →
      t = u := by
    decide
  obtain ⟨bound, h⟩ := answers_direct (fun _ => 0) List.length
    (fun t : Bool => ⟨if t then [97] else [98], r⟩) hpaths (fun _ => hone)
  refine ⟨r, hload, bound, fun actions m hrun i c hc => ?_⟩
  obtain ⟨hanswer, -, hsteps⟩ := (h 64 actions m hrun).2 i c hc
  exact ⟨hsteps, hanswer⟩

/-- A file whose index gives an offset twice, with different lengths. -/
def sharedOffset : SSTableReader :=
  let payload : List Byte := leBytes 8 0 ++ (leBytes 4 1 ++ (97 :: (leBytes 4 0 ++ (leBytes 4 4
    ++ (leBytes 4 1 ++ (98 :: (leBytes 4 0 ++ leBytes 4 8)))))))
  { file := payload ++ (leBytes 4 8 ++ (leBytes 4 34 ++ (leBytes 4 0
      ++ leBytes 4 (computeCrc32 payload).toNat)))
    index := [⟨[97], 0, 4⟩, ⟨[98], 0, 8⟩]
    maxKey := [98] }

/-- The second block is served with the length of the first. -/
theorem served_sharedOffset :
    SSTableReader.load sharedOffset.file = .ok (some sharedOffset)
      ∧ (runSteps (step (fun _ => 0) List.length (fun _ : Unit => ⟨[], sharedOffset⟩))
          { cache := .new 1024 }
          [.call () (.get [97] ⟨0, 0, 0⟩), .step 0, .step 0, .call () (.get [98] ⟨0, 0, 0⟩),
            .step 1]).map (fun m => m.served)
        = some [((), ⟨[97], 0, 4⟩, [0, 0, 0, 0]), ((), ⟨[98], 0, 8⟩, [0, 0, 0, 0])]
      ∧ VLog.pread sharedOffset.file 8 0 = some [0, 0, 0, 0, 0, 0, 0, 0] := by
  decide +kernel

end ReadMachine
