import ForgeLSM.BloomLoad
import ForgeLSM.LsmEntries
import ForgeLSM.MergeLoop
import ForgeLSM.TableIterator
import ForgeLSM.Util.Relators

/-!
# The tree of tables, in files

`Lsm` is the tree with tables for its files. Here it is once more with files for
its tables: the MANIFEST and every table are bytes, a lookup opens the files it
comes to and searches their blocks, and a compaction merges through a heap of
iterators that walk the files of its inputs, and writes a file whenever a chunk
is full. Every part of it is a function the code has, and was considered by
itself elsewhere; here they work together.

`FileTree.Rep` says what a tree of files stands for. A file stands for a table
when it is what the writer makes of the table's entries; a merge under way stands
for a compaction when the entries its iterators have still to give, in the order
the heap will give them, make the chunks the compaction has still to write. Every
step keeps this and none of them fails – there is a lemma for each, called after
it – and a lookup in the files gives what the lookup in the tables gives
(`FileTree.Rep.lookup_eq`).

The payload of the tree of tables may say more than a pointer does; `ptr` is the
pointer of a payload.
-/

variable {V : Type}

/-! ## A table in its file -/

/-- **The file of a table.** -/
structure TableFile (env : Env) (ptr : V → VLogPointer) (file : List Byte) (t : SSTable V) :
    Prop where
  written : file = SSTableWriter.write env (t.contents.mapValues ptr).entries
  bloom : t.bloom = BloomFilter.build env t.contents.keys
  fits : ∀ e ∈ t.contents.entries, EntryFits (e.1, ptr e.2)
  size : file.length < 2 ^ 32

/-- **What an open table is for**: it has the range of the table, its filter
answers as the table's, a lookup finds what the table has, and an iterator goes
through the table's entries. -/
structure Opened (ptr : V → VLogPointer) (r : SSTableReader) (t : SSTable V) : Prop where
  minKey : r.minKey = t.minKey
  maxKey : r.maxKey = t.maxKey
  bloom : ∀ k, r.bloom.mayContain k = t.bloom.mayContain k
  get : ∀ cache : BlockCache r, cache.Coherent → ∀ k out,
    r.get cache k out = .ok ((t.get k).map ptr)
  iter : ∀ cache : BlockCache r, cache.Coherent → ∃ it,
    SSTableIterator.seekToFirst cache {} = .ok it ∧ it.valid = true
      ∧ it.collect cache = .ok (t.contents.mapValues ptr).entries

/-- **No filter has too many hashes**: their number is stored in four bytes. -/
def Env.FiltersFit (env : Env) : Prop := ∀ n, BloomFilter.hashCount env n < 2 ^ 32

/-- **The file of a table opens to it.** -/
theorem TableFile.load {env : Env} {ptr : V → VLogPointer} {file : List Byte} {t : SSTable V}
    (h : TableFile env ptr file t) (hk : env.FiltersFit) :
    ∃ r, SSTableReader.load file = .ok (some r) ∧ Opened ptr r t := by
  obtain ⟨rfl, hbloom, hfits, hsize⟩ := h
  have hne : (t.contents.mapValues ptr).entries ≠ [] := by
    simpa [OrdMap.mapValues] using t.nonempty
  have hfits' : ∀ e ∈ (t.contents.mapValues ptr).entries, EntryFits e := by
    intro e he
    obtain ⟨e', he', rfl⟩ := List.mem_map.mp he
    exact hfits e' he'
  obtain ⟨img, himgfile, himg⟩ := SSTableReader.exists_image env _ hne hfits' hsize
  obtain ⟨r, hload, hfile, hindex, -, -⟩ := SSTableReader.load_image img
  obtain ⟨r', hload', hmin, hmax, hget⟩ :=
    SSTableReader.load_write_refines env _ hne hfits' hsize
  rw [himgfile, hload'] at hload
  obtain rfl : r' = r := Option.some.inj (Except.ok.inj hload)
  refine ⟨r', hload', ⟨?_, ?_, fun k => ?_, fun cache hcache k out => ?_, fun cache hcache => ?_⟩⟩
  · rw [hmin]
    simp [SSTable.minKey, SSTable.write, OrdMap.mapValues, List.head_map]
  · rw [hmax]
    simp [SSTable.maxKey, SSTable.write, OrdMap.mapValues, List.getLast_map]
  · -- the filter of the file is the one it was written with
    obtain ⟨blocks, -, hwrite⟩ := SSTableWriter.write_eq env (t.contents.mapValues ptr).entries
    rw [hwrite] at hsize
    have hkeys : (t.contents.mapValues ptr).entries.map Prod.fst ≠ [] := by simpa using hne
    have hnum := BloomFilter.numHashes_build env hkeys
    obtain ⟨hof, -⟩ := SSTableReader.bloom_file (hnum ▸ hk _) hsize k 4096
    rw [SSTableReader.bloom_of_load hload', hwrite, hof, hbloom]
    exact congrArg (fun ks => (BloomFilter.build env ks).mayContain k) (OrdMap.keys_mapValues _ ptr)
  · rw [hget cache hcache k out, SSTable.get_eq, SSTable.get_eq]
    exact congrArg Except.ok (OrdMap.get_mapValues _ _ _)
  · rw [← himg]
    exact SSTableIterator.collect_image hcache hfile hindex {}

/-! ## The machine -/

/-- `SSTableReader::overlaps`. -/
def SSTableReader.overlaps (r : SSTableReader) (lo hi : Key) : Bool :=
  !(decide (r.maxKey < lo) || decide (r.minKey > hi))

/-- `IteratorWrapper`: an iterator over an open table, and where the table comes
from. -/
structure FileIter where
  reader : SSTableReader
  iter : SSTableIterator
  level : ℕ
  seq : ℕ

namespace FileIter

/-- The entry the iterator is at. -/
def item (w : FileIter) : MergeItem VLogPointer :=
  ⟨w.iter.currentKey, w.level, w.seq, w.iter.currentValue⟩

/-- `CompareIter`. -/
def after (a b : FileIter) : Bool := compareIter ⟨a.item, []⟩ ⟨b.item, []⟩

/-- An iterator that has been advanced is put back if it is at an entry. -/
def pushBack (w : FileIter) (it : SSTableIterator) (rest : List FileIter) : List FileIter :=
  if it.valid then { w with iter := it } :: rest else rest

end FileIter

/-- **A compaction in its loop.** -/
structure FileMerge where
  snapshot : Version
  source : Level
  target : Level
  src : List FileMetaData
  tgt : List FileMetaData
  pq : List FileIter
  /-- The variables of the loop. Its heap is `pq`. -/
  loop : MergeState VLogPointer := { pq := [] }
  /-- The files the edit adds so far. -/
  outputs : List FileMetaData := []

/-- **The tree of tables, in files.** -/
structure FileTree where
  /-- In memory. The records of the MANIFEST it keeps are not read. -/
  vs : VersionSet := {}
  /-- The bytes of the MANIFEST. -/
  manifest : List Byte := []
  /-- The bytes of the tables, by number. -/
  ssts : OrdMap ℕ (List Byte) := .empty
  flushing : Option FileMetaData := none
  job : Option FileMerge := none
  purging : Option Version := none

namespace FileTree

/-- `get_sstable_reader`: a table that is there is opened. -/
def reader (t : FileTree) (seq : ℕ) : Except TableError (Option SSTableReader) :=
  match t.ssts.get seq with
  | none => .ok none
  | some file => SSTableReader.load file

/-! ### Lookup -/

/-- One iteration of the search of a level. -/
def probe (env : Env) (t : FileTree) (k : Key) (f : FileMetaData) :
    Except TableError (Option VLogPointer) :=
  if k < f.minKey ∨ k > f.maxKey then .ok none
  else do
    match ← t.reader f.sequence with
    | none => .ok none
    | some r =>
      if !env.disableBloom && !r.bloom.mayContain k then .ok none
      else r.get (.empty r) k ⟨0, 0, 0⟩

/-- **The level search of `KVStore::get`.** -/
def lookup (env : Env) (t : FileTree) (k : Key) : Except TableError (Option VLogPointer) :=
  findSomeE (fun level => findSomeE (t.probe env k) (t.vs.current.files level))
    (List.finRange maxLevels)

/-! ### The MANIFEST -/

/-- **`VersionSet::log_and_apply`**: the record is appended, and a MANIFEST that
is too long replaced. -/
def logAndApply (env : Env) (t : FileTree) (e : VersionEdit) : FileTree :=
  let vs := t.vs.logAndApply env.stdSort e
  { t with
    vs := vs
    manifest :=
      if t.vs.rewrites e then frame (VersionSet.snapshotEdit vs.nextFileNumber vs.current)
      else t.manifest ++ frame (t.vs.prepare e) }

/-- The tree as `recover` finds it: the MANIFEST is read, and tables that are not
active are removed. -/
def recover (env : Env) (t : FileTree) : FileTree :=
  let vs := VersionSet.recover env.stdSort t.manifest
  { vs := vs
    manifest := t.manifest
    ssts := t.ssts.filterKeys (fun seq => (activeSsts vs.current).contains seq) }

/-! ### Flushes -/

/-- What an edit records of a table. -/
def tableMeta (es : List (Key × VLogPointer)) (size seq : ℕ) : FileMetaData where
  sequence := seq
  fileSize := size
  minKey := (es.head?.map Prod.fst).getD []
  maxKey := (es.getLast?.map Prod.fst).getD []

/-- **The first half of `flush_immutable`**: the table is written, and opened to
see that it can be. -/
def flushStart (env : Env) (t : FileTree) (entries : List (Key × VLogPointer)) :
    Except TableError (Option FileTree) :=
  if t.flushing.isSome then .ok none
  else
    let (seq, vs) := t.vs.freshFileNumber
    if entries = [] then .ok (some { t with vs := vs.removePendingOutput seq })
    else do
      match ← SSTableReader.load (SSTableWriter.write env entries) with
      | none => .error (.corrupt "[KVStore] SSTable flush reader load failed")
      | some _ =>
        let size := 24 + (entries.map (fun e => 20 + e.1.length)).sum
        .ok (some
          { t with
            vs := vs
            ssts := t.ssts.insert seq (SSTableWriter.write env entries)
            flushing := some (tableMeta entries size seq) })

/-- The second half. -/
def flushCommit (env : Env) (t : FileTree) : Option FileTree :=
  t.flushing.map (fun f => { t.logAndApply env (flushEdit f) with flushing := none })

/-! ### Compaction -/

/-- The files of the target level whose tables overlap the range. -/
def overlapping (t : FileTree) (lo hi : Key) :
    List FileMetaData → Except TableError (List FileMetaData) :=
  collectE (fun f => do
    let r ← t.reader f.sequence
    .ok (Option.guard (fun _ => r.any (fun r => r.overlaps lo hi)) f))

/-- The iterator over an input, if it is put on the heap. -/
def openIter (t : FileTree) (level : ℕ) (f : FileMetaData) :
    Except TableError (Option FileIter) := do
  match ← t.reader f.sequence with
  | none => .ok none
  | some r =>
    let it ← SSTableIterator.seekToFirst (.empty r) {}
    .ok (if it.valid then some ⟨r, it, level, f.sequence⟩ else none)

/-- **`run_compaction` up to its loop.** -/
def compactStart (env : Env) (t : FileTree) : Except TableError (Option FileTree) :=
  if t.job.isSome || t.purging.isSome then .ok none
  else
    match pickLevel env t.vs.current with
    | none => .ok (some t)
    | some source =>
      if h : source.val + 1 < maxLevels then do
        let src := srcInputs t.vs.current source
        let target : Level := ⟨source.val + 1, h⟩
        let tgt ← t.overlapping (globalMin src) (globalMax src) (t.vs.current.files target)
        let below ← collectE (t.openIter target.val) tgt
        let above ← collectE (t.openIter source.val) src
        .ok (some
          { t with
            job := some
              { snapshot := t.vs.current, source := source, target := target, src := src,
                tgt := tgt, pq := below ++ above } })
      else .ok (some t)

/-- `flush_chunk`, if the loop has come to it: the file is written under the next
number. -/
def writeChunk (env : Env) (t : FileTree) (j : FileMerge) : FileTree :=
  match j.loop.flushed with
  | [] => { t with job := some j }
  | c :: _ =>
    let (seq, vs) := t.vs.freshFileNumber
    { t with
      vs := vs
      ssts := t.ssts.insert seq (SSTableWriter.write env c.1)
      job := some
        { j with
          loop := { j.loop with flushed := [] }
          outputs := j.outputs ++ [tableMeta c.1 (c.2 + 24) seq] } }

/-- **A round of the loop**: the first iterator is taken off the heap, its entry
read, the iterator advanced and put back. Once the heap is empty, the last chunk is
left. -/
def compactOutput (env : Env) (Q : StdQueue) (t : FileTree) :
    Except TableError (Option FileTree) :=
  match t.job with
  | none => .ok none
  | some j =>
    match Q.pop FileIter.after j.pq with
    | none => .ok (if j.loop.chunk.isEmpty then none
        else some (t.writeChunk env { j with loop := j.loop.flushChunk }))
    | some (top, rest) => do
      let it ← top.iter.next (.empty top.reader)
      .ok (some (t.writeChunk env
        { j with
          pq := top.pushBack it rest
          loop := j.loop.take env.opts.flushThresholdBytes j.target top.item }))

/-- The edit of a compaction. -/
def mergeEdit (j : FileMerge) : VersionEdit where
  deletedFiles := j.src.map (fun f => ((j.source.val : ℤ), f.sequence))
    ++ j.tgt.map (fun f => ((j.target.val : ℤ), f.sequence))
  newFiles := j.outputs.map (fun f => ((j.target.val : ℤ), f))

/-- The edit is logged. -/
def compactCommit (env : Env) (t : FileTree) : Option FileTree :=
  t.job.bind (fun j => if j.pq = [] ∧ j.loop.chunk.isEmpty then some
      { t.logAndApply env (mergeEdit j) with job := none, purging := some j.snapshot }
    else none)

/-- Whether `purge_obsolete_files` keeps a file. -/
def keepsFile (t : FileTree) (snapshot : Version) (seq : ℕ) : Bool :=
  (List.finRange maxLevels).any (fun level =>
      (t.vs.current.files level ++ snapshot.files level).any (fun f => f.sequence == seq))
    || t.vs.pendingOutputs.contains seq || decide (t.vs.nextFileNumber ≤ seq)

/-- `VersionSet::purge_obsolete_files`. -/
def purgeObsoleteFiles (t : FileTree) : Option FileTree :=
  t.purging.map (fun snapshot =>
    { t with ssts := t.ssts.filterKeys (t.keepsFile snapshot), purging := none })

end FileTree

/-! ## What a tree of files stands for -/

namespace FileIter

/-- The entries the iterator has still to give. -/
def items (w : FileIter) : List (MergeItem VLogPointer) :=
  match w.iter.collect (.empty w.reader) with
  | .ok es => es.map (fun e => ⟨e.1, w.level, w.seq, e.2⟩)
  | .error _ => []

/-- **The iterator works**: it is at an entry and will not fail, and its keys
ascend. -/
def Live (w : FileIter) : Prop :=
  w.iter.valid = true ∧ ∃ es, w.iter.collect (.empty w.reader) = .ok es
    ∧ es.Pairwise (fun a b => a.1 < b.1)

/-- **A step of an iterator that works**: what it had to give is its entry and
what it has to give then, back on a heap whose iterators work. -/
theorem Live.next {w : FileIter} (h : w.Live) :
    ∃ it l, w.iter.next (.empty w.reader) = .ok it ∧ w.items = w.item :: l
      ∧ ∀ rest : List FileIter, (∀ v ∈ rest, v.Live) → (∀ v ∈ w.pushBack it rest, v.Live)
        ∧ (w.pushBack it rest).flatMap items = l ++ rest.flatMap items := by
  obtain ⟨hv, es, hes, hsorted⟩ := h
  have hcollect := hes
  rw [SSTableIterator.collect, dif_pos hv] at hcollect
  unfold items pushBack
  rw [hes]
  split at hcollect
  · cases hcollect
  · rename_i it hnext
    refine ⟨it, ?_⟩
    by_cases hv' : it.valid = true
    · rw [dif_pos hv'] at hcollect
      split at hcollect
      · cases hcollect
      · rename_i es' hes'
        cases hcollect
        refine ⟨_, hnext, rfl, fun rest hrest => ?_⟩
        rw [if_pos hv', List.flatMap_cons]
        dsimp only
        rw [hes']
        exact ⟨List.forall_mem_cons.mpr
          ⟨⟨hv', es', hes', (List.pairwise_cons.mp hsorted).2⟩, hrest⟩, rfl⟩
    · rw [dif_neg hv'] at hcollect
      cases hcollect
      refine ⟨[], hnext, rfl, fun rest hrest => ?_⟩
      rw [if_neg hv']
      exact ⟨hrest, rfl⟩

theorem Live.items_sorted {w : FileIter} (h : w.Live) :
    w.items.Pairwise (fun a b => a.le b = true) := by
  obtain ⟨-, es, hes, hsorted⟩ := h
  unfold items
  rw [hes]
  exact List.pairwise_map.mpr (hsorted.imp (fun hab => MergeItem.le_iff.mpr (Or.inl hab)))

/-- Of two iterators that work, the one that does not come after the other is at
the entry before. -/
theorem Live.le_of_after {v w : FileIter} (hv : v.Live) (hw : w.Live) (h : after v w = false)
    {a b : MergeItem VLogPointer} (ha : v.items.head? = some a) (hb : w.items.head? = some b) :
    a.le b = true := by
  obtain ⟨_, _, -, hitems, -⟩ := hv.next
  obtain ⟨_, _, -, hitems', -⟩ := hw.next
  rw [hitems] at ha
  rw [hitems'] at hb
  cases ha
  cases hb
  rwa [after, compareIter_eq, Bool.not_eq_false'] at h

theorem strictWeak_after : StrictWeak after where
  irrefl _ := strictWeak_compareIter.irrefl _
  trans _ _ _ := strictWeak_compareIter.trans _ _ _
  incomp _ _ _ := strictWeak_compareIter.incomp _ _ _

end FileIter

/-- **The chunks a merge has still to write**: those which the entries that its
iterators have still to give make, in the order the heap will give them. The order
leaves the heap no choice. -/
def Pending (env : Env) (j : FileMerge) (out : List (List (Key × VLogPointer) × ℕ)) : Prop :=
  ∃ xs : List (MergeItem VLogPointer), xs.Pairwise (fun a b => a.le b = true)
    ∧ xs.Perm (j.pq.flatMap FileIter.items)
    ∧ (∀ a ∈ xs, ∀ b ∈ xs, a.le b = true → b.le a = true → a = b)
    ∧ out = chunkLoop env.opts.flushThresholdBytes j.loop.chunk j.loop.chunkSize
      (MergeState.kept j.target j.loop.last xs)

/-- What the loop does not touch, and the files it has written. -/
structure SameMerge (j : FileMerge) (c : Compaction V) : Prop where
  snapshot : j.snapshot = c.snapshot
  source : j.source = c.source
  target : j.target = c.target
  src : j.src = c.src
  tgt : j.tgt = c.tgt
  outputs : j.outputs = c.outputs

/-- A chunk, without what its payload says besides the pointers. -/
def Chunk.erase (ptr : V → VLogPointer) (c : Chunk V) : List (Key × VLogPointer) × ℕ :=
  ((c.contents.mapValues ptr).entries, c.size)

/-- **A merge stands for a compaction.** -/
structure MergeRep (env : Env) (ptr : V → VLogPointer) (j : FileMerge) (c : Compaction V) :
    Prop where
  same : SameMerge j c
  live : ∀ w ∈ j.pq, w.Live
  fits : ∀ chunk ∈ c.todo, ∀ k v, chunk.contents.get k = some v → EntryFits (k, ptr v)
  flushed : j.loop.flushed = []
  todo : Pending env j (c.todo.map (Chunk.erase ptr))

/-- **A tree of files stands for a tree of tables.** -/
structure FileTree.Rep (env : Env) (ptr : V → VLogPointer) (t : FileTree) (s : Lsm V) :
    Prop where
  vs : t.vs = s.vs
  manifest : t.manifest = s.vs.manifestBytes
  ssts : ∀ seq, Option.Rel (TableFile env ptr) (t.ssts.get seq) (s.tables.get seq)
  flushing : t.flushing = s.flushing
  job : Option.Rel (MergeRep env ptr) t.job s.job
  purging : t.purging = s.purging

/-- No table file reaches `2 ^ 32` bytes. -/
def FileTree.Small (t : FileTree) : Prop := ∀ e ∈ t.ssts.entries, e.2.length < 2 ^ 32

instance (t : FileTree) : Decidable t.Small :=
  inferInstanceAs (Decidable (∀ e ∈ t.ssts.entries, e.2.length < 2 ^ 32))

namespace FileTree

variable {env : Env} {ptr : V → VLogPointer} {t t' : FileTree} {s s' : Lsm V}

theorem rep_empty : Rep env ptr {} ({} : Lsm V) where
  vs := rfl
  manifest := rfl
  ssts _ := .none
  flushing := rfl
  job := .none
  purging := rfl

/-- A table is opened, if it is there. -/
theorem Rep.reader (h : Rep env ptr t s) (hk : env.FiltersFit)
    (seq : ℕ) : ∃ o, t.reader seq = .ok o ∧ Option.Rel (Opened ptr) o (s.tables.get seq) := by
  unfold FileTree.reader
  obtain ⟨ht, hs⟩ | ⟨file, table, ht, hs, hfile⟩ := rel_cases (h.ssts seq) <;> rw [ht, hs]
  · exact ⟨none, rfl, .none⟩
  · obtain ⟨r, hload, hopen⟩ := hfile.load hk
    exact ⟨some r, hload, .some hopen⟩

/-- A file gives what the table of it gives. -/
theorem Rep.probe_eq (h : Rep env ptr t s) (hk : env.FiltersFit)
    (k : Key) (f : FileMetaData) :
    t.probe env k f = .ok ((probeFile env s.tables k f).map ptr) := by
  obtain ⟨o, hread, hrel⟩ := h.reader hk f.sequence
  unfold probe probeFile
  rw [hread]
  split_ifs with hrange
  · rfl
  · obtain ⟨rfl, hs⟩ | ⟨r, table, rfl, hs, hopen⟩ := rel_cases hrel <;> rw [hs]
    · rfl
    · show (if !env.disableBloom && !r.bloom.mayContain k then .ok none else r.get _ k _) = _
      rw [hopen.bloom k, hopen.get _ (.empty r)]
      dsimp only
      split_ifs <;> rfl

/-- **A lookup in the files is the lookup in the tables.** -/
theorem Rep.lookup_eq (h : Rep env ptr t s) (hk : env.FiltersFit)
    (k : Key) : t.lookup env k = .ok ((s.lookup env k).map ptr) := by
  refine findSomeE_eq (fun level => ?_)
  rw [findSomeE_eq (fun f => h.probe_eq hk k f), h.vs]
  rfl

/-! ### Flushes and the MANIFEST -/

/-- The bytes of the MANIFEST after an edit is logged. -/
theorem manifestBytes_logAndApply (S : StdSort) (vs : VersionSet) (e : VersionEdit) :
    (vs.logAndApply S e).manifestBytes =
      if vs.rewrites e then frame (VersionSet.snapshotEdit (vs.logAndApply S e).nextFileNumber
        (vs.logAndApply S e).current)
      else vs.manifestBytes ++ frame (vs.prepare e) := by
  unfold VersionSet.manifestBytes VersionSet.logAndApply
  split_ifs <;> simp

theorem Rep.logAndApply (h : Rep env ptr t s) (e : VersionEdit) :
    Rep env ptr (t.logAndApply env e) { s with vs := s.vs.logAndApply env.stdSort e } where
  vs := congrArg (fun vs => vs.logAndApply env.stdSort e) h.vs
  manifest := by
    rw [manifestBytes_logAndApply, FileTree.logAndApply, h.vs, h.manifest]
  ssts := h.ssts
  flushing := h.flushing
  job := h.job
  purging := h.purging

theorem tableMeta_mapValues {m : OrdMap Key V} (h : m.entries ≠ []) (size seq : ℕ) :
    tableMeta (m.mapValues ptr).entries size seq
      = ⟨seq, size, (m.entries.head h).1, (m.entries.getLast h).1⟩ := by
  simp [tableMeta, OrdMap.mapValues, List.head?_eq_some_head h,
    List.getLast?_eq_getLast_of_ne_nil h]

/-- **The first half of a flush**, of entries that fit. -/
theorem Rep.flushStart (h : Rep env ptr t s) (hk : env.FiltersFit)
    {m : OrdMap Key V} (hfits : ∀ e ∈ m.entries, EntryFits (e.1, ptr e.2))
    (hsize : (SSTableWriter.write env (m.mapValues ptr).entries).length < 2 ^ 32) :
    ∃ o, t.flushStart env (m.mapValues ptr).entries = .ok o
      ∧ Option.Rel (Rep env ptr) o (s.flushStart env m) := by
  unfold FileTree.flushStart Lsm.flushStart
  rw [h.flushing]
  by_cases hbusy : s.flushing.isSome = true
  · rw [if_pos hbusy, if_pos hbusy]
    exact ⟨none, rfl, .none⟩
  rw [if_neg hbusy, if_neg hbusy, h.vs]
  dsimp only
  have hiff : (m.mapValues ptr).entries = [] ↔ m.entries = [] := List.map_eq_nil_iff
  by_cases hm : m.entries = []
  · rw [dif_pos hm, if_pos (hiff.mpr hm)]
    exact ⟨_, rfl, .some { h with vs := rfl, manifest := h.manifest, flushing := rfl }⟩
  · have hfile : TableFile env ptr (SSTableWriter.write env (m.mapValues ptr).entries)
        (SSTable.write env m hm) := ⟨rfl, rfl, hfits, hsize⟩
    obtain ⟨r, hload, -⟩ := hfile.load hk
    rw [dif_neg hm, if_neg (mt hiff.mp hm), hload]
    refine ⟨_, rfl, .some
      { h with
        vs := rfl
        manifest := h.manifest
        ssts := rel_insert h.ssts _ hfile
        flushing := ?_ }⟩
    rw [tableMeta_mapValues hm, OrdMap.mapValues, List.map_map]
    rfl

/-- **The second half of a flush.** -/
theorem Rep.flushCommit (h : Rep env ptr t s) :
    Option.Rel (Rep env ptr) (t.flushCommit env) (s.flushCommit env) := by
  unfold FileTree.flushCommit Lsm.flushCommit
  rw [h.flushing]
  cases s.flushing with
  | none => exact .none
  | some f => exact .some { h.logAndApply (flushEdit f) with flushing := rfl }

theorem Rep.purgeObsoleteFiles (h : Rep env ptr t s) :
    Option.Rel (Rep env ptr) t.purgeObsoleteFiles s.purgeObsoleteFiles := by
  unfold FileTree.purgeObsoleteFiles Lsm.purgeObsoleteFiles
  rw [h.purging]
  cases s.purging with
  | none => exact .none
  | some snapshot =>
    have hkeeps : t.keepsFile snapshot = s.keepsTable snapshot := by
      funext seq
      rw [keepsFile, Lsm.keepsTable, h.vs]
    refine .some { h with ssts := fun seq => ?_, purging := rfl }
    show Option.Rel _ ((t.ssts.filterKeys (t.keepsFile snapshot)).get seq) _
    rw [hkeeps]
    exact rel_filterKeys h.ssts _ seq

end FileTree

/-! ### The start of a compaction -/

/-- The item of an input, without what its payload says besides the pointer. -/
def MergeItem.erase (ptr : V → VLogPointer) (x : MergeItem V) : MergeItem VLogPointer :=
  ⟨x.key, x.level, x.seq, ptr x.value⟩

/-- Entries are cut where their keys say. -/
theorem chunkLoop_map (ptr : V → VLogPointer) (limit : ℕ) (chunk : List (Key × V)) (size : ℕ)
    (es : List (Key × V)) :
    chunkLoop limit (chunk.map (fun e => (e.1, ptr e.2))) size
        (es.map (fun e => (e.1, ptr e.2)))
      = (chunkLoop limit chunk size es).map
        (fun c => (c.1.map (fun e => (e.1, ptr e.2)), c.2)) := by
  induction es generalizing chunk size with
  | nil =>
    rw [List.map_nil, chunkLoop, chunkLoop]
    cases chunk <;> rfl
  | cons e es ih =>
    rw [List.map_cons, chunkLoop, chunkLoop]
    dsimp only
    split_ifs with hfull
    · rw [List.map_cons, ← ih [] 0, List.map_append]
      rfl
    · rw [← ih, List.map_append]
      rfl

/-- The first item of every key is chosen by the keys. -/
theorem dedupKey_erase (ptr : V → VLogPointer) (last : Option Key) (xs : List (MergeItem V)) :
    dedupKey MergeItem.key last (xs.map (MergeItem.erase ptr))
      = (dedupKey MergeItem.key last xs).map (MergeItem.erase ptr) := by
  induction xs generalizing last with
  | nil => rfl
  | cons x xs ih =>
    rw [List.map_cons, dedupKey, dedupKey]
    show (if last = some x.key then _ else x.erase ptr :: dedupKey _ (some x.key) _) = _
    split_ifs
    · exact ih last
    · rw [List.map_cons, ih]

section Start

variable {ptr : V → VLogPointer}

/-- What the loop keeps of some items, it keeps of them without the rest of their
payload. -/
theorem kept_erase [Payload V]
    (hptr : ∀ v : V, Payload.isTombstone v = (ptr v).isTombstone) (target : Level)
    (last : Option Key) (xs : List (MergeItem V)) :
    MergeState.kept target last (xs.map (MergeItem.erase ptr))
      = (MergeState.kept target last xs).map (fun e => (e.1, ptr e.2)) := by
  unfold MergeState.kept
  rw [dedupKey_erase, List.map_map, List.filter_map, List.filter_map, List.map_map]
  refine congrArg (List.map _) (List.filter_congr (fun x _ => ?_))
  show MergeState.keeps target (ptr x.value) = MergeState.keeps target x.value
  unfold MergeState.keeps
  rw [hptr x.value]
  rfl

/-- **In a version of the right shape, the inputs of a compaction have different
tags** wherever they have a key in common. -/
theorem Shape.tagged {tables : Tables V} {v : Version} (hs : Shape tables v) {source target : Level}
    (htarget : target.val = source.val + 1) :
    MergeInput.Tagged (MergeInput.ofFiles tables source.val target.val (srcInputs v source)
      (targetInputs tables v target (srcInputs v source))) := by
  have htgt0 : target ≠ 0 := fun hc => by
    rw [hc, Fin.val_zero] at htarget
    omega
  unfold MergeInput.Tagged MergeInput.ofFiles
  refine List.pairwise_append.mpr ⟨?_, ?_, ?_⟩
  · -- files of one level below the first share no key
    refine List.pairwise_map.mpr (List.Pairwise.filter _ ?_)
    have hex := fun k => hs.exclusive htgt0 k
    unfold Exclusive at hex
    refine (List.pairwise_iff_forall_sublist).mpr (fun {a b} hab k x y hx hy => ?_)
    rcases List.pairwise_iff_forall_sublist.mp (hex k) hab with hnone | hnone
    · exact absurd (hnone.symm.trans hx) nofun
    · exact absurd (hnone.symm.trans hy) nofun
  · -- files of the first level have different numbers, and else there is one file
    refine List.pairwise_map.mpr ?_
    unfold srcInputs
    split_ifs with h0
    · refine hs.l0.imp (fun {a b} hab k x y _ _ heq => ?_)
      exact hab.ne' (congrArg Prod.snd heq)
    · cases v.files source <;> simp
  · intro i hi j hj k x y _ _ heq
    obtain ⟨f, -, rfl⟩ := List.mem_map.mp hi
    obtain ⟨g, -, rfl⟩ := List.mem_map.mp hj
    have : target.val = source.val := congrArg Prod.fst heq
    omega

end Start

namespace FileTree

variable {env : Env} {ptr : V → VLogPointer} {t t' : FileTree} {s s' : Lsm V} {c : Compaction V}

/-- The entries of the tables fit. -/
theorem Rep.entries (h : Rep env ptr t s) (hidle : s.job = none) :
    s.Entries (fun k v => EntryFits (k, ptr v)) where
  tables seq table hget k v hv := by
    have hrel := h.ssts seq
    rw [hget] at hrel
    obtain ⟨file, -, hfile⟩ := exists_of_rel_some hrel
    exact hfile.fits (k, v) (table.contents.mem_entries_iff.mpr hv)
  todo c hc := by
    rw [hidle] at hc
    cases hc

/-- The files that overlap a range are those whose tables do. -/
theorem Rep.overlapping_eq (h : Rep env ptr t s) (hk : env.FiltersFit) (lo hi : Key)
    (fs : List FileMetaData) :
    t.overlapping lo hi fs = .ok (fs.filter (fileOverlaps s.tables lo hi)) := by
  rw [← List.filterMap_eq_filter]
  refine collectE_eq (fun f => ?_)
  obtain ⟨o, hread, hrel⟩ := h.reader hk f.sequence
  rw [hread, Option.guard, fileOverlaps]
  obtain ⟨rfl, hs⟩ | ⟨r, table, rfl, hs, hopen⟩ := rel_cases hrel <;> rw [hs]
  · rfl
  · show Except.ok (if r.overlaps lo hi then some f else none)
      = .ok (if table.overlaps lo hi then some f else none)
    rw [SSTableReader.overlaps, SSTable.overlaps, hopen.minKey, hopen.maxKey]

/-- **The iterator over an input** works, and has the entries of the table to
give. -/
theorem Rep.openIter_spec (h : Rep env ptr t s) (hk : env.FiltersFit) (level : ℕ)
    (f : FileMetaData) :
    ∃ o, t.openIter level f = .ok o ∧ (∀ w ∈ o, w.Live) ∧ o.toList.flatMap FileIter.items
      = (fileItems s.tables level f).map (MergeItem.erase ptr) := by
  obtain ⟨o, hread, hrel⟩ := h.reader hk f.sequence
  unfold openIter fileItems fileContents
  rw [hread]
  obtain ⟨rfl, hs⟩ | ⟨r, table, rfl, hs, hopen⟩ := rel_cases hrel <;> rw [hs]
  · exact ⟨none, rfl, nofun, rfl⟩
  · obtain ⟨it, hit, hvalid, hcollect⟩ := hopen.iter (.empty r) (.empty r)
    refine ⟨some ⟨r, it, level, f.sequence⟩, ?_, ?_, ?_⟩
    · show (SSTableIterator.seekToFirst (.empty r) {}).bind _ = _
      rw [hit]
      exact congrArg Except.ok (if_pos hvalid)
    · rintro _ ⟨⟩
      exact ⟨hvalid, _, hcollect, OrdMap.sorted _⟩
    · show FileIter.items _ ++ [] = _
      rw [List.append_nil, FileIter.items]
      dsimp only
      rw [hcollect, List.map_map]
      exact List.map_map

theorem Rep.openIters_spec (h : Rep env ptr t s) (hk : env.FiltersFit) (level : ℕ)
    (fs : List FileMetaData) :
    ∃ ws, collectE (t.openIter level) fs = .ok ws ∧ (∀ w ∈ ws, w.Live)
      ∧ ws.flatMap FileIter.items
        = fs.flatMap (fun f => (fileItems s.tables level f).map (MergeItem.erase ptr)) := by
  choose o ho using h.openIter_spec hk level
  refine ⟨_, collectE_eq (fun f => (ho f).1), fun w hw => ?_, ?_⟩
  · obtain ⟨f, -, hf⟩ := List.mem_filterMap.mp hw
    exact (ho f).2.1 w hf
  · rw [List.filterMap_eq_flatMap_toList, List.flatMap_assoc]
    exact congrArg (fun g => List.flatMap g fs) (funext (fun f => (ho f).2.2))

/-- **A merge at its start** has the chunks of the compaction to write. -/
theorem pending_start [Payload V] (hptr : ∀ v : V, Payload.isTombstone v = (ptr v).isTombstone)
    {source : ℕ} {src tgt : List FileMetaData} {j : FileMerge} (hloop : j.loop = { pq := [] })
    (htagged : MergeInput.Tagged (MergeInput.ofFiles s.tables source j.target.val src tgt))
    (hitems : j.pq.flatMap FileIter.items
      = (MergeInput.ofFiles s.tables source j.target.val src tgt).flatMap
        (fun i => i.items.map (MergeItem.erase ptr))) :
    Pending env j ((chunks env.opts.flushThresholdBytes (dropTombstones j.target
      (mergeInputs s.tables source j.target.val src tgt))).map (Chunk.erase ptr)) := by
  rw [← MergeInput.merged_ofFiles]
  generalize MergeInput.ofFiles s.tables source j.target.val src tgt = inputs at *
  obtain ⟨hsorted, hperm⟩ := MergeInput.sortedItems_spec inputs
  have hmem : ∀ {x}, x ∈ MergeInput.sortedItems inputs ↔ x ∈ inputs.flatMap MergeInput.items :=
    hperm.mem_iff
  refine ⟨(MergeInput.sortedItems inputs).map (MergeItem.erase ptr),
    List.pairwise_map.mpr hsorted, ?_, ?_, ?_⟩
  · rw [hitems, ← List.map_flatMap]
    exact hperm.map (MergeItem.erase ptr)
  · intro a ha b hb hab hba
    obtain ⟨x, hx, rfl⟩ := List.mem_map.mp ha
    obtain ⟨y, hy, rfl⟩ := List.mem_map.mp hb
    rw [htagged.antisymm (hmem.mp hx) (hmem.mp hy) hab hba]
  · -- the four passes do the same without the rest of the payload
    rw [hloop, kept_erase hptr]
    refine Eq.trans ?_ (chunkLoop_map ptr env.opts.flushThresholdBytes [] 0
      (MergeState.kept j.target none (MergeInput.sortedItems inputs))).symm
    unfold chunks
    rw [List.map_pmap]
    show List.pmap (fun (c : List (Key × V) × ℕ) _ => (c.1.map (fun e => (e.1, ptr e.2)), c.2))
      _ _ = _
    rw [List.pmap_eq_map]
    rfl

/-- **The start of a compaction.** -/
theorem Rep.compactStart [Payload V] (h : Rep env ptr t s)
    (hk : env.FiltersFit)
    (hptr : ∀ v : V, Payload.isTombstone v = (ptr v).isTombstone)
    (hs : Shape s.tables s.vs.current) :
    ∃ o, t.compactStart env = .ok o ∧ Option.Rel (Rep env ptr) o (s.compactStart env) := by
  unfold FileTree.compactStart Lsm.compactStart
  rw [isSome_of_rel h.job, h.purging]
  by_cases hbusy : (s.job.isSome || s.purging.isSome) = true
  · rw [if_pos hbusy, if_pos hbusy]
    exact ⟨none, rfl, .none⟩
  rw [if_neg hbusy, if_neg hbusy, h.vs]
  have hidle : s.job = none := by
    rw [Bool.or_eq_true, not_or] at hbusy
    simpa using hbusy.1
  have hfits : ∀ c, Compaction.start env s.tables s.vs.current = some c → ∀ chunk ∈ c.todo, ∀ k v,
      chunk.contents.get k = some v → EntryFits (k, ptr v) := fun c hc => (h.entries hidle).start hc
  unfold Compaction.start at hfits ⊢
  cases hpick : pickLevel env s.vs.current with
  | none => exact ⟨_, rfl, .some { h with job := hidle ▸ h.job }⟩
  | some source =>
    dsimp only
    by_cases hlt : source.val + 1 < maxLevels
    case neg =>
      rw [dif_neg hlt, dif_neg hlt]
      exact ⟨_, rfl, .some { h with job := hidle ▸ h.job }⟩
    rw [dif_pos hlt, dif_pos hlt, h.overlapping_eq hk]
    obtain ⟨below, hbelow, hlive, hitems⟩ := h.openIters_spec hk (source.val + 1)
      ((s.vs.current.files ⟨source.val + 1, hlt⟩).filter
        (fileOverlaps s.tables (globalMin (srcInputs s.vs.current source))
          (globalMax (srcInputs s.vs.current source))))
    obtain ⟨above, habove, hlive', hitems'⟩ := h.openIters_spec hk source.val
      (srcInputs s.vs.current source)
    show ∃ o, (collectE (t.openIter (source.val + 1)) _).bind _ = _ ∧ _
    rw [hbelow]
    show ∃ o, (collectE (t.openIter source.val) _).bind _ = _ ∧ _
    rw [habove]
    refine ⟨_, rfl, .some
      { h with vs := rfl, manifest := h.manifest, purging := rfl, job := .some ?_ }⟩
    rw [hpick] at hfits
    dsimp only at hfits
    rw [dif_pos hlt] at hfits
    refine ⟨⟨rfl, rfl, rfl, rfl, rfl, rfl⟩, fun w hw => ?_, hfits _ rfl, rfl,
      pending_start hptr rfl (Shape.tagged hs rfl) ?_⟩
    · exact (List.mem_append.mp hw).elim (hlive w) (hlive' w)
    · rw [List.flatMap_append, hitems, hitems', MergeInput.ofFiles, List.flatMap_append,
        List.flatMap_map, List.flatMap_map]
      rfl

/-! ### The rounds of a compaction -/

/-- A round writes a chunk or does not. -/
theorem take_flushed (limit : ℕ) (target : Level) {l : MergeState VLogPointer}
    (hl : l.flushed = []) (x : MergeItem VLogPointer) :
    (l.take limit target x).flushed = [] ∨ ∃ c, (l.take limit target x).flushed = [c] := by
  unfold MergeState.take MergeState.pushEntry MergeState.flushChunk
  dsimp only
  split_ifs
  all_goals first
    | exact Or.inl hl
    | exact Or.inr ⟨_, by rw [hl]; rfl⟩

/-- **A chunk is written**: the next output of the compaction. -/
theorem Rep.writeChunk [Payload V] (h : Rep env ptr t s) (hjob : s.job = some c) {j : FileMerge}
    (hsame : SameMerge j c) (hlive : ∀ w ∈ j.pq, w.Live)
    (hfits : ∀ chunk ∈ c.todo, ∀ k v, chunk.contents.get k = some v → EntryFits (k, ptr v))
    {first : List (Key × VLogPointer) × ℕ} {out : List (List (Key × VLogPointer) × ℕ)}
    (hflushed : j.loop.flushed = [first]) (htodo : c.todo.map (Chunk.erase ptr) = first :: out)
    (hpending : Pending env j out) (hsmall : (t.writeChunk env j).Small) :
    ∃ s', s.compactOutput env = some s' ∧ Rep env ptr (t.writeChunk env j) s' := by
  obtain ⟨chunk, todo, hcons, rfl, rfl⟩ := List.map_eq_cons_iff.mp htodo
  have hwrite : t.writeChunk env j =
      { t with
        vs := t.vs.freshFileNumber.2
        ssts := t.ssts.insert t.vs.freshFileNumber.1 (SSTableWriter.write env (chunk.erase ptr).1)
        job := some
          { j with
            loop := { j.loop with flushed := [] }
            outputs := j.outputs ++ [tableMeta (chunk.contents.mapValues ptr).entries
              (chunk.size + 24) t.vs.freshFileNumber.1] } } := by
    unfold FileTree.writeChunk
    rw [hflushed]
    rfl
  rw [hwrite] at hsmall ⊢
  unfold Lsm.compactOutput
  rw [hjob]
  dsimp only
  rw [hcons] at hfits ⊢
  obtain ⟨hfirst, hfits⟩ := List.forall_mem_cons.mp hfits
  refine ⟨_, rfl, ?_⟩
  have hfile : TableFile env ptr (SSTableWriter.write env (chunk.erase ptr).1)
      (SSTable.write env chunk.contents chunk.nonempty) := by
    refine ⟨rfl, rfl, fun e he => hfirst e.1 e.2 ((OrdMap.mem_entries_iff _).mp he), ?_⟩
    exact hsmall (t.vs.freshFileNumber.1, _)
      ((OrdMap.mem_entries_iff _).mpr (OrdMap.get_insert_self _ _ _))
  rw [h.vs]
  refine
    { h with
      vs := rfl
      manifest := h.manifest
      ssts := rel_insert h.ssts _ hfile
      job := .some ⟨{ hsame with outputs := ?_ }, hlive, hfits, rfl, hpending⟩ }
  rw [tableMeta_mapValues chunk.nonempty, hsame.outputs]
  rfl

/-- The job of a tree with a merge under way. -/
theorem Rep.exists_job (h : Rep env ptr t s) {j : FileMerge} (hj : t.job = some j) :
    ∃ c, s.job = some c ∧ MergeRep env ptr j c := by
  have hrel := h.job
  rw [hj] at hrel
  exact exists_of_some_rel hrel

/-- A merge whose heap is empty has its chunk to write and nothing else. -/
theorem todo_of_empty {j : FileMerge} (h : MergeRep env ptr j c) (hpq : j.pq = []) :
    c.todo.map (Chunk.erase ptr)
      = if j.loop.chunk.isEmpty then [] else [(j.loop.chunk, j.loop.chunkSize)] := by
  obtain ⟨xs, -, hperm, -, hout⟩ := h.todo
  rw [hpq] at hperm
  obtain rfl := hperm.eq_nil
  exact hout

/-- **The last chunk.** -/
theorem Rep.lastChunk [Payload V] (h : Rep env ptr t s) {j : FileMerge} (hc : s.job = some c)
    (hrep : MergeRep env ptr j c) (hpq : j.pq = []) (hchunk : ¬j.loop.chunk.isEmpty = true)
    (hsmall : (t.writeChunk env { j with loop := j.loop.flushChunk }).Small) :
    ∃ s', s.compactOutput env = some s'
      ∧ Rep env ptr (t.writeChunk env { j with loop := j.loop.flushChunk }) s' := by
  have htodo := todo_of_empty hrep hpq
  rw [if_neg hchunk] at htodo
  have hflush : j.loop.flushChunk =
      { j.loop with
        flushed := [(j.loop.chunk, j.loop.chunkSize)]
        chunk := []
        chunkSize := 0 } := by
    unfold MergeState.flushChunk
    rw [if_neg hchunk, hrep.flushed]
    rfl
  rw [hflush] at hsmall ⊢
  refine h.writeChunk hc { hrep.same with } hrep.live hrep.fits rfl htodo ?_ hsmall
  exact ⟨[], .nil, by rw [hpq]; exact List.Perm.refl _, List.forall_mem_nil _, rfl⟩

/-- **A round of the loop**: it does not fail, and it is nothing to the tree of
tables, or the writing of the next output. -/
theorem Rep.compactOutput [Payload V] (h : Rep env ptr t s) (Q : StdQueue) :
    ∃ o, t.compactOutput env Q = .ok o ∧ ∀ t', o = some t' → t'.Small →
      Rep env ptr t' s ∨ ∃ s', s.compactOutput env = some s' ∧ Rep env ptr t' s' := by
  unfold FileTree.compactOutput
  cases hj : t.job with
  | none => exact ⟨none, rfl, nofun⟩
  | some j =>
    obtain ⟨c, hc, hrep⟩ := h.exists_job hj
    dsimp only
    cases hpop : Q.pop FileIter.after j.pq with
    | none =>
      refine ⟨_, rfl, fun t' ht' hsmall => ?_⟩
      split_ifs at ht' with hchunk
      cases ht'
      exact Or.inr (h.lastChunk hc hrep ((Q.pop_eq_none _ _).mp hpop) hchunk hsmall)
    | some p =>
      obtain ⟨top, rest⟩ := p
      have hperm := Q.perm hpop
      obtain ⟨it, l, hnext, hitems, hback⟩ :=
        (hrep.live top (hperm.mem_iff.mpr List.mem_cons_self)).next
      show ∃ o, (top.iter.next (.empty top.reader)).bind _ = _ ∧ _
      rw [hnext]
      refine ⟨_, rfl, fun t' ht' hsmall => ?_⟩
      cases ht'
      obtain ⟨xs, hsorted, hxs, hanti, htodo⟩ := hrep.todo
      have hlive := hrep.live
      obtain ⟨ys, rfl, hys⟩ : ∃ ys, xs = top.item :: ys
          ∧ ys.Perm (l ++ rest.flatMap FileIter.items) :=
        Q.pop_view FileIter.strictWeak_after MergeItem.le_trans hpop
          (fun v hv w hw a b hvw => (hlive v hv).le_of_after (hlive w hw) hvw)
          (fun w hw => (hlive w hw).items_sorted) hsorted hxs hanti hitems
      obtain ⟨hlive', hview⟩ := hback rest
        (fun w hw => hlive w (hperm.mem_iff.mpr (List.mem_cons_of_mem top hw)))
      obtain ⟨-, hspec⟩ := MergeState.take_spec env.opts.flushThresholdBytes j.target j.loop
        top.item ys
      rw [hrep.flushed, List.nil_append, ← htodo] at hspec
      have hpending : Pending env
          { j with
            pq := top.pushBack it rest
            loop := j.loop.take env.opts.flushThresholdBytes j.target top.item } _ :=
        ⟨ys, (List.pairwise_cons.mp hsorted).2, by rw [hview]; exact hys,
          fun a ha b hb => hanti a (List.mem_cons_of_mem _ ha) b (List.mem_cons_of_mem _ hb), rfl⟩
      rcases take_flushed env.opts.flushThresholdBytes j.target hrep.flushed top.item with
        hflushed | ⟨first, hflushed⟩
      · -- the chunk is not full
        refine Or.inl ?_
        have hwrite : ∀ j' : FileMerge, j'.loop.flushed = [] →
            t.writeChunk env j' = { t with job := some j' } := fun j' hj' => by
          unfold FileTree.writeChunk
          rw [hj']
        rw [hwrite _ hflushed]
        refine { h with job := ?_ }
        rw [hc]
        rw [hflushed, List.nil_append] at hspec
        exact .some ⟨{ hrep.same with }, hlive', hrep.fits, hflushed, hspec ▸ hpending⟩
      · rw [hflushed] at hspec
        exact Or.inr (h.writeChunk hc { hrep.same with } hlive' hrep.fits hflushed hspec.symm
          hpending hsmall)

/-- **The commit of a compaction.** -/
theorem Rep.compactCommit [Payload V] (h : Rep env ptr t s) (ht : t.compactCommit env = some t') :
    ∃ s', s.compactCommit env = some s' ∧ Rep env ptr t' s' := by
  obtain ⟨j, hj, ht⟩ := Option.bind_eq_some_iff.mp ht
  obtain ⟨c, hc, hrep⟩ := h.exists_job hj
  split_ifs at ht with hend
  cases ht
  have htodo := todo_of_empty hrep hend.1
  rw [if_pos hend.2] at htodo
  have hedit : mergeEdit j = c.edit := by
    unfold mergeEdit Compaction.edit
    rw [hrep.same.src, hrep.same.tgt, hrep.same.source, hrep.same.target, hrep.same.outputs]
  unfold Lsm.compactCommit
  rw [hc]
  dsimp only
  rw [List.map_eq_nil_iff.mp htodo, hedit]
  refine ⟨_, rfl, { h.logAndApply c.edit with job := .none, purging := ?_ }⟩
  rw [hrep.same.snapshot]

/-! ### Reopening -/

/-- **The tree that is read back**: every record of the MANIFEST fits its types and
the limit on its length. -/
theorem Rep.recover (h : Rep env ptr t s)
    (hfits : ∀ e ∈ s.vs.manifest, e.Fits ∧ e.encodeTo.length ≤ maxRecord) :
    Rep env ptr (t.recover env) (s.reopen env) := by
  have hvs : VersionSet.recover env.stdSort t.manifest
      = VersionSet.recoverRecords env.stdSort s.vs.manifest := by
    rw [h.manifest]
    exact VersionSet.recover_flatMap_frame env.stdSort hfits
  exact
    { vs := hvs
      manifest := h.manifest
      ssts := fun seq => by
        unfold FileTree.recover
        dsimp only
        rw [hvs]
        exact rel_filterKeys h.ssts _ seq
      flushing := rfl
      job := .none
      purging := rfl }

end FileTree
