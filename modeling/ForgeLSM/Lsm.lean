import ForgeLSM.CompactionCommit
import ForgeLSM.OrphanPurge
import ForgeLSM.Util.Run

/-!
# The tree of tables

The part of the engine below the memtables: the version set, the tables on
disk, and the background work that changes them. A flush takes a number and
writes a table, and later logs it; a compaction starts on a snapshot, writes
one output after another, logs its edit, and purges what no version needs.
Flushes run on one thread and compactions one at a time, but the two
interleave step by step, so each of these is an action of its own.

`Lsm.Inv` holds in every state such runs reach, and gives every reachable
version the shape a search relies on. A compaction changes no lookup: the
version it commits answers as the version it commits to.
-/

variable {V : Type} {f : FileMetaData} {c : Compaction V} {level : Level}

/-- The record of the table a flush writes for a memtable. -/
def flushRecord (m : OrdMap Key V) (h : m.entries ≠ []) (seq : ℕ) : FileMetaData where
  sequence := seq
  fileSize := 24 + (m.entries.map (fun e => 20 + e.1.length)).sum
  minKey := (m.entries.head h).1
  maxKey := (m.entries.getLast h).1

/-- The edit a flush logs. -/
def flushEdit (f : FileMetaData) : VersionEdit :=
  ({} : VersionEdit).addFile 0 f.sequence f.fileSize f.minKey f.maxKey

/-- **The tree of tables**, with its background work under way. -/
structure Lsm (V : Type) where
  vs : VersionSet := {}
  tables : Tables V := .empty
  /-- The table a flush has written and not logged yet. -/
  flushing : Option FileMetaData := none
  /-- The compaction under way. -/
  job : Option (Compaction V) := none
  /-- The snapshot of a compaction that has logged its edit and has still to
  purge. -/
  purging : Option Version := none

namespace Lsm

/-- **The first half of `flush_immutable`**: the number, the iteration, the
table. An empty memtable gives its number back and is done. -/
def flushStart (env : Env) (s : Lsm V) (m : OrdMap Key V) : Option (Lsm V) :=
  if s.flushing.isSome then none
  else
    let (seq, vs) := s.vs.freshFileNumber
    if h : m.entries = [] then some { s with vs := vs.removePendingOutput seq }
    else some
      { s with
        vs := vs
        tables := s.tables.insert seq (SSTable.write env m h)
        flushing := some (flushRecord m h seq) }

/-- **The second half of `flush_immutable`**: the edit is logged. -/
def flushCommit (env : Env) (s : Lsm V) : Option (Lsm V) :=
  s.flushing.map (fun f =>
    { s with vs := s.vs.logAndApply env.stdSort (flushEdit f), flushing := none })

/-- `run_compaction` up to the merge. Without a level that is due it
returns. -/
def compactStart [Payload V] (env : Env) (s : Lsm V) : Option (Lsm V) :=
  if s.job.isSome || s.purging.isSome then none
  else some { s with job := Compaction.start env s.tables s.vs.current }

/-- `flush_chunk`: the next output of the compaction is written. -/
def compactOutput (env : Env) (s : Lsm V) : Option (Lsm V) :=
  match s.job with
  | none => none
  | some c =>
    match c.todo with
    | [] => none
    | chunk :: todo =>
      let (seq, vs) := s.vs.freshFileNumber
      some
        { s with
          vs := vs
          tables := s.tables.insert seq (SSTable.write env chunk.contents chunk.nonempty)
          job := some { c with todo := todo, outputs := c.outputs ++ [chunk.record seq] } }

/-- The edit of the compaction is logged. -/
def compactCommit (env : Env) (s : Lsm V) : Option (Lsm V) :=
  match s.job with
  | none => none
  | some c =>
    if c.todo.isEmpty then some
      { s with
        vs := s.vs.logAndApply env.stdSort c.edit
        job := none
        purging := some c.snapshot }
    else none

/-- Whether `purge_obsolete_files` keeps a table: it is in the current
version or in the snapshot still held, or pending, or too new to judge. -/
def keepsTable (s : Lsm V) (snapshot : Version) (seq : ℕ) : Bool :=
  (List.finRange maxLevels).any (fun level =>
      (s.vs.current.files level ++ snapshot.files level).any (fun f => f.sequence == seq))
    || s.vs.pendingOutputs.contains seq || decide (s.vs.nextFileNumber ≤ seq)

/-- `VersionSet::purge_obsolete_files`, at the end of a compaction. -/
def purgeObsoleteFiles (s : Lsm V) : Option (Lsm V) :=
  s.purging.map (fun snapshot =>
    { s with tables := s.tables.filterKeys (s.keepsTable snapshot), purging := none })

end Lsm

/-- What can happen to the tree. -/
inductive LsmAction (V : Type) where
  | flushStart (m : OrdMap Key V)
  | flushCommit
  | compactStart
  | compactOutput
  | compactCommit
  | purgeObsoleteFiles

/-- **One step of the tree.** -/
def Lsm.step [Payload V] (env : Env) (s : Lsm V) : LsmAction V → Option (Lsm V)
  | .flushStart m => s.flushStart env m
  | .flushCommit => s.flushCommit env
  | .compactStart => s.compactStart env
  | .compactOutput => s.compactOutput env
  | .compactCommit => s.compactCommit env
  | .purgeObsoleteFiles => s.purgeObsoleteFiles

/-- What `KVStore::recover` makes of the tree: the MANIFEST replayed, and the
tables purged of those it does not count as active. -/
def Lsm.reopen (env : Env) (s : Lsm V) : Lsm V :=
  let vs := VersionSet.recoverRecords env.stdSort s.vs.manifest
  { vs := vs
    tables := s.tables.filterKeys (fun seq => (activeSsts vs.current).contains seq) }

/-- The lookup of a key in the tree. -/
def Lsm.lookup (env : Env) (s : Lsm V) (k : Key) : Option V :=
  lookupVersion env s.tables s.vs.current k

/-! ## The version set -/

namespace VersionSet

@[simp] theorem logAndApply_current (S : StdSort) (vs : VersionSet) (e : VersionEdit) :
    (vs.logAndApply S e).current = vs.current.applyEdit S e := by
  unfold logAndApply
  split_ifs <;> rfl

/-- An edit without a counter of its own leaves the counter. -/
theorem logAndApply_nextFileNumber (S : StdSort) (vs : VersionSet) {e : VersionEdit}
    (h : e.nextFileSequence = none) :
    (vs.logAndApply S e).nextFileNumber = vs.nextFileNumber := by
  have hp : (vs.prepare e).nextFileSequence = some vs.nextFileNumber := by
    rw [prepare, h]
    rfl
  unfold logAndApply
  split_ifs <;> simp [hp]

/-- What stays pending is what the edit does not add. -/
theorem mem_logAndApply_pendingOutputs (S : StdSort) (vs : VersionSet) (e : VersionEdit)
    {seq : ℕ} : seq ∈ (vs.logAndApply S e).pendingOutputs
      ↔ seq ∈ vs.pendingOutputs ∧ ∀ f ∈ e.newFiles, f.2.sequence ≠ seq := by
  have : (vs.logAndApply S e).pendingOutputs
      = vs.pendingOutputs.filter (fun s => !(e.newFiles.any (fun f => f.2.sequence == s))) := by
    unfold logAndApply
    split_ifs <;> rfl
  rw [this, List.mem_filter]
  simp

end VersionSet

/-! ## Frames -/

section Frames

variable {tables tables' : Tables V} {current : Version}

theorem fileContents_congr (h : tables'.get f.sequence = tables.get f.sequence) :
    fileContents tables' f = fileContents tables f := by
  unfold fileContents
  rw [h]

theorem Exact.congr_tables (hf : Exact tables f)
    (h : tables'.get f.sequence = tables.get f.sequence) : Exact tables' f := by
  obtain ⟨t, ht, hmin, hmax⟩ := hf
  exact ⟨t, by rw [h, ht], hmin, hmax⟩

/-- The files of the snapshot are files of the version as it is now. -/
theorem JobInv.mem_of_mem_snapshot [Payload V] (h : JobInv tables current c)
    (hf : f ∈ c.snapshot.files level) : f ∈ current.files level := by
  by_cases hl : level = 0
  · obtain ⟨new, hnew⟩ := h.l0
    rw [hl] at hf ⊢
    rw [hnew]
    exact List.mem_append_right new hf
  · rwa [h.deep level hl]

/-- A job is kept when the tables it reads and has written are. -/
theorem JobInv.congr_tables [Payload V] (h : JobInv tables current c)
    (hcur : ∀ level, ∀ f ∈ current.files level, tables'.get f.sequence = tables.get f.sequence)
    (hout : ∀ f ∈ c.outputs, tables'.get f.sequence = tables.get f.sequence) :
    JobInv tables' current c := by
  have hsrc : ∀ f ∈ c.src, fileContents tables' f = fileContents tables f := fun f hf =>
    fileContents_congr (hcur _ f (h.mem_of_mem_src hf))
  have htgt : ∀ f ∈ c.tgt, fileContents tables' f = fileContents tables f := fun f hf =>
    fileContents_congr (hcur _ f (h.mem_of_mem_tgt hf))
  have hres : c.results tables' = c.results tables := by
    unfold Compaction.results
    rw [List.map_congr_left (fun f hf => fileContents_congr (hout f hf))]
  have hin : ∀ k, c.inputGet tables' k = c.inputGet tables k := fun k => by
    unfold Compaction.inputGet
    rw [findSome?_congr (fun f hf => by rw [hsrc f hf]),
      findSome?_congr (l := c.tgt) (fun f hf => by rw [htgt f hf])]
  refine
    { target_eq := h.target_eq
      deep := h.deep
      l0 := h.l0
      src_eq := h.src_eq
      tgt_eq := ?_
      sorted := by rw [hres]; exact h.sorted
      get := fun k => by rw [hres, hin]; exact h.get k
      outputs := fun f hf => (h.outputs f hf).congr_tables (hout f hf) }
  rw [h.tgt_eq]
  refine List.filter_congr (fun f hf => ?_)
  rw [fileOverlaps, fileOverlaps, hcur _ f (h.mem_of_mem_snapshot hf)]

end Frames

/-! ## The invariant -/

namespace Lsm

/-- **What holds in every state of the tree.** -/
structure Inv [Payload V] (s : Lsm V) : Prop where
  shape : Shape s.tables s.vs.current
  /-- The numbers of the version were handed out. -/
  bound : ∀ level, ∀ f ∈ s.vs.current.files level, f.sequence ≤ s.vs.nextFileNumber
  /-- A table being flushed is newer than L0. -/
  flush : ∀ f ∈ s.flushing, Exact s.tables f ∧ f.sequence ≤ s.vs.nextFileNumber
    ∧ f.sequence ∈ s.vs.pendingOutputs ∧ ∀ g ∈ s.vs.current.files 0, g.sequence < f.sequence
  job : ∀ c ∈ s.job, JobInv s.tables s.vs.current c
  outputs : ∀ c ∈ s.job, ∀ f ∈ c.outputs, f.sequence ≤ s.vs.nextFileNumber
    ∧ ∀ g ∈ s.flushing, g.sequence ≠ f.sequence
  idle : s.purging ≠ none → s.job = none

variable [Payload V] {env : Env} {s s' : Lsm V} {tables : Tables V} {v : Version}

theorem inv_fresh : Inv ({} : Lsm V) where
  shape := Shape.empty _
  bound _ _ hf := by cases hf
  flush _ hf := by cases hf
  job _ hc := by cases hc
  outputs _ hc := by cases hc
  idle h := absurd rfl h

omit [Payload V] in
/-- A table written under the next number changes no table of a number
handed out before. -/
theorem get_insert_next (s : Lsm V) (t : SSTable V) {seq : ℕ} (h : seq ≤ s.vs.nextFileNumber) :
    (s.tables.insert (s.vs.nextFileNumber + 1) t).get seq = s.tables.get seq :=
  s.tables.get_insert_of_ne t (by omega)

omit [Payload V] in
/-- The two ways a flush starts. -/
theorem flushStart_cases {m : OrdMap Key V} (h : s.flushStart env m = some s') :
    s.flushing = none ∧
      ((m.entries = [] ∧ s' =
          { s with
            vs := s.vs.freshFileNumber.2.removePendingOutput (s.vs.nextFileNumber + 1) })
        ∨ ∃ hm : m.entries ≠ [], s' =
          { s with
            vs := s.vs.freshFileNumber.2
            tables := s.tables.insert (s.vs.nextFileNumber + 1) (SSTable.write env m hm)
            flushing := some (flushRecord m hm (s.vs.nextFileNumber + 1)) }) := by
  unfold flushStart at h
  split_ifs at h with hf hm
  · exact ⟨by simpa using hf, Or.inl ⟨hm, (Option.some.inj h).symm⟩⟩
  · exact ⟨by simpa using hf, Or.inr ⟨hm, (Option.some.inj h).symm⟩⟩

theorem Inv.flushStart {m : OrdMap Key V} (hi : Inv s) (h : s.flushStart env m = some s') :
    Inv s' := by
  obtain ⟨hnone, ⟨-, rfl⟩ | ⟨hm, rfl⟩⟩ := flushStart_cases h
  · exact
      { shape := hi.shape
        bound := fun level f hf => Nat.le_succ_of_le (hi.bound level f hf)
        flush := fun f hf => by
          rw [show ({ s with vs := _ } : Lsm V).flushing = s.flushing from rfl, hnone] at hf
          cases hf
        job := hi.job
        outputs := fun c hc f hf =>
          ⟨Nat.le_succ_of_le (hi.outputs c hc f hf).1, (hi.outputs c hc f hf).2⟩
        idle := hi.idle }
  · have hcur : ∀ level, ∀ f ∈ s.vs.current.files level,
        (s.tables.insert (s.vs.nextFileNumber + 1) (SSTable.write env m hm)).get f.sequence
          = s.tables.get f.sequence := fun level f hf => get_insert_next s _ (hi.bound level f hf)
    refine
      { shape := hi.shape.congr_tables hcur
        bound := fun level f hf => Nat.le_succ_of_le (hi.bound level f hf)
        flush := fun f hf => ?_
        job := fun c hc => (hi.job c hc).congr_tables hcur
          (fun f hf => get_insert_next s _ (hi.outputs c hc f hf).1)
        outputs := fun c hc f hf => ?_
        idle := hi.idle }
    · cases hf
      refine ⟨⟨_, OrdMap.get_insert_self _ _ _, rfl, rfl⟩, le_refl _, ?_, fun g hg => ?_⟩
      · exact List.mem_append_right _ (List.mem_singleton.mpr rfl)
      · exact Nat.lt_succ_of_le (hi.bound 0 g hg)
    · obtain ⟨hle, -⟩ := hi.outputs c hc f hf
      refine ⟨Nat.le_succ_of_le hle, fun g hg => ?_⟩
      cases hg
      exact (Nat.lt_succ_of_le hle).ne'


/-! ### Flush -/

omit [Payload V] in
theorem deletes_flushEdit (f : FileMetaData) (level : Level) (seq : ℕ) :
    Version.deletes (flushEdit f) level seq = false := rfl

omit [Payload V] in
theorem added_flushEdit (f : FileMetaData) (level : Level) :
    Version.added (flushEdit f) level = if level = 0 then [f] else [] := by
  by_cases hl : level = 0
  · subst hl
    rfl
  · have hne : ¬ ((0 : ℤ) = (level.val : ℤ)) := fun hc => hl (Fin.ext (by
      rw [Fin.val_zero]
      omega))
    simp [Version.added, flushEdit, VersionEdit.addFile, hne, hl]

omit [Payload V] in
/-- **The version a flush commits**: the new file is in front of L0, and
nothing else changes. -/
theorem applyEdit_flushEdit (hs : Shape tables v) (hf : ∀ g ∈ v.files 0, g.sequence < f.sequence)
    (S : StdSort) :
    (v.applyEdit S (flushEdit f)).files 0 = f :: v.files 0
      ∧ ∀ level, level ≠ 0 → (v.applyEdit S (flushEdit f)).files level = v.files level := by
  constructor
  · refine Version.applyEdit_files_eq S ?_ (List.pairwise_cons.mpr ⟨fun g hg => ?_, hs.strict 0⟩)
    · simp only [deletes_flushEdit, Bool.not_false, List.filter_true, added_flushEdit, if_true]
      exact (List.perm_append_singleton f (v.files 0)).symm
    · simpa [Version.levelLt] using hf g hg
  · intro level hl
    refine Version.applyEdit_files_eq S ?_ (hs.strict level)
    simp [deletes_flushEdit, added_flushEdit, hl]

omit [Payload V] in
/-- A flush keeps the shape of the version. -/
theorem shape_flushEdit (hs : Shape tables v) (he : Exact tables f)
    (hf : ∀ g ∈ v.files 0, g.sequence < f.sequence) (S : StdSort) :
    Shape tables (v.applyEdit S (flushEdit f)) := by
  obtain ⟨h0, hdeep⟩ := applyEdit_flushEdit hs hf S
  refine ⟨?_, fun level hl => ?_, fun level g hg => ?_⟩
  · rw [h0]
    exact List.pairwise_cons.mpr ⟨hf, hs.l0⟩
  · rw [hdeep level hl]
    exact hs.levels level hl
  · by_cases hl : level = 0
    · rw [hl, h0] at hg
      rcases List.mem_cons.mp hg with rfl | hg
      · exact he
      · exact hs.exact 0 g hg
    · rw [hdeep level hl] at hg
      exact hs.exact level g hg

theorem Inv.flushCommit (hi : Inv s) (h : s.flushCommit env = some s') : Inv s' := by
  obtain ⟨f, hf, rfl⟩ := Option.map_eq_some_iff.mp h
  obtain ⟨hexact, hle, -, hnew⟩ := hi.flush f hf
  obtain ⟨h0, hdeep⟩ := applyEdit_flushEdit hi.shape hnew env.stdSort
  have hnext : (s.vs.logAndApply env.stdSort (flushEdit f)).nextFileNumber = s.vs.nextFileNumber :=
    VersionSet.logAndApply_nextFileNumber env.stdSort s.vs rfl
  refine
    { shape := ?_
      bound := fun level g hg => ?_
      flush := fun g hg => by cases hg
      job := fun c hc => ?_
      outputs := fun c hc g hg => ?_
      idle := hi.idle }
  · rw [VersionSet.logAndApply_current]
    exact shape_flushEdit hi.shape hexact hnew env.stdSort
  · rw [VersionSet.logAndApply_current] at hg
    rw [hnext]
    by_cases hl : level = 0
    · rw [hl, h0] at hg
      rcases List.mem_cons.mp hg with rfl | hg
      · exact hle
      · exact hi.bound 0 g hg
    · rw [hdeep level hl] at hg
      exact hi.bound level g hg
  · have hj := hi.job c hc
    obtain ⟨new, hnewl⟩ := hj.l0
    refine { hj with deep := fun level hl => ?_, l0 := ⟨f :: new, ?_⟩ }
    · rw [VersionSet.logAndApply_current, hdeep level hl]
      exact hj.deep level hl
    · rw [VersionSet.logAndApply_current, h0, hnewl]
      rfl
  · rw [hnext]
    exact ⟨(hi.outputs c hc g hg).1, fun g' hg' => by cases hg'⟩

/-! ### Compaction -/

/-- A compaction starts with nothing written. -/
theorem outputs_start (hc : Compaction.start env tables v = some c) : c.outputs = [] := by
  obtain ⟨source, h, -, rfl⟩ := Compaction.start_cases hc
  rfl

/-- What starting a compaction does. -/
theorem compactStart_cases (h : s.compactStart env = some s') :
    s.job = none ∧ s.purging = none
      ∧ s' = { s with job := Compaction.start env s.tables s.vs.current } := by
  unfold Lsm.compactStart at h
  split_ifs at h with hbusy
  simp only [Bool.or_eq_true, not_or, Option.isSome_iff_ne_none, not_not] at hbusy
  exact ⟨hbusy.1, hbusy.2, (Option.some.inj h).symm⟩

theorem Inv.compactStart (hi : Inv s) (h : s.compactStart env = some s') : Inv s' := by
  obtain ⟨-, hpurging, rfl⟩ := compactStart_cases h
  exact
    { shape := hi.shape
      bound := hi.bound
      flush := hi.flush
      job := fun c hc => JobInv.start hi.shape hc
      outputs := fun c hc f hf => by
        rw [outputs_start hc] at hf
        cases hf
      idle := fun hp => absurd hpurging hp }

omit [Payload V] in
/-- What writing an output does. -/
theorem compactOutput_cases (h : s.compactOutput env = some s') :
    ∃ c chunk todo, s.job = some c ∧ c.todo = chunk :: todo ∧ s' =
      { s with
        vs := s.vs.freshFileNumber.2
        tables := s.tables.insert (s.vs.nextFileNumber + 1)
          (SSTable.write env chunk.contents chunk.nonempty)
        job := some { c with
          todo := todo, outputs := c.outputs ++ [chunk.record (s.vs.nextFileNumber + 1)] } } := by
  unfold compactOutput at h
  split at h
  · cases h
  · rename_i c hc
    split at h
    · cases h
    · rename_i chunk todo htodo
      exact ⟨c, chunk, todo, hc, htodo, (Option.some.inj h).symm⟩

theorem Inv.compactOutput (hi : Inv s) (h : s.compactOutput env = some s') : Inv s' := by
  obtain ⟨c, chunk, todo, hc, htodo, rfl⟩ := compactOutput_cases h
  have hcur : ∀ level, ∀ f ∈ s.vs.current.files level,
      (s.tables.insert (s.vs.nextFileNumber + 1)
        (SSTable.write env chunk.contents chunk.nonempty)).get f.sequence
        = s.tables.get f.sequence := fun level f hf => get_insert_next s _ (hi.bound level f hf)
  have hj := (hi.job c hc).congr_tables hcur
    (fun f hf => get_insert_next s _ (hi.outputs c hc f hf).1)
  generalize htab : s.tables.insert (s.vs.nextFileNumber + 1)
    (SSTable.write env chunk.contents chunk.nonempty) = tables at hcur hj ⊢
  have hget : tables.get (s.vs.nextFileNumber + 1)
      = some (SSTable.write env chunk.contents chunk.nonempty) := by
    rw [← htab]
    exact OrdMap.get_insert_self _ _ _
  have hrec : Exact tables (chunk.record (s.vs.nextFileNumber + 1)) := ⟨_, hget, rfl, rfl⟩
  -- the output just written is the first of those that were still to write
  have hres : ({ c with
      todo := todo
      outputs := c.outputs ++ [chunk.record (s.vs.nextFileNumber + 1)] }
        : Compaction V).results tables = c.results tables := by
    unfold Compaction.results
    rw [htodo, List.map_append, List.append_assoc]
    congr 1
    rw [List.map_singleton, fileContents_of_get hget]
    rfl
  refine
    { shape := hi.shape.congr_tables hcur
      bound := fun level f hf => Nat.le_succ_of_le (hi.bound level f hf)
      flush := fun f hf => ?_
      job := fun c' hc' => ?_
      outputs := fun c' hc' f hf => ?_
      idle := fun hp => ?_ }
  · obtain ⟨he, hle, hpend, hlt⟩ := hi.flush f hf
    refine ⟨he.congr_tables ?_, Nat.le_succ_of_le hle, List.mem_append_left _ hpend, hlt⟩
    rw [← htab]
    exact get_insert_next s _ hle
  · cases hc'
    refine { hj with sorted := ?_, get := fun k => ?_, outputs := fun f hf => ?_ }
    · rw [hres]
      exact hj.sorted
    · rw [hres]
      exact hj.get k
    · rcases List.mem_append.mp hf with hf | hf
      · exact hj.outputs f hf
      · obtain rfl := List.mem_singleton.mp hf
        exact hrec
  · cases hc'
    rcases List.mem_append.mp hf with hf | hf
    · exact ⟨Nat.le_succ_of_le (hi.outputs c hc f hf).1, (hi.outputs c hc f hf).2⟩
    · obtain rfl := List.mem_singleton.mp hf
      refine ⟨le_refl _, fun g hg => ?_⟩
      exact (Nat.lt_succ_of_le (hi.flush g hg).2.1).ne
  · rw [hi.idle hp] at hc
    cases hc

omit [Payload V] in
/-- What committing a compaction does. -/
theorem compactCommit_cases (h : s.compactCommit env = some s') :
    ∃ c, s.job = some c ∧ c.todo = [] ∧ s' =
      { s with
        vs := s.vs.logAndApply env.stdSort c.edit
        job := none
        purging := some c.snapshot } := by
  unfold compactCommit at h
  split at h
  · cases h
  · rename_i c hc
    split_ifs at h with htodo
    exact ⟨c, hc, by simpa using htodo, (Option.some.inj h).symm⟩

omit [Payload V] in
/-- A file of the committed version was there, or is an output. -/
theorem mem_applyEdit_edit (S : StdSort) (hf : f ∈ (v.applyEdit S c.edit).files level) :
    f ∈ v.files level ∨ level = c.target ∧ f ∈ c.outputs := by
  rcases List.mem_append.mp ((Version.applyEdit_perm S v c.edit level).mem_iff.mp hf) with hf | hf
  · exact Or.inl (List.mem_of_mem_filter hf)
  · rw [c.added_edit] at hf
    split_ifs at hf with ht
    · exact Or.inr ⟨ht, hf⟩
    · cases hf

/-- In L0 it was there. -/
theorem mem_commit_cases {current : Version} (S : StdSort) (hj : JobInv tables current c)
    (hf : f ∈ (current.applyEdit S c.edit).files level) :
    f ∈ current.files level ∨ level ≠ 0 ∧ f ∈ c.outputs := by
  rcases mem_applyEdit_edit S hf with hf | ⟨ht, hf⟩
  · exact Or.inl hf
  · exact Or.inr ⟨ht ▸ hj.target_ne_zero, hf⟩

theorem Inv.compactCommit (hi : Inv s) (h : s.compactCommit env = some s') : Inv s' := by
  obtain ⟨c, hc, hdone, rfl⟩ := compactCommit_cases h
  have hj := hi.job c hc
  have hnext : (s.vs.logAndApply env.stdSort c.edit).nextFileNumber = s.vs.nextFileNumber :=
    VersionSet.logAndApply_nextFileNumber env.stdSort s.vs rfl
  refine
    { shape := ?_
      bound := fun level f hf => ?_
      flush := fun f hf => ?_
      job := fun c' hc' => by cases hc'
      outputs := fun c' hc' => by cases hc'
      idle := fun _ => rfl }
  · rw [VersionSet.logAndApply_current]
    exact hj.commit_shape hi.shape hdone env.stdSort
  · rw [VersionSet.logAndApply_current] at hf
    rw [hnext]
    rcases mem_commit_cases env.stdSort hj hf with hf | ⟨-, hf⟩
    · exact hi.bound level f hf
    · exact (hi.outputs c hc f hf).1
  · obtain ⟨he, hle, hpend, hlt⟩ := hi.flush f hf
    refine ⟨he, by rw [hnext]; exact hle, ?_, fun g hg => ?_⟩
    · rw [VersionSet.mem_logAndApply_pendingOutputs]
      refine ⟨hpend, fun p hp => ?_⟩
      obtain ⟨o, ho, rfl⟩ := List.mem_map.mp hp
      exact ((hi.outputs c hc o ho).2 f hf).symm
    · rw [VersionSet.logAndApply_current] at hg
      rcases mem_commit_cases env.stdSort hj hg with hg | ⟨hne, -⟩
      · exact hlt g hg
      · exact absurd rfl hne

omit [Payload V] in
/-- The purge keeps the tables of the version and of the snapshot. -/
theorem keepsTable_of_mem (snapshot : Version)
    (hf : f ∈ s.vs.current.files level ++ snapshot.files level) :
    s.keepsTable snapshot f.sequence = true := by
  unfold keepsTable
  have : (List.finRange maxLevels).any (fun level =>
      (s.vs.current.files level ++ snapshot.files level).any (fun g => g.sequence == f.sequence))
        = true :=
    List.any_eq_true.mpr ⟨level, List.mem_finRange level,
      List.any_eq_true.mpr ⟨f, hf, beq_self_eq_true _⟩⟩
  rw [this]
  rfl

theorem Inv.purgeObsoleteFiles (hi : Inv s) (h : s.purgeObsoleteFiles = some s') : Inv s' := by
  obtain ⟨snapshot, hp, rfl⟩ := Option.map_eq_some_iff.mp h
  have hjob : s.job = none := hi.idle (by rw [hp]; simp)
  have hcur : ∀ level, ∀ f ∈ s.vs.current.files level,
      (s.tables.filterKeys (s.keepsTable snapshot)).get f.sequence = s.tables.get f.sequence :=
    fun level f hf => by
      rw [OrdMap.get_filterKeys, if_pos (keepsTable_of_mem snapshot (List.mem_append_left _ hf))]
  refine
    { shape := hi.shape.congr_tables hcur
      bound := hi.bound
      flush := fun f hf => ?_
      job := fun c hc => ?_
      outputs := fun c hc => ?_
      idle := fun hne => absurd rfl hne }
  · obtain ⟨he, hle, hpend, hlt⟩ := hi.flush f hf
    refine ⟨he.congr_tables ?_, hle, hpend, hlt⟩
    rw [OrdMap.get_filterKeys, if_pos]
    simp [keepsTable, hpend]
  all_goals
    rw [show ({ s with tables := _, purging := none } : Lsm V).job = s.job from rfl, hjob] at hc
    cases hc

/-- **Every step keeps the invariant.** -/
theorem Inv.step {a : LsmAction V} (hi : Inv s) (h : s.step env a = some s') : Inv s' := by
  cases a with
  | flushStart m => exact hi.flushStart h
  | flushCommit => exact hi.flushCommit h
  | compactStart => exact hi.compactStart h
  | compactOutput => exact hi.compactOutput h
  | compactCommit => exact hi.compactCommit h
  | purgeObsoleteFiles => exact hi.purgeObsoleteFiles h

/-- **Every run keeps the invariant.** -/
theorem Inv.run {as : List (LsmAction V)} (hi : Inv s)
    (h : runSteps (Lsm.step env) s as = some s') : Inv s' :=
  invariant_of_run (fun _ _ _ hi h => Inv.step hi h) hi h

/-! ## Lookups -/

/-- **A flush puts its table in front of every other source.** -/
theorem lookup_flushCommit (hi : Inv s) (hf : s.flushing = some f) (h : s.flushCommit env = some s')
    (k : Key) : s'.lookup env k = ((fileContents s.tables f).get k).or (s.lookup env k) := by
  obtain ⟨g, hg, rfl⟩ := Option.map_eq_some_iff.mp h
  rw [hf] at hg
  cases hg
  obtain ⟨hexact, -, -, hnew⟩ := hi.flush f hf
  obtain ⟨h0, hdeep⟩ := applyEdit_flushEdit hi.shape hnew env.stdSort
  have hsplit : List.finRange maxLevels = 0 :: (List.finRange maxLevels).tail := rfl
  have hne : ∀ level ∈ (List.finRange maxLevels).tail, level ≠ 0 := by decide
  unfold Lsm.lookup lookupVersion
  rw [VersionSet.logAndApply_current, hsplit, findSome?_cons_or, findSome?_cons_or,
    ← Option.or_assoc]
  congr 1
  · rw [lookupLevel, h0, findSome?_cons_or, hexact.within.probeFile_eq env k]
    rfl
  · refine findSome?_congr (fun level hl => ?_)
    rw [lookupLevel, lookupLevel, hdeep level (hne level hl)]

omit [Payload V] in
/-- Tables outside the version do not matter to a lookup. -/
theorem lookup_congr_tables
    (ht : ∀ level, ∀ f ∈ s.vs.current.files level, tables.get f.sequence = s.tables.get f.sequence)
    (k : Key) : lookupVersion env tables s.vs.current k = s.lookup env k := by
  refine findSome?_congr (fun level _ => findSome?_congr (fun f hf => ?_))
  unfold probeFile
  rw [ht level f hf]

/-- **Only a flush changes what a lookup finds**, a tombstone counting as
absent. -/
theorem lookup_step (hi : Inv s) {a : LsmAction V} (ha : a ≠ .flushCommit)
    (h : s.step env a = some s') (k : Key) : live (s'.lookup env k) = live (s.lookup env k) := by
  cases a with
  | flushStart m =>
    obtain ⟨-, ⟨-, rfl⟩ | ⟨hm, rfl⟩⟩ := flushStart_cases h
    · rfl
    · exact congrArg live (lookup_congr_tables
        (fun level f hf => get_insert_next s _ (hi.bound level f hf)) k)
  | flushCommit => exact absurd rfl ha
  | compactStart =>
    obtain ⟨-, -, rfl⟩ := compactStart_cases h
    rfl
  | compactOutput =>
    obtain ⟨c, chunk, todo, -, -, rfl⟩ := compactOutput_cases h
    exact congrArg live (lookup_congr_tables
      (fun level f hf => get_insert_next s _ (hi.bound level f hf)) k)
  | compactCommit =>
    obtain ⟨c, hc, hdone, rfl⟩ := compactCommit_cases h
    unfold Lsm.lookup
    rw [VersionSet.logAndApply_current]
    exact (hi.job c hc).commit_lookup hi.shape hdone env k
  | purgeObsoleteFiles =>
    obtain ⟨snapshot, -, rfl⟩ := Option.map_eq_some_iff.mp h
    refine congrArg live (lookup_congr_tables (s := s) (fun level f hf => ?_) k)
    rw [OrdMap.get_filterKeys, if_pos (keepsTable_of_mem snapshot (List.mem_append_left _ hf))]

/-- A tree at rest whose version has the right shape and whose file numbers
were all handed out. -/
structure AtRest (s : Lsm V) : Prop where
  shape : Shape s.tables s.vs.current
  bound : ∀ level, ∀ f ∈ s.vs.current.files level, f.sequence ≤ s.vs.nextFileNumber
  flushing : s.flushing = none
  job : s.job = none
  purging : s.purging = none

theorem AtRest.inv (h : AtRest s) : Inv s where
  shape := h.shape
  bound := h.bound
  flush f hf := by
    rw [h.flushing] at hf
    cases hf
  job c hc := by
    rw [h.job] at hc
    cases hc
  outputs c hc := by
    rw [h.job] at hc
    cases hc
  idle _ := h.job

/-- **A compaction preserves every lookup.** Start `run_compaction` on any
version of the right shape, let it write its outputs while any number of
flushes commit, and let it commit: the version answers every key as it did
just before the commit, a tombstone counting as absent. -/
theorem lookup_compaction {t : Lsm V} {during : List (LsmAction V)} (hs : AtRest s)
    (hrun : runSteps (Lsm.step env) s (.compactStart :: during) = some t)
    (hcommit : t.step env .compactCommit = some s') (k : Key) :
    live (s'.lookup env k) = live (t.lookup env k) :=
  lookup_step (hs.inv.run hrun) (by simp) hcommit k

/-- A memtable of one entry. -/
def single (k : Key) (ptr : VLogPointer) : OrdMap Key VLogPointer := OrdMap.empty.insert k ptr

/-- A flush of one key. -/
def flushOne (k : Key) (ptr : VLogPointer) : List (LsmAction VLogPointer) :=
  [.flushStart (single k ptr), .flushCommit]

/-- A tree with one L0 file. -/
def oneFile : Lsm VLogPointer := finalState (Lsm.step .small) {} (flushOne [97] ⟨1, 9, 3⟩)

/-- A compaction of that file during which a delete of its key is flushed. -/
def duringCompaction : List (LsmAction VLogPointer) :=
  [.flushStart (single [97] (.tombstone 1)), .compactOutput, .flushCommit]

theorem oneFile_atRest : AtRest oneFile := by
  have hi : Inv oneFile := inv_fresh.run (runSteps_eq_finalState (by decide))
  exact ⟨hi.shape, hi.bound, by decide, rfl, rfl⟩

theorem lookup_compaction_oneFile :
    AtRest oneFile
      ∧ live ((finalState (Lsm.step .small) oneFile
          (.compactStart :: duringCompaction ++ [.compactCommit])).lookup .small [97])
        = live ((finalState (Lsm.step .small) oneFile
          (.compactStart :: duringCompaction)).lookup .small [97]) :=
  ⟨oneFile_atRest, lookup_compaction oneFile_atRest (runSteps_eq_finalState (by decide)) rfl [97]⟩

/-- **The level shape invariant.** In every version reached from the empty
one by flushes and compactions, L0 is in strictly descending file number,
every other level is in ascending order of least keys with pairwise disjoint
ranges, and every recorded range is the first and last key of its table. -/
theorem reachable_shape {as : List (LsmAction V)}
    (hrun : runSteps (Lsm.step env) {} as = some s) :
    (s.vs.current.files 0).Pairwise (fun a b => b.sequence < a.sequence)
      ∧ (∀ level, level ≠ 0 → (s.vs.current.files level).Pairwise (fun a b => a.minKey < b.minKey)
        ∧ (s.vs.current.files level).Pairwise RangeDisjoint)
      ∧ ∀ level, ∀ f ∈ s.vs.current.files level, Exact s.tables f := by
  have hs := (inv_fresh.run hrun).shape
  refine ⟨hs.l0, fun level hl => ⟨?_, (hs.levels level hl).imp Or.inl⟩, hs.exact⟩
  refine List.Pairwise.imp_of_mem (fun {a b} ha _ hab => ?_) (hs.levels level hl)
  exact lt_of_le_of_lt (hs.exact level a ha).minKey_le_maxKey hab

/-- Two flushes, with a compaction of the first while the second is under
way. -/
def overlappingWork : List (LsmAction VLogPointer) :=
  flushOne [97] ⟨1, 9, 3⟩ ++ .compactStart :: .flushStart (single [98] ⟨1, 21, 3⟩)
    :: [.compactOutput, .flushCommit, .compactCommit, .purgeObsoleteFiles]

theorem reachable_shape_overlappingWork :
    let s := finalState (Lsm.step .small) {} overlappingWork
    (s.vs.current.files 0).map FileMetaData.sequence = [3]
      ∧ (s.vs.current.files 1).map FileMetaData.sequence = [4]
      ∧ ∀ level, ∀ f ∈ s.vs.current.files level, Exact s.tables f :=
  ⟨by decide, by decide, (reachable_shape (runSteps_eq_finalState (by decide))).2.2⟩

end Lsm
