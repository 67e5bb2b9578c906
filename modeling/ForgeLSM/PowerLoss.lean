import ForgeLSM.LsmRecovery
import ForgeLSM.TableLookup

/-!
# Tables and the MANIFEST when power fails

`SSTableWriter::write` hands the bytes of a table to the operating system and
closes the file; it never asks for them to be on disk. `log_and_apply` does ask
for its record. Power may fail at any moment, and then a file keeps the bytes
that were on disk and any part of the others, so that the MANIFEST can list a
table of which nothing is left.

`PowerLsm` is the tree of tables with a count, for each file, of the bytes that the
kernel has written back by itself. Where every edit is logged after the tables it
adds were written back whole, what is listed loads after a loss at
any point (`load_of_listed`). Nothing in the source sees to it
(`load_unsynced`).
-/

/-- The bytes of a table. -/
def SSTable.file (env : Env) (t : SSTable VLogPointer) : List Byte :=
  SSTableWriter.write env t.contents.entries

/-! ## What the MANIFEST lists -/

namespace VersionSet

/-- **The files of a level that records list**: those added and not deleted
since. -/
def listed (edits : List VersionEdit) (level : Level) : List FileMetaData :=
  edits.foldl (fun fs e =>
    fs.filter (fun f => !Version.deletes e level f.sequence) ++ Version.added e level) []

/-- The MANIFEST lists files of the version only. -/
def ListsCurrent (vs : VersionSet) : Prop :=
  ∀ level, ∀ f ∈ listed vs.manifest level, f ∈ vs.current.files level

theorem deletes_prepare (vs : VersionSet) (e : VersionEdit) (level : Level) (seq : ℕ) :
    Version.deletes (vs.prepare e) level seq = Version.deletes e level seq := by
  unfold prepare
  split <;> rfl

theorem added_prepare (vs : VersionSet) (e : VersionEdit) (level : Level) :
    Version.added (vs.prepare e) level = Version.added e level := by
  unfold prepare
  split <;> rfl

theorem ListsCurrent.logAndApply {vs : VersionSet} (h : vs.ListsCurrent) (S : StdSort)
    (e : VersionEdit) : (vs.logAndApply S e).ListsCurrent := by
  intro level f hf
  rw [logAndApply_current]
  unfold VersionSet.logAndApply at hf
  dsimp only at hf
  split_ifs at hf
  · -- a rewritten MANIFEST lists the version it was written for
    have hsnap : listed [snapshotEdit ((vs.prepare e).nextFileSequence.getD vs.nextFileNumber)
        (vs.current.applyEdit S e)] level = (vs.current.applyEdit S e).files level :=
      added_snapshotEdit _ _ level
    rwa [hsnap] at hf
  · rw [listed, List.foldl_append, List.foldl_cons, List.foldl_nil] at hf
    refine (Version.applyEdit_perm S vs.current e level).mem_iff.mpr ?_
    simp only [deletes_prepare, added_prepare] at hf
    rcases List.mem_append.mp hf with hf | hf
    · obtain ⟨hmem, hkept⟩ := List.mem_filter.mp hf
      exact List.mem_append_left _ (List.mem_filter.mpr ⟨h level f hmem, hkept⟩)
    · exact List.mem_append_right _ hf

end VersionSet

/-- What a restart keeps of the tables it keeps as it is. -/
theorem Lsm.get_reopen {V : Type} {env : Env} {s : Lsm V} {seq : ℕ}
    (h : ((s.reopen env).tables.get seq).isSome) :
    (s.reopen env).tables.get seq = s.tables.get seq := by
  unfold reopen at h ⊢
  dsimp only at h ⊢
  rw [OrdMap.get_filterKeys] at h ⊢
  split_ifs at h ⊢
  · rfl
  · cases h

/-! ## The machine -/

/-- **The tree, and how much of each table is on disk.** The rest is in the page
cache. -/
structure PowerLsm where
  lsm : Lsm VLogPointer := {}
  written : ℕ → ℕ := fun _ => 0

/-- What can happen. -/
inductive PowerAction where
  | lsm (a : LsmAction VLogPointer)
  /-- The kernel writes back the first bytes of a table. -/
  | writeBack (seq n : ℕ)
  /-- Power is lost, all that is listed is left whole, and the store is opened
  again. -/
  | restart

namespace PowerLsm

variable {env : Env} {s s' : PowerLsm}

/-- **One step.** -/
def step (env : Env) (s : PowerLsm) : PowerAction → Option PowerLsm
  | .lsm a => (s.lsm.step env a).map (fun lsm => { s with lsm := lsm })
  | .writeBack seq n => (s.lsm.tables.get seq).map (fun t =>
      { s with written :=
          Function.update s.written seq (max (s.written seq) (min n (t.file env).length)) })
  | .restart =>
    let lsm := s.lsm.reopen env
    -- what is read back is on disk
    some { lsm := lsm, written := fun seq => ((lsm.tables.get seq).map
      (fun t => (t.file env).length)).getD 0 }

/-- **What a loss of power can leave of a table's file**: the bytes that are on
disk, and after them whatever, up to the length it had. -/
def AfterLoss (env : Env) (s : PowerLsm) (seq : ℕ) (bytes : List Byte) : Prop :=
  ∃ t ∈ s.lsm.tables.get seq, (t.file env).take (s.written seq) <+: bytes
    ∧ bytes.length ≤ (t.file env).length

/-- The table of a file is on disk, all of it, and within the format's
limits. -/
def Whole (env : Env) (s : PowerLsm) (f : FileMetaData) : Prop :=
  ∃ t ∈ s.lsm.tables.get f.sequence, (∀ e ∈ t.contents.entries, EntryFits e)
    ∧ (t.file env).length < 2 ^ 32 ∧ (t.file env).length ≤ s.written f.sequence

instance (f : FileMetaData) : Decidable (s.Whole env f) :=
  inferInstanceAs (Decidable (∃ t ∈ s.lsm.tables.get f.sequence, _))

/-- A restart finds the version and its tables again. -/
def Recovers (env : Env) (s : PowerLsm) : Prop :=
  (∀ level, (s.lsm.reopen env).vs.current.files level = s.lsm.vs.current.files level)
    ∧ ∀ level, ∀ f ∈ s.lsm.vs.current.files level,
      ((s.lsm.reopen env).tables.get f.sequence).isSome
        ∧ f.sequence ≤ (s.lsm.reopen env).vs.nextFileNumber

/-- **Tables before their records**: an edit is logged when the tables it adds
are on disk. -/
def TablesFirst (env : Env) (s : PowerLsm) : PowerAction → Prop
  | .lsm .flushCommit => ∀ f ∈ s.lsm.flushing, s.Whole env f
  | .lsm .compactCommit => ∀ c ∈ s.lsm.job, ∀ f ∈ c.outputs, s.Whole env f
  | .restart => s.Recovers env
  | _ => True

instance : Decidable (s.Recovers env) :=
  inferInstanceAs (Decidable (_ ∧ ∀ level, ∀ f ∈ s.lsm.vs.current.files level, _))

instance (s : PowerLsm) (a : PowerAction) : Decidable (TablesFirst env s a) := by
  unfold TablesFirst
  split <;> infer_instance

/-! ## The invariant -/

/-- **Every table listed is on disk.** -/
structure Ok (env : Env) (s : PowerLsm) : Prop where
  inv : s.lsm.Inv
  lists : s.lsm.vs.ListsCurrent
  whole : ∀ level, ∀ f ∈ s.lsm.vs.current.files level, s.Whole env f

/-- A table stays on disk while its file is there and nothing is taken from
it. -/
theorem Whole.mono {f : FileMetaData} (h : s.Whole env f)
    (ht : s'.lsm.tables.get f.sequence = s.lsm.tables.get f.sequence)
    (hw : s.written f.sequence ≤ s'.written f.sequence) : s'.Whole env f := by
  obtain ⟨t, htab, hfits, hsize, hle⟩ := h
  exact ⟨t, ht ▸ htab, hfits, hsize, le_trans hle hw⟩

/-- **A table on disk loads after a loss**, and answers as before. -/
theorem Whole.load {f : FileMetaData} (h : s.Whole env f) :
    ∃ t, s.lsm.tables.get f.sequence = some t ∧ ∀ bytes, s.AfterLoss env f.sequence bytes →
      ∃ r, SSTableReader.load bytes = .ok (some r)
        ∧ ∀ cache : BlockCache r, cache.Coherent → ∀ key out,
          r.get cache key out = .ok (t.get key) := by
  obtain ⟨t, ht, hfits, hsize, hle⟩ := h
  refine ⟨t, ht, fun bytes hloss => ?_⟩
  obtain ⟨t', ht', hpre, hlen⟩ := hloss
  obtain rfl : t = t' := Option.mem_unique ht ht'
  -- nothing is missing, so there is no room for anything else
  rw [List.take_of_length_le hle] at hpre
  obtain rfl : t.file env = bytes := hpre.eq_of_length_le hlen
  obtain ⟨r, hload, -, -, hget⟩ :=
    SSTableReader.load_write_refines env t.contents t.nonempty hfits hsize
  refine ⟨r, hload, fun cache hcache key out => ?_⟩
  rw [hget cache hcache key out, SSTable.get_eq, SSTable.get_eq]
  rfl

namespace Ok

theorem of_fresh : Ok env {} where
  inv := Lsm.inv_fresh
  lists _ f hf := by cases hf
  whole _ f hf := by cases hf

/-- A step that logs nothing, and keeps the tables of the version. -/
theorem frame (h : Ok env s) (hinv : s'.lsm.Inv) (hcur : s'.lsm.vs.current = s.lsm.vs.current)
    (hman : s'.lsm.vs.manifest = s.lsm.vs.manifest)
    (ht : ∀ level, ∀ f ∈ s.lsm.vs.current.files level,
      s'.lsm.tables.get f.sequence = s.lsm.tables.get f.sequence)
    (hw : ∀ seq, s.written seq ≤ s'.written seq) : Ok env s' where
  inv := hinv
  lists := by
    unfold VersionSet.ListsCurrent
    rw [hcur, hman]
    exact h.lists
  whole level f hf := by
    rw [hcur] at hf
    exact (h.whole level f hf).mono (ht level f hf) (hw _)

/-- A step that logs an edit whose tables are on disk. -/
theorem logged (h : Ok env s) {lsm : Lsm VLogPointer} (hinv : lsm.Inv) {e : VersionEdit}
    (hvs : lsm.vs = s.lsm.vs.logAndApply env.stdSort e) (ht : lsm.tables = s.lsm.tables)
    (hnew : ∀ level, ∀ f ∈ Version.added e level, s.Whole env f) :
    Ok env { s with lsm := lsm } where
  inv := hinv
  lists := hvs ▸ h.lists.logAndApply env.stdSort e
  whole level f hf := by
    have hf' : f ∈ (s.lsm.vs.current.applyEdit env.stdSort e).files level := by
      rw [← VersionSet.logAndApply_current, ← hvs]
      exact hf
    have hmem := (Version.applyEdit_perm env.stdSort s.lsm.vs.current e level).mem_iff.mp hf'
    have hwhole : s.Whole env f := by
      rcases List.mem_append.mp hmem with hmem | hmem
      · exact h.whole level f (List.mem_of_mem_filter hmem)
      · exact hnew level f hmem
    exact hwhole.mono (by rw [ht]) (le_refl _)

theorem lsmStep (h : Ok env s) {a : LsmAction VLogPointer} (ha : TablesFirst env s (.lsm a))
    {lsm : Lsm VLogPointer} (hs : s.lsm.step env a = some lsm) :
    Ok env { s with lsm := lsm } := by
  have hinv := h.inv.step hs
  have hnext : ∀ t level, ∀ f ∈ s.lsm.vs.current.files level,
      (s.lsm.tables.insert (s.lsm.vs.nextFileNumber + 1) t).get f.sequence
        = s.lsm.tables.get f.sequence :=
    fun t level f hf => Lsm.get_insert_next s.lsm t (h.inv.bound level f hf)
  cases a with
  | flushStart m =>
    obtain ⟨-, ⟨-, rfl⟩ | ⟨hm, rfl⟩⟩ := Lsm.flushStart_cases hs
    · exact h.frame hinv rfl rfl (fun _ _ _ => rfl) (fun _ => le_refl _)
    · exact h.frame hinv rfl rfl (hnext _) (fun _ => le_refl _)
  | flushCommit =>
    obtain ⟨f, hf, rfl⟩ := Option.map_eq_some_iff.mp hs
    refine h.logged hinv rfl rfl (fun level g hg => ?_)
    rw [Lsm.added_flushEdit] at hg
    split_ifs at hg
    · obtain rfl := List.mem_singleton.mp hg
      exact ha g hf
    · cases hg
  | compactStart =>
    obtain ⟨-, -, rfl⟩ := Lsm.compactStart_cases hs
    exact h.frame hinv rfl rfl (fun _ _ _ => rfl) (fun _ => le_refl _)
  | compactOutput =>
    obtain ⟨c, chunk, todo, -, -, rfl⟩ := Lsm.compactOutput_cases hs
    exact h.frame hinv rfl rfl (hnext _) (fun _ => le_refl _)
  | compactCommit =>
    obtain ⟨c, hc, -, rfl⟩ := Lsm.compactCommit_cases hs
    refine h.logged hinv rfl rfl (fun level g hg => ?_)
    rw [c.added_edit] at hg
    split_ifs at hg
    · exact ha c hc g hg
    · cases hg
  | purgeObsoleteFiles =>
    obtain ⟨snapshot, -, rfl⟩ := Option.map_eq_some_iff.mp hs
    refine h.frame hinv rfl rfl (fun level f hf => ?_) (fun _ => le_refl _)
    rw [OrdMap.get_filterKeys, if_pos (Lsm.keepsTable_of_mem snapshot (List.mem_append_left _ hf))]

/-- **Every step that has its tables first keeps it.** -/
theorem step {a : PowerAction} (h : Ok env s) (ha : TablesFirst env s a)
    (hs : s.step env a = some s') : Ok env s' := by
  cases a with
  | lsm a =>
    obtain ⟨lsm, hl, rfl⟩ := Option.map_eq_some_iff.mp hs
    exact h.lsmStep ha hl
  | writeBack seq n =>
    obtain ⟨t, -, rfl⟩ := Option.map_eq_some_iff.mp hs
    refine h.frame h.inv rfl rfl (fun _ _ _ => rfl) (fun seq' => ?_)
    show _ ≤ Function.update s.written seq _ seq'
    by_cases hseq : seq' = seq
    · subst hseq
      rw [Function.update_self]
      exact le_max_left _ _
    · rw [Function.update_of_ne hseq]
  | restart =>
    cases hs
    obtain ⟨hlevels, hkept⟩ := ha
    have hcur : (s.lsm.reopen env).vs.current = s.lsm.vs.current := Version.ext (funext hlevels)
    have hfiles : ∀ level, ∀ f ∈ s.lsm.vs.current.files level,
        (s.lsm.reopen env).tables.get f.sequence = s.lsm.tables.get f.sequence :=
      fun level f hf => Lsm.get_reopen (hkept level f hf).1
    refine ⟨Lsm.AtRest.inv ⟨?_, ?_, rfl, rfl, rfl⟩, ?_, fun level f hf => ?_⟩
    · rw [hcur]
      exact h.inv.shape.congr_tables hfiles
    · rw [hcur]
      exact fun level f hf => (hkept level f hf).2
    · intro level f hf
      rw [hcur]
      exact h.lists level f hf
    · rw [hcur] at hf
      obtain ⟨t, ht, hfits, hsize, -⟩ := h.whole level f hf
      have ht' : (s.lsm.reopen env).tables.get f.sequence = some t :=
        (hfiles level f hf).trans ht
      refine ⟨t, ht', hfits, hsize, le_of_eq ?_⟩
      show _ = (((s.lsm.reopen env).tables.get f.sequence).map _).getD 0
      rw [ht']
      rfl

end Ok

/-- **What the MANIFEST lists survives a loss of power** in every state of every
run – of flushes, compactions, purges and restarts, with the kernel writing
back what it likes when it likes – that logs an edit only when the tables it adds
are on disk: whatever a loss leaves of the file of a table that is listed,
`SSTableReader::load` accepts it, and every lookup in it is answered as in the
table. -/
theorem load_of_listed {as : List PowerAction}
    (hok : RunOk (PowerLsm.step env) (TablesFirst env) {} as)
    (hrun : runSteps (PowerLsm.step env) {} as = some s) {level : Level} {f : FileMetaData}
    (hf : f ∈ VersionSet.listed s.lsm.vs.manifest level) :
    ∃ t, s.lsm.tables.get f.sequence = some t ∧ ∀ bytes, s.AfterLoss env f.sequence bytes →
      ∃ r, SSTableReader.load bytes = .ok (some r)
        ∧ ∀ cache : BlockCache r, cache.Coherent → ∀ key out,
          r.get cache key out = .ok (t.get key) := by
  have h : Ok env s :=
    invariant_of_runOk (fun _ _ _ hu ha hs => Ok.step hu ha hs) .of_fresh hok hrun
  exact (h.whole level f (h.lists level f hf)).load

/-- A flush and a compaction, with their tables written back first, and a
restart. -/
def writtenBack : List PowerAction :=
  [.lsm (.flushStart (Lsm.single [97] ⟨1, 9, 3⟩)), .writeBack 2 1000, .lsm .flushCommit,
    .lsm .compactStart, .lsm .compactOutput, .writeBack 3 1000, .lsm .compactCommit,
    .lsm .purgeObsoleteFiles, .restart]

theorem load_of_listed_writtenBack :
    let s := finalState (PowerLsm.step .small) {} writtenBack
    ∃ f t, f ∈ VersionSet.listed s.lsm.vs.manifest 1 ∧ s.lsm.tables.get f.sequence = some t
      ∧ t.get [97] = some ⟨1, 9, 3⟩ ∧ ∀ bytes, s.AfterLoss .small f.sequence bytes →
        ∃ r, SSTableReader.load bytes = .ok (some r)
          ∧ ∀ cache : BlockCache r, cache.Coherent → ∀ key out,
            r.get cache key out = .ok (t.get key) := by
  intro s
  have hok : RunOk (PowerLsm.step .small) (TablesFirst .small) {} writtenBack := by decide +kernel
  have hrun : runSteps (PowerLsm.step .small) {} writtenBack = some s :=
    runSteps_eq_finalState (by decide +kernel)
  have hf : ⟨3, 45, [97], [97]⟩ ∈ VersionSet.listed s.lsm.vs.manifest 1 := by decide +kernel
  obtain ⟨t, ht, hload⟩ := load_of_listed hok hrun hf
  have hget : (s.lsm.tables.get 3).bind (fun t => t.get [97]) = some ⟨1, 9, 3⟩ := by decide +kernel
  rw [ht, Option.bind_some] at hget
  exact ⟨_, t, hf, ht, hget, hload⟩

/-- **The MANIFEST lists tables of which nothing is on disk**: the one of a
flush, and, where that one has been written back, the output of a
compaction. A loss of power can leave these files empty, and an empty file does not
load. -/
theorem load_unsynced :
    let flushed := finalState (PowerLsm.step .small) {}
      [.lsm (.flushStart (Lsm.single [97] ⟨1, 9, 3⟩)), .lsm .flushCommit]
    let compacted := finalState (PowerLsm.step .small) {}
      [.lsm (.flushStart (Lsm.single [97] ⟨1, 9, 3⟩)), .writeBack 2 1000, .lsm .flushCommit,
        .lsm .compactStart, .lsm .compactOutput, .lsm .compactCommit]
    VersionSet.listed flushed.lsm.vs.manifest 0 = [⟨2, 45, [97], [97]⟩]
      ∧ flushed.AfterLoss .small 2 []
      ∧ VersionSet.listed compacted.lsm.vs.manifest 1 = [⟨3, 45, [97], [97]⟩]
      ∧ compacted.AfterLoss .small 3 []
      ∧ ∀ r, SSTableReader.load [] ≠ .ok (some r) := by
  refine ⟨by decide +kernel, ⟨_, rfl, ?_, Nat.zero_le _⟩, by decide +kernel,
    ⟨_, rfl, ?_, Nat.zero_le _⟩, fun r h => ?_⟩
  · exact List.nil_prefix
  · exact List.nil_prefix
  · exact absurd h (by simp [SSTableReader.load])

end PowerLsm
