import ForgeLSM.LsmRecovery

/-!
# The recorded ranges of the tables

A search and a scan both pass over a file whose recorded range the keys asked
for lie outside of, and neither opens its table to see whether the record is
right. It is: the range recorded for a file, wherever it is recorded, takes in
the keys of its table (`Lsm.Ranged`).

This much holds in every state, also after a restart that has lost files or
brought deleted ones back, when the shape of the levels is gone. What
it takes is that a number handed out is never one that is recorded already; a
restart starts from the last number logged, and every file logged has at most
that.
-/

variable {V : Type} {f : FileMetaData}

namespace Version

/-- A file of the version built by a replay was added by an edit. -/
theorem mem_foldl_applyRecovered {edits : List VersionEdit} {v : Version} {level : Level}
    (hf : f ∈ (edits.foldl applyRecovered v).files level) :
    f ∈ v.files level ∨ ∃ e ∈ edits, f ∈ added e level := by
  induction edits generalizing v with
  | nil => exact Or.inl hf
  | cons e edits ih =>
    rcases ih hf with hf | ⟨e', he', hf⟩
    · rw [applyRecovered_files] at hf
      rcases List.mem_append.mp hf with hf | hf
      · refine Or.inl ?_
        split_ifs at hf
        · exact List.mem_of_mem_filter hf
        · exact hf
      · exact Or.inr ⟨e, List.mem_cons_self, hf⟩
    · exact Or.inr ⟨e', List.mem_cons_of_mem e he', hf⟩

theorem mem_recoverVersion {S : StdSort} {edits : List VersionEdit} {level : Level}
    (hf : f ∈ (recoverVersion S edits).files level) : ∃ e ∈ edits, f ∈ added e level := by
  have hmem : f ∈ (edits.foldl applyRecovered empty).files level :=
    (S.perm (strictWeak_levelLt level) _).mem_iff.mp hf
  rcases mem_foldl_applyRecovered hmem with hf | hf
  · cases hf
  · exact hf

/-- What an edit adds to a level is in its list. -/
theorem exists_newFile_of_mem_added {e : VersionEdit} {level : Level} (hf : f ∈ added e level) :
    ∃ p ∈ e.newFiles, p.2 = f := by
  unfold added at hf
  obtain ⟨p, hp, rfl⟩ := List.mem_map.mp hf
  exact ⟨p, List.mem_of_mem_filter hp, rfl⟩

end Version

namespace Lsm

variable {env : Env} {s s' : Lsm V}

/-- **The file is recorded somewhere**: in the version, in the MANIFEST, by a
flush, by a compaction. -/
inductive Recorded (s : Lsm V) (f : FileMetaData) : Prop
  | current (level : Level) (h : f ∈ s.vs.current.files level)
  | logged (e : VersionEdit) (he : e ∈ s.vs.manifest) (p : ℤ × FileMetaData)
      (hp : p ∈ e.newFiles) (h : p.2 = f)
  | flushing (h : f ∈ s.flushing)
  | output (c : Compaction V) (hc : c ∈ s.job) (h : f ∈ c.outputs)

/-- **Every recorded range takes in the keys of its table**, and the next
number is past all that are recorded. -/
structure Ranged (s : Lsm V) : Prop where
  within : ∀ f, s.Recorded f → Within s.tables f ∧ f.sequence ≤ s.vs.nextFileNumber
  counter : ∀ e ∈ s.vs.manifest, ∀ p ∈ e.newFiles,
    p.2.sequence ≤ VersionSet.recoverNext s.vs.manifest

namespace Ranged

theorem of_fresh : Ranged ({} : Lsm V) where
  within f hf := by
    cases hf with
    | current level h => cases h
    | logged e he p hp h => cases he
    | flushing h => cases h
    | output c hc h => cases hc
  counter e he := by cases he

section

variable (h : Ranged s)
include h

/-- Tables go, and nothing is recorded. -/
theorem frame (htab : ∀ seq t, s'.tables.get seq = some t → s.tables.get seq = some t)
    (hrec : ∀ f, s'.Recorded f → s.Recorded f) (hnext : s.vs.nextFileNumber ≤ s'.vs.nextFileNumber)
    (hman : s'.vs.manifest = s.vs.manifest) : Ranged s' where
  within f hf := by
    obtain ⟨hw, hle⟩ := h.within f (hrec f hf)
    exact ⟨hw.anti (htab _), le_trans hle hnext⟩
  counter := hman ▸ h.counter

/-- **A table is written**, under a number not used before. -/
theorem write (new : FileMetaData) (t : SSTable V) (hseq : new.sequence = s.vs.nextFileNumber + 1)
    (hmin : new.minKey = t.minKey) (hmax : new.maxKey = t.maxKey)
    (htab : s'.tables = s.tables.insert (s.vs.nextFileNumber + 1) t)
    (hrec : ∀ f, s'.Recorded f → s.Recorded f ∨ f = new)
    (hnext : s'.vs.nextFileNumber = s.vs.nextFileNumber + 1)
    (hman : s'.vs.manifest = s.vs.manifest) :
    Ranged s' where
  within f hf := by
    rw [htab, hnext]
    rcases hrec f hf with hf | rfl
    · obtain ⟨hw, hle⟩ := h.within f hf
      refine ⟨hw.anti (fun t' ht' => ?_), Nat.le_succ_of_le hle⟩
      rwa [get_insert_next s t hle] at ht'
    · refine ⟨fun t' ht' => ?_, hseq.le⟩
      rw [hseq, OrdMap.get_insert_self] at ht'
      cases ht'
      exact ⟨hmin.le, hmax.ge⟩
  counter := hman ▸ h.counter

/-- **An edit is logged** that adds files recorded before. -/
theorem log {e : VersionEdit} (he : e.nextFileSequence = none)
    (hnew : ∀ p ∈ e.newFiles, s.Recorded p.2) (htab : s'.tables = s.tables)
    (hvs : s'.vs = s.vs.logAndApply env.stdSort e) (hfl : ∀ f ∈ s'.flushing, f ∈ s.flushing)
    (hjob : ∀ c ∈ s'.job, c ∈ s.job) : Ranged s' := by
  have hcur : ∀ level, ∀ f ∈ s'.vs.current.files level, s.Recorded f := by
    intro level f hf
    rw [hvs, VersionSet.logAndApply_current] at hf
    rcases List.mem_append.mp ((Version.applyEdit_perm _ _ e level).mem_iff.mp hf) with hf | hf
    · exact .current level (List.mem_of_mem_filter hf)
    · obtain ⟨p, hp, rfl⟩ := Version.exists_newFile_of_mem_added hf
      exact hnew p hp
  have hlogged : ∀ e' ∈ s'.vs.manifest, ∀ p ∈ e'.newFiles, s.Recorded p.2 := by
    intro e' he' p hp
    have hman : s'.vs.manifest = _ := congrArg VersionSet.manifest hvs
    unfold VersionSet.logAndApply at hman
    dsimp only at hman
    split_ifs at hman with hrewrite
    -- a rewritten MANIFEST lists the files of the version
    · rw [hman, List.mem_singleton] at he'
      rw [he'] at hp
      obtain ⟨level, -, hp⟩ := List.mem_flatMap.mp hp
      obtain ⟨f, hf, rfl⟩ := List.mem_map.mp hp
      refine hcur level f ?_
      rw [hvs, VersionSet.logAndApply_current]
      exact hf
    · rw [hman] at he'
      rcases List.mem_append.mp he' with he' | he'
      · exact .logged e' he' p hp rfl
      · rw [List.mem_singleton.mp he', VersionSet.prepare, he] at hp
        exact hnew p hp
  have hnext : s'.vs.nextFileNumber = s.vs.nextFileNumber := by
    rw [hvs, VersionSet.logAndApply_nextFileNumber _ _ he]
  refine ⟨fun f hf => ?_, fun e' he' p hp => ?_⟩
  · rw [htab, hnext]
    cases hf with
    | current level hf => exact h.within f (hcur level f hf)
    | logged e' he' p hp hpf => exact h.within f (hpf ▸ hlogged e' he' p hp)
    | flushing hf => exact h.within f (.flushing (hfl f hf))
    | output c hc hf => exact h.within f (.output c (hjob c hc) hf)
  · rw [hvs, VersionSet.recoverNext_logAndApply _ _ he]
    exact (h.within _ (hlogged e' he' p hp)).2

theorem flushStart {m : OrdMap Key V} (hs : s.flushStart env m = some s') : Ranged s' := by
  obtain ⟨-, ⟨-, rfl⟩ | ⟨hm, rfl⟩⟩ := flushStart_cases hs
  · refine h.frame (fun _ _ ht => ht) (fun f hf => ?_) (Nat.le_succ _) rfl
    cases hf with
    | current level hf => exact .current level hf
    | logged e he p hp hpf => exact .logged e he p hp hpf
    | flushing hf => exact .flushing hf
    | output c hc hf => exact .output c hc hf
  · refine h.write (flushRecord m hm _) (SSTable.write env m hm) rfl rfl rfl rfl
      (fun f hf => ?_) rfl rfl
    cases hf with
    | current level hf => exact Or.inl (.current level hf)
    | logged e he p hp hpf => exact Or.inl (.logged e he p hp hpf)
    | flushing hf => exact Or.inr (Option.some.inj hf).symm
    | output c hc hf => exact Or.inl (.output c hc hf)

theorem flushCommit (hs : s.flushCommit env = some s') : Ranged s' := by
  obtain ⟨f, hf, rfl⟩ := Option.map_eq_some_iff.mp hs
  refine h.log (e := flushEdit f) rfl (fun p hp => ?_) rfl rfl (fun g hg => by cases hg)
    (fun c hc => hc)
  obtain rfl := List.mem_singleton.mp hp
  exact .flushing hf

/-- **Every step of a compaction keeps it.** -/
theorem compact [Payload V] {a : LsmAction V} (ha : Compacting a) (hs : s.step env a = some s') :
    Ranged s' := by
  cases a with
  | flushStart m | flushCommit => exact ha.elim
  | compactStart =>
    obtain ⟨-, -, rfl⟩ := compactStart_cases hs
    refine h.frame (fun _ _ ht => ht) (fun f hf => ?_) le_rfl rfl
    cases hf with
    | current level hf => exact .current level hf
    | logged e he p hp hpf => exact .logged e he p hp hpf
    | flushing hf => exact .flushing hf
    | output c hc hf =>
      rw [outputs_start hc] at hf
      cases hf
  | compactOutput =>
    obtain ⟨c, chunk, todo, hc, -, rfl⟩ := compactOutput_cases hs
    refine h.write (chunk.record (s.vs.nextFileNumber + 1))
      (SSTable.write env chunk.contents chunk.nonempty) rfl rfl rfl rfl
      (fun f hf => ?_) rfl rfl
    cases hf with
    | current level hf => exact Or.inl (.current level hf)
    | logged e he p hp hpf => exact Or.inl (.logged e he p hp hpf)
    | flushing hf => exact Or.inl (.flushing hf)
    | output c' hc' hf =>
      cases hc'
      rcases List.mem_append.mp hf with hf | hf
      · exact Or.inl (.output c hc hf)
      · exact Or.inr (List.mem_singleton.mp hf)
  | compactCommit =>
    obtain ⟨c, hc, -, rfl⟩ := compactCommit_cases hs
    refine h.log (e := c.edit) rfl (fun p hp => ?_) rfl rfl (fun f hf => hf)
      (fun c' hc' => by cases hc')
    obtain ⟨f, hf, rfl⟩ := List.mem_map.mp hp
    exact .output c hc hf
  | purgeObsoleteFiles =>
    obtain ⟨snapshot, -, rfl⟩ := Option.map_eq_some_iff.mp hs
    refine h.frame (fun seq t ht => ?_) (fun f hf => ?_) le_rfl rfl
    · rw [OrdMap.get_filterKeys] at ht
      split_ifs at ht
      exact ht
    · cases hf with
      | current level hf => exact .current level hf
      | logged e he p hp hpf => exact .logged e he p hp hpf
      | flushing hf => exact .flushing hf
      | output c hc hf => exact .output c hc hf

/-- **A restart keeps it**, whatever the replay makes of the edits. -/
theorem reopen (env : Env) : Ranged (s.reopen env) := by
  have hlogged : ∀ e ∈ s.vs.manifest, ∀ p ∈ e.newFiles,
      Within (s.reopen env).tables p.2
        ∧ p.2.sequence ≤ (s.reopen env).vs.nextFileNumber := by
    intro e he p hp
    refine ⟨(h.within p.2 (.logged e he p hp rfl)).1.anti (fun t ht => ?_), h.counter e he p hp⟩
    unfold Lsm.reopen at ht
    rw [OrdMap.get_filterKeys] at ht
    split_ifs at ht
    exact ht
  refine ⟨fun f hf => ?_, h.counter⟩
  cases hf with
  | current level hf =>
    obtain ⟨e, he, hf⟩ := Version.mem_recoverVersion hf
    obtain ⟨p, hp, rfl⟩ := Version.exists_newFile_of_mem_added hf
    exact hlogged e he p hp
  | logged e he p hp hpf => exact hpf ▸ hlogged e he p hp
  | flushing hf => cases hf
  | output c hc hf => cases hc

/-- **A lookup goes through the contents of the files**, level by level. -/
theorem lookup_eq (k : Key) :
    s.lookup env k = (List.finRange maxLevels).findSome? (fun level =>
      (s.vs.current.files level).findSome? (fun f => (fileContents s.tables f).get k)) :=
  findSome?_congr (fun level _ => findSome?_congr (fun f hf =>
    (h.within f (.current level hf)).1.probeFile_eq env k))

end

end Ranged

end Lsm
