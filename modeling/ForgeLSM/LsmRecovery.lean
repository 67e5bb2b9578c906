import ForgeLSM.LsmEntries

/-!
# The tree after a restart

A process that starts has the MANIFEST and the tables. It replays the one and
keeps of the others those it finds at levels 0 and 1. The tree it gets answers
as the old one did (`Lsm.Shallow.lookup_reopen`) provided the tree is *shallow*: no
file was ever put deeper than level 1, so that no deletion is skipped by the
replay and no table by the purge.

A tree stays shallow as long as every compaction takes its source from L0
(`Lsm.Shallow.compact`). A rewrite of the MANIFEST is no exception: the snapshot
replays to the version it was taken of.
-/

variable {e : VersionEdit}

namespace VersionSet

variable {S : StdSort} {vs : VersionSet}

/-- The counter an edit without one is logged with. -/
theorem prepare_nextFileSequence (he : e.nextFileSequence = none) :
    (vs.prepare e).nextFileSequence = some vs.nextFileNumber := by
  rw [prepare, he]
  rfl

/-- **What the MANIFEST replays to after an edit**, rewritten or not: the
version in memory, if no file was deeper than level 1. -/
theorem replays_logAndApply
    (h : Replays vs.current (vs.manifest.foldl Version.applyRecovered .empty) (fun _ => []))
    (hdeep : ∀ level : Level, 2 ≤ level.val → vs.current.files level = []) (S : StdSort)
    (e : VersionEdit) :
    Replays (vs.logAndApply S e).current
      ((vs.logAndApply S e).manifest.foldl Version.applyRecovered .empty) (fun _ => []) := by
  unfold logAndApply
  dsimp only
  split_ifs
  · exact replays_snapshotEdit _ _
  · rw [List.foldl_append, List.foldl_cons, List.foldl_nil, applyRecovered_prepare]
    have hnone : (fun level => [] ++ deepDeleted vs.current e level) = fun _ => [] := by
      funext level
      unfold deepDeleted
      split_ifs with hl
      · rfl
      · rw [hdeep level (by omega)]
        rfl
    exact hnone ▸ h.applyEdit S e

/-- The counter the MANIFEST ends with. -/
theorem recoverNext_logAndApply (S : StdSort) (vs : VersionSet) (he : e.nextFileSequence = none) :
    recoverNext (vs.logAndApply S e).manifest = vs.nextFileNumber := by
  unfold logAndApply recoverNext
  dsimp only
  split_ifs
  · simp [snapshotEdit, prepare_nextFileSequence he]
  · simp [prepare_nextFileSequence he]

end VersionSet

variable {V : Type}

namespace Lsm

variable {env : Env} {s s' : Lsm V}

/-- **A tree that a restart gives back**: nothing is deeper than level 1 or
about to be, the MANIFEST replays to the version, and its counter is past the
files. -/
structure Shallow (s : Lsm V) : Prop where
  levels : ∀ level : Level, 2 ≤ level.val → s.vs.current.files level = []
  job : ∀ c ∈ s.job, c.target.val ≤ 1
  replays : Replays s.vs.current (s.vs.manifest.foldl Version.applyRecovered .empty) (fun _ => [])
  counter : ∀ level, ∀ f ∈ s.vs.current.files level,
    f.sequence ≤ VersionSet.recoverNext s.vs.manifest

namespace Shallow

theorem of_fresh : Shallow ({} : Lsm V) where
  levels _ _ := rfl
  job c hc := by cases hc
  replays _ := ⟨List.Perm.refl _, fun _ => rfl⟩
  counter _ f hf := by cases hf

/-- What is not logged does not matter. -/
theorem frame (h : Shallow s) (hcur : s'.vs.current = s.vs.current)
    (hman : s'.vs.manifest = s.vs.manifest) (hjob : ∀ c ∈ s'.job, c.target.val ≤ 1) :
    Shallow s' where
  levels := hcur ▸ h.levels
  job := hjob
  replays := by
    rw [hcur, hman]
    exact h.replays
  counter := by
    rw [hcur, hman]
    exact h.counter

/-- An edit that adds nothing deep is logged. -/
theorem logAndApply (h : Shallow s) (he : e.nextFileSequence = none)
    (hadd : ∀ level : Level, 2 ≤ level.val → Version.added e level = [])
    (hvs : s'.vs = s.vs.logAndApply env.stdSort e)
    (hbound : ∀ level, ∀ f ∈ s'.vs.current.files level, f.sequence ≤ s'.vs.nextFileNumber)
    (hjob : ∀ c ∈ s'.job, c.target.val ≤ 1) : Shallow s' where
  levels level hl := by
    have hp := Version.applyEdit_perm env.stdSort s.vs.current e level
    rw [h.levels level hl, hadd level hl] at hp
    rw [hvs, VersionSet.logAndApply_current]
    exact List.perm_nil.mp hp
  job := hjob
  replays := hvs ▸ VersionSet.replays_logAndApply h.replays h.levels env.stdSort e
  counter level f hf := by
    have hle := hbound level f hf
    rw [hvs, VersionSet.logAndApply_nextFileNumber _ _ he] at hle
    rw [hvs, VersionSet.recoverNext_logAndApply _ _ he]
    exact hle

theorem flushStart (h : Shallow s) {m : OrdMap Key V} (hs : s.flushStart env m = some s') :
    Shallow s' := by
  obtain ⟨-, ⟨-, rfl⟩ | ⟨hm, rfl⟩⟩ := flushStart_cases hs <;> exact h.frame rfl rfl h.job

variable [Payload V]

theorem flushCommit (h : Shallow s) (hi : Inv s) (hs : s.flushCommit env = some s') :
    Shallow s' := by
  have hi' := hi.flushCommit hs
  obtain ⟨f, -, rfl⟩ := Option.map_eq_some_iff.mp hs
  refine h.logAndApply rfl (fun level hl => ?_) rfl hi'.bound h.job
  rw [added_flushEdit, if_neg]
  rintro rfl
  exact absurd hl (by decide)

/-- **Compactions out of L0 keep a tree shallow.** -/
theorem compact (h : Shallow s) (hi : Inv s) {a : LsmAction V} (ha : Compacting a)
    (hok : a = .compactStart → ∀ c ∈ Compaction.start env s.tables s.vs.current, c.target.val ≤ 1)
    (hs : s.step env a = some s') : Shallow s' := by
  have hi' := hi.step hs
  cases a with
  | flushStart m | flushCommit => exact ha.elim
  | compactStart =>
    obtain ⟨-, -, rfl⟩ := compactStart_cases hs
    exact h.frame rfl rfl (hok rfl)
  | compactOutput =>
    obtain ⟨c, chunk, todo, hc, -, rfl⟩ := compactOutput_cases hs
    refine h.frame rfl rfl (fun c' hc' => ?_)
    cases hc'
    exact h.job c hc
  | compactCommit =>
    obtain ⟨c, hc, -, rfl⟩ := compactCommit_cases hs
    refine h.logAndApply rfl (fun level hl => ?_) rfl hi'.bound (fun c' hc' => by cases hc')
    rw [c.added_edit, if_neg]
    rintro rfl
    exact absurd (h.job c hc) (by omega)
  | purgeObsoleteFiles =>
    obtain ⟨snapshot, -, rfl⟩ := Option.map_eq_some_iff.mp hs
    exact h.frame rfl rfl h.job

/-! ## The restart -/

omit [Payload V] in
/-- The version is found again, file by file. -/
theorem reopen_current (h : Shallow s) (hs : Shape s.tables s.vs.current) (env : Env) :
    (s.reopen env).vs.current = s.vs.current := by
  refine Version.ext (funext (fun level => ?_))
  refine env.stdSort.sort_eq (Version.strictWeak_levelLt level) ?_ (hs.strict level)
  have hp := (h.replays level).1
  rw [List.append_nil] at hp
  exact hp.symm

omit [Payload V] in
/-- No table of the version is purged. -/
theorem reopen_tables (h : Shallow s) (hs : Shape s.tables s.vs.current) (env : Env)
    {level : Level} {f : FileMetaData} (hf : f ∈ s.vs.current.files level) :
    (s.reopen env).tables.get f.sequence = s.tables.get f.sequence := by
  have hcur : (VersionSet.recoverRecords env.stdSort s.vs.manifest).current = s.vs.current :=
    h.reopen_current hs env
  have hlevel : level.val ≤ 1 := by
    by_contra hl
    rw [h.levels level (by omega)] at hf
    cases hf
  have hactive : (activeSsts s.vs.current).contains f.sequence = true :=
    List.contains_iff_mem.mpr (mem_activeSsts_iff.mpr ⟨level, hlevel, f, hf, rfl⟩)
  unfold reopen
  dsimp only
  rw [hcur, OrdMap.get_filterKeys, if_pos hactive]

/-- **The tree after a restart is a good one, at rest.** -/
theorem reopen (h : Shallow s) (hi : Inv s) (env : Env) :
    Inv (s.reopen env) ∧ Shallow (s.reopen env) := by
  have hcur := h.reopen_current hi.shape env
  refine ⟨AtRest.inv ⟨?_, ?_, rfl, rfl, rfl⟩, h.frame hcur rfl (fun c hc => by cases hc)⟩
  · rw [hcur]
    exact hi.shape.congr_tables (fun level f hf => h.reopen_tables hi.shape env hf)
  · rw [hcur]
    exact h.counter

omit [Payload V] in
/-- **The tree after a restart answers as before.** -/
theorem lookup_reopen (h : Shallow s) (hs : Shape s.tables s.vs.current) (k : Key) :
    (s.reopen env).lookup env k = s.lookup env k := by
  unfold Lsm.lookup
  rw [h.reopen_current hs env]
  exact lookup_congr_tables (fun level f hf => h.reopen_tables hs env hf) k

end Shallow

end Lsm
