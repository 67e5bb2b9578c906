import ForgeLSM.Lsm

/-!
# Who holds a version, and what a purge may remove

A version is an object behind a `std::shared_ptr`: the version set holds the
current one, and a reader that took it through `current()` holds it until it
lets go. The version set keeps weak references to all it has published, so
that a purge can tell which of them somebody still holds.

`purge_obsolete_files` looks at the version set under its mutex and then walks
the directory without it. What it saw is a `PurgeSnapshot`; between that and a
removal numbers are handed out, edits logged, versions taken and let go, and
other purges run. `VersionRefs` is the machine of all of these.

A removal is safe because what was in use when the snapshot was taken is in
the snapshot, and what comes into use later comes from what was in use or
from a number at least as large as the snapshot's limit – as long as the edits
add only numbers that are still pending and leave the counter alone
(`FreshEdit`), as those of a flush and of a compaction do, and the counter does
not wrap. Once it does, the numbers handed out are below the limit of an older
snapshot, and the walk takes the table of one that is pending
(`removeFile_wrapped`).
-/

/-- The numbers of the files of a version, level by level. -/
def Version.sequences (v : Version) : List ℕ :=
  (List.finRange maxLevels).flatMap (fun level => (v.files level).map FileMetaData.sequence)

/-- A `std::shared_ptr<Version>`: the object it points to and the contents of
that object, which do not change once it is published. -/
structure VersionRef where
  object : ℕ
  version : Version
  deriving DecidableEq

/-- **What a purge saw under the mutex.** -/
structure PurgeSnapshot where
  liveFiles : List ℕ
  pending : List ℕ
  maxSeq : ℕ
  deriving DecidableEq

/-- Whether the walk of the purge removes the table `seq`. -/
def PurgeSnapshot.removes (p : PurgeSnapshot) (seq : ℕ) : Bool :=
  decide (seq ∉ p.liveFiles) && decide (seq ∉ p.pending) && decide (seq < p.maxSeq)

/-- **The version set with the references to its versions**, the purges under
way and the tables on disk. -/
structure VersionRefs where
  vs : VersionSet
  /-- The object `current_` points to. -/
  object : ℕ := 0
  /-- The weak references to the versions published. -/
  activeVersions : List VersionRef
  /-- The references readers hold. -/
  readers : List VersionRef := []
  purges : List PurgeSnapshot := []
  /-- The numbers of the tables in the directory. -/
  tables : List ℕ
  deriving DecidableEq

/-- What can happen to the version set while purges run. -/
inductive RefAction where
  | newFileNumber
  | removePendingOutput (seq : ℕ)
  /-- The table of a pending number is written. -/
  | writeTable (seq : ℕ)
  | logAndApply (e : VersionEdit)
  /-- A reader takes the current version. -/
  | acquire
  /-- The reference number `i` of those held is let go. -/
  | release (i : ℕ)
  /-- A purge takes its snapshot. -/
  | purgeSnapshot
  /-- The walk of the purge number `i` removes a table. -/
  | removeFile (i seq : ℕ)
  /-- The walk of the purge number `i` is over. -/
  | purgeReturn (i : ℕ)
  deriving DecidableEq

namespace VersionRefs

/-- The reference `current()` returns. -/
def current (s : VersionRefs) : VersionRef := ⟨s.object, s.vs.current⟩

/-- Whether a weak reference can be locked: somebody holds the object. -/
def locks (s : VersionRefs) (w : VersionRef) : Bool :=
  (s.current :: s.readers).any (fun r => decide (r.object = w.object))

/-- What `purge_obsolete_files` collects under the mutex. -/
def snapshot (s : VersionRefs) : PurgeSnapshot where
  liveFiles := (s.activeVersions.filter s.locks).flatMap (fun w => w.version.sequences)
  pending := s.vs.pendingOutputs
  maxSeq := s.vs.nextFileNumber

/-- **One step of the version set, a reader or a purge.** -/
def step (S : StdSort) (s : VersionRefs) : RefAction → Option VersionRefs
  | .newFileNumber => some { s with vs := s.vs.newFileNumber.2 }
  | .removePendingOutput seq => some { s with vs := s.vs.removePendingOutput seq }
  | .writeTable seq =>
    if seq ∈ s.vs.pendingOutputs then some { s with tables := s.tables ++ [seq] } else none
  | .logAndApply e =>
    let vs := s.vs.logAndApply S e
    some
      { s with
        vs := vs
        object := s.object + 1
        activeVersions := s.activeVersions ++ [⟨s.object + 1, vs.current⟩] }
  | .acquire => some { s with readers := s.readers ++ [s.current] }
  | .release i =>
    if i < s.readers.length then some { s with readers := s.readers.eraseIdx i } else none
  | .purgeSnapshot =>
    -- the references that cannot be locked are dropped on the way
    some
      { s with
        activeVersions := s.activeVersions.filter s.locks
        purges := s.purges ++ [s.snapshot] }
  | .removeFile i seq =>
    match s.purges[i]? with
    | none => none
    | some p =>
      if seq ∈ s.tables ∧ p.removes seq = true then
        some { s with tables := s.tables.filter (fun t => decide (t ≠ seq)) }
      else none
  | .purgeReturn i =>
    if i < s.purges.length then some { s with purges := s.purges.eraseIdx i } else none

/-- **The version set once opened**, on the bytes of a MANIFEST or where there
is none yet. Without one, the empty version of the constructor stays current
and no weak reference to it is kept. -/
def opened (S : StdSort) (manifest : Option (List Byte)) (tables : List ℕ) : VersionRefs :=
  match manifest with
  | none => { vs := {}, activeVersions := [], tables := tables }
  | some file =>
    let vs := VersionSet.recover S file
    { vs := vs, activeVersions := [⟨0, vs.current⟩], tables := tables }

/-- **The table `seq` is in use**: it belongs to the current version, to a
version a reader holds, or to the pending outputs. -/
def InUse (s : VersionRefs) (seq : ℕ) : Prop :=
  (∃ r ∈ s.current :: s.readers, seq ∈ r.version.sequences) ∨ seq ∈ s.vs.pendingOutputs

/-- **The edits of a flush or a compaction**: every file they add has a number
`new_file_number` handed out and no edit has added yet, and they leave the
counter alone. -/
def FreshEdit (s : VersionRefs) (e : VersionEdit) : Prop :=
  e.nextFileSequence = none ∧ ∀ f ∈ e.newFiles, f.2.sequence ∈ s.vs.pendingOutputs

/-- A step whose number, if it hands one out, is a new one, and whose edit, if it
logs one, is fresh. -/
def FreshStep (s : VersionRefs) : RefAction → Prop
  | .newFileNumber => s.vs.nextFileNumber + 1 < 2 ^ 32
  | .logAndApply e => s.FreshEdit e
  | _ => True

instance (s : VersionRefs) (e : VersionEdit) : Decidable (s.FreshEdit e) := by
  unfold FreshEdit
  infer_instance

instance (s : VersionRefs) (a : RefAction) : Decidable (s.FreshStep a) := by
  cases a <;> unfold FreshStep <;> infer_instance

end VersionRefs

/-! ## What a step brings into use -/

namespace Version

theorem mem_sequences {v : Version} {seq : ℕ} :
    seq ∈ v.sequences ↔ ∃ level, ∃ f ∈ v.files level, f.sequence = seq := by
  simp [sequences]

/-- The files of the next version are files of the version or of the edit. -/
theorem mem_sequences_applyEdit {S : StdSort} {v : Version} {e : VersionEdit} {seq : ℕ}
    (h : seq ∈ (v.applyEdit S e).sequences) :
    seq ∈ v.sequences ∨ ∃ f ∈ e.newFiles, f.2.sequence = seq := by
  obtain ⟨level, f, hf, hseq⟩ := mem_sequences.mp h
  rcases List.mem_append.mp ((applyEdit_perm S v e level).mem_iff.mp hf) with hkept | hadded
  · exact Or.inl (mem_sequences.mpr ⟨level, f, List.mem_of_mem_filter hkept, hseq⟩)
  · obtain ⟨g, hg, rfl⟩ := List.mem_map.mp hadded
    exact Or.inr ⟨g, List.mem_of_mem_filter hg, hseq⟩

end Version

theorem PurgeSnapshot.removes_eq_false {p : PurgeSnapshot} {seq : ℕ} :
    p.removes seq = false ↔ seq ∈ p.liveFiles ∨ seq ∈ p.pending ∨ p.maxSeq ≤ seq := by
  simp only [removes, Bool.and_eq_false_iff, decide_eq_false_iff_not, not_not, not_lt, or_assoc]

namespace VersionRefs

variable {S : StdSort} {s s' : VersionRefs} {a : RefAction}

/-- A weak reference to a version somebody holds can be locked. -/
theorem locks_of_mem {r : VersionRef} (h : r ∈ s.current :: s.readers) : s.locks r = true :=
  List.any_eq_true.mpr ⟨r, h, decide_eq_true rfl⟩

/-- A removal takes a table of the directory that its snapshot does not
spare. -/
theorem removeFile_cases {i seq : ℕ} (h : s.step S (.removeFile i seq) = some s') :
    ∃ p ∈ s.purges, p.removes seq = true
      ∧ s' = { s with tables := s.tables.filter (fun t => decide (t ≠ seq)) } := by
  simp only [step] at h
  split at h
  · cases h
  case h_2 p hp =>
    rw [Option.ite_none_right_eq_some, Option.some.injEq] at h
    exact ⟨p, List.mem_of_getElem? hp, h.1.2, h.2.symm⟩

/-- **What comes into use was in use before, or is a new number.** -/
theorem inUse_of_step (hok : s.FreshStep a) (h : s.step S a = some s') {seq : ℕ}
    (hu : s'.InUse seq) : s.InUse seq ∨ s.vs.nextFileNumber < seq := by
  cases a with
  | newFileNumber =>
    cases h
    rw [VersionSet.newFileNumber_eq_fresh hok] at hu
    rcases hu with hheld | hpending
    · exact Or.inl (Or.inl hheld)
    · rcases List.mem_append.mp hpending with hold | hnew
      · exact Or.inl (Or.inr hold)
      · exact Or.inr (by rw [List.mem_singleton.mp hnew]; exact Nat.lt_succ_self _)
  | removePendingOutput n =>
    cases h
    exact Or.inl (hu.imp_right List.mem_of_mem_filter)
  | writeTable n | purgeReturn n =>
    simp only [step, Option.ite_none_right_eq_some, Option.some.injEq] at h
    obtain ⟨-, rfl⟩ := h
    exact Or.inl hu
  | logAndApply e =>
    cases h
    left
    rcases hu with ⟨r, hr, hseq⟩ | hpending
    · rcases List.mem_cons.mp hr with rfl | hreader
      · -- the new current version: files of the old one, or pending numbers
        have hcur : seq ∈ (s.vs.current.applyEdit S e).sequences := by
          rw [← VersionSet.logAndApply_current]
          exact hseq
        rcases Version.mem_sequences_applyEdit hcur with hold | ⟨f, hf, rfl⟩
        · exact Or.inl ⟨s.current, List.mem_cons_self, hold⟩
        · exact Or.inr (hok.2 f hf)
      · exact Or.inl ⟨r, List.mem_cons_of_mem _ hreader, hseq⟩
    · exact Or.inr ((VersionSet.mem_logAndApply_pendingOutputs S s.vs e).mp hpending).1
  | acquire =>
    cases h
    left
    refine hu.imp_left (fun ⟨r, hr, hseq⟩ => ⟨r, ?_, hseq⟩)
    rcases List.mem_cons.mp hr with rfl | hreader
    · exact List.mem_cons_self
    · rcases List.mem_append.mp hreader with hold | hnew
      · exact List.mem_cons_of_mem _ hold
      · rw [List.mem_singleton.mp hnew]
        exact List.mem_cons_self
  | release i =>
    simp only [step, Option.ite_none_right_eq_some, Option.some.injEq] at h
    obtain ⟨-, rfl⟩ := h
    left
    refine hu.imp_left (fun ⟨r, hr, hseq⟩ => ⟨r, ?_, hseq⟩)
    exact List.cons_subset_cons _ (List.eraseIdx_sublist s.readers i).subset hr
  | purgeSnapshot =>
    cases h
    exact Or.inl hu
  | removeFile i n =>
    obtain ⟨p, -, -, rfl⟩ := removeFile_cases h
    exact Or.inl hu

/-- The counter does not go back. -/
theorem nextFileNumber_le_of_step (hok : s.FreshStep a) (h : s.step S a = some s') :
    s.vs.nextFileNumber ≤ s'.vs.nextFileNumber := by
  cases a with
  | newFileNumber =>
    cases h
    rw [VersionSet.newFileNumber_eq_fresh hok]
    exact Nat.le_succ _
  | logAndApply e =>
    cases h
    exact (VersionSet.logAndApply_nextFileNumber S s.vs hok.1).ge
  | removeFile i n =>
    obtain ⟨p, -, -, rfl⟩ := removeFile_cases h
    exact le_rfl
  | writeTable n | release i | purgeReturn i =>
    simp only [step, Option.ite_none_right_eq_some, Option.some.injEq] at h
    obtain ⟨-, rfl⟩ := h
    exact le_rfl
  | removePendingOutput n | acquire | purgeSnapshot =>
    cases h
    exact le_rfl

/-- A purge under way was under way before, or has just taken its
snapshot. -/
theorem purges_of_step (h : s.step S a = some s') {p : PurgeSnapshot} (hp : p ∈ s'.purges) :
    p ∈ s.purges ∨ p = s.snapshot := by
  cases a with
  | purgeSnapshot =>
    cases h
    exact (List.mem_append.mp hp).imp_right List.mem_singleton.mp
  | purgeReturn i =>
    simp only [step, Option.ite_none_right_eq_some, Option.some.injEq] at h
    obtain ⟨-, rfl⟩ := h
    exact Or.inl ((List.eraseIdx_sublist s.purges i).subset hp)
  | removeFile i n =>
    obtain ⟨q, -, -, rfl⟩ := removeFile_cases h
    exact Or.inl hp
  | writeTable n | release i =>
    simp only [step, Option.ite_none_right_eq_some, Option.some.injEq] at h
    obtain ⟨-, rfl⟩ := h
    exact Or.inl hp
  | newFileNumber | removePendingOutput n | logAndApply e | acquire =>
    cases h
    exact Or.inl hp

/-! ## The versions held are known -/

/-- **Every version held has a weak reference**, apart from the one of the
constructor, which has no files. -/
def Tracked (s : VersionRefs) : Prop :=
  ∀ r ∈ s.current :: s.readers, r ∈ s.activeVersions ∨ r.version.sequences = []

theorem Tracked.step (ht : s.Tracked) (h : s.step S a = some s') : s'.Tracked := by
  cases a with
  | logAndApply e =>
    cases h
    intro r hr
    rcases List.mem_cons.mp hr with rfl | hreader
    · exact Or.inl (List.mem_append_right _ List.mem_cons_self)
    · exact (ht r (List.mem_cons_of_mem _ hreader)).imp_left (List.mem_append_left _)
  | acquire =>
    cases h
    intro r hr
    rcases List.mem_cons.mp hr with rfl | hreader
    · exact ht _ List.mem_cons_self
    · rcases List.mem_append.mp hreader with hold | hnew
      · exact ht r (List.mem_cons_of_mem _ hold)
      · exact ht r (List.mem_cons.mpr (Or.inl (List.mem_singleton.mp hnew)))
  | release i =>
    simp only [VersionRefs.step, Option.ite_none_right_eq_some, Option.some.injEq] at h
    obtain ⟨-, rfl⟩ := h
    intro r hr
    exact ht r (List.cons_subset_cons _ (List.eraseIdx_sublist s.readers i).subset hr)
  | purgeSnapshot =>
    -- the references dropped are those nobody holds
    cases h
    intro r hr
    exact (ht r hr).imp_left (fun hmem => List.mem_filter.mpr ⟨hmem, locks_of_mem hr⟩)
  | removeFile i n =>
    obtain ⟨p, -, -, rfl⟩ := removeFile_cases h
    exact ht
  | writeTable n | purgeReturn i =>
    simp only [VersionRefs.step, Option.ite_none_right_eq_some, Option.some.injEq] at h
    obtain ⟨-, rfl⟩ := h
    exact ht
  | newFileNumber | removePendingOutput n =>
    cases h
    exact ht

theorem tracked_opened (S : StdSort) (manifest : Option (List Byte)) (tables : List ℕ) :
    (opened S manifest tables).Tracked := by
  intro r hr
  cases manifest with
  | none =>
    obtain rfl := List.mem_singleton.mp hr
    exact Or.inr rfl
  | some file =>
    obtain rfl := List.mem_singleton.mp hr
    exact Or.inl List.mem_cons_self

/-! ## A snapshot spares what is in use -/

/-- **A snapshot spares every table in use**, and the numbers still to come. -/
structure Spares (p : PurgeSnapshot) (s : VersionRefs) : Prop where
  limit : p.maxSeq ≤ s.vs.nextFileNumber
  inUse : ∀ seq, s.InUse seq → p.removes seq = false

/-- What a snapshot spares when it is taken: all there is. -/
theorem Tracked.spares_snapshot (ht : s.Tracked) : Spares s.snapshot s where
  limit := le_rfl
  inUse := by
    intro seq hu
    rw [PurgeSnapshot.removes_eq_false]
    rcases hu with ⟨r, hr, hseq⟩ | hpending
    · rcases ht r hr with hmem | hempty
      · have hlocked : r ∈ s.activeVersions.filter s.locks :=
          List.mem_filter.mpr ⟨hmem, locks_of_mem hr⟩
        exact Or.inl (List.mem_flatMap.mpr ⟨r, hlocked, hseq⟩)
      · rw [hempty] at hseq
        exact absurd hseq List.not_mem_nil
    · exact Or.inr (Or.inl hpending)

/-- It still does so after any step. -/
theorem Spares.step {p : PurgeSnapshot} (hp : Spares p s) (hok : s.FreshStep a)
    (h : s.step S a = some s') : Spares p s' where
  limit := hp.limit.trans (nextFileNumber_le_of_step hok h)
  inUse := by
    intro seq hu
    rcases inUse_of_step hok h hu with hold | hnew
    · exact hp.inUse seq hold
    · exact PurgeSnapshot.removes_eq_false.mpr (Or.inr (Or.inr (hp.limit.trans hnew.le)))

/-- The invariant of the version set and its purges. -/
structure Inv (s : VersionRefs) : Prop where
  tracked : s.Tracked
  spares : ∀ p ∈ s.purges, Spares p s

theorem Inv.step (hi : Inv s) (hok : s.FreshStep a) (h : s.step S a = some s') : Inv s' where
  tracked := hi.tracked.step h
  spares := by
    intro p hp
    rcases purges_of_step h hp with hold | rfl
    · exact (hi.spares p hold).step hok h
    · exact hi.tracked.spares_snapshot.step hok h

theorem inv_opened (S : StdSort) (manifest : Option (List Byte)) (tables : List ℕ) :
    Inv (opened S manifest tables) where
  tracked := tracked_opened S manifest tables
  spares := by
    intro p hp
    cases manifest <;> cases hp

/-- **A purge never removes a table in use.** In every run of the version set,
its readers and its purges in which the counter does not wrap and the edits
logged are fresh, whatever a purge removes – however long ago it took its
snapshot – is at that moment in no version held and not pending. -/
theorem not_inUse_of_removeFile {manifest : Option (List Byte)} {tables : List ℕ}
    {actions : List RefAction} {i seq : ℕ}
    (hok : RunOk (step S) FreshStep (opened S manifest tables) actions)
    (hrun : runSteps (step S) (opened S manifest tables) actions = some s)
    (hremove : s.step S (.removeFile i seq) = some s') : ¬ s.InUse seq := by
  have hi : Inv s := invariant_of_runOk (fun _ _ _ hi hok h => hi.step hok h)
    (inv_opened S manifest tables) hok hrun
  obtain ⟨p, hp, hremoves, -⟩ := removeFile_cases hremove
  intro hu
  rw [(hi.spares p hp).inUse seq hu] at hremoves
  exact Bool.false_ne_true hremoves

/-- Table 2 is replaced by table 3 and let go by its reader; then a purge takes
its snapshot, table 4 is logged and a fifth number handed out, and the purge
comes to table 2. -/
def purgeRun : List RefAction :=
  [.newFileNumber, .writeTable 2, .logAndApply (({} : VersionEdit).addFile 0 2 24 [1] [2]),
    .acquire, .newFileNumber, .writeTable 3,
    .logAndApply ((({} : VersionEdit).deleteFile 0 2).addFile 1 3 24 [1] [2]),
    .release 0, .newFileNumber, .writeTable 4, .purgeSnapshot,
    .logAndApply (({} : VersionEdit).addFile 0 4 24 [1] [2]), .acquire, .newFileNumber]

/-- The state in which the purge comes to table 2. -/
def purgeState : VersionRefs :=
  finalState (step Env.small.stdSort) (opened Env.small.stdSort none []) purgeRun

theorem not_inUse_of_removeFile_purgeState : ¬ purgeState.InUse 2 :=
  not_inUse_of_removeFile (by decide +kernel : RunOk (step Env.small.stdSort) FreshStep
      (opened Env.small.stdSort none []) purgeRun)
    (runSteps_eq_finalState (by decide +kernel))
    (Option.some_get (by decide +kernel :
      (purgeState.step Env.small.stdSort (.removeFile 0 2)).isSome = true)).symm

/-- A MANIFEST that left the counter at its last value. -/
def lastNumber : List Byte := frame { nextFileSequence := some (2 ^ 32 - 1) }

/-- A purge takes its snapshot, and the table of the number after the last is
written. -/
def wrapRun : List RefAction := [.purgeSnapshot, .newFileNumber, .writeTable 0]

/-- **The counter wraps.** The number handed out is 0, below the limit of the
snapshot and not among the numbers that were pending then: the walk removes its
table while it is pending. -/
theorem removeFile_wrapped :
    let s := finalState (step Env.small.stdSort) (opened Env.small.stdSort (some lastNumber) [])
      wrapRun
    runSteps (step Env.small.stdSort) (opened Env.small.stdSort (some lastNumber) []) wrapRun
        = some s
      ∧ (s.step Env.small.stdSort (.removeFile 0 0)).isSome = true ∧ s.InUse 0 :=
  ⟨runSteps_eq_finalState (by decide +kernel), by decide +kernel, Or.inr (by decide +kernel)⟩

end VersionRefs

/-! ## The purge at the end of a compaction -/

section

variable {V : Type}

/-- The references there are when a compaction purges in a tree where nobody
else reads: its own, to the version it started on, and `current_`. -/
def Lsm.refs (s : Lsm V) (snapshot : Version) : VersionRefs where
  vs := s.vs
  object := 1
  activeVersions := [⟨0, snapshot⟩, ⟨1, s.vs.current⟩]
  readers := [⟨0, snapshot⟩]
  tables := s.tables.entries.map Prod.fst

/-- **The purge of the tree is a purge of the version set** that removes what
its snapshot does not spare, all at once. -/
theorem Lsm.keepsTable_eq (s : Lsm V) (snapshot : Version) (seq : ℕ) :
    s.keepsTable snapshot seq = !(s.refs snapshot).snapshot.removes seq := by
  have hlocks : (s.refs snapshot).activeVersions.filter (s.refs snapshot).locks
      = (s.refs snapshot).activeVersions := rfl
  rw [Bool.eq_iff_iff, Bool.not_eq_true', PurgeSnapshot.removes_eq_false]
  simp only [VersionRefs.snapshot, hlocks]
  simp only [Lsm.refs, Lsm.keepsTable, Version.mem_sequences, List.mem_flatMap, List.mem_cons,
    List.not_mem_nil, or_false, exists_eq_left, Bool.or_eq_true,
    List.any_eq_true, List.mem_finRange, true_and, List.mem_append, beq_iff_eq,
    List.contains_iff_mem, decide_eq_true_eq, or_and_right, exists_or, or_assoc]
  exact or_left_comm

end
