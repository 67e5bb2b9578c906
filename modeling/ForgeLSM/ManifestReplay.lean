import ForgeLSM.VersionSet
import ForgeLSM.Util.Run

/-!
# Replaying the MANIFEST

The process that writes the MANIFEST keeps the version its edits built; the
next process has only the file. This module compares the two.

Both loops add the same files. They differ in the deletions: `log_and_apply`
carries out every one of them, `recover` skips those at a level above 1. So
the replayed version is the version in memory *plus* every file that was
ever deleted from a level 2 to 5 (`Replays`), and the two agree exactly when
no such deletion ever hit a file
(`recover_manifest_iff_keepsDeep`) – provided no two files of a level
compare equal, since then `std::sort` alone decides their order.
-/

namespace Version

/-- The order of a level is a strict weak order. -/
theorem strictWeak_levelLt (level : Level) : StrictWeak (levelLt level) := by
  by_cases h : level = 0
  · refine strictWeak_of_key (fun f => OrderDual.toDual f.sequence) (fun a b => ?_)
    simp only [levelLt, h, if_true, decide_eq_true_eq, OrderDual.toDual_lt_toDual]
  · refine strictWeak_of_key (fun f => f.minKey) (fun a b => ?_)
    simp only [levelLt, h, if_false, decide_eq_true_eq]

/-- The level is in the order it is kept in, up to files that compare
equal. -/
def LevelSorted (v : Version) (level : Level) : Prop :=
  (v.files level).Pairwise (fun a b => levelLt level b a = false)

/-- **No two files of a level compare equal**: the numbers at L0 are
distinct, and so are the least keys at every other level. -/
def TieFree (v : Version) : Prop :=
  ∀ level, (v.files level).Pairwise
    (fun a b => if level = 0 then a.sequence ≠ b.sequence else a.minKey ≠ b.minKey)

instance (v : Version) : Decidable v.TieFree :=
  inferInstanceAs (Decidable (∀ level, (v.files level).Pairwise
    (fun a b => if level = 0 then a.sequence ≠ b.sequence else a.minKey ≠ b.minKey)))

theorem applyEdit_sorted (S : StdSort) (v : Version) (e : VersionEdit) (level : Level) :
    (v.applyEdit S e).LevelSorted level :=
  S.sorted (strictWeak_levelLt level) _

/-- The files of the next version, up to order. -/
theorem applyEdit_perm (S : StdSort) (v : Version) (e : VersionEdit) (level : Level) :
    ((v.applyEdit S e).files level).Perm
      ((v.files level).filter (fun f => !deletes e level f.sequence) ++ added e level) :=
  S.perm (strictWeak_levelLt level) _

/-- A level without ties that is in order is in strict order. -/
theorem LevelSorted.strict {v : Version} {level : Level} (h : v.LevelSorted level)
    (ht : v.TieFree) : (v.files level).Pairwise (fun a b => levelLt level a b = true) := by
  refine (h.and (ht level)).imp (fun {a b} hab => ?_)
  obtain ⟨hle, hne⟩ := hab
  unfold levelLt at *
  by_cases hl : level = 0
  · simp only [hl, if_true, decide_eq_false_iff_not, decide_eq_true_eq, not_lt] at *
    exact lt_of_le_of_ne hle (Ne.symm hne)
  · simp only [hl, if_false, decide_eq_false_iff_not, decide_eq_true_eq, not_lt] at *
    exact lt_of_le_of_ne hle hne

/-! ## What the loop of `recover` does to one level -/

/-- A deletion seen from one level: it passes the guard at levels 0 and 1. -/
theorem recoverDelete_files (v : Version) (d : ℤ × ℕ) (level : Level) :
    (recoverDelete v d).files level
      = if level.val ≤ 1 ∧ d.1 = (level.val : ℤ)
        then (v.files level).filter (fun f => !decide (d.2 = f.sequence)) else v.files level := by
  unfold recoverDelete
  by_cases hg : d.1 < 0 ∨ d.1 > 1
  · rw [if_pos hg, if_neg (by omega)]
  · rw [if_neg hg]
    by_cases hd : d.1 = (level.val : ℤ)
    · rw [if_pos (by omega)]
      simp only [hd, if_true, eq_comm]
    · rw [if_neg (by omega)]
      exact if_neg (fun hc => hd hc.symm)

/-- An addition seen from one level: every level passes the guard. -/
theorem recoverAdd_files (v : Version) (f : ℤ × FileMetaData) (level : Level) :
    (recoverAdd v f).files level
      = v.files level ++ (if f.1 = (level.val : ℤ) then [f.2] else []) := by
  have hlt := level.isLt
  unfold recoverAdd
  by_cases hg : f.1 < 0 ∨ f.1 ≥ (maxLevels : ℤ)
  · rw [if_pos hg, if_neg (by omega), List.append_nil]
  · rw [if_neg hg]
    by_cases hf : f.1 = (level.val : ℤ)
    · simp only [hf, if_true]
    · rw [if_neg hf, List.append_nil]
      exact if_neg (fun hc => hf hc.symm)

theorem foldl_recoverDelete_files (ds : List (ℤ × ℕ)) (v : Version) (level : Level) :
    (ds.foldl recoverDelete v).files level
      = if level.val ≤ 1 then (v.files level).filter (fun f => !(ds.any (fun d =>
          decide (d.1 = (level.val : ℤ)) && decide (d.2 = f.sequence))))
        else v.files level := by
  induction ds generalizing v with
  | nil => simp
  | cons d ds ih =>
    rw [List.foldl_cons, ih, recoverDelete_files]
    by_cases hl : level.val ≤ 1
    · by_cases hd : d.1 = (level.val : ℤ)
      · rw [if_pos hl, if_pos hl, if_pos ⟨hl, hd⟩, List.filter_filter]
        refine List.filter_congr (fun f _ => ?_)
        simp [hd, Bool.and_comm]
      · rw [if_pos hl, if_pos hl, if_neg (fun h => hd h.2)]
        refine List.filter_congr (fun f _ => ?_)
        simp [hd]
    · rw [if_neg hl, if_neg hl, if_neg (fun h => hl h.1)]

theorem foldl_recoverAdd_files (fs : List (ℤ × FileMetaData)) (v : Version) (level : Level) :
    (fs.foldl recoverAdd v).files level
      = v.files level ++ (fs.filter (fun f => decide (f.1 = (level.val : ℤ)))).map Prod.snd := by
  induction fs generalizing v with
  | nil => simp
  | cons f fs ih =>
    rw [List.foldl_cons, ih, recoverAdd_files, List.append_assoc]
    by_cases hf : f.1 = (level.val : ℤ)
    · simp [hf]
    · simp [hf]

/-- **One edit, as `recover` applies it, seen from one level**: the deletions
count at levels 0 and 1 only, the additions everywhere. -/
theorem applyRecovered_files (v : Version) (e : VersionEdit) (level : Level) :
    (v.applyRecovered e).files level
      = (if level.val ≤ 1 then (v.files level).filter (fun f => !deletes e level f.sequence)
        else v.files level) ++ added e level := by
  rw [applyRecovered, foldl_recoverAdd_files, foldl_recoverDelete_files]
  rfl

end Version

/-! ## The replayed version and the version in memory -/

/-- The two versions of a history of edits: `r`, built by the loop of
`recover` before its sort, holds at every level the files of `v` and the
files `lost` counts – the ones deleted from `v` at a level `recover` does not
delete from. -/
def Replays (v r : Version) (lost : Level → List FileMetaData) : Prop :=
  ∀ level, (r.files level).Perm (v.files level ++ lost level)
    ∧ (level.val ≤ 1 → lost level = [])

/-- The files an edit deletes from a level above 1. -/
def deepDeleted (v : Version) (e : VersionEdit) (level : Level) : List FileMetaData :=
  if level.val ≤ 1 then [] else (v.files level).filter (fun f => Version.deletes e level f.sequence)

variable {lost : Level → List FileMetaData}

/-- **One edit keeps the comparison**, and adds what it deletes deep to what
is lost. -/
theorem Replays.applyEdit {v r : Version} (h : Replays v r lost) (S : StdSort) (e : VersionEdit) :
    Replays (v.applyEdit S e) (r.applyRecovered e)
      (fun level => lost level ++ deepDeleted v e level) := by
  intro level
  obtain ⟨hp, hl⟩ := h level
  refine ⟨?_, fun hle => by simp [hl hle, deepDeleted, hle]⟩
  rw [Version.applyRecovered_files]
  refine List.Perm.trans ?_ ((Version.applyEdit_perm S v e level).symm.append_right _)
  by_cases hle : level.val ≤ 1
  · -- both loops delete here, and nothing was lost before
    rw [hl hle, List.append_nil] at hp
    simp only [if_pos hle, hl hle, deepDeleted, List.append_nil]
    exact (hp.filter _).append_right _
  · -- only the version in memory deletes here
    simp only [if_neg hle, deepDeleted]
    have hsplit := List.filter_append_perm (fun f => !Version.deletes e level f.sequence)
      (v.files level)
    simp only [Bool.not_not] at hsplit
    refine ((hp.append_right _).trans ((hsplit.symm.append_right _).append_right _)).trans ?_
    simp only [List.append_assoc]
    refine List.Perm.append_left _ ?_
    refine List.perm_append_comm.trans ?_
    simp only [List.append_assoc]
    refine List.perm_append_comm.trans ?_
    simp only [List.append_assoc]
    exact List.perm_append_comm.append_left _ |>.trans (List.Perm.refl _)

/-! ## Runs of the version set -/

/-- The calls that change a version set. -/
inductive VersionCall where
  | newFileNumber
  | logAndApply (e : VersionEdit)
  deriving DecidableEq

namespace VersionSet

/-- One call. -/
def call (S : StdSort) (vs : VersionSet) : VersionCall → Option VersionSet
  | .newFileNumber => some vs.newFileNumber.2
  | .logAndApply e => some (vs.logAndApply S e)

/-- The record a call writes fits the types of its fields, and does not make
the MANIFEST long enough to be rewritten. -/
def PlainCall (vs : VersionSet) : VersionCall → Prop
  | .newFileNumber => True
  | .logAndApply e => (vs.prepare e).Fits ∧ vs.rewrites e = false

/-- The call deletes no file of a level above 1. -/
def KeepsDeep (vs : VersionSet) : VersionCall → Prop
  | .newFileNumber => True
  | .logAndApply e => ∀ level : Level, 2 ≤ level.val →
      ∀ f ∈ vs.current.files level, Version.deletes e level f.sequence = false

instance (vs : VersionSet) (c : VersionCall) : Decidable (vs.PlainCall c) := by
  cases c <;> unfold PlainCall <;> infer_instance

/-- What holds between calls: the records can be read back, they replay to
the version in memory and the files lost, and the version is sorted. -/
structure Logged (vs : VersionSet) (lost : Level → List FileMetaData) : Prop where
  replays : Replays vs.current (vs.manifest.foldl Version.applyRecovered .empty) lost
  readable : ∀ e ∈ vs.manifest, e.Fits ∧ e.encodeTo.length ≤ maxRecord
  sorted : ∀ level, vs.current.LevelSorted level

theorem logged_fresh : Logged {} (fun _ => []) where
  replays := fun _ => ⟨List.Perm.refl _, fun _ => rfl⟩
  readable := fun e he => by cases he
  sorted := fun _ => List.Pairwise.nil

/-- The counter an edit is logged with changes neither loop. -/
theorem applyRecovered_prepare (vs : VersionSet) (e : VersionEdit) (v : Version) :
    v.applyRecovered (vs.prepare e) = v.applyRecovered e := by
  unfold prepare
  split <;> rfl

/-- The snapshot lists the files of every level. -/
theorem added_snapshotEdit (next : ℕ) (v : Version) (level : Level) :
    Version.added (snapshotEdit next v) level = v.files level := by
  have hlevels : List.finRange maxLevels = [0, 1, 2, 3, 4, 5] := rfl
  unfold Version.added snapshotEdit
  rw [hlevels]
  fin_cases level <;> simp [List.filter_map, Function.comp_def] <;> rfl

/-- A rewritten MANIFEST replays to the version. -/
theorem replays_snapshotEdit (next : ℕ) (v : Version) :
    Replays v (Version.empty.applyRecovered (snapshotEdit next v)) (fun _ => []) := by
  refine fun level => ⟨?_, fun _ => rfl⟩
  rw [Version.applyRecovered_files, added_snapshotEdit, List.append_nil]
  split_ifs <;> exact List.Perm.refl _

/-- Nothing is deleted deep exactly when the call keeps the deep levels. -/
theorem deepDeleted_eq_nil_iff (vs : VersionSet) (e : VersionEdit) :
    (∀ level, deepDeleted vs.current e level = []) ↔ vs.KeepsDeep (.logAndApply e) := by
  constructor
  · intro h level hl f hf
    have hnil := h level
    rw [deepDeleted, if_neg (by omega)] at hnil
    simpa using List.filter_eq_nil_iff.mp hnil f hf
  · intro h level
    by_cases hl : level.val ≤ 1
    · rw [deepDeleted, if_pos hl]
    · rw [deepDeleted, if_neg hl]
      exact List.filter_eq_nil_iff.mpr (fun f hf => by simp [h level (by omega) f hf])

/-- **One call keeps the comparison**, and loses a file exactly when it
deletes one from a level above 1. -/
theorem Logged.call {S : StdSort} {vs vs' : VersionSet} {c : VersionCall} (h : Logged vs lost)
    (hok : vs.PlainCall c) (hc : vs.call S c = some vs') :
    ∃ lost', Logged vs' lost'
      ∧ ((∀ level, lost' level = []) ↔ (∀ level, lost level = []) ∧ vs.KeepsDeep c) := by
  cases c with
  | newFileNumber =>
    cases hc
    exact ⟨lost, ⟨h.replays, h.readable, h.sorted⟩, by simp [KeepsDeep]⟩
  | logAndApply e =>
    cases hc
    obtain ⟨hfits, hplain⟩ := hok
    refine ⟨fun level => lost level ++ deepDeleted vs.current e level, ?_, ?_⟩
    · have hlen : (vs.prepare e).encodeTo.length ≤ maxRecord := by
        have hle := of_decide_eq_false hplain
        rw [length_frame] at hle
        unfold rewriteLimit at hle
        unfold maxRecord
        omega
      rw [logAndApply, if_neg (by simp [hplain])]
      refine ⟨?_, fun e' he' => ?_, Version.applyEdit_sorted S _ e⟩
      · rw [List.foldl_append, List.foldl_cons, List.foldl_nil, applyRecovered_prepare]
        exact h.replays.applyEdit S e
      · rcases List.mem_append.mp he' with he' | he'
        · exact h.readable e' he'
        · obtain rfl := List.mem_singleton.mp he'
          exact ⟨hfits, hlen⟩
    · rw [← deepDeleted_eq_nil_iff]
      simp only [List.append_eq_nil_iff, forall_and]

/-- **A run of calls keeps the comparison**, and loses a file exactly when
one of its calls does. -/
theorem Logged.run {S : StdSort} {vs vs' : VersionSet} {calls : List VersionCall}
    (h : Logged vs lost) (hok : RunOk (VersionSet.call S) PlainCall vs calls)
    (hrun : runSteps (VersionSet.call S) vs calls = some vs') :
    ∃ lost', Logged vs' lost' ∧ ((∀ level, lost' level = [])
      ↔ (∀ level, lost level = []) ∧ RunOk (VersionSet.call S) KeepsDeep vs calls) := by
  induction calls generalizing vs lost with
  | nil =>
    cases hrun
    exact ⟨lost, h, by simp [RunOk]⟩
  | cons c calls ih =>
    obtain ⟨t, ht, hr⟩ := runSteps_cons.mp hrun
    obtain ⟨lost₁, h₁, hiff₁⟩ := h.call hok.1 ht
    obtain ⟨lost₂, h₂, hiff₂⟩ := ih h₁ (hok.2 t ht) hr
    refine ⟨lost₂, h₂, ?_⟩
    rw [hiff₂, hiff₁, and_assoc, RunOk]
    refine and_congr_right (fun _ => and_congr_right (fun _ => ?_))
    constructor
    · intro hk s' hs'
      rw [ht] at hs'
      cases hs'
      exact hk
    · intro hk
      exact hk t ht


/-- The files `recover` finds at a level, up to order. -/
theorem Logged.recover_perm {vs : VersionSet} (h : Logged vs lost) (S : StdSort) (level : Level) :
    ((recover S vs.manifestBytes).current.files level).Perm
      (vs.current.files level ++ lost level) := by
  rw [manifestBytes, recover_flatMap_frame S h.readable]
  exact (S.perm (Version.strictWeak_levelLt level) _).trans (h.replays level).1

/-- Where nothing is lost and no two files compare equal, `recover` finds
the lists themselves. -/
theorem Logged.recover_eq {vs : VersionSet} (h : Logged vs lost) (S : StdSort)
    (hl : ∀ level, lost level = []) (ht : vs.current.TieFree) (level : Level) :
    (recover S vs.manifestBytes).current.files level = vs.current.files level := by
  rw [manifestBytes, recover_flatMap_frame S h.readable]
  refine S.sort_eq (Version.strictWeak_levelLt level) ?_ ((h.sorted level).strict ht)
  have hp := (h.replays level).1
  rw [hl level, List.append_nil] at hp
  exact hp.symm

/-- **What the MANIFEST of a run replays to.** After any run of calls on a
fresh database that does not rewrite the MANIFEST, `recover` finds at every
level the files of the version in memory exactly when no call deleted a file
from a level above 1; and where the order of a level is determined, it finds
them in the same order. -/
theorem recover_manifest_iff_keepsDeep (S : StdSort) {calls : List VersionCall}
    {vs : VersionSet} (hok : RunOk (call S) PlainCall {} calls)
    (hrun : runSteps (call S) {} calls = some vs) :
    ((∀ level, ((recover S vs.manifestBytes).current.files level).Perm (vs.current.files level))
        ↔ RunOk (call S) KeepsDeep {} calls)
      ∧ (vs.current.TieFree →
        ((∀ level, (recover S vs.manifestBytes).current.files level = vs.current.files level)
          ↔ RunOk (call S) KeepsDeep {} calls)) := by
  obtain ⟨lost, h, hiff⟩ := logged_fresh.run hok hrun
  have hlost : (∀ level, lost level = []) ↔ RunOk (call S) KeepsDeep {} calls := by
    rw [hiff]
    exact and_iff_right (fun _ => rfl)
  -- a level with as many files as in memory has lost none
  have hlen : (∀ level, ((recover S vs.manifestBytes).current.files level).Perm
      (vs.current.files level)) → ∀ level, lost level = [] := by
    intro hp level
    have := ((h.recover_perm S level).symm.trans (hp level)).length_eq
    rw [List.length_append] at this
    exact List.length_eq_zero_iff.mp (by omega)
  refine ⟨⟨fun hp => hlost.mp (hlen hp), fun hk level => ?_⟩,
    fun ht => ⟨fun he => ?_, fun hk => ?_⟩⟩
  · have hp := h.recover_perm S level
    rwa [hlost.mpr hk level, List.append_nil] at hp
  · exact hlost.mp (hlen (fun level => by rw [he level]))
  · exact h.recover_eq S (hlost.mpr hk) ht

/-- A flush adds a file to L0, and a compaction moves its contents to L1. -/
def shallowCalls : List VersionCall :=
  [.newFileNumber, .logAndApply (({} : VersionEdit).addFile 0 2 45 [97] [97]),
    .newFileNumber,
    .logAndApply ((({} : VersionEdit).deleteFile 0 2).addFile 1 3 45 [97] [97])]

/-- The version set those calls leave. -/
def afterCalls (calls : List VersionCall) : VersionSet :=
  (runSteps (call StdSort.insertion) {} calls).getD {}

theorem recover_manifest_shallowCalls :
    RunOk (call StdSort.insertion) PlainCall {} shallowCalls
      ∧ (afterCalls shallowCalls).current.TieFree
      ∧ ((∀ level, (recover StdSort.insertion
            (afterCalls shallowCalls).manifestBytes).current.files level
              = (afterCalls shallowCalls).current.files level)
          ↔ RunOk (call StdSort.insertion) KeepsDeep {} shallowCalls) :=
  ⟨by decide, by decide,
    (recover_manifest_iff_keepsDeep StdSort.insertion (by decide) (by decide)).2 (by decide)⟩

/-- A file is added at L2, where a later compaction deletes it. -/
def deepCalls : List VersionCall :=
  [.newFileNumber, .logAndApply (({} : VersionEdit).addFile 2 2 45 [97] [97]),
    .newFileNumber,
    .logAndApply ((({} : VersionEdit).deleteFile 2 2).addFile 3 3 45 [97] [97])]

/-- **A file deleted from L2 is back after `recover`.** -/
theorem recover_manifest_deepCalls :
    RunOk (call StdSort.insertion) PlainCall {} deepCalls
      ∧ (afterCalls deepCalls).current.files 2 = []
      ∧ (recover StdSort.insertion (afterCalls deepCalls).manifestBytes).current.files 2
        = [⟨2, 45, [97], [97]⟩] := by
  decide

end VersionSet
