import ForgeLSM.BackgroundPool
import ForgeLSM.CompactionLoop
import ForgeLSM.Reads

/-!
# The stall of the writers

A writer that finds more than three files in L0 and memtables in the ring together waits until
there are fewer, and it has a compaction enqueued if four of them are files. How many files L0
may have is written down twice more: the task it enqueues compares their number with the
option `l0_compaction_trigger`, before it starts a compaction and again in `run_compaction`.

A compaction of L0 takes all of its files, and one of another level leaves L0 alone. So what
the task leaves in L0 is known beforehand (`Lsm.bgCompactionWorker_l0`): nothing if the files
reach the trigger, and else all of them. With a trigger above the number of files a writer
waits for, the writer is not released.
-/

/-- **The scores of a size are exact**: the quotient of its `double` by a limit is compared with
`1.0` as the ratio would be. Of sizes below `2 ^ 53`, all are. -/
def Scoring.ExactAt (S : Scoring) (size : ℕ) : Prop :=
  ∀ limit, S.geOne size limit = true ↔ 0 < size ∧ limit ≤ size

theorem Scoring.exact_exactAt (size : ℕ) : Scoring.exact.ExactAt size :=
  fun _ => decide_eq_true_iff

namespace Lsm

variable {V : Type} [Payload V] {env : Env}

/-- **A compaction and L0**: it takes all the files there, or none. -/
theorem length_l0_applyEdit (S : StdSort) {tables : Tables V} {v : Version} {c : Compaction V}
    (hc : Compaction.start env tables v = some c) (new : List FileMetaData) :
    ((v.applyEdit S (c.finished new).edit).files 0).length
      = if c.source = 0 then 0 else (v.files 0).length := by
  have htarget : (0 : Level) ≠ (c.finished new).target := by
    intro h
    have hnext : c.target.val = c.source.val + 1 := (Compaction.inputs_start hc).1
    rw [show c.target = 0 from h.symm] at hnext
    cases hnext
  have hdel : ∀ seq, Version.deletes (c.finished new).edit 0 seq = true
      ↔ 0 = c.source ∧ ∃ f ∈ c.src, f.sequence = seq := fun seq =>
    ((c.finished new).deletes_edit 0 seq).trans (or_iff_left (fun h => htarget h.1))
  rw [(Version.applyEdit_perm S v _ 0).length_eq, Compaction.added_edit, if_neg htarget,
    List.append_nil]
  split_ifs with hsource
  · have hsrc : c.src = v.files 0 := by
      obtain ⟨source, _, -, rfl⟩ := Compaction.start_cases hc
      exact if_pos hsource
    rw [List.length_eq_zero_iff, List.filter_eq_nil_iff]
    intro f hf
    rw [(hdel f.sequence).mpr ⟨hsource.symm, f, hsrc ▸ hf, rfl⟩]
    exact Bool.false_ne_true
  · refine congrArg List.length (List.filter_eq_self.mpr (fun f _ => ?_))
    rw [Bool.eq_false_iff.mpr (fun h => hsource ((hdel f.sequence).mp h).1.symm)]
    rfl

/-- L0 is picked only if its files reach the trigger. -/
theorem geOne_l0_of_pickLevel {v : Version} (h : pickLevel env v = some 0) :
    env.scoring.geOne (v.files 0).length env.opts.l0Trigger = true := by
  obtain ⟨p, hp, hzero⟩ := Option.map_eq_some_iff.mp h
  rcases pickLoop_mem hp with hbest | ⟨hmem, -⟩
  · by_contra hge
    rw [if_neg hge] at hbest
    cases hbest
  · rw [hzero] at hmem
    exact absurd hmem (by decide)

/-- **One compaction and L0**: it is emptied, being due, or left as it is. -/
theorem runCompaction_l0 {s s' : Lsm V} (hs : Loadable s)
    (hdue : compactionDue env s.vs.current = true) (hrun : s.runCompaction env = some s') :
    (s'.vs.current.files 0).length = 0
        ∧ env.scoring.geOne (s.vs.current.files 0).length env.opts.l0Trigger = true
      ∨ (s'.vs.current.files 0).length = (s.vs.current.files 0).length := by
  rw [compactionDue_eq] at hdue
  obtain ⟨source, hsource⟩ := Option.isSome_iff_exists.mp hdue
  obtain ⟨c, hc⟩ := Compaction.start_of_pickLevel s.tables hsource
  obtain ⟨s₁, new, hrun₁, -, -, hcur, -⟩ := runCompaction_eq hs hc
  obtain rfl : s₁ = s' := Option.some.inj (hrun₁.symm.trans hrun)
  rw [hcur, length_l0_applyEdit env.stdSort hc new]
  split_ifs with hzero
  · obtain ⟨source', _, hpick, rfl⟩ := Compaction.start_cases hc
    exact Or.inl ⟨rfl, geOne_l0_of_pickLevel (hpick.trans (congrArg some hzero))⟩
  · exact Or.inr rfl

/-- **What the compaction task leaves in L0**, which it comes to in any case. -/
theorem bgCompactionWorker_l0 (env : Env) (s : Lsm V) (hs : Loadable s) :
    ∃ n t, (∀ fuel, n < fuel → s.bgCompactionWorker env fuel = some (n, t))
      ∧ (t.vs.current.files 0).length
        = if env.scoring.geOne (s.vs.current.files 0).length env.opts.l0Trigger then 0
          else (s.vs.current.files 0).length := by
  refine bgCompactionWorker_induction
    (motive := fun s _ t => (t.vs.current.files 0).length
      = if env.scoring.geOne (s.vs.current.files 0).length env.opts.l0Trigger then 0
        else (s.vs.current.files 0).length)
    (fun s hs hnone => ?_) (fun s s' n t hs hdue hrun _ _ hloop => ?_) s hs
  · rw [geOne_l0_of_pickLevel_eq_none hnone, if_neg Bool.false_ne_true]
  · rcases runCompaction_l0 hs hdue hrun with ⟨hempty, hge⟩ | hsame
    · rw [hloop, hempty, hge, ite_self, if_pos rfl]
    · rw [hloop, hsame]

end Lsm

namespace KVStore

/-- The score of `execute_write_request`: the files in L0 and the memtables in the ring. -/
def writeScore (s : KVStore) : ℕ :=
  (s.lsm.vs.current.files 0).length + (List.finRange 4).countP (fun i => (s.immutables i).isSome)

/-- Whether `execute_write_request` enqueues a compaction, for `bg_compaction_running_`. -/
def startsCompaction (s : KVStore) (running : Bool) : Bool :=
  decide ((s.lsm.vs.current.files 0).length ≥ 4) && !running

/-- **The predicate a writer waits for** that came with a score. -/
def Released (s : KVStore) (score : ℕ) : Prop :=
  match Pools.stall score with
  | .stalled bound => s.writeScore < bound
  | _ => True

/-- With no frozen memtables the score is the number of files in L0. -/
theorem writeScore_of_ring {s : KVStore} (hring : ∀ i, s.immutables i = none) :
    s.writeScore = (s.lsm.vs.current.files 0).length := by
  have hcount : (List.finRange 4).countP (fun i => (s.immutables i).isSome) = 0 := by
    rw [List.countP_eq_zero]
    intro i _
    rw [hring i]
    exact Bool.false_ne_true
  rw [writeScore, hcount, Nat.add_zero]

/-- A writer that came with more than three is released by an empty L0 and not by the L0 it
came with. -/
theorem released_iff {s : KVStore} {score : ℕ} (hscore : 3 < score)
    (hs : s.writeScore = 0 ∨ s.writeScore = score) : s.Released score ↔ s.writeScore = 0 := by
  unfold Released Pools.stall
  split_ifs
  all_goals
    dsimp only
    omega

/-- **A stalled writer and the compaction task.** A writer is stalled in a store with no frozen
memtables and no compaction under way. Then it enqueues the task; the task ends; and it releases
the writer exactly if the files in L0 reach the trigger. -/
theorem released_iff_trigger {env : Env} {s : KVStore} (hs : s.lsm.Loadable)
    (hexact : env.scoring.ExactAt (s.lsm.vs.current.files 0).length)
    (hring : ∀ i, s.immutables i = none) (hscore : 3 < s.writeScore) :
    s.startsCompaction false = true
      ∧ ∃ n t, (∀ fuel, n < fuel → s.lsm.bgCompactionWorker env fuel = some (n, t))
        ∧ (({ s with lsm := t } : KVStore).Released s.writeScore
          ↔ env.opts.l0Trigger ≤ (s.lsm.vs.current.files 0).length) := by
  have hl0 := writeScore_of_ring hring
  obtain ⟨n, t, hloop, hleft⟩ := Lsm.bgCompactionWorker_l0 env s.lsm hs
  have hafter : ({ s with lsm := t } : KVStore).writeScore = (t.vs.current.files 0).length :=
    writeScore_of_ring hring
  have hfour : (s.lsm.vs.current.files 0).length ≥ 4 := by omega
  refine ⟨?_, n, t, hloop, ?_⟩
  · rw [startsCompaction, decide_eq_true hfour]
    rfl
  · have hge := hexact env.opts.l0Trigger
    by_cases htrigger : env.opts.l0Trigger ≤ (s.lsm.vs.current.files 0).length
    · rw [if_pos (hge.mpr ⟨by omega, htrigger⟩)] at hleft
      rw [released_iff hscore (Or.inl (hafter.trans hleft)), hafter, hleft]
      exact iff_of_true rfl htrigger
    · rw [if_neg (fun h => htrigger (hge.mp h).2)] at hleft
      rw [released_iff hscore (Or.inr (hafter.trans (hleft.trans hl0.symm))), hafter, hleft]
      exact iff_of_false (by omega) htrigger

/-- The small engine with another trigger. -/
def triggerAt (trigger : ℕ) : Env :=
  { Env.small with opts := { flushThreshold := 1, l0CompactionTrigger := trigger } }

/-- Four memtables of one key each are flushed, one after the other. -/
def fourFlushes : List EngineAction :=
  [97, 98, 99, 100].flatMap (fun k => [.commit [{ key := [k], value := [1] }], .maybeFlush,
    .flushStart, .flushCommit, .flushClear])

/-- What they leave in a store that compacts L0 from eight files on. -/
def fourFiles : KVStore := finalState (KVStore.step (triggerAt 8)) {} fourFlushes

theorem fourFiles_loadable : fourFiles.lsm.Loadable := by
  have hok : RunOk (KVStore.step (triggerAt 8)) ClientStep {} fourFlushes := by decide +kernel
  have hrun : runSteps (KVStore.step (triggerAt 8)) {} fourFlushes = some fourFiles :=
    runSteps_eq_finalState (by decide +kernel)
  have hv := (Visible.of_fresh.run (hok.imp (fun _ _ => ClientStep.fresh)) hrun).1
  exact hv.pipeline.lsm.loadable (by decide +kernel) (by decide +kernel)

/-- With a trigger of four a writer is released. -/
theorem released_iff_trigger_fourFiles :
    fourFiles.lsm.Loadable ∧ fourFiles.writeScore = 4
      ∧ ∃ n t, (∀ fuel, n < fuel →
          fourFiles.lsm.bgCompactionWorker (triggerAt 4) fuel = some (n, t))
        ∧ ({ fourFiles with lsm := t } : KVStore).Released fourFiles.writeScore := by
  have hscore : fourFiles.writeScore = 4 := by decide +kernel
  obtain ⟨-, n, t, hloop, hiff⟩ := @released_iff_trigger (triggerAt 4) fourFiles fourFiles_loadable
    (Scoring.exact_exactAt _) (by decide +kernel) (by omega)
  exact ⟨fourFiles_loadable, hscore, n, t, hloop, hiff.mpr (by decide +kernel)⟩

/-- **A writer nothing releases.** The trigger is eight, and L0 has four files. The writer
enqueues the task and waits for L0 to have fewer; the task finds nothing due and ends with L0 as
it was. -/
theorem stalled_fourFiles :
    (runSteps (KVStore.step (triggerAt 8)) {} fourFlushes).isSome = true
      ∧ fourFiles.writeScore = 4 ∧ (∀ i, fourFiles.immutables i = none)
      ∧ fourFiles.startsCompaction false = true
      ∧ (∀ fuel, 0 < fuel →
          fourFiles.lsm.bgCompactionWorker (triggerAt 8) fuel = some (0, fourFiles.lsm))
      ∧ ¬ fourFiles.Released fourFiles.writeScore := by
  have hscore : fourFiles.writeScore = 4 := by decide +kernel
  have hdue : ¬ compactionDue (triggerAt 8) fourFiles.lsm.vs.current = true := by decide +kernel
  refine ⟨by decide +kernel, hscore, by decide +kernel, by decide +kernel, fun fuel hfuel => ?_, ?_⟩
  · obtain ⟨m, rfl⟩ : ∃ m, fuel = m + 1 := ⟨fuel - 1, by omega⟩
    rw [Lsm.bgCompactionWorker, if_neg hdue]
  · rw [released_iff (by omega) (Or.inr rfl), hscore]
    decide

end KVStore
