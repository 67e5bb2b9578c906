import ForgeLSM.FileSteps
import ForgeLSM.Recovered
import ForgeLSM.Util.Simulation

/-!
# The store in bytes is the store

The steps of the store in bytes and nodes, put together: it simulates `KVStore`, so
that what is proved of the runs of that machine is true of the bytes.

The conditions are of two kinds. `Fits` is about sizes: keys, values, files and the
ids of files stay below what their fields can hold. It makes every step one that
does not fault and is matched. `undisturbed` is about order: what a run must not do
for reads to be right, as the results on `KVStore` have it – no garbage collection,
no segment removed before its memtable is logged, no compaction below the second
level, and kills that do not cut a record in two, unless it is the last one.
-/

/-- **The action of the store that an action on bytes is**, with the stamp of the
relocation in its batch and the number of records that survive a kill. -/
def FileAction.engine (i m : ℕ) (a : FileAction) : EngineAction :=
  match a.1 with
  | .commit batch => .commit (batch.map (FileStore.restamp i))
  | .crash batch _ => .crash (batch.map (FileStore.restamp i)) m
  | b => b

namespace FileStore

variable {env : Env} {Q : StdQueue} {c c' : FileStore} {s s' : KVStore} {batch : List WriteRequest}

/-! ## One step -/

/-- Files and ids are not too large. -/
def Limits (c : FileStore) : Prop :=
  c.tree.Small ∧ c.vlogs.current < 2 ^ 32 ∧ c.wal.current < 2 ^ 32

instance : Decidable c.Limits := inferInstanceAs (Decidable (_ ∧ _))

/-- What an action writes is not too large. -/
def writesFit (env : Env) (c : FileStore) : FileAction → Bool
  | (.commit batch, _) => decide (KVStore.RecordsFit batch ∧ KVStore.WalSuffix.ShortKeys batch)
  | (.flushStart, _) => decide (∀ t ∈ c.flushQueue.head?, ∀ es ∈ t.mem.contents.toOption,
      (SSTableWriter.write env es).length < 2 ^ 32)
  | (.crash batch _, _) => decide (KVStore.RecordsFit batch ∧ KVStore.WalSuffix.ShortKeys batch
      ∧ c.wal.buffer = [] ∧ (∀ p ∈ (c.plan env batch).toOption, p.1.current < 2 ^ 32)
      ∧ ∀ e ∈ c.tree.vs.manifest, e.Fits ∧ e.encodeTo.length ≤ maxRecord)
  | _ => true

/-- **The condition on sizes**: what an action writes is not too large, nor is what it
leaves. -/
def Fits (env : Env) (Q : StdQueue) (c : FileStore) (a : FileAction) : Prop :=
  writesFit env c a ∧ ∀ c' ∈ faultless (step env Q) c a, c'.Limits

instance (a : FileAction) : Decidable (Fits env Q c a) := inferInstanceAs (Decidable (_ ∧ _))

/-- The batch as the collector's stamps make it. -/
theorem batchOk (hp : KVStore.Pointed s) {i : ℕ} (hen : s.gcEnabled (batch.map (restamp i)) = true)
    (hfit : KVStore.RecordsFit batch) (hshort : KVStore.WalSuffix.ShortKeys batch) :
    BatchOk (batch.map (restamp i)) := by
  refine ⟨hp.fits hen (List.forall_mem_map.mpr hfit), fun r hr => ?_,
    List.forall_mem_map.mpr hshort⟩
  cases hg : r.isGc with
  | false =>
    obtain ⟨q, hq, rfl⟩ := List.mem_map.mp hr
    have := hshort q hq hg
    unfold KVStore.maxFieldSize at this
    exact this.trans_lt (by decide)
  | true =>
    have := (hp.relocates hen hr hg).2.2
    unfold VLog.FitsRecord at this
    dsimp only at this
    omega

/-- How many records of its batch a kill leaves. -/
def recordsKept (env : Env) (c : FileStore) : FileAction → ℕ
  | (.crash batch n, _) => c.survivors env batch n
  | _ => 0

/-- **What a step leads to**: a round may be nothing to the store. -/
def Follows (env : Env) (c : FileStore) (s : KVStore) (a : FileAction) (c' : FileStore) : Prop :=
  (a.1 = .compactOutput ∧ Rep env c' s)
    ∨ ∃ i s', s.step env (a.engine i (c.recordsKept env a)) = some s' ∧ Rep env c' s'

theorem follows_of_rel {a : FileAction} {o : Option FileStore}
    (hrel : Option.Rel (Rep env) o (s.step env (a.engine 0 (c.recordsKept env a)))) :
    ∀ c', o = some c' → Follows env c s a c' := by
  rintro c' rfl
  exact Or.inr ⟨0, exists_of_some_rel hrel⟩

/-- **A kill and the recovery after it.** -/
theorem Rep.crash (hk : env.FiltersFit) (h : Rep env c s) (hr : KVStore.Reached env s)
    (hc : c.Limits) {n : ℕ} {heights : ℕ → Height}
    (hwrites : writesFit env c (.crash batch n, heights)) (hen : c.gcEnabled batch = true) :
    ∃ i c' s', c.step env Q (.crash batch n, heights) = .ok (some c')
      ∧ s.step env (.crash (batch.map (restamp i)) (c.survivors env batch n)) = some s'
      ∧ Reads env c' s' ∧ (CleanCut env c batch n → Rep env c' s') := by
  obtain ⟨hfit, hshort, hbuf, hcur, hmanifest⟩ := of_decide_eq_true hwrites
  obtain ⟨i, hen'⟩ := h.gcEnabled hen
  have hb := batchOk hr.pointed hen' hfit hshort
  have hwal : s.wal.current < 2 ^ 32 := h.wal.current ▸ hc.2.2
  obtain ⟨es, hplan, -⟩ := h.plan hr.pointed.vlogs rfl hb hwal
  obtain ⟨killed, hkill, hdisk, hexact⟩ := h.kill hr.pointed.vlogs rfl hb hwal hbuf
    (hcur _ (by rw [hplan]; rfl)) n
  obtain ⟨c', hrun, hreads, hrep⟩ := hdisk.recover hk (h.tree.vs ▸ hmanifest) heights
  refine ⟨i, c', _, ?_, if_pos hen', hreads, fun hclean => hrep (hexact hclean)⟩
  unfold FileStore.step
  dsimp only
  rw [if_pos hen, hkill]
  show (killed.recover env heights).bind _ = _
  rw [hrun]
  rfl

/-- **No step faults, and every step is one of the store.** -/
theorem Rep.step (hk : env.FiltersFit) (h : Rep env c s) (hr : KVStore.Reached env s)
    (hc : c.Limits) {a : FileAction} (ha : Fits env Q c a)
    (hclean : ∀ batch n heights, a = (.crash batch n, heights) → CleanCut env c batch n) :
    ∃ next, c.step env Q a = .ok next ∧ ∀ c', next = some c' → Follows env c s a c' := by
  have hlimits : ∀ c', c.step env Q a = .ok (some c') → c'.Limits :=
    fun c' hstep => ha.2 c' (faultless_eq_some.mpr hstep)
  have hwrites := ha.1
  obtain ⟨a, heights⟩ := a
  cases a with
  | commit batch =>
    unfold FileStore.step at hlimits ⊢
    by_cases hen : c.gcEnabled batch = true
    · obtain ⟨i, hen'⟩ := h.gcEnabled hen
      obtain ⟨c₁, hrun, hrep⟩ := h.commit hr.pointed.vlogs rfl
        (batchOk hr.pointed hen' (of_decide_eq_true hwrites).1 (of_decide_eq_true hwrites).2)
        (h.wal.current ▸ hc.2.2) heights
      dsimp only at hlimits ⊢
      rw [if_pos hen, hrun] at hlimits ⊢
      refine ⟨_, rfl, ?_⟩
      rintro _ ⟨⟩
      exact Or.inr ⟨i, _, if_pos hen',
        { hrep (hlimits _ rfl).2.1 with gc := h.gcAfter batch i }⟩
    · exact ⟨none, if_neg hen, nofun⟩
  | crash batch n =>
    by_cases hen : c.gcEnabled batch = true
    · obtain ⟨i, c₁, s', hrun, hs', -, hrep⟩ := h.crash hk hr hc hwrites hen
      refine ⟨_, hrun, ?_⟩
      rintro _ ⟨⟩
      exact Or.inr ⟨i, s', hs', hrep (hclean batch n heights rfl)⟩
    · exact ⟨none, if_neg hen, nofun⟩
  | flushStart =>
    obtain ⟨o, hrun, hrel⟩ := h.flushStart hk
      (fun t ht es hes => of_decide_eq_true hwrites t ht es (by rw [hes]; rfl))
    exact ⟨o, hrun, follows_of_rel hrel⟩
  | compactStart =>
    obtain ⟨o, hrun, hrel⟩ := h.compactStart hk hr.pipeline.lsm.shape
    exact ⟨o, hrun, follows_of_rel hrel⟩
  | compactOutput =>
    obtain ⟨o, hrun, hspec⟩ := h.compactOutput Q
    refine ⟨o, hrun, ?_⟩
    rintro c' rfl
    exact (hspec c' rfl (hlimits c' hrun).1).imp (fun hrep => ⟨rfl, hrep⟩) (fun hs => ⟨0, hs⟩)
  | compactCommit => exact ⟨_, rfl, fun c' hc' => Or.inr ⟨0, h.compactCommit hc'⟩⟩
  | gcScan =>
    obtain ⟨o, hrun, hrel⟩ := h.gcScan hk
    exact ⟨o, hrun, follows_of_rel hrel⟩
  | maybeFlush => exact ⟨_, rfl, follows_of_rel h.maybeFlush⟩
  | flushCommit => exact ⟨_, rfl, follows_of_rel h.flushCommit⟩
  | flushClear => exact ⟨_, rfl, follows_of_rel h.flushClear⟩
  | purgeObsoleteFiles => exact ⟨_, rfl, follows_of_rel h.purgeObsoleteFiles⟩
  | walRemove id => exact ⟨_, rfl, follows_of_rel (h.walRemove id)⟩
  | walRemoveFail id => exact ⟨_, rfl, follows_of_rel (h.walRemoveFail id)⟩
  | gcStart => exact ⟨_, rfl, follows_of_rel h.gcStart⟩
  | gcFinish => exact ⟨_, rfl, follows_of_rel h.gcFinish⟩

/-! ## Runs without kills -/

/-- The operations an action commits. Of a batch in whose commit the process is
killed, they are those whose records are whole on disk. -/
def ops (env : Env) (c : FileStore) : FileAction → List Op
  | (.commit batch, _) => userOps batch
  | (.crash batch n, _) => (userOps batch).take (c.survivors env batch n)
  | _ => []

/-- The operations of a run. -/
def runOps (env : Env) (Q : StdQueue) (c : FileStore) (as : List FileAction) : History :=
  outputs (faultless (step env Q)) (ops env) c as

theorem userOps_restamp (batch : List WriteRequest) (i : ℕ) :
    userOps (batch.map (restamp i)) = userOps batch := by
  unfold userOps
  rw [List.filter_map, List.map_map]
  rfl

/-- **The store in bytes simulates the store**, one condition on steps against
another, if the condition on the second keeps an invariant and the operations of an
action are those of the action it is. -/
theorem simulates_of (hk : env.FiltersFit)
    {ok : FileStore → FileAction → Prop} {aok : KVStore → EngineAction → Prop}
    {inv : KVStore → Prop} (hreached : ∀ s, inv s → KVStore.Reached env s)
    (hkeep : ∀ s b s', inv s → aok s b → s.step env b = some s' → inv s')
    (hfits : ∀ c a, ok c a → Fits env Q c a)
    (hclean : ∀ c batch n heights, ok c (.crash batch n, heights) → CleanCut env c batch n)
    (hok : ∀ c a s i, Rep env c s → inv s → ok c a →
      aok s (a.engine i (c.recordsKept env a)) ∧ ∀ s',
        s.step env (a.engine i (c.recordsKept env a)) = some s' →
          s'.history = s.history ++ ops env c a) :
    Simulates (fun c s => Rep env c s ∧ inv s ∧ c.Limits) (step env Q) ok (ops env)
      (KVStore.step env) aok KVStore.history := by
  have hstep : ∀ c a s, Rep env c s → inv s → c.Limits → ok c a →
      ∃ next, c.step env Q a = .ok next ∧ ∀ c', next = some c' → Follows env c s a c' :=
    fun c a s hrep hs hlim ha => hrep.step hk (hreached s hs) hlim (hfits c a ha)
      (fun batch n heights heq => hclean c batch n heights (heq ▸ ha))
  refine ⟨fun c a s ⟨hrep, hs, hlim⟩ ha => ?_, fun c a c' s ⟨hrep, hs, hlim⟩ ha hrun => ?_⟩
  · obtain ⟨next, hnext, -⟩ := hstep c a s hrep hs hlim ha
    exact ⟨next, hnext⟩
  · obtain ⟨next, hnext, hspec⟩ := hstep c a s hrep hs hlim ha
    have hlim' : c'.Limits := (hfits c a ha).2 c' (faultless_eq_some.mpr hrun)
    rcases hspec c' (Except.ok.inj (hnext.symm.trans hrun)) with
      ⟨hround, hrep'⟩ | ⟨i, s', hs', hrep'⟩
    · obtain ⟨_, heights⟩ := a
      obtain rfl : _ = EngineAction.compactOutput := hround
      exact ⟨[], s, trivial, rfl, ⟨hrep', hs, hlim'⟩, (List.append_nil _).symm⟩
    · obtain ⟨hb, hhist⟩ := hok c a s i hrep hs ha
      exact ⟨[_], s', ⟨hb, fun _ _ => trivial⟩, runSteps_cons.mpr ⟨s', hs', rfl⟩,
        ⟨hrep', hkeep s _ s' hs hb hs', hlim'⟩, hhist s' hs'⟩

theorem limits_fresh : ({} : FileStore).Limits := by
  exact ⟨nofun, by decide, by decide⟩

/-- The action is no kill. -/
def isAlive : FileAction → Bool
  | (.crash _ _, _) => false
  | _ => true

/-- The simulation for runs without kills. -/
theorem simulates_alive (hk : env.FiltersFit) :
    Simulates (fun c s => Rep env c s ∧ KVStore.Reached env s ∧ c.Limits) (step env Q)
      (fun c a => Fits env Q c a ∧ isAlive a) (ops env) (KVStore.step env) KVStore.FitsStep
      KVStore.history := by
  refine simulates_of hk (fun s hs => hs) (fun s b s' hs hb hstep => hs.step hb hstep)
    (fun c a ha => ha.1) (fun c batch n heights ha => by cases ha.2)
    (fun c a s i hrep hr ha => ?_)
  have hb : KVStore.FitsStep s (a.engine i (c.recordsKept env a))
      ∧ (a.engine i (c.recordsKept env a)).ops = ops env c a := by
    obtain ⟨a, heights⟩ := a
    cases a with
    | commit batch =>
      have hfit := of_decide_eq_true ha.1.1
      exact ⟨List.forall_mem_map.mpr hfit.1, userOps_restamp batch i⟩
    | crash batch n => cases ha.2
    | _ => exact ⟨trivial, rfl⟩
  exact ⟨hb.1, fun s' hs' => by rw [KVStore.history_step hr.pipeline hb.1.ne_crash hs', hb.2]⟩

/-- **Every run of the store in bytes is a run of the store**, of the same operations,
and at its end every read gives the same. Nothing faults: no step of the run, no read,
and no step that could come next. -/
theorem refines_store (hk : env.FiltersFit) {as : List FileAction}
    (hok : RunOk (faultless (step env Q)) (fun c a => Fits env Q c a ∧ isAlive a) {} as)
    (hrun : runSteps (faultless (step env Q)) {} as = some c) :
    ∃ bs s, RunOk (KVStore.step env) KVStore.FitsStep {} bs
      ∧ runSteps (KVStore.step env) {} bs = some s
      ∧ s.history = runOps env Q {} as ∧ (∀ k, c.get env k = .ok (s.get env k))
      ∧ ∀ a, Fits env Q c a → isAlive a → ∃ next, c.step env Q a = .ok next := by
  obtain ⟨bs, s, hbok, hbrun, ⟨hrep, hr, hlim⟩, hhist⟩ := (simulates_alive hk).run
    ⟨rep_fresh, KVStore.Reached.of_fresh, limits_fresh⟩ hok hrun
  exact ⟨bs, s, hbok, hbrun, hhist, fun k => hrep.get_eq hk k,
    fun a ha halive => (simulates_alive hk).noFault c a s ⟨hrep, hr, hlim⟩ ⟨ha, halive⟩⟩

theorem filtersFit_small : Env.FiltersFit .small := fun _ => show 1 < 2 ^ 32 by decide

theorem one_le_kMaxHeight : 1 ≤ 1 ∧ 1 ≤ kMaxHeight := by decide

/-- Nodes of the least height. -/
def flat : ℕ → Height := fun _ => ⟨1, one_le_kMaxHeight⟩

/-- Two values of a key are written and another log is opened; the collector scans the
first log, the memtable is handed off, the second value relocated along with a
client's put, and the log removed. -/
def relocatedBytes : List FileAction :=
  [.commit [{ key := [97], value := [1] }, { key := [97], value := [2] }],
    .commit [{ key := [98], value := [3] }], .gcStart, .gcScan, .gcScan, .gcScan, .maybeFlush,
    .commit [{ key := [98], value := [4] },
      { key := [97], value := [2], isGc := true, gcOldVlogId := 1 }], .gcFinish].map (·, flat)

theorem refines_store_relocatedBytes :
    let c := finalState (faultless (step .small .linear)) {} relocatedBytes
    c.vlogs.logs.keys = [2, 3] ∧ c.get .small [97] = .ok (some [2])
      ∧ ∃ bs s, runSteps (KVStore.step .small) {} bs = some s
        ∧ s.history = runOps .small .linear {} relocatedBytes
        ∧ ∀ k, c.get .small k = .ok (s.get .small k) := by
  have hok : RunOk (faultless (step .small .linear))
      (fun c a => Fits .small .linear c a ∧ isAlive a) {} relocatedBytes := by decide +kernel
  obtain ⟨bs, s, -, hbrun, hhist, hget, -⟩ := refines_store filtersFit_small hok
    (runSteps_eq_finalState (by decide +kernel))
  exact ⟨by decide +kernel, by decide +kernel, bs, s, hbrun, hhist, hget⟩

/-! ## Runs with kills -/

/-- A batch of clients' requests, synchronous ones, that fit their encoding. -/
def UserBatch (batch : List WriteRequest) : Prop :=
  ∀ r ∈ batch, r.isGc = false ∧ r.sync = true ∧ VLog.FitsRecord (r.key, r.value)

instance (batch : List WriteRequest) : Decidable (UserBatch batch) :=
  inferInstanceAs (Decidable (∀ r ∈ batch, _))

/-- How many memtables wait to be logged. -/
def waiting (c : FileStore) : ℕ :=
  match c.flushPhase with
  | .committed => c.flushQueue.tail.length
  | _ => c.flushQueue.length

/-- A kill of which a recovery can make something: the ids of the segments have at
most six digits. -/
def Recoverable (c : FileStore) (batch : List WriteRequest) : Prop :=
  UserBatch batch ∧ ∀ id ∈ c.wal.files.keys, id < 10 ^ 6

instance (batch : List WriteRequest) : Decidable (c.Recoverable batch) :=
  inferInstanceAs (Decidable (_ ∧ _))

/-- **The condition on the order of steps.** -/
def undisturbed (env : Env) (c : FileStore) : FileAction → Bool
  | (.commit batch, _) => decide (UserBatch batch)
  | (.crash batch n, _) => decide (c.Recoverable batch ∧ CleanCut env c batch n)
  | (.walRemove id, _) => decide (id + c.waiting < c.wal.current ∧ ∀ j ∈ c.wal.files.keys, id ≤ j)
  | (.compactStart, _) => decide (∀ source ∈ pickLevel env c.tree.vs.current, source.val = 0)
  | (.gcStart, _) | (.gcScan, _) | (.gcFinish, _) => false
  | _ => true

theorem restamp_of_user (h : UserBatch batch) (i : ℕ) : batch.map (restamp i) = batch := by
  refine (List.map_congr_left (fun r hr => ?_)).trans (List.map_id batch)
  unfold restamp
  rw [if_neg (by simp [(h r hr).1])]
  rfl

theorem UserBatch.fitting (h : UserBatch batch) :
    KVStore.FittingBatch batch := fun r hr _ => (h r hr).2

/-- The segments of the memtables that wait are the last ones retired. -/
theorem Rep.walId_pending (h : Rep env c s) {t : FlushTask} (ht : t ∈ s.pending) :
    s.wal.current ≤ t.walId + c.waiting := by
  have hlen : c.flushQueue.length = s.flushQueue.length := h.flushQueue.length_eq
  unfold KVStore.pending at ht
  unfold waiting
  rw [h.flushPhase]
  revert ht
  cases s.flushPhase <;> intro ht <;> obtain ⟨j, hj⟩ := List.mem_iff_getElem?.mp ht
  case committed =>
    rw [List.getElem?_tail] at hj
    have := h.walIds _ t hj
    dsimp only
    rw [List.length_tail]
    omega
  all_goals
    have := h.walIds j t hj
    dsimp only
    omega

/-- A kill of clients' requests. -/
theorem Rep.settled_crash (h : Rep env c s) (hs : KVStore.Sound env s)
    (hshort : KVStore.WalSuffix.ShortKeys batch) (hrec : c.Recoverable batch) (m : ℕ) :
    KVStore.Settled env s (.crash batch m) ∧ ∀ s', s.step env (.crash batch m) = some s' →
      s'.history = s.history ++ (userOps batch).take m := by
  have hkeys : c.wal.files.keys = s.wal.segments.keys := keys_eq_of_rel h.wal.files
  refine ⟨⟨⟨hrec.1.fitting, hshort, hkeys ▸ hrec.2⟩, nofun⟩, fun s' hs' => ?_⟩
  obtain ⟨d, hd⟩ := hs.durable
  obtain ⟨-, rfl⟩ := KVStore.step_crash_cases hs'
  show s.history ++ (userOps batch).take (_ - s.wal.buffer.length) = _
  rw [hd.cells.walBuffer]
  rfl

/-- **A step in order is settled**, and logs the operations of the action. -/
theorem Rep.settled (h : Rep env c s) (hs : KVStore.Sound env s) {a : FileAction}
    (hfits : writesFit env c a) (ha : undisturbed env c a) (i : ℕ) :
    KVStore.Settled env s (a.engine i (c.recordsKept env a)) ∧ ∀ s',
      s.step env (a.engine i (c.recordsKept env a)) = some s' →
        s'.history = s.history ++ ops env c a := by
  obtain ⟨d, hd⟩ := hs.durable
  have hlive : ∀ {b : EngineAction}, (∀ batch n, b ≠ .crash batch n) → b.ops = ops env c a →
      ∀ s', s.step env b = some s' → s'.history = s.history ++ ops env c a := by
    intro b hne hops s' hs'
    rw [KVStore.history_step hd.pipeline hne hs', hops]
  obtain ⟨a, heights⟩ := a
  cases a with
  | commit batch =>
    have hbatch : UserBatch batch := of_decide_eq_true ha
    dsimp only [FileAction.engine]
    rw [restamp_of_user hbatch]
    exact ⟨⟨⟨hbatch.fitting, (of_decide_eq_true hfits).2,
      freshRelocations_of_user (fun r hr => (hbatch r hr).1)⟩, nofun⟩, hlive nofun rfl⟩
  | crash batch n =>
    have hrec := (of_decide_eq_true ha).1
    dsimp only [FileAction.engine]
    rw [restamp_of_user hrec.1]
    exact h.settled_crash hs (of_decide_eq_true hfits).2.1 hrec _
  | walRemove id =>
    obtain ⟨hlt, hmin⟩ := of_decide_eq_true ha
    have hkeys : c.wal.files.keys = s.wal.segments.keys := keys_eq_of_rel h.wal.files
    refine ⟨⟨⟨fun t ht heq => ?_, hkeys ▸ hmin⟩, nofun⟩, hlive nofun rfl⟩
    have := h.walId_pending ht
    rw [h.wal.current] at hlt
    omega
  | compactStart =>
    refine ⟨⟨fun job hjob => ?_, nofun⟩, hlive nofun rfl⟩
    obtain ⟨source, hsource, hpick, rfl⟩ := Compaction.start_cases hjob
    have hzero := of_decide_eq_true ha source (h.tree.vs ▸ hpick)
    show source.val + 1 ≤ 1
    omega
  | gcStart | gcScan | gcFinish => cases ha
  | _ => exact ⟨⟨trivial, nofun⟩, hlive nofun rfl⟩

theorem reached_of_sound (h : KVStore.Sound env s) : KVStore.Reached env s := by
  obtain ⟨d, hd⟩ := h.durable
  exact ⟨hd.pipeline, hd.cells.toPointed⟩

/-- The simulation for runs in order. -/
theorem simulates_undisturbed (hk : env.FiltersFit) :
    Simulates (fun c s => Rep env c s ∧ KVStore.Sound env s ∧ c.Limits) (step env Q)
      (fun c a => Fits env Q c a ∧ undisturbed env c a) (ops env) (KVStore.step env)
      (KVStore.Settled env) KVStore.history :=
  simulates_of hk (fun _ hs => reached_of_sound hs) (fun _ _ _ hs hb hstep => hs.step hb hstep)
    (fun _ _ ha => ha.1) (fun _ _ _ _ ha => (of_decide_eq_true ha.2).2)
    (fun _ _ _ i hrep hs ha => hrep.settled hs ha.1.1 ha.2 i)

/-- **A store of bytes and nodes is a map.** In every run in order – of commits by any
number of clients, hand-offs, flushes, compactions, removals of segments, and kills
with the recoveries after them – a read of a key returns the value its last operation
wrote, if that is a put, and nothing faults. -/
theorem get_eq_value (hk : env.FiltersFit) {as : List FileAction}
    (hok : RunOk (faultless (step env Q)) (fun c a => Fits env Q c a ∧ undisturbed env c a) {} as)
    (hrun : runSteps (faultless (step env Q)) {} as = some c) (k : Key) :
    c.get env k = .ok ((runOps env Q {} as).value k) := by
  obtain ⟨bs, s, -, -, ⟨hrep, hs, -⟩, hhist⟩ := (simulates_undisturbed hk).run
    ⟨rep_fresh, KVStore.Sound.of_fresh, limits_fresh⟩ hok hrun
  rw [hrep.get_eq hk k, hs.get_eq k, hhist]
  rfl

/-- A table is flushed, one of its keys deleted, the tables are compacted and the first
segment removed; then the process is killed when one of two records has reached the
WAL. -/
def killedBytes : List FileAction :=
  [.commit [{ key := [97], value := [1] }, { key := [98], value := [2] }], .maybeFlush,
    .flushStart, .commit [{ key := [97], isDelete := true }], .flushCommit, .flushClear,
    .compactStart, .compactOutput, .compactOutput, .compactCommit, .purgeObsoleteFiles,
    .walRemove 1, .crash [{ key := [98], value := [3] }, { key := [99], value := [4] }] 25,
    .maybeFlush].map (·, flat)

theorem killedBytes_ok : RunOk (faultless (step .small .linear))
    (fun c a => Fits .small .linear c a ∧ undisturbed .small c a) {} killedBytes := by
  decide +kernel

theorem get_eq_value_killedBytes :
    let c := finalState (faultless (step .small .linear)) {} killedBytes
    (runOps .small .linear {} killedBytes).value [98] = some [3]
      ∧ c.get .small [97] = .ok ((runOps .small .linear {} killedBytes).value [97])
      ∧ c.get .small [98] = .ok ((runOps .small .linear {} killedBytes).value [98]) := by
  have hget := get_eq_value filtersFit_small killedBytes_ok
    (runSteps_eq_finalState (by decide +kernel))
  exact ⟨by decide +kernel, hget [97], hget [98]⟩

/-- **A store cut off anywhere.** After a run in order, the process is killed in the
commit of a batch when any number of bytes of its records have reached the WAL. The
store opens again, and a read of a key returns what its last operation wrote, among
those of the run and those of the batch whose records are whole. -/
theorem get_reopened (hk : env.FiltersFit) {as : List FileAction}
    (hok : RunOk (faultless (step env Q)) (fun c a => Fits env Q c a ∧ undisturbed env c a) {} as)
    (hrun : runSteps (faultless (step env Q)) {} as = some c) {batch : List WriteRequest} {n : ℕ}
    {heights : ℕ → Height} (hfit : writesFit env c (.crash batch n, heights))
    (hbatch : c.Recoverable batch) :
    ∃ c', c.step env Q (.crash batch n, heights) = .ok (some c') ∧ ∀ k, c'.get env k
      = .ok ((runOps env Q {} as ++ (userOps batch).take (c.survivors env batch n)).value k) := by
  obtain ⟨bs, s, -, -, ⟨hrep, hs, hlim⟩, hhist⟩ := (simulates_undisturbed hk).run
    ⟨rep_fresh, KVStore.Sound.of_fresh, limits_fresh⟩ hok hrun
  have hen : c.gcEnabled batch = true := by
    unfold FileStore.gcEnabled
    rw [List.filter_eq_nil_iff.mpr (fun r hr => by simp [(hbatch.1 r hr).1])]
  obtain ⟨i, c', s', hstep, hs', hreads, -⟩ := hrep.crash hk (reached_of_sound hs) hlim hfit hen
  rw [restamp_of_user hbatch.1] at hs'
  -- the store reopened is one that a settled kill leads to
  obtain ⟨hsettled, hhist'⟩ := hrep.settled_crash hs (of_decide_eq_true hfit).2.1 hbatch
    (c.survivors env batch n)
  refine ⟨c', hstep, fun k => ?_⟩
  rw [hreads.get_eq hk k, (hs.step hsettled hs').get_eq k, hhist' s' hs', hhist]
  rfl

/-- The second record of the batch is cut. -/
theorem get_reopened_killedBytes :
    let c := finalState (faultless (step .small .linear)) {} killedBytes
    let batch : List WriteRequest :=
      [{ key := [99], value := [5] }, { key := [98], isDelete := true }]
    c.survivors .small batch 40 = 1
      ∧ ∃ c', c.step .small .linear (.crash batch 40, flat) = .ok (some c')
        ∧ ∀ k, c'.get .small k = .ok ((runOps .small .linear {} killedBytes
          ++ (userOps batch).take (c.survivors .small batch 40)).value k) := by
  exact ⟨by decide +kernel, get_reopened filtersFit_small killedBytes_ok
    (runSteps_eq_finalState (by decide +kernel)) (by decide +kernel) (by decide +kernel)⟩

end FileStore
