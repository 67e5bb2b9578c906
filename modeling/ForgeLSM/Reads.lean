import ForgeLSM.Overlap
import ForgeLSM.Visible

/-!
# The store refines a map

The runs of the engine in which every read returns what the history of the
clients' operations says.

For one client that puts and deletes, with memtables handed off and flushed
and tables compacted at any points in between, this is every run: the store
refines a map. With the garbage collector at work, and any number of clients
whose requests share batches, it is the runs whose relocations are fresh. The
commit's own check is not enough for that. It looks at the active memtable
only, as it is before the batch, and compares the file id it finds there with
the id of the log being collected – but a delete's file id is the id of a WAL
segment. A deleted key can so come back (`get_deletedKeyBack`).

Where clients overlap, a leader hands off the memtable outside the commit lock. The runs
are then those in which a hand-off that falls inside a commit might as well come before
or after it (`LeaderOk`).
-/

namespace KVStore

variable {env : Env} {s s' : KVStore} {a : EngineAction}

/-- A step without a kill adds to the history what it commits. -/
theorem history_step (hp : Pipeline env s) (ha : ∀ b n, a ≠ .crash b n)
    (hs : s.step env a = some s') : s'.history = s.history ++ a.ops := by
  by_cases hb : a.Background
  · have hnil : a.ops = [] := by
      cases a with
      | commit batch => exact hb.elim
      | _ => rfl
    rw [(hp.background hb hs).2.2, hnil, List.append_nil]
  · cases a with
    | commit batch =>
      obtain ⟨-, rfl⟩ := step_commit_cases hs
      rfl
    | crash batch n => exact absurd rfl (ha batch n)
    | _ => exact absurd trivial hb

/-- **The condition on a step**: the clients' requests are synchronous and fit
their encoding, and a relocation that is not ignored stands for the last
operation on its key. The process is not killed. -/
def FreshStep (s : KVStore) : EngineAction → Prop
  | .commit batch => FittingBatch batch ∧ FreshRelocations s.active s.history batch
  | .crash _ _ => False
  | _ => True

instance (s : KVStore) (a : EngineAction) : Decidable (FreshStep s a) := by
  apply EngineAction.casesOn (motive := fun a => Decidable (FreshStep s a)) a <;> intros <;>
    unfold FreshStep <;> infer_instance

/-- **A step that meets the condition keeps reads right.** -/
theorem Visible.step (h : Visible env s) (ha : FreshStep s a) (hs : s.step env a = some s') :
    Visible env s' := by
  by_cases hb : a.Background
  · have hfit : Fitting a := by
      cases a with
      | commit batch | crash batch n => exact hb.elim
      | _ => trivial
    have hcells := h.cells.step (fun _ => h.pipeline) hfit hs
    obtain ⟨hp, hl, -⟩ := h.pipeline.background hb hs
    by_cases hgc : a.Collecting
    · cases a with
      | gcStart => exact h.gcStart hs
      | gcScan => exact h.gcScan hs
      | gcFinish => exact h.gcFinish hs
      | _ => exact hgc.elim
    · obtain ⟨hv, hg, hh, hact⟩ := background_frame hb hgc hs
      exact h.frame hp hcells hl hh hv hg hact
  · cases a with
    | commit batch =>
      obtain ⟨hen, rfl⟩ := step_commit_cases hs
      exact h.commit hen ha.1 ha.2
    | crash batch n => exact ha.elim
    | _ => exact absurd trivial hb

/-- **Every run of such steps** keeps reads right, and its history is the
operations its commits carry. -/
theorem Visible.run {as : List EngineAction} (h : Visible env s)
    (hok : RunOk (KVStore.step env) FreshStep s as)
    (hrun : runSteps (KVStore.step env) s as = some s') :
    Visible env s' ∧ s'.history = s.history ++ clientOps as := by
  refine log_of_runOk (fun t a t' ht ha hstep => ⟨ht.step ha hstep, ?_⟩) h hok hrun
  refine history_step ht.pipeline ?_ hstep
  rintro b n rfl
  exact ha

/-! ## One client -/

/-- A step of a store with one client: a synchronous put or delete that fits
its encoding, or background work other than garbage collection. -/
def ClientStep (_ : KVStore) : EngineAction → Prop
  | .commit [r] => r.isGc = false ∧ r.sync = true ∧ VLog.FitsRecord (r.key, r.value)
  | .commit _ | .crash _ _ | .gcStart | .gcScan | .gcFinish => False
  | _ => True

instance (s : KVStore) (a : EngineAction) : Decidable (ClientStep s a) := by
  apply EngineAction.casesOn (motive := fun a => Decidable (ClientStep s a)) a
  case commit => exact fun
    | [] | _ :: _ :: _ => instDecidableFalse
    | [_] => inferInstanceAs (Decidable (_ ∧ _))
  all_goals intros; unfold ClientStep; infer_instance

theorem ClientStep.fresh (h : ClientStep s a) : FreshStep s a := by
  cases a with
  | commit batch =>
    match batch, h with
    | [r], ⟨hg, hs, hf⟩ =>
      refine ⟨fun q hq _ => ?_, freshRelocations_of_user (fun q hq => ?_)⟩
      all_goals obtain rfl := List.mem_singleton.mp hq
      · exact ⟨hs, hf⟩
      · exact hg
  | crash batch n => exact h
  | _ => trivial

/-- **The store refines a map.** After any sequence of synchronous puts and
deletes of one client, with memtables handed off, flushed and compacted at
any points in between, a read returns the value of the last put of its key,
and nothing when the key was never written or last deleted. -/
theorem get_eq_value_of_client {as : List EngineAction}
    (hok : RunOk (KVStore.step env) ClientStep {} as)
    (hrun : runSteps (KVStore.step env) {} as = some s) (k : Key) :
    s.get env k = (clientOps as).value k := by
  obtain ⟨hv, hh⟩ := Visible.of_fresh.run (hok.imp (fun _ _ => ClientStep.fresh)) hrun
  rw [hv.get_eq k, hh]
  rfl

/-- Two keys are written, flushed and compacted, one of them is deleted and
the other overwritten. -/
def clientRun : List EngineAction :=
  [.commit [{ key := [97], value := [1] }], .commit [{ key := [98], value := [2] }],
    .maybeFlush, .flushStart, .commit [{ key := [97], isDelete := true }],
    .flushCommit, .flushClear, .compactStart, .compactOutput, .maybeFlush, .compactOutput,
    .compactCommit, .purgeObsoleteFiles, .commit [{ key := [98], value := [3] }]]

theorem get_eq_value_of_client_clientRun :
    RunOk (KVStore.step .small) ClientStep {} clientRun
      ∧ (clientOps clientRun).value [97] = none ∧ (clientOps clientRun).value [98] = some [3]
      ∧ (finalState (KVStore.step .small) {} clientRun).get .small [97]
        = (clientOps clientRun).value [97]
      ∧ (finalState (KVStore.step .small) {} clientRun).get .small [98]
        = (clientOps clientRun).value [98] :=
  have hok : RunOk (KVStore.step .small) ClientStep {} clientRun := by decide +kernel
  have hrun : runSteps (KVStore.step .small) {} clientRun
      = some (finalState (KVStore.step .small) {} clientRun) :=
    runSteps_eq_finalState (by decide +kernel)
  ⟨hok, by decide, by decide, get_eq_value_of_client hok hrun [97],
    get_eq_value_of_client hok hrun [98]⟩

/-! ## Garbage collection -/

/-- A key is written twice in one log, another log is opened, and the
collector scans the first. -/
def untilRelocation : List EngineAction :=
  [.commit [{ key := [97], value := [1] }, { key := [97], value := [2] }],
    .commit [{ key := [98], value := [3] }], .gcStart, .gcScan, .gcScan, .gcScan]

/-- The relocation of the second value. -/
def relocation : WriteRequest :=
  { key := [97], value := [2], isGc := true, gcOldVlogId := 1, gcStamp := 2 }

/-- The value is relocated along with a client's put of another key, the
memtable handed off when the put has its pointer, and the log removed. -/
def relocationRun : List LeaderAction :=
  untilRelocation.map .engine
    ++ [.commitAround [{ key := [98], value := [4] }, relocation] (.placing 1), .engine .gcFinish]

/-- The key is deleted between the scan and the relocation. -/
def deletedKeyBack : List EngineAction :=
  untilRelocation ++ [.commit [{ key := [97], isDelete := true }], .commit [relocation], .gcFinish]

end KVStore
