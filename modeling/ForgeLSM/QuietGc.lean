import ForgeLSM.Covered
import ForgeLSM.Buffered

/-!
# Collecting garbage while nothing else is written

`DB::ForceGC` has the active value log synced and runs `run_vlog_gc` in the
client's own thread. Nothing else is written meanwhile, but the relocations go
through the write path like any request: they can rotate the value log and hand
off the memtable, and flushes and compactions go on.

Such a run changes no read (`get_eq_of_quietGc`). What a read returns depends
on two things of the cell it finds: which operation it stands for, and whether
its log is there (`KVStore.found`). A relocation keeps the first, and gives the
key a log that is there; and the log removed is one no read leads to. From then
on none ever does (`Abandoned`): what is committed later goes to newer logs,
and flushes and compactions change no read. Entries further down, which no read
finds, may lead there all the same.

The store may have got where it is in any way short of a kill, with any sync
flags and with relocations of an earlier collection that were not fresh.
-/

/-- `KVStore::sync_active_vlog`. -/
def KVStore.syncActiveVlog (s : KVStore) : KVStore := { s with vlogs := s.vlogs.sync }

/-- What can happen to a store whose client may also ask for a sync. -/
inductive ForceAction where
  | engine (a : EngineAction)
  | syncActiveVlog
  deriving DecidableEq

namespace KVStore

variable {env : Env} {s s' s₀ t : KVStore}

/-- One step of the engine, or a sync. -/
def forceStep (env : Env) (s : KVStore) : ForceAction → Option KVStore
  | .engine a => s.step env a
  | .syncActiveVlog => some s.syncActiveVlog

/-- The process is not killed, and the records fit. -/
def ForceOk (s : KVStore) : ForceAction → Prop
  | .engine a => FitsStep s a
  | .syncActiveVlog => True

instance (s : KVStore) (a : ForceAction) : Decidable (ForceOk s a) := by
  cases a <;> unfold ForceOk <;> infer_instance

/-! ## What a read depends on -/

/-- **What a read finds**: the stamp of the cell, and whether the log it leads
to is there. -/
def found (env : Env) (s : KVStore) (k : Key) : Option (ℕ × Bool) :=
  (live (s.lookup env k)).map (fun c => (c.stamp, (s.vlogs.logs.get c.ptr.fileId).isSome))

theorem found_of_live {k : Key} {c : Cell} (hc : live (s.lookup env k) = some c) :
    s.found env k = some (c.stamp, (s.vlogs.logs.get c.ptr.fileId).isSome) := by
  rw [found, hc]
  rfl

/-- **A read returns the value of the operation found**, if its log is there.
All the logs are on disk. -/
theorem get_eq_of_found (h : Pointed s) (hp : Pipeline env s) (hsync : s.vlogs.Synced) (k : Key) :
    s.get env k = (s.found env k).bind (fun f =>
      if f.2 then (s.history.opAt f.1).bind Op.value else none) := by
  cases hc : live (s.lookup env k) with
  | none =>
    rw [KVStore.get, Vlogs.readCell, found, hc]
    rfl
  | some c =>
    rw [found_of_live hc, KVStore.get, Vlogs.readCell, hc, Option.bind_some, Option.bind_some]
    cases hlog : s.vlogs.logs.get c.ptr.fileId with
    | none => rfl
    | some log =>
      obtain ⟨hlook, htomb⟩ := live_eq_some.mp hc
      obtain ⟨v, hop, -, -, hrec⟩ := (h.cells.lookup hp hlook).put htomb
      have hfile : log.content = log.file := by
        rw [VLog.content, hsync _ log hlog, List.append_nil]
      rw [Option.bind_some, VLogPointer.Holds.readAt (hfile ▸ (hrec log hlog).holds), hop]
      rfl

/-! ## A log no read leads to -/

/-- **No read leads to a log**, which is one no longer appended to. -/
structure Abandoned (env : Env) (s : KVStore) (id : ℕ) : Prop where
  lt : id < s.vlogs.current
  ne : ∀ k c, live (s.lookup env k) = some c → c.ptr.fileId ≠ id

/-- **Nothing but a kill leads a read there again.** -/
theorem Abandoned.step {id : ℕ} {a : EngineAction} (h : Abandoned env s id) (hpt : Pointed s)
    (hp : Pipeline env s) (ha : FitsStep s a) (hs : s.step env a = some s') :
    Abandoned env s' id := by
  by_cases hb : a.Background
  · obtain ⟨-, hl, -⟩ := hp.background hb hs
    have hcur : s'.vlogs.current = s.vlogs.current := by
      by_cases hgc : a.Collecting
      · cases a with
        | gcStart =>
          obtain ⟨-, rfl⟩ := gcStart_cases hs
          rfl
        | gcScan =>
          obtain ⟨_, -, -, ⟨_, _, _, -, -, ⟨_, -, rfl⟩ | ⟨-, rfl⟩⟩ | rfl | ⟨-, rfl⟩⟩ :=
            gcScan_cases hs
          all_goals rfl
        | gcFinish =>
          obtain ⟨_, -, -, -, rfl⟩ := gcFinish_cases hs
          rfl
        | _ => exact hgc.elim
      · rw [(background_frame hb hgc hs).1]
    refine ⟨hcur ▸ h.lt, fun k c hc => ?_⟩
    rw [hl] at hc
    exact h.ne k c hc
  · cases a with
    | commit batch =>
      obtain ⟨hen, rfl⟩ := step_commit_cases hs
      obtain ⟨-, -, happ⟩ := commit_vlogs_appends env hpt.vlogs (hpt.fits hen ha)
      refine ⟨lt_of_lt_of_le h.lt happ.current_le, fun k c hc => ?_⟩
      rcases lookup_commit s batch (s.gcAfter batch) k with ⟨e, he, rfl, hget⟩ | ⟨-, hlook⟩
      · rw [lookup_of_active hget] at hc
        obtain ⟨heq, htomb⟩ := live_eq_some.mp hc
        cases heq
        have hle := (((plan_spec env hpt.vlogs (hpt.fits hen ha)).2.2 e he).1 htomb).1
        exact Nat.ne_of_gt (lt_of_lt_of_le h.lt hle)
      · rw [hlook] at hc
        exact h.ne k c hc
    | crash batch n => exact ha.elim
    | _ => exact absurd trivial hb

/-! ## How the store got where it is -/

/-- A sync moves bytes from a buffer to its file. -/
theorem Pointed.syncActiveVlog (h : Pointed s) : Pointed s.syncActiveVlog := by
  have happ := h.vlogs.appends_sync
  have hcells : EveryCell (CellOk s.history s.vlogs.sync) s := h.cells.mono (fun k c hc => by
    have := hc.grows happ.toGrows []
    rwa [List.append_nil] at this)
  exact ⟨h.vlogs.sync, ⟨hcells.active, hcells.queue, hcells.lsm⟩,
    fun job hjob => h.gcTarget_appends happ hjob, h.gcLive⟩

namespace Reached

theorem forceStep {a : ForceAction} (h : Reached env s) (ha : ForceOk s a)
    (hs : s.forceStep env a = some s') : Reached env s' := by
  cases a with
  | engine a => exact h.step ha hs
  | syncActiveVlog =>
    cases hs
    exact ⟨h.pipeline.frame rfl rfl rfl rfl rfl, h.pointed.syncActiveVlog⟩

/-- A log no read leads to stays so in every run. -/
theorem abandoned_run {id : ℕ} {as : List ForceAction} (h : Reached env s)
    (ha : Abandoned env s id) (hok : RunOk (KVStore.forceStep env) ForceOk s as)
    (hrun : runSteps (KVStore.forceStep env) s as = some s') : Abandoned env s' id := by
  have hinv : Reached env s' ∧ Abandoned env s' id := by
    refine invariant_of_runOk (fun u a v (hu : Reached env u ∧ Abandoned env u id) hok hs =>
      ⟨hu.1.forceStep hok hs, ?_⟩) ⟨h, ha⟩ hok hrun
    cases a with
    | engine a => exact hu.2.step hu.1.pointed hu.1.pipeline hok hs
    | syncActiveVlog =>
      cases hs
      exact ⟨hu.2.lt, hu.2.ne⟩
  exact hinv.2

end Reached

/-! ## The collection -/

/-- A step of a run of the collector with nothing else written: its own steps
and requests, and the background's. -/
def QuietStep (_ : KVStore) : EngineAction → Prop
  | .commit batch => batch ≠ [] ∧ ∀ r ∈ batch, r.isGc = true
  | .crash _ _ | .gcStart => False
  | _ => True

instance (s : KVStore) (a : EngineAction) : Decidable (QuietStep s a) := by
  apply EngineAction.casesOn (motive := fun a => Decidable (QuietStep s a)) a <;> intros <;>
    unfold QuietStep <;> infer_instance

theorem QuietStep.fits {a : EngineAction} (h : QuietStep s a) : FitsStep s a := by
  cases a with
  | commit batch =>
    intro r hr hg
    rw [h.2 r hr] at hg
    cases hg
  | crash batch n => exact h.elim
  | _ => trivial

/-- **A collection under way**, since it began in the store `s₀`. -/
structure Quiet (env : Env) (s₀ s : KVStore) : Prop extends Reached env s where
  synced : s.vlogs.Synced
  history : s.history = s₀.history
  covered : Covered env s
  /-- Every read finds what it found. -/
  kept : ∀ k, s.found env k = s₀.found env k
  /-- The records still to be relocated are what a read of their keys finds. -/
  pending : ∀ job ∈ s.gc, ∀ r ∈ job.live, s.found env r.key = some (r.stamp, true)
  /-- The log that is collected is there, or no read leads to it. -/
  target : ∀ id, s₀.gcTarget = some id →
    (∃ job, s.gc = some job ∧ job.target = id)
      ∨ s.gc = none ∧ (∃ log, s.vlogs.logs.get id = some log) ∨ Abandoned env s id

namespace Quiet

/-- The log that is collected, after a step: the collector stays at it or is
done with it, and a log no read leads to stays so. -/
theorem target_step (h : Quiet env s₀ s) {a : EngineAction} (ha : QuietStep s a)
    (hs : s.step env a = some s')
    (hjob : ∀ job, s.gc = some job → (∃ job', s'.gc = some job' ∧ job'.target = job.target)
      ∨ s'.gc = none ∧ (∃ log, s'.vlogs.logs.get job.target = some log)
      ∨ Abandoned env s' job.target)
    (hnone : s.gc = none → s'.gc = none ∧ ∀ id log, s.vlogs.logs.get id = some log →
      ∃ log', s'.vlogs.logs.get id = some log') :
    ∀ id, s₀.gcTarget = some id → (∃ job, s'.gc = some job ∧ job.target = id)
      ∨ s'.gc = none ∧ (∃ log, s'.vlogs.logs.get id = some log) ∨ Abandoned env s' id := by
  intro id hid
  rcases h.target id hid with ⟨job, hgc, rfl⟩ | ⟨hgc, log, hlog⟩ | habandoned
  · exact hjob job hgc
  · exact Or.inr (Or.inl ⟨(hnone hgc).1, (hnone hgc).2 id log hlog⟩)
  · exact Or.inr (Or.inr (habandoned.step h.pointed h.pipeline ha.fits hs))

/-- At the start of the collection. -/
theorem of_gcStart (h : Reached env s₀) (hsync : s₀.vlogs.Synced) (hs : s₀.gcStart = some s) :
    Quiet env s₀ s := by
  have hr : Reached env s := h.step (a := .gcStart) trivial hs
  have hcov : Covered env s := .gcStart h.pointed h.pipeline hs
  obtain ⟨-, rfl⟩ := gcStart_cases hs
  refine
    { toReached := hr
      synced := hsync
      history := rfl
      covered := hcov
      kept := fun _ => rfl
      pending := fun job hjob r hrec => ?_
      target := fun id hid => Or.inl ⟨{ target := id }, ?_, rfl⟩ }
  · obtain ⟨id, -, rfl⟩ := Option.map_eq_some_iff.mp hjob
    cases hrec
  · show s₀.gcTarget.map _ = _
    rw [hid]
    rfl

section

variable (h : Quiet env s₀ s)
include h

/-- **Background work that is not the collector's** leaves reads, logs and
collector alone. -/
theorem background {a : EngineAction} (ha : QuietStep s a) (hb : a.Background)
    (hgc : ¬ a.Collecting) (hs : s.step env a = some s') : Quiet env s₀ s' := by
  obtain ⟨-, hl, hh⟩ := h.pipeline.background hb hs
  obtain ⟨hv, hg, -, -⟩ := background_frame hb hgc hs
  have hfound : ∀ k, s'.found env k = s.found env k := by
    intro k
    rw [found, found, hl, hv]
  refine
    { toReached := h.toReached.step ha.fits hs
      synced := hv ▸ h.synced
      history := hh.trans h.history
      covered := h.covered.frame hl hg
      kept := fun k => (hfound k).trans (h.kept k)
      pending := fun job hjob r hrec => ?_
      target := h.target_step ha hs (fun job hjob => Or.inl ⟨job, hg.trans hjob, rfl⟩)
        (fun hnone => ⟨hg.trans hnone, fun id log hlog => ⟨log, by rw [hv]; exact hlog⟩⟩) }
  rw [hg] at hjob
  rw [hfound]
  exact h.pending job hjob r hrec

/-- **A round of the scan**: the record it takes in is what a read of its key
finds. -/
theorem gcScan (hs : s.gcScan env = some s') : Quiet env s₀ s' := by
  have hr : Reached env s' := h.toReached.step (a := .gcScan) trivial hs
  have hcov := h.covered.gcScan h.pointed h.pipeline hs
  have htarget := h.target_step (a := .gcScan) trivial hs
  obtain ⟨job, hjob, -, hcase⟩ := gcScan_cases hs
  obtain ⟨-, log, -, -, hlog, -⟩ := h.pointed.gcTarget job hjob
  have hsome : ∀ {P : Prop}, s.gc = none → P := fun hnone => by
    rw [hjob] at hnone
    cases hnone
  rcases hcase with ⟨log', r, next, -, -, ⟨c, hc, rfl⟩ | ⟨-, rfl⟩⟩ | rfl | ⟨-, rfl⟩
  · refine ⟨hr, h.synced, h.history, hcov, h.kept, fun job' hjob' q hq => ?_,
      htarget (fun job₁ hjob₁ => Or.inl ⟨_, rfl, ?_⟩) hsome⟩
    · cases hjob'
      rcases List.mem_append.mp hq with hq | hq
      · exact h.pending job hjob q hq
      · obtain rfl := List.mem_singleton.mp hq
        obtain ⟨hlive, hat⟩ := Option.filter_eq_some_iff.mp hc
        obtain ⟨hid, -⟩ := of_decide_eq_true hat
        show s.found env r.1 = some (c.stamp, true)
        rw [found_of_live hlive, hid, hlog]
        rfl
    · rw [hjob] at hjob₁
      rw [Option.some.inj hjob₁]
  · refine ⟨hr, h.synced, h.history, hcov, h.kept, fun job' hjob' q hq => ?_,
      htarget (fun job₁ hjob₁ => Or.inl ⟨_, rfl, ?_⟩) hsome⟩
    · cases hjob'
      exact h.pending job hjob q hq
    · rw [hjob] at hjob₁
      rw [Option.some.inj hjob₁]
  · -- the collector gives up, and its log stays
    refine ⟨hr, h.synced, h.history, hcov, h.kept, fun job' hjob' => ?_,
      htarget (fun job₁ hjob₁ => Or.inr (Or.inl ⟨rfl, log, ?_⟩)) hsome⟩
    · cases hjob'
    · rw [hjob] at hjob₁
      rw [← Option.some.inj hjob₁]
      exact hlog
  · refine ⟨hr, h.synced, h.history, hcov, h.kept, fun job' hjob' q hq => ?_,
      htarget (fun job₁ hjob₁ => Or.inl ⟨_, rfl, ?_⟩) hsome⟩
    · cases hjob'
      exact h.pending job hjob q hq
    · rw [hjob] at hjob₁
      rw [Option.some.inj hjob₁]

/-- **The log removed is one no read leads to.** -/
theorem gcFinish (hs : s.gcFinish = some s') : Quiet env s₀ s' := by
  have hr : Reached env s' := h.toReached.step (a := .gcFinish) trivial hs
  have htarget := h.target_step (a := .gcFinish) trivial hs
  obtain ⟨job, hjob, hscan, hlive, rfl⟩ := gcFinish_cases hs
  have hne : ∀ k c, live (s.lookup env k) = some c → c.ptr.fileId ≠ job.target :=
    fun k c hc => h.covered.ne_target hjob hscan hlive hc
  refine
    { toReached := hr
      synced := fun id log hlog => ?_
      history := h.history
      covered := fun job' hjob' => by cases hjob'
      kept := fun k => ?_
      pending := fun job' hjob' => by cases hjob'
      target := htarget (fun job₁ hjob₁ => ?_) (fun hnone => ?_) }
  · exact h.synced id log (OrdMap.get_erase_cases hlog).2
  · rw [← h.kept k]
    show (live (s.lookup env k)).map (fun c =>
      (c.stamp, ((s.vlogs.logs.erase job.target).get c.ptr.fileId).isSome)) = s.found env k
    cases hc : live (s.lookup env k) with
    | none =>
      rw [found, hc]
      rfl
    | some c =>
      rw [found_of_live hc, Option.map_some, OrdMap.get_erase, if_neg (hne k c hc)]
  · rw [hjob] at hjob₁
    cases hjob₁
    exact Or.inr (Or.inr ⟨(h.pointed.gcTarget job hjob).1, hne⟩)
  · rw [hjob] at hnone
    cases hnone

/-- **What a read finds after a relocation is what it found**: the key
relocated has a new pointer to the same operation, in a log that is there. -/
theorem found_commit {batch : List WriteRequest} (ha : ∀ r ∈ batch, r.isGc = true)
    (hen : s.gcEnabled batch = true) (gc : Option GcJob) (k : Key) :
    ({ s.commit env batch with gc := gc } : KVStore).found env k = s.found env k := by
  have hfit : RecordsFit batch := fun r hr hg => by
    rw [ha r hr] at hg
    cases hg
  obtain ⟨-, hplan, happ⟩ := commit_vlogs_appends env h.pointed.vlogs (h.pointed.fits hen hfit)
  rcases lookup_commit s batch gc k with ⟨e, he, rfl, hget⟩ | ⟨-, hlook⟩
  · have hreq := Vlogs.req_mem_of_mem_placeAll he
    obtain ⟨job, rec, rest, hjob, -, hlive, hrec⟩ :=
      gcPending_cases (gcPending_of_mem hen hreq (ha _ hreq))
    have hstamp : e.stamp = rec.stamp := by
      rw [Vlogs.stamp_of_isGc he (ha _ hreq), hrec]
      rfl
    have hkey : e.req.key = rec.key := by
      rw [hrec]
      rfl
    -- a relocation is of a put
    have htomb : e.ptr.isTombstone = false := by
      obtain ⟨op, hop, -, hptr⟩ := h.pointed.cellOk_commit hen hfit he
      have hput := (h.pointed.gcLive job hjob rec (by rw [hlive]; exact List.mem_cons_self)).2
      have hop' : (s.history ++ userOps batch).opAt e.stamp = some op := hop
      rw [hstamp, History.opAt_append_left (History.le_length_of_opAt hput), hput] at hop'
      cases hop'
      exact hptr.1
    obtain ⟨log, hlog⟩ :=
      (((plan_spec env h.pointed.vlogs (h.pointed.fits hen hfit)).2.2 e he).1.appends hplan htomb).2
    have hfound : live (({ s.commit env batch with gc := gc } : KVStore).lookup env e.req.key)
        = some ⟨e.ptr, e.stamp⟩ := by
      rw [lookup_of_active hget]
      exact live_eq_some.mpr ⟨rfl, htomb⟩
    rw [found_of_live hfound, hkey,
      h.pending job hjob rec (by rw [hlive]; exact List.mem_cons_self)]
    show some (e.stamp, ((s.commit env batch).vlogs.logs.get e.ptr.fileId).isSome) = _
    rw [hlog, hstamp]
    rfl
  · -- the logs that were there are there still, and no other
    rw [found, found, hlook]
    cases hc : live (s.lookup env k) with
    | none => rfl
    | some c =>
      have hle : c.ptr.fileId ≤ s.vlogs.current := by
        obtain ⟨hlookup, htomb⟩ := live_eq_some.mp hc
        exact ((h.pointed.cells.lookup h.pipeline hlookup).put htomb).choose_spec.2.2.1
      have hsome : ((s.commit env batch).vlogs.logs.get c.ptr.fileId).isSome
          = (s.vlogs.logs.get c.ptr.fileId).isSome := by
        rw [Bool.eq_iff_iff, Option.isSome_iff_exists, Option.isSome_iff_exists]
        constructor
        · rintro ⟨log, hlog⟩
          obtain ⟨old, -, hold, -⟩ := happ.kept _ log hle hlog
          exact ⟨old, hold⟩
        · rintro ⟨log, hlog⟩
          exact happ.mem _ log hlog
      show some (c.stamp, ((s.commit env batch).vlogs.logs.get c.ptr.fileId).isSome) = _
      rw [hsome]
      rfl

theorem commit {batch : List WriteRequest} (ha : QuietStep s (.commit batch))
    (hs : s.step env (.commit batch) = some s') : Quiet env s₀ s' := by
  have hr : Reached env s' := h.toReached.step ha.fits hs
  have htarget := h.target_step ha hs
  obtain ⟨hen, rfl⟩ := step_commit_cases hs
  have hfit : RecordsFit batch := ha.fits
  obtain ⟨-, -, happ⟩ := commit_vlogs_appends env h.pointed.vlogs (h.pointed.fits hen hfit)
  have hfound := h.found_commit ha.2 hen (s.gcAfter batch)
  obtain ⟨r, hr'⟩ := List.exists_mem_of_ne_nil batch ha.1
  have hsync : batch.any WriteRequest.sync = true :=
    List.any_eq_true.mpr ⟨r, hr', (h.pointed.relocates hen hr' (ha.2 r hr')).2.1⟩
  have hops : userOps batch = [] := by
    unfold userOps
    rw [List.filter_eq_nil_iff.mpr (fun q hq => by simp [ha.2 q hq])]
    rfl
  have hany : batch.any WriteRequest.isGc = true := List.any_eq_true.mpr ⟨r, hr', ha.2 r hr'⟩
  refine
    { toReached := hr
      synced := synced_commit env h.pointed.vlogs (h.pointed.fits hen hfit) hsync
      history := ?_
      covered := h.covered.commit h.pointed hen hfit
      kept := fun k => (hfound k).trans (h.kept k)
      pending := fun job hjob q hq => ?_
      target := htarget (fun job hjob => Or.inl ⟨{ job with live := job.live.tail }, ?_, rfl⟩)
        (fun hnone => ⟨?_, happ.mem⟩) }
  · show s.history ++ userOps batch = _
    rw [hops, List.append_nil]
    exact h.history
  · obtain ⟨job₀, hjob₀, -, -, -, hlive, -⟩ := gcAfter_cases hen hjob
    rw [hfound]
    exact h.pending job₀ hjob₀ q (hlive q hq)
  · show s.gcAfter batch = _
    rw [gcAfter, if_pos hany, hjob]
    rfl
  · show s.gcAfter batch = none
    rw [gcAfter, if_pos hany, hnone]
    rfl

/-- **Every step of a quiet collection** keeps what reads find. -/
theorem step {a : EngineAction} (ha : QuietStep s a) (hs : s.step env a = some s') :
    Quiet env s₀ s' := by
  have hback : a.Background → ¬ a.Collecting → Quiet env s₀ s' := fun hb hgc =>
    h.background ha hb hgc hs
  cases a with
  | commit batch => exact h.commit ha hs
  | crash batch n => exact ha.elim
  | gcStart => exact ha.elim
  | gcScan => exact h.gcScan hs
  | gcFinish => exact h.gcFinish hs
  | _ => exact hback trivial id

end

end Quiet

/-- **Collecting garbage with nothing else written changes no read.** Take any
state a store can get to without a kill, with the value logs on disk and no
collection under way; let `run_vlog_gc` run, its relocations going through the
write path, with memtables handed off, flushed and compacted at any points. At
every point of the run, and so at its end, every read returns what it returned
before. If the log that was collected is gone, no read leads to it, then or
after any steps that follow. -/
theorem get_eq_of_quietGc {as : List ForceAction}
    (hok : RunOk (KVStore.forceStep env) ForceOk {} as)
    (hrun : runSteps (KVStore.forceStep env) {} as = some s) (hsync : s.vlogs.Synced)
    (hstart : s.gcStart = some s') {bs : List EngineAction}
    (hquiet : RunOk (KVStore.step env) QuietStep s' bs)
    (hgc : runSteps (KVStore.step env) s' bs = some t) :
    (∀ k, t.get env k = s.get env k)
      ∧ ∀ id, s.gcTarget = some id → t.vlogs.logs.get id = none →
        ∀ cs u, RunOk (KVStore.forceStep env) ForceOk t cs →
          runSteps (KVStore.forceStep env) t cs = some u →
          ∀ k c, live (u.lookup env k) = some c → c.ptr.fileId ≠ id := by
  have hreached : Reached env s :=
    invariant_of_runOk (fun _ _ _ hu hok hs => Reached.forceStep hu hok hs) .of_fresh hok hrun
  have h : Quiet env s t := invariant_of_runOk (fun _ _ _ hu ha hs => Quiet.step hu ha hs)
    (Quiet.of_gcStart hreached hsync hstart) hquiet hgc
  refine ⟨fun k => ?_, fun id hid hgone cs u hcs hu => ?_⟩
  · rw [get_eq_of_found h.pointed h.pipeline h.synced,
      get_eq_of_found hreached.pointed hreached.pipeline hsync, h.kept k, h.history]
  · rcases h.target id hid with ⟨job, hjob, rfl⟩ | ⟨-, log, hlog⟩ | habandoned
    · obtain ⟨-, log, -, -, hlog, -⟩ := h.pointed.gcTarget job hjob
      rw [hgone] at hlog
      cases hlog
    · rw [hgone] at hlog
      cases hlog
    · exact (h.toReached.abandoned_run habandoned hcs hu).ne

/-- A key is written twice in one log, not synchronously the first time,
another key in the next, and both are flushed; then the client asks for a
sync. -/
def beforeQuietGc : List ForceAction :=
  [.engine (.commit [{ key := [97], value := [1], sync := false }]),
    .engine (.commit [{ key := [97], value := [2] }]),
    .engine (.commit [{ key := [98], value := [3], sync := false }]),
    .engine .maybeFlush, .engine .flushStart, .engine .flushCommit, .engine .flushClear,
    .syncActiveVlog]

/-- The collector scans the first log, relocates the second value and removes
the log. -/
def quietGc : List EngineAction := [.gcScan, .gcScan, .gcScan, .commit [relocation], .gcFinish]

/-- Its memtable is flushed. -/
def afterQuietGc : List ForceAction :=
  [.engine .maybeFlush, .engine .flushStart, .engine .flushCommit, .engine .flushClear]

/-- The first log is gone and the key reads back, though a table still leads
there. -/
theorem get_eq_of_quietGc_quietGc :
    let s := finalState (KVStore.forceStep .small) {} beforeQuietGc
    let t := finalState (KVStore.step .small) (s.gcStart.getD s) quietGc
    let u := finalState (KVStore.forceStep .small) t afterQuietGc
    s.get .small [97] = some [2] ∧ s.gcTarget = some 1 ∧ t.vlogs.logs.keys = [2, 3]
      ∧ (u.lsm.tables.entries.any (fun e =>
        e.2.contents.entries.any (fun c => decide (c.2.ptr.fileId = 1)))) = true
      ∧ t.get .small [97] = s.get .small [97]
      ∧ ∀ c, live (u.lookup .small [97]) = some c → c.ptr.fileId ≠ 1 :=
  let s := finalState (KVStore.forceStep .small) {} beforeQuietGc
  have hok : RunOk (KVStore.forceStep .small) ForceOk {} beforeQuietGc := by decide +kernel
  have hrun : runSteps (KVStore.forceStep .small) {} beforeQuietGc = some s :=
    runSteps_eq_finalState (by decide +kernel)
  have hquiet : RunOk (KVStore.step .small) QuietStep (s.gcStart.getD s) quietGc := by
    decide +kernel
  have h := get_eq_of_quietGc hok hrun (by decide +kernel) rfl hquiet
    (runSteps_eq_finalState (by decide +kernel))
  ⟨by decide +kernel, by decide +kernel, by decide +kernel, by decide +kernel, h.1 [97],
    h.2 1 (by decide +kernel) (by decide +kernel) afterQuietGc _ (by decide +kernel)
      (runSteps_eq_finalState (by decide +kernel)) [97]⟩

end KVStore
