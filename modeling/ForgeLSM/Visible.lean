import ForgeLSM.Cells
import ForgeLSM.Covered

/-!
# What a read sees

In a store that has not been killed, a read returns what the history says. The
invariant is `Visible`: what a lookup finds, a tombstone counting as absent,
is the last put of the key – by its stamp – and leads to a value log that is
there.

The second half is what the garbage collector puts at risk, and holds because
it knows of every key whose pointer leads into its log (`Covered`).

Relocation keeps all this as long as it is *fresh*. The check of the commit
does not ensure it, and `KVStore.FreshStep` is the condition on a step that
does.
-/

namespace KVStore

variable {env : Env} {s s' : KVStore}

/-- **When the last operation found is read back**: a lookup that finds the last
put of its key, by its stamp, gives the value exactly when the value log its
pointer leads to is there. -/
theorem get_eq_value_iff (hc : Cells s) (hp : Pipeline env s) {k : Key}
    (hview : (live (s.lookup env k)).map Cell.stamp = s.history.putStamp k) :
    s.get env k = s.history.value k ↔ ∀ c, live (s.lookup env k) = some c →
      ∃ log, s.vlogs.logs.get c.ptr.fileId = some log := by
  unfold KVStore.get Vlogs.readCell
  cases hl : live (s.lookup env k) with
  | none =>
    rw [hl] at hview
    rw [Option.bind_none, History.value_eq_none_of_putStamp hview.symm]
    simp
  | some c =>
    obtain ⟨hlook, htomb⟩ := live_eq_some.mp hl
    obtain ⟨v, hop, -, -, hrec⟩ := (hc.lookup hp hlook).put htomb
    -- the stamp found is the key's last
    have hvalue : s.history.value k = some v := by
      rw [hl] at hview
      rw [History.value, History.lastOp_eq_opAt, History.lastStamp_eq_of_putStamp hview.symm, hop]
      rfl
    rw [Option.bind_some, hvalue]
    constructor
    · rintro hget _ ⟨⟩
      obtain ⟨log, hlog, -⟩ := Option.bind_eq_some_iff.mp hget
      exact ⟨log, hlog⟩
    · intro hreach
      obtain ⟨log, hlog⟩ := hreach c rfl
      have hfile : log.file = log.content := by
        rw [VLog.content, hc.synced _ log hlog, List.append_nil]
      rw [hlog, Option.bind_some]
      exact VLogPointer.Holds.readAt (hfile ▸ (hrec log hlog).holds)

/-- **A read sees the last operation on its key.** -/
structure Visible (env : Env) (s : KVStore) : Prop where
  pipeline : Pipeline env s
  cells : Cells s
  /-- The active memtable holds last operations only. -/
  fresh : ∀ k c, s.active.get k = some c → c.stamp = s.history.lastStamp k
  view : ∀ k, (live (s.lookup env k)).map Cell.stamp = s.history.putStamp k
  reach : ∀ k c, live (s.lookup env k) = some c →
    ∃ log, s.vlogs.logs.get c.ptr.fileId = some log
  covered : Covered env s

namespace Visible

/-- A store just created. -/
theorem of_fresh : Visible env {} where
  pipeline := Pipeline.of_empty Lsm.inv_fresh rfl rfl rfl rfl
  cells := cells_fresh
  fresh k c hc := by cases hc
  view k := rfl
  reach k c hc := by cases hc
  covered job hjob := by cases hjob

section

variable (h : Visible env s)
include h

/-- **A read returns what the history says.** -/
theorem get_eq (k : Key) : s.get env k = s.history.value k :=
  (get_eq_value_iff h.cells h.pipeline (h.view k)).mpr (h.reach k)

/-! ## Background steps -/

/-- A step that leaves reads, history, logs and collector alone. -/
theorem frame (hp : Pipeline env s') (hc : Cells s')
    (hl : ∀ k, live (s'.lookup env k) = live (s.lookup env k)) (hh : s'.history = s.history)
    (hv : s'.vlogs = s.vlogs) (hg : s'.gc = s.gc) (ha : s'.active = s.active ∨ s'.active = .empty) :
    Visible env s' where
  pipeline := hp
  cells := hc
  fresh k c hk := by
    rcases ha with ha | ha
    · rw [ha] at hk
      rw [hh]
      exact h.fresh k c hk
    · rw [ha] at hk
      cases hk
  view k := by
    rw [hl, hh]
    exact h.view k
  reach k c := by
    rw [hl, hv]
    exact h.reach k c
  covered := h.covered.frame hl hg

theorem gcStart (hs : s.gcStart = some s') : Visible env s' := by
  have hc := h.cells.step (a := .gcStart) (fun _ => h.pipeline) trivial hs
  have hcov : Covered env s' := .gcStart h.cells.toPointed h.pipeline hs
  obtain ⟨-, rfl⟩ := gcStart_cases hs
  exact ⟨h.pipeline.frame rfl rfl rfl rfl rfl, hc, h.fresh, h.view, h.reach, hcov⟩

theorem gcScan (hs : s.gcScan env = some s') : Visible env s' := by
  have hc := h.cells.step (a := .gcScan) (fun _ => h.pipeline) trivial hs
  have hcov : Covered env s' := h.covered.gcScan h.cells.toPointed h.pipeline hs
  obtain ⟨_, -, -, ⟨_, _, _, -, -, ⟨_, -, rfl⟩ | ⟨-, rfl⟩⟩ | rfl | ⟨-, rfl⟩⟩ := gcScan_cases hs
  all_goals exact ⟨h.pipeline.frame rfl rfl rfl rfl rfl, hc, h.fresh, h.view, h.reach, hcov⟩

/-- **No read leads to the log the collector removes.** -/
theorem gcFinish (hs : s.gcFinish = some s') : Visible env s' := by
  have hcells := h.cells.step (a := .gcFinish) (fun _ => h.pipeline) trivial hs
  obtain ⟨job, hjob, hscan, hlive, rfl⟩ := gcFinish_cases hs
  refine
    { pipeline := h.pipeline.frame rfl rfl rfl rfl rfl
      cells := hcells
      fresh := h.fresh
      view := h.view
      reach := fun k c hc => ?_
      covered := fun job' hjob' => by cases hjob' }
  obtain ⟨log, hlog⟩ := h.reach k c hc
  refine ⟨log, ?_⟩
  show (s.vlogs.logs.erase job.target).get c.ptr.fileId = some log
  rw [OrdMap.get_erase, if_neg (h.covered.ne_target hjob hscan hlive hc), hlog]

/-! ## Commits -/

theorem commit {batch : List WriteRequest} (hen : s.gcEnabled batch = true)
    (hfit : FittingBatch batch) (hfresh : FreshRelocations s.active s.history batch) :
    Visible env { s.commit env batch with gc := s.gcAfter batch } := by
  have hall := h.cells.fits hen hfit
  have hcells : Cells { s.commit env batch with gc := s.gcAfter batch } :=
    h.cells.commit hen hfit
  obtain ⟨-, -, hplan, happ⟩ := commit_vlogs env h.cells.vlogs h.cells.synced hall
  have hplaced : ∀ e ∈ (s.plan env batch).2, s.vlogs.Placed (s.commit env batch).vlogs e.ptr :=
    fun e he =>
      ((plan_spec env h.cells.vlogs (fun r hr _ => (hall r hr).2)).2.2 e he).1.appends hplan
  have hact : ∀ k c, (s.commit env batch).active.get k = some c →
      c.stamp = (s.history ++ userOps batch).lastStamp k := fun k c =>
    Vlogs.lastStamp_of_get_put (fun r hr hg => (h.cells.relocates hen hr hg).1.put)
      hfresh h.fresh
  refine
    { pipeline := h.pipeline.commit batch
      cells := hcells
      fresh := hact
      view := fun k => ?_
      reach := fun k c hc => ?_
      covered := h.covered.commit h.cells.toPointed hen hfit.recordsFit }
  · rcases lookup_commit s batch (s.gcAfter batch) k with ⟨e, he, rfl, hget⟩ | ⟨hne, hlook⟩
    · rw [lookup_of_active hget]
      exact (hcells.cells.active _ _ hget).live_stamp (hact _ _ hget)
    · rw [hlook, h.view k]
      exact (History.putStamp_append (Vlogs.lastStamp_of_not_mem hne)).symm
  · rcases lookup_commit s batch (s.gcAfter batch) k with ⟨e, he, rfl, hget⟩ | ⟨-, hlook⟩
    · rw [lookup_of_active hget] at hc
      obtain ⟨heq, htomb⟩ := live_eq_some.mp hc
      cases heq
      exact (hplaced e he htomb).2
    · rw [hlook] at hc
      obtain ⟨log, hlog⟩ := h.reach k c hc
      exact happ.mem _ log hlog

end

end Visible

end KVStore
