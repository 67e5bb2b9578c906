import ForgeLSM.Pipeline

/-!
# A flush that fails

`flush_immutable` can fail at three points, and says so in three ways: it
throws when the table cannot be written and when the table written does not
load, and prints a message when the edit cannot be logged. The task that runs
it catches what is thrown, and in each case goes on to clear the slot of the
ring. The memtable is then gone, and no version has a table with its entries.

A read of one of its keys afterwards finds what a newer memtable has, or
else what the tree had before: an older entry, or none
(`get_flushFails_iff`).
-/

/-- The points at which `flush_immutable` can fail. -/
inductive FlushFailure where
  /-- `SSTableWriter::write` returns false. -/
  | write
  /-- The table written does not load. -/
  | load
  /-- `log_and_apply` returns false. -/
  | logAndApply
  deriving DecidableEq

variable {f : FlushFailure}

namespace Lsm

variable {V : Type}

/-- **What a flush that fails leaves of the tree.** The number of the table is
given back, unless it is the edit that cannot be logged: then it stays
pending. -/
def flushFails (s : Lsm V) (m : OrdMap Key V) : FlushFailure → Option (Lsm V)
  | .write =>
    if s.flushing.isSome ∨ m.entries = [] then none
    else
      let (seq, vs) := s.vs.freshFileNumber
      some { s with vs := vs.removePendingOutput seq }
  | .load => s.flushing.map (fun f =>
      { s with vs := s.vs.removePendingOutput f.sequence, flushing := none })
  | .logAndApply => s.flushing.map (fun _ => { s with flushing := none })

/-- The version and the tables stay. -/
theorem lookup_flushFails {env : Env} {s s' : Lsm V} {m : OrdMap Key V}
    (h : s.flushFails m f = some s') (k : Key) : s'.lookup env k = s.lookup env k := by
  cases f with
  | write =>
    unfold flushFails at h
    dsimp only at h
    split_ifs at h
    cases h
    rfl
  | load | logAndApply =>
    obtain ⟨f, -, rfl⟩ := Option.map_eq_some_iff.mp h
    rfl

end Lsm

namespace KVStore

variable {env : Env} {s s' : KVStore}

/-- **The rest of a flush task that fails**: the tree is left as it is, and the
slot of the ring cleared. -/
def flushFails (s : KVStore) (f : FlushFailure) : Option KVStore :=
  match s.flushQueue with
  | [] => none
  | t :: rest =>
    if s.flushPhase = .committed then none
    else (s.lsm.flushFails t.mem f).map (fun lsm =>
      { s with
        lsm := lsm
        immutables := Function.update s.immutables t.slot none
        flushQueue := rest
        flushPhase := .queued })

theorem flushFails_cases (h : s.flushFails f = some s') :
    ∃ t rest lsm, s.flushQueue = t :: rest ∧ s.lsm.flushFails t.mem f = some lsm ∧ s' =
      { s with
        lsm := lsm
        immutables := Function.update s.immutables t.slot none
        flushQueue := rest
        flushPhase := .queued } := by
  unfold flushFails at h
  split at h
  · cases h
  · rename_i t rest hq
    split_ifs at h
    obtain ⟨lsm, hl, rfl⟩ := Option.map_eq_some_iff.mp h
    exact ⟨t, rest, lsm, hq, hl, rfl⟩

theorem RingOk.flushFails (h : RingOk s) (hs : s.flushFails f = some s') : RingOk s' := by
  obtain ⟨t, rest, lsm, hq, -, rfl⟩ := flushFails_cases hs
  exact h.pop hq rfl rfl rfl

/-! ## Reads -/

/-- **What a read finds after a flush has failed**: a newer memtable's entry, or
the tree's. -/
theorem RingOk.lookup_flushFails (h : RingOk s) (hs : s.flushFails f = some s') {t : FlushTask}
    {rest : List FlushTask} (hq : s.flushQueue = t :: rest) (env : Env) (k : Key) :
    s'.lookup env k
      = ((s.active :: (rest.map FlushTask.mem).reverse).findSome? (fun m => m.get k)).or
        (s.lsm.lookup env k) := by
  have hscan := (h.flushFails hs).ringScan_eq
  obtain ⟨t', rest', lsm, hq', hl, rfl⟩ := flushFails_cases hs
  obtain ⟨rfl, rfl⟩ := List.cons.inj (hq.symm.trans hq')
  unfold KVStore.lookup
  rw [hscan]
  show _ = Option.or _ _
  rw [← Lsm.lookup_flushFails hl]

/-! ## Runs with flushes that fail -/

/-- What can happen to a store whose flushes may fail. -/
inductive FlushAction where
  | engine (a : EngineAction)
  | flushFails (f : FlushFailure)
  deriving DecidableEq

/-- One step of the engine, or a flush that fails. -/
def failStep (env : Env) (s : KVStore) : FlushAction → Option KVStore
  | .engine a => s.step env a
  | .flushFails f => s.flushFails f

/-- Every step of the engine keeps the ring, a restart empties it. -/
theorem RingOk.step {a : EngineAction} (h : RingOk s) (hs : s.step env a = some s') :
    RingOk s' := by
  have hcompact : ∀ b : LsmAction Cell, s.compact env b = some s' → RingOk s' := by
    intro b hs
    obtain ⟨_, -, rfl⟩ := compact_cases hs
    exact h.frame rfl rfl rfl
  have hlogs : a.OnLogs → RingOk s' := by
    intro ha
    obtain ⟨wal, vlogs, gc, rfl⟩ := onLogs_cases ha hs
    exact h.frame rfl rfl rfl
  cases a with
  | commit batch =>
    obtain ⟨-, rfl⟩ := step_commit_cases hs
    exact h.frame rfl rfl rfl
  | crash batch n =>
    obtain ⟨-, rfl⟩ := step_crash_cases hs
    exact RingOk.of_empty rfl rfl
  | maybeFlush => exact h.maybeFlush hs
  | flushStart =>
    obtain ⟨_, _, _, -, -, -, rfl⟩ := flushStart_cases hs
    exact h.frame rfl rfl rfl
  | flushCommit =>
    obtain ⟨_, -, -, rfl⟩ := flushCommit_cases hs
    exact h.frame rfl rfl rfl
  | flushClear => exact h.flushClear hs
  | compactStart => exact hcompact .compactStart hs
  | compactOutput => exact hcompact .compactOutput hs
  | compactCommit => exact hcompact .compactCommit hs
  | purgeObsoleteFiles => exact hcompact .purgeObsoleteFiles hs
  | _ => exact hlogs trivial

theorem RingOk.failStep {a : FlushAction} (h : RingOk s) (hs : s.failStep env a = some s') :
    RingOk s' := by
  cases a with
  | engine a => exact h.step hs
  | flushFails f => exact h.flushFails hs

/-- **What a flush that fails loses.** In every state of every run – of commits,
hand-offs, flushes that succeed or fail, compactions, collections and kills –
and at whichever point the flush of the oldest frozen memtable fails: its keys
read as before exactly when each of them is in a newer memtable too, or reads
the same from the tree. -/
theorem get_flushFails_iff {as : List FlushAction}
    (hrun : runSteps (KVStore.failStep env) {} as = some s) {f : FlushFailure}
    (hs : s.flushFails f = some s') {t : FlushTask} {rest : List FlushTask}
    (hq : s.flushQueue = t :: rest) :
    (∀ k ∈ t.mem.keys, s'.get env k = s.get env k)
      ↔ ∀ k ∈ t.mem.keys, (∃ m ∈ s.active :: rest.map FlushTask.mem, k ∈ m.keys)
        ∨ s.vlogs.readCell (s.lsm.lookup env k) = s.vlogs.readCell (t.mem.get k) := by
  have hr : RingOk s :=
    invariant_of_run (fun _ _ _ hu hs => RingOk.failStep hu hs) (RingOk.of_empty rfl rfl) hrun
  have hread : ∀ o, s'.vlogs.readCell o = s.vlogs.readCell o := by
    obtain ⟨_, _, _, -, -, rfl⟩ := flushFails_cases hs
    exact fun o => rfl
  refine forall₂_congr (fun k hk => ?_)
  obtain ⟨c, hc⟩ := (OrdMap.mem_keys_iff _).mp hk
  have hnewer : (∃ m ∈ s.active :: rest.map FlushTask.mem, k ∈ m.keys)
      ↔ (s.active :: (rest.map FlushTask.mem).reverse).findSome? (fun m => m.get k) ≠ none := by
    rw [Ne, List.findSome?_eq_none_iff]
    push Not
    refine exists_congr (fun m => and_congr (by simp) ?_)
    rw [OrdMap.mem_keys_iff, Option.ne_none_iff_exists']
  rw [get, get, hread, hr.lookup_flushFails hs hq env k,
    hr.lookup_cons hq k, hc,
    hnewer]
  cases hfirst : (s.active :: (rest.map FlushTask.mem).reverse).findSome? (fun m => m.get k) with
  | some d => simp
  | none => simp

/-- A key is put and flushed; it is put again with the same value, and another
one twice, and the first of the two memtables' flush fails. -/
def overwrittenFlush : List FlushAction :=
  [.engine (.commit [{ key := [97], value := [1] }]), .engine .maybeFlush, .engine .flushStart,
    .engine .flushCommit, .engine .flushClear,
    .engine (.commit [{ key := [97], value := [1] }]),
    .engine (.commit [{ key := [98], value := [2] }]), .engine .maybeFlush,
    .engine (.commit [{ key := [98], value := [3] }]), .engine .flushStart]

theorem get_flushFails_iff_overwrittenFlush :
    let s := finalState (KVStore.failStep .small) {} overwrittenFlush
    let s' := (s.flushFails .load).getD s
    ∃ t, s.flushQueue = [t] ∧ t.mem.keys = [[97], [98]]
      ∧ ∀ k ∈ t.mem.keys, s'.get .small k = s.get .small k := by
  intro s s'
  have hrun : runSteps (KVStore.failStep .small) {} overwrittenFlush = some s :=
    runSteps_eq_finalState (by decide +kernel)
  have hs : s.flushFails .load = some s' := by
    have hsome : (s.flushFails .load).isSome = true := by decide +kernel
    obtain ⟨u, hu⟩ := Option.isSome_iff_exists.mp hsome
    show s.flushFails .load = some ((s.flushFails .load).getD s)
    rw [hu, Option.getD_some]
  have hlen : s.flushQueue.length = 1 := by decide +kernel
  obtain ⟨t, hq⟩ := List.length_eq_one_iff.mp hlen
  have ht : t = s.flushQueue.head (by decide +kernel) := by simp [hq]
  refine ⟨t, hq, ?_, (get_flushFails_iff hrun hs hq).mpr ?_⟩
  · rw [ht]
    decide +kernel
  · rw [ht]
    decide +kernel

/-- **A flush that fails loses its memtable**, at whichever point it does. -/
theorem get_flushLost :
    let handedOff : List FlushAction :=
      [.engine (.commit [{ key := [97], value := [1] }]), .engine .maybeFlush]
    let written := handedOff ++ [.engine .flushStart]
    (finalState (KVStore.failStep .small) {} handedOff).get .small [97] = some [1]
      ∧ (finalState (KVStore.failStep .small) {} written).get .small [97] = some [1]
      ∧ (runSteps (KVStore.failStep .small) {} (handedOff ++ [.flushFails .write])).map
        (fun s => s.get .small [97]) = some none
      ∧ (runSteps (KVStore.failStep .small) {} (written ++ [.flushFails .load])).map
        (fun s => s.get .small [97]) = some none
      ∧ (runSteps (KVStore.failStep .small) {} (written ++ [.flushFails .logAndApply])).map
        (fun s => s.get .small [97]) = some none := by
  decide +kernel

end KVStore
