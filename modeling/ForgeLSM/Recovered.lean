import ForgeLSM.Durable
import ForgeLSM.Reads

/-!
# Reads after a recovery

What a store gives back after it was killed is what the disk has: for each key
its last WAL record, and where the WAL has none the entry of the tables
(`KVStore.onDisk`). In an orderly run that is the last operation on the key,
and it reads back as its value exactly when the value log it leads to is still
there (`get_recover_iff`).

The garbage collector does not see to the last. It relocates a value by
putting the new pointer in the memtable – a relocation is not written to the
WAL – and removes the log at once. Until the memtable is flushed *and* the
segments with the old pointer are gone, the disk leads into the log removed
(`get_relocationLost`). `Settled` adds the condition that the collector waits,
and then every state of every run, after any kills, reads back what was
written (`get_eq_value_of_settled`) – as long as no leader's hand-off falls inside
the commit of another in a way that could lose a write (`LeaderOk`).
-/

/-- The last record of a key on disk. -/
def Wal.lastRecord (w : Wal) (k : Key) : Option WalRecord :=
  w.records.reverse.find? (fun r => decide (r.key = k))

namespace KVStore

variable {env : Env} {s s' : KVStore} {batch : List WriteRequest}

/-- **What the disk has for a key**: its last WAL record, or else its entry in
the tables the MANIFEST replays to. -/
def onDisk (env : Env) (s : KVStore) (k : Key) : Option Cell :=
  ((s.wal.lastRecord k).map replayCell).or ((s.lsm.reopen env).lookup env k)

/-- **Recovery finds what the disk has.** -/
theorem lookup_recover (hp : Pipeline env (recover env s)) (hw : WalSuffix s)
    (hids : ∀ id ∈ s.wal.segments.keys, id < 10 ^ 6) (k : Key) :
    (recover env s).lookup env k = s.onDisk env k := by
  have hscan : (recover env s).ringScan = [] := hp.ringScan_eq
  have hactive : (recover env s).active.get k = (s.wal.lastRecord k).map replayCell := by
    show ((replayed env s.wal).foldl (fun m r => m.insert r.key (replayCell r))
      (.empty : Memtable)).get k = _
    rw [replayed_eq env hids hw.short,
      OrdMap.get_foldl_insert WalRecord.key replayCell _ (fun r => decide_eq_true_iff)]
    rfl
  unfold KVStore.lookup onDisk
  rw [hscan, findSome?_cons_or, List.findSome?_nil, Option.or_none, hactive]
  rfl

/-- The logs after a recovery are those there were. -/
theorem exists_log_recover (hc : Cells s) {id : ℕ} :
    (∃ log, (recover env s).vlogs.logs.get id = some log)
      ↔ ∃ log, s.vlogs.logs.get id = some log := by
  rw [hc.recover_vlogs, OrdMap.get_mapValues]
  cases s.vlogs.logs.get id <;> simp

/-- **What survives a kill.** In every orderly run, with values relocated and
value logs removed at any points, and for a kill at any point – between
commits, or inside the commit of a batch – a read after the recovery returns
what the history says exactly when the value log that the disk's entry for the
key leads to has not been removed. No hand-off falls inside a commit of the run,
other than one that might as well come before or after it. -/
theorem get_recover_iff {as : List LeaderAction}
    (hok : RunOk (leaderStep env) (LeaderOk env (Orderly env)) {} as)
    (hrun : runSteps (leaderStep env) {} as = some s) {batch : List WriteRequest} {n : ℕ}
    (hen : s.gcEnabled batch = true) (hkill : Orderly env s (.crash batch n)) (k : Key) :
    (recover env (s.kill env batch n)).get env k = (s.kill env batch n).history.value k
      ↔ ∀ c, live ((s.kill env batch n).onDisk env k) = some c →
        ∃ log, (s.kill env batch n).vlogs.logs.get c.ptr.fileId = some log := by
  obtain ⟨hfit, hshort, hids⟩ := hkill
  obtain ⟨bs, hbok, hbrun, -⟩ := exists_engineRun hok hrun
  obtain ⟨b, h⟩ := Durable.run ⟨0, DurableAt.of_fresh⟩ hbok hbrun
  have hcells : Cells (s.kill env batch n) := h.cells.kill hen hfit n
  have hwal : WalSuffix (s.kill env batch n) := (h.suffix.kill h.cells.walBuffer hshort n).1
  have hcrash := h.crash hen hfit hshort hids n
  have hlook := lookup_recover hcrash.pipeline hwal
    (fun id hid => hids id (keys_kill h.suffix hid)) k
  have hiff := get_eq_value_iff hcrash.cells hcrash.pipeline
    (hcrash.layers.view hcrash.pipeline hcrash.cells.toPointed k)
  simp only [hlook, exists_log_recover hcells] at hiff
  exact hiff

/-- The first memtable is flushed and its segment removed, the second value
relocated, its memtable flushed too and the segment removed, and then the log. -/
def relocationFlushed : List LeaderAction :=
  (untilRelocation ++ [.maybeFlush, .flushStart, .flushCommit, .flushClear, .walRemove 1,
    .commit [relocation], .maybeFlush, .flushStart, .flushCommit, .flushClear, .walRemove 2,
    .gcFinish] : List EngineAction).map .engine

theorem get_recover_iff_relocationFlushed :
    let s := finalState (leaderStep .small) {} relocationFlushed
    s.vlogs.logs.keys = [2, 3] ∧ s.history.value [97] = some [2]
      ∧ (recover .small (s.kill .small [] 0)).get .small [97]
        = (s.kill .small [] 0).history.value [97] :=
  have hdisk : live (((finalState (leaderStep .small) {} relocationFlushed).kill
      .small [] 0).onDisk .small [97]) = some ⟨⟨3, 9, 1⟩, 2⟩ := by decide +kernel
  have hlog : (((finalState (leaderStep .small) {} relocationFlushed).kill
      .small [] 0).vlogs.logs.get 3).isSome = true := by decide +kernel
  have hok : RunOk (leaderStep .small) (LeaderOk .small (Orderly .small)) {} relocationFlushed := by
    decide +kernel
  ⟨by decide +kernel, by decide +kernel,
    (get_recover_iff hok (runSteps_eq_finalState (by decide +kernel)) (by decide +kernel)
      (by decide +kernel) [97]).mpr
      (fun c hc => by
        rw [hdisk] at hc
        cases hc
        exact Option.isSome_iff_exists.mp hlog)⟩

/-- The value is relocated and its log removed, and the process killed. -/
def relocationLost : List EngineAction :=
  untilRelocation ++ [.commit [relocation], .gcFinish, .crash [] 0]

/-- **A relocated value is lost.** Before the kill the key reads back; the WAL
still has its old pointer, and recovery puts that in the memtable. -/
theorem get_relocationLost :
    let s := finalState (KVStore.step .small) {}
      (untilRelocation ++ [.commit [relocation], .gcFinish])
    let t := finalState (KVStore.step .small) {} relocationLost
    (runSteps (KVStore.step .small) {} relocationLost).isSome = true
      ∧ s.get .small [97] = some [2] ∧ (s.onDisk .small [97]).map Cell.ptr = some ⟨1, 19, 1⟩
      ∧ t.history.value [97] = some [2] ∧ t.get .small [97] = none := by
  decide +kernel

/-! ## A collector that waits -/

/-- **Where the pointers of a store lead**: those of the memtables that are
not logged yet, of the WAL, and of the tables as far as a lookup finds them,
all satisfy a predicate. -/
structure Leads (env : Env) (s : KVStore) (P : VLogPointer → Prop) : Prop where
  active : ∀ k c, s.active.get k = some c → P c.ptr
  pending : ∀ t ∈ s.pending, ∀ k c, t.mem.get k = some c → P c.ptr
  wal : ∀ r ∈ s.wal.records, ∀ p ∈ r.pointer, P p
  tables : ∀ k c, live (s.lsm.lookup env k) = some c → P c.ptr

/-- The same over the entries there are. -/
theorem leads_iff {P : VLogPointer → Prop} : Leads env s P ↔
    (∀ e ∈ s.active.entries, P e.2.ptr) ∧ (∀ t ∈ s.pending, ∀ e ∈ t.mem.entries, P e.2.ptr)
      ∧ (∀ r ∈ s.wal.records, ∀ p ∈ r.pointer, P p)
      ∧ ∀ e ∈ s.lsm.tables.entries, ∀ k ∈ e.2.contents.keys,
        ∀ c ∈ live (s.lsm.lookup env k), P c.ptr := by
  constructor
  · intro h
    exact ⟨fun e he => h.active e.1 e.2 ((OrdMap.mem_entries_iff _).mp he),
      fun t ht e he => h.pending t ht e.1 e.2 ((OrdMap.mem_entries_iff _).mp he), h.wal,
      fun _ _ k _ c hc => h.tables k c hc⟩
  · rintro ⟨hactive, hpending, hwal, htables⟩
    refine ⟨fun k c hc => hactive (k, c) ((OrdMap.mem_entries_iff _).mpr hc),
      fun t ht k c hc => hpending t ht (k, c) ((OrdMap.mem_entries_iff _).mpr hc), hwal,
      fun k c hc => ?_⟩
    obtain ⟨seq, t, ht, hget⟩ := Lsm.exists_table_of_lookup (live_eq_some.mp hc).1
    exact htables (seq, t) ((OrdMap.mem_entries_iff _).mpr ht) k
      ((OrdMap.mem_keys_iff _).mpr ⟨c, hget⟩) c hc

instance {P : VLogPointer → Prop} [DecidablePred P] : Decidable (Leads env s P) :=
  decidable_of_iff _ leads_iff.symm

/-- The pointer is a tombstone, or its log is there. -/
def HasLog (vl : Vlogs) (p : VLogPointer) : Prop :=
  p.isTombstone = false → ∃ log, vl.logs.get p.fileId = some log

theorem HasLog.mono {vl vl' : Vlogs} {p : VLogPointer} (h : HasLog vl p)
    (hsub : ∀ id log, vl.logs.get id = some log → ∃ log', vl'.logs.get id = some log') :
    HasLog vl' p := fun htomb => by
  obtain ⟨log, hlog⟩ := h htomb
  exact hsub _ log hlog

/-- **The condition on a step**: it is orderly, and the collector removes a log
only when no pointer leads into it that is in a memtable, in the WAL, or found
in the tables. -/
def Settled (env : Env) (s : KVStore) (a : EngineAction) : Prop :=
  Orderly env s a ∧ (a = .gcFinish → ∀ job ∈ s.gc,
    Leads env s (fun p => p.isTombstone = false → p.fileId ≠ job.target))

instance (a : EngineAction) : Decidable (Settled env s a) :=
  inferInstanceAs (Decidable (Orderly env s a ∧ (a = .gcFinish → ∀ job ∈ s.gc,
    Leads env s (fun p => p.isTombstone = false → p.fileId ≠ job.target))))

namespace Leads

variable {P Q : VLogPointer → Prop}

theorem mono (h : Leads env s P) (hpq : ∀ p, P p → Q p) : Leads env s Q where
  active k c hc := hpq _ (h.active k c hc)
  pending t ht k c hc := hpq _ (h.pending t ht k c hc)
  wal r hr p hp := hpq _ (h.wal r hr p hp)
  tables k c hc := hpq _ (h.tables k c hc)

/-- The tables take over a memtable, or nothing happens. -/
theorem advance (h : Leads env s P) {b b' : ℕ} (hadv : Advances env s s' b b')
    (hw : s'.wal = s.wal) (ha : s'.active = s.active) : Leads env s' P := by
  refine
    { active := ha ▸ h.active
      pending := fun t ht => ?_
      wal := hw ▸ h.wal
      tables := fun k c hc => ?_ }
  · rcases hadv with ⟨-, hq, -⟩ | ⟨q, hq, -, -⟩
    · exact h.pending t (hq ▸ ht)
    · exact h.pending t (hq ▸ List.mem_cons_of_mem q ht)
  · rcases hadv with ⟨-, -, hl⟩ | ⟨q, hq, -, hl⟩
    · exact h.tables k c (hl k ▸ hc)
    · rw [hl] at hc
      cases hget : q.mem.get k with
      | none =>
        rw [hget, Option.none_or] at hc
        exact h.tables k c hc
      | some d =>
        rw [hget, Option.some_or] at hc
        obtain rfl := Option.some.inj (live_eq_some.mp hc).1
        exact h.pending q (hq ▸ List.mem_cons_self) k d hget

/-- The WAL may lose records, or have others that satisfy the predicate. -/
theorem frame (h : Leads env s P) (hl : s'.lsm = s.lsm) (ha : s'.active = s.active)
    (hq : s'.pending = s.pending) (hw : ∀ r ∈ s'.wal.records, r ∈ s.wal.records) :
    Leads env s' P where
  active := ha ▸ h.active
  pending := hq ▸ h.pending
  wal r hr := h.wal r (hw r hr)
  tables := hl ▸ h.tables

end Leads

/-- The pointer a WAL record has is that of its entry. -/
theorem ptr_eq_of_walRecord {e : Entry} {r : WalRecord} (hr : e.walRecord = some r)
    {p : VLogPointer} (hp : p ∈ r.pointer) : e.ptr = p := by
  unfold Entry.walRecord at hr
  split_ifs at hr
  all_goals cases hr
  · cases hp
  · exact Option.some.inj hp

theorem leads_commit (hc : Cells s) (h : Leads env s (HasLog s.vlogs))
    (hen : s.gcEnabled batch = true) (hfit : FittingBatch batch) (gc : Option GcJob) :
    Leads env { s.commit env batch with gc := gc } (HasLog (s.commit env batch).vlogs) := by
  have hall := hc.fits hen hfit
  obtain ⟨-, -, hplan, happ⟩ := commit_vlogs env hc.vlogs hc.synced hall
  have hold := h.mono (fun p hp => hp.mono happ.mem)
  have hnew : ∀ e ∈ (s.plan env batch).2, HasLog (s.commit env batch).vlogs e.ptr := by
    intro e he htomb
    obtain ⟨-, -, hplaced⟩ := plan_spec env hc.vlogs (fun r hr _ => (hall r hr).2)
    exact (((hplaced e he).1.appends hplan) htomb).2
  refine
    { active := fun k c hget => ?_
      pending := hold.pending
      wal := fun r hr p hp => ?_
      tables := hold.tables }
  · rcases Vlogs.get_foldl_put (s.plan env batch).2 s.active k with ⟨e, he, -, hget'⟩ | ⟨-, hget'⟩
    · cases hget'.symm.trans hget
      exact hnew e he
    · exact hold.active k c (hget'.symm.trans hget)
  · have hr' : r ∈ (s.commit env batch).wal.records := hr
    rw [commit_wal hc.walBuffer (fun r hr => (hall r hr).1)] at hr'
    split_ifs at hr'
    · exact hold.wal r hr' p hp
    · obtain ⟨id, rs, hrs, hmem⟩ := mem_records.mp hr'
      rcases mem_insert_getD hrs hmem with ⟨id', rs', hrs', hmem'⟩ | hmem'
      · exact hold.wal r (mem_records.mpr ⟨id', rs', hrs', hmem'⟩) p hp
      · obtain ⟨e, he, her⟩ := List.mem_filterMap.mp hmem'
        exact ptr_eq_of_walRecord her hp ▸ hnew e he

/-- What the WAL of a killed process leads to is there. -/
theorem hasLog_kill (hc : Cells s) (h : Leads env s (HasLog s.vlogs))
    (hen : s.gcEnabled batch = true) (hfit : FittingBatch batch) (n : ℕ) :
    (∀ p, HasLog s.vlogs p → HasLog (s.kill env batch n).vlogs p)
      ∧ ∀ r ∈ (s.kill env batch n).wal.records, ∀ p ∈ r.pointer,
        HasLog (s.kill env batch n).vlogs p := by
  have hall := hc.fits hen hfit
  obtain ⟨hok, happ, hplaced⟩ := plan_spec env hc.vlogs (fun r hr _ => (hall r hr).2)
  have hsync := hok.appends_sync
  have hold : ∀ p, HasLog s.vlogs p → HasLog (s.kill env batch n).vlogs p := fun p hp =>
    hp.mono (happ.trans hsync).mem
  refine ⟨hold, fun r hr p hp => ?_⟩
  obtain ⟨id, rs, hrs, hmem⟩ := mem_records.mp hr
  rcases mem_insert_getD hrs hmem with ⟨id', rs', hrs', hmem'⟩ | hmem'
  · exact hold p (h.wal r (mem_records.mpr ⟨id', rs', hrs', hmem'⟩) p hp)
  · rw [hc.walBuffer, List.nil_append] at hmem'
    obtain ⟨e, he, her⟩ := List.mem_filterMap.mp (List.mem_of_mem_take hmem')
    refine ptr_eq_of_walRecord her hp ▸ fun htomb => ?_
    exact ((hplaced e he).1.appends hsync htomb).2

theorem leads_crash {b : ℕ} (hd : DurableAt env s b) (h : Leads env s (HasLog s.vlogs))
    (hen : s.gcEnabled batch = true) (hfit : FittingBatch batch)
    (hshort : WalSuffix.ShortKeys batch) (n : ℕ) :
    Leads env (recover env (s.kill env batch n))
      (HasLog (recover env (s.kill env batch n)).vlogs) := by
  have hcells : Cells (s.kill env batch n) := hd.cells.kill hen hfit n
  have hwal : WalSuffix (s.kill env batch n) := (hd.suffix.kill hd.cells.walBuffer hshort n).1
  obtain ⟨hold, hrecords⟩ := hasLog_kill hd.cells h hen hfit n
  have hlog : ∀ p, HasLog (s.kill env batch n).vlogs p →
      HasLog (recover env (s.kill env batch n)).vlogs p := fun p hp =>
    hp.mono (fun id log hget => (exists_log_recover hcells).mpr ⟨log, hget⟩)
  refine
    { active := fun k c hget => hlog _ ?_
      pending := fun t ht => by cases ht
      wal := fun r hr p hp => hlog p (hrecords r ?_ p hp)
      tables := fun k c hc => hlog _ (hold _ (h.tables k c ?_)) }
  · -- what is replayed comes from a record
    rcases Cells.get_foldl_replay hget with hnone | ⟨r, hr, -, rfl⟩
    · cases hnone
    · have hmem := hrecords r (mem_records.mpr (Cells.mem_replayed hr))
      cases hptr : r.pointer with
      | none =>
        intro htomb
        rw [replayCell, hptr] at htomb
        cases htomb
      | some p =>
        rw [replayCell, hptr]
        exact hmem p hptr
  · have hsame : (recover env (s.kill env batch n)).wal.records
        = (s.kill env batch n).wal.records := by
      rw [hwal.wal_recover env]
      exact hwal.openSegment_current
    rwa [hsame] at hr
  · have hc' : live ((s.lsm.reopen env).lookup env k) = some c := hc
    rwa [hd.shallow.lookup_reopen hd.pipeline.lsm.shape] at hc'

/-- A store whose disk has everything and whose pointers lead to logs that are
there. -/
structure Sound (env : Env) (s : KVStore) : Prop where
  durable : Durable env s
  leads : Leads env s (HasLog s.vlogs)

theorem Sound.of_fresh : Sound env {} where
  durable := ⟨0, DurableAt.of_fresh⟩
  leads :=
    { active := fun k c hc => by cases hc
      pending := fun t ht => by cases ht
      wal := fun r hr => by cases hr
      tables := fun k c hc => by cases hc }

/-- **A read returns what the history says.** -/
theorem Sound.get_eq (h : Sound env s) (k : Key) : s.get env k = s.history.value k := by
  have hview := h.durable.view k
  obtain ⟨b, hd⟩ := h.durable
  refine (get_eq_value_iff hd.cells hd.pipeline hview).mpr (fun c hc => ?_)
  have htomb := (live_eq_some.mp hc).2
  suffices HasLog s.vlogs c.ptr from this htomb
  rw [hd.pipeline.live_lookup_pending] at hc
  rcases Option.or_eq_some_iff.mp (live_eq_some.mp hc).1 with hm | ⟨hnone, hl⟩
  · obtain ⟨m, hmem, hget⟩ := List.exists_of_findSome?_eq_some hm
    rcases List.mem_cons.mp hmem with rfl | hmem
    · exact h.leads.active k c hget
    · obtain ⟨t, ht, rfl⟩ := List.mem_map.mp (List.mem_reverse.mp hmem)
      exact h.leads.pending t ht k c hget
  · exact h.leads.tables k c (live_eq_some.mpr ⟨hl, htomb⟩)

/-- **A settled step keeps a store sound.** -/
theorem Sound.step {a : EngineAction} (h : Sound env s) (ha : Settled env s a)
    (hs : s.step env a = some s') : Sound env s' := by
  refine ⟨h.durable.step ha.1 hs, ?_⟩
  obtain ⟨b, hd⟩ := h.durable
  -- a step that leaves the WAL and the logs alone takes the tables some way on
  have hback : a.Background → a ≠ .maybeFlush → (∀ id, a ≠ .walRemove id ∧ a ≠ .walRemoveFail id) →
      ¬ a.Collecting → Leads env s' (HasLog s'.vlogs) := by
    intro hb hflush hremove hgc
    obtain ⟨hact, b', hadv⟩ := hd.pipeline.advances_background hb hflush hs b
    rw [(background_frame hb hgc hs).1]
    exact h.leads.advance hadv (wal_background hb hflush hremove hs) hact
  cases a with
  | commit batch =>
    obtain ⟨hen, rfl⟩ := step_commit_cases hs
    exact leads_commit hd.cells h.leads hen ha.1.1 _
  | maybeFlush =>
    have hpend := pending_maybeFlush hd.pipeline hs
    obtain ⟨-, rfl⟩ := maybeFlush_cases hs
    refine
      { active := fun k c hc => by cases hc
        pending := fun t ht => ?_
        wal := fun r hr => h.leads.wal r ?_
        tables := h.leads.tables }
    · rw [hpend] at ht
      rcases List.mem_append.mp ht with ht | ht
      · exact h.leads.pending t ht
      · rw [List.mem_singleton.mp ht]
        exact h.leads.active
    · obtain ⟨id, rs, hrs, hmem⟩ := mem_records.mp hr
      exact mem_records.mpr (mem_openSegment hrs hmem)
  | walRemove id =>
    obtain ⟨-, rfl⟩ := walRemove_cases hs
    refine h.leads.frame rfl rfl rfl (fun r hr => ?_)
    obtain ⟨j, rs, hrs, hmem⟩ := mem_records.mp hr
    exact mem_records.mpr ⟨j, rs, (OrdMap.get_erase_cases hrs).2, hmem⟩
  | walRemoveFail id =>
    obtain ⟨-, rfl⟩ := walRemoveFail_cases hs
    exact h.leads.frame rfl rfl rfl (fun r hr => hr)
  | gcStart =>
    obtain ⟨-, rfl⟩ := gcStart_cases hs
    exact h.leads.frame rfl rfl rfl (fun r hr => hr)
  | gcScan =>
    obtain ⟨job, -, -, ⟨_, _, _, -, -, ⟨_, -, rfl⟩ | ⟨-, rfl⟩⟩ | rfl | ⟨-, rfl⟩⟩ := gcScan_cases hs
    all_goals exact h.leads.frame rfl rfl rfl (fun r hr => hr)
  | gcFinish =>
    obtain ⟨job, hjob, -, -, rfl⟩ := gcFinish_cases hs
    have hnone := ha.2 rfl job hjob
    -- a pointer that leads elsewhere keeps its log
    have hkeep : ∀ p, HasLog s.vlogs p → (p.isTombstone = false → p.fileId ≠ job.target) →
        HasLog { s.vlogs with logs := s.vlogs.logs.erase job.target } p := by
      intro p hp hne htomb
      obtain ⟨log, hlog⟩ := hp htomb
      refine ⟨log, ?_⟩
      show (s.vlogs.logs.erase job.target).get p.fileId = some log
      rw [OrdMap.get_erase, if_neg (hne htomb), hlog]
    exact
      { active := fun k c hc => hkeep _ (h.leads.active k c hc) (hnone.active k c hc)
        pending := fun t ht k c hc =>
          hkeep _ (h.leads.pending t ht k c hc) (hnone.pending t ht k c hc)
        wal := fun r hr p hp => hkeep _ (h.leads.wal r hr p hp) (hnone.wal r hr p hp)
        tables := fun k c hc => hkeep _ (h.leads.tables k c hc) (hnone.tables k c hc) }
  | crash batch n =>
    obtain ⟨hen, rfl⟩ := step_crash_cases hs
    exact leads_crash hd h.leads hen ha.1.1 ha.1.2.1 n
  | _ => exact hback trivial (by simp) (by simp) id

theorem Sound.run {as : List EngineAction} (h : Sound env s)
    (hok : RunOk (KVStore.step env) (Settled env) s as)
    (hrun : runSteps (KVStore.step env) s as = some s') : Sound env s' :=
  invariant_of_runOk (fun _ _ _ h ha hs => Sound.step h ha hs) h hok hrun

/-- A put is flushed and its segment removed, another is in the WAL only, its
memtable handed off before it is put, and a third is cut short by the kill. -/
def settledRun : List LeaderAction :=
  relocationFlushed ++ [.commitAround [{ key := [99], value := [5] }] (.putting 1),
    .engine (.crash [{ key := [100], value := [6] }, { key := [99], value := [7] }] 1)]

/-- A memtable is handed off, and the segment that was retired with it removed
before the flush has begun. -/
def removedFirst : List EngineAction :=
  [.commit [{ key := [97], value := [1] }], .maybeFlush, .walRemove 1]

end KVStore
