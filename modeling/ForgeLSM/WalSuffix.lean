import ForgeLSM.WalOrder
import ForgeLSM.WalReplay

/-!
# The write-ahead log as the end of the history

As long as retired segments are removed oldest first, the records on disk are
those of the last operations, in order: the WAL is an end of the history
(`WalSuffix`). What recovery replays into the memtable is then, for each key
it has a record of, the key's last operation, and nothing older than an entry
of any table (`active_recover_not_older`).

Two things in the source stand against this. Removals are tasks of a pool of
two threads, and a kill drops those still queued; the segments they were for
are never looked at again, while later ones are removed. And recovery sorts
the segments by path, which is the order of their ids only while these have
at most six digits.
-/

/-- The records on disk, in the order of the segments. -/
def Wal.records (w : Wal) : List WalRecord := w.segments.entries.flatMap Prod.snd

/-- **What a memtable holds of a history**: for each key the last operation as
of a time, or nothing when that is no later than another. -/
def Covers (h : History) (m : Memtable) (x y : ℕ) : Prop :=
  ∀ k, (∀ c, m.get k = some c → c.stamp = History.lastStamp (h.take y) k)
    ∧ (m.get k = none → History.lastStamp (h.take y) k ≤ x)

namespace KVStore

variable {env : Env} {s s' : KVStore} {batch : List WriteRequest} {a : EngineAction}

/-- How many operations the WAL no longer has records of. -/
def walStart (s : KVStore) : ℕ := s.history.length - s.wal.records.length

/-- **The WAL is an end of the history.** -/
structure WalSuffix (s : KVStore) : Prop extends s.wal.Ok where
  pos : 0 < s.wal.current
  length_le : s.wal.records.length ≤ s.history.length
  stamps : s.wal.records.map WalRecord.stamp
    = List.range' (s.walStart + 1) s.wal.records.length
  /-- Replay believes the keys. -/
  short : ∀ r ∈ s.wal.records, r.key.length ≤ maxFieldSize

/-! ## The records on disk -/

theorem mem_records {w : Wal} {r : WalRecord} :
    r ∈ w.records ↔ ∃ id rs, w.segments.get id = some rs ∧ r ∈ rs := by
  unfold Wal.records
  rw [List.mem_flatMap]
  constructor
  · rintro ⟨⟨id, rs⟩, he, hr⟩
    exact ⟨id, rs, (OrdMap.mem_entries_iff _).mp he, hr⟩
  · rintro ⟨id, rs, hget, hr⟩
    exact ⟨(id, rs), (OrdMap.mem_entries_iff _).mpr hget, hr⟩

namespace WalSuffix

/-- Records appended to the open segment come last. -/
theorem records_append (h : WalSuffix s) (recs : List WalRecord) :
    (s.wal.segments.insert s.wal.current (s.wal.open_ ++ recs)).entries.flatMap Prod.snd
      = s.wal.records ++ recs := by
  obtain ⟨rs, hrs⟩ := h.current_mem
  obtain ⟨init, heq, hins⟩ := s.wal.segments.exists_entries_concat hrs h.le_current
  rw [hins, Wal.records, heq, Wal.open_, hrs]
  simp

/-- A segment opened after the last adds no record. -/
theorem records_openSegment (h : WalSuffix s) :
    (Wal.openSegment s.wal.segments (s.wal.current + 1)).entries.flatMap Prod.snd
      = s.wal.records := by
  have hlt : ∀ id rs, s.wal.segments.get id = some rs → id < s.wal.current + 1 :=
    fun id rs hrs => Nat.lt_succ_of_le (h.le_current id rs hrs)
  rw [Wal.openSegment, h.get_next, OrdMap.entries_insert_of_lt _ _ hlt, Wal.records]
  simp

/-- The open segment opened again. -/
theorem openSegment_current (h : WalSuffix s) :
    (Wal.openSegment s.wal.segments s.wal.current).entries.flatMap Prod.snd = s.wal.records := by
  have := h.records_append []
  rwa [List.append_nil, List.append_nil] at this

/-- Operations committed together with their records. -/
theorem append {recs : List WalRecord} {ops : List Op} (h : WalSuffix s)
    (hwal : s'.wal.records = s.wal.records ++ recs) (hh : s'.history = s.history ++ ops)
    (hlen : recs.length = ops.length)
    (hst : recs.map WalRecord.stamp = List.range' (s.history.length + 1) recs.length)
    (hshort : ∀ r ∈ recs, r.key.length ≤ maxFieldSize) :
    s'.wal.records.length ≤ s'.history.length
      ∧ s'.wal.records.map WalRecord.stamp = List.range' (s'.walStart + 1) s'.wal.records.length
      ∧ (∀ r ∈ s'.wal.records, r.key.length ≤ maxFieldSize) ∧ s'.walStart = s.walStart := by
  have hle := h.length_le
  have hstart : s'.walStart = s.walStart := by
    unfold walStart
    rw [hwal, hh, List.length_append, List.length_append, hlen]
    omega
  refine ⟨?_, ?_, fun r hr => ?_, hstart⟩
  · rw [hwal, hh, List.length_append, List.length_append, hlen]
    omega
  · have hsplit : s.walStart + 1 + 1 * s.wal.records.length = s.history.length + 1 := by
      unfold walStart
      omega
    rw [hstart, hwal, List.map_append, h.stamps, hst, List.length_append, ← List.range'_append,
      hsplit]
  · rw [hwal] at hr
    rcases List.mem_append.mp hr with hr | hr
    · exact h.short r hr
    · exact hshort r hr

/-! ## Steps -/

/-- The keys of a batch are short enough for replay to believe them. -/
def ShortKeys (batch : List WriteRequest) : Prop :=
  ∀ r ∈ batch, r.isGc = false → r.key.length ≤ maxFieldSize

instance (batch : List WriteRequest) : Decidable (ShortKeys batch) :=
  inferInstanceAs (Decidable (∀ r ∈ batch, _))

/-- The records of a batch: as many as its operations, stamped in order, with
the requests' keys. -/
theorem plan_records (env : Env) (s : KVStore) (hshort : ShortKeys batch) :
    ((s.plan env batch).2.filterMap Entry.walRecord).length = (userOps batch).length
      ∧ ((s.plan env batch).2.filterMap Entry.walRecord).map WalRecord.stamp
        = List.range' (s.history.length + 1) (userOps batch).length
      ∧ ∀ r ∈ (s.plan env batch).2.filterMap Entry.walRecord, r.key.length ≤ maxFieldSize := by
  have hst := Vlogs.stamps_walRecords env s.active s.wal.current (s.vlogs.startBatch env)
    s.history.length batch
  refine ⟨?_, hst, fun r hr => ?_⟩
  · have hlen := congrArg List.length hst
    rwa [List.length_map, List.length_range'] at hlen
  · obtain ⟨e, he, her⟩ := List.mem_filterMap.mp hr
    unfold Entry.walRecord at her
    split_ifs at her with hg hd
    all_goals
      cases her
      exact hshort e.req (Vlogs.req_mem_of_mem_placeAll he) (Bool.eq_false_iff.mpr hg)

section

variable (h : WalSuffix s)
include h

theorem commit (hb : s.wal.buffer = []) (hsync : ∀ r ∈ batch, r.sync = true)
    (hshort : ShortKeys batch) (gc : Option GcJob) :
    WalSuffix { s.commit env batch with gc := gc }
      ∧ ({ s.commit env batch with gc := gc } : KVStore).walStart = s.walStart := by
  obtain ⟨hlen, hst, hkeys⟩ := plan_records env s hshort
  have hwal : ({ s.commit env batch with gc := gc } : KVStore).wal = (s.commit env batch).wal := rfl
  have hrec : ({ s.commit env batch with gc := gc } : KVStore).wal.records
      = s.wal.records ++ (s.plan env batch).2.filterMap Entry.walRecord := by
    rw [hwal, commit_wal hb hsync]
    split_ifs with hnil
    · subst hnil
      exact (List.append_nil _).symm
    · exact h.records_append _
  obtain ⟨hle, hstamps, hshort', hstart⟩ := h.append hrec rfl hlen (by rw [hlen]; exact hst) hkeys
  refine ⟨⟨wal_commit_ok h.toOk batch, ?_, hle, hstamps, hshort'⟩, hstart⟩
  rw [hwal, commit_wal hb hsync]
  split_ifs <;> exact h.pos

theorem kill (hb : s.wal.buffer = []) (hshort : ShortKeys batch) (n : ℕ) :
    WalSuffix (s.kill env batch n) ∧ (s.kill env batch n).walStart = s.walStart := by
  obtain ⟨hlen, hst, hkeys⟩ := plan_records env s hshort
  have hrec : (s.kill env batch n).wal.records
      = s.wal.records ++ ((s.plan env batch).2.filterMap Entry.walRecord).take n := by
    unfold KVStore.kill
    rw [Wal.records]
    dsimp only
    rw [hb, List.nil_append]
    exact h.records_append _
  have hhist : (s.kill env batch n).history = s.history ++ (userOps batch).take n := by
    unfold KVStore.kill
    rw [hb]
    rfl
  obtain ⟨hle, hstamps, hshort', hstart⟩ := h.append hrec hhist
    (by rw [List.length_take, List.length_take, hlen])
    (by
      rw [List.map_take, hst, List.length_take, hlen, List.range'_eq_map_range, ← List.map_take,
        List.take_range, ← List.range'_eq_map_range])
    (fun r hr => hkeys r (List.mem_of_mem_take hr))
  exact ⟨⟨h.insert_current _ _, h.pos, hle, hstamps, hshort'⟩, hstart⟩

/-- A step that leaves the WAL and the history alone. -/
theorem frame (hw : s'.wal = s.wal) (hh : s'.history = s.history) :
    WalSuffix s' where
  toOk := hw ▸ h.toOk
  pos := hw ▸ h.pos
  length_le := by
    rw [hw, hh]
    exact h.length_le
  stamps := by
    unfold walStart
    rw [hw, hh]
    exact h.stamps
  short := hw ▸ h.short

theorem maybeFlush (hs : s.maybeFlush = some s') : WalSuffix s' ∧ s'.walStart = s.walStart := by
  obtain ⟨-, rfl⟩ := maybeFlush_cases hs
  have hrec : s.wal.rotate.records = s.wal.records := h.records_openSegment
  have hstart : s.history.length - s.wal.rotate.records.length = s.walStart := by
    rw [hrec]
    rfl
  refine ⟨?_, hstart⟩
  refine
    { toOk := h.rotate
      pos := Nat.succ_pos _
      length_le := hrec ▸ h.length_le
      stamps := ?_
      short := hrec ▸ h.short }
  show s.wal.rotate.records.map WalRecord.stamp
    = List.range' (s.history.length - s.wal.rotate.records.length + 1) s.wal.rotate.records.length
  rw [hstart, hrec]
  exact h.stamps

theorem walRemoveFail {id : ℕ} (hs : s.walRemoveFail id = some s') :
    WalSuffix s' ∧ s'.walStart = s.walStart := by
  obtain ⟨-, rfl⟩ := walRemoveFail_cases hs
  exact ⟨{ h with
    removals_lt := fun id' hid' => h.removals_lt id' (List.mem_of_mem_erase hid') }, rfl⟩

/-- **The oldest segment is removed**: the WAL starts after its records. -/
theorem walRemove {id : ℕ} (hold : ∀ j rs, s.wal.segments.get j = some rs → id ≤ j)
    (hs : s.walRemove id = some s') :
    WalSuffix s' ∧ s'.walStart = s.walStart + ((s.wal.segments.get id).getD []).length := by
  have hok := (walRemove_ok h.toOk hs).1
  obtain ⟨-, rfl⟩ := walRemove_cases hs
  cases hget : s.wal.segments.get id with
  | none =>
    rw [OrdMap.erase_of_get_none _ hget] at hok ⊢
    exact ⟨{ h with toOk := hok }, rfl⟩
  | some gone =>
    obtain ⟨tail, hentries, htail⟩ := s.wal.segments.exists_entries_cons hget hold
    have hrec : s.wal.records = gone ++ tail.flatMap Prod.snd := by
      rw [Wal.records, hentries]
      rfl
    have hle := h.length_le
    have hst := h.stamps
    rw [hrec, List.length_append] at hle hst
    have hstart : s.history.length - (tail.flatMap Prod.snd).length
        = s.walStart + gone.length := by
      unfold walStart
      rw [hrec, List.length_append]
      omega
    have hrec' : ({ s.wal with
        segments := s.wal.segments.erase id
        removals := s.wal.removals.erase id } : Wal).records = tail.flatMap Prod.snd := by
      unfold Wal.records
      rw [htail]
    refine ⟨?_, ?_⟩
    · refine
        { toOk := hok
          pos := h.pos
          length_le := ?_
          stamps := ?_
          short := fun r hr => h.short r ?_ }
      · rw [hrec']
        show _ ≤ s.history.length
        omega
      · unfold walStart
        rw [hrec']
        show _ = List.range' (s.history.length - _ + 1) _
        rw [hstart]
        rw [List.map_append, ← List.range'_append] at hst
        have hcut := List.append_inj_right hst (by simp)
        rw [hcut]
        congr 1
        omega
      · rw [hrec'] at hr
        rw [hrec]
        exact List.mem_append_right gone hr
    · unfold walStart
      rw [hrec']
      exact hstart

/-! ## Recovery -/

/-- Recovery goes on with the last segment. -/
theorem wal_recover (env : Env) : (KVStore.recover env s).wal =
    { segments := Wal.openSegment s.wal.segments s.wal.current, current := s.wal.current } := by
  obtain ⟨rs, hrs⟩ := h.current_mem
  have hmax : s.wal.segments.maxKey = s.wal.current := OrdMap.maxKey_eq hrs h.le_current
  unfold KVStore.recover
  dsimp only
  rw [hmax, if_pos h.pos]

theorem recover (env : Env) :
    WalSuffix (KVStore.recover env s) ∧ (KVStore.recover env s).walStart = s.walStart := by
  have hwal := h.wal_recover env
  have hrec : (KVStore.recover env s).wal.records = s.wal.records := by
    rw [hwal]
    exact h.openSegment_current
  have hstart : (KVStore.recover env s).walStart = s.walStart := by
    unfold walStart
    rw [hrec]
    rfl
  exact ⟨
    { toOk := wal_recover_ok env s
      pos := by rw [hwal]; exact h.pos
      length_le := by rw [hrec]; exact h.length_le
      stamps := by rw [hstart, hrec]; exact h.stamps
      short := by rw [hrec]; exact h.short }, hstart⟩

end

end WalSuffix

/-- What is replayed is what is on disk, in order. -/
theorem replayed_eq (env : Env) {w : Wal} (hids : ∀ id ∈ w.segments.keys, id < 10 ^ 6)
    (hshort : ∀ r ∈ w.records, r.key.length ≤ maxFieldSize) : replayed env w = w.records := by
  unfold replayed
  rw [walOrder_eq env hids, Wal.records, OrdMap.keys, List.flatMap_map]
  refine List.flatMap_congr (fun e he => ?_)
  have hget := (OrdMap.mem_entries_iff _).mp (show (e.1, e.2) ∈ w.segments.entries from he)
  rw [hget, Option.getD_some, replay]
  refine List.takeWhile_eq_self_iff.mpr (fun r hr => decide_eq_true ?_)
  exact hshort r (mem_records.mpr ⟨e.1, e.2, hget, hr⟩)

/-- **Replaying the records of the operations from a time on** gives each key
it has a record of the last of them. -/
theorem covers_replay {h : History} {x : ℕ} {rs : List WalRecord}
    (hst : rs.map WalRecord.stamp = List.range' (x + 1) rs.length)
    (hop : ∀ r ∈ rs, ∃ op, h.opAt r.stamp = some op ∧ op.key = r.key) :
    Covers h (rs.foldl (fun m r => m.insert r.key (replayCell r)) .empty) x (x + rs.length) := by
  induction rs using List.reverseRecOn with
  | nil =>
    intro k
    refine ⟨fun c hc => ?_, fun _ => History.lastStamp_take_le h k x⟩
    cases hc
  | append_singleton rs r ih =>
    rw [List.map_append, List.map_singleton, List.length_append, List.length_singleton,
      ← List.range'_append, List.range'_one] at hst
    obtain ⟨hst', hr⟩ := List.append_inj hst (by simp)
    have hstamp : r.stamp = x + rs.length + 1 := by
      have := List.singleton_inj.mp hr
      omega
    have hih := ih hst' (fun q hq => hop q (List.mem_append_left _ hq))
    obtain ⟨op, hop, hkey⟩ := hop r (List.mem_append_right _ (List.mem_singleton.mpr rfl))
    have hlen := History.le_length_of_opAt hop
    -- the history as of the record is the history before it and its operation
    have htake : h.take (x + (rs.length + 1)) = h.take (x + rs.length) ++ [op] := by
      rw [← Nat.add_assoc, List.take_add_one]
      rw [hstamp, History.opAt, if_neg (by omega), Nat.add_sub_cancel] at hop
      rw [hop]
      rfl
    have hlast : ∀ k, History.lastStamp (h.take (x + (rs.length + 1))) k
        = if r.key = k then x + rs.length + 1
          else History.lastStamp (h.take (x + rs.length)) k := by
      intro k
      rw [htake, History.lastStamp_append_singleton, hkey, List.length_take, min_eq_left (by omega)]
    rw [List.foldl_append, List.length_append, List.length_singleton]
    intro k
    rw [List.foldl_cons, List.foldl_nil, OrdMap.get_insert, hlast]
    by_cases hk : k = r.key
    · rw [if_pos hk, if_pos hk.symm]
      refine ⟨fun c hc => ?_, fun hnone => by cases hnone⟩
      cases hc
      exact hstamp
    · rw [if_neg hk, if_neg (Ne.symm hk)]
      exact hih k

/-- **What recovery puts in the memtable**: for each key it has a record of,
the last operation. -/
theorem covers_recover (env : Env) (hc : Cells s) (hw : WalSuffix s)
    (hids : ∀ id ∈ s.wal.segments.keys, id < 10 ^ 6) :
    Covers s.history (KVStore.recover env s).active s.walStart s.history.length := by
  have hcov := covers_replay (h := s.history) hw.stamps (fun r hr => by
    obtain ⟨id, rs, hrs, hr⟩ := mem_records.mp hr
    obtain ⟨op, hop, hk, -⟩ := hc.wal id rs hrs r hr
    exact ⟨op, hop, hk⟩)
  have hlen : s.walStart + s.wal.records.length = s.history.length := by
    have := hw.length_le
    unfold walStart
    omega
  rw [hlen] at hcov
  show Covers s.history ((replayed env s.wal).foldl _ .empty) _ _
  rw [replayed_eq env hids hw.short]
  exact hcov

/-! ## Recovery rolls no key back -/

/-- **The condition on a step**: a segment is removed only when it is the
oldest on disk, and at a kill the ids of the segments have at most six
digits. The clients' requests are synchronous and fit their encoding, with
keys that replay believes. No garbage is collected. -/
def OldestFirst (s : KVStore) : EngineAction → Prop
  | .commit batch => FittingBatch batch ∧ WalSuffix.ShortKeys batch
  | .crash batch _ => FittingBatch batch ∧ WalSuffix.ShortKeys batch
      ∧ ∀ id ∈ s.wal.segments.keys, id < 10 ^ 6
  | .walRemove id => ∀ j ∈ s.wal.segments.keys, id ≤ j
  | .gcStart | .gcScan | .gcFinish => False
  | _ => True

instance (s : KVStore) (a : EngineAction) : Decidable (OldestFirst s a) := by
  apply EngineAction.casesOn (motive := fun a => Decidable (OldestFirst s a)) a <;> intros <;>
    unfold OldestFirst <;> infer_instance

theorem OldestFirst.fitting (h : OldestFirst s a) : Fitting a := by
  cases a with
  | commit batch | crash batch n => exact h.1
  | _ => trivial

/-- The ids after a kill are those before. -/
theorem keys_kill (hw : WalSuffix s) {n id : ℕ} (h : id ∈ (s.kill env batch n).wal.segments.keys) :
    id ∈ s.wal.segments.keys := by
  obtain ⟨rs, hrs⟩ := (OrdMap.mem_keys_iff _).mp h
  rcases OrdMap.get_insert_cases hrs with ⟨hid, -⟩ | ⟨-, hrs'⟩
  · rw [hid]
    exact (OrdMap.mem_keys_iff _).mpr hw.current_mem
  · exact (OrdMap.mem_keys_iff _).mpr ⟨rs, hrs'⟩

/-- A store just created. -/
theorem walSuffix_fresh : WalSuffix {} where
  toOk := wal_fresh_ok
  pos := Nat.one_pos
  length_le := Nat.le_refl 0
  stamps := rfl
  short r hr := by cases hr

/-- **A step that meets the condition keeps the WAL an end of the history.** -/
theorem WalSuffix.step (h : WalSuffix s) (hc : Cells s) (ha : OldestFirst s a)
    (hs : s.step env a = some s') : WalSuffix s' := by
  have haside : a.Aside → WalSuffix s' := by
    intro ha
    obtain ⟨-, -, hwal, hhistory, -⟩ := aside_frame ha hs
    exact h.frame hwal hhistory
  cases a with
  | commit batch =>
    obtain ⟨hen, rfl⟩ := step_commit_cases hs
    exact (h.commit hc.walBuffer (fun r hr => (hc.fits hen ha.1 r hr).1) ha.2 _).1
  | maybeFlush => exact (h.maybeFlush hs).1
  | walRemove id =>
    exact (h.walRemove (fun j rs hrs => ha j ((OrdMap.mem_keys_iff _).mpr ⟨rs, hrs⟩)) hs).1
  | walRemoveFail id => exact (h.walRemoveFail hs).1
  | gcFinish => exact ha.elim
  | crash batch n =>
    obtain ⟨-, rfl⟩ := step_crash_cases hs
    exact ((h.kill hc.walBuffer ha.2.1 n).1.recover env).1
  | _ => exact haside trivial

/-- The cells of a store have their meaning and its WAL is an end of its
history. -/
structure Journal (s : KVStore) : Prop where
  cells : Cells s
  suffix : WalSuffix s

theorem Journal.step (h : Journal s) (ha : OldestFirst s a) (hs : s.step env a = some s') :
    Journal s' := by
  refine ⟨h.cells.step (fun hscan => ?_) ha.fitting hs, h.suffix.step h.cells ha hs⟩
  subst hscan
  exact ha.elim

theorem Journal.run {as : List EngineAction} (h : Journal s)
    (hok : RunOk (KVStore.step env) OldestFirst s as)
    (hrun : runSteps (KVStore.step env) s as = some s') : Journal s' :=
  invariant_of_runOk (fun _ _ _ h ha hs => Journal.step h ha hs) h hok hrun

/-- **Recovery rolls no key back.** In every run whose steps meet the
condition, no entry that a recovery's replay puts in the memtable is older, in
commit order, than an entry for the same key in a table of the version it
recovers. -/
theorem active_recover_not_older {as : List EngineAction} {batch : List WriteRequest} {n : ℕ}
    (hok : RunOk (KVStore.step env) OldestFirst {} (as ++ [.crash batch n]))
    (hrun : runSteps (KVStore.step env) {} (as ++ [.crash batch n]) = some s)
    {k : Key} {c : Cell} (hactive : s.active.get k = some c) :
    ∀ level, ∀ f ∈ s.lsm.vs.current.files level, ∀ c',
      (fileContents s.lsm.tables f).get k = some c' → c'.stamp ≤ c.stamp := by
  intro level f _ c' htable
  obtain ⟨t, ht, hcrash⟩ := runSteps_append.mp hrun
  obtain ⟨hok, hlast⟩ := runOk_append.mp hok
  obtain ⟨hcells, hwal⟩ := Journal.run ⟨cells_fresh, walSuffix_fresh⟩ hok ht
  obtain ⟨u, hu, hnil⟩ := runSteps_cons.mp hcrash
  cases hnil
  obtain ⟨hfit, hshort, hids⟩ := (hlast t ht).1
  obtain ⟨hen, rfl⟩ := step_crash_cases hu
  have hkill : Cells (t.kill env batch n) := hcells.kill hen hfit n
  have hwal' : WalSuffix (t.kill env batch n) := (hwal.kill hcells.walBuffer hshort n).1
  -- the entry replayed is the key's last operation, and the other one some operation on it
  have hcov := (covers_recover env hkill hwal'
    (fun id hid => hids id (keys_kill hwal hid)) k).1 c hactive
  rw [List.take_length] at hcov
  obtain ⟨op, hop, rfl, -⟩ := hkill.recover.cells.lsm.of_file htable
  rw [hcov]
  exact History.le_lastStamp hop

/-- A put is flushed and its segment removed, and the key overwritten. -/
def segmentRemoved : List EngineAction :=
  [.commit [{ key := [97], value := [1] }], .maybeFlush, .flushStart, .flushCommit, .flushClear,
    .walRemove 1, .commit [{ key := [97], value := [2] }]]

theorem active_recover_not_older_segmentRemoved :
    let s := finalState (KVStore.step .small) {} (segmentRemoved ++ [.crash [] 0])
    ((s.lsm.vs.current.files 0).map (fun f =>
        ((fileContents s.lsm.tables f).get [97]).map Cell.stamp)) = [some 1]
      ∧ ∃ c, s.active.get [97] = some c
        ∧ ∀ level, ∀ f ∈ s.lsm.vs.current.files level, ∀ c',
          (fileContents s.lsm.tables f).get [97] = some c' → c'.stamp ≤ c.stamp :=
  have hget :
      (finalState (KVStore.step .small) {} (segmentRemoved ++ [.crash [] 0])).active.get [97]
        = some ⟨⟨2, 9, 1⟩, 2⟩ := by decide +kernel
  ⟨by decide +kernel, _, hget, active_recover_not_older (by decide +kernel)
    (runSteps_eq_finalState (by decide +kernel)) hget⟩

/-- A put is flushed and the process killed before its segment is removed. The
key is overwritten, the overwriting put flushed, and its own segment
removed. -/
def leftoverSegment : List EngineAction :=
  [.commit [{ key := [97], value := [1] }], .maybeFlush, .flushStart, .flushCommit, .flushClear,
    .crash [] 0, .commit [{ key := [97], value := [2] }], .maybeFlush, .flushStart, .flushCommit,
    .flushClear, .walRemove 2, .crash [] 0]

/-- **A flushed value is shadowed by an earlier one.** The second recovery
replays the segment left over from before the first. -/
theorem active_leftoverSegment :
    let s := finalState (KVStore.step .small) {} leftoverSegment
    (runSteps (KVStore.step .small) {} leftoverSegment).isSome = true
      ∧ s.wal.segments.keys = [1, 3]
      ∧ (s.active.get [97]).map Cell.stamp = some 1
      ∧ ((s.lsm.vs.current.files 0).map (fun f =>
          ((fileContents s.lsm.tables f).get [97]).map Cell.stamp)) = [some 2, some 1]
      ∧ s.get .small [97] = some [1] ∧ s.history.value [97] = some [2] := by
  decide +kernel

end KVStore
