import ForgeLSM.Layers
import ForgeLSM.LsmRecovery

/-!
# What is on disk

When a memtable is handed off, its WAL segment is retired at once, and two
tasks are queued on two pools: the flush of the memtable, and the removal of
the segment. Nothing orders them. If the removal comes first, what the
memtable holds is nowhere on disk until the flush is logged.

This module shows what orderly removals give (`Orderly`): a segment is removed
only once the flush of its memtable is logged, and only when no older segment
is left. Then the WAL starts no later than the tables stop (`DurableAt`), and
the last operation on every key is in a WAL segment on disk or in the tables
the MANIFEST replays to (`DurableAt.present`). Killing the process at any
point, and reopening, keeps all this (`DurableAt.crash`).
-/

/-- The segments up to one hold no operation after a time. -/
def Wal.UpTo (w : Wal) (i y : ℕ) : Prop :=
  ∀ j rs, j ≤ i → w.segments.get j = some rs → ∀ r ∈ rs, r.stamp ≤ y

namespace Wal.UpTo

variable {w w' : Wal} {i y : ℕ}

theorem mono (h : w.UpTo i y) {y' : ℕ} (hy : y ≤ y') : w.UpTo i y' :=
  fun j rs hj hrs r hr => le_trans (h j rs hj hrs r hr) hy

/-- Newer segments do not matter, and older ones may go. -/
theorem of_get (h : w.UpTo i y) (hsub : ∀ j rs, j ≤ i → w'.segments.get j = some rs →
    w.segments.get j = some rs) : w'.UpTo i y :=
  fun j rs hj hrs => h j rs hj (hsub j rs hj hrs)

/-- A segment newer than these is written. -/
theorem insert (h : w.UpTo i y) {id : ℕ} (hi : i < id) {rs : List WalRecord}
    (hw : w'.segments = w.segments.insert id rs) : w'.UpTo i y := by
  refine h.of_get (fun j rs' hj hget => ?_)
  rwa [hw, OrdMap.get_insert_of_ne _ _ (by omega)] at hget

end Wal.UpTo

namespace KVStore

variable {env : Env} {s s' : KVStore} {b b' : ℕ} {a : EngineAction}

/-- No record is of an operation yet to come. -/
theorem WalSuffix.stamp_le (h : WalSuffix s) {r : WalRecord} (hr : r ∈ s.wal.records) :
    r.stamp ≤ s.history.length := by
  have hmem : r.stamp ∈ List.range' (s.walStart + 1) s.wal.records.length :=
    h.stamps ▸ List.mem_map_of_mem hr
  have hlen := h.length_le
  rw [List.mem_range'_1] at hmem
  unfold walStart at hmem
  omega

/-- The records of the oldest segment are the first. -/
theorem WalSuffix.stamps_oldest (h : WalSuffix s) {id : ℕ} {gone : List WalRecord}
    (hget : s.wal.segments.get id = some gone)
    (hold : ∀ j rs, s.wal.segments.get j = some rs → id ≤ j) :
    gone.map WalRecord.stamp = List.range' (s.walStart + 1) gone.length := by
  obtain ⟨tail, hentries, -⟩ := s.wal.segments.exists_entries_cons hget hold
  have hrec : s.wal.records = gone ++ tail.flatMap Prod.snd := by
    rw [Wal.records, hentries]
    rfl
  have hst := h.stamps
  rw [hrec, List.map_append, List.length_append, ← List.range'_append] at hst
  exact List.append_inj_left hst (by simp)

/-- **What is on disk of a store**: the tables have the history up to `b`, and
the WAL starts no later. A segment due for removal belongs to a memtable that
waits, or has nothing the tables lack. -/
structure DurableAt (env : Env) (s : KVStore) (b : ℕ) : Prop where
  pipeline : Pipeline env s
  cells : Cells s
  suffix : WalSuffix s
  shallow : s.lsm.Shallow
  layers : Layers env s b
  start_le : s.walStart ≤ b
  removals : ∀ i ∈ s.wal.removals, (∃ t ∈ s.pending, t.walId = i) ∨ s.wal.UpTo i b
  tasks : ∀ t ∈ s.pending, t.walId < s.wal.current ∧ s.wal.UpTo t.walId t.upTo

namespace DurableAt

theorem of_fresh : DurableAt env {} 0 where
  pipeline := Pipeline.of_empty Lsm.inv_fresh rfl rfl rfl rfl
  cells := cells_fresh
  suffix := walSuffix_fresh
  shallow := .of_fresh
  layers := .of_fresh
  start_le := le_refl 0
  removals i hi := by cases hi
  tasks t ht := by cases ht

section

variable (h : DurableAt env s b)
include h

/-- **The last operation on every key is on disk**: in a record of the WAL, or
in the tables the MANIFEST replays to. -/
theorem present (k : Key) :
    (∃ r ∈ s.wal.records, r.key = k ∧ r.stamp = s.history.lastStamp k)
      ∨ (live ((s.lsm.reopen env).lookup env k)).map Cell.stamp = s.history.putStamp k := by
  have hle := h.layers.chain.le_length
  rcases Nat.lt_or_ge b (s.history.lastStamp k) with hlt | hge
  · -- the tables stop before it, so the WAL has it
    left
    have hlast := History.lastStamp_le_length s.history k
    have hlen := h.suffix.length_le
    have hstart := h.start_le
    have hmem : s.history.lastStamp k ∈ s.wal.records.map WalRecord.stamp := by
      rw [h.suffix.stamps, List.mem_range'_1]
      unfold walStart at hstart ⊢
      omega
    obtain ⟨r, hr, hst⟩ := List.mem_map.mp hmem
    obtain ⟨id, rs, hrs, hr'⟩ := mem_records.mp hr
    obtain ⟨op, hop, hkey, -⟩ := h.cells.wal id rs hrs r hr'
    have hop' : s.history.opAt r.stamp = some op := hop
    rw [hst] at hop'
    exact ⟨r, hr, hkey.symm.trans (History.key_of_opAt_lastStamp hop'), hst⟩
  · right
    rw [h.shallow.lookup_reopen h.pipeline.lsm.shape, h.layers.tables k]
    have htake := History.putStamp_take_take (h := s.history) hle (k := k)
      (by rwa [List.take_length])
    rwa [List.take_length] at htake

/-! ## Steps -/

/-- A step that leaves the WAL and the history alone and takes the tables
some way on. -/
theorem advance (hp : Pipeline env s') (hc : Cells s') (hsh : s'.lsm.Shallow) (hw : s'.wal = s.wal)
    (hh : s'.history = s.history) (ha : s'.active = s.active) (hadv : Advances env s s' b b') :
    DurableAt env s' b' := by
  have hl := h.layers.advance h.cells.toPointed hadv hh ha
  have hstart : s'.walStart = s.walStart := by
    unfold walStart
    rw [hw, hh]
  rcases hadv with ⟨rfl, hpend, -⟩ | ⟨t, hpend, rfl, -⟩
  · exact
      { pipeline := hp
        cells := hc
        suffix := h.suffix.frame hw hh
        shallow := hsh
        layers := hl
        start_le := hstart ▸ h.start_le
        removals := by
          rw [hw, hpend]
          exact h.removals
        tasks := by
          rw [hw, hpend]
          exact h.tasks }
  · have hle : b ≤ t.upTo := by
      have hchain := h.layers.chain
      rw [hpend] at hchain
      exact hchain.1
    have hmem : ∀ q ∈ s'.pending, q ∈ s.pending := fun q hq =>
      hpend ▸ List.mem_cons_of_mem t hq
    have hhead : t ∈ s.pending := hpend ▸ List.mem_cons_self
    refine
      { pipeline := hp
        cells := hc
        suffix := h.suffix.frame hw hh
        shallow := hsh
        layers := hl
        start_le := by
          rw [hstart]
          exact le_trans h.start_le hle
        removals := fun i hi => ?_
        tasks := fun q hq => by
          rw [hw]
          exact h.tasks q (hmem q hq) }
    rw [hw] at hi ⊢
    rcases h.removals i hi with ⟨q, hq, rfl⟩ | hup
    · -- the segment of the memtable just logged has nothing the tables lack
      rw [hpend] at hq
      rcases List.mem_cons.mp hq with rfl | hq
      · exact Or.inr (h.tasks q hhead).2
      · exact Or.inl ⟨q, hq, rfl⟩
    · exact Or.inr (hup.mono hle)

theorem commit {batch : List WriteRequest} (hen : s.gcEnabled batch = true)
    (hfit : FittingBatch batch) (hshort : WalSuffix.ShortKeys batch)
    (hfresh : FreshRelocations s.active s.history batch) :
    DurableAt env { s.commit env batch with gc := s.gcAfter batch } b := by
  have hsync : ∀ r ∈ batch, r.sync = true := fun r hr => (h.cells.fits hen hfit r hr).1
  have hsuffix : WalSuffix { s.commit env batch with gc := s.gcAfter batch } ∧ _ = s.walStart :=
    h.suffix.commit h.cells.walBuffer hsync hshort (s.gcAfter batch)
  obtain ⟨hwal, hstart⟩ := hsuffix
  have hpend : ({ s.commit env batch with gc := s.gcAfter batch } : KVStore).pending = s.pending :=
    rfl
  have hup : ∀ i y, i < s.wal.current → s.wal.UpTo i y → (s.commit env batch).wal.UpTo i y := by
    intro i y hi hup
    rw [commit_wal h.cells.walBuffer hsync]
    split_ifs
    · exact hup
    · exact hup.insert hi rfl
  have hsame : (s.commit env batch).wal.removals = s.wal.removals
      ∧ (s.commit env batch).wal.current = s.wal.current := by
    rw [commit_wal h.cells.walBuffer hsync]
    split_ifs <;> exact ⟨rfl, rfl⟩
  refine
    { pipeline := h.pipeline.commit batch
      cells := h.cells.commit hen hfit
      suffix := hwal
      shallow := h.shallow
      layers := h.layers.commit h.cells.toPointed hen hfresh _
      start_le := hstart ▸ h.start_le
      removals := fun i hi => ?_
      tasks := fun t ht => ?_ }
  · have hi' : i ∈ (s.commit env batch).wal.removals := hi
    rw [hsame.1] at hi'
    rw [hpend]
    exact (h.removals i hi').imp_right (hup i b (h.suffix.removals_lt i hi'))
  · rw [hpend] at ht
    obtain ⟨hlt, hold⟩ := h.tasks t ht
    exact ⟨by rw [← hsame.2] at hlt; exact hlt, hup _ _ hlt hold⟩

theorem maybeFlush (hs : s.maybeFlush = some s') : DurableAt env s' b := by
  have hpend := pending_maybeFlush h.pipeline hs
  obtain ⟨hwal, hstart⟩ := h.suffix.maybeFlush hs
  have hp := h.pipeline.maybeFlush hs
  have hc := h.cells.step (a := .maybeFlush) (fun _ => h.pipeline) trivial hs
  have hl := h.layers.maybeFlush h.pipeline hs
  obtain ⟨-, rfl⟩ := maybeFlush_cases hs
  -- the segment opened is newer than every one retired
  have hup : ∀ i y, i ≤ s.wal.current → s.wal.UpTo i y → s.wal.rotate.UpTo i y :=
    fun i y hi hup => hup.insert (Nat.lt_succ_of_le hi) rfl
  refine
    { pipeline := hp
      cells := hc
      suffix := hwal
      shallow := h.shallow
      layers := hl
      start_le := hstart ▸ h.start_le
      removals := fun i hi => ?_
      tasks := fun t ht => ?_ }
  · rw [hpend]
    rcases List.mem_append.mp hi with hi | hi
    · rcases h.removals i hi with ⟨t, ht, rfl⟩ | hold
      · exact Or.inl ⟨t, List.mem_append_left _ ht, rfl⟩
      · exact Or.inr (hup i b (le_of_lt (h.suffix.removals_lt i hi)) hold)
    · rw [List.mem_singleton.mp hi]
      exact Or.inl ⟨_, List.mem_append_right _ (List.mem_singleton.mpr rfl), rfl⟩
  · rw [hpend] at ht
    rcases List.mem_append.mp ht with ht | ht
    · obtain ⟨hlt, hold⟩ := h.tasks t ht
      exact ⟨Nat.lt_succ_of_lt hlt, hup _ _ (le_of_lt hlt) hold⟩
    · rw [List.mem_singleton.mp ht]
      refine ⟨Nat.lt_succ_self _, hup _ _ (le_refl _) (fun j rs _ hrs r hr => ?_)⟩
      exact h.suffix.stamp_le (mem_records.mpr ⟨j, rs, hrs, hr⟩)

/-- **A segment whose memtable is logged is removed**, the oldest on disk. -/
theorem walRemove {id : ℕ} (hlogged : ∀ t ∈ s.pending, t.walId ≠ id)
    (hold : ∀ j rs, s.wal.segments.get j = some rs → id ≤ j) (hs : s.walRemove id = some s') :
    DurableAt env s' b := by
  obtain ⟨hwal, hstart⟩ := h.suffix.walRemove hold hs
  have hcells : Cells s' := h.cells.step (a := .walRemove id) nofun trivial
    (show s.step env _ = some s' from hs)
  obtain ⟨hmem, rfl⟩ := walRemove_cases hs
  have hid : s.wal.UpTo id b := by
    rcases h.removals id hmem with ⟨t, ht, heq⟩ | hup
    · exact absurd heq (hlogged t ht)
    · exact hup
  have hup : ∀ i y, s.wal.UpTo i y → ({ s.wal with
      segments := s.wal.segments.erase id
      removals := s.wal.removals.erase id } : Wal).UpTo i y := by
    exact fun i y hup => hup.of_get (fun j rs _ hrs => (OrdMap.get_erase_cases hrs).2)
  refine
    { pipeline := h.pipeline.frame rfl rfl rfl rfl rfl
      cells := hcells
      suffix := hwal
      shallow := h.shallow
      layers := ⟨h.layers.tables, h.layers.chain⟩
      start_le := ?_
      removals := fun i hi =>
        (h.removals i (List.mem_of_mem_erase hi)).imp_right (hup i b)
      tasks := fun t ht => (h.tasks t ht).imp_right (hup _ _) }
  -- the last record of the segment is of the time the WAL starts at afterwards
  rw [hstart]
  cases hget : s.wal.segments.get id with
  | none => exact h.start_le
  | some gone =>
    have hst := h.suffix.stamps_oldest hget hold
    rcases Nat.eq_zero_or_pos gone.length with h0 | hpos
    · rw [Option.getD_some, h0]
      exact h.start_le
    · have hlast : s.walStart + gone.length ∈ gone.map WalRecord.stamp := by
        rw [hst, List.mem_range'_1]
        omega
      obtain ⟨r, hr, hrst⟩ := List.mem_map.mp hlast
      rw [Option.getD_some, ← hrst]
      exact hid id gone (le_refl _) hget r hr

theorem walRemoveFail {id : ℕ} (hs : s.walRemoveFail id = some s') : DurableAt env s' b := by
  have hwal := (h.suffix.walRemoveFail hs).1
  have hcells : Cells s' := h.cells.step (a := .walRemoveFail id) nofun trivial
    (show s.step env _ = some s' from hs)
  obtain ⟨-, rfl⟩ := walRemoveFail_cases hs
  exact
    { pipeline := h.pipeline.frame rfl rfl rfl rfl rfl
      cells := hcells
      suffix := hwal
      shallow := h.shallow
      layers := ⟨h.layers.tables, h.layers.chain⟩
      start_le := h.start_le
      removals := fun i hi => h.removals i (List.mem_of_mem_erase hi)
      tasks := h.tasks }

end

/-- **Recovery from a disk that has everything**: the tables up to `b` and the
WAL from no later on. The memtable has from the WAL what the tables lack. -/
theorem of_recover (hinv : s.lsm.Inv) (hshallow : s.lsm.Shallow) (hcells : Cells s)
    (hwal : WalSuffix s) (hids : ∀ id ∈ s.wal.segments.keys, id < 10 ^ 6)
    (htables : ∀ k, (live (s.lsm.lookup env k)).map Cell.stamp
      = History.putStamp (s.history.take b) k)
    (hle : b ≤ s.history.length) (hstart : s.walStart ≤ b) :
    DurableAt env (KVStore.recover env s) b := by
  obtain ⟨hwal', hstart'⟩ := hwal.recover env
  obtain ⟨hinv', hshallow'⟩ := hshallow.reopen hinv env
  have hremovals : (KVStore.recover env s).wal.removals = [] := by
    rw [hwal.wal_recover env]
  refine
    { pipeline := Pipeline.of_empty hinv' rfl rfl rfl rfl
      cells := hcells.recover
      suffix := hwal'
      shallow := hshallow'
      layers := ⟨fun k => ?_, hle, (covers_recover env hcells hwal hids).mono hstart⟩
      start_le := by rw [hstart']; exact hstart
      removals := fun i hi => by rw [hremovals] at hi; cases hi
      tasks := fun t ht => by cases ht }
  show (live ((s.lsm.reopen env).lookup env k)).map Cell.stamp
    = History.putStamp (s.history.take b) k
  rw [hshallow.lookup_reopen hinv.shape]
  exact htables k

/-- **A kill and the recovery after it** keep what is on disk, and with it all
the rest. -/
theorem crash (h : DurableAt env s b) {batch : List WriteRequest} (hen : s.gcEnabled batch = true)
    (hfit : FittingBatch batch) (hshort : WalSuffix.ShortKeys batch)
    (hids : ∀ id ∈ s.wal.segments.keys, id < 10 ^ 6) (n : ℕ) :
    DurableAt env (KVStore.recover env (s.kill env batch n)) b := by
  have hkill : WalSuffix (s.kill env batch n) ∧ _ = s.walStart :=
    h.suffix.kill h.cells.walBuffer hshort n
  obtain ⟨hwal, hstart⟩ := hkill
  have hle := h.layers.chain.le_length
  refine of_recover h.pipeline.lsm h.shallow (h.cells.kill hen hfit n) hwal
    (fun id hid => hids id (keys_kill h.suffix hid)) (fun k => ?_) ?_ (hstart ▸ h.start_le)
  · show _ = History.putStamp ((s.history ++ _).take b) k
    rw [List.take_append_of_le_length hle]
    exact h.layers.tables k
  · show b ≤ (s.history ++ _).length
    rw [List.length_append]
    exact Nat.le_add_right_of_le hle

end DurableAt

/-! ## Orderly runs -/

/-- **The condition on a step**: a WAL segment is removed only once the flush
of its memtable is logged, and only when it is the oldest on disk; at a kill
the ids of the segments have at most six digits; a compaction takes its source
from L0; a relocation that is not ignored is fresh. The clients' requests are
synchronous and fit their encoding, with keys that replay believes. -/
def Orderly (env : Env) (s : KVStore) : EngineAction → Prop
  | .commit batch => FittingBatch batch ∧ WalSuffix.ShortKeys batch
      ∧ FreshRelocations s.active s.history batch
  | .crash batch _ => FittingBatch batch ∧ WalSuffix.ShortKeys batch
      ∧ ∀ id ∈ s.wal.segments.keys, id < 10 ^ 6
  | .walRemove id => (∀ t ∈ s.pending, t.walId ≠ id) ∧ ∀ j ∈ s.wal.segments.keys, id ≤ j
  | .compactStart => ∀ c ∈ Compaction.start env s.lsm.tables s.lsm.vs.current, c.target.val ≤ 1
  | _ => True

instance (s : KVStore) (a : EngineAction) : Decidable (Orderly env s a) := by
  apply EngineAction.casesOn (motive := fun a => Decidable (Orderly env s a)) a <;> intros <;>
    unfold Orderly <;> infer_instance

theorem Orderly.fitting (h : Orderly env s a) : Fitting a := by
  cases a with
  | commit batch | crash batch n => exact h.1
  | _ => trivial

/-- What is on disk, up to some time. -/
def Durable (env : Env) (s : KVStore) : Prop := ∃ b, DurableAt env s b

/-- Background work keeps the tables at the levels they may be at, if a
compaction takes its source from L0. -/
theorem Pipeline.shallow_background (hp : Pipeline env s) (h : s.lsm.Shallow) (ha : a.Background)
    (hok : a = .compactStart →
      ∀ c ∈ Compaction.start env s.lsm.tables s.lsm.vs.current, c.target.val ≤ 1)
    (hs : s.step env a = some s') : s'.lsm.Shallow := by
  have hcompact : ∀ c, Lsm.Compacting c → (c = .compactStart → a = .compactStart) →
      s.compact env c = some s' → s'.lsm.Shallow := by
    intro c hc heq hs
    obtain ⟨lsm, hl, rfl⟩ := compact_cases hs
    exact h.compact hp.lsm hc (fun hstart => hok (heq hstart)) hl
  have hlogs : a.OnLogs → s'.lsm.Shallow := by
    intro ha
    obtain ⟨wal, vlogs, gc, rfl⟩ := onLogs_cases ha hs
    exact h
  cases a with
  | commit batch | crash batch n => exact ha.elim
  | maybeFlush =>
    obtain ⟨-, rfl⟩ := maybeFlush_cases hs
    exact h
  | flushStart =>
    obtain ⟨_, _, _, -, -, hl, rfl⟩ := flushStart_cases hs
    exact h.flushStart hl
  | flushCommit =>
    obtain ⟨_, -, hl, rfl⟩ := flushCommit_cases hs
    exact h.flushCommit hp.lsm hl
  | flushClear =>
    obtain ⟨_, _, -, -, rfl⟩ := flushClear_cases hs
    exact h
  | compactStart => exact hcompact .compactStart trivial (fun _ => rfl) hs
  | compactOutput => exact hcompact .compactOutput trivial (fun h => by cases h) hs
  | compactCommit => exact hcompact .compactCommit trivial (fun h => by cases h) hs
  | purgeObsoleteFiles => exact hcompact .purgeObsoleteFiles trivial (fun h => by cases h) hs
  | _ => exact hlogs trivial

/-- **An orderly step keeps what is on disk.** -/
theorem Durable.step (h : Durable env s) (ha : Orderly env s a) (hs : s.step env a = some s') :
    Durable env s' := by
  obtain ⟨b, h⟩ := h
  -- a step that leaves the WAL alone takes the tables some way on
  have hback : a.Background → a ≠ .maybeFlush → (∀ id, a ≠ .walRemove id ∧ a ≠ .walRemoveFail id) →
      (a = .compactStart → Orderly env s .compactStart) → Durable env s' := by
    intro hb hflush hremove hstart
    obtain ⟨hp, -, hh⟩ := h.pipeline.background hb hs
    obtain ⟨hact, b', hadv⟩ := h.pipeline.advances_background hb hflush hs b
    exact ⟨b', h.advance hp (h.cells.step (fun _ => h.pipeline) ha.fitting hs)
      (h.pipeline.shallow_background h.shallow hb hstart hs)
      (wal_background hb hflush hremove hs) hh hact hadv⟩
  cases a with
  | commit batch =>
    obtain ⟨hen, rfl⟩ := step_commit_cases hs
    exact ⟨b, h.commit hen ha.1 ha.2.1 ha.2.2⟩
  | maybeFlush => exact ⟨b, h.maybeFlush hs⟩
  | walRemove id =>
    exact ⟨b, h.walRemove ha.1 (fun j rs hrs => ha.2 j ((OrdMap.mem_keys_iff _).mpr ⟨rs, hrs⟩)) hs⟩
  | walRemoveFail id => exact ⟨b, h.walRemoveFail hs⟩
  | crash batch n =>
    obtain ⟨hen, rfl⟩ := step_crash_cases hs
    exact ⟨b, h.crash hen ha.1 ha.2.1 ha.2.2 n⟩
  | compactStart => exact hback trivial (by simp) (by simp) (fun _ => ha)
  | _ => exact hback trivial (by simp) (by simp) (by simp)

/-- **Every orderly run keeps what is on disk.** -/
theorem Durable.run {as : List EngineAction} (h : Durable env s)
    (hok : RunOk (KVStore.step env) (Orderly env) s as)
    (hrun : runSteps (KVStore.step env) s as = some s') : Durable env s' :=
  invariant_of_runOk (fun _ _ _ h ha hs => Durable.step h ha hs) h hok hrun

theorem Durable.view (h : Durable env s) (k : Key) :
    (live (s.lookup env k)).map Cell.stamp = s.history.putStamp k := by
  obtain ⟨b, h⟩ := h
  exact h.layers.view h.pipeline h.cells.toPointed k

end KVStore
