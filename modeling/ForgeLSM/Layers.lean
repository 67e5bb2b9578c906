import ForgeLSM.WalSuffix

/-!
# The layers of a store

A store is a stack: the tables at the bottom, the memtables waiting to be
flushed on them, the active memtable on top. Each layer carries on the history
where the one below stops. The tables have it up to some time `b`; a frozen
memtable has, for every key written between the time the layer below stops and
the time it was frozen, the last operation of that interval; the active
memtable has the rest (`KVStore.Layers`).

A flush moves the time of the tables up to that of the memtable it logs
(`Layers.advance`). Read from the top the stack gives
the last operation on every key (`Layers.view`).
-/

/-! ## One layer -/

/-- A cell stands for its operation in the history as of any time from the
operation on. -/
theorem CellOk.take {h : History} {vl : Vlogs} {k : Key} {c : Cell} (hc : CellOk h vl k c) {y : ℕ}
    (hy : c.stamp ≤ y) : CellOk (h.take y) vl k c := by
  obtain ⟨op, hop, hk, hp⟩ := hc
  exact ⟨op, by rwa [History.opAt_take hy], hk, hp⟩

namespace Covers

variable {h : History} {m : Memtable} {x y : ℕ}

/-- A layer that is empty adds nothing to what is below. -/
theorem empty (h : History) (y : ℕ) : Covers h .empty y y := by
  refine fun k => ⟨fun c hget => ?_, fun _ => History.lastStamp_take_le h k y⟩
  cases hget

/-- A layer that reaches up to now. -/
theorem now_iff : Covers h m x h.length ↔ ∀ k,
    (∀ c, m.get k = some c → c.stamp = h.lastStamp k) ∧ (m.get k = none → h.lastStamp k ≤ x) := by
  unfold Covers
  rw [List.take_length]

/-- A layer may be set on one that reaches further. -/
theorem mono (hc : Covers h m x y) {x' : ℕ} (hx : x ≤ x') : Covers h m x' y :=
  fun k => ⟨(hc k).1, fun hnone => le_trans ((hc k).2 hnone) hx⟩

/-- A frozen layer is not touched by later operations. -/
theorem append (hc : Covers h m x y) (hy : y ≤ h.length) (t : History) : Covers (h ++ t) m x y := by
  intro k
  rw [List.take_append_of_le_length hy]
  exact hc k

/-- **A layer on one that answers up to its start answers up to its end.** -/
theorem view (hc : Covers h m x y) (hxy : x ≤ y) {vl : Vlogs} {k : Key}
    (hcell : ∀ c, m.get k = some c → CellOk h vl k c) {o : Option Cell}
    (ho : (live o).map Cell.stamp = History.putStamp (h.take x) k) :
    (live ((m.get k).or o)).map Cell.stamp = History.putStamp (h.take y) k := by
  obtain ⟨hsome, hnone⟩ := hc k
  cases hget : m.get k with
  | some c =>
    have hst := hsome c hget
    have hle : c.stamp ≤ y := hst ▸ History.lastStamp_take_le h k y
    exact ((hcell c hget).take hle).live_stamp hst
  | none => exact ho.trans (History.putStamp_take_take hxy (hnone hget))

end Covers

/-- **The memtables on the way carry on the history** from a time to now, each
where the one before stops, the active one last. -/
def Chained (h : History) (active : Memtable) : ℕ → List FlushTask → Prop
  | b, [] => b ≤ h.length ∧ Covers h active b h.length
  | b, t :: ts => b ≤ t.upTo ∧ Covers h t.mem b t.upTo ∧ Chained h active t.upTo ts

namespace Chained

variable {h : History} {active : Memtable} {b : ℕ} {ts : List FlushTask}

section

variable (hc : Chained h active b ts)
include hc

theorem le_length : b ≤ h.length := by
  induction ts generalizing b with
  | nil => exact hc.1
  | cons t ts ih => exact le_trans hc.1 (ih hc.2.2)

/-- The active memtable takes in what is committed; the others stay. -/
theorem append {t : History} {active' : Memtable}
    (hact : ∀ x, Covers h active x h.length → Covers (h ++ t) active' x (h ++ t).length) :
    Chained (h ++ t) active' b ts := by
  induction ts generalizing b with
  | nil =>
    refine ⟨le_trans hc.1 ?_, hact b hc.2⟩
    rw [List.length_append]
    exact Nat.le_add_right _ _
  | cons task ts ih =>
    obtain ⟨hle, hcov, hrest⟩ := hc
    exact ⟨hle, hcov.append hrest.le_length t, ih hrest⟩

/-- The active memtable is frozen and an empty one takes its place. -/
theorem freeze (slot : Fin 4) (walId : ℕ) :
    Chained h .empty b (ts ++ [⟨slot, active, walId, h.length⟩]) := by
  induction ts generalizing b with
  | nil => exact ⟨hc.1, hc.2, le_refl _, Covers.empty h _⟩
  | cons task ts ih => exact ⟨hc.1, hc.2.1, ih hc.2.2⟩

/-- **The stack read from the top gives the last operation**, put on a layer
that answers up to its start. -/
theorem view {vl : Vlogs} {k : Key} (hact : ∀ c, active.get k = some c → CellOk h vl k c)
    (hts : ∀ t ∈ ts, ∀ c, t.mem.get k = some c → CellOk h vl k c) {o : Option Cell}
    (ho : (live o).map Cell.stamp = History.putStamp (h.take b) k) :
    (live (((active :: (ts.map FlushTask.mem).reverse).findSome? (fun m => m.get k)).or o)).map
      Cell.stamp = h.putStamp k := by
  -- the oldest memtable joins what is below it
  induction ts generalizing b o with
  | nil =>
    have htop := hc.2.view hc.1 hact ho
    rw [List.take_length] at htop
    rwa [List.map_nil, List.reverse_nil, findSome?_cons_or, List.findSome?_nil, Option.or_none]
  | cons t ts ih =>
    obtain ⟨hle, hcov, hrest⟩ := hc
    have hbase := hcov.view hle (hts t List.mem_cons_self) ho
    have htop := ih hrest (fun q hq => hts q (List.mem_cons_of_mem t hq)) hbase
    rw [List.map_cons, List.reverse_cons, ← List.cons_append, List.findSome?_append,
      Option.or_assoc]
    cases hget : t.mem.get k <;> simpa [hget] using htop

end

end Chained

namespace KVStore

variable {env : Env} {s s' : KVStore} {b b' : ℕ}

/-! ## The stack -/

/-- The tasks of the flush pool whose tables are not logged yet. -/
def pending (s : KVStore) : List FlushTask :=
  match s.flushPhase with
  | .committed => s.flushQueue.tail
  | _ => s.flushQueue

theorem pending_of_committed (hp : s.flushPhase = .committed) : s.pending = s.flushQueue.tail := by
  unfold pending
  rw [hp]

theorem pending_of_ne (hp : s.flushPhase ≠ .committed) : s.pending = s.flushQueue := by
  unfold pending
  split
  · exact absurd ‹_› hp
  · rfl

theorem mem_flushQueue_of_pending {t : FlushTask} (ht : t ∈ s.pending) : t ∈ s.flushQueue := by
  unfold pending at ht
  split at ht
  · exact List.mem_of_mem_tail ht
  · exact ht

/-- **The stack of a store**: the tables have the history up to a time, and
the memtables carry it on. -/
structure Layers (env : Env) (s : KVStore) (b : ℕ) : Prop where
  tables : ∀ k, (live (s.lsm.lookup env k)).map Cell.stamp = History.putStamp (s.history.take b) k
  chain : Chained s.history s.active b s.pending

/-- The memtable of a task that is logged answers no differently from the
tables. -/
theorem Pipeline.live_lookup_pending (hp : Pipeline env s) (k : Key) :
    live (s.lookup env k)
      = live (((s.active :: (s.pending.map FlushTask.mem).reverse).findSome?
          (fun m => m.get k)).or (s.lsm.lookup env k)) := by
  by_cases hphase : s.flushPhase = .committed
  · obtain ⟨t, rest, hq, hm⟩ := hp.committed hphase
    have hpend : s.pending = rest := by rw [pending_of_committed hphase, hq, List.tail_cons]
    rw [hp.lookup_cons hq k, hpend]
    refine live_or_congr ?_
    cases hget : t.mem.get k with
    | none => rfl
    | some c => exact (hm k c hget).symm
  · unfold KVStore.lookup
    rw [hp.ringScan_eq, pending_of_ne hphase]

/-! ## How the tables get on -/

/-- The pending tasks after a hand-off. -/
theorem pending_maybeFlush (hp : Pipeline env s) (hs : s.maybeFlush = some s') :
    s'.pending = s.pending ++ [⟨Ring.slotOf 4 s.currentImmIdx, s.active, s.wal.current,
      s.history.length⟩] := by
  obtain ⟨-, rfl⟩ := maybeFlush_cases hs
  unfold pending
  cases hphase : s.flushPhase with
  | queued => rfl
  | written => rfl
  | committed =>
    obtain ⟨t, rest, hq, -⟩ := hp.committed hphase
    rw [hq]
    rfl

/-- **How far a step takes the tables**: not at all, or past the first of the
memtables that wait, whose keys they then answer for. -/
def Advances (env : Env) (s s' : KVStore) (b b' : ℕ) : Prop :=
  (b' = b ∧ s'.pending = s.pending
      ∧ ∀ k, live (s'.lsm.lookup env k) = live (s.lsm.lookup env k))
    ∨ ∃ t, s.pending = t :: s'.pending ∧ b' = t.upTo
      ∧ ∀ k, live (s'.lsm.lookup env k) = live ((t.mem.get k).or (s.lsm.lookup env k))

namespace Pipeline

theorem advances_flushStart (hp : Pipeline env s) (hs : s.flushStart env = some s') (b : ℕ) :
    ∃ b', Advances env s s' b b' := by
  obtain ⟨t, rest, lsm, hq, hphase, hl, hs'⟩ := flushStart_cases hs
  have hlook : ∀ k, live (s'.lsm.lookup env k) = live (s.lsm.lookup env k) := by
    rw [hs']
    exact Lsm.lookup_step hp.lsm (by simp)
      (show s.lsm.step env (.flushStart t.mem) = some lsm from hl)
  have hpend : s.pending = t :: rest := by rw [pending_of_ne (by simp [hphase]), hq]
  have hq' : s'.flushQueue = t :: rest := by rw [hs', hq]
  obtain ⟨hnone, ⟨hm, rfl⟩ | ⟨hm, rfl⟩⟩ := Lsm.flushStart_cases hl
  · -- an empty memtable is done with at once
    have hpend' : s'.pending = rest := by
      rw [pending_of_committed (by simp [hs', hnone]), hq', List.tail_cons]
    refine ⟨t.upTo, Or.inr ⟨t, by rw [hpend, hpend'], rfl, fun k => ?_⟩⟩
    have hget : t.mem.get k = none := by
      cases hget : t.mem.get k with
      | none => rfl
      | some c =>
        rw [← OrdMap.mem_entries_iff, hm] at hget
        cases hget
    rw [hget]
    exact hlook k
  · have hpend' : s'.pending = s.pending := by
      rw [pending_of_ne (by simp [hs']), hq', hpend]
    exact ⟨b, Or.inl ⟨rfl, hpend', hlook⟩⟩

theorem advances_flushCommit (hp : Pipeline env s) (hs : s.flushCommit env = some s') (b : ℕ) :
    ∃ b', Advances env s s' b b' := by
  obtain ⟨lsm, hphase, hl, rfl⟩ := flushCommit_cases hs
  obtain ⟨t, rest, f, hq, hf, hm⟩ := hp.written hphase
  have hpend : s.pending = t :: rest := by rw [pending_of_ne (by simp [hphase]), hq]
  have hpend' : ({ s with lsm := lsm, flushPhase := .committed } : KVStore).pending = rest :=
    (pending_of_committed rfl).trans (congrArg List.tail hq)
  refine ⟨t.upTo, Or.inr ⟨t, by rw [hpend, hpend'], rfl, fun k => ?_⟩⟩
  show live (lsm.lookup env k) = _
  rw [Lsm.lookup_flushCommit hp.lsm hf hl k, hm]

theorem advances_compact (hp : Pipeline env s) {a : LsmAction Cell} (ha : Lsm.Compacting a)
    (hs : s.compact env a = some s') (b : ℕ) : Advances env s s' b b := by
  obtain ⟨lsm, hl, rfl⟩ := compact_cases hs
  exact Or.inl ⟨rfl, rfl, Lsm.lookup_step hp.lsm (by rintro rfl; exact ha) hl⟩

end Pipeline

theorem advances_flushClear (hs : s.flushClear = some s') (b : ℕ) : Advances env s s' b b := by
  obtain ⟨t, rest, hq, hphase, rfl⟩ := flushClear_cases hs
  have hpend : rest = s.pending := by rw [pending_of_committed hphase, hq, List.tail_cons]
  exact Or.inl ⟨rfl, hpend, fun _ => rfl⟩

/-- **Background work but the hand-off takes the tables on**, and leaves the
active memtable. -/
theorem Pipeline.advances_background (hp : Pipeline env s) {a : EngineAction} (ha : a.Background)
    (hne : a ≠ .maybeFlush) (hs : s.step env a = some s') (b : ℕ) :
    s'.active = s.active ∧ ∃ b', Advances env s s' b b' := by
  have haside : a.Aside → s'.active = s.active := fun ha => (aside_frame ha hs).1
  have hcompact : ∀ c, Lsm.Compacting c → s.compact env c = some s' →
      ∃ b', Advances env s s' b b' :=
    fun c hc hs => ⟨b, hp.advances_compact hc hs b⟩
  have hlogs : a.OnLogs → s'.active = s.active ∧ ∃ b', Advances env s s' b b' := by
    intro ha
    obtain ⟨wal, vlogs, gc, rfl⟩ := onLogs_cases ha hs
    exact ⟨rfl, b, Or.inl ⟨rfl, rfl, fun _ => rfl⟩⟩
  cases a with
  | commit batch | crash batch n => exact ha.elim
  | maybeFlush => exact absurd rfl hne
  | flushStart => exact ⟨haside trivial, hp.advances_flushStart hs b⟩
  | flushCommit => exact ⟨haside trivial, hp.advances_flushCommit hs b⟩
  | flushClear => exact ⟨haside trivial, b, advances_flushClear hs b⟩
  | compactStart => exact ⟨haside trivial, hcompact .compactStart trivial hs⟩
  | compactOutput => exact ⟨haside trivial, hcompact .compactOutput trivial hs⟩
  | compactCommit => exact ⟨haside trivial, hcompact .compactCommit trivial hs⟩
  | purgeObsoleteFiles => exact ⟨haside trivial, hcompact .purgeObsoleteFiles trivial hs⟩
  | _ => exact hlogs trivial

namespace Layers

theorem of_fresh : Layers env {} 0 where
  tables _ := rfl
  chain := ⟨le_refl 0, Covers.empty [] 0⟩

/-- **A read finds the last operation on its key**, a tombstone counting as
absent. -/
theorem view (h : Layers env s b) (hp : Pipeline env s) (hc : Pointed s) (k : Key) :
    (live (s.lookup env k)).map Cell.stamp = s.history.putStamp k := by
  rw [hp.live_lookup_pending k]
  exact h.chain.view (hc.cells.active k)
    (fun t ht => hc.cells.queue t (mem_flushQueue_of_pending ht) k) (h.tables k)

theorem commit (h : Layers env s b) (hc : Pointed s) {batch : List WriteRequest}
    (hen : s.gcEnabled batch = true) (hfresh : FreshRelocations s.active s.history batch)
    (gc : Option GcJob) : Layers env { s.commit env batch with gc := gc } b where
  tables k := by
    show _ = History.putStamp ((s.history ++ userOps batch).take b) k
    rw [List.take_append_of_le_length h.chain.le_length]
    exact h.tables k
  chain := by
    refine h.chain.append (fun x hcov => Covers.now_iff.mpr (fun k => ?_))
    have hcov := Covers.now_iff.mp hcov
    refine ⟨fun c hget => ?_, fun hnone => ?_⟩
    · exact Vlogs.lastStamp_of_get_put (fun r hr hg => (hc.relocates hen hr hg).1.put) hfresh
        (fun k' c' hc' => (hcov k').1 c' hc') hget
    · rcases Vlogs.get_foldl_put (s.plan env batch).2 s.active k with ⟨e, -, -, hget⟩ | ⟨hne, hget⟩
      · have hget' : (s.commit env batch).active.get k = some _ := hget
        rw [hget'] at hnone
        cases hnone
      · rw [Vlogs.lastStamp_of_not_mem hne]
        exact (hcov k).2 (hget.symm.trans hnone)

theorem maybeFlush (h : Layers env s b) (hp : Pipeline env s) (hs : s.maybeFlush = some s') :
    Layers env s' b := by
  have hpend := pending_maybeFlush hp hs
  obtain ⟨-, rfl⟩ := maybeFlush_cases hs
  refine ⟨h.tables, ?_⟩
  rw [hpend]
  exact h.chain.freeze _ _

/-- **The tables are taken on**: to the time of the memtable logged, if one
is. -/
theorem advance (h : Layers env s b) (hc : Pointed s) (hadv : Advances env s s' b b')
    (hh : s'.history = s.history) (ha : s'.active = s.active) : Layers env s' b' := by
  have hchain := h.chain
  rcases hadv with ⟨rfl, hq, hl⟩ | ⟨t, hq, rfl, hl⟩
  · refine ⟨fun k => ?_, by rwa [hh, ha, hq]⟩
    rw [hl, hh]
    exact h.tables k
  · rw [hq] at hchain
    obtain ⟨hle, hcov, hrest⟩ := hchain
    have hmem : t ∈ s.flushQueue := mem_flushQueue_of_pending (hq ▸ List.mem_cons_self)
    refine ⟨fun k => ?_, by rwa [hh, ha]⟩
    rw [hl, hh]
    exact hcov.view hle (hc.cells.queue t hmem k) (h.tables k)

end Layers

end KVStore
