import ForgeLSM.Engine
import ForgeLSM.LsmEntries

/-!
# From the memtable to the tables

A memtable that is full enters the ring and the queue of the flush pool
together, and leaves both together when its table has been logged. The ring
is therefore the queue, newest first (`Pipeline`), and a memtable leaves it
only when the tree answers for its keys. So the background work – the
hand-off, the flush, compaction – changes no read:
`Pipeline.background`.

A read that finds a tombstone returns what one that finds nothing does, and what
is compared is the lookup up to tombstones (`live`): a compaction into the last
level drops them, and a key that was there as deleted is then not there at all.
-/

namespace KVStore

variable {env : Env} {s s' : KVStore}

/-! ## The ring and the queue -/

/-- **The ring is the queue.** This much holds whatever the tables do. -/
structure RingOk (s : KVStore) : Prop where
  /-- The ring holds the memtables of the queue. -/
  ring : Ring.Holds s.immutables s.currentImmIdx (s.flushQueue.map FlushTask.mem).reverse
  /-- The task at the head clears the slot of the oldest. -/
  slots : ∀ j t, s.flushQueue[j]? = some t →
    t.slot = Ring.slotOf 4 (s.currentImmIdx - s.flushQueue.length + j)

namespace RingOk

theorem of_empty (hq : s.flushQueue = []) (hr : s.immutables = fun _ => none) : RingOk s where
  ring := by
    rw [hq, hr]
    exact Ring.holds_nil
  slots j t ht := by
    rw [hq] at ht
    cases ht

theorem frame (h : RingOk s) (hi : s'.immutables = s.immutables)
    (hc : s'.currentImmIdx = s.currentImmIdx) (hq : s'.flushQueue = s.flushQueue) :
    RingOk s' where
  ring := by
    rw [hi, hc, hq]
    exact h.ring
  slots := by
    rw [hc, hq]
    exact h.slots

theorem maybeFlush (h : RingOk s) (hs : s.maybeFlush = some s') : RingOk s' := by
  obtain ⟨hfree, rfl⟩ := maybeFlush_cases hs
  refine ⟨?_, fun j t ht => ?_⟩
  · rw [List.map_append, List.reverse_append]
    exact h.ring.push hfree s.active
  · have hidx := h.ring.length_le_idx
    rw [List.length_reverse, List.length_map] at hidx
    show t.slot = Ring.slotOf 4 (s.currentImmIdx + 1 - (s.flushQueue ++ [_]).length + j)
    rw [List.length_append, List.length_singleton, Nat.add_sub_add_right]
    rcases Nat.lt_or_ge j s.flushQueue.length with hj | hj
    · rw [List.getElem?_append_left hj] at ht
      exact h.slots j t ht
    · rw [List.getElem?_append_right hj, List.getElem?_singleton] at ht
      split_ifs at ht with hlast
      cases ht
      rw [show s.currentImmIdx - s.flushQueue.length + j = s.currentImmIdx by omega]

/-- The oldest memtable leaves the queue, and its slot is cleared. -/
theorem pop (h : RingOk s) {t : FlushTask} {rest : List FlushTask} (hq : s.flushQueue = t :: rest)
    (hi : s'.immutables = Function.update s.immutables t.slot none)
    (hc : s'.currentImmIdx = s.currentImmIdx) (hq' : s'.flushQueue = rest) : RingOk s' := by
  have hidx := h.ring.length_le_idx
  rw [List.length_reverse, List.length_map, hq, List.length_cons] at hidx
  refine ⟨?_, fun j t' ht => ?_⟩
  · have hring := h.ring
    rw [hq, List.map_cons, List.reverse_cons] at hring
    have hslot := h.slots 0 t (by rw [hq]; rfl)
    rw [hq, List.length_cons, Nat.add_zero] at hslot
    have hpop := hring.pop
    rw [hi, hc, hq']
    rwa [List.length_reverse, List.length_map, ← hslot] at hpop
  · rw [hq'] at ht
    have hslot := h.slots (j + 1) t' (by rw [hq]; exact ht)
    rw [hslot, hq, List.length_cons, hc, hq']
    congr 1
    omega

theorem flushClear (h : RingOk s) (hs : s.flushClear = some s') : RingOk s' := by
  obtain ⟨t, rest, hq, -, rfl⟩ := flushClear_cases hs
  exact h.pop hq rfl rfl rfl

/-- The memtables a read looks at, newest first. -/
theorem ringScan_eq (h : RingOk s) : s.ringScan = (s.flushQueue.map FlushTask.mem).reverse :=
  h.ring.scan_eq

/-- The lookup with the memtable at the head of the queue apart, first in and
last looked at. -/
theorem lookup_cons (h : RingOk s) {t : FlushTask} {rest : List FlushTask}
    (hq : s.flushQueue = t :: rest) (k : Key) :
    s.lookup env k
      = ((s.active :: (rest.map FlushTask.mem).reverse).findSome? (fun m => m.get k)).or
        ((t.mem.get k).or (s.lsm.lookup env k)) := by
  have hscan : s.ringScan = (rest.map FlushTask.mem).reverse ++ [t.mem] := by
    rw [h.ringScan_eq, hq, List.map_cons, List.reverse_cons]
  unfold KVStore.lookup
  rw [hscan, ← List.cons_append, List.findSome?_append, Option.or_assoc]
  cases ht : t.mem.get k <;> simp [ht]

end RingOk

/-! ## The invariant -/

/-- **How the memtables on their way to the tables are held.** -/
structure Pipeline (env : Env) (s : KVStore) : Prop extends RingOk s where
  lsm : s.lsm.Inv
  /-- The table of a flush holds the memtable of the task at the head. -/
  written : s.flushPhase = .written → ∃ t rest f, s.flushQueue = t :: rest
    ∧ s.lsm.flushing = some f ∧ fileContents s.lsm.tables f = t.mem
  idle : s.flushPhase ≠ .written → s.lsm.flushing = none
  /-- The tree answers for a memtable whose flush is logged. -/
  committed : s.flushPhase = .committed → ∃ t rest, s.flushQueue = t :: rest
    ∧ ∀ k c, t.mem.get k = some c → live (s.lsm.lookup env k) = live (some c)

namespace Pipeline

/-- A tree at rest, with nothing on the way to it. -/
theorem of_empty (hl : s.lsm.Inv) (hf : s.lsm.flushing = none)
    (hq : s.flushQueue = []) (hp : s.flushPhase = .queued)
    (hr : s.immutables = fun _ => none) : Pipeline env s where
  toRingOk := .of_empty hq hr
  lsm := hl
  written h := by
    rw [hp] at h
    cases h
  idle _ := hf
  committed h := by
    rw [hp] at h
    cases h

section

variable (h : Pipeline env s)
include h

/-- What the invariant does not speak of may change. -/
theorem frame (hl : s'.lsm = s.lsm) (hi : s'.immutables = s.immutables)
    (hc : s'.currentImmIdx = s.currentImmIdx) (hq : s'.flushQueue = s.flushQueue)
    (hp : s'.flushPhase = s.flushPhase) : Pipeline env s' where
  toRingOk := h.toRingOk.frame hi hc hq
  lsm := hl ▸ h.lsm
  written := by
    rw [hp, hq, hl]
    exact h.written
  idle := by
    rw [hp, hl]
    exact h.idle
  committed := by
    rw [hp, hq, hl]
    exact h.committed

theorem maybeFlush (hs : s.maybeFlush = some s') : Pipeline env s' := by
  have hring := h.toRingOk.maybeFlush hs
  obtain ⟨-, rfl⟩ := maybeFlush_cases hs
  refine
    { lsm := h.lsm
      toRingOk := hring
      written := fun hp => ?_
      idle := h.idle
      committed := fun hp => ?_ }
  · obtain ⟨t, rest, f, hq, hf, hm⟩ := h.written hp
    exact ⟨t, rest ++ [_], f, by rw [hq]; rfl, hf, hm⟩
  · obtain ⟨t, rest, hq, hm⟩ := h.committed hp
    exact ⟨t, rest ++ [_], by rw [hq]; rfl, hm⟩

theorem flushStart (hs : s.flushStart env = some s') : Pipeline env s' := by
  obtain ⟨t, rest, lsm, hq, hp, hl, rfl⟩ := flushStart_cases hs
  have hinv := h.lsm.flushStart hl
  obtain ⟨hnone, ⟨hm, rfl⟩ | ⟨hm, rfl⟩⟩ := Lsm.flushStart_cases hl
  -- an empty memtable has no key to answer for
  · refine
      { lsm := hinv
        ring := h.ring
        slots := h.slots
        written := fun hw => by simp [hnone] at hw
        idle := fun _ => hnone
        committed := fun _ => ⟨t, rest, hq, fun k c hc => ?_⟩ }
    rw [← OrdMap.mem_entries_iff, hm] at hc
    cases hc
  · exact
      { lsm := hinv
        ring := h.ring
        slots := h.slots
        written := fun _ => ⟨t, rest, _, hq, rfl,
          fileContents_of_get (OrdMap.get_insert_self _ _ _)⟩
        idle := fun hw => absurd rfl hw
        committed := fun hc => by simp at hc }

theorem flushCommit (hs : s.flushCommit env = some s') : Pipeline env s' := by
  obtain ⟨lsm, hp, hl, rfl⟩ := flushCommit_cases hs
  obtain ⟨t, rest, f, hq, hf, hm⟩ := h.written hp
  refine
    { lsm := h.lsm.flushCommit hl
      ring := h.ring
      slots := h.slots
      written := fun hw => by cases hw
      idle := fun _ => ?_
      committed := fun _ => ⟨t, rest, hq, fun k c hc => ?_⟩ }
  · obtain ⟨g, -, rfl⟩ := Option.map_eq_some_iff.mp hl
    rfl
  · rw [Lsm.lookup_flushCommit h.lsm hf hl k, hm, hc]
    rfl

theorem flushClear (hs : s.flushClear = some s') : Pipeline env s' := by
  have hring := h.toRingOk.flushClear hs
  obtain ⟨t, rest, hq, hp, rfl⟩ := flushClear_cases hs
  exact
    { lsm := h.lsm
      toRingOk := hring
      written := fun hw => by cases hw
      idle := fun _ => h.idle (by rw [hp]; simp)
      committed := fun hc => by cases hc }

theorem compact {a : LsmAction Cell} (ha : Lsm.Compacting a) (hs : s.compact env a = some s') :
    Pipeline env s' := by
  obtain ⟨lsm, hl, rfl⟩ := compact_cases hs
  obtain ⟨hf, hfile⟩ := Lsm.flushing_step h.lsm ha hl
  have hlook : ∀ k, live (lsm.lookup env k) = live (s.lsm.lookup env k) :=
    Lsm.lookup_step h.lsm (by rintro rfl; exact ha) hl
  refine
    { lsm := h.lsm.step hl
      ring := h.ring
      slots := h.slots
      written := fun hw => ?_
      idle := fun hw => hf.trans (h.idle hw)
      committed := fun hc => ?_ }
  · obtain ⟨t, rest, f, hq, hfl, hm⟩ := h.written hw
    exact ⟨t, rest, f, hq, hf.trans hfl, (hfile f hfl).trans hm⟩
  · obtain ⟨t, rest, hq, hm⟩ := h.committed hc
    exact ⟨t, rest, hq, fun k c hk => (hlook k).trans (hm k c hk)⟩

/-! ### Reads -/

theorem live_lookup_maybeFlush (hs : s.maybeFlush = some s') (k : Key) :
    live (s'.lookup env k) = live (s.lookup env k) := by
  have hscan : s'.ringScan = s.active :: s.ringScan := by
    rw [(h.maybeFlush hs).ringScan_eq, h.ringScan_eq]
    obtain ⟨-, rfl⟩ := maybeFlush_cases hs
    rw [List.map_append, List.reverse_append]
    rfl
  obtain ⟨-, rfl⟩ := maybeFlush_cases hs
  unfold KVStore.lookup
  rw [hscan, findSome?_cons_or, OrdMap.get_empty, Option.none_or]

theorem live_lookup_flushStart (hs : s.flushStart env = some s') (k : Key) :
    live (s'.lookup env k) = live (s.lookup env k) := by
  obtain ⟨t, rest, lsm, -, -, hl, rfl⟩ := flushStart_cases hs
  have hl' : s.lsm.step env (.flushStart t.mem) = some lsm := hl
  exact live_or_congr (Lsm.lookup_step h.lsm (by simp) hl' k)

theorem live_lookup_flushCommit (hs : s.flushCommit env = some s') (k : Key) :
    live (s'.lookup env k) = live (s.lookup env k) := by
  have h' := h.flushCommit hs
  obtain ⟨lsm, hp, hl, rfl⟩ := flushCommit_cases hs
  obtain ⟨t, rest, f, hq, hf, hm⟩ := h.written hp
  -- the table logged repeats what the ring still holds
  rw [h'.lookup_cons hq k, h.lookup_cons hq k]
  show live (Option.or _ ((t.mem.get k).or (lsm.lookup env k))) = _
  rw [Lsm.lookup_flushCommit h.lsm hf hl k, hm]
  cases t.mem.get k <;> rfl

theorem live_lookup_flushClear (hs : s.flushClear = some s') (k : Key) :
    live (s'.lookup env k) = live (s.lookup env k) := by
  have h' := h.flushClear hs
  obtain ⟨t, rest, hq, hp, rfl⟩ := flushClear_cases hs
  obtain ⟨t', rest', hq', hm⟩ := h.committed hp
  rw [hq] at hq'
  cases hq'
  have hscan := h'.ringScan_eq
  rw [h.lookup_cons hq k]
  unfold KVStore.lookup
  rw [hscan]
  refine live_or_congr ?_
  cases hc : t.mem.get k with
  | none => rfl
  | some c => exact hm k c hc

theorem live_lookup_compact {a : LsmAction Cell} (ha : Lsm.Compacting a)
    (hs : s.compact env a = some s') (k : Key) :
    live (s'.lookup env k) = live (s.lookup env k) := by
  obtain ⟨lsm, hl, rfl⟩ := compact_cases hs
  exact live_or_congr (Lsm.lookup_step h.lsm (by rintro rfl; exact ha) hl k)

/-! ### Steps -/

theorem commit (batch : List WriteRequest) :
    Pipeline env { s.commit env batch with gc := s.gcAfter batch } :=
  h.frame rfl rfl rfl rfl rfl

end

end Pipeline

end KVStore

/-- The action is of the background: no client's commit, no kill. -/
def EngineAction.Background : EngineAction → Prop
  | .commit _ | .crash _ _ => False
  | _ => True

/-- The action is the garbage collector's. -/
def EngineAction.Collecting : EngineAction → Prop
  | .gcStart | .gcScan | .gcFinish => True
  | _ => False

/-- The action works on the tables, the version and the collector's position
only. -/
def EngineAction.Aside : EngineAction → Prop
  | .flushStart | .flushCommit | .flushClear | .compactStart | .compactOutput | .compactCommit
  | .purgeObsoleteFiles | .gcStart | .gcScan => True
  | _ => False

/-- The action is on the logs only: a removal of a WAL segment, or the
collector's. -/
def EngineAction.OnLogs : EngineAction → Prop
  | .walRemove _ | .walRemoveFail _ | .gcStart | .gcScan | .gcFinish => True
  | _ => False

/-- The action is no kill and no garbage collection. -/
def EngineAction.NoGc : EngineAction → Prop
  | .commit batch => ∀ r ∈ batch, r.isGc = false
  | .crash _ _ | .gcStart | .gcScan | .gcFinish => False
  | _ => True

instance (a : EngineAction) : Decidable a.NoGc := by
  cases a <;> unfold EngineAction.NoGc <;> infer_instance

variable {a : EngineAction}

/-- Such an action is a commit of clients' requests, or background work that is
not the collector's. -/
theorem EngineAction.NoGc.cases (h : a.NoGc) :
    (∃ batch, a = .commit batch ∧ ∀ r ∈ batch, r.isGc = false)
      ∨ a.Background ∧ ¬ a.Collecting := by
  cases a with
  | commit batch => exact Or.inl ⟨batch, rfl, h⟩
  | crash batch n | gcStart | gcScan | gcFinish => exact h.elim
  | _ => exact Or.inr ⟨trivial, id⟩

theorem EngineAction.NoGc.ne_crash (h : a.NoGc) : ∀ b n, a ≠ .crash b n := by
  rintro b n rfl
  exact h

namespace KVStore

variable {env : Env} {s s' : KVStore}

/-- **What work aside leaves alone**: the active memtable, the value logs, the
WAL and the history, and the collector unless it is the collector's own. -/
theorem aside_frame (ha : a.Aside) (hs : s.step env a = some s') :
    s'.active = s.active ∧ s'.vlogs = s.vlogs ∧ s'.wal = s.wal ∧ s'.history = s.history
      ∧ (¬ a.Collecting → s'.gc = s.gc) := by
  cases a with
  | flushStart =>
    obtain ⟨_, _, _, -, -, -, rfl⟩ := flushStart_cases hs
    exact ⟨rfl, rfl, rfl, rfl, fun _ => rfl⟩
  | flushCommit =>
    obtain ⟨_, -, -, rfl⟩ := flushCommit_cases hs
    exact ⟨rfl, rfl, rfl, rfl, fun _ => rfl⟩
  | flushClear =>
    obtain ⟨_, _, -, -, rfl⟩ := flushClear_cases hs
    exact ⟨rfl, rfl, rfl, rfl, fun _ => rfl⟩
  | compactStart | compactOutput | compactCommit | purgeObsoleteFiles =>
    obtain ⟨_, -, rfl⟩ := compact_cases hs
    exact ⟨rfl, rfl, rfl, rfl, fun _ => rfl⟩
  | gcStart =>
    obtain ⟨-, rfl⟩ := gcStart_cases hs
    exact ⟨rfl, rfl, rfl, rfl, fun hgc => absurd trivial hgc⟩
  | gcScan =>
    obtain ⟨_, -, -, ⟨_, _, _, -, -, ⟨_, -, rfl⟩ | ⟨-, rfl⟩⟩ | rfl | ⟨-, rfl⟩⟩ := gcScan_cases hs
    all_goals exact ⟨rfl, rfl, rfl, rfl, fun hgc => absurd trivial hgc⟩
  | _ => exact ha.elim

/-- **What work on the logs leaves alone**: the memtables, the flush queue, the
tables and the history. -/
theorem onLogs_cases (ha : a.OnLogs) (hs : s.step env a = some s') :
    ∃ wal vlogs gc, s' = { s with wal := wal, vlogs := vlogs, gc := gc } := by
  cases a with
  | walRemove id =>
    obtain ⟨-, rfl⟩ := walRemove_cases hs
    exact ⟨_, _, _, rfl⟩
  | walRemoveFail id =>
    obtain ⟨-, rfl⟩ := walRemoveFail_cases hs
    exact ⟨_, _, _, rfl⟩
  | gcStart =>
    obtain ⟨-, rfl⟩ := gcStart_cases hs
    exact ⟨_, _, _, rfl⟩
  | gcScan =>
    obtain ⟨_, -, -, ⟨_, _, _, -, -, ⟨_, -, rfl⟩ | ⟨-, rfl⟩⟩ | rfl | ⟨-, rfl⟩⟩ := gcScan_cases hs
    all_goals exact ⟨_, _, _, rfl⟩
  | gcFinish =>
    obtain ⟨_, -, -, -, rfl⟩ := gcFinish_cases hs
    exact ⟨_, _, _, rfl⟩
  | _ => exact ha.elim

/-- **What background work leaves alone**, the collector's apart: the value
logs, the collector and the history. The active memtable stays or is
swapped. -/
theorem background_frame (ha : a.Background) (hgc : ¬ a.Collecting) (hs : s.step env a = some s') :
    s'.vlogs = s.vlogs ∧ s'.gc = s.gc ∧ s'.history = s.history
      ∧ (s'.active = s.active ∨ s'.active = .empty) := by
  have haside : a.Aside → s'.vlogs = s.vlogs ∧ s'.gc = s.gc ∧ s'.history = s.history
      ∧ (s'.active = s.active ∨ s'.active = .empty) := by
    intro ha
    obtain ⟨hactive, hvlogs, -, hhistory, hkeep⟩ := aside_frame ha hs
    exact ⟨hvlogs, hkeep hgc, hhistory, Or.inl hactive⟩
  cases a with
  | commit batch | crash batch n => exact ha.elim
  | gcFinish => exact absurd trivial hgc
  | maybeFlush =>
    obtain ⟨-, rfl⟩ := maybeFlush_cases hs
    exact ⟨rfl, rfl, rfl, Or.inr rfl⟩
  | walRemove id =>
    obtain ⟨-, rfl⟩ := walRemove_cases hs
    exact ⟨rfl, rfl, rfl, Or.inl rfl⟩
  | walRemoveFail id =>
    obtain ⟨-, rfl⟩ := walRemoveFail_cases hs
    exact ⟨rfl, rfl, rfl, Or.inl rfl⟩
  | _ => exact haside trivial

/-- Of the background only a hand-off and the removals touch the WAL. -/
theorem wal_background (ha : a.Background) (hflush : a ≠ .maybeFlush)
    (hremove : ∀ id, a ≠ .walRemove id ∧ a ≠ .walRemoveFail id) (hs : s.step env a = some s') :
    s'.wal = s.wal := by
  have haside : a.Aside → s'.wal = s.wal := fun ha => (aside_frame ha hs).2.2.1
  cases a with
  | commit batch | crash batch n => exact ha.elim
  | maybeFlush => exact absurd rfl hflush
  | walRemove id => exact absurd rfl (hremove id).1
  | walRemoveFail id => exact absurd rfl (hremove id).2
  | gcFinish =>
    obtain ⟨_, -, -, -, rfl⟩ := gcFinish_cases hs
    rfl
  | _ => exact haside trivial

/-- **What background work changes nothing of, and the pipeline with it.**
The memtables and tables change places and the reads stay what they were. -/
theorem Pipeline.background (h : Pipeline env s) (ha : a.Background) (hs : s.step env a = some s') :
    Pipeline env s' ∧ (∀ k, live (s'.lookup env k) = live (s.lookup env k))
      ∧ s'.history = s.history := by
  have hcompact : ∀ b, Lsm.Compacting b → s.compact env b = some s' → Pipeline env s'
      ∧ (∀ k, live (s'.lookup env k) = live (s.lookup env k)) ∧ s'.history = s.history := by
    intro b hb hs
    refine ⟨h.compact hb hs, h.live_lookup_compact hb hs, ?_⟩
    obtain ⟨_, -, rfl⟩ := compact_cases hs
    rfl
  have hlogs : a.OnLogs → Pipeline env s'
      ∧ (∀ k, live (s'.lookup env k) = live (s.lookup env k)) ∧ s'.history = s.history := by
    intro ha
    obtain ⟨wal, vlogs, gc, rfl⟩ := onLogs_cases ha hs
    exact ⟨h.frame rfl rfl rfl rfl rfl, fun _ => rfl, rfl⟩
  cases a with
  | commit batch | crash batch n => exact ha.elim
  | maybeFlush =>
    refine ⟨h.maybeFlush hs, h.live_lookup_maybeFlush hs, ?_⟩
    obtain ⟨-, rfl⟩ := maybeFlush_cases hs
    rfl
  | flushStart =>
    refine ⟨h.flushStart hs, h.live_lookup_flushStart hs, ?_⟩
    obtain ⟨_, _, _, -, -, -, rfl⟩ := flushStart_cases hs
    rfl
  | flushCommit =>
    refine ⟨h.flushCommit hs, h.live_lookup_flushCommit hs, ?_⟩
    obtain ⟨_, -, -, rfl⟩ := flushCommit_cases hs
    rfl
  | flushClear =>
    refine ⟨h.flushClear hs, h.live_lookup_flushClear hs, ?_⟩
    obtain ⟨_, _, -, -, rfl⟩ := flushClear_cases hs
    rfl
  | compactStart => exact hcompact .compactStart trivial hs
  | compactOutput => exact hcompact .compactOutput trivial hs
  | compactCommit => exact hcompact .compactCommit trivial hs
  | purgeObsoleteFiles => exact hcompact .purgeObsoleteFiles trivial hs
  | _ => exact hlogs trivial

/-- **Every step but a kill keeps the pipeline.** -/
theorem Pipeline.step (h : Pipeline env s) (ha : ∀ b n, a ≠ .crash b n)
    (hs : s.step env a = some s') : Pipeline env s' := by
  by_cases hb : a.Background
  · exact (h.background hb hs).1
  · cases a with
    | commit batch =>
      obtain ⟨-, rfl⟩ := step_commit_cases hs
      exact h.commit batch
    | crash batch n => exact absurd rfl (ha batch n)
    | _ => exact absurd trivial hb

end KVStore
