import ForgeLSM.Pipeline
import ForgeLSM.TableRanges

/-!
# Scans

A scan reads the sources of the store one after the other into a map that
keeps the first pointer it is given for a key: the active memtable, the frozen
memtables, the tables level by level. Then it reads the values. So a key of the
range gets the value of the first source that holds it, as `get` gives it –
provided the sources come in the same order.

The frozen memtables do not. `get` goes back from the counter of the ring;
the scan takes the slots of the array from first to last, and the first is the
newest only now and then. `KVStore.SlotsAgree` says that
the two orders come to the same values, and a scan agrees with `get` just when
it does (`KVStore.scan_agrees_iff_slotsAgree`).
-/

namespace KVStore

variable {env : Env} {s s' : KVStore}

/-! ## The source -/

/-- `add_from_iterator`: the entries of a source in the range, each of them
kept when its key is new. -/
def addFromIterator (startKey endKey : Key) (merged source : OrdMap Key Cell) :
    OrdMap Key Cell :=
  (source.range startKey endKey).foldl (fun acc e => acc.insertNew e.1 e.2) merged

/-- The frozen memtables in the order a scan looks at them, by slot. -/
def slotScan (s : KVStore) : List Memtable := (List.finRange 4).filterMap s.immutables

/-- The table of a file, unless its recorded range is outside the one
scanned or it is not there. -/
def scannedTable (tables : Tables Cell) (startKey endKey : Key) (f : FileMetaData) :
    Option (OrdMap Key Cell) :=
  if f.maxKey < startKey ∨ f.minKey > endKey then none
  else (tables.get f.sequence).map SSTable.contents

/-- The sources of a scan, in its order. -/
def scanSources (s : KVStore) (startKey endKey : Key) : List (OrdMap Key Cell) :=
  s.active :: (s.slotScan ++ (List.finRange maxLevels).flatMap (fun level =>
    (s.lsm.vs.current.files level).filterMap (scannedTable s.lsm.tables startKey endKey)))

/-- **`KVStore::scan`.** -/
def scan (s : KVStore) (startKey endKey : Key) : List (Key × Value) :=
  ((s.scanSources startKey endKey).foldl (addFromIterator startKey endKey) .empty).entries.filterMap
    (fun e => (s.vlogs.readCell (some e.2)).map (fun v => (e.1, v)))

/-! ## What a scan finds -/

/-- The scan collects for a key what the first source has. -/
theorem get_foldl_addFromIterator (startKey endKey : Key) (sources : List (OrdMap Key Cell))
    (m : OrdMap Key Cell) (k : Key) :
    (sources.foldl (addFromIterator startKey endKey) m).get k
      = (m.get k).or (if startKey ≤ k ∧ k ≤ endKey then sources.findSome? (fun n => n.get k)
        else none) := by
  induction sources generalizing m with
  | nil =>
    rw [List.foldl_nil, List.findSome?_nil, ite_self, Option.or_none]
  | cons n sources ih =>
    rw [List.foldl_cons, ih, addFromIterator, OrdMap.get_foldl_insertNew, OrdMap.lookup_range,
      Option.or_assoc, findSome?_cons_or]
    split_ifs <;> rfl

/-- **A scan returns pairs in strictly ascending key order.** -/
theorem scan_sorted (s : KVStore) (startKey endKey : Key) :
    (s.scan startKey endKey).Pairwise (fun a b => a.1 < b.1) := by
  refine List.Pairwise.filterMap _ (fun a b hab p hp q hq => ?_) (OrdMap.sorted _)
  obtain ⟨v, -, rfl⟩ := Option.map_eq_some_iff.mp hp
  obtain ⟨w, -, rfl⟩ := Option.map_eq_some_iff.mp hq
  exact hab

theorem mem_scan_iff {startKey endKey k : Key} {v : Value} :
    (k, v) ∈ s.scan startKey endKey ↔ startKey ≤ k ∧ k ≤ endKey
      ∧ s.vlogs.readCell ((s.scanSources startKey endKey).findSome? (fun n => n.get k))
        = some v := by
  have hmem : (k, v) ∈ s.scan startKey endKey
      ↔ s.vlogs.readCell (((s.scanSources startKey endKey).foldl
        (addFromIterator startKey endKey) .empty).get k) = some v := by
    unfold scan
    rw [List.mem_filterMap]
    constructor
    · rintro ⟨⟨j, c⟩, he, hv⟩
      obtain ⟨w, hw, heq⟩ := Option.map_eq_some_iff.mp hv
      obtain ⟨rfl, rfl⟩ := Prod.mk.injEq _ _ _ _ ▸ heq
      rw [(OrdMap.mem_entries_iff _).mp he]
      exact hw
    · intro hv
      generalize hc : OrdMap.get _ k = o at hv
      cases o with
      | none => cases hv
      | some c => exact ⟨(k, c), (OrdMap.mem_entries_iff _).mpr hc, by rw [hv]; rfl⟩
  rw [hmem, get_foldl_addFromIterator, OrdMap.get_empty, Option.none_or]
  split_ifs with hk
  · exact ⟨fun hv => ⟨hk.1, hk.2, hv⟩, fun hv => hv.2.2⟩
  · refine iff_of_false (fun hv => ?_) (fun hv => hk ⟨hv.1, hv.2.1⟩)
    cases hv

/-! ## The tables of a scan -/

/-- The tables a scan passes over do not hold the key. -/
theorem bind_scannedTable {tables : Tables Cell} {f : FileMetaData} (h : Within tables f)
    {startKey endKey k : Key} (hlo : startKey ≤ k) (hhi : k ≤ endKey) :
    (scannedTable tables startKey endKey f).bind (fun n => n.get k)
      = (fileContents tables f).get k := by
  unfold scannedTable fileContents
  cases ht : tables.get f.sequence with
  | none =>
    rw [Option.map_none, ite_self]
    rfl
  | some t =>
    split_ifs with hout
    · cases hk : t.contents.get k with
      | none => rfl
      | some c =>
        obtain ⟨hmin, hmax⟩ := h.mem_range ht hk
        rcases hout with hout | hout
        · exact absurd (lt_of_le_of_lt (le_trans hlo hmax) hout) (lt_irrefl _)
        · exact absurd (lt_of_lt_of_le hout (le_trans hmin hhi)) (lt_irrefl _)
    · rfl

/-- **A scan goes through the tables as a lookup does.** -/
theorem findSome?_scannedTables (h : s.lsm.Ranged) {startKey endKey k : Key}
    (hlo : startKey ≤ k) (hhi : k ≤ endKey) :
    ((List.finRange maxLevels).flatMap (fun level => (s.lsm.vs.current.files level).filterMap
        (scannedTable s.lsm.tables startKey endKey))).findSome? (fun n => n.get k)
      = s.lsm.lookup env k := by
  rw [h.lookup_eq k, findSome?_flatMap]
  refine findSome?_congr (fun level _ => ?_)
  rw [findSome?_filterMap]
  exact findSome?_congr (fun f hf => bind_scannedTable (h.within f (.current level hf)).1 hlo hhi)

/-! ## The two orders -/

/-- What the frozen memtables give for a key in the order of the slots. -/
def slotCell (s : KVStore) (k : Key) : Option Cell := s.slotScan.findSome? (fun m => m.get k)

/-- What they give in the order of the ring. -/
def ringCell (s : KVStore) (k : Key) : Option Cell := s.ringScan.findSome? (fun m => m.get k)

/-- **The order of the slots does no harm**: for no key that the active
memtable does not have do the frozen memtables give a value in the order of
the slots that is not the one of the newest of them. -/
def SlotsAgree (s : KVStore) : Prop :=
  ∀ k, s.active.get k = none → (s.ringCell k).isSome = true →
    s.vlogs.readCell (s.slotCell k) = s.vlogs.readCell (s.ringCell k)

/-- **What every state has that a scan relies on.** -/
structure Scannable (s : KVStore) : Prop where
  ringOk : RingOk s
  unused : Ring.Unused s.immutables s.currentImmIdx
  ranged : s.lsm.Ranged

namespace Scannable

theorem of_fresh : Scannable {} where
  ringOk := RingOk.of_empty rfl rfl
  unused _ _ := rfl
  ranged := Lsm.Ranged.of_fresh

section

variable (h : Scannable s)
include h

theorem frame (hi : s'.immutables = s.immutables) (hc : s'.currentImmIdx = s.currentImmIdx)
    (hq : s'.flushQueue = s.flushQueue) (hl : s'.lsm.Ranged) : Scannable s' where
  ringOk := h.ringOk.frame hi hc hq
  unused := by
    rw [hi, hc]
    exact h.unused
  ranged := hl

/-- **Every step keeps it**, a kill and the recovery after it too. -/
theorem step {a : EngineAction} (hs : s.step env a = some s') : Scannable s' := by
  have hcompact : ∀ b, Lsm.Compacting b → s.compact env b = some s' → Scannable s' := by
    intro b hb hs
    obtain ⟨lsm, hl, rfl⟩ := compact_cases hs
    exact h.frame rfl rfl rfl (h.ranged.compact hb hl)
  have hlogs : a.OnLogs → Scannable s' := by
    intro ha
    obtain ⟨wal, vlogs, gc, rfl⟩ := onLogs_cases ha hs
    exact h.frame rfl rfl rfl h.ranged
  cases a with
  | commit batch =>
    obtain ⟨-, rfl⟩ := step_commit_cases hs
    exact h.frame rfl rfl rfl h.ranged
  | maybeFlush =>
    have hring := h.ringOk.maybeFlush hs
    obtain ⟨-, rfl⟩ := maybeFlush_cases hs
    exact ⟨hring, h.unused.push s.active, h.ranged⟩
  | flushStart =>
    obtain ⟨t, rest, lsm, -, -, hl, rfl⟩ := flushStart_cases hs
    exact h.frame rfl rfl rfl (h.ranged.flushStart hl)
  | flushCommit =>
    obtain ⟨lsm, -, hl, rfl⟩ := flushCommit_cases hs
    exact h.frame rfl rfl rfl (h.ranged.flushCommit hl)
  | flushClear =>
    have hring := h.ringOk.flushClear hs
    obtain ⟨t, rest, -, -, rfl⟩ := flushClear_cases hs
    exact ⟨hring, h.unused.clear t.slot, h.ranged⟩
  | compactStart => exact hcompact .compactStart trivial hs
  | compactOutput => exact hcompact .compactOutput trivial hs
  | compactCommit => exact hcompact .compactCommit trivial hs
  | purgeObsoleteFiles => exact hcompact .purgeObsoleteFiles trivial hs
  | crash batch n =>
    obtain ⟨-, rfl⟩ := step_crash_cases hs
    exact ⟨RingOk.of_empty rfl rfl, fun _ _ => rfl, h.ranged.reopen env⟩
  | _ => exact hlogs trivial

theorem run {as : List EngineAction} (hrun : runSteps (KVStore.step env) s as = some s') :
    Scannable s' :=
  invariant_of_run (fun _ _ _ h hs => Scannable.step h hs) h hrun

/-- The ring and its slots hold the same memtables. -/
theorem mem_ringScan_iff {m : Memtable} : m ∈ s.ringScan ↔ m ∈ s.slotScan := by
  unfold ringScan slotScan
  rw [h.ringOk.ring.scan_eq, h.ringOk.ring.mem_iff h.unused, List.mem_filterMap]
  simp only [List.mem_finRange, true_and]

/-- They miss the same keys. -/
theorem slotCell_eq_none_iff (k : Key) : s.slotCell k = none ↔ s.ringCell k = none := by
  unfold slotCell ringCell
  rw [List.findSome?_eq_none_iff, List.findSome?_eq_none_iff]
  simp only [h.mem_ringScan_iff]

/-- What a scan of a range finds for a key of it. -/
theorem findSome?_scanSources (env : Env) {startKey endKey k : Key} (hlo : startKey ≤ k)
    (hhi : k ≤ endKey) :
    (s.scanSources startKey endKey).findSome? (fun n => n.get k)
      = (s.active.get k).or ((s.slotCell k).or (s.lsm.lookup env k)) := by
  unfold scanSources
  rw [findSome?_cons_or, List.findSome?_append, findSome?_scannedTables h.ranged hlo hhi]
  rfl

/-- **The two readings of a key differ only where the two orders do.** -/
theorem valueOf_eq_iff (env : Env) (k : Key) :
    s.vlogs.readCell ((s.active.get k).or ((s.slotCell k).or (s.lsm.lookup env k))) = s.get env k
      ↔ (s.active.get k = none → (s.ringCell k).isSome = true →
        s.vlogs.readCell (s.slotCell k) = s.vlogs.readCell (s.ringCell k)) := by
  have hget : s.get env k
      = s.vlogs.readCell ((s.active.get k).or ((s.ringCell k).or (s.lsm.lookup env k))) := by
    rw [get, lookup, findSome?_cons_or, Option.or_assoc]
    rfl
  rw [hget]
  cases ha : s.active.get k with
  | some c => simp
  | none =>
    rw [Option.none_or, Option.none_or]
    cases hr : s.ringCell k with
    | none =>
      rw [(h.slotCell_eq_none_iff k).mpr hr]
      simp
    | some c =>
      cases hc : s.slotCell k with
      | none =>
        rw [(h.slotCell_eq_none_iff k).mp hc] at hr
        cases hr
      | some c' => simp

end

end Scannable

/-- **When a scan agrees with `get`.** In every state of every run, kills and
the recoveries after them included, and whether or not the value logs are
synced: the scans of all ranges return, in strictly ascending key order, the
pairs of the range that `get` returns, just when the order of the slots does no
harm. -/
theorem scan_agrees_iff_slotsAgree {as : List EngineAction}
    (hrun : runSteps (KVStore.step env) {} as = some s) :
    (∀ startKey endKey, (s.scan startKey endKey).Pairwise (fun a b => a.1 < b.1)
        ∧ ∀ k v, (k, v) ∈ s.scan startKey endKey
          ↔ startKey ≤ k ∧ k ≤ endKey ∧ s.get env k = some v)
      ↔ s.SlotsAgree := by
  have h := Scannable.of_fresh.run hrun
  constructor
  · intro hscan k
    refine (h.valueOf_eq_iff env k).mp (Option.ext (fun v => ?_))
    -- the range of the one key
    have hmem := (hscan k k).2 k v
    rw [mem_scan_iff, h.findSome?_scanSources env le_rfl le_rfl] at hmem
    simpa using hmem
  · refine fun hslots startKey endKey => ⟨s.scan_sorted startKey endKey, fun k v => ?_⟩
    rw [mem_scan_iff]
    refine and_congr_right (fun hlo => and_congr_right (fun hhi => ?_))
    rw [h.findSome?_scanSources env hlo hhi,
      (h.valueOf_eq_iff env k).mpr (hslots k)]

/-- Two puts are flushed, of which one is overwritten and frozen again, and a
third is in the active memtable. -/
def scannedRun : List EngineAction :=
  [.commit [{ key := [97], value := [1] }, { key := [98], value := [2] }], .maybeFlush,
    .flushStart, .flushCommit, .flushClear, .commit [{ key := [97], value := [3] }], .maybeFlush,
    .commit [{ key := [99], value := [4] }]]

theorem scan_agrees_iff_slotsAgree_scannedRun :
    let s := finalState (KVStore.step .small) {} scannedRun
    s.scan [98] [99] = [([98], [2]), ([99], [4])] ∧ s.scan [] [98] = [([97], [3]), ([98], [2])]
      ∧ ∀ startKey endKey, (s.scan startKey endKey).Pairwise (fun a b => a.1 < b.1)
        ∧ ∀ k v, (k, v) ∈ s.scan startKey endKey
          ↔ startKey ≤ k ∧ k ≤ endKey ∧ s.get .small k = some v :=
  have horder : (finalState (KVStore.step .small) {} scannedRun).slotScan
      = (finalState (KVStore.step .small) {} scannedRun).ringScan := by decide +kernel
  have hrun : runSteps (KVStore.step .small) {} scannedRun
      = some (finalState (KVStore.step .small) {} scannedRun) :=
    runSteps_eq_finalState (by decide +kernel)
  ⟨by decide +kernel, by decide +kernel, (scan_agrees_iff_slotsAgree hrun).mpr (fun k _ _ => by
    unfold slotCell ringCell
    rw [horder])⟩

/-- A put is frozen, and then another of the same key. -/
def frozenTwice : List EngineAction :=
  [.commit [{ key := [97], value := [1] }], .maybeFlush,
    .commit [{ key := [97], value := [2] }], .maybeFlush]

/-- **A scan returns a value that was overwritten**: the first slot has the
older of the two memtables. All the value logs are synced. -/
theorem scan_frozenTwice :
    let s := finalState (KVStore.step .small) {} frozenTwice
    (runSteps (KVStore.step .small) {} frozenTwice).isSome = true
      ∧ s.vlogs.logs.entries.all (fun e => e.2.buffer.isEmpty) = true
      ∧ s.get .small [97] = some [2] ∧ s.scan [97] [97] = [([97], [1])] := by
  decide +kernel

end KVStore
