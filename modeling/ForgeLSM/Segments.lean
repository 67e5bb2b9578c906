import ForgeLSM.Buffered
import ForgeLSM.Recovered

/-!
# The segments of the WAL, one by one

Each segment of the WAL has the operations between two rotations. `Segmented`
says so by the times the segments begin at: a retired segment that is still on
disk has the records of the operations from its beginning to that of the next,
and the open one, with its buffer, those from its beginning to now.

There is one exception, and it comes from requests that are not synchronous.
A rotation drops what the old segment has in its buffer. Such a segment is
*torn*: its memtable is flushed all the same, but on disk it stops short.

An append and a sync are a lemma each, and a commit is the one, or the one after the
other (`Segmented.commit`). The records of all segments on disk, where none of them
is torn and none is missing between them, are an end of the history
(`Segmented.records_stamps`), which is what `WalSuffix` has for synchronous requests.
-/

/-- The segment a step tears: a rotation does, of a WAL whose buffer is not
empty. -/
def KVStore.tornBy (s : KVStore) (a : EngineAction) : List ℕ :=
  if a = .maybeFlush ∧ s.wal.buffer ≠ [] then [s.wal.current] else []

/-- **The segments a run tears.** -/
def KVStore.tornIn (env : Env) : KVStore → List EngineAction → List ℕ
  | _, [] => []
  | s, a :: as => s.tornBy a ++ ((s.step env a).elim [] (fun t => tornIn env t as))

/-- The records on disk, in the order of the segments' ids. -/
theorem Wal.records_eq (w : Wal) :
    w.records = w.segments.keys.flatMap (fun id => (w.segments.get id).getD []) := by
  rw [Wal.records, OrdMap.keys, List.flatMap_map]
  refine List.flatMap_congr (fun e he => ?_)
  rw [(OrdMap.mem_entries_iff _).mp (show (e.1, e.2) ∈ w.segments.entries from he),
    Option.getD_some]

/-- Intervals that follow one another make one. -/
theorem flatMap_range'_intervals {cut : ℕ → ℕ} {m : ℕ} (f : ℕ → List ℕ) (n : ℕ)
    (hmono : ∀ i, m ≤ i → i < m + n → cut i ≤ cut (i + 1))
    (hf : ∀ i, m ≤ i → i < m + n → f i = List.range' (cut i + 1) (cut (i + 1) - cut i)) :
    cut m ≤ cut (m + n)
      ∧ (List.range' m n).flatMap f = List.range' (cut m + 1) (cut (m + n) - cut m) := by
  induction n with
  | zero => simp
  | succ n ih =>
    obtain ⟨hle, heq⟩ := ih (fun i h1 h2 => hmono i h1 (by omega))
      (fun i h1 h2 => hf i h1 (by omega))
    have hlast := hmono (m + n) (by omega) (by omega)
    rw [← Nat.add_assoc]
    refine ⟨by omega, ?_⟩
    rw [List.range'_concat, List.flatMap_append, heq, List.flatMap_singleton, Nat.one_mul,
      hf (m + n) (by omega) (by omega)]
    have hjoin : cut m + 1 + 1 * (cut (m + n) - cut m) = cut (m + n) + 1 := by omega
    rw [← hjoin, List.range'_append]
    congr 1
    omega

namespace KVStore

variable {env : Env} {s s' : KVStore} {torn : List ℕ} {cut : ℕ → ℕ}

/-- **A record that replay can use**: it stands for its operation, the value
log it leads to is there, and its key is believed. -/
structure Replays (s : KVStore) (r : WalRecord) : Prop where
  cell : CellOk s.history s.vlogs r.key (replayCell r)
  log : HasLog s.vlogs (replayCell r).ptr
  short : r.key.length ≤ maxFieldSize

/-- **Each segment has the operations between two rotations**, the torn ones
apart; `cut` gives the times they begin at. -/
structure Segmented (s : KVStore) (torn : List ℕ) (cut : ℕ → ℕ) : Prop where
  pos : 0 < s.wal.current
  /-- On disk are the open segment and those whose removal is pending. -/
  keys : ∀ id, (∃ rs, s.wal.segments.get id = some rs)
    ↔ id ∈ s.wal.removals ∨ id = s.wal.current
  lt : ∀ id ∈ s.wal.removals, id < s.wal.current
  nodup : s.wal.removals.Nodup
  mono : ∀ i, i < s.wal.current → cut i ≤ cut (i + 1)
  le : cut s.wal.current ≤ s.history.length
  retired : ∀ id rs, id < s.wal.current → s.wal.segments.get id = some rs → id ∉ torn →
    rs.map WalRecord.stamp = List.range' (cut id + 1) (cut (id + 1) - cut id)
  opened : (s.wal.open_ ++ s.wal.buffer).map WalRecord.stamp
    = List.range' (cut s.wal.current + 1) (s.history.length - cut s.wal.current)
  onDisk : ∀ id rs, s.wal.segments.get id = some rs → ∀ r ∈ rs, Replays s r
  buffer : ∀ r ∈ s.wal.buffer, Replays s r

namespace Segmented

theorem of_fresh : Segmented {} [] (fun _ => 0) where
  pos := Nat.one_pos
  keys id := by
    show (∃ rs, (OrdMap.empty.insert 1 []).get id = some rs) ↔ id ∈ ([] : List ℕ) ∨ id = 1
    rw [OrdMap.get_insert]
    by_cases hid : id = 1 <;> simp [hid]
  lt id hid := by cases hid
  nodup := List.nodup_nil
  mono _ _ := le_refl _
  le := le_refl _
  retired id rs _ hrs _ := by
    rw [(get_segments_fresh hrs).2]
    rfl
  opened := rfl
  onDisk id rs hrs r hr := by
    rw [(get_segments_fresh hrs).2] at hr
    cases hr
  buffer r hr := by cases hr

/-- The open segment is on disk. -/
theorem get_current (h : Segmented s torn cut) :
    s.wal.segments.get s.wal.current = some s.wal.open_ := by
  obtain ⟨rs, hrs⟩ := (h.keys s.wal.current).mpr (Or.inr rfl)
  rw [Wal.open_, hrs, Option.getD_some]

/-- Records in the buffer carry the open segment on. -/
theorem append (h : Segmented s torn cut) (rs : List WalRecord) (hw : s'.wal = s.wal.append rs)
    (hold : ∀ r, Replays s r → Replays s' r) (hnew : ∀ r ∈ rs, Replays s' r)
    (hstamps : rs.map WalRecord.stamp = List.range' (s.history.length + 1) rs.length)
    (hlen : s'.history.length = s.history.length + rs.length) : Segmented s' torn cut := by
  have hle := h.le
  refine ⟨?_, ?_, ?_, ?_, ?_, ?_, ?_, ?_, ?_, ?_⟩
  all_goals rw [hw]
  · exact h.pos
  · exact h.keys
  · exact h.lt
  · exact h.nodup
  · exact h.mono
  · exact (hle.trans (Nat.le_add_right _ _)).trans_eq hlen.symm
  · exact h.retired
  · show (s.wal.open_ ++ (s.wal.buffer ++ rs)).map WalRecord.stamp
      = List.range' (cut s.wal.current + 1) (s'.history.length - cut s.wal.current)
    have hjoin : cut s.wal.current + 1 + 1 * (s.history.length - cut s.wal.current)
        = s.history.length + 1 := by omega
    rw [← List.append_assoc, List.map_append, h.opened, hstamps, ← hjoin, List.range'_append, hlen,
      Nat.sub_add_comm hle]
  · exact fun id rs hrs r hr => hold r (h.onDisk id rs hrs r hr)
  · intro r hr
    rcases List.mem_append.mp hr with hr | hr
    · exact hold r (h.buffer r hr)
    · exact hnew r hr

/-- Steps that leave the WAL, the logs and the history alone. -/
theorem frame (h : Segmented s torn cut) (hw : s'.wal = s.wal) (hv : s'.vlogs = s.vlogs)
    (hh : s'.history = s.history) : Segmented s' torn cut := by
  refine h.append [] (by rw [hw, Wal.append, List.append_nil]) (fun r hr => ?_)
    (fun r hr => by cases hr) rfl (congrArg List.length hh)
  refine ⟨?_, hv ▸ hr.log, hr.short⟩
  rw [hh, hv]
  exact hr.cell

/-- A sync moves the records of the buffer to the disk. -/
theorem sync (h : Segmented s torn cut) : Segmented { s with wal := s.wal.sync } torn cut := by
  have hrep : ∀ r, Replays s r → Replays { s with wal := s.wal.sync } r :=
    fun r hr => ⟨hr.cell, hr.log, hr.short⟩
  refine ⟨h.pos, fun id => ?_, h.lt, h.nodup, h.mono, h.le, fun id rs hid hrs htorn => ?_, ?_,
    fun id rs hrs r hr => ?_, fun r hr => by cases hr⟩
  · show (∃ rs, (s.wal.segments.insert s.wal.current _).get id = some rs) ↔ _
    rw [OrdMap.get_insert]
    by_cases hid : id = s.wal.current
    · simp [hid, Wal.sync]
    · rw [if_neg hid]
      exact h.keys id
  · rcases OrdMap.get_insert_cases hrs with ⟨heq, -⟩ | ⟨-, hrs⟩
    · exact absurd heq (Nat.ne_of_lt hid)
    · exact h.retired id rs hid hrs htorn
  · show (((s.wal.segments.insert s.wal.current _).get s.wal.current).getD [] ++ []).map
      WalRecord.stamp = _
    rw [OrdMap.get_insert_self, Option.getD_some, List.append_nil]
    exact h.opened
  · rcases OrdMap.get_insert_cases hrs with ⟨-, rfl⟩ | ⟨-, hrs⟩
    · rcases List.mem_append.mp hr with hr | hr
      · exact hrep r (h.onDisk _ _ h.get_current r hr)
      · exact hrep r (h.buffer r hr)
    · exact hrep r (h.onDisk id rs hrs r hr)

/-! ## Steps -/

/-- The records of a batch of clients' requests can be replayed once it is
committed. -/
theorem replays_commit (env : Env) (hp : Pointed s) {batch : List WriteRequest}
    (hen : s.gcEnabled batch = true) (hfit : RecordsFit batch)
    (hshort : WalSuffix.ShortKeys batch) (gc : Option GcJob) :
    (∀ r, Replays s r → Replays { s.commit env batch with gc := gc } r)
      ∧ ∀ r ∈ (s.plan env batch).2.filterMap Entry.walRecord,
        Replays { s.commit env batch with gc := gc } r := by
  obtain ⟨-, hplan, happ⟩ := commit_vlogs_appends env hp.vlogs (hp.fits hen hfit)
  refine ⟨fun r hr => ⟨hr.cell.grows happ.toGrows _, hr.log.mono happ.mem, hr.short⟩,
    fun r hr => ?_⟩
  have hkey := (WalSuffix.plan_records env s hshort).2.2 r hr
  obtain ⟨e, he, her⟩ := List.mem_filterMap.mp hr
  refine ⟨cellOk_replayCell (hp.cellOk_commit hen hfit he)
    (Vlogs.opAt_of_mem_placeAll (fun r hr hg => (hp.relocates hen hr hg).1) he) her, ?_, hkey⟩
  have hlog : HasLog (s.commit env batch).vlogs e.ptr := fun htomb =>
    (((plan_spec env hp.vlogs (hp.fits hen hfit)).2.2 e he).1.appends hplan htomb).2
  unfold Entry.walRecord at her
  split_ifs at her with hg hd
  all_goals cases her
  · exact fun htomb => absurd htomb (by simp [replayCell])
  · exact hlog

/-- **A commit carries the open segment on**, on disk or in its buffer. -/
theorem commit (h : Segmented s torn cut) (hp : Pointed s) {batch : List WriteRequest}
    (hen : s.gcEnabled batch = true) (hfit : RecordsFit batch)
    (hshort : WalSuffix.ShortKeys batch) (gc : Option GcJob) :
    Segmented { s.commit env batch with gc := gc } torn cut := by
  obtain ⟨hlen, hst, -⟩ := WalSuffix.plan_records env s hshort
  obtain ⟨hold, hnew⟩ := replays_commit env hp hen hfit hshort gc
  let rs := (s.plan env batch).2.filterMap Entry.walRecord
  have hbuffered : Segmented { s.commit env batch with gc := gc, wal := s.wal.append rs } torn
      cut :=
    h.append rs rfl (fun r hr => ⟨(hold r hr).cell, (hold r hr).log, hr.short⟩)
      (fun r hr => ⟨(hnew r hr).cell, (hnew r hr).log, (hnew r hr).short⟩) (hlen ▸ hst)
      (by rw [hlen]; exact List.length_append)
  by_cases hsync : batch.any WriteRequest.sync = true
  · have hwal : (s.commit env batch).wal = (s.wal.append rs).sync := if_pos hsync
    have hsynced := hbuffered.sync
    rwa [← hwal] at hsynced
  · have hwal : (s.commit env batch).wal = s.wal.append rs := if_neg hsync
    rwa [← hwal] at hbuffered

/-- **A rotation retires the open segment**, and tears it when its buffer is
not empty. The next begins now. -/
theorem maybeFlush (h : Segmented s torn cut) (hs : s.maybeFlush = some s') :
    Segmented s' (torn ++ s.tornBy .maybeFlush)
      (Function.update cut (s.wal.current + 1) s.history.length) := by
  obtain ⟨-, rfl⟩ := maybeFlush_cases hs
  have hnew : s.wal.segments.get (s.wal.current + 1) = none := by
    cases hget : s.wal.segments.get (s.wal.current + 1) with
    | none => rfl
    | some rs =>
      rcases (h.keys _).mp ⟨rs, hget⟩ with hmem | heq
      · exact absurd (h.lt _ hmem) (by omega)
      · omega
  have hseg : (Wal.rotate s.wal).segments = s.wal.segments.insert (s.wal.current + 1) [] := by
    show Wal.openSegment _ _ = _
    rw [Wal.openSegment, hnew]
    rfl
  have hcut : ∀ i, i ≤ s.wal.current →
      Function.update cut (s.wal.current + 1) s.history.length i = cut i :=
    fun i hi => Function.update_of_ne (by omega) _ _
  have hcut' : Function.update cut (s.wal.current + 1) s.history.length (s.wal.current + 1)
      = s.history.length := Function.update_self _ _ _
  -- a segment on disk is an old one, or the new one, which is empty
  have hget : ∀ id rs, (Wal.rotate s.wal).segments.get id = some rs →
      id = s.wal.current + 1 ∧ rs = []
      ∨ id ≠ s.wal.current + 1 ∧ s.wal.segments.get id = some rs :=
    fun id rs hrs => OrdMap.get_insert_cases (hseg ▸ hrs)
  refine
    { pos := Nat.succ_pos _
      keys := fun id => ?_
      lt := fun id hid => ?_
      nodup := ?_
      mono := fun i hi => ?_
      le := le_of_eq hcut'
      retired := fun id rs hid hrs htorn => ?_
      opened := ?_
      onDisk := fun id rs hrs r hr => ?_
      buffer := fun r hr => by cases hr }
  · show (∃ rs, (Wal.rotate s.wal).segments.get id = some rs)
      ↔ id ∈ s.wal.removals ++ [s.wal.current] ∨ id = s.wal.current + 1
    rw [hseg, OrdMap.get_insert, List.mem_append, List.mem_singleton, ← h.keys id]
    by_cases hid : id = s.wal.current + 1 <;> simp [hid]
  · rcases List.mem_append.mp hid with hid | hid
    · exact Nat.lt_succ_of_lt (h.lt id hid)
    · rw [List.mem_singleton.mp hid]
      exact Nat.lt_succ_self _
  · refine List.nodup_append.mpr ⟨h.nodup, List.nodup_singleton _, ?_⟩
    rintro a ha b hb rfl
    exact absurd (h.lt a ha) (by rw [List.mem_singleton.mp hb]; omega)
  · have hi' : i < s.wal.current + 1 := hi
    rw [hcut i (by omega)]
    rcases Nat.lt_or_ge i s.wal.current with hlt | hge
    · rw [hcut (i + 1) (by omega)]
      exact h.mono i hlt
    · obtain rfl : i = s.wal.current := by omega
      rw [hcut']
      exact h.le
  · have hid' : id < s.wal.current + 1 := hid
    rcases hget id rs hrs with ⟨rfl, -⟩ | ⟨-, hold⟩
    · omega
    rcases Nat.lt_or_ge id s.wal.current with hlt | hge
    · rw [hcut id (by omega), hcut (id + 1) (by omega)]
      exact h.retired id rs hlt hold (fun hmem => htorn (List.mem_append_left _ hmem))
    · obtain rfl : id = s.wal.current := by omega
      have hbuf : s.wal.buffer = [] := by
        by_contra hne
        exact htorn (List.mem_append_right _ (by simp [tornBy, hne]))
      cases h.get_current.symm.trans hold
      have hopened := h.opened
      rw [hbuf, List.append_nil] at hopened
      rw [hcut _ (le_refl _), hcut', hopened]
  · show ((((Wal.rotate s.wal).segments.get (s.wal.current + 1)).getD []) ++ []).map _
      = List.range'
        (Function.update cut (s.wal.current + 1) s.history.length (s.wal.current + 1) + 1)
        (s.history.length
          - Function.update cut (s.wal.current + 1) s.history.length (s.wal.current + 1))
    rw [hseg, OrdMap.get_insert_self, hcut', Nat.sub_self]
    rfl
  · rcases hget id rs hrs with ⟨-, rfl⟩ | ⟨-, hold⟩
    · cases hr
    · have hrep := h.onDisk id rs hold r hr
      exact ⟨hrep.cell, hrep.log, hrep.short⟩

theorem walRemove (h : Segmented s torn cut) {id : ℕ} (hs : s.walRemove id = some s') :
    Segmented s' torn cut := by
  obtain ⟨hmem, rfl⟩ := walRemove_cases hs
  have hlt := h.lt id hmem
  refine
    { h with
      keys := fun j => ?_
      lt := fun j hj => h.lt j (List.mem_of_mem_erase hj)
      nodup := h.nodup.erase id
      retired := fun j rs hj hrs => h.retired j rs hj (OrdMap.get_erase_cases hrs).2
      opened := ?_
      onDisk := fun j rs hrs r hr => ?_
      buffer := fun r hr => ?_ }
  · show (∃ rs, (s.wal.segments.erase id).get j = some rs)
      ↔ j ∈ s.wal.removals.erase id ∨ j = s.wal.current
    rw [OrdMap.get_erase, h.nodup.mem_erase_iff]
    by_cases hj : j = id
    · subst hj
      simp [Nat.ne_of_lt hlt]
    · simp [hj, h.keys j]
  · show (((s.wal.segments.erase id).get s.wal.current).getD [] ++ s.wal.buffer).map _ = _
    rw [OrdMap.get_erase, if_neg (Nat.ne_of_gt hlt)]
    exact h.opened
  · have hrep := h.onDisk j rs (OrdMap.get_erase_cases hrs).2 r hr
    exact ⟨hrep.cell, hrep.log, hrep.short⟩
  · have hrep := h.buffer r hr
    exact ⟨hrep.cell, hrep.log, hrep.short⟩

/-! ## What is on disk -/

/-- **A WAL none of whose segments on disk is torn, with nothing in the buffer,
is an end of the history**, if the segments on disk are the newest. It begins
where the oldest of them does. -/
theorem records_stamps (h : Segmented s torn cut) (hbuf : s.wal.buffer = [])
    (htorn : ∀ id ∈ s.wal.removals, id ∉ torn)
    (hlast : s.wal.removals
      = List.range' (s.wal.current - s.wal.removals.length) s.wal.removals.length) :
    cut (s.wal.current - s.wal.removals.length) ≤ cut s.wal.current
      ∧ s.wal.records.map WalRecord.stamp
        = List.range' (cut (s.wal.current - s.wal.removals.length) + 1)
          (s.history.length - cut (s.wal.current - s.wal.removals.length)) := by
  obtain ⟨m, n, hm, hn⟩ : ∃ m n, s.wal.current - s.wal.removals.length = m
      ∧ s.wal.removals.length = n := ⟨_, _, rfl, rfl⟩
  rw [hm] at hlast ⊢
  rw [hn] at hlast
  have hmn : m + n = s.wal.current := by
    rcases Nat.eq_zero_or_pos n with h0 | hpos
    · omega
    · have hmem : m + n - 1 ∈ s.wal.removals := by
        rw [hlast, List.mem_range'_1]
        omega
      have := h.lt _ hmem
      omega
  -- the ids on disk, in order
  have hkeys : s.wal.segments.keys = List.range' m n ++ [s.wal.current] := by
    refine List.Perm.eq_of_pairwise (fun a b _ _ hab hba => absurd hab (lt_asymm hba))
      s.wal.segments.keys_sorted ?_ ?_
    · rw [← hmn, ← List.range'_1_concat]
      exact List.pairwise_lt_range'
    · refine (List.perm_ext_iff_of_nodup (s.wal.segments.keys_sorted.imp ne_of_lt) ?_).mpr ?_
      · rw [← hmn, ← List.range'_1_concat]
        exact List.nodup_range'
      · intro id
        rw [OrdMap.mem_keys_iff, h.keys id, hlast, List.mem_append, List.mem_singleton]
  have hstamp : ∀ i, m ≤ i → i < m + n →
      ((s.wal.segments.get i).getD []).map WalRecord.stamp
        = List.range' (cut i + 1) (cut (i + 1) - cut i) := by
    intro i h1 h2
    have hmem : i ∈ s.wal.removals := by
      rw [hlast, List.mem_range'_1]
      exact ⟨h1, h2⟩
    obtain ⟨rs, hrs⟩ := (h.keys i).mpr (Or.inl hmem)
    rw [hrs, Option.getD_some]
    exact h.retired i rs (h.lt i hmem) hrs (htorn i hmem)
  obtain ⟨hle, heq⟩ := flatMap_range'_intervals
    (fun i => ((s.wal.segments.get i).getD []).map WalRecord.stamp) n
    (fun i _ h2 => h.mono i (by omega)) hstamp
  rw [hmn] at hle heq
  refine ⟨hle, ?_⟩
  have hopened := h.opened
  have hcur := h.le
  rw [hbuf, List.append_nil, Wal.open_] at hopened
  rw [Wal.records_eq, hkeys, List.map_flatMap, List.flatMap_append, heq, List.flatMap_singleton,
    hopened]
  have hjoin : cut m + 1 + 1 * (cut s.wal.current - cut m) = cut s.wal.current + 1 := by omega
  rw [← hjoin, List.range'_append]
  congr 1
  omega

end Segmented

end KVStore
