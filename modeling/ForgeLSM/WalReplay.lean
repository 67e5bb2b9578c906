import ForgeLSM.Cells
import ForgeLSM.WalFile

/-!
# The memtable in the write-ahead log

A commit makes two passes over its batch: one appends records to the WAL, the
other puts pointers into the memtable. The two have conditions of their own,
and a delete looks different in each. Since the last rotation they have
nevertheless said the same: the open segment, replayed from its bytes into an
empty memtable as recovery does it, gives the pointers of the active memtable
(`KVStore.recovered_eq_active`), a tombstone being a tombstone whatever WAL id it
was given.

The model's segments are lists of records; `Wal.fileBytes` is the file that the
calls for these records write. Pointers of the model are numbers of any size, and
`VLogPointer.held` is what the `struct` holds of them.
-/

/-! ## Segments as files -/

/-- The pointer as its `struct` holds it. -/
def VLogPointer.held (p : VLogPointer) : VLogPointer :=
  ⟨u32 p.fileId, p.offset % 2 ^ 64, u32 p.length⟩

theorem VLogPointer.fits_held (p : VLogPointer) : p.held.Fits :=
  ⟨u32_lt _, Nat.mod_lt _ (by decide), u32_lt _⟩

theorem VLogPointer.Fits.held_eq {p : VLogPointer} (h : p.Fits) : p.held = p := by
  obtain ⟨hid, hoff, hlen⟩ := h
  rw [held, u32_of_lt hid, Nat.mod_eq_of_lt hoff, u32_of_lt hlen]

/-- The pointer, where all tombstones are one. -/
def VLogPointer.identified (p : VLogPointer) : Option VLogPointer :=
  if p.isTombstone then none else some p

/-- The call that writes a record. -/
def WalRecord.call (r : WalRecord) : WALCall :=
  match r.pointer with
  | none => .appendDelete r.key
  | some p => .append r.key p.held

/-- The file of a segment. -/
def Wal.fileBytes (w : Wal) (id : ℕ) : List Byte :=
  ((w.segments.get id).getD []).flatMap (fun r => r.call.bytes)

/-- The loop of `KVStore::recover` over the entries of a file. A tombstone gets
the WAL id the store has before it has looked, 1. -/
def recoverPut (m : OrdMap Key VLogPointer) (e : WALEntry) : OrdMap Key VLogPointer :=
  m.insert e.key (if e.isTombstone then .tombstone 1 else e.pointer)

/-- **A file replayed into an empty memtable.** -/
def recoverFile (file : List Byte) : OrdMap Key VLogPointer :=
  (WAL.replay file).entries.foldl recoverPut .empty

/-- A file of sound records replays to what they stand for. -/
theorem entries_replay_records {rs : List WalRecord} (h : ∀ r ∈ rs, r.call.Sound) :
    (WAL.replay (rs.flatMap (fun r => r.call.bytes))).entries
      = rs.map (fun r => r.call.entry) := by
  have hsound : ∀ c ∈ rs.map WalRecord.call, c.Sound := by
    intro c hc
    obtain ⟨r, hr, rfl⟩ := List.mem_map.mp hc
    exact h r hr
  have hcalls := WALCall.entries_replay_flatMap hsound []
  rw [List.append_nil, List.flatMap_map, List.map_map] at hcalls
  rw [hcalls]
  exact List.append_nil _

/-! ## The numbers of the segments -/

/-- **What the numbers of the segments keep**: the open one is there and is the
highest, and only retired ones are to be removed. -/
structure Wal.Ok (w : Wal) : Prop where
  current_mem : ∃ rs, w.segments.get w.current = some rs
  le_current : ∀ id rs, w.segments.get id = some rs → id ≤ w.current
  removals_lt : ∀ id ∈ w.removals, id < w.current

namespace Wal

variable {w : Wal}

theorem Ok.insert_current (h : w.Ok) (rs : List WalRecord) (buffer : List WalRecord) :
    Ok { w with segments := w.segments.insert w.current rs, buffer := buffer } where
  current_mem := ⟨rs, OrdMap.get_insert_self _ _ _⟩
  le_current _ _ hget := OrdMap.le_of_get_insert h.le_current hget
  removals_lt := h.removals_lt

/-- The next segment is a new one. -/
theorem Ok.get_next (h : w.Ok) : w.segments.get (w.current + 1) = none := by
  cases hget : w.segments.get (w.current + 1) with
  | none => rfl
  | some rs => exact absurd (h.le_current _ rs hget) (by omega)

theorem Ok.rotate (h : w.Ok) : w.rotate.Ok where
  current_mem := ⟨_, OrdMap.get_insert_self _ _ _⟩
  le_current _ _ hget :=
    OrdMap.le_of_get_insert (fun i rs hi => Nat.le_succ_of_le (h.le_current i rs hi)) hget
  removals_lt id hid := by
    rcases List.mem_append.mp hid with hid | hid
    · exact Nat.lt_succ_of_lt (h.removals_lt id hid)
    · obtain rfl := List.mem_singleton.mp hid
      exact Nat.lt_succ_self _

/-- After a rotation the open segment is empty. -/
theorem Ok.open_rotate (h : w.Ok) : w.rotate.open_ = [] := by
  have hget : (openSegment w.segments (w.current + 1)).get (w.current + 1) = some [] := by
    rw [openSegment, h.get_next, OrdMap.get_insert_self]
    rfl
  show (((openSegment w.segments (w.current + 1)).get (w.current + 1)).getD []) = []
  rw [hget]
  rfl

end Wal

namespace KVStore

variable {env : Env} {s s' : KVStore}

theorem wal_fresh_ok : ({} : KVStore).wal.Ok where
  current_mem := ⟨[], rfl⟩
  le_current _ _ hget := (get_segments_fresh hget).1.le
  removals_lt id hid := by cases hid

/-- A removal leaves the open segment. -/
theorem walRemove_ok {id : ℕ} (h : s.wal.Ok) (hs : s.walRemove id = some s') :
    s'.wal.Ok ∧ s'.wal.open_ = s.wal.open_ := by
  obtain ⟨hid, rfl⟩ := walRemove_cases hs
  have hne : s.wal.current ≠ id := Nat.ne_of_gt (h.removals_lt id hid)
  have hcur : (s.wal.segments.erase id).get s.wal.current = s.wal.segments.get s.wal.current := by
    rw [OrdMap.get_erase, if_neg hne]
  refine ⟨⟨?_, fun j rs hget => ?_, fun j hj => ?_⟩, ?_⟩
  · obtain ⟨rs, hrs⟩ := h.current_mem
    exact ⟨rs, hcur.trans hrs⟩
  · exact h.le_current j rs (OrdMap.get_erase_cases hget).2
  · exact h.removals_lt j (List.mem_of_mem_erase hj)
  · show ((s.wal.segments.erase id).get s.wal.current).getD [] = _
    rw [hcur]
    rfl

/-- After recovery the open segment is the highest. -/
theorem wal_recover_ok (env : Env) (s : KVStore) : (KVStore.recover env s).wal.Ok where
  current_mem := ⟨_, OrdMap.get_insert_self _ _ _⟩
  le_current id rs hget := by
    have hmax : s.wal.segments.maxKey
        ≤ if s.wal.segments.maxKey > 0 then s.wal.segments.maxKey else 1 := by
      split_ifs <;> omega
    unfold recover at hget ⊢
    dsimp only [Wal.openSegment] at hget ⊢
    generalize (if s.wal.segments.maxKey > 0 then s.wal.segments.maxKey else 1) = top at *
    exact OrdMap.le_of_get_insert (fun i rs hi => le_trans (OrdMap.le_maxKey hi) hmax) hget
  removals_lt id hid := by cases hid

/-- What a commit does to the segments. -/
theorem wal_commit_ok (h : s.wal.Ok) (batch : List WriteRequest) : (s.commit env batch).wal.Ok := by
  unfold commit putAll writeLogs
  dsimp only
  split_ifs
  · exact h.insert_current _ []
  · exact ⟨h.current_mem, h.le_current, h.removals_lt⟩

/-- **Every step keeps the numbers of the segments.** -/
theorem wal_step_ok (h : s.wal.Ok) {a : EngineAction} (hs : s.step env a = some s') :
    s'.wal.Ok := by
  have haside : a.Aside → s'.wal.Ok := by
    intro ha
    obtain ⟨-, -, hwal, -, -⟩ := aside_frame ha hs
    exact hwal ▸ h
  cases a with
  | commit batch =>
    obtain ⟨-, rfl⟩ := step_commit_cases hs
    exact wal_commit_ok h batch
  | maybeFlush =>
    obtain ⟨-, rfl⟩ := maybeFlush_cases hs
    exact h.rotate
  | walRemove id => exact (walRemove_ok h hs).1
  | walRemoveFail id =>
    obtain ⟨-, rfl⟩ := walRemoveFail_cases hs
    exact { h with removals_lt := fun j hj => h.removals_lt j (List.mem_of_mem_erase hj) }
  | gcFinish =>
    obtain ⟨job, -, -, -, rfl⟩ := gcFinish_cases hs
    exact h
  | crash batch n =>
    obtain ⟨-, rfl⟩ := step_crash_cases hs
    exact wal_recover_ok env _
  | _ => exact haside trivial

theorem wal_run_ok {actions : List EngineAction} (h : s.wal.Ok)
    (hrun : runSteps (KVStore.step env) s actions = some s') : s'.wal.Ok :=
  invariant_of_run (fun _ _ _ h hs => wal_step_ok h hs) h hrun

/-! ## The two passes of a commit -/

/-- A memtable and a recovered one have the same pointers. -/
def SamePointers (m : OrdMap Key VLogPointer) (act : Memtable) : Prop :=
  ∀ k, (m.get k).map VLogPointer.identified = (act.get k).map (fun c => c.ptr.held.identified)

/-- **What the requests of a batch are given**: a delete a tombstone, a put a
pointer of the value's length. -/
theorem ptr_of_mem_placeAll {vl : Vlogs} {act : Memtable} {walId n : ℕ}
    {batch : List WriteRequest} {e : Entry} (he : e ∈ (vl.placeAll env act walId n batch).2) :
    (e.req.isDelete = true → e.ptr = .tombstone walId)
      ∧ (e.req.isDelete = false → e.ptr.length = u32 e.req.value.length) := by
  obtain ⟨-, ⟨p, hptr⟩, -⟩ := Vlogs.placed_of_mem_placeAll he
  unfold Vlogs.place at hptr
  split_ifs at hptr with hd hg
  · rw [← Option.some.inj hptr]
    exact ⟨fun _ => rfl, fun hf => absurd (hd.symm.trans hf) (by decide)⟩
  · rw [← Option.some.inj hptr]
    exact ⟨fun hd' => absurd hd' hd, fun _ => rfl⟩

/-- The entry of a client's request is replayed as what it puts. -/
theorem SamePointers.put {m : OrdMap Key VLogPointer} {act : Memtable} (h : SamePointers m act)
    {e : Entry} {r : WalRecord} (hr : e.walRecord = some r)
    (hdel : e.req.isDelete = true → ∃ walId, e.ptr = .tombstone walId) :
    SamePointers (recoverPut m r.call.entry) (e.put act) := by
  have hval : (if r.call.entry.isTombstone then VLogPointer.tombstone 1
      else r.call.entry.pointer).identified = e.ptr.held.identified
      ∧ r.call.entry.key = e.req.key := by
    unfold Entry.walRecord at hr
    split_ifs at hr with hg hd
    · cases hr
      obtain ⟨walId, hptr⟩ := hdel hd
      rw [hptr]
      exact ⟨rfl, rfl⟩
    · cases hr
      exact ⟨rfl, rfl⟩
  intro k
  rw [recoverPut, Entry.put, OrdMap.get_insert, OrdMap.get_insert, hval.2]
  by_cases hk : k = e.req.key
  · rw [if_pos hk, if_pos hk]
    exact congrArg some hval.1
  · rw [if_neg hk, if_neg hk]
    exact h k

/-- **The two passes agree**: what the one put into the memtable the other has
appended for recovery to put. -/
theorem SamePointers.foldl {es : List Entry} {m : OrdMap Key VLogPointer} {act : Memtable}
    (h : SamePointers m act) (hes : ∀ e ∈ es, e.req.isGc = false
      ∧ (e.req.isDelete = true → ∃ walId, e.ptr = .tombstone walId)) :
    SamePointers (((es.filterMap Entry.walRecord).map (fun r => r.call.entry)).foldl recoverPut m)
      (es.foldl Entry.put act) := by
  induction es generalizing m act with
  | nil => exact h
  | cons e es ih =>
    obtain ⟨hg, hdel⟩ := hes e List.mem_cons_self
    have hr : e.walRecord
        = some ⟨e.req.key, if e.req.isDelete then none else some e.ptr, e.stamp⟩ := by
      rw [Entry.walRecord, if_neg (by simp [hg])]
    rw [List.filterMap_cons_some hr, List.map_cons, List.foldl_cons, List.foldl_cons]
    exact ih (h.put hr hdel) (fun e' he' => hes e' (List.mem_cons_of_mem e he'))

/-! ## Since the last rotation -/

/-- **What may happen between two rotations**: commits of synchronous requests of
clients, with keys a replay believes and values shorter than the length that
marks a tombstone; and whatever the background tasks do. -/
def SyncedStep : EngineAction → Prop
  | .commit batch => ∀ r ∈ batch, r.sync = true ∧ r.isGc = false
      ∧ r.key.length ≤ maxFieldSize ∧ r.value.length < WAL.tombstoneLen
  | .maybeFlush => False
  | .crash _ _ => False
  | _ => True

instance decidableSyncedStep (a : EngineAction) : Decidable (SyncedStep a) := by
  apply EngineAction.casesOn (motive := fun a => Decidable (SyncedStep a)) a <;> intros <;>
    unfold SyncedStep <;> infer_instance

/-- The store has just opened its segment: it is new, or the last it did, after
whatever else, was to hand off a memtable. -/
inductive JustRotated (env : Env) : KVStore → Prop where
  | fresh : JustRotated env {}
  | rotated (before : List EngineAction) {s : KVStore}
      (hrun : runSteps (KVStore.step env) {} (before ++ [.maybeFlush]) = some s) :
      JustRotated env s

/-- **The open segment mirrors the active memtable.** -/
structure Mirrors (s : KVStore) : Prop where
  ok : s.wal.Ok
  buffer : s.wal.buffer = []
  sound : ∀ r ∈ s.wal.open_, r.call.Sound
  same : SamePointers ((s.wal.open_.map (fun r => r.call.entry)).foldl recoverPut .empty) s.active

namespace Mirrors

theorem of_justRotated (h : JustRotated env s) : Mirrors s := by
  cases h with
  | fresh => exact ⟨wal_fresh_ok, rfl, fun r hr => absurd hr List.not_mem_nil, fun k => rfl⟩
  | rotated before hrun =>
    obtain ⟨t, hbefore, hlast⟩ := runSteps_append.mp hrun
    obtain ⟨t', hs, ht⟩ := runSteps_cons.mp hlast
    cases ht
    have hok := wal_run_ok wal_fresh_ok hbefore
    obtain ⟨-, rfl⟩ := maybeFlush_cases hs
    have hopen : (Wal.rotate _).open_ = [] := hok.open_rotate
    refine ⟨hok.rotate, rfl, fun r hr => ?_, fun k => ?_⟩
    · dsimp only at hr
      rw [hopen] at hr
      cases hr
    · dsimp only
      rw [hopen]
      rfl

/-- What touches neither the memtable nor the WAL. -/
theorem frame (h : Mirrors s) (hact : s'.active = s.active) (hwal : s'.wal = s.wal) :
    Mirrors s' := by
  refine ⟨hwal ▸ h.ok, hwal ▸ h.buffer, ?_, ?_⟩
  · rw [hwal]
    exact h.sound
  · rw [hwal, hact]
    exact h.same

theorem commit (h : Mirrors s) (env : Env) {batch : List WriteRequest}
    (hok : SyncedStep (.commit batch)) : Mirrors (s.commit env batch) := by
  have hsync : ∀ r ∈ batch, r.sync = true := fun r hr => (hok r hr).1
  have hwal : (s.commit env batch).wal = _ := commit_wal h.buffer hsync
  by_cases hb : batch = []
  · subst hb
    exact h.frame rfl hwal
  · rw [if_neg hb] at hwal
    have hopen : (s.commit env batch).wal.open_
        = s.wal.open_ ++ (s.plan env batch).2.filterMap Entry.walRecord := by
      rw [hwal, Wal.open_]
      dsimp only
      rw [OrdMap.get_insert_self]
      rfl
    have hreq : ∀ e ∈ (s.plan env batch).2, e.req ∈ batch := fun e he =>
      Vlogs.req_mem_of_mem_placeAll he
    refine ⟨wal_commit_ok h.ok batch, ?_, fun r hr => ?_, ?_⟩
    · rw [hwal]
      exact h.buffer
    · rw [hopen] at hr
      rcases List.mem_append.mp hr with hr | hr
      · exact h.sound r hr
      · obtain ⟨e, he, hr⟩ := List.mem_filterMap.mp hr
        obtain ⟨-, -, hkey, hvalue⟩ := hok e.req (hreq e he)
        have hlt : e.req.value.length < 2 ^ 32 := lt_trans hvalue (by decide)
        unfold Entry.walRecord at hr
        split_ifs at hr with hg hd
        · cases hr
          exact hkey
        · cases hr
          have hlen := (ptr_of_mem_placeAll he).2 (Bool.eq_false_iff.mpr hd)
          refine ⟨hkey, e.ptr.fits_held, ?_⟩
          show u32 e.ptr.length ≠ _
          rw [hlen, u32_of_lt hlt, u32_of_lt hlt]
          exact Nat.ne_of_lt hvalue
    · rw [hopen, List.map_append, List.foldl_append]
      exact h.same.foldl (fun e he => ⟨(hok e.req (hreq e he)).2.1, fun hd =>
        ⟨s.wal.current, (ptr_of_mem_placeAll he).1 hd⟩⟩)

theorem step (h : Mirrors s) {a : EngineAction} (hok : SyncedStep a)
    (hs : s.step env a = some s') : Mirrors s' := by
  have haside : a.Aside → Mirrors s' := by
    intro ha
    obtain ⟨hactive, -, hwal, -, -⟩ := aside_frame ha hs
    exact h.frame hactive hwal
  cases a with
  | commit batch =>
    obtain ⟨-, rfl⟩ := step_commit_cases hs
    exact (h.commit env hok).frame rfl rfl
  | maybeFlush => exact hok.elim
  | walRemove id =>
    obtain ⟨hok', hopen⟩ := walRemove_ok h.ok hs
    obtain ⟨-, rfl⟩ := walRemove_cases hs
    exact ⟨hok', h.buffer, hopen ▸ h.sound, hopen ▸ h.same⟩
  | walRemoveFail id =>
    have hok' := wal_step_ok h.ok hs
    obtain ⟨-, rfl⟩ := walRemoveFail_cases hs
    exact ⟨hok', h.buffer, h.sound, h.same⟩
  | gcFinish =>
    obtain ⟨job, -, -, -, rfl⟩ := gcFinish_cases hs
    exact h.frame rfl rfl
  | crash batch n => exact hok.elim
  | _ => exact haside trivial

end Mirrors

/-- **The recovered memtable is the live one.** Since the last rotation the store
has committed synchronous batches. The file of the open segment, replayed into an
empty memtable as recovery does it, has for every key the pointer of the active
memtable, and a tombstone where that has one. -/
theorem recovered_eq_active {s₀ : KVStore} (since : List EngineAction)
    (hrot : JustRotated env s₀) (hok : RunOk (KVStore.step env) (fun _ a => SyncedStep a) s₀ since)
    (hrun : runSteps (KVStore.step env) s₀ since = some s) (k : Key) :
    ((recoverFile (s.wal.fileBytes s.wal.current)).get k).map VLogPointer.identified
      = (s.active.get k).map (fun c => c.ptr.held.identified) := by
  have h : Mirrors s := invariant_of_runOk (fun _ _ _ h hok hs => h.step hok hs)
    (Mirrors.of_justRotated hrot) hok hrun
  have hentries := entries_replay_records h.sound
  rw [recoverFile, Wal.fileBytes]
  rw [Wal.open_] at hentries
  rw [hentries]
  exact h.same k

/-- A key is put and its memtable handed off. -/
def handedOff : KVStore :=
  finalState (KVStore.step Env.small) {}
    ([.commit [{ key := [97], value := [1] }]] ++ [.maybeFlush])

/-- Two keys are put, and one of them deleted while the flush is under way. -/
def mirroredStore : KVStore :=
  finalState (KVStore.step Env.small) handedOff
    [.commit [{ key := [97], value := [2] }, { key := [98], value := [3] }], .flushStart,
      .commit [{ key := [97], isDelete := true }]]

theorem recovered_eq_active_mirroredStore :
    mirroredStore.active.keys = [[97], [98]]
      ∧ ∀ k, ((recoverFile (mirroredStore.wal.fileBytes mirroredStore.wal.current)).get k).map
          VLogPointer.identified
        = (mirroredStore.active.get k).map (fun c => c.ptr.held.identified) := by
  have hrot : JustRotated Env.small handedOff :=
    .rotated [.commit [{ key := [97], value := [1] }]] (runSteps_eq_finalState (by decide +kernel))
  refine ⟨by decide +kernel, recovered_eq_active _ hrot ?_
    (runSteps_eq_finalState (by decide +kernel))⟩
  decide +kernel

end KVStore
