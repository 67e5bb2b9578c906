import ForgeLSM.Buffered

/-!
# Reads while a log is collected

`KVStore::get` finds a pointer first, looks the log of the pointer up later, and
reads from what it got later still. It has no hold on the log in between.
When `run_vlog_gc` has relocated what is live in its log it closes the
descriptors of the object that the map of logs has for it, takes the object out of the
map and removes the file – three steps, the second one under the map's mutex.
`VlogReaders` is the machine of any number of such reads, one such removal and the
engine.

A read that comes to the map after the object left it opens the file again, and
puts what it opened into the map; it tests that the file exists before it opens
it, and opening creates a file that is missing. So a read can get the object
before or after its descriptors are closed, one that a reader opened, one on a new
and empty file, or none. The value comes back exactly when
the object was opened by a reader on the file that was collected, or is the
collector's and still open when it is read (`result_eq_iff`).
-/

/-- How far the removal of the log collected has come. -/
inductive Removal where
  | pending
  /-- The descriptors of its object are closed. -/
  | closed (id : ℕ)
  /-- The object is out of the map. -/
  | erased (id : ℕ)
  /-- The file is removed. -/
  | removed (id : ℕ)
  deriving DecidableEq

/-- The log whose object is closed. -/
def Removal.target : Removal → Option ℕ
  | .pending => none
  | .closed id | .erased id | .removed id => some id

/-- What an object that a reader put into the map has open: the file collected,
or a new and empty one of the same name. -/
inductive Reopened where
  | old
  | new
  deriving DecidableEq

/-- The state of a log as a reader finds it. -/
inductive VlogStage where
  /-- The map has an object for it, and that is open. -/
  | opened
  /-- The object in the map is closed. -/
  | closed
  /-- The map has none, and the file is there. -/
  | erased
  /-- The map has an object that a reader opened on the file. -/
  | reopened
  /-- The map has an object that a reader opened on a new file. -/
  | recreated
  /-- The map has none, and there is no file. -/
  | removed
  deriving DecidableEq

/-- The objects a reader can hold: the one the store opened, and the one a
reader opened. -/
inductive VlogHandle where
  | original
  | reopened
  deriving DecidableEq

/-- What a read did: the key it read and the entry it found, the state of the
log when it got its object and when it read, whether the value was in
the file then, and what it returned. -/
structure ReadTrace where
  key : Key
  cell : Cell
  resolvedAt : VlogStage
  readAt : VlogStage
  onFile : Bool
  result : Option Value
  deriving DecidableEq

/-- **When a read returns its value**: the object it got was open then and still
when it was read, with the value on file; or a reader opened it
on the file collected. An empty value is also read from an empty file. -/
def ReadTrace.Survives (tr : ReadTrace) (v : Value) : Prop :=
  tr.resolvedAt = .opened ∧ tr.readAt = .opened ∧ tr.onFile = true
    ∨ tr.resolvedAt = .reopened
    ∨ tr.resolvedAt = .recreated ∧ v = []

/-- How far a read is. -/
inductive ReaderPhase where
  | idle
  /-- It has the entry of the key. -/
  | found (k : Key) (c : Cell)
  /-- It has seen that the file exists, and is about to open it. -/
  | opening (k : Key) (c : Cell)
  /-- It has an object to read from. -/
  | resolved (k : Key) (c : Cell) (st : VlogStage) (h : VlogHandle)
  | returned (tr : ReadTrace)
  deriving DecidableEq

/-- **A store, a log on its way out and the reads under way.** The logs of the
store are those that can be read by whoever has them open, the one removed
among them. -/
structure VlogReaders where
  store : KVStore
  removal : Removal := .pending
  /-- What the map has for the log after its object left. -/
  reopened : Option Reopened := none
  /-- The reader that holds the mutex of the map and is about to open a file. -/
  opener : Option ℕ := none
  gets : ℕ → ReaderPhase := fun _ => .idle

/-- What can happen. -/
inductive ReaderAction where
  | engine (a : EngineAction)
  /-- `old_vlog->close_files()` -/
  | closeFiles
  /-- `vlogs_.erase(gc_target_id)` -/
  | eraseFromMap
  /-- `std::filesystem::remove(path_to_del)` -/
  | removeFile
  | find (r : ℕ) (k : Key)
  | resolve (r : ℕ)
  | openFile (r : ℕ)
  | read (r : ℕ)
  deriving DecidableEq

namespace VlogReaders

variable {env : Env} {s s' : VlogReaders} {p : ReaderPhase}

/-- How a reader that holds the mutex finds a log. -/
def stage (s : VlogReaders) (id : ℕ) : VlogStage :=
  if s.removal.target = some id then
    match s.removal, s.reopened with
    | .closed _, _ => .closed
    | _, some .old => .reopened
    | _, some .new => .recreated
    | .erased _, none => .erased
    | _, none => .removed
  else if (s.store.vlogs.logs.get id).isSome then .opened
  else .removed

/-- `VLog::read_at` of the object that a reader has. -/
def readHandle (s : VlogReaders) (p : VLogPointer) : VlogHandle → Option Value
  | .original =>
    if s.removal.target = some p.fileId then none
    else (s.store.vlogs.logs.get p.fileId).bind (fun log => log.readAt p)
  | .reopened =>
    match s.reopened with
    | some .old => (s.store.vlogs.logs.get p.fileId).bind (fun log => log.readAt p)
    | some .new => ({} : VLog).readAt p
    | none => none

/-- A reader goes on to its next phase. -/
def setGet (s : VlogReaders) (r : ℕ) (p : ReaderPhase) : VlogReaders :=
  { s with gets := Function.update s.gets r p }

/-- The record of a read that returns. -/
def trace (s : VlogReaders) (k : Key) (c : Cell) (st : VlogStage) (o : Option Value) :
    ReadTrace where
  key := k
  cell := c
  resolvedAt := st
  readAt := s.stage c.ptr.fileId
  onFile := decide (s.store.vlogs.OnFile c.ptr)
  result := o

/-- **A reader looks the log of its pointer up.** -/
def resolve (s : VlogReaders) (k : Key) (c : Cell) : ReaderPhase :=
  let st := s.stage c.ptr.fileId
  match st with
  | .opened | .closed => .resolved k c st .original
  | .reopened | .recreated => .resolved k c st .reopened
  | .erased => .opening k c
  | .removed => .returned (s.trace k c st none)

/-- A reader opens the file it found to exist. -/
def openFile (s : VlogReaders) (r : ℕ) (k : Key) (c : Cell) : VlogReaders :=
  if s.removal = .erased c.ptr.fileId then
    { s.setGet r (.resolved k c .reopened .reopened) with
      reopened := some .old
      opener := none }
  else
    { s.setGet r (.resolved k c .recreated .reopened) with
      reopened := some .new
      opener := none }

/-- **One step of the engine, of the removal or of a read.** The engine's
removal of a log is taken apart, and one of them is followed. -/
def step (env : Env) (s : VlogReaders) : ReaderAction → Option VlogReaders
  | .engine a =>
    if a = .gcFinish ∨ a = .gcStart ∧ s.removal ≠ .pending then none
    else (s.store.step env a).map (fun st => { s with store := st })
  | .closeFiles =>
    if s.removal = .pending ∧ s.store.gcFinish.isSome then
      s.store.gc.map (fun job => { s with removal := .closed job.target })
    else none
  | .eraseFromMap =>
    match s.removal, s.opener with
    | .closed id, none => some { s with removal := .erased id }
    | _, _ => none
  | .removeFile =>
    match s.removal with
    | .erased id => some { s with store := { s.store with gc := none }, removal := .removed id }
    | _ => none
  | .find r k =>
    match s.gets r with
    | .idle => (live (s.store.lookup env k)).map (fun c => s.setGet r (.found k c))
    | _ => none
  | .resolve r =>
    match s.gets r, s.opener with
    | .found k c, none =>
      -- who is to open the file keeps the mutex
      let opener := if s.stage c.ptr.fileId = .erased then some r else none
      some { s.setGet r (s.resolve k c) with opener := opener }
    | _, _ => none
  | .openFile r =>
    match s.gets r with
    | .opening k c => some (s.openFile r k c)
    | _ => none
  | .read r =>
    match s.gets r with
    | .resolved k c st h =>
      some (s.setGet r (.returned (s.trace k c st (s.readHandle c.ptr h))))
    | _ => none

/-- A step without kills, whose records fit. -/
def FitsStep (s : VlogReaders) : ReaderAction → Prop
  | .engine a => KVStore.FitsStep s.store a
  | _ => True

instance (s : VlogReaders) (a : ReaderAction) : Decidable (FitsStep s a) := by
  cases a <;> unfold FitsStep <;> infer_instance

/-! ## The invariant -/

/-- An entry that a read found stands for a put of its key, and its pointer
leads to the value. -/
def Leads (s : VlogReaders) (k : Key) (c : Cell) (v : Value) : Prop :=
  s.store.history.opAt c.stamp = some ⟨k, some v⟩ ∧ PointsTo s.store.vlogs k (some v) c.ptr

/-- The object a reader has is the one of the state it found the log in. -/
def HandleOk (s : VlogReaders) (id : ℕ) (st : VlogStage) : VlogHandle → Prop
  | .original => st = .opened ∨ st = .closed ∧ s.removal.target = some id
  | .reopened => s.removal.target = some id
      ∧ (st = .reopened ∧ s.reopened = some .old ∨ st = .recreated ∧ s.reopened = some .new)

/-- What holds of a read in each of its phases. -/
def PhaseOk (s : VlogReaders) (r : ℕ) : ReaderPhase → Prop
  | .idle => True
  | .found k c => ∃ v, s.Leads k c v
  | .opening k c => (∃ v, s.Leads k c v) ∧ s.removal.target = some c.ptr.fileId
      ∧ s.opener = some r ∧ s.reopened = none
  | .resolved k c st h => (∃ v, s.Leads k c v) ∧ s.HandleOk c.ptr.fileId st h
  | .returned tr => ∃ v, s.store.history.opAt tr.cell.stamp = some ⟨tr.key, some v⟩
      ∧ (tr.result = some v ↔ tr.Survives v)

/-- **What holds of the readers.** -/
structure Ok (env : Env) (s : VlogReaders) : Prop where
  pipeline : KVStore.Pipeline env s.store
  pointed : KVStore.Pointed s.store
  /-- The log collected is an old one, on disk. -/
  target : ∀ id, s.removal.target = some id → id < s.store.vlogs.current
    ∧ ∃ log, s.store.vlogs.logs.get id = some log
  readers : ∀ r, s.PhaseOk r (s.gets r)

/-- A later state, as far as readers not acting can tell. -/
structure Follows (s s' : VlogReaders) : Prop where
  history : ∃ t, s'.store.history = s.store.history ++ t
  vlogs : s.store.vlogs.Appends s'.store.vlogs
  target : ∀ id, s.removal.target = some id → s'.removal.target = some id
  reopened : ∀ o, s.reopened = some o → s'.reopened = some o

theorem Follows.of_store (hst : s'.store = s.store) (hrem : s'.removal = s.removal)
    (hre : ∀ o, s.reopened = some o → s'.reopened = some o) : Follows s s' where
  history := ⟨[], by rw [hst, List.append_nil]⟩
  vlogs := hst ▸ Vlogs.Appends.refl _
  target := by
    rw [hrem]
    exact fun id h => h
  reopened := hre

/-! ### Phases -/

theorem opAt_follows (hf : Follows s s') {n : ℕ} {op : Op} (h : s.store.history.opAt n = some op) :
    s'.store.history.opAt n = some op := by
  obtain ⟨t, ht⟩ := hf.history
  rw [ht, History.opAt_append_left (History.le_length_of_opAt h), h]

theorem Leads.follows {k : Key} {c : Cell} {v : Value} (h : s.Leads k c v) (hf : Follows s s') :
    s'.Leads k c v :=
  ⟨opAt_follows hf h.1, h.2.grows hf.vlogs.toGrows⟩

theorem PhaseOk.follows {r : ℕ} (h : s.PhaseOk r p) (hf : Follows s s')
    (hopen : s.opener = some r → s'.opener = some r ∧ s'.reopened = s.reopened) :
    s'.PhaseOk r p := by
  cases p with
  | idle => trivial
  | found k c =>
    obtain ⟨v, hv⟩ := h
    exact ⟨v, hv.follows hf⟩
  | opening k c =>
    obtain ⟨⟨v, hv⟩, htarget, hr, hnone⟩ := h
    exact ⟨⟨v, hv.follows hf⟩, hf.target _ htarget, (hopen hr).1, (hopen hr).2.trans hnone⟩
  | resolved k c st hd =>
    obtain ⟨⟨v, hv⟩, hhandle⟩ := h
    refine ⟨⟨v, hv.follows hf⟩, ?_⟩
    cases hd with
    | original => exact hhandle.imp_right (fun hc => ⟨hc.1, hf.target _ hc.2⟩)
    | reopened =>
      obtain ⟨htarget, ⟨hst, ho⟩ | ⟨hst, ho⟩⟩ := hhandle
      · exact ⟨hf.target _ htarget, Or.inl ⟨hst, hf.reopened _ ho⟩⟩
      · exact ⟨hf.target _ htarget, Or.inr ⟨hst, hf.reopened _ ho⟩⟩
  | returned tr =>
    obtain ⟨v, hop, hiff⟩ := h
    exact ⟨v, opAt_follows hf hop, hiff⟩

/-- One reader goes on, the others stay. -/
theorem PhaseOk.update {r : ℕ} (hp : s'.PhaseOk r p)
    (hothers : ∀ q, q ≠ r → s'.PhaseOk q (s.gets q)) (q : ℕ) :
    s'.PhaseOk q (Function.update s.gets r p q) := by
  by_cases hq : q = r
  · subst hq
    rwa [Function.update_self]
  · rw [Function.update_of_ne hq]
    exact hothers q hq

/-! ### What a reader finds -/

theorem stage_eq_opened {id : ℕ} :
    s.stage id = .opened ↔ s.removal.target ≠ some id ∧ (s.store.vlogs.logs.get id).isSome := by
  unfold stage
  split_ifs with htarget hlog
  · refine ⟨fun h => ?_, fun h => absurd htarget h.1⟩
    split at h <;> cases h
  · exact ⟨fun _ => ⟨htarget, hlog⟩, fun _ => rfl⟩
  · simp [hlog]

/-- Any other state than open or gone is one of the log collected. -/
theorem target_of_stage (id : ℕ) (hopen : s.stage id ≠ .opened) (hgone : s.stage id ≠ .removed) :
    s.removal.target = some id := by
  by_contra htarget
  unfold stage at hopen hgone
  rw [if_neg htarget] at hopen hgone
  split_ifs at hopen hgone
  · exact hopen rfl
  · exact hgone rfl

/-- What the map has after the object of the log left it. -/
theorem reopened_of_stage (s : VlogReaders) (id : ℕ) :
    (s.stage id = .reopened → s.reopened = some .old)
      ∧ (s.stage id = .recreated → s.reopened = some .new)
      ∧ (s.stage id = .erased → s.reopened = none) := by
  unfold stage
  split_ifs
  · split <;> simp_all
  · simp
  · simp

/-- **What a reader gets from the map** is right for the state it finds. -/
theorem PhaseOk.resolve {r : ℕ} {k : Key} {c : Cell} (h : s.PhaseOk r (.found k c))
    (hf : Follows s s') (hre : s'.reopened = s.reopened)
    (hopener : s'.opener = if s.stage c.ptr.fileId = .erased then some r else none) :
    s'.PhaseOk r (s.resolve k c) := by
  obtain ⟨v, hv⟩ := h
  have hv' := hv.follows hf
  have hmap := reopened_of_stage s c.ptr.fileId
  have htarget : s.stage c.ptr.fileId ≠ .opened → s.stage c.ptr.fileId ≠ .removed →
      s'.removal.target = some c.ptr.fileId :=
    fun hopen hgone => hf.target _ (target_of_stage _ hopen hgone)
  rw [← hre] at hmap
  unfold VlogReaders.resolve
  cases hst : s.stage c.ptr.fileId with
  | opened => exact ⟨⟨v, hv'⟩, Or.inl rfl⟩
  | closed => exact ⟨⟨v, hv'⟩, Or.inr ⟨rfl, htarget (by simp [hst]) (by simp [hst])⟩⟩
  | erased =>
    rw [hst, if_pos rfl] at hopener
    exact ⟨⟨v, hv'⟩, htarget (by simp [hst]) (by simp [hst]), hopener, hmap.2.2 hst⟩
  | reopened =>
    exact ⟨⟨v, hv'⟩, htarget (by simp [hst]) (by simp [hst]), Or.inl ⟨rfl, hmap.1 hst⟩⟩
  | recreated =>
    exact ⟨⟨v, hv'⟩, htarget (by simp [hst]) (by simp [hst]), Or.inr ⟨rfl, hmap.2.1 hst⟩⟩
  | removed => exact ⟨v, hv'.1, by simp [trace, ReadTrace.Survives]⟩

/-- What is read from an empty file. -/
theorem readAt_empty (p : VLogPointer) :
    ({} : VLog).readAt p = if p.length = 0 then some [] else none := by
  unfold VLog.readAt VLog.pread
  split_ifs with hzero hle
  · rfl
  · have hle' : p.length = 0 ∨ p.offset + p.length ≤ 0 := hle
    omega
  · rfl

/-- **What a reader reads from what it got.** -/
theorem Ok.read (h : Ok env s) {k : Key} {c : Cell} {v : Value} (hv : s.Leads k c v)
    {st : VlogStage} {hd : VlogHandle} (hhandle : s.HandleOk c.ptr.fileId st hd) :
    s.readHandle c.ptr hd = some v ↔ (s.trace k c st (s.readHandle c.ptr hd)).Survives v := by
  have hlen : ∀ log, s.store.vlogs.logs.get c.ptr.fileId = some log →
      c.ptr.Holds log.content v := fun log hlog => (hv.2.2.2 log hlog).holds
  unfold ReadTrace.Survives trace readHandle
  dsimp only
  cases hd with
  | original =>
    rw [stage_eq_opened]
    rcases hhandle with rfl | ⟨rfl, htarget⟩
    · by_cases htarget : s.removal.target = some c.ptr.fileId
      · simp [htarget]
      · cases hlog : s.store.vlogs.logs.get c.ptr.fileId with
        | none => simp [htarget]
        | some log =>
          simp [htarget, (hlen log hlog).readAt_content, Vlogs.OnFile, hlog, or_iff_not_imp_left]
    · simp [htarget]
  | reopened =>
    obtain ⟨htarget, hcase⟩ := hhandle
    obtain ⟨hlt, log, hlog⟩ := h.target _ htarget
    have hfile : c.ptr.Holds log.file v := by
      rw [h.pointed.file_eq_content hlog hlt]
      exact hlen log hlog
    rcases hcase with ⟨rfl, ho⟩ | ⟨rfl, ho⟩
    · simp [ho, hlog, hfile.readAt]
    · have hzero : c.ptr.length = 0 ↔ v = [] := by
        rw [← List.length_eq_zero_iff, hfile.length_eq]
      simp only [ho, readAt_empty, hzero]
      by_cases hnil : v = [] <;> simp [hnil, eq_comm]

/-! ## Steps -/

theorem Ok.of_store {st : KVStore} (h : KVStore.Reached env st) : Ok env { store := st } where
  pipeline := h.pipeline
  pointed := h.pointed
  target id h := by cases h
  readers r := trivial

/-- Without the engine's removal the logs are only appended to. -/
theorem appends_engine {st st' : KVStore} {a : EngineAction} (hc : KVStore.Pointed st)
    (ha : KVStore.FitsStep st a) (hfin : a ≠ .gcFinish) (hs : st.step env a = some st') :
    st.vlogs.Appends st'.vlogs := by
  have hback : a.Background → ¬ a.Collecting → st.vlogs.Appends st'.vlogs := by
    intro hb hgc
    rw [(KVStore.background_frame hb hgc hs).1]
    exact Vlogs.Appends.refl _
  have haside : a.Aside → st.vlogs.Appends st'.vlogs := by
    intro ha
    rw [(KVStore.aside_frame ha hs).2.1]
    exact Vlogs.Appends.refl _
  cases a with
  | commit batch =>
    obtain ⟨hen, rfl⟩ := KVStore.step_commit_cases hs
    exact (KVStore.commit_vlogs_appends env hc.vlogs (hc.fits hen ha)).2.2
  | crash batch n => exact ha.elim
  | gcStart | gcScan => exact haside trivial
  | gcFinish => exact absurd rfl hfin
  | _ => exact hback trivial id

theorem Ok.engine (h : Ok env s) {a : EngineAction} (ha : KVStore.FitsStep s.store a)
    (hs : s.step env (.engine a) = some s') : Ok env s' := by
  unfold step at hs
  dsimp only at hs
  split_ifs at hs with hskip
  obtain ⟨st, hst, rfl⟩ := Option.map_eq_some_iff.mp hs
  have hfin : a ≠ .gcFinish := fun heq => hskip (Or.inl heq)
  have happ := appends_engine h.pointed ha hfin hst
  have hf : Follows s { s with store := st } :=
    { history := ⟨_, KVStore.history_step h.pipeline ha.ne_crash hst⟩
      vlogs := happ
      target := fun id hid => hid
      reopened := fun o ho => ho }
  refine
    { pipeline := h.pipeline.step ha.ne_crash hst
      pointed := h.pointed.step (fun _ => h.pipeline) ha hst
      target := fun id hid => ?_
      readers := fun r => (h.readers r).follows hf (fun ho => ⟨ho, rfl⟩) }
  obtain ⟨hlt, log, hlog⟩ := h.target id hid
  exact ⟨lt_of_lt_of_le hlt happ.current_le, happ.mem id log hlog⟩

/-- A step of the removal: the readers do not act. -/
theorem Ok.removing (h : Ok env s) {st : KVStore} {removal : Removal}
    (hst : st = s.store ∨ st = { s.store with gc := none })
    (hkept : ∀ id, s.removal.target = some id → removal.target = some id)
    (hnew : ∀ id, removal.target = some id → id < s.store.vlogs.current
      ∧ ∃ log, s.store.vlogs.logs.get id = some log) :
    Ok env { s with store := st, removal := removal } := by
  have hpipeline : KVStore.Pipeline env st ∧ KVStore.Pointed st
      ∧ st.vlogs = s.store.vlogs ∧ st.history = s.store.history := by
    rcases hst with rfl | rfl
    · exact ⟨h.pipeline, h.pointed, rfl, rfl⟩
    · refine ⟨h.pipeline.frame rfl rfl rfl rfl rfl, ?_, rfl, rfl⟩
      exact
        { vlogs := h.pointed.vlogs
          cells := ⟨h.pointed.cells.active, h.pointed.cells.queue, h.pointed.cells.lsm⟩
          gcTarget := fun job hjob => by cases hjob
          gcLive := fun job hjob => by cases hjob }
  obtain ⟨hp, hc, hv, hh⟩ := hpipeline
  have hf : Follows s { s with store := st, removal := removal } :=
    { history := ⟨[], by rw [List.append_nil]; exact hh⟩
      vlogs := hv ▸ Vlogs.Appends.refl _
      target := hkept
      reopened := fun o ho => ho }
  exact
    { pipeline := hp
      pointed := hc
      target := fun id hid => hv ▸ hnew id hid
      readers := fun r => (h.readers r).follows hf (fun ho => ⟨ho, rfl⟩) }

/-- A step of a reader. -/
theorem Ok.reading (h : Ok env s) {r : ℕ} (hst : s'.store = s.store) (hrem : s'.removal = s.removal)
    (hgets : s'.gets = Function.update s.gets r p)
    (hre : ∀ o, s.reopened = some o → s'.reopened = some o)
    (hopen : ∀ q, q ≠ r → s.opener = some q → s'.opener = some q ∧ s'.reopened = s.reopened)
    (hp : s'.PhaseOk r p) : Ok env s' where
  pipeline := hst ▸ h.pipeline
  pointed := hst ▸ h.pointed
  target := by
    rw [hst, hrem]
    exact h.target
  readers := by
    rw [hgets]
    exact PhaseOk.update hp (fun q hq =>
      (h.readers q).follows (.of_store hst hrem hre) (hopen q hq))

/-- **Every step keeps it.** -/
theorem Ok.step {a : ReaderAction} (h : Ok env s) (ha : FitsStep s a)
    (hs : s.step env a = some s') : Ok env s' := by
  cases a with
  | engine a => exact h.engine ha hs
  | closeFiles =>
    unfold VlogReaders.step at hs
    dsimp only at hs
    split_ifs at hs with hen
    obtain ⟨job, hjob, rfl⟩ := Option.map_eq_some_iff.mp hs
    refine h.removing (Or.inl rfl) (fun id hid => ?_) (fun id hid => ?_)
    · rw [hen.1] at hid
      cases hid
    · cases hid
      obtain ⟨hlt, log, -, -, hlog, -⟩ := h.pointed.gcTarget job hjob
      exact ⟨hlt, log, hlog⟩
  | eraseFromMap =>
    unfold VlogReaders.step at hs
    dsimp only at hs
    split at hs
    · rename_i id hid _
      cases hs
      refine h.removing (Or.inl rfl) (fun id' hid' => ?_) (fun id' hid' => h.target id' ?_)
      · rwa [hid] at hid'
      · rwa [hid]
    · cases hs
  | removeFile =>
    unfold VlogReaders.step at hs
    dsimp only at hs
    split at hs
    · rename_i id hid
      cases hs
      refine h.removing (Or.inr rfl) (fun id' hid' => ?_) (fun id' hid' => h.target id' ?_)
      · rwa [hid] at hid'
      · rwa [hid]
    · cases hs
  | find r k =>
    unfold VlogReaders.step at hs
    dsimp only at hs
    split at hs
    · obtain ⟨c, hc, rfl⟩ := Option.map_eq_some_iff.mp hs
      obtain ⟨hlook, htomb⟩ := live_eq_some.mp hc
      obtain ⟨v, hv⟩ := (h.pointed.cells.lookup h.pipeline hlook).put htomb
      exact h.reading rfl rfl rfl (fun o ho => ho) (fun q _ ho => ⟨ho, rfl⟩) ⟨v, hv⟩
    · cases hs
  | resolve r =>
    unfold VlogReaders.step at hs
    dsimp only at hs
    split at hs
    · rename_i k c hget hopener
      cases hs
      have hp := h.readers r
      rw [hget] at hp
      refine h.reading rfl rfl rfl (fun o ho => ho) (fun q _ ho => ?_)
        (hp.resolve (.of_store rfl rfl (fun o ho => ho)) rfl rfl)
      rw [hopener] at ho
      cases ho
    · cases hs
  | openFile r =>
    unfold VlogReaders.step at hs
    dsimp only at hs
    split at hs
    · rename_i k c hget
      cases hs
      have hp := h.readers r
      rw [hget] at hp
      obtain ⟨⟨v, hv⟩, htarget, hopener, hnone⟩ := hp
      have hre : ∀ o (o' : Option Reopened), s.reopened = some o → o' = some o := by
        intro o o' ho
        rw [hnone] at ho
        cases ho
      have hopen : ∀ q (P : Prop), q ≠ r → s.opener = some q → P := by
        intro q P hq ho
        exact absurd (Option.some.inj (ho.symm.trans hopener)) hq
      unfold VlogReaders.openFile
      split_ifs
      · exact h.reading rfl rfl rfl (fun o => hre o _) (fun q => hopen q _)
          ⟨⟨v, hv⟩, htarget, Or.inl ⟨rfl, rfl⟩⟩
      · exact h.reading rfl rfl rfl (fun o => hre o _) (fun q => hopen q _)
          ⟨⟨v, hv⟩, htarget, Or.inr ⟨rfl, rfl⟩⟩
    · cases hs
  | read r =>
    unfold VlogReaders.step at hs
    dsimp only at hs
    split at hs
    · rename_i k c st hd hget
      cases hs
      have hp := h.readers r
      rw [hget] at hp
      obtain ⟨⟨v, hv⟩, hhandle⟩ := hp
      exact h.reading rfl rfl rfl (fun o ho => ho) (fun q _ ho => ⟨ho, rfl⟩)
        ⟨v, hv.1, h.read hv hhandle⟩
    · cases hs

/-- **Which reads survive the removal of a log.** Take any state a store can get
to without a kill, and any interleaving from there of reads, of commits, flushes
and compactions, and of a run of `run_vlog_gc` with the steps of its removal apart. A
read that found an entry, which stands for a put of its key, returns the value of
that put exactly when the object it got from the map was open then and still when it was
read, with the value on file, or was one a reader opened on the file
collected – or, the value being empty, on a new file. -/
theorem result_eq_iff {as : List EngineAction} {st : KVStore}
    (hstart : RunOk (KVStore.step env) KVStore.FitsStep {} as)
    (hstore : runSteps (KVStore.step env) {} as = some st) {bs : List ReaderAction}
    (hok : RunOk (VlogReaders.step env) FitsStep { store := st } bs)
    (hrun : runSteps (VlogReaders.step env) { store := st } bs = some s) {r : ℕ} {tr : ReadTrace}
    (hret : s.gets r = .returned tr) :
    ∃ v, s.store.history.opAt tr.cell.stamp = some ⟨tr.key, some v⟩
      ∧ (tr.result = some v ↔ tr.Survives v) := by
  have hreached : KVStore.Reached env st :=
    invariant_of_runOk (fun _ _ _ hu ha hs => KVStore.Reached.step hu ha hs) .of_fresh hstart hstore
  have h : Ok env s :=
    invariant_of_runOk (fun _ _ _ hu ha hs => Ok.step hu ha hs) (.of_store hreached) hok hrun
  have hphase := h.readers r
  rw [hret] at hphase
  exact hphase

/-- Two reads find their pointer before the collector relocates the value. The
first is done before the object is closed, the second opens the file before it
is removed, and reads it after. -/
def twoReads : List ReaderAction :=
  [.find 0 [97], .find 1 [97], .engine (.commit [KVStore.relocation]), .resolve 0, .read 0,
    .closeFiles, .eraseFromMap, .resolve 1, .openFile 1, .removeFile, .read 1]

/-- The entry of the second value of the key. -/
def secondValue : Cell := ⟨⟨1, 19, 1⟩, 2⟩

theorem result_eq_iff_twoReads :
    let st := finalState (KVStore.step .small) {} KVStore.untilRelocation
    let s := finalState (VlogReaders.step .small) { store := st } twoReads
    (∃ tr v, s.gets 0 = .returned tr ∧ tr.resolvedAt = .opened
      ∧ s.store.history.opAt tr.cell.stamp = some ⟨tr.key, some v⟩ ∧ tr.result = some v)
    ∧ ∃ tr v, s.gets 1 = .returned tr ∧ tr.resolvedAt = .reopened
      ∧ s.store.history.opAt tr.cell.stamp = some ⟨tr.key, some v⟩ ∧ tr.result = some v := by
  intro st s
  have hstart : RunOk (KVStore.step .small) KVStore.FitsStep {} KVStore.untilRelocation := by
    decide +kernel
  have hstore : runSteps (KVStore.step .small) {} KVStore.untilRelocation = some st :=
    runSteps_eq_finalState (by decide +kernel)
  have hok : RunOk (VlogReaders.step .small) FitsStep { store := st } twoReads := by decide +kernel
  have hrun : runSteps (VlogReaders.step .small) { store := st } twoReads = some s :=
    runSteps_eq_finalState (by decide +kernel)
  have h₀ : s.gets 0 = .returned ⟨[97], secondValue, .opened, .opened, true, some [2]⟩ := by
    decide +kernel
  have h₁ : s.gets 1 = .returned ⟨[97], secondValue, .reopened, .reopened, true, some [2]⟩ := by
    decide +kernel
  obtain ⟨v₀, hop₀, hiff₀⟩ := result_eq_iff hstart hstore hok hrun h₀
  obtain ⟨v₁, hop₁, hiff₁⟩ := result_eq_iff hstart hstore hok hrun h₁
  exact ⟨⟨_, v₀, h₀, rfl, hop₀, hiff₀.mpr (Or.inl ⟨rfl, rfl, rfl⟩)⟩,
    ⟨_, v₁, h₁, rfl, hop₁, hiff₁.mpr (Or.inr (Or.inl rfl))⟩⟩

/-- A read finds its pointer before the value is relocated. How it ends, and what a
read at the end returns. -/
def readAround (bs : List ReaderAction) : Option (ReaderPhase × Option Value) :=
  let st := finalState (KVStore.step .small) {} KVStore.untilRelocation
  (runSteps (VlogReaders.step .small) { store := st }
    (.find 0 [97] :: .engine (.commit [KVStore.relocation]) :: bs)).map
      (fun s => (s.gets 0, s.store.get .small [97]))

/-- **Reads of a key that is there throughout come back empty**: one that got the
object before it was closed and reads it after, one that gets it closed, one
that comes when the file is gone, and one that finds the file, and opens a new one
because it is removed in between. -/
theorem result_removal :
    readAround [.resolve 0, .closeFiles, .read 0]
        = some (.returned ⟨[97], secondValue, .opened, .closed, true, none⟩, some [2])
      ∧ readAround [.closeFiles, .resolve 0, .read 0]
        = some (.returned ⟨[97], secondValue, .closed, .closed, true, none⟩, some [2])
      ∧ readAround [.closeFiles, .eraseFromMap, .removeFile, .resolve 0]
        = some (.returned ⟨[97], secondValue, .removed, .removed, true, none⟩, some [2])
      ∧ readAround [.closeFiles, .eraseFromMap, .resolve 0, .removeFile, .openFile 0, .read 0]
        = some (.returned ⟨[97], secondValue, .recreated, .recreated, true, none⟩, some [2]) := by
  decide +kernel

end VlogReaders
