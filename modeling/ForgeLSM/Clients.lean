import ForgeLSM.Reads
import ForgeLSM.SplitRead
import ForgeLSM.Util.Linearizability

/-!
# Clients whose calls overlap

Any number of clients put, delete and get at the same time. A write is pushed
onto the queue, some leader commits it in a batch with what else was there, and
it returns later; a get takes hold of the memtables, probes them, takes the
version and probes its tables, and reads the value log, and everything else goes
on in between. `Clients` is the machine of all these calls and the background
work of the engine.

What the clients see of it is linearizable (`Clients.linearizable`): there is
one order of the calls that a map would have answered in the same way, and in
which no call comes before one that had returned when it was made. The writes
are ordered by the commits. A get takes effect at some time between its
invocation and its return, but which one it was depends on what the background
did meanwhile; that there is one, the invariant of the read in two steps says
(`SplitRead.PhaseOk`), and the value log still has the value when the get comes
to read it.

The requests are synchronous and fit the encoding of a record, and value logs are
not collected. A hand-off can fall inside the commit of another leader, but only
where it might as well come before or after it: at other points the code loses
writes (`KVStore.get_lateLeader`).
-/

/-! ## A map -/

/-- **What the store is for**: a map from keys to values. -/
def mapObject : SeqObject (Key → Option Value) Op Key (Option Value) where
  init _ := none
  update m op := Function.update m op.key op.value
  query m k := m k

/-- Applying operations one after the other gives what the history says. -/
theorem mapObject_after (h : History) (k : Key) : mapObject.after h k = h.value k := by
  induction h using List.reverseRecOn with
  | nil => rfl
  | append_singleton h op ih =>
    rw [SeqObject.after, List.foldl_append, History.value, History.lastOp_append_singleton]
    show Function.update (mapObject.after h) op.key op.value k = _
    by_cases hk : op.key = k
    · rw [if_pos hk, ← hk, Function.update_self]
      rfl
    · rw [if_neg hk, Function.update_of_ne (Ne.symm hk), ih]
      rfl

/-! ## The machine -/

/-- The request `put` or `delete_key` makes of an operation. -/
def Op.request (op : Op) : WriteRequest where
  key := op.key
  value := op.value.getD []
  isDelete := op.value.isNone

/-- How far a call is. -/
inductive ClientPhase where
  | invoked
  /-- A write in `write_queue_`. -/
  | queued
  /-- A write whose batch is committed. -/
  | committed
  /-- A get under way. -/
  | probing (p : GetPhase)
  /-- The answer, and how many operations were committed by then. -/
  | returned (answer : ObjAnswer (Option Value)) (upTo : ℕ)

/-- A call of a client. -/
structure ClientCall where
  asked : ObjCall Op Key
  /-- How many operations were committed when it was made. -/
  since : ℕ
  phase : ClientPhase := .invoked

/-- What the clients see, with how many operations were committed by then. -/
abbrev ClientEvent := ℕ × CallEvent Op Key (Option Value)

/-- **The store and the calls of its clients.** -/
structure Clients where
  store : KVStore := {}
  /-- The calls, by their ids. -/
  calls : ℕ → Option ClientCall := fun _ => none
  /-- The id of the next call. -/
  next : ℕ := 0
  /-- The writes in `write_queue_`, oldest first. -/
  queue : List (ℕ × Op) := []
  /-- The writes committed, in order. -/
  log : List (ℕ × Op) := []
  events : List ClientEvent := []

/-- What can happen. -/
inductive ClientAction where
  /-- `put` or `delete_key` is called. -/
  | write (op : Op)
  | push (i : ℕ)
  /-- A leader commits the oldest requests of the queue. -/
  | commit (n : ℕ)
  /-- It does so while the next leader hands off the memtable. -/
  | commitAround (n : ℕ) (point : HandOffPoint)
  /-- A write whose batch is committed returns. -/
  | acknowledge (i : ℕ)
  /-- `get` is called. -/
  | read (k : Key)
  /-- It takes hold of the memtables. -/
  | snapshot (i : ℕ)
  | probeMemtables (i : ℕ)
  | readVersion (i : ℕ)
  /-- It reads the value log and returns. -/
  | readLog (i : ℕ)
  | background (a : EngineAction)

/-- The phase of a write that is in the log. -/
def ClientPhase.logged : ClientPhase → Bool
  | .committed | .returned _ _ => true
  | _ => false

/-- A call after a step of the engine that commits some of the writes. -/
def ClientPhase.follow (f : GetPhase → GetPhase) (mine : Bool) : ClientPhase → ClientPhase
  | .queued => if mine then .committed else .queued
  | .probing p => .probing (f p)
  | .invoked => .invoked
  | .committed => .committed
  | .returned answer upTo => .returned answer upTo

/-- What a get holds after a commit around a hand-off: the memtable that was
active has the puts of the batch, when its leader got hold of it in time. -/
def GetPhase.around (committed : KVStore) (point : HandOffPoint) : GetPhase → GetPhase
  | .snapped act true imms =>
    match point with
    | .putting _ => .snapped committed.active false imms
    | _ => .snapped act false imms
  | p => p

namespace Clients

/-- The time: how many operations are committed. -/
def now (s : Clients) : ℕ := s.store.history.length

/-- A call comes to be in a state. -/
def set (s : Clients) (i : ℕ) (c : ClientCall) : Clients :=
  { s with calls := Function.update s.calls i (some c) }

/-- A new call. -/
def invoke (s : Clients) (asked : ObjCall Op Key) : Clients :=
  { s.set s.next { asked := asked, since := s.now } with
    next := s.next + 1
    events := s.events ++ [(s.now, .invoke s.next asked)] }

/-- A call returns. -/
def respond (s : Clients) (i : ℕ) (c : ClientCall) (answer : ObjAnswer (Option Value)) : Clients :=
  { s.set i { c with phase := .returned answer s.now } with
    events := s.events ++ [(s.now, .respond ⟨i, c.asked, answer⟩)] }

/-- The store has moved on, with the oldest writes of the queue committed. -/
def moved (s : Clients) (f : GetPhase → GetPhase) (n : ℕ) (st : KVStore) : Clients :=
  { s with
    store := st
    calls := fun i => (s.calls i).map (fun c =>
      { c with phase := c.phase.follow f (decide (i ∈ (s.queue.take n).map Prod.fst)) })
    queue := s.queue.drop n
    log := s.log ++ s.queue.take n }

/-- A step of the engine that commits some of the writes. -/
def engine (env : Env) (s : Clients) (a : EngineAction) (n : ℕ) : Option Clients :=
  (s.store.step env a).map (fun st => s.moved (GetPhase.follow st a) n st)

/-- The batch of the oldest writes of the queue. -/
def batch (s : Clients) (n : ℕ) : List WriteRequest := (s.queue.take n).map (fun x => x.2.request)

/-- A step of a get, as of a read alone. -/
def probe (env : Env) (s : Clients) (i : ℕ) (a : ReadAction) : Option Clients :=
  match s.calls i with
  | some ⟨.query k, since, .probing p⟩ =>
    (SplitRead.step env k ⟨s.store, p⟩ a).map (fun r => s.set i ⟨.query k, since, .probing r.phase⟩)
  | _ => none

/-- **One step of a client or of the engine.** -/
def step (env : Env) (s : Clients) : ClientAction → Option Clients
  | .write op => some (s.invoke (.update op))
  | .push i =>
    match s.calls i with
    | some ⟨.update op, since, .invoked⟩ =>
      some { s.set i ⟨.update op, since, .queued⟩ with queue := s.queue ++ [(i, op)] }
    | _ => none
  | .commit n => s.engine env (.commit (s.batch n)) n
  | .commitAround n point =>
    (s.store.leaderStep env (.commitAround (s.batch n) point)).map (fun st =>
      s.moved (GetPhase.around (s.store.commit env (s.batch n)) point) n st)
  | .acknowledge i =>
    match s.calls i with
    | some ⟨.update op, since, .committed⟩ =>
      some (s.respond i ⟨.update op, since, .committed⟩ .done)
    | _ => none
  | .read k => some (s.invoke (.query k))
  | .snapshot i =>
    match s.calls i with
    | some ⟨.query k, since, .invoked⟩ =>
      some (s.set i ⟨.query k, since, .probing (SplitRead.start s.store).phase⟩)
    | _ => none
  | .probeMemtables i => s.probe env i .probeMemtables
  | .readVersion i => s.probe env i .readVersion
  | .readLog i =>
    match s.calls i with
    | some ⟨.query k, since, .probing (.found c)⟩ =>
      some (s.respond i ⟨.query k, since, .probing (.found c)⟩
        (.value (s.store.vlogs.readCell c)))
    | _ => none
  | .background a => s.engine env a 0

/-- **The condition on the steps**: records fit their encoding, a hand-off inside
a commit might as well come before or after it, and the background work is not
the collector's. -/
def FitsStep (s : Clients) : ClientAction → Bool
  | .write op => decide (VLog.FitsRecord (op.key, op.value.getD []))
  | .commitAround n point => (LeaderAction.commitAround (s.batch n) point).steps.isSome
  | .background (.commit _) | .background (.crash _ _) => false
  | .background .gcStart | .background .gcScan | .background .gcFinish => false
  | _ => true

end Clients

/-! ## The store -/

@[simp] theorem Op.op_request (op : Op) : op.request.op = op := by
  obtain ⟨k, v⟩ := op
  cases v <;> rfl

variable {a : EngineAction}

namespace KVStore

variable {env : Env} {s s' : KVStore} {k : Key}

/-- **A cell can be read**: it stands for its operation, and the value log it
leads to is there. -/
def Readable (h : History) (vl : Vlogs) (k : Key) (c : Cell) : Prop :=
  CellOk h vl k c ∧ (c.ptr.isTombstone = false → ∃ log, vl.logs.get c.ptr.fileId = some log)

theorem Readable.appends {h : History} {vl vl' : Vlogs} (hvl : vl.Appends vl') (t : History)
    {c : Cell} (hc : Readable h vl k c) : Readable (h ++ t) vl' k c := by
  refine ⟨hc.1.grows hvl.toGrows t, fun hlive => ?_⟩
  obtain ⟨log, hlog⟩ := hc.2 hlive
  exact hvl.mem _ log hlog

/-- **What is read of a cell** is the value of its operation. -/
theorem Readable.value {h : History} {vl : Vlogs} (hsync : vl.Synced) {o : Option Cell}
    (ho : ∀ c, o = some c → Readable h vl k c) {n : ℕ}
    (hn : (live o).map Cell.stamp = History.putStamp (h.take n) k) :
    vl.readCell o = History.value (h.take n) k := by
  unfold Vlogs.readCell
  cases hl : live o with
  | none =>
    rw [hl] at hn
    rw [Option.bind_none, History.value_eq_none_of_putStamp hn.symm]
  | some c =>
    obtain ⟨hoc, htomb⟩ := live_eq_some.mp hl
    obtain ⟨hcell, hlog⟩ := ho c hoc
    obtain ⟨v, hop, -, -, hrec⟩ := hcell.put htomb
    obtain ⟨log, hlog⟩ := hlog htomb
    rw [hl] at hn
    have hlast := History.lastStamp_eq_of_putStamp hn.symm
    have hvalue : History.value (h.take n) k = some v := by
      rw [History.value, History.lastOp_eq_opAt, hlast, History.opAt_take, hop]
      · rfl
      · exact hlast ▸ History.lastStamp_take_le h k n
    have hfile : log.file = log.content := by
      rw [VLog.content, hsync _ log hlog, List.append_nil]
    rw [Option.bind_some, hlog, Option.bind_some, hvalue]
    exact VLogPointer.Holds.readAt (hfile ▸ (hrec log hlog).holds)

/-- **A store no value log of which was ever collected.** -/
structure Uncollected (env : Env) (s : KVStore) : Prop where
  visible : Visible env s
  gc : s.gc = none
  cells : EveryCell (Readable s.history s.vlogs) s

theorem Uncollected.of_fresh : Uncollected env {} :=
  ⟨.of_fresh, rfl, .of_fresh⟩

/-- **Every commit of clients' requests and all background work keep it so**; the
history and the value logs grow. -/
theorem Uncollected.step (h : Uncollected env s) (ha : a.NoGc) (hfit : Fitting a)
    (hs : s.step env a = some s') :
    Uncollected env s' ∧ s'.history = s.history ++ a.ops ∧ s.vlogs.Appends s'.vlogs := by
  have hhist := history_step h.visible.pipeline ha.ne_crash hs
  rcases ha.cases with ⟨batch, rfl, huser⟩ | ⟨hb, hgc⟩
  · have hv := h.visible.step (a := .commit batch) ⟨hfit, freshRelocations_of_user huser⟩ hs
    obtain ⟨hen, rfl⟩ := step_commit_cases hs
    have hall := h.visible.cells.fits hen hfit
    obtain ⟨-, -, hplan, happ⟩ :=
      commit_vlogs env h.visible.cells.vlogs h.visible.cells.synced hall
    refine ⟨⟨hv, ?_, h.cells.commit (fun k c hc => hc.appends happ _) (fun e he => ?_) _⟩,
      hhist, happ⟩
    · show s.gcAfter batch = none
      rw [gcAfter, h.gc]
      split_ifs <;> rfl
    · have hspec := (plan_spec env h.visible.cells.vlogs (fun r hr _ => (hall r hr).2)).2.2 e he
      have hgcs : ∀ r ∈ batch, r.isGc = true → r.Relocates s.history := fun r hr hg => by
        rw [huser r hr] at hg
        cases hg
      have hok := cellOk_of_mem_plan h.visible.cells.vlogs (fun r hr _ => (hall r hr).2) hgcs he
      have hok' := hok.grows hplan.toGrows []
      rw [List.append_nil] at hok'
      exact ⟨hok', fun hlive => (hspec.1.appends hplan hlive).2⟩
  · have hv : Visible env s' := by
      refine h.visible.step (a := a) ?_ hs
      cases a with
      | commit batch | crash batch n => exact hb.elim
      | _ => trivial
    obtain ⟨hvl, hg, hh, -⟩ := background_frame hb hgc hs
    refine ⟨⟨hv, hg.trans h.gc, ?_⟩, hhist, hvl ▸ Vlogs.Appends.refl _⟩
    rw [hh, hvl]
    exact h.cells.background hb hs

end KVStore

/-! ## A get under way -/

namespace Clients

open KVStore

variable {env : Env} {s s' : Clients} {k : Key} {i : ℕ} {st : KVStore} {c : ClientCall}

/-- **An answer was right at some time since**: what the last operation on the
key was then. -/
def Seen (h : History) (since : ℕ) (k : Key) (o : Option Cell) : Prop :=
  ∃ n, since ≤ n ∧ n ≤ h.length ∧ o.map Cell.stamp = History.putStamp (h.take n) k

theorem Seen.append {h : History} {since : ℕ} {o : Option Cell} (hs : Seen h since k o)
    (t : History) : Seen (h ++ t) since k o := by
  obtain ⟨n, hsince, hn, ho⟩ := hs
  refine ⟨n, hsince, hn.trans (by simp), ?_⟩
  rwa [List.take_append_of_le_length hn]

/-- The lookup of a moment is right at that moment. -/
theorem seen_lookup (h : Visible env st) {since : ℕ} (hsince : since ≤ st.history.length) :
    Seen st.history since k (live (st.lookup env k)) :=
  ⟨st.history.length, hsince, le_rfl, by rw [List.take_length]; exact h.view k⟩

theorem phaseOk_mono {seen seen' : Option Cell → Prop} (hmono : ∀ o, seen o → seen' o)
    {p : GetPhase} (h : SplitRead.PhaseOk env k seen st p) :
    SplitRead.PhaseOk env k seen' st p := by
  cases p with
  | snapped act attached imms =>
    obtain ⟨hact, hfound, himm, hnone⟩ := h
    exact ⟨hact, fun c hc => hmono _ (hfound c hc), fun hn c hc => hmono _ (himm hn c hc),
      fun hn ts hts => hmono _ (hnone hn ts hts)⟩
  | missed => exact fun ts hts => hmono _ (h ts hts)
  | found c => exact hmono _ h

/-- The cells for the key that a get has at hand. -/
def Holds (k : Key) (P : Cell → Prop) : GetPhase → Prop
  | .snapped act _ imms => ∀ m ∈ act :: imms, ∀ c, m.get k = some c → P c
  | .missed => True
  | .found o => ∀ c, o = some c → P c

/-- **What a get under way can count on**: what it is about to find was right at
some time since it was made, and can be read. -/
def ReadOk (env : Env) (st : KVStore) (k : Key) (since : ℕ) (p : GetPhase) : Prop :=
  SplitRead.PhaseOk env k (Seen st.history since k) st p
    ∧ Holds k (Readable st.history st.vlogs k) p

theorem readOk_start (h : Uncollected env st) {since : ℕ} (hsince : since ≤ st.history.length) :
    ReadOk env st k since (SplitRead.start st).phase := by
  have hp := h.visible.pipeline
  refine ⟨(SplitRead.inv_start hp (seen_lookup h.visible hsince)).phase, fun m hm c hc => ?_⟩
  rcases List.mem_cons.mp hm with rfl | hm
  · exact h.cells.active k c hc
  · rw [hp.ringScan_eq, List.mem_reverse, List.mem_map] at hm
    obtain ⟨t, ht, rfl⟩ := hm
    exact h.cells.queue t ht k c hc

/-- **Commits and background work keep what a get can count on.** -/
theorem ReadOk.engine {st st' : KVStore} {since : ℕ} {p : GetPhase} (h : ReadOk env st k since p)
    (hu : Uncollected env st) (ha : a.NoGc) (hfit : Fitting a) (hsince : since ≤ st.history.length)
    (hs : st.step env a = some st') : ReadOk env st' k since (p.follow st' a) := by
  obtain ⟨hu', hhist, happ⟩ := hu.step ha hfit hs
  have hle : since ≤ st'.history.length := by
    rw [hhist, List.length_append]
    omega
  have hcell : ∀ c, Readable st.history st.vlogs k c → Readable st'.history st'.vlogs k c :=
    fun c hc => hhist ▸ hc.appends happ _
  refine ⟨?_, ?_⟩
  · refine SplitRead.PhaseOk.engine (phaseOk_mono (fun o ho => ?_) h.1) hu.visible.pipeline ha hs
      (seen_lookup hu'.visible hle)
    rw [hhist]
    exact ho.append _
  · have hold := h.2
    cases p with
    | missed => trivial
    | found o => exact fun c hc => hcell c (hold c hc)
    | snapped act attached imms =>
      have hkeep : Holds k (Readable st'.history st'.vlogs k) (.snapped act false imms) :=
        fun m hm c hc => hcell c (hold m hm c hc)
      cases attached with
      | false => exact hkeep
      | true =>
        rw [GetPhase.follow]
        split_ifs with hflush
        · exact hkeep
        · intro m hm c hc
          rcases List.mem_cons.mp hm with rfl | hm
          · exact hu'.cells.active k c hc
          · exact hkeep m (List.mem_cons_of_mem _ hm) c hc

/-- **The probes keep it.** -/
theorem ReadOk.probe {since : ℕ} {p : GetPhase} {a : ReadAction} {r : SplitRead}
    (h : ReadOk env st k since p) (hu : Uncollected env st) (hsince : since ≤ st.history.length)
    (ha : a = .probeMemtables ∨ a = .readVersion) (hs : SplitRead.step env k ⟨st, p⟩ a = some r) :
    ReadOk env st k since r.phase := by
  have hphase : r.store = st → SplitRead.PhaseOk env k (Seen st.history since k) st r.phase := by
    intro hstore
    have hnogc : SplitRead.NoGcStep ⟨st, p⟩ a := by
      rcases ha with rfl | rfl <;> trivial
    have hinv : SplitRead.Inv env k (Seen st.history since k) r := SplitRead.Inv.step
      ⟨hu.visible.pipeline, h.1⟩ (hstore ▸ seen_lookup hu.visible hsince) hnogc hs
    exact hstore ▸ hinv.phase
  rcases ha with rfl | rfl
  · cases p with
    | snapped act attached imms =>
      simp only [SplitRead.step] at hs
      split at hs <;> cases hs <;> refine ⟨hphase rfl, ?_⟩
      · rename_i c hc
        rintro c' ⟨⟩
        obtain ⟨m, hm, hget⟩ := List.exists_of_findSome?_eq_some hc
        exact h.2 m hm c hget
      · trivial
    | missed | found => cases hs
  · cases p with
    | missed =>
      cases hs
      exact ⟨hphase rfl, fun c hc => hu.cells.lsm.lookup hc⟩
    | snapped | found => cases hs

/-! ## A call -/

/-- **What holds of a call**: a write committed is in the log, at a place no
earlier than when it was made; a get has what it can count on, and the answer of
one that has returned was right at some time in between. -/
def CallOk (env : Env) (s : Clients) (i : ℕ) (c : ClientCall) : Prop :=
  c.since ≤ s.now ∧
  match c.asked, c.phase with
  | .update op, .invoked => VLog.FitsRecord (op.key, op.value.getD [])
  | .update op, .queued => VLog.FitsRecord (op.key, op.value.getD [])
  | .update op, .committed => ∃ n, s.log[n]? = some (i, op) ∧ c.since ≤ n
  | .update op, .returned answer upTo => answer = .done ∧ upTo ≤ s.now
      ∧ ∃ n, s.log[n]? = some (i, op) ∧ c.since ≤ n ∧ n < upTo
  | .query _, .invoked => True
  | .query k, .probing p => ReadOk env s.store k c.since p
  | .query k, .returned answer upTo => upTo ≤ s.now
      ∧ ∃ n, c.since ≤ n ∧ n ≤ upTo ∧ answer = .value (History.value (s.store.history.take n) k)
  | .update _, .probing _ => False
  | .query _, .queued => False
  | .query _, .committed => False

/-- What an event says of the calls. -/
def EventOk (calls : ℕ → Option ClientCall) : ClientEvent → Prop
  | (time, .invoke i asked) => ∃ c, calls i = some c ∧ c.asked = asked ∧ c.since = time
  | (time, .respond d) =>
    ∃ c, calls d.id = some c ∧ c.asked = d.call ∧ c.phase = .returned d.answer time

/-- Of two events: the times go up, no call returns twice, and none before it is
made. -/
def InOrder (e f : ClientEvent) : Prop :=
  e.1 ≤ f.1 ∧ SeqObject.RespondsApart e.2 f.2
    ∧ ∀ d call, e.2 = .respond d → f.2 ≠ .invoke d.id call

/-- **The invariant of the machine.** -/
structure Inv (env : Env) (s : Clients) : Prop where
  store : Uncollected env s.store
  ops : s.log.map Prod.snd = s.store.history
  ids : ((s.log ++ s.queue).map Prod.fst).Nodup
  logged : ∀ x ∈ s.log, ∃ c, s.calls x.1 = some c ∧ c.asked = .update x.2 ∧ c.phase.logged
  queued : ∀ x ∈ s.queue, ∃ since, s.calls x.1 = some ⟨.update x.2, since, .queued⟩
  calls : ∀ i c, s.calls i = some c → CallOk env s i c
  fresh : ∀ i, s.next ≤ i → s.calls i = none
  events : ∀ e ∈ s.events, EventOk s.calls e ∧ e.1 ≤ s.now
  invoked : ∀ i c, s.calls i = some c → (c.since, .invoke i c.asked) ∈ s.events
  order : s.events.Pairwise InOrder

theorem inv_empty : Inv env {} where
  store := .of_fresh
  ops := rfl
  ids := List.nodup_nil
  logged := List.forall_mem_nil _
  queued := List.forall_mem_nil _
  calls i c h := by cases h
  fresh _ _ := rfl
  events := List.forall_mem_nil _
  invoked i c h := by cases h
  order := List.Pairwise.nil

/-! ## Calls that are made, go on and return -/

/-- What becomes of the calls: they stay what was asked, and those that have
returned stay so. -/
def Evolves (calls calls' : ℕ → Option ClientCall) : Prop :=
  ∀ i c, calls i = some c → ∃ c' : ClientCall, calls' i = some c' ∧ c'.asked = c.asked
    ∧ c'.since = c.since ∧ ∀ answer upTo, c.phase = .returned answer upTo → c'.phase = c.phase

theorem EventOk.evolves {calls calls' : ℕ → Option ClientCall} (hc : Evolves calls calls')
    {e : ClientEvent} (he : EventOk calls e) : EventOk calls' e := by
  obtain ⟨time, ev⟩ := e
  cases ev with
  | invoke i asked =>
    obtain ⟨c, hget, hasked, hsince⟩ := he
    obtain ⟨c', hget', hasked', hsince', -⟩ := hc i c hget
    exact ⟨c', hget', hasked'.trans hasked, hsince'.trans hsince⟩
  | respond d =>
    obtain ⟨c, hget, hasked, hphase⟩ := he
    obtain ⟨c', hget', hasked', -, hkeep⟩ := hc d.id c hget
    exact ⟨c', hget', hasked'.trans hasked, (hkeep _ _ hphase).trans hphase⟩

/-- What a call may come to be: it is asked the same and does not return twice. -/
structure GoesOn (c c' : ClientCall) : Prop where
  asked : c'.asked = c.asked
  since : c'.since = c.since
  running : ∀ answer upTo, c.phase ≠ .returned answer upTo
  unqueued : c.phase ≠ .queued
  logged : c.phase.logged → c'.phase.logged

section

variable (h : Inv env s)
include h

/-- **A call comes to be in a state** in which it is all right. -/
theorem Inv.set (hok : CallOk env s i c) (hold : ∀ c₀, s.calls i = some c₀ → GoesOn c₀ c) {next : ℕ}
    (hnext : s.next ≤ next ∧ i < next) {queue : List (ℕ × Op)}
    (hqueue : ((s.log ++ queue).map Prod.fst).Nodup)
    (hqueued : ∀ x ∈ queue,
      x.1 ≠ i ∧ x ∈ s.queue ∨ x.1 = i ∧ ∃ since, c = ⟨.update x.2, since, .queued⟩)
    (es : List ClientEvent)
    (hes : ∀ e ∈ es, EventOk (s.set i c).calls e ∧ e.1 = s.now ∧ (∀ f ∈ s.events, InOrder f e))
    (hone : es.Pairwise InOrder) (hinv : s.calls i = none → (c.since, .invoke i c.asked) ∈ es) :
    Inv env { s.set i c with next := next, queue := queue, events := s.events ++ es } := by
  have hget : ∀ j, (s.set i c).calls j = if j = i then some c else s.calls j :=
    fun j => Function.update_apply s.calls i (some c) j
  have hev : Evolves s.calls (s.set i c).calls := by
    intro j d hd
    rw [hget]
    split_ifs with hij
    · obtain ⟨hasked, hsince, hrun, -, -⟩ := hold d (hij ▸ hd)
      exact ⟨c, rfl, hasked, hsince, fun a u hr => absurd hr (hrun a u)⟩
    · exact ⟨d, hd, rfl, rfl, fun _ _ _ => rfl⟩
  refine
    { h with
      ids := hqueue
      logged := fun x hx => ?_
      queued := fun x hx => ?_
      calls := fun j d hd => ?_
      fresh := fun j hj => ?_
      events := fun e he => ?_
      invoked := fun j d hd => ?_
      order := List.pairwise_append.mpr ⟨h.order, hone, fun e he f hf => (hes f hf).2.2 e he⟩ }
  · obtain ⟨d, hd, hasked, hphase⟩ := h.logged x hx
    dsimp only
    rw [hget]
    split_ifs with hij
    · have hgo := hold d (hij ▸ hd)
      exact ⟨c, rfl, hgo.asked.trans hasked, hgo.logged hphase⟩
    · exact ⟨d, hd, hasked, hphase⟩
  · dsimp only
    rw [hget]
    rcases hqueued x hx with ⟨hxi, hx⟩ | ⟨hxi, since, hc⟩
    · rw [if_neg hxi]
      exact h.queued x hx
    · exact ⟨since, by rw [if_pos hxi, hc]⟩
  · dsimp only at hd
    rw [hget] at hd
    split_ifs at hd with hij
    · rw [hij, ← Option.some.inj hd]
      exact hok
    · exact h.calls j d hd
  · dsimp only at hj ⊢
    rw [hget, if_neg (by omega)]
    exact h.fresh j (hnext.1.trans hj)
  · rcases List.mem_append.mp he with he | he
    · exact ⟨(h.events e he).1.evolves hev, (h.events e he).2⟩
    · exact ⟨(hes e he).1, (hes e he).2.1.le⟩
  · dsimp only at hd ⊢
    rw [hget] at hd
    split_ifs at hd with hij
    · cases hd
      rw [hij]
      cases hi : s.calls i with
      | none => exact List.mem_append_right _ (hinv hi)
      | some c₀ =>
        rw [(hold c₀ hi).asked, (hold c₀ hi).since]
        exact List.mem_append_left _ (h.invoked i c₀ hi)
    · exact List.mem_append_left _ (h.invoked j d hd)

/-- **A call is made.** -/
theorem Inv.invoke {asked : ObjCall Op Key}
    (hfit : ∀ op, asked = .update op → VLog.FitsRecord (op.key, op.value.getD [])) :
    Inv env (s.invoke asked) := by
  have hnone := h.fresh s.next le_rfl
  have hok : CallOk env s s.next { asked := asked, since := s.now } := by
    refine ⟨le_rfl, ?_⟩
    cases asked with
    | update op => exact hfit op rfl
    | query k => trivial
  refine h.set hok (fun c₀ hc₀ => by rw [hnone] at hc₀; cases hc₀) (by omega) h.ids
    (fun x hx => Or.inl ⟨fun hxi => ?_, hx⟩) _ (fun e he => ?_) (List.pairwise_singleton _ _)
    (fun _ => List.mem_cons_self)
  · obtain ⟨since, hc⟩ := h.queued x hx
    rw [hxi, hnone] at hc
    cases hc
  · rw [List.mem_singleton.mp he]
    refine ⟨⟨_, Function.update_self .., rfl, rfl⟩, rfl, fun f hf => ?_⟩
    refine ⟨(h.events f hf).2, fun c d _ hd => (by cases hd), fun d call hd hcall => ?_⟩
    -- a call that has returned is not the new one
    obtain ⟨time, ev⟩ := f
    obtain rfl : ev = .respond d := hd
    obtain ⟨c, hc, -⟩ := (h.events _ hf).1
    rw [← (CallEvent.invoke.inj hcall).1, hnone] at hc
    cases hc

theorem Inv.lt_next (hc : s.calls i = some c) : i < s.next := by
  by_contra hge
  rw [h.fresh i (not_lt.mp hge)] at hc
  cases hc

/-- A call that is not in the queue: its phase is another. -/
theorem Inv.ne_of_mem_queue (hc : s.calls i = some c) (hphase : c.phase ≠ .queued) {x : ℕ × Op}
    (hx : x ∈ s.queue) : x.1 ≠ i := by
  rintro rfl
  obtain ⟨since, hq⟩ := h.queued x hx
  cases hc.symm.trans hq
  exact hphase rfl

/-- **A call goes on.** -/
theorem Inv.goto {c c' : ClientCall} (hc : s.calls i = some c) (hgo : GoesOn c c')
    (hok : CallOk env s i c') (es : List ClientEvent)
    (hes : ∀ e ∈ es, EventOk (s.set i c').calls e ∧ e.1 = s.now ∧ ∀ f ∈ s.events, InOrder f e)
    (hone : es.Pairwise InOrder) : Inv env { s.set i c' with events := s.events ++ es } :=
  h.set hok (fun c₀ hc₀ => Option.some.inj (hc.symm.trans hc₀) ▸ hgo) ⟨le_rfl, h.lt_next hc⟩ h.ids
    (fun x hx => Or.inl ⟨h.ne_of_mem_queue hc hgo.unqueued hx, hx⟩) es hes hone
    (fun hn => by rw [hc] at hn; cases hn)

theorem Inv.goto_set {c c' : ClientCall} (hc : s.calls i = some c) (hgo : GoesOn c c')
    (hok : CallOk env s i c') : Inv env (s.set i c') := by
  have hinv := h.goto hc hgo hok [] nofun List.Pairwise.nil
  rwa [List.append_nil] at hinv

/-- **A call returns.** -/
theorem Inv.respond (hc : s.calls i = some c) {answer : ObjAnswer (Option Value)}
    (hgo : GoesOn c { c with phase := .returned answer s.now })
    (hok : CallOk env s i { c with phase := .returned answer s.now }) :
    Inv env (s.respond i c answer) := by
  refine h.goto hc hgo hok _ (fun e he => ?_) (List.pairwise_singleton _ _)
  rw [List.mem_singleton.mp he]
  refine ⟨⟨_, Function.update_self .., rfl, rfl⟩, rfl, fun f hf => ?_⟩
  refine ⟨(h.events f hf).2, fun c' d hc' hd hid => ?_, fun d call _ => nofun⟩
  -- the call has not returned before
  obtain ⟨time, ev⟩ := f
  obtain rfl : ev = .respond c' := hc'
  obtain ⟨c'', hget, -, hphase⟩ := (h.events _ hf).1
  cases hd
  rw [hid] at hget
  obtain rfl : c = c'' := Option.some.inj (hc.symm.trans hget)
  exact hgo.running _ _ hphase

end

/-! ## The engine -/

/-- **A call after a step of the engine** that commits some of the writes. -/
theorem CallOk.moved {n : ℕ} (hc : CallOk env s i c) (hget : s.calls i = some c) (h : Inv env s)
    (ha : a.NoGc) (hfit : Fitting a) (hs : s.store.step env a = some st) :
    CallOk env (s.moved (GetPhase.follow st a) n st) i
      { c with
        phase := c.phase.follow (GetPhase.follow st a)
          (decide (i ∈ (s.queue.take n).map Prod.fst)) } := by
  obtain ⟨hu, hhist, -⟩ := h.store.step ha hfit hs
  have hnow : s.now ≤ st.history.length := by
    rw [hhist, List.length_append]
    exact Nat.le_add_right _ _
  have hlog : ∀ {m : ℕ} {x : ℕ × Op}, s.log[m]? = some x →
      (s.log ++ s.queue.take n)[m]? = some x := fun hx => by
    rw [List.getElem?_append_left (List.getElem?_eq_some_iff.mp hx).1, hx]
  obtain ⟨hsince, hc⟩ := hc
  refine ⟨hsince.trans hnow, ?_⟩
  obtain ⟨asked, since, phase⟩ := c
  cases asked with
  | update op =>
    cases phase with
    | invoked => exact hc
    | queued =>
      by_cases hi : i ∈ (s.queue.take n).map Prod.fst
      · -- it is committed, and comes to stand behind all that was
        rw [decide_eq_true hi]
        obtain ⟨x, hx, rfl⟩ := List.mem_map.mp hi
        obtain ⟨_, hq⟩ := h.queued x (List.mem_of_mem_take hx)
        obtain ⟨rfl, rfl⟩ : op = x.2 ∧ since = _ := by simpa using hget.symm.trans hq
        obtain ⟨m, hm⟩ := List.getElem?_of_mem hx
        refine ⟨s.log.length + m, ?_, ?_⟩
        · show (s.log ++ s.queue.take n)[s.log.length + m]? = _
          rw [List.getElem?_append_right (Nat.le_add_right _ _), Nat.add_sub_cancel_left, hm]
        · have hlen : s.log.length = s.now := by
            rw [now, ← h.ops, List.length_map]
          rw [hlen]
          exact hsince.trans (Nat.le_add_right _ _)
      · rw [decide_eq_false hi]
        exact hc
    | committed =>
      obtain ⟨n, hn, hle⟩ := hc
      exact ⟨n, hlog hn, hle⟩
    | probing p => exact hc
    | returned answer upTo =>
      obtain ⟨hdone, hup, n, hn, hle, hlt⟩ := hc
      exact ⟨hdone, hup.trans hnow, n, hlog hn, hle, hlt⟩
  | query k =>
    cases phase with
    | invoked => trivial
    | queued => exact hc.elim
    | committed => exact hc
    | probing p => exact ReadOk.engine hc h.store ha hfit hsince hs
    | returned answer upTo =>
      obtain ⟨hup, n, hle, hn, hval⟩ := hc
      refine ⟨hup.trans hnow, n, hle, hn, ?_⟩
      rw [hval]
      show _ = ObjAnswer.value (History.value (st.history.take n) k)
      rw [hhist, List.take_append_of_le_length (hn.trans hup)]

/-- A call that has returned, or whose batch is committed, stays so. -/
theorem follow_eq_self {f : GetPhase → GetPhase} {mine : Bool} {p : ClientPhase}
    (h : p.logged) : p.follow f mine = p := by
  cases p with
  | committed | returned => rfl
  | invoked | queued | probing => cases h

/-- **A step of the engine.** -/
theorem Inv.moved {n : ℕ} (h : Inv env s) (ha : a.NoGc) (hfit : Fitting a)
    (hops : a.ops = (s.queue.take n).map Prod.snd) (hs : s.store.step env a = some st) :
    Inv env (s.moved (GetPhase.follow st a) n st) := by
  obtain ⟨hu, hhist, -⟩ := h.store.step ha hfit hs
  have hnow : s.now ≤ st.history.length := by
    rw [hhist, List.length_append]
    exact Nat.le_add_right _ _
  have hget : ∀ {i : ℕ} {c : ClientCall}, s.calls i = some c →
      (s.moved (GetPhase.follow st a) n st).calls i = some
        { c with
          phase := c.phase.follow (GetPhase.follow st a)
            (decide (i ∈ (s.queue.take n).map Prod.fst)) } :=
    fun hc => congrArg (Option.map _) hc
  have hev : Evolves s.calls (s.moved (GetPhase.follow st a) n st).calls := fun i c hc =>
    ⟨_, hget hc, rfl, rfl, fun answer upTo hret => follow_eq_self (by rw [hret]; rfl)⟩
  have hids : (((s.log ++ s.queue.take n) ++ s.queue.drop n).map Prod.fst).Nodup := by
    rw [List.append_assoc, List.take_append_drop]
    exact h.ids
  refine
    { store := hu
      ops := ?_
      ids := hids
      logged := fun x hx => ?_
      queued := fun x hx => ?_
      calls := fun i c hc => ?_
      fresh := fun i hi => congrArg (Option.map _) (h.fresh i hi)
      events := fun e he => ⟨(h.events e he).1.evolves hev, (h.events e he).2.trans hnow⟩
      invoked := fun i c hc => ?_
      order := h.order }
  · show (s.log ++ s.queue.take n).map Prod.snd = st.history
    rw [List.map_append, h.ops, hhist, hops]
  · rcases List.mem_append.mp hx with hx | hx
    · obtain ⟨c, hc, hasked, hphase⟩ := h.logged x hx
      refine ⟨_, hget hc, hasked, ?_⟩
      dsimp only
      rwa [follow_eq_self hphase]
    · obtain ⟨since, hq⟩ := h.queued x (List.mem_of_mem_take hx)
      refine ⟨_, hget hq, rfl, ?_⟩
      rw [decide_eq_true (List.mem_map_of_mem hx)]
      rfl
  · obtain ⟨since, hc⟩ := h.queued x (List.mem_of_mem_drop hx)
    refine ⟨since, ?_⟩
    -- it is not in the batch
    rw [List.map_append, List.map_append] at hids
    have hnot := (List.nodup_append'.mp hids).2.2
    rw [hget hc, decide_eq_false (fun hi => hnot (List.mem_append_right _ hi)
      (List.mem_map_of_mem hx))]
    rfl
  · obtain ⟨c₀, hc₀, rfl⟩ := Option.map_eq_some_iff.mp hc
    exact (h.calls i c₀ hc₀).moved hc₀ h ha hfit hs
  · obtain ⟨c₀, hc₀, rfl⟩ := Option.map_eq_some_iff.mp hc
    exact h.invoked i c₀ hc₀

/-- The operations of a batch of writes are those of its calls. -/
theorem userOps_requests (xs : List (ℕ × Op)) :
    userOps (xs.map (fun x => x.2.request)) = xs.map Prod.snd := by
  have hfilter : (xs.map (fun x => x.2.request)).filter (fun r => !r.isGc)
      = xs.map (fun x => x.2.request) :=
    List.filter_eq_self.mpr (fun r hr => by
      obtain ⟨x, -, rfl⟩ := List.mem_map.mp hr
      rfl)
  rw [userOps, hfilter, List.map_map]
  exact List.map_congr_left (fun x _ => Op.op_request x.2)

/-- A batch of the clients commits the oldest writes, which fit. -/
theorem Inv.batch (h : Inv env s) (n : ℕ) :
    (∀ r ∈ s.batch n, r.isGc = false) ∧ FittingBatch (s.batch n)
      ∧ userOps (s.batch n) = (s.queue.take n).map Prod.snd := by
  refine ⟨fun r hr => ?_, fun r hr _ => ?_, userOps_requests _⟩
  · obtain ⟨x, -, rfl⟩ := List.mem_map.mp hr
    rfl
  · obtain ⟨x, hx, rfl⟩ := List.mem_map.mp hr
    obtain ⟨since, hc⟩ := h.queued x (List.mem_of_mem_take hx)
    exact ⟨rfl, (h.calls x.1 _ hc).2⟩

/-- Two steps one after the other, one of which commits. -/
theorem moved_moved (s : Clients) {f g around : GetPhase → GetPhase} (hfg : ∀ p, g (f p) = around p)
    {m n k : ℕ} (hmn : m = k ∧ n = 0 ∨ m = 0 ∧ n = k) (t st : KVStore) :
    (s.moved f m t).moved g n st = s.moved around k st := by
  rcases hmn with ⟨rfl, rfl⟩ | ⟨rfl, rfl⟩
  all_goals
    simp only [moved, List.take_zero, List.drop_zero, List.map_nil, List.not_mem_nil, decide_false,
      Option.map_map, List.append_nil, Clients.mk.injEq, and_true, true_and]
    funext i
    refine congrArg (fun h => (s.calls i).map h) (funext fun c => ?_)
    obtain ⟨asked, since, phase⟩ := c
    cases phase with
    | queued =>
      cases decide (i ∈ (s.queue.take _).map Prod.fst) <;> rfl
    | probing p => simp only [Function.comp_apply, ClientPhase.follow, hfg]
    | invoked | committed | returned => rfl

/-- **A commit around a hand-off** that might as well come before or after it. -/
theorem Inv.around {n : ℕ} {point : HandOffPoint} (h : Inv env s)
    (ha : (LeaderAction.commitAround (s.batch n) point).steps.isSome = true)
    (hs : s.store.leaderStep env (.commitAround (s.batch n) point) = some st) :
    Inv env (s.moved (GetPhase.around (s.store.commit env (s.batch n)) point) n st) := by
  obtain ⟨huser, hfit, hops⟩ := h.batch n
  obtain ⟨bs, hb⟩ := Option.isSome_iff_exists.mp ha
  have hrun := runSteps_steps hb hs
  cases point with
  | placing m =>
    rw [LeaderAction.steps, Option.ite_none_right_eq_some] at hb
    obtain rfl := Option.some.inj hb.2
    obtain ⟨t, ht, hrun⟩ := runSteps_cons.mp hrun
    obtain ⟨_, hst, hlast⟩ := runSteps_cons.mp hrun
    cases hlast
    have hinv := (h.moved (a := .maybeFlush) (n := 0) trivial trivial rfl ht).moved
      (a := .commit (s.batch n)) (n := n) huser hfit hops hst
    rwa [moved_moved s (fun p => ?_) (Or.inr ⟨rfl, rfl⟩)] at hinv
    cases p with
    | snapped act attached imms => cases attached <;> rfl
    | missed | found => rfl
  | putting m =>
    rw [LeaderAction.steps, Option.ite_none_right_eq_some] at hb
    obtain rfl := Option.some.inj hb.2
    obtain ⟨t, ht, hrun⟩ := runSteps_cons.mp hrun
    obtain ⟨_, hst, hlast⟩ := runSteps_cons.mp hrun
    cases hlast
    have hinv := (h.moved (a := .commit (s.batch n)) (n := n) huser hfit hops ht).moved
      (a := .maybeFlush) (n := 0) trivial trivial rfl hst
    obtain ⟨-, rfl⟩ := step_commit_cases ht
    rwa [moved_moved s (fun p => ?_) (Or.inl ⟨rfl, rfl⟩)] at hinv
    cases p with
    | snapped act attached imms => cases attached <;> rfl
    | missed | found => rfl
  | appending m | appended => cases hb

/-- A get goes on. -/
theorem Inv.probe (h : Inv env s) {a : ReadAction} (ha : a = .probeMemtables ∨ a = .readVersion)
    (hs : s.probe env i a = some s') : Inv env s' := by
  unfold Clients.probe at hs
  split at hs
  · rename_i k since p hc
    obtain ⟨r, hr, rfl⟩ := Option.map_eq_some_iff.mp hs
    obtain ⟨hsince, hread⟩ := h.calls i _ hc
    exact h.goto_set hc ⟨rfl, rfl, nofun, nofun, nofun⟩
      ⟨hsince, ReadOk.probe hread h.store hsince ha hr⟩
  · cases hs

/-- **Every step keeps the invariant.** -/
theorem Inv.step {a : ClientAction} (h : Inv env s) (ha : s.FitsStep a)
    (hs : s.step env a = some s') : Inv env s' := by
  cases a with
  | write op =>
    cases hs
    refine h.invoke (fun op' hop => ?_)
    cases hop
    exact of_decide_eq_true ha
  | read k =>
    cases hs
    exact h.invoke nofun
  | push i =>
    simp only [Clients.step] at hs
    split at hs
    · rename_i op since hc
      cases hs
      have hnot := fun x => h.ne_of_mem_queue hc nofun (x := x)
      have hnot' : ∀ x ∈ s.log, x.1 ≠ i := by
        rintro x hx rfl
        obtain ⟨c, hc', -, hphase⟩ := h.logged x hx
        cases hc.symm.trans hc'
        cases hphase
      obtain ⟨hsince, hfit⟩ := h.calls i _ hc
      have hgo : GoesOn ⟨.update op, since, .invoked⟩ ⟨.update op, since, .queued⟩ :=
        ⟨rfl, rfl, nofun, nofun, nofun⟩
      have hnodup : ((s.log ++ (s.queue ++ [(i, op)])).map Prod.fst).Nodup := by
        rw [← List.append_assoc, List.map_append, List.nodup_append']
        refine ⟨h.ids, List.nodup_singleton i, fun j hj hj' => ?_⟩
        obtain ⟨x, hx, rfl⟩ := List.mem_map.mp hj
        exact (List.mem_append.mp hx).elim (hnot' x) (hnot x) (List.mem_singleton.mp hj')
      have hinv := h.set (c := ⟨.update op, since, .queued⟩) ⟨hsince, hfit⟩
        (fun c₀ hc₀ => Option.some.inj (hc.symm.trans hc₀) ▸ hgo) ⟨le_rfl, h.lt_next hc⟩ hnodup
        (fun x hx => ?_) [] nofun List.Pairwise.nil (fun hn => by rw [hc] at hn; cases hn)
      · rwa [List.append_nil] at hinv
      · rcases List.mem_append.mp hx with hx | hx
        · exact Or.inl ⟨hnot x hx, hx⟩
        · obtain rfl := List.mem_singleton.mp hx
          exact Or.inr ⟨rfl, since, rfl⟩
    · cases hs
  | commit n =>
    obtain ⟨st, hst, rfl⟩ := Option.map_eq_some_iff.mp hs
    obtain ⟨huser, hfit, hops⟩ := h.batch n
    exact h.moved huser hfit hops hst
  | commitAround n point =>
    obtain ⟨st, hst, rfl⟩ := Option.map_eq_some_iff.mp hs
    exact h.around ha hst
  | acknowledge i =>
    simp only [Clients.step] at hs
    split at hs
    · rename_i op since hc
      cases hs
      obtain ⟨hsince, n, hn, hle⟩ := h.calls i _ hc
      refine h.respond hc ⟨rfl, rfl, nofun, nofun, fun _ => rfl⟩
        ⟨hsince, rfl, le_rfl, n, hn, hle, ?_⟩
      have hlt := (List.getElem?_eq_some_iff.mp hn).1
      rwa [← List.length_map Prod.snd, h.ops] at hlt
    · cases hs
  | snapshot i =>
    simp only [Clients.step] at hs
    split at hs
    · rename_i k since hc
      cases hs
      obtain ⟨hsince, -⟩ := h.calls i _ hc
      exact h.goto_set hc ⟨rfl, rfl, nofun, nofun, nofun⟩ ⟨hsince, readOk_start h.store hsince⟩
    · cases hs
  | probeMemtables i => exact h.probe (Or.inl rfl) hs
  | readVersion i => exact h.probe (Or.inr rfl) hs
  | readLog i =>
    simp only [Clients.step] at hs
    split at hs
    · rename_i k since o hc
      cases hs
      obtain ⟨hsince, ⟨n, hle, hn, hstamp⟩, hcells⟩ := h.calls i _ hc
      refine h.respond hc ⟨rfl, rfl, nofun, nofun, nofun⟩ ⟨hsince, le_rfl, n, hle, hn, ?_⟩
      exact congrArg ObjAnswer.value
        (Readable.value h.store.visible.cells.synced hcells hstamp)
    · cases hs
  | background a =>
    obtain ⟨st, hst, rfl⟩ := Option.map_eq_some_iff.mp hs
    obtain ⟨hnogc, hfit, hops⟩ : a.NoGc ∧ Fitting a ∧ a.ops = [] := by
      cases a with
      | commit | crash | gcStart | gcScan | gcFinish => cases ha
      | _ => exact ⟨trivial, trivial, rfl⟩
    exact h.moved hnogc hfit hops hst

/-! ## Linearizability -/

theorem Inv.nodup_log (h : Inv env s) : (s.log.map Prod.fst).Nodup := by
  have hids := h.ids
  rw [List.map_append] at hids
  exact hids.of_append_left

/-- A call has one place in the log at most. -/
theorem Inv.place_eq (h : Inv env s) {i n m : ℕ} {op op' : Op} (hn : s.log[n]? = some (i, op))
    (hm : s.log[m]? = some (i, op')) : n = m := by
  have hlt : n < (s.log.map Prod.fst).length := by
    rw [List.length_map]
    exact (List.getElem?_eq_some_iff.mp hn).1
  refine (List.getElem?_inj hlt h.nodup_log).mp ?_
  rw [List.getElem?_map, List.getElem?_map, hn, hm]
  rfl

/-- **A point of a call**: a write's is the place it has in the log, that of a get
which has returned a time at which its answer was right. -/
structure PointOf (s : Clients) (i p : ℕ) : Prop where
  place : ∀ n op, s.log[n]? = some (i, op) → p = n + 1
  answer : ∀ k since answer upTo, s.calls i = some ⟨.query k, since, .returned answer upTo⟩ →
    since ≤ p ∧ p ≤ upTo ∧ upTo ≤ s.now
      ∧ answer = .value (History.value (s.store.history.take p) k)

theorem Inv.exists_pointOf (h : Inv env s) (i : ℕ) : ∃ p, PointOf s i p := by
  by_cases hlog : ∃ (n : ℕ) (op : Op), s.log[n]? = some (i, op)
  · obtain ⟨n, op, hn⟩ := hlog
    refine ⟨n + 1, fun m op' hm => by rw [h.place_eq hn hm], fun k since answer upTo hc => ?_⟩
    obtain ⟨c, hc', hasked, -⟩ := h.logged (i, op) (List.mem_of_getElem? hn)
    cases hc'.symm.trans hc
    cases hasked
  · have hplace : ∀ (p n : ℕ) (op : Op), s.log[n]? = some (i, op) → p = n + 1 :=
      fun p n op hn => (hlog ⟨n, op, hn⟩).elim
    by_cases hret : ∃ k since answer upTo,
        s.calls i = some ⟨.query k, since, .returned answer upTo⟩
    · obtain ⟨k, since, answer, upTo, hc⟩ := hret
      obtain ⟨-, hup, n, hle, hn, hval⟩ := h.calls i _ hc
      refine ⟨n, hplace n, fun k' since' answer' upTo' hc' => ?_⟩
      obtain ⟨rfl, rfl, rfl, rfl⟩ : k = k' ∧ since = since' ∧ answer = answer' ∧ upTo = upTo' := by
        simpa using hc.symm.trans hc'
      exact ⟨hle, hn, hup, hval⟩
    · exact ⟨0, hplace 0, fun k since answer upTo hc => (hret ⟨k, since, answer, upTo, hc⟩).elim⟩

/-- The point of a call that has returned lies before its return. -/
theorem PointOf.le_of_returned {i p upTo : ℕ} {answer : ObjAnswer (Option Value)}
    (hp : PointOf s i p) (h : Inv env s) (hc : s.calls i = some c)
    (hphase : c.phase = .returned answer upTo) : p ≤ upTo := by
  obtain ⟨asked, since, phase⟩ := c
  obtain rfl : phase = _ := hphase
  cases asked with
  | update op =>
    obtain ⟨-, -, -, n, hn, -, hlt⟩ := h.calls i _ hc
    rw [hp.place n op hn]
    exact hlt
  | query k => exact (hp.answer k since answer upTo hc).2.1

/-- The point of a write lies after it was made. -/
theorem PointOf.lt_of_logged {i p : ℕ} {op : Op} (hp : PointOf s i p) (h : Inv env s)
    (hmem : (i, op) ∈ s.log) (hc : s.calls i = some c) : c.since < p := by
  obtain ⟨d, hd, hasked, hphase⟩ := h.logged _ hmem
  obtain rfl : c = d := Option.some.inj (hc.symm.trans hd)
  obtain ⟨asked, since, phase⟩ := c
  obtain rfl : asked = _ := hasked
  have hplace : ∃ n, s.log[n]? = some (i, op) ∧ since ≤ n := by
    cases phase with
    | committed => exact (h.calls i _ hc).2
    | returned answer upTo =>
      obtain ⟨-, -, -, n, hn, hle, -⟩ := h.calls i _ hc
      exact ⟨n, hn, hle⟩
    | invoked | queued | probing => cases hphase
  obtain ⟨n, hn, hle⟩ := hplace
  rw [hp.place n op hn]
  exact Nat.lt_succ_of_le hle

/-- **Times go with the order of the events**: when a call returns before another
is made, no later time is noted for it. -/
theorem Inv.times_of_precedes (h : Inv env s) {i j : ℕ}
    (hp : Precedes (s.events.map Prod.snd) i j) :
    ∃ c answer upTo d, s.calls i = some c ∧ c.phase = .returned answer upTo
      ∧ s.calls j = some d ∧ upTo ≤ d.since := by
  obtain ⟨done, call, rfl, hsub⟩ := hp
  obtain ⟨es, hes, hmap⟩ := List.sublist_map_iff.mp hsub
  obtain ⟨⟨t, e⟩, ⟨t', f⟩, rfl⟩ : ∃ e f, es = [e, f] :=
    List.length_eq_two.mp (by rw [← List.length_map Prod.snd, ← hmap]; rfl)
  obtain ⟨rfl, rfl⟩ : CallEvent.respond done = e ∧ CallEvent.invoke j call = f := by
    simpa using hmap
  obtain ⟨c, hc, -, hphase⟩ := (h.events _ (hes.subset List.mem_cons_self)).1
  obtain ⟨d, hd, -, hsince⟩ :=
    (h.events _ (hes.subset (List.mem_cons_of_mem _ List.mem_cons_self))).1
  refine ⟨c, done.answer, t, d, hc, hphase, hd, ?_⟩
  rw [hsince]
  exact (List.rel_of_pairwise_cons (h.order.sublist hes) List.mem_cons_self).1

/-- The event of a return and the call it ends. -/
theorem Inv.returned (h : Inv env s) {d : DoneCall Op Key (Option Value)}
    (hd : CallEvent.respond d ∈ s.events.map Prod.snd) :
    ∃ since upTo, s.calls d.id = some ⟨d.call, since, .returned d.answer upTo⟩ := by
  obtain ⟨⟨t, e⟩, he, rfl⟩ := List.mem_map.mp hd
  obtain ⟨⟨asked, since, phase⟩, hc, rfl, rfl⟩ := (h.events _ he).1
  exact ⟨since, t, hc⟩

/-- **The points of the calls**, of every state the machine can be in. -/
theorem Inv.points (h : Inv env s) {point : ℕ → ℕ} (hpoint : ∀ i, PointOf s i (point i)) :
    mapObject.Points (s.events.map Prod.snd) s.log point where
  logged := h.nodup_log
  update n i op hn := by
    refine ⟨(hpoint i).place n op hn, ?_⟩
    obtain ⟨c, hc, hasked, -⟩ := h.logged (i, op) (List.mem_of_getElem? hn)
    exact List.mem_map.mpr ⟨_, h.invoked i c hc, by rw [hasked]⟩
  responds x hx d hd hid := by
    obtain ⟨since, upTo, hc⟩ := h.returned hd
    obtain ⟨c, hc', hasked, -⟩ := h.logged x hx
    rw [← hid] at hc'
    cases hc.symm.trans hc'
    obtain ⟨id, call, answer⟩ := d
    obtain rfl : id = x.1 := hid
    obtain rfl : call = .update x.2 := hasked
    obtain ⟨-, rfl, -⟩ := h.calls _ _ hc
    rfl
  once := List.pairwise_map.mpr (h.order.imp (fun hef => hef.2.1))
  called d hd := by
    obtain ⟨since, upTo, hc⟩ := h.returned hd
    exact List.mem_map.mpr ⟨_, h.invoked d.id _ hc, rfl⟩
  ordered := List.pairwise_map.mpr (h.order.imp (fun hef => hef.2.2))
  done i op a hd := by
    obtain ⟨since, upTo, hc⟩ := h.returned hd
    obtain ⟨-, -, -, n, hn, -⟩ := h.calls i _ hc
    exact List.mem_of_getElem? hn
  answer i k a hd := by
    obtain ⟨since, upTo, hc⟩ := h.returned hd
    obtain ⟨-, hle, hup, rfl⟩ := (hpoint i).answer k since a upTo hc
    refine ⟨?_, ?_⟩
    · rw [← List.length_map Prod.snd, h.ops]
      exact hle.trans hup
    · rw [List.map_take, h.ops]
      exact congrArg ObjAnswer.value (mapObject_after _ k).symm
  before_query i d k hp hd hcall := by
    obtain ⟨c, answer, upTo, c', hc, hphase, hc', hle⟩ := h.times_of_precedes hp
    obtain ⟨since, upTo', hret⟩ := h.returned hd
    cases hc'.symm.trans hret
    rw [hcall] at hret
    exact ((hpoint i).le_of_returned h hc hphase).trans
      (hle.trans ((hpoint d.id).answer k since d.answer upTo' hret).1)
  before_update i x hx hp := by
    obtain ⟨c, answer, upTo, c', hc, hphase, hc', hle⟩ := h.times_of_precedes hp
    exact ((hpoint i).le_of_returned h hc hphase).trans_lt
      (hle.trans_lt ((hpoint x.1).lt_of_logged h hx hc'))

/-- **The store is linearizable.** Any number of clients put, delete and get; their
calls overlap as they like, writes are committed in batches by a leader, gets go
through the memtables, the version and the value log in separate steps, and
hand-offs, flushes, compactions and removals of files happen in between. As long as no
hand-off falls inside a commit, other than one that might as well come before or
after it: whatever the order of the steps, the calls that have returned (and the
writes that have been committed) can be put in one order, in which each returns
what a map returns, and a call that returned before another was made comes before
it. -/
theorem linearizable {actions : List ClientAction}
    (hok : RunOk (step env) (fun s a => s.FitsStep a) {} actions)
    (hrun : runSteps (step env) {} actions = some s) :
    mapObject.Linearizable (s.events.map Prod.snd) := by
  have h : Inv env s := invariant_of_runOk (fun _ _ _ h ha hs => h.step ha hs) inv_empty hok hrun
  choose point hpoint using h.exists_pointOf
  exact ⟨_, (h.points hpoint).linearizes⟩

/-- Two puts of one key overlap each other and a get of it, which finds the key in
a memtable that is written out and cleared before it looks; a second get begins
after one of the puts has returned. -/
def overlappingCalls : List ClientAction :=
  [.write ⟨[97], some [1]⟩, .write ⟨[97], some [2]⟩, .push 1, .push 0, .commit 1, .read [97],
    .background .maybeFlush, .background .flushStart, .snapshot 2, .background .flushCommit,
    .background .flushClear, .probeMemtables 2, .commitAround 1 (.putting 1), .acknowledge 0,
    .read [97],
    .snapshot 3, .readLog 2, .probeMemtables 3, .write ⟨[97], none⟩, .push 4, .commit 1,
    .readLog 3, .acknowledge 1, .acknowledge 4]

/-- The first get returns the older of the two values, the second the newer one. -/
theorem linearizable_overlappingCalls :
    let events := (finalState (step .small) {} overlappingCalls).events.map Prod.snd
    .respond ⟨2, .query [97], .value (some [2])⟩ ∈ events
      ∧ .respond ⟨3, .query [97], .value (some [1])⟩ ∈ events ∧ mapObject.Linearizable events :=
  ⟨by decide +kernel, by decide +kernel, linearizable (by decide +kernel)
    (runSteps_eq_finalState (by decide +kernel))⟩

end Clients
