import ForgeLSM.Layers
import ForgeLSM.Covered

/-!
# A read in two steps

`KVStore::get` takes hold of the memtables under one lock and of the version
under another, later, and probes what it holds after each. In between
memtables are swapped, tables logged, slots cleared and levels compacted, so
that what it looks through need never have been there all at once.
`SplitRead` is the machine of one such read and the engine.

What it holds are references: the memtable that was active goes on taking
writes until it is swapped, the frozen ones and the version do not change, and
the tables of a version held stay on disk.

The read finds what the lookup of one moment would have found
(`found_of_visited`), because a memtable leaves the ring only when the tree
answers for it. If none of the memtables held has the key, then whatever of
the memtables has got to the tree since is a stack of memtables swapped since
on top of the old tree – and that was the whole store, when the last of them
was swapped (`Below`).
-/

/-- How far a read of a key is. -/
inductive GetPhase where
  /-- It holds the memtables: the one that was active, which may be so still,
  and the frozen ones, newest first. -/
  | snapped (act : Memtable) (attached : Bool) (imms : List Memtable)
  /-- None of them has the key. -/
  | missed
  | found (c : Option Cell)
  deriving DecidableEq

/-- **A store and a read of it under way.** -/
structure SplitRead where
  store : KVStore
  phase : GetPhase

/-- What can happen while a read is under way. -/
inductive ReadAction where
  | engine (a : EngineAction)
  | probeMemtables
  /-- The current version is taken and its tables probed. -/
  | readVersion
  deriving DecidableEq

/-- What the read holds after a step of the engine: the memtable that was
active when it took hold of it is the active one until it is swapped. -/
def GetPhase.follow (s' : KVStore) (a : EngineAction) : GetPhase → GetPhase
  | .snapped act true imms =>
    if a = .maybeFlush then .snapped act false imms else .snapped s'.active true imms
  | p => p

namespace SplitRead

/-- A read that has just taken hold of the memtables. -/
def start (s : KVStore) : SplitRead := ⟨s, .snapped s.active true s.ringScan⟩

/-- **One step of the read of a key, or of the engine.** -/
def step (env : Env) (k : Key) (r : SplitRead) : ReadAction → Option SplitRead
  | .engine a => (r.store.step env a).map (fun s' => ⟨s', r.phase.follow s' a⟩)
  | .probeMemtables =>
    match r.phase with
    | .snapped act _ imms =>
      match (act :: imms).findSome? (fun m => m.get k) with
      | some c => some { r with phase := .found (some c) }
      | none => some { r with phase := .missed }
    | _ => none
  | .readVersion =>
    match r.phase with
    | .missed => some { r with phase := .found (r.store.lsm.lookup env k) }
    | _ => none

end SplitRead

/-- A step of the engine without kills and garbage collection. -/
def KVStore.NoGcStep (_ : KVStore) (a : EngineAction) : Prop := a.NoGc

/-- A step of a read in an engine without kills and garbage collection. -/
def SplitRead.NoGcStep (_ : SplitRead) : ReadAction → Prop
  | .engine a => a.NoGc
  | _ => True

instance (s : KVStore) (a : EngineAction) : Decidable (s.NoGcStep a) :=
  inferInstanceAs (Decidable a.NoGc)

instance (r : SplitRead) (a : ReadAction) : Decidable (r.NoGcStep a) := by
  cases a <;> unfold SplitRead.NoGcStep <;> infer_instance

/-! ## What has got to the tree -/

variable {seen : Option Cell → Prop} {a : EngineAction}

namespace KVStore

variable {env : Env} {s s' : KVStore} {k : Key}

/-- What a lookup finds that looks through some of the memtables on the way and
then the tree. -/
def stackLookup (env : Env) (s : KVStore) (ts : List FlushTask) (k : Key) : Option Cell :=
  (((ts.map FlushTask.mem).reverse).findSome? (fun m => m.get k)).or (s.lsm.lookup env k)

/-- **Every stack of memtables at the bottom of the store has been the whole of
it**: what it answers for the key is among the answers `seen`. -/
def Below (env : Env) (k : Key) (seen : Option Cell → Prop) (s : KVStore) : Prop :=
  ∀ ts, ts <+: s.pending → seen (live (s.stackLookup env ts k))

/-- A store none of whose memtables has the key. -/
theorem Pipeline.below (hp : Pipeline env s)
    (hnone : (s.active :: s.ringScan).findSome? (fun m => m.get k) = none)
    (hseen : seen (live (s.lookup env k))) : Below env k seen s := by
  intro ts hts
  have hmiss : ((ts.map FlushTask.mem).reverse).findSome? (fun m => m.get k) = none := by
    rw [List.findSome?_eq_none_iff] at hnone ⊢
    intro m hm
    obtain ⟨t, ht, rfl⟩ := List.mem_map.mp (List.mem_reverse.mp hm)
    refine hnone _ (List.mem_cons_of_mem _ ?_)
    rw [hp.ringScan_eq, List.mem_reverse]
    exact List.mem_map_of_mem (mem_flushQueue_of_pending (hts.subset ht))
  rw [KVStore.lookup, hnone, Option.none_or] at hseen
  rw [stackLookup, hmiss, Option.none_or]
  exact hseen

/-- The whole stack, under an empty memtable, is the store. -/
theorem Pipeline.live_stackLookup_pending (hp : Pipeline env s) (hact : s.active = .empty) :
    live (s.stackLookup env s.pending k) = live (s.lookup env k) := by
  rw [hp.live_lookup_pending k, hact, findSome?_cons_or, OrdMap.get_empty, Option.none_or,
    stackLookup]

/-- **Every step but a kill keeps it.** A hand-off makes a new stack, which is
the store at that moment; a flush takes the lowest memtable into the tree. -/
theorem Below.step (hb : Below env k seen s) (hp : Pipeline env s) (ha : ∀ b n, a ≠ .crash b n)
    (hs : s.step env a = some s') (hseen : seen (live (s'.lookup env k))) :
    Below env k seen s' := by
  by_cases hflush : a = .maybeFlush
  · subst hflush
    have hpend := pending_maybeFlush hp hs
    have hp' := hp.maybeFlush hs
    intro ts hts
    rw [hpend] at hts
    rcases List.prefix_concat_iff.mp hts with rfl | hold
    · rw [← hpend, hp'.live_stackLookup_pending]
      · exact hseen
      · obtain ⟨-, rfl⟩ := maybeFlush_cases hs
        rfl
    · have hlsm : s'.lsm = s.lsm := by
        obtain ⟨-, rfl⟩ := maybeFlush_cases hs
        rfl
      have hsame := hb ts hold
      unfold stackLookup at hsame ⊢
      rwa [hlsm]
  by_cases hback : a.Background
  · obtain ⟨-, b, hadv⟩ := hp.advances_background hback hflush hs 0
    intro ts hts
    rcases hadv with ⟨-, hpend, hl⟩ | ⟨t, hpend, -, hl⟩
    · rw [hpend] at hts
      rw [stackLookup, live_or_congr (hl k)]
      exact hb ts hts
    · -- the memtable taken in was at the bottom of every stack
      have hcons := hb (t :: ts) (hpend ▸ List.cons_prefix_cons.mpr ⟨rfl, hts⟩)
      rw [stackLookup, live_or_congr (hl k)]
      rw [stackLookup, List.map_cons, List.reverse_cons, List.findSome?_append, Option.or_assoc,
        List.findSome?_singleton] at hcons
      exact hcons
  · cases a with
    | commit batch =>
      obtain ⟨-, rfl⟩ := step_commit_cases hs
      exact hb
    | crash batch n => exact absurd rfl (ha batch n)
    | _ => exact absurd trivial hback

end KVStore

/-! ## The age of what is found -/

namespace KVStore

variable {env : Env} {s s' : KVStore} {k : Key}

/-- **Every entry of the store is stamped with an operation of the history**,
or an earlier one. -/
structure Stamped (s : KVStore) : Prop where
  active : ∀ k c, s.active.get k = some c → c.stamp ≤ s.history.length
  queue : ∀ t ∈ s.flushQueue, ∀ k c, t.mem.get k = some c → c.stamp ≤ s.history.length
  lsm : s.lsm.Entries (fun _ c => c.stamp ≤ s.history.length)

theorem stamped_fresh : Stamped {} where
  active k c hc := by cases hc
  queue t ht := by cases ht
  lsm := Lsm.entries_fresh

theorem stamped_iff : Stamped s ↔ EveryCell (fun _ c => c.stamp ≤ s.history.length) s :=
  ⟨fun h => ⟨h.active, h.queue, h.lsm⟩, fun h => ⟨h.active, h.queue, h.lsm⟩⟩

/-- What a lookup finds is no younger than the history. -/
theorem Stamped.lookup (h : Stamped s) (hp : Pipeline env s) {c : Cell}
    (hc : s.lookup env k = some c) : c.stamp ≤ s.history.length :=
  (stamped_iff.mp h).lookup hp hc

/-- The entries of a batch of clients' requests are stamped with its
operations. -/
theorem stamp_of_mem_plan {batch : List WriteRequest} (hgc : ∀ r ∈ batch, r.isGc = false)
    {e : Entry} (he : e ∈ (s.plan env batch).2) :
    s.history.length < e.stamp ∧ e.stamp ≤ (s.history ++ userOps batch).length := by
  have hrec : ∃ r, e.walRecord = some r ∧ r.stamp = e.stamp :=
    ⟨_, if_neg (by simp [hgc e.req (Vlogs.req_mem_of_mem_placeAll he)]), rfl⟩
  obtain ⟨r, hr, hstamp⟩ := hrec
  have hmem : r.stamp ∈ ((s.plan env batch).2.filterMap Entry.walRecord).map WalRecord.stamp :=
    List.mem_map_of_mem (List.mem_filterMap.mpr ⟨e, he, hr⟩)
  rw [plan, Vlogs.stamps_walRecords, List.mem_range'_1, hstamp] at hmem
  rw [List.length_append]
  omega

theorem Stamped.step (h : Stamped s) (ha : a.NoGc) (hs : s.step env a = some s') : Stamped s' := by
  have hcells := stamped_iff.mp h
  rcases ha.cases with ⟨batch, rfl, hgc⟩ | ⟨hb, hnogc⟩
  · obtain ⟨-, rfl⟩ := step_commit_cases hs
    have hle : s.history.length ≤ (s.history ++ userOps batch).length := by simp
    exact stamped_iff.mpr (hcells.commit (fun _ _ hc => le_trans hc hle)
      (fun e he => (stamp_of_mem_plan hgc he).2) _)
  · rw [stamped_iff, (background_frame hb hnogc hs).2.2.1]
    exact hcells.background hb hs

/-- **The answer for a key has not changed since a time, or is younger than
it.** -/
structure Since (env : Env) (k : Key) (n : ℕ) (o : Option Cell) (s : KVStore) : Prop where
  pipeline : Pipeline env s
  length : n ≤ s.history.length
  answer : live (s.lookup env k) = o ∨ ∀ c, live (s.lookup env k) = some c → n < c.stamp

theorem Since.step {n : ℕ} {o : Option Cell} (h : Since env k n o s) (ha : a.NoGc)
    (hs : s.step env a = some s') : Since env k n o s' := by
  have hp' := h.pipeline.step ha.ne_crash hs
  by_cases hb : a.Background
  · obtain ⟨-, hl, hh⟩ := h.pipeline.background hb hs
    refine ⟨hp', hh ▸ h.length, ?_⟩
    rw [hl]
    exact h.answer
  · cases a with
    | commit batch =>
      obtain ⟨-, rfl⟩ := step_commit_cases hs
      refine ⟨hp', h.length.trans (by simp [KVStore.commit, KVStore.putAll, KVStore.writeLogs]), ?_⟩
      rcases lookup_commit s batch (s.gcAfter batch) k with ⟨e, he, -, hget⟩ | ⟨-, hl⟩
      · refine Or.inr (fun c hc => ?_)
        rw [lookup_of_active hget] at hc
        obtain rfl := Option.some.inj (live_eq_some.mp hc).1
        exact h.length.trans_lt (stamp_of_mem_plan ha he).1
      · rw [hl]
        exact h.answer
    | crash batch n => exact ha.elim
    | _ => exact absurd trivial hb

end KVStore

/-! ## The read -/

namespace SplitRead

variable {env : Env} {k : Key} {r r' : SplitRead}

/-- The answers a lookup of the key gives in the states of a list. -/
def Seen (env : Env) (k : Key) (us : List SplitRead) (o : Option Cell) : Prop :=
  ∃ u ∈ us, live (u.store.lookup env k) = o

/-- **What a read under way can count on**: whatever it is about to find was
the answer of one of the states. -/
def PhaseOk (env : Env) (k : Key) (seen : Option Cell → Prop) (s : KVStore) : GetPhase → Prop
  | .snapped act attached imms =>
    (attached = true → act = s.active)
      ∧ (∀ c, act.get k = some c → seen (live (some c)))
      ∧ (act.get k = none → ∀ c, imms.findSome? (fun m => m.get k) = some c → seen (live (some c)))
      ∧ ((act :: imms).findSome? (fun m => m.get k) = none → KVStore.Below env k seen s)
  | .missed => KVStore.Below env k seen s
  | .found c => seen (live c)

/-- The invariant of a read under way. -/
structure Inv (env : Env) (k : Key) (seen : Option Cell → Prop) (r : SplitRead) : Prop where
  pipeline : KVStore.Pipeline env r.store
  phase : PhaseOk env k seen r.store r.phase

theorem inv_start {s : KVStore} (hp : KVStore.Pipeline env s)
    (hseen : seen (live (s.lookup env k))) :
    Inv env k seen (start s) := by
  refine ⟨hp, fun _ => rfl, fun c hc => ?_, fun hnone c hc => ?_, fun hnone => hp.below hnone hseen⟩
  · rwa [KVStore.lookup_of_active hc] at hseen
  · have hlook : s.lookup env k = some c := by
      rw [KVStore.lookup, findSome?_cons_or, hnone, Option.none_or, hc, Option.some_or]
    rwa [hlook] at hseen

/-- A key stays in the active memtable until it is swapped. -/
theorem active_get_ne_none {s s' : KVStore} (hp : KVStore.Pipeline env s) (ha : a.NoGc)
    (hne : a ≠ .maybeFlush) (hs : s.step env a = some s') (h : s'.active.get k = none) :
    s.active.get k = none := by
  by_cases hb : a.Background
  · rwa [← (hp.advances_background hb hne hs 0).1]
  · cases a with
    | commit batch =>
      obtain ⟨-, rfl⟩ := KVStore.step_commit_cases hs
      have h' : ((s.plan env batch).2.foldl Entry.put s.active).get k = none := h
      rcases Vlogs.get_foldl_put (s.plan env batch).2 s.active k with ⟨e, -, -, hget⟩ | ⟨-, hget⟩
      · rw [hget] at h'
        cases h'
      · rwa [hget] at h'
    | crash batch n => exact ha.elim
    | _ => exact absurd trivial hb

/-- **A step of the engine keeps what a read can count on.** -/
theorem PhaseOk.engine {s s' : KVStore} {p : GetPhase} (h : PhaseOk env k seen s p)
    (hp : KVStore.Pipeline env s) (ha : a.NoGc) (hs : s.step env a = some s')
    (hseen : seen (live (s'.lookup env k))) : PhaseOk env k seen s' (p.follow s' a) := by
  have hcrash : ∀ b n, a ≠ .crash b n := by
    rintro b n rfl
    exact ha
  have hbelow : KVStore.Below env k seen s → KVStore.Below env k seen s' := fun hb =>
    hb.step hp hcrash hs hseen
  cases p with
  | missed => exact hbelow h
  | found c => exact h
  | snapped act attached imms =>
    obtain ⟨hact, hfound, himm, hnone⟩ := h
    cases attached with
    | false => exact ⟨nofun, hfound, himm, fun hmiss => hbelow (hnone hmiss)⟩
    | true =>
      rw [GetPhase.follow]
      split_ifs with hflush
      · exact ⟨nofun, hfound, himm, fun hmiss => hbelow (hnone hmiss)⟩
      · obtain rfl := hact rfl
        have hkeep : s'.active.get k = none → s.active.get k = none :=
          active_get_ne_none hp ha hflush hs
        refine ⟨fun _ => rfl, fun c hc => ?_, fun hmiss => himm (hkeep hmiss), fun hmiss => ?_⟩
        · -- it is the active memtable now, so the lookup finds it
          rwa [KVStore.lookup_of_active hc] at hseen
        · rw [findSome?_cons_or, Option.or_eq_none_iff] at hmiss
          refine hbelow (hnone ?_)
          rw [findSome?_cons_or, hkeep hmiss.1, Option.none_or]
          exact hmiss.2

theorem Inv.step {a : ReadAction} (h : Inv env k seen r)
    (hseen : seen (live (r'.store.lookup env k))) (ha : r.NoGcStep a)
    (hs : r.step env k a = some r') : Inv env k seen r' := by
  obtain ⟨s, p⟩ := r
  obtain ⟨hp, hphase⟩ := h
  cases a with
  | engine a =>
    obtain ⟨s', hs', rfl⟩ := Option.map_eq_some_iff.mp hs
    exact ⟨hp.step ha.ne_crash hs', hphase.engine hp ha hs' hseen⟩
  | probeMemtables =>
    cases p with
    | snapped act attached imms =>
      obtain ⟨-, hfound, himm, hnone⟩ := hphase
      simp only [SplitRead.step] at hs
      split at hs
      case h_1 c hc =>
        cases hs
        refine ⟨hp, ?_⟩
        rw [findSome?_cons_or] at hc
        cases hget : act.get k with
        | some x =>
          rw [hget, Option.some_or] at hc
          obtain rfl := Option.some.inj hc
          exact hfound x hget
        | none =>
          rw [hget, Option.none_or] at hc
          exact himm hget c hc
      case h_2 hmiss =>
        cases hs
        exact ⟨hp, hnone hmiss⟩
    | missed | found c => cases hs
  | readVersion =>
    cases p with
    | missed =>
      cases hs
      refine ⟨hp, ?_⟩
      have hbottom := hphase [] List.nil_prefix
      rw [KVStore.stackLookup, List.map_nil, List.reverse_nil, List.findSome?_nil,
        Option.none_or] at hbottom
      exact hbottom
    | snapped act attached imms | found c => cases hs

theorem since_step {n : ℕ} {o : Option Cell} {a : ReadAction}
    (h : KVStore.Since env k n o r.store) (ha : r.NoGcStep a) (hs : r.step env k a = some r') :
    KVStore.Since env k n o r'.store := by
  obtain ⟨s, p⟩ := r
  cases a with
  | engine a =>
    obtain ⟨s', hs', rfl⟩ := Option.map_eq_some_iff.mp hs
    exact h.step ha hs'
  | probeMemtables =>
    cases p with
    | snapped act attached imms =>
      simp only [SplitRead.step] at hs
      split at hs <;> cases hs <;> exact h
    | missed | found c => cases hs
  | readVersion =>
    cases p with
    | missed =>
      cases hs
      exact h
    | snapped act attached imms | found c => cases hs

/-- **A read sees no gap.** A store is brought about by any run of commits,
hand-offs, flushes and compactions, and a read takes hold of its memtables.
However the steps of the engine fall between those of the read, what it finds
– a tombstone counting as absent – is what a lookup would have found in one of
the states the store has been in since. So a key that was there all along is
found, and never with an entry older than the one there was when the read
began. -/
theorem found_of_visited {before : List EngineAction} {during : List ReadAction} {s : KVStore}
    {c : Option Cell}
    (hbefore : RunOk (KVStore.step env) KVStore.NoGcStep {} before)
    (hs : runSteps (KVStore.step env) {} before = some s)
    (hduring : RunOk (step env k) NoGcStep (start s) during)
    (hr : runSteps (step env k) (start s) during = some r) (hfound : r.phase = .found c) :
    (∃ u ∈ visited (step env k) (start s) during, live c = live (u.store.lookup env k))
      ∧ ((∀ u ∈ visited (step env k) (start s) during, live (u.store.lookup env k) ≠ none) →
        live c ≠ none)
      ∧ ∀ x y, live c = some x → live (s.lookup env k) = some y → y.stamp ≤ x.stamp := by
  have hstore : KVStore.Pipeline env s ∧ s.Stamped :=
    invariant_of_runOk
      (fun _ _ _ (h : KVStore.Pipeline env _ ∧ KVStore.Stamped _) ha hs =>
        ⟨h.1.step ha.ne_crash hs, h.2.step ha hs⟩)
      ⟨KVStore.Pipeline.of_empty Lsm.inv_fresh rfl rfl rfl rfl, KVStore.stamped_fresh⟩ hbefore hs
  obtain ⟨hp, hstamped⟩ := hstore
  have hinv : Inv env k (Seen env k (visited (step env k) (start s) during)) r :=
    invariant_of_visited (V := fun u => u ∈ visited (step env k) (start s) during)
      (fun _ _ _ h hV ha hs => h.step ⟨_, hV, rfl⟩ ha hs)
      (inv_start hp ⟨_, self_mem_visited _ _, rfl⟩) (fun _ hu => hu) hduring hr
  have hseen := hinv.phase
  rw [hfound] at hseen
  obtain ⟨u, hu, hlive⟩ := hseen
  refine ⟨⟨u, hu, hlive.symm⟩, fun hall => hlive ▸ hall u hu, fun x y hx hy => ?_⟩
  have hsince : KVStore.Since env k s.history.length (live (s.lookup env k)) u.store :=
    invariant_of_mem_visited
      (fun v _ _ (h : KVStore.Since env k s.history.length (live (s.lookup env k)) v.store) ha hs =>
        since_step h ha hs)
      (show KVStore.Since env k _ _ (start s).store from ⟨hp, le_rfl, Or.inl rfl⟩) hduring hu
  have hyle : y.stamp ≤ s.history.length := hstamped.lookup hp (live_eq_some.mp hy).1
  rcases hsince.answer with hsame | hyoung
  · rw [hlive, hx, hy] at hsame
    exact (Option.some.inj hsame).symm ▸ le_rfl
  · exact hyle.trans (hyoung x (hlive.trans hx)).le

/-- A key is written and the store handed off. -/
def splitBefore : List EngineAction :=
  [.commit [{ key := [97], value := [1] }], .maybeFlush, .flushStart]

/-- The table of the memtable is logged and its slot cleared between the two
steps of a read of another key, which is written in between. -/
def splitDuring : List ReadAction :=
  [.engine .flushCommit, .probeMemtables, .engine .flushClear,
    .engine (.commit [{ key := [98], value := [2] }]), .engine .maybeFlush, .engine .flushStart,
    .engine .flushCommit, .engine .flushClear,
    .engine (.commit [{ key := [98], value := [3] }]), .readVersion]

/-- The store the read of `splitDuring` begins in. -/
def splitStore : KVStore := finalState (KVStore.step .small) {} splitBefore

/-- It finds the first value written, which the lookup no longer finds when it
ends. -/
theorem found_of_visited_splitDuring :
    ∃ c, (finalState (step .small [98]) (start splitStore) splitDuring).phase = .found c
      ∧ ∃ u ∈ visited (step .small [98]) (start splitStore) splitDuring,
        live c = live (u.store.lookup .small [98]) :=
  have hr : runSteps (step .small [98]) (start splitStore) splitDuring
      = some (finalState (step .small [98]) (start splitStore) splitDuring) :=
    runSteps_eq_finalState (by decide +kernel)
  have hfound : (finalState (step .small [98]) (start splitStore) splitDuring).phase
      = .found (some ⟨⟨2, 9, 1⟩, 2⟩) := by decide +kernel
  ⟨_, hfound, (found_of_visited (by decide +kernel :
      RunOk (KVStore.step .small) KVStore.NoGcStep {} splitBefore)
    (runSteps_eq_finalState (by decide +kernel)) (by decide +kernel) hr hfound).1⟩

end SplitRead
