import ForgeLSM.Batch
import ForgeLSM.Engine

/-!
# A hand-off inside a commit

`maybe_flush` runs before its leader takes the commit lock, so the hand-off of
one leader can fall inside the commit of the leader before. At most one can: the
next leader is elected when the queue is drained, and the one after that only
when the next has drained it in turn, under the lock.

A commit looks at the memtable and the WAL at several times. While the requests
get their pointers it asks for the active memtable and the number of the
segment; then it appends to the open segment; then it gets hold of the active
memtable, and puts. `HandOffPoint` is where among these the hand-off falls, and
`KVStore.commitAround` the commit around it. `KVStore.leaderStep` is the engine
with such commits among its actions.

Some of them are what a hand-off before the commit or after it would have been
(`LeaderAction.steps`). The others can lose a write: what is put in a memtable
that the flush has gone through is in no table, and in no memtable either once
the slot is cleared (`get_lateLeader`). `LeaderOk` leaves those out, and a run
that meets it is a run of the engine (`exists_engineRun`).
-/

/-- **Where the hand-off of the next leader falls in a commit.** -/
inductive HandOffPoint where
  /-- So many requests have their pointers, and the WAL is not appended to yet. -/
  | placing (n : ℕ)
  /-- The memtable is swapped then, and the WAL rotated after the append. -/
  | appending (n : ℕ)
  /-- The batch is in the WAL, and `active()` not read yet. -/
  | appended
  /-- It is read, and the flush goes through the memtable after so many puts. -/
  | putting (n : ℕ)
  deriving DecidableEq

/-- What can happen to a store with several leaders. -/
inductive LeaderAction where
  | engine (a : EngineAction)
  /-- A leader commits a batch, and the hand-off of the next falls inside. -/
  | commitAround (batch : List WriteRequest) (point : HandOffPoint)
  deriving DecidableEq

/-- The operations an action commits. -/
def LeaderAction.ops : LeaderAction → List Op
  | .engine a => a.ops
  | .commitAround batch _ => userOps batch

/-- The operations of a run, in commit order. -/
def leaderOps (as : List LeaderAction) : History := as.flatMap LeaderAction.ops

namespace KVStore

variable {env : Env} {s s' : KVStore}

/-! ## A commit around a hand-off -/

/-- The value-log phase of a commit when the memtable is swapped after `n`
requests: the others see the store as it is then. -/
def planAround (env : Env) (s swapped : KVStore) (n : ℕ) (batch : List WriteRequest) :
    Vlogs × List Entry :=
  let p := s.plan env (batch.take n)
  let q := p.1.placeAll env swapped.active swapped.wal.current
    (s.history.length + (userOps (batch.take n)).length) (batch.drop n)
  (q.1, p.2 ++ q.2)

/-- **The commit of a batch around a hand-off.** -/
def commitAround (env : Env) (s : KVStore) (batch : List WriteRequest) :
    HandOffPoint → Option KVStore
  | .placing n => s.maybeFlush.map (fun t =>
      let p := s.planAround env t n batch
      (t.writeLogs batch p).putAll batch p.2)
  | .appending n => s.swap.map (fun t =>
      let p := s.planAround env t n batch
      (t.writeLogs batch p).rotateWal.putAll batch p.2)
  | .appended =>
    let p := s.plan env batch
    (s.writeLogs batch p).swap.map (fun t => t.rotateWal.putAll batch p.2)
  | .putting n =>
    let u := s.commit env batch
    u.maybeFlush.map (fun t =>
      -- the memtable in the ring has all the puts, the table will have the first ones
      { t with flushQueue := u.flushQueue ++ [⟨Ring.slotOf 4 u.currentImmIdx,
          ((s.plan env batch).2.take n).foldl Entry.put s.active, u.wal.current,
          u.history.length⟩] })

/-- **One step of the engine with several leaders.** -/
def leaderStep (env : Env) (s : KVStore) : LeaderAction → Option KVStore
  | .engine a => s.step env a
  | .commitAround batch point =>
    if s.gcEnabled batch then
      (s.commitAround env batch point).map (fun t => { t with gc := s.gcAfter batch })
    else none

end KVStore

/-! ## Hand-offs that might as well not fall inside -/

/-- The request is a put of a client. -/
def WriteRequest.isPut (r : WriteRequest) : Bool := !r.isDelete && !r.isGc

/-- **The steps of the engine an action amounts to.** A hand-off before the WAL
is appended to comes before the commit, if only puts have their pointers yet; one
after `active()` is read comes after it, if the flush goes through the memtable
once all is put. -/
def LeaderAction.steps : LeaderAction → Option (List EngineAction)
  | .engine a => some [a]
  | .commitAround batch (.placing n) =>
    if (batch.take n).all WriteRequest.isPut then some [.maybeFlush, .commit batch] else none
  | .commitAround batch (.putting n) =>
    if batch.length ≤ n then some [.commit batch, .maybeFlush] else none
  | .commitAround _ _ => none

namespace Vlogs

theorem placeAll_append (env : Env) (act : Memtable) (walId : ℕ) (p : Vlogs) (n : ℕ)
    (rs rs' : List WriteRequest) :
    p.placeAll env act walId n (rs ++ rs')
      = (((p.placeAll env act walId n rs).1.placeAll env act walId (n + (userOps rs).length) rs').1,
        (p.placeAll env act walId n rs).2 ++ ((p.placeAll env act walId n rs).1.placeAll env act
          walId (n + (userOps rs).length) rs').2) := by
  induction rs generalizing p n with
  | nil => rfl
  | cons r rs ih =>
    have hlen : (if r.isGc then n else n + 1) + (userOps rs).length
        = n + (userOps (r :: rs)).length := by
      rw [userOps_cons]
      split_ifs
      · rfl
      · rw [List.length_cons]
        omega
    rw [List.cons_append, placeAll, placeAll, ih, hlen]
    dsimp only
    split <;> rfl

/-- The pointer of a put depends on the value logs alone. -/
theorem placeAll_puts (env : Env) (act act' : Memtable) (walId walId' : ℕ) (p : Vlogs) (n : ℕ)
    {rs : List WriteRequest} (h : rs.all WriteRequest.isPut = true) :
    p.placeAll env act walId n rs = p.placeAll env act' walId' n rs := by
  induction rs generalizing p n with
  | nil => rfl
  | cons r rs ih =>
    rw [List.all_cons, Bool.and_eq_true, WriteRequest.isPut, Bool.and_eq_true, Bool.not_eq_true',
      Bool.not_eq_true'] at h
    have hplace : p.place env act walId r = p.place env act' walId' r := by
      simp [place, h.1.1, h.1.2]
    rw [placeAll, placeAll, hplace, ih _ _ h.2]

/-- A request makes one entry at most. -/
theorem length_placeAll_le (env : Env) (act : Memtable) (walId : ℕ) (p : Vlogs) (n : ℕ)
    (rs : List WriteRequest) : (p.placeAll env act walId n rs).2.length ≤ rs.length := by
  induction rs generalizing p n with
  | nil => exact le_rfl
  | cons r rs ih =>
    rw [placeAll]
    split
    · exact (ih _ _).trans (Nat.le_succ _)
    · exact Nat.succ_le_succ (ih _ _)

end Vlogs

namespace KVStore

variable {env : Env} {s s' : KVStore} {batch : List WriteRequest}

theorem planAround_eq {t : KVStore} (hv : t.vlogs = s.vlogs) (hh : t.history = s.history) {n : ℕ}
    (h : (batch.take n).all WriteRequest.isPut = true) :
    s.planAround env t n batch = t.plan env batch := by
  have hp : s.plan env (batch.take n) = t.plan env (batch.take n) := by
    unfold plan
    rw [hv, hh]
    exact Vlogs.placeAll_puts env _ _ _ _ _ _ h
  unfold planAround
  rw [hp, ← hh]
  conv_rhs => rw [plan, ← List.take_append_drop n batch, Vlogs.placeAll_append]
  rfl

/-- **A hand-off before the append is one before the commit.** -/
theorem commitAround_placing {n : ℕ} (h : (batch.take n).all WriteRequest.isPut = true) :
    s.commitAround env batch (.placing n) = s.maybeFlush.map (fun t => t.commit env batch) := by
  cases ht : s.maybeFlush with
  | none => rw [commitAround, ht, Option.map_none, Option.map_none]
  | some t =>
    obtain ⟨-, hcase⟩ := maybeFlush_cases ht
    have hplan : s.planAround env t n batch = t.plan env batch :=
      planAround_eq (by rw [hcase]) (by rw [hcase]) h
    rw [commitAround, ht, Option.map_some, Option.map_some, hplan, commit]

/-- **A hand-off after `active()` is read is one after the commit**, if the flush
goes through the memtable once all is put. -/
theorem commitAround_putting {n : ℕ} (h : batch.length ≤ n) :
    s.commitAround env batch (.putting n) = (s.commit env batch).maybeFlush := by
  have hall : (s.plan env batch).2.take n = (s.plan env batch).2 :=
    List.take_of_length_le ((Vlogs.length_placeAll_le ..).trans h)
  cases ht : (s.commit env batch).maybeFlush with
  | none => rw [commitAround, ht, Option.map_none]
  | some t =>
    obtain ⟨-, rfl⟩ := maybeFlush_cases ht
    rw [commitAround, ht, Option.map_some, hall]
    rfl

/-- **An action amounts to its steps.** -/
theorem runSteps_steps {a : LeaderAction} {bs : List EngineAction} (hb : a.steps = some bs)
    (hs : s.leaderStep env a = some s') : runSteps (step env) s bs = some s' := by
  cases a with
  | engine a =>
    cases hb
    exact runSteps_cons.mpr ⟨s', hs, rfl⟩
  | commitAround batch point =>
    rw [leaderStep, Option.ite_none_right_eq_some] at hs
    obtain ⟨hen, hs⟩ := hs
    obtain ⟨u, hu, rfl⟩ := Option.map_eq_some_iff.mp hs
    have hcommit : ∀ t : KVStore, t.gc = s.gc →
        t.step env (.commit batch) = some { t.commit env batch with gc := s.gcAfter batch } := by
      intro t ht
      have hen' : t.gcEnabled batch = true := by
        rw [← hen]
        unfold gcEnabled gcPending
        rw [ht]
      rw [step, if_pos hen', gcAfter, gcAfter, ht]
    cases point with
    | placing n =>
      rw [LeaderAction.steps, Option.ite_none_right_eq_some] at hb
      obtain ⟨hput, hb⟩ := hb
      cases hb
      rw [commitAround_placing hput] at hu
      obtain ⟨t, ht, rfl⟩ := Option.map_eq_some_iff.mp hu
      have hgc : t.gc = s.gc := by
        obtain ⟨-, rfl⟩ := maybeFlush_cases ht
        rfl
      exact runSteps_cons.mpr ⟨t, ht, runSteps_cons.mpr ⟨_, hcommit t hgc, rfl⟩⟩
    | putting n =>
      rw [LeaderAction.steps, Option.ite_none_right_eq_some] at hb
      obtain ⟨hlen, hb⟩ := hb
      cases hb
      rw [commitAround_putting hlen] at hu
      obtain ⟨hfree, rfl⟩ := maybeFlush_cases hu
      refine runSteps_cons.mpr ⟨_, hcommit s rfl, runSteps_cons.mpr ⟨_, ?_, rfl⟩⟩
      show KVStore.maybeFlush _ = _
      rw [KVStore.maybeFlush, swap]
      dsimp only
      rw [if_neg (by rw [hfree]; exact Bool.false_ne_true), Option.map_some]
      rfl
    | appending n | appended => cases hb

theorem clientOps_steps {a : LeaderAction} {bs : List EngineAction} (hb : a.steps = some bs) :
    clientOps bs = a.ops := by
  cases a with
  | engine a =>
    cases hb
    exact List.append_nil _
  | commitAround batch point =>
    cases point with
    | placing n | putting n =>
      rw [LeaderAction.steps, Option.ite_none_right_eq_some] at hb
      obtain rfl := Option.some.inj hb.2
      exact List.append_nil _
    | appending n | appended => cases hb

/-- **The condition on a step with several leaders**: a hand-off inside a commit
can be taken to come before it or after it, and the steps of the engine meet a
condition. -/
def LeaderOk (env : Env) (ok : KVStore → EngineAction → Prop) (s : KVStore) (a : LeaderAction) :
    Prop :=
  ∃ bs, a.steps = some bs ∧ RunOk (step env) ok s bs

instance {ok : KVStore → EngineAction → Prop} [∀ s a, Decidable (ok s a)] (a : LeaderAction) :
    Decidable (LeaderOk env ok s a) :=
  match h : a.steps with
  | none => isFalse (fun ⟨bs, hb, _⟩ => by rw [h] at hb; cases hb)
  | some bs => decidable_of_iff (RunOk (step env) ok s bs)
      ⟨fun hok => ⟨bs, h, hok⟩, fun ⟨_, hb, hok⟩ => Option.some.inj (h.symm.trans hb) ▸ hok⟩

/-- **A run of several leaders that meets the condition is a run of the engine**,
with the same operations. -/
theorem exists_engineRun {ok : KVStore → EngineAction → Prop} {as : List LeaderAction}
    (hok : RunOk (leaderStep env) (LeaderOk env ok) s as)
    (hrun : runSteps (leaderStep env) s as = some s') :
    ∃ bs, RunOk (step env) ok s bs ∧ runSteps (step env) s bs = some s'
      ∧ clientOps bs = leaderOps as := by
  induction as generalizing s with
  | nil => exact ⟨[], trivial, hrun, rfl⟩
  | cons a as ih =>
    obtain ⟨t, ht, hr⟩ := runSteps_cons.mp hrun
    obtain ⟨bs, hb, hbok⟩ := hok.1
    obtain ⟨bs', hok', hrun', hops⟩ := ih (hok.2 t ht) hr
    have hbrun := runSteps_steps hb ht
    refine ⟨bs ++ bs', runOk_append.mpr ⟨hbok, fun u hu => ?_⟩,
      runSteps_append.mpr ⟨t, hbrun, hrun'⟩, ?_⟩
    · cases hu.symm.trans hbrun
      exact hok'
    · rw [clientOps, List.flatMap_append, leaderOps, List.flatMap_cons, ← clientOps_steps hb]
      exact congrArg _ hops

/-! ## A leader that is late -/

/-- A put is in the WAL and its leader has got hold of the memtable when the next
leader hands it off; the flush finds it empty and clears the slot. -/
def lateLeader : List LeaderAction :=
  [.commitAround [{ key := [97], value := [1] }] (.putting 0), .engine .flushStart,
    .engine .flushClear]

/-- **A write is lost**, though every step of the engine is in order: no read finds
it, and its record is in the segment that is about to be removed. -/
theorem get_lateLeader :
    let s := finalState (leaderStep .small) {} lateLeader
    (runSteps (leaderStep .small) {} lateLeader).isSome = true
      ∧ (leaderOps lateLeader).value [97] = some [1] ∧ s.get .small [97] = none
      ∧ s.wal.removals = [1] := by
  decide +kernel

end KVStore
