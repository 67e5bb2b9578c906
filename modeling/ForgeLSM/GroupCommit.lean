import ForgeLSM.Batch
import ForgeLSM.Engine
import ForgeLSM.Util.Run

/-!
# Group commit

Writers push their requests onto a queue that is linked from the newest to the
oldest. The one that finds it empty is the *leader*: when it is through with
`maybe_flush` it takes the commit lock, drains the queue, commits what it drained
as one batch, gives the lock back, and completes the requests of the batch one by
one. The others wait to be completed. As soon as the queue is drained the next
writer to push is a leader too, so that leaders overlap: one is completing its
batch, another is in its commit, and one has not drained yet.

`GroupCommit` is the machine of the writers, for any number of them. A request has
a number, its place in the order of the pushes, and is its writer's only one: a
writer that comes again has a new number. `GroupCommit.Orderly` is what holds
whatever the interleaving – the one leader that has not drained is the oldest in
the queue, no request is lost, drained or completed twice, batches are committed in
the order of the pushes – and that every run comes to an end when no more requests
are pushed, and then all are completed.
-/

open Function

/-- Where a writer is in `execute_write_request`. -/
inductive WriterPhase where
  /-- It has not pushed its request. -/
  | out
  /-- It waits for its request to be completed. -/
  | waiting
  /-- It is a leader, in `maybe_flush`. -/
  | leader
  /-- It is past `maybe_flush`, in front of the commit lock. -/
  | ready
  /-- It has the lock and has drained a batch. -/
  | committing (batch : List ℕ)
  /-- It has given the lock back and has some requests to complete. -/
  | completing (todo : List ℕ)
  | returned
  deriving DecidableEq

/-- The writer is a leader that has not drained the queue. -/
def WriterPhase.Undrained (p : WriterPhase) : Prop := p = .leader ∨ p = .ready

/-- What the writers do to the store. -/
inductive StoreEvent where
  | swap
  | commit (batch : List WriteRequest)

/-- **The writers, their queue and the store.** -/
structure GroupCommit where
  store : KVStore
  /-- The requests in the order they were pushed. -/
  requests : List WriteRequest := []
  linkOlder : ℕ → Option ℕ := fun _ => none
  /-- `write_queue_`: the newest request in the queue. -/
  writeQueue : Option ℕ := none
  phase : ℕ → WriterPhase := fun _ => .out
  /-- Who has `commit_mutex_`. -/
  lock : Option ℕ := none
  /-- The requests whose state is `STATE_COMPLETED`. -/
  done : ℕ → Bool := fun _ => false
  /-- The batches drained, and those of them committed. -/
  drained : List (List ℕ) := []
  committed : List (List ℕ) := []
  /-- The completions, in their order. -/
  completed : List ℕ := []
  /-- What was done to the store. -/
  events : List StoreEvent := []

/-- The atomic steps. -/
inductive WriterAction where
  | push (r : WriteRequest)
  /-- `maybe_flush` returns, having swapped the memtable or not. -/
  | maybeFlush (t : ℕ) (swap : Bool)
  | drain (t : ℕ)
  | commit (t : ℕ)
  /-- A leader completes the next request of its batch. -/
  | complete (t : ℕ)
  /-- A writer returns. -/
  | return_ (t : ℕ)

/-- The step is of a writer that has pushed its request. -/
def WriterAction.IsPush : WriterAction → Prop
  | .push _ => True
  | _ => False

/-- An event of the store. -/
def KVStore.apply (env : Env) (s : KVStore) : StoreEvent → Option KVStore
  | .swap => s.maybeFlush
  | .commit batch => some (s.commit env batch)

/-- The batches that were committed. -/
def StoreEvent.batches (events : List StoreEvent) : List (List WriteRequest) :=
  events.filterMap (fun e => match e with
    | .swap => none
    | .commit batch => some batch)

namespace GroupCommit

/-- The loop over the links, from a request to the oldest. -/
def walk (link : ℕ → Option ℕ) : ℕ → Option ℕ → List ℕ
  | 0, _ => []
  | _ + 1, none => []
  | fuel + 1, some t => t :: walk link fuel (link t)

/-- **The queue**, from the newest to the oldest. -/
def queue (s : GroupCommit) : List ℕ := walk s.linkOlder s.requests.length s.writeQueue

/-- The requests with these numbers. -/
def requestsOf (s : GroupCommit) (batch : List ℕ) : List WriteRequest :=
  batch.filterMap (fun u => s.requests[u]?)

/-- A writer pushes its request, and is a leader if it finds the queue empty. -/
def push (s : GroupCommit) (r : WriteRequest) : GroupCommit :=
  { s with
    requests := s.requests ++ [r]
    linkOlder := update s.linkOlder s.requests.length s.writeQueue
    writeQueue := some s.requests.length
    phase := update s.phase s.requests.length
      (if s.writeQueue = none then .leader else .waiting) }

def setPhase (s : GroupCommit) (t : ℕ) (p : WriterPhase) : GroupCommit :=
  { s with phase := update s.phase t p }

/-- **One step.** -/
def step (env : Env) (s : GroupCommit) : WriterAction → Option GroupCommit
  | .push r => some (s.push r)
  | .maybeFlush t swap =>
    if s.phase t = .leader then
      if swap then s.store.maybeFlush.map (fun store =>
        { s.setPhase t .ready with store := store, events := s.events ++ [.swap] })
      else some (s.setPhase t .ready)
    else none
  | .drain t =>
    if s.phase t = .ready ∧ s.lock = none then some
      { s.setPhase t (.committing s.queue.reverse) with
        writeQueue := none
        lock := some t
        drained := s.drained ++ [s.queue.reverse] }
    else none
  | .commit t =>
    match s.phase t with
    | .committing batch => some
      { s.setPhase t (.completing batch) with
        store := s.store.commit env (s.requestsOf batch)
        lock := none
        committed := s.committed ++ [batch]
        events := s.events ++ [.commit (s.requestsOf batch)] }
    | _ => none
  | .complete t =>
    match s.phase t with
    | .completing (u :: todo) => some
      { s.setPhase t (.completing todo) with
        done := update s.done u true
        completed := s.completed ++ [u] }
    | _ => none
  | .return_ t =>
    match s.phase t with
    | .completing [] => some (s.setPhase t .returned)
    | .waiting => if s.done t then some (s.setPhase t .returned) else none
    | _ => none

/-- **What a step can be**, with what it needs and what comes of it. -/
inductive Moves (env : Env) (s : GroupCommit) : WriterAction → GroupCommit → Prop where
  | push (r : WriteRequest) : Moves env s (.push r) (s.push r)
  | flushed {t : ℕ} (ht : s.phase t = .leader) :
      Moves env s (.maybeFlush t false) (s.setPhase t .ready)
  | swapped {t : ℕ} {store : KVStore} (ht : s.phase t = .leader)
      (hstore : s.store.maybeFlush = some store) :
      Moves env s (.maybeFlush t true)
        { s.setPhase t .ready with store := store, events := s.events ++ [.swap] }
  | drain {t : ℕ} (ht : s.phase t = .ready) (hlock : s.lock = none) :
      Moves env s (.drain t) { s.setPhase t (.committing s.queue.reverse) with
        writeQueue := none
        lock := some t
        drained := s.drained ++ [s.queue.reverse] }
  | commit {t : ℕ} {batch : List ℕ} (ht : s.phase t = .committing batch) :
      Moves env s (.commit t) { s.setPhase t (.completing batch) with
        store := s.store.commit env (s.requestsOf batch)
        lock := none
        committed := s.committed ++ [batch]
        events := s.events ++ [.commit (s.requestsOf batch)] }
  | complete {t u : ℕ} {todo : List ℕ} (ht : s.phase t = .completing (u :: todo)) :
      Moves env s (.complete t) { s.setPhase t (.completing todo) with
        done := update s.done u true
        completed := s.completed ++ [u] }
  | returnLeader {t : ℕ} (ht : s.phase t = .completing []) :
      Moves env s (.return_ t) (s.setPhase t .returned)
  | returnWaiting {t : ℕ} (ht : s.phase t = .waiting) (hdone : s.done t = true) :
      Moves env s (.return_ t) (s.setPhase t .returned)

theorem moves_of_step {env : Env} {s s' : GroupCommit} {a : WriterAction}
    (hs : s.step env a = some s') : Moves env s a s' := by
  cases a with
  | push r =>
    cases hs
    exact .push r
  | maybeFlush t swap =>
    unfold step at hs
    dsimp only at hs
    split_ifs at hs with ht hswap
    · obtain ⟨store, hstore, rfl⟩ := Option.map_eq_some_iff.mp hs
      rw [hswap]
      exact .swapped ht hstore
    · cases hs
      rw [Bool.eq_false_iff.mpr hswap]
      exact .flushed ht
  | drain t =>
    unfold step at hs
    dsimp only at hs
    split_ifs at hs with ht
    cases hs
    exact .drain ht.1 ht.2
  | commit t =>
    unfold step at hs
    dsimp only at hs
    split at hs
    · rename_i batch ht
      cases hs
      exact .commit ht
    · cases hs
  | complete t =>
    unfold step at hs
    dsimp only at hs
    split at hs
    · rename_i u todo ht
      cases hs
      exact .complete ht
    · cases hs
  | return_ t =>
    unfold step at hs
    dsimp only at hs
    split at hs
    · rename_i ht
      cases hs
      exact .returnLeader ht
    · rename_i ht
      split_ifs at hs with hdone
      cases hs
      exact .returnWaiting ht hdone
    · cases hs

/-! ## The queue -/

/-- **The queue is linked**: of `n` requests those from `front` on are in it, the
first of them is the only leader that has not drained, and the others wait. -/
structure Linked (front n : ℕ) (link : ℕ → Option ℕ) (newest : Option ℕ)
    (phase : ℕ → WriterPhase) : Prop where
  le : front ≤ n
  newest : newest = if front = n then none else some (n - 1)
  link : ∀ t, front ≤ t → t < n → link t = if t = front then none else some (t - 1)
  out : ∀ t, n ≤ t → phase t = .out
  behind : ∀ t, front < t → t < n → phase t = .waiting
  oldest : front < n → (phase front).Undrained
  passed : ∀ t, t < front → ¬ (phase t).Undrained

variable {t : ℕ} {p : WriterPhase}

namespace Linked

variable {front n : ℕ} {link : ℕ → Option ℕ} {newest : Option ℕ} {phase : ℕ → WriterPhase}

section

variable (h : Linked front n link newest phase)
include h

/-- **The leader that has not drained is the oldest in the queue.** -/
theorem eq_front (ht : (phase t).Undrained) : t = front ∧ front < n := by
  have hlt : t < n := by
    by_contra hge
    rw [h.out t (by omega)] at ht
    rcases ht with ht | ht <;> cases ht
  have hle : ¬ t < front := fun hp => h.passed t hp ht
  have hge : ¬ front < t := fun hp => by
    rw [h.behind t hp hlt] at ht
    rcases ht with ht | ht <;> cases ht
  omega

/-- Whoever is neither in the queue nor out has been drained. -/
theorem lt_front (hout : phase t ≠ .out) (hwait : phase t ≠ .waiting)
    (hlead : ¬ (phase t).Undrained) : t < front := by
  by_contra hge
  by_cases hn : n ≤ t
  · exact hout (h.out t hn)
  · by_cases hf : t = front
    · exact hlead (hf ▸ h.oldest (by omega))
    · exact hwait (h.behind t (by omega) (by omega))

theorem push :
    Linked front (n + 1) (update link n newest) (some n)
      (update phase n (if newest = none then .leader else .waiting)) where
  le := Nat.le_succ_of_le h.le
  newest := by
    rw [if_neg (by have := h.le; omega), Nat.add_sub_cancel]
  link t hge hlt := by
    by_cases ht : t = n
    · subst ht
      rw [update_self, h.newest]
      by_cases hf : front = t
      · rw [if_pos hf, if_pos hf.symm]
      · rw [if_neg hf, if_neg (Ne.symm hf)]
    · rw [update_of_ne ht]
      exact h.link t hge (by omega)
  out t ht := by
    rw [update_of_ne (by omega)]
    exact h.out t (by omega)
  behind t hgt hlt := by
    by_cases ht : t = n
    · subst ht
      rw [update_self, h.newest, if_neg (show ¬ front = t by omega), if_neg (by simp)]
    · rw [update_of_ne ht]
      exact h.behind t hgt (by omega)
  oldest _ := by
    by_cases hf : front = n
    · subst hf
      rw [update_self, h.newest, if_pos rfl, if_pos rfl]
      exact Or.inl rfl
    · rw [update_of_ne hf]
      exact h.oldest (lt_of_le_of_ne h.le hf)
  passed t ht := by
    rw [update_of_ne (by have := h.le; omega)]
    exact h.passed t ht

/-- A writer that has been drained goes on. -/
theorem update_passed (ht : t < front) (hp : ¬ p.Undrained) :
    Linked front n link newest (update phase t p) :=
  { h with
    out := fun u hu => by
      rw [update_of_ne (by have := h.le; omega)]
      exact h.out u hu
    behind := fun u hgt hlt => by
      rw [update_of_ne (by omega)]
      exact h.behind u hgt hlt
    oldest := fun hlt => by
      rw [update_of_ne (by omega)]
      exact h.oldest hlt
    passed := fun u hu => by
      by_cases hut : u = t
      · rw [hut, update_self]
        exact hp
      · rw [update_of_ne hut]
        exact h.passed u hu }

/-- The leader in front of the drain goes on. -/
theorem update_front (hlt : front < n) (hp : p.Undrained) :
    Linked front n link newest (update phase front p) :=
  { h with
    out := fun u hu => by
      rw [update_of_ne (by omega)]
      exact h.out u hu
    behind := fun u hgt hu => by
      rw [update_of_ne (by omega)]
      exact h.behind u hgt hu
    oldest := fun _ => by
      rw [update_self]
      exact hp
    passed := fun u hu => by
      rw [update_of_ne (by omega)]
      exact h.passed u hu }

/-- The leader drains the queue. -/
theorem drain (hlt : front < n) (batch : List ℕ) :
    Linked n n link none (update phase front (.committing batch)) where
  le := le_refl n
  newest := (if_pos rfl).symm
  link t hge hlt := absurd hlt (by omega)
  out t ht := by
    rw [update_of_ne (by omega)]
    exact h.out t ht
  behind t hgt hlt := absurd hlt (by omega)
  oldest hlt := absurd hlt (lt_irrefl n)
  passed t ht := by
    by_cases heq : t = front
    · rw [heq, update_self]
      rintro (hp | hp) <;> cases hp
    · rw [update_of_ne heq]
      by_cases hpass : t < front
      · exact h.passed t hpass
      · rw [h.behind t (by omega) ht]
        rintro (hp | hp) <;> cases hp

/-- The loop over the links, from a request of the queue on. -/
theorem walk_eq {m fuel : ℕ} (hm : front ≤ m) (hn : m < n) (hfuel : m < front + fuel) :
    walk link fuel (some m) = (List.range' front (m + 1 - front)).reverse := by
  induction fuel generalizing m with
  | zero => omega
  | succ fuel ih =>
    rw [walk, h.link m hm hn]
    by_cases hf : m = front
    · subst hf
      rw [if_pos rfl, show m + 1 - m = 1 by omega]
      cases fuel <;> rfl
    · rw [if_neg hf, ih (by omega) (by omega) (by omega),
        show m + 1 - front = (m - 1 + 1 - front) + 1 by omega, List.range'_concat,
        List.reverse_append, List.reverse_singleton, List.singleton_append]
      congr 1
      omega

/-- **The queue is the requests from `front` on**, the newest first. -/
theorem walk_newest : walk link n newest = (List.range' front (n - front)).reverse := by
  rw [h.newest]
  by_cases hf : front = n
  · rw [if_pos hf, hf, Nat.sub_self]
    cases n <;> rfl
  · have hle := h.le
    rw [if_neg hf, h.walk_eq (by omega) (by omega) (by omega), show n - 1 + 1 = n by omega]

end

end Linked

/-! ## The commit lock -/

/-- **Whoever has the lock has drained the last batch and not committed it.** -/
structure Locked (lock : Option ℕ) (drained committed : List (List ℕ))
    (phase : ℕ → WriterPhase) : Prop where
  free : lock = none → committed = drained
  held : ∀ t, lock = some t → ∃ batch, phase t = .committing batch ∧ drained = committed ++ [batch]
  only : ∀ t batch, phase t = .committing batch → lock = some t

namespace Locked

variable {lock : Option ℕ} {drained committed : List (List ℕ)} {phase : ℕ → WriterPhase}

theorem isPrefix (h : Locked lock drained committed phase) : committed <+: drained := by
  cases hl : lock with
  | none => rw [h.free hl]
  | some t =>
    obtain ⟨batch, -, hdr⟩ := h.held t hl
    exact ⟨[batch], hdr.symm⟩

/-- A writer without the lock goes on without it. -/
theorem move (h : Locked lock drained committed phase) (ht : ∀ batch, phase t ≠ .committing batch)
    (hp : ∀ batch, p ≠ .committing batch) :
    Locked lock drained committed (update phase t p) where
  free := h.free
  held u hu := by
    obtain ⟨batch, hbatch, hdr⟩ := h.held u hu
    have hne : u ≠ t := by
      rintro rfl
      exact ht batch hbatch
    exact ⟨batch, by rwa [update_of_ne hne], hdr⟩
  only u batch hu := by
    by_cases hut : u = t
    · rw [hut, update_self] at hu
      exact absurd hu (hp batch)
    · rw [update_of_ne hut] at hu
      exact h.only u batch hu

theorem drain (h : Locked none drained committed phase) (t : ℕ) (batch : List ℕ) :
    Locked (some t) (drained ++ [batch]) committed
      (update phase t (.committing batch)) where
  free hn := by cases hn
  held u hu := by
    cases hu
    exact ⟨batch, update_self .., by rw [h.free rfl]⟩
  only u b hu := by
    by_cases hut : u = t
    · rw [hut]
    · rw [update_of_ne hut] at hu
      exact absurd (h.only u b hu) (by simp)

theorem commit (h : Locked lock drained committed phase) {batch : List ℕ}
    (ht : phase t = .committing batch) (todo : List ℕ) :
    drained = committed ++ [batch]
      ∧ Locked none drained (committed ++ [batch])
        (update phase t (.completing todo)) := by
  have hlock := h.only t batch ht
  obtain ⟨batch', hbatch', hdr⟩ := h.held t hlock
  rw [ht] at hbatch'
  cases hbatch'
  refine ⟨hdr, { free := fun _ => hdr.symm, held := ?_, only := fun u b hu => ?_ }⟩
  · rintro u ⟨⟩
  by_cases hut : u = t
  · rw [hut, update_self] at hu
    cases hu
  · rw [update_of_ne hut] at hu
    have hu' := h.only u b hu
    rw [hlock] at hu'
    exact absurd (Option.some.inj hu').symm hut

end Locked

/-! ## The completions -/

/-- **Every request that was committed is completed, or one leader has it to
complete.** -/
structure Completions (committed completed : List ℕ) (done : ℕ → Bool)
    (phase : ℕ → WriterPhase) : Prop where
  nodup : completed.Nodup
  sub : ∀ u ∈ completed, u ∈ committed
  done : ∀ u, done u = true ↔ u ∈ completed
  todo : ∀ t todo, phase t = .completing todo →
    todo.Nodup ∧ ∀ u ∈ todo, u ∈ committed ∧ u ∉ completed
  apart : ∀ t t' todo todo', phase t = .completing todo → phase t' = .completing todo' → t ≠ t' →
    ∀ u ∈ todo, u ∉ todo'
  left : ∀ u ∈ committed, u ∉ completed → ∃ t todo, phase t = .completing todo ∧ u ∈ todo

namespace Completions

variable {committed completed : List ℕ} {done : ℕ → Bool} {phase : ℕ → WriterPhase}

section

variable (h : Completions committed completed done phase)
include h

/-- A writer that has nothing to complete goes on. -/
theorem move (ht : ∀ todo, phase t = .completing todo → todo = [])
    (hp : ∀ todo, p ≠ .completing todo) :
    Completions committed completed done (update phase t p) := by
  have hcase : ∀ u todo, update phase t p u = .completing todo →
      phase u = .completing todo := by
    intro u todo hu
    by_cases hut : u = t
    · rw [hut, update_self] at hu
      exact absurd hu (hp todo)
    · rwa [update_of_ne hut] at hu
  refine { h with
    todo := fun u todo hu => h.todo u todo (hcase u todo hu)
    apart := fun u u' todo todo' hu hu' =>
      h.apart u u' todo todo' (hcase u todo hu) (hcase u' todo' hu')
    left := fun u hu hnot => ?_ }
  obtain ⟨t', todo, ht', hmem⟩ := h.left u hu hnot
  have hne : t' ≠ t := by
    rintro rfl
    rw [ht todo ht'] at hmem
    cases hmem
  exact ⟨t', todo, by rwa [update_of_ne hne], hmem⟩

/-- The leader of a batch has it to complete. -/
theorem commit {batch : List ℕ} (ht : phase t = .committing batch) (hbatch : batch.Nodup)
    (hnew : ∀ u ∈ batch, u ∉ committed) :
    Completions (committed ++ batch) completed done
      (update phase t (.completing batch)) := by
  have hcase : ∀ u todo, update phase t (.completing batch) u = .completing todo →
      u = t ∧ todo = batch ∨ u ≠ t ∧ phase u = .completing todo := by
    intro u todo hu
    by_cases hut : u = t
    · rw [hut, update_self] at hu
      exact Or.inl ⟨hut, (WriterPhase.completing.inj hu).symm⟩
    · rw [update_of_ne hut] at hu
      exact Or.inr ⟨hut, hu⟩
  refine
    { nodup := h.nodup
      sub := fun u hu => List.mem_append_left _ (h.sub u hu)
      done := h.done
      todo := fun u todo hu => ?_
      apart := fun u u' todo todo' hu hu' hne x hx hx' => ?_
      left := fun u hu hnot => ?_ }
  · rcases hcase u todo hu with ⟨-, rfl⟩ | ⟨-, hu⟩
    · exact ⟨hbatch, fun x hx =>
        ⟨List.mem_append_right _ hx, fun hc => hnew x hx (h.sub x hc)⟩⟩
    · obtain ⟨hnd, hmem⟩ := h.todo u todo hu
      exact ⟨hnd, fun x hx => ⟨List.mem_append_left _ (hmem x hx).1, (hmem x hx).2⟩⟩
  · rcases hcase u todo hu with ⟨rfl, rfl⟩ | ⟨-, hold⟩ <;>
      rcases hcase u' todo' hu' with ⟨rfl, rfl⟩ | ⟨-, hold'⟩
    · exact hne rfl
    · exact hnew x hx ((h.todo u' todo' hold').2 x hx').1
    · exact hnew x hx' ((h.todo u todo hold).2 x hx).1
    · exact h.apart u u' todo todo' hold hold' hne x hx hx'
  · rcases List.mem_append.mp hu with hu | hu
    · obtain ⟨t', todo, ht', hmem⟩ := h.left u hu hnot
      have hne : t' ≠ t := by
        rintro rfl
        rw [ht] at ht'
        cases ht'
      exact ⟨t', todo, by rwa [update_of_ne hne], hmem⟩
    · exact ⟨t, batch, update_self .., hu⟩

/-- The next request of a batch is completed. -/
theorem complete {t u : ℕ} {todo : List ℕ} (ht : phase t = .completing (u :: todo)) :
    Completions committed (completed ++ [u]) (update done u true)
      (update phase t (.completing todo)) := by
  obtain ⟨hnd, hmem⟩ := h.todo t _ ht
  obtain ⟨hu, hfresh⟩ := hmem u List.mem_cons_self
  have hcase : ∀ t' todo', update phase t (.completing todo) t' = .completing todo' →
      t' = t ∧ todo' = todo ∨ t' ≠ t ∧ phase t' = .completing todo' := by
    intro t' todo' ht'
    by_cases heq : t' = t
    · rw [heq, update_self] at ht'
      exact Or.inl ⟨heq, (WriterPhase.completing.inj ht').symm⟩
    · rw [update_of_ne heq] at ht'
      exact Or.inr ⟨heq, ht'⟩
  refine
    { nodup := ?_
      sub := fun x hx => ?_
      done := fun x => ?_
      todo := fun t' todo' ht' => ?_
      apart := fun t' t'' todo' todo'' ht' ht'' hne x hx hx' => ?_
      left := fun x hx hnot => ?_ }
  · exact List.nodup_append.mpr ⟨h.nodup, List.nodup_singleton u, fun a ha b hb heq => by
      rw [List.mem_singleton.mp hb] at heq
      exact hfresh (heq ▸ ha)⟩
  · rcases List.mem_append.mp hx with hx | hx
    · exact h.sub x hx
    · rwa [List.mem_singleton.mp hx]
  · rw [List.mem_append, List.mem_singleton, ← h.done x]
    by_cases hxu : x = u
    · rw [hxu, update_self]
      exact iff_of_true rfl (Or.inr rfl)
    · rw [update_of_ne hxu]
      exact (or_iff_left hxu).symm
  · rcases hcase t' todo' ht' with ⟨-, rfl⟩ | ⟨hne, ht'⟩
    · obtain ⟨hnot, hnd'⟩ := List.nodup_cons.mp hnd
      refine ⟨hnd', fun x hx => ⟨(hmem x (List.mem_cons_of_mem u hx)).1, fun hc => ?_⟩⟩
      rcases List.mem_append.mp hc with hc | hc
      · exact (hmem x (List.mem_cons_of_mem u hx)).2 hc
      · exact hnot (List.mem_singleton.mp hc ▸ hx)
    · obtain ⟨hnd', hmem'⟩ := h.todo t' todo' ht'
      refine ⟨hnd', fun x hx => ⟨(hmem' x hx).1, fun hc => ?_⟩⟩
      rcases List.mem_append.mp hc with hc | hc
      · exact (hmem' x hx).2 hc
      · rw [List.mem_singleton.mp hc] at hx
        exact h.apart t t' _ todo' ht ht' (Ne.symm hne) u List.mem_cons_self hx
  · rcases hcase t' todo' ht' with ⟨rfl, rfl⟩ | ⟨-, hold⟩ <;>
      rcases hcase t'' todo'' ht'' with ⟨rfl, rfl⟩ | ⟨-, hold'⟩
    · exact hne rfl
    · exact h.apart _ t'' _ todo'' ht hold' hne x (List.mem_cons_of_mem u hx) hx'
    · exact h.apart t' _ todo' _ hold ht hne x hx (List.mem_cons_of_mem u hx')
    · exact h.apart t' t'' todo' todo'' hold hold' hne x hx hx'
  · have hxu : x ≠ u := fun heq => hnot (by rw [heq]; simp)
    obtain ⟨t', todo', ht', hmem'⟩ := h.left x hx (fun hc => hnot (List.mem_append_left _ hc))
    by_cases heq : t' = t
    · rw [heq, ht] at ht'
      cases ht'
      exact ⟨t, todo, update_self .., (List.mem_cons.mp hmem').resolve_left hxu⟩
    · exact ⟨t', todo', by rwa [update_of_ne heq], hmem'⟩

end

end Completions

/-! ## The invariant -/

/-- How many requests have been drained. -/
def front (s : GroupCommit) : ℕ := s.drained.flatten.length

/-- **What holds between the steps.** -/
structure Inv (env : Env) (store₀ : KVStore) (s : GroupCommit) : Prop where
  drained : s.drained.flatten = List.range s.front
  linked : Linked s.front s.requests.length s.linkOlder s.writeQueue s.phase
  locked : Locked s.lock s.drained s.committed s.phase
  completions : Completions s.committed.flatten s.completed s.done s.phase
  applied : runSteps (KVStore.apply env) store₀ s.events = some s.store
  commits : StoreEvent.batches s.events = s.committed.map s.requestsOf

namespace Inv

variable {env : Env} {store₀ : KVStore} {s s' : GroupCommit}

theorem init (env : Env) (store₀ : KVStore) : Inv env store₀ { store := store₀ } where
  drained := rfl
  linked :=
    { le := le_refl 0
      newest := rfl
      link := fun t _ ht => absurd ht (Nat.not_lt_zero t)
      out := fun _ _ => rfl
      behind := fun t _ ht => absurd ht (Nat.not_lt_zero t)
      oldest := fun h => absurd h (Nat.not_lt_zero 0)
      passed := fun t ht => absurd ht (Nat.not_lt_zero t) }
  locked :=
    { free := fun _ => rfl
      held := fun _ ht => by cases ht
      only := fun _ _ ht => by cases ht }
  completions :=
    { nodup := List.nodup_nil
      sub := fun _ hu => hu
      done := fun _ => by simp
      todo := fun _ _ ht => by cases ht
      apart := fun _ _ _ _ ht => by cases ht
      left := fun _ hu => absurd hu List.not_mem_nil }
  applied := rfl
  commits := rfl

section

variable (h : Inv env store₀ s)
include h

/-- What is committed has been drained. -/
theorem lt_of_mem_committed {u : ℕ} (hu : u ∈ s.committed.flatten) : u < s.front := by
  have hmem : u ∈ s.drained.flatten := h.locked.isPrefix.flatten.subset hu
  rw [h.drained] at hmem
  exact List.mem_range.mp hmem

theorem push (r : WriteRequest) : Inv env store₀ (s.push r) := by
  have hout : s.phase s.requests.length = .out := h.linked.out _ (le_refl _)
  have hnew : ∀ p : WriterPhase, p = (if s.writeQueue = none then .leader else .waiting) →
      (∀ batch, p ≠ .committing batch) ∧ ∀ todo, p ≠ .completing todo := by
    rintro p rfl
    split_ifs <;> exact ⟨nofun, nofun⟩
  obtain ⟨hc, ht⟩ := hnew _ rfl
  refine
    { drained := h.drained
      linked := ?_
      locked := h.locked.move (by simp [hout]) hc
      completions := h.completions.move (by simp [hout]) ht
      applied := h.applied
      commits := h.commits.trans (List.map_congr_left (fun batch hb => ?_)) }
  · show Linked s.front (s.requests ++ [r]).length _ _ _
    rw [List.length_append, List.length_singleton]
    exact h.linked.push
  · -- the requests of a batch were pushed before
    unfold requestsOf
    refine List.filterMap_congr (fun u hu => ?_)
    have hlt := h.lt_of_mem_committed (List.mem_flatten.mpr ⟨batch, hb, hu⟩)
    exact (List.getElem?_append_left (lt_of_lt_of_le hlt h.linked.le)).symm

/-- `maybe_flush` returns. -/
theorem maybeFlush (ht : s.phase t = .leader) {events : List StoreEvent} {store : KVStore}
    (happ : runSteps (KVStore.apply env) store₀ events = some store)
    (hcom : StoreEvent.batches events = StoreEvent.batches s.events) :
    Inv env store₀ { s.setPhase t .ready with store := store, events := events } := by
  obtain ⟨rfl, hlt⟩ := h.linked.eq_front (t := t) (Or.inl ht)
  exact
    { drained := h.drained
      linked := h.linked.update_front hlt (Or.inr rfl)
      locked := h.locked.move (by simp [ht]) nofun
      completions := h.completions.move (by simp [ht])
        nofun
      applied := happ
      commits := hcom.trans h.commits }

/-- What a leader drains is the rest of the requests. -/
theorem queue_eq : s.queue.reverse = List.range' s.front (s.requests.length - s.front) := by
  rw [queue, h.linked.walk_newest, List.reverse_reverse]

/-- The requests drained and the ones that wait are all requests, in the order
of their pushes. -/
theorem drained_queue : s.drained.flatten ++ s.queue.reverse = List.range s.requests.length := by
  have hcat : List.range' 0 s.front ++ List.range' (0 + s.front) (s.requests.length - s.front)
      = List.range' 0 (s.front + (s.requests.length - s.front)) := List.range'_append_1
  rw [Nat.zero_add, Nat.add_sub_cancel' h.linked.le] at hcat
  rw [h.drained, h.queue_eq, List.range_eq_range', hcat, List.range_eq_range']

theorem drain (ht : s.phase t = .ready) (hlock : s.lock = none) :
    Inv env store₀ { s.setPhase t (.committing s.queue.reverse) with
      writeQueue := none
      lock := some t
      drained := s.drained ++ [s.queue.reverse] } := by
  obtain ⟨rfl, hlt⟩ := h.linked.eq_front (t := t) (Or.inr ht)
  have hflat : (s.drained ++ [s.queue.reverse]).flatten = List.range s.requests.length := by
    rw [List.flatten_append, List.flatten_singleton, h.drained_queue]
  have hfront : (s.drained ++ [s.queue.reverse]).flatten.length = s.requests.length := by
    rw [hflat, List.length_range]
  exact
    { drained := by
        show _ = List.range (s.drained ++ [s.queue.reverse]).flatten.length
        rw [hfront]
        exact hflat
      linked := by
        show Linked (s.drained ++ [s.queue.reverse]).flatten.length _ _ _ _
        rw [hfront]
        exact h.linked.drain hlt _
      locked := by
        have hfree := h.locked
        rw [hlock] at hfree
        exact hfree.drain s.front s.queue.reverse
      completions := h.completions.move (by simp [ht])
        nofun
      applied := h.applied
      commits := h.commits }

theorem commit {batch : List ℕ} (ht : s.phase t = .committing batch) :
    Inv env store₀ { s.setPhase t (.completing batch) with
      store := s.store.commit env (s.requestsOf batch)
      lock := none
      committed := s.committed ++ [batch]
      events := s.events ++ [.commit (s.requestsOf batch)] } := by
  obtain ⟨hdr, hlocked⟩ := h.locked.commit ht batch
  have hnodup : (s.committed ++ [batch]).flatten.Nodup := by
    rw [← hdr, h.drained]
    exact List.nodup_range
  rw [List.flatten_append, List.flatten_singleton] at hnodup
  obtain ⟨-, hbatch, hdisj⟩ := List.nodup_append.mp hnodup
  have hlt : t < s.front := h.linked.lt_front (by simp [ht])
    (by simp [ht]) (by simp [WriterPhase.Undrained, ht])
  exact
    { drained := h.drained
      linked := h.linked.update_passed hlt (by simp [WriterPhase.Undrained])
      locked := hlocked
      completions := by
        show Completions (s.committed ++ [batch]).flatten _ _ _
        rw [List.flatten_append, List.flatten_singleton]
        exact h.completions.commit ht hbatch (fun u hu hc => hdisj u hc u hu rfl)
      applied := runSteps_append.mpr ⟨s.store, h.applied, rfl⟩
      commits := by
        show StoreEvent.batches (s.events ++ [.commit (s.requestsOf batch)])
          = (s.committed ++ [batch]).map s.requestsOf
        rw [StoreEvent.batches, List.filterMap_append, List.map_append, ← h.commits]
        rfl }

theorem complete {t u : ℕ} {todo : List ℕ} (ht : s.phase t = .completing (u :: todo)) :
    Inv env store₀ { s.setPhase t (.completing todo) with
      done := update s.done u true
      completed := s.completed ++ [u] } := by
  have hlt : t < s.front := h.linked.lt_front (by simp [ht])
    (by simp [ht]) (by simp [WriterPhase.Undrained, ht])
  exact
    { drained := h.drained
      linked := h.linked.update_passed hlt (by simp [WriterPhase.Undrained])
      locked := h.locked.move (by simp [ht])
        nofun
      completions := h.completions.complete ht
      applied := h.applied
      commits := h.commits }

/-- A writer returns that has been drained and has nothing to complete. -/
theorem return_ (hlt : t < s.front) (hc : ∀ batch, s.phase t ≠ .committing batch)
    (htodo : ∀ todo, s.phase t = .completing todo → todo = []) :
    Inv env store₀ (s.setPhase t .returned) where
  drained := h.drained
  linked := h.linked.update_passed hlt (by simp [WriterPhase.Undrained])
  locked := h.locked.move hc nofun
  completions := h.completions.move htodo nofun
  applied := h.applied
  commits := h.commits

/-- **Every step keeps the invariant.** -/
theorem step {a : WriterAction} (hs : s.step env a = some s') : Inv env store₀ s' := by
  cases moves_of_step hs with
  | push r => exact h.push r
  | flushed ht => exact h.maybeFlush ht h.applied rfl
  | swapped ht hstore =>
    refine h.maybeFlush ht (runSteps_append.mpr ⟨s.store, h.applied, ?_⟩) ?_
    · exact runSteps_cons.mpr ⟨_, hstore, rfl⟩
    · rw [StoreEvent.batches, List.filterMap_append]
      exact List.append_nil _
  | drain ht hlock => exact h.drain ht hlock
  | commit ht => exact h.commit ht
  | complete ht => exact h.complete ht
  | returnLeader ht =>
    refine h.return_ (h.linked.lt_front (by simp [ht]) (by simp [ht])
      (by simp [WriterPhase.Undrained, ht])) (by simp [ht]) (fun todo htodo => ?_)
    rw [ht] at htodo
    exact (WriterPhase.completing.inj htodo).symm
  | @returnWaiting t ht hdone =>
    -- what is completed has been drained
    have hlt := h.lt_of_mem_committed (h.completions.sub t ((h.completions.done t).mp hdone))
    exact h.return_ hlt (by simp [ht]) (by simp [ht])

end

end Inv

/-! ## Coming to an end -/

/-- How many steps a writer has still to take, those that complete requests
apart. -/
def weight : WriterPhase → ℕ
  | .out => 0
  | .waiting => 1
  | .leader => 4
  | .ready => 3
  | .committing _ => 2
  | .completing _ => 1
  | .returned => 0

/-- How many steps are left if no more requests are pushed. -/
def rank (s : GroupCommit) : ℕ :=
  ∑ t ∈ Finset.range s.requests.length, weight (s.phase t)
    + (s.requests.length - s.completed.length)

section Rank

variable {env : Env} {store₀ : KVStore} {s s' : GroupCommit}

/-- A writer that goes on has fewer steps to take. -/
theorem sum_weight_lt (phase : ℕ → WriterPhase) {n t : ℕ} (ht : t < n)
    (hp : weight p < weight (phase t)) :
    ∑ u ∈ Finset.range n, weight (update phase t p u)
      < ∑ u ∈ Finset.range n, weight (phase u) := by
  refine Finset.sum_lt_sum (fun u _ => ?_) ⟨t, Finset.mem_range.mpr ht, ?_⟩
  · by_cases hut : u = t
    · rw [hut, update_self]
      exact le_of_lt hp
    · rw [update_of_ne hut]
  · rwa [update_self]

section

variable (h : Inv env store₀ s)
include h

/-- Whoever is not out has pushed. -/
theorem Inv.lt_of_weight (ht : 0 < weight (s.phase t)) : t < s.requests.length := by
  by_contra hge
  rw [h.linked.out t (by omega)] at ht
  exact absurd ht (lt_irrefl 0)

/-- No more requests are completed than were pushed. -/
theorem Inv.length_completed_le : s.completed.length ≤ s.requests.length := by
  have hsub : s.completed ⊆ List.range s.requests.length := fun u hu =>
    List.mem_range.mpr (lt_of_lt_of_le (h.lt_of_mem_committed (h.completions.sub u hu)) h.linked.le)
  have hle := (List.subperm_of_subset h.completions.nodup hsub).length_le
  rwa [List.length_range] at hle

/-- **Every step but a push brings the writers nearer to the end.** -/
theorem Inv.rank_lt {a : WriterAction} (ha : ¬ a.IsPush) (hs : s.step env a = some s') :
    s'.rank < s.rank := by
  have h' := h.step hs
  have hupdate : ∀ {t : ℕ} {p : WriterPhase}, weight p < weight (s.phase t) →
      ∑ u ∈ Finset.range s.requests.length, weight (update s.phase t p u)
        < ∑ u ∈ Finset.range s.requests.length, weight (s.phase u) := fun hp =>
    sum_weight_lt s.phase (h.lt_of_weight (Nat.zero_lt_of_lt hp)) hp
  cases moves_of_step hs with
  | push r => exact absurd trivial ha
  | flushed ht | swapped ht hstore | drain ht hlock | commit ht | returnLeader ht =>
    exact Nat.add_lt_add_right (hupdate (by simp [ht, weight])) _
  | returnWaiting ht hdone => exact Nat.add_lt_add_right (hupdate (by simp [ht, weight])) _
  | @complete t u todo ht =>
    -- the phase weighs the same, and one more request is completed
    have hsame : ∀ x, weight (update s.phase t (.completing todo) x)
        = weight (s.phase x) := by
      intro x
      by_cases hxt : x = t
      · rw [hxt, update_self, ht]
        rfl
      · rw [update_of_ne hxt]
    have hle : (s.completed ++ [u]).length ≤ s.requests.length := h'.length_completed_le
    rw [List.length_append, List.length_singleton] at hle
    show ∑ x ∈ Finset.range s.requests.length,
        weight (update s.phase t (.completing todo) x)
        + (s.requests.length - (s.completed ++ [u]).length) < s.rank
    rw [Finset.sum_congr rfl (fun x _ => hsame x), List.length_append, List.length_singleton, rank]
    omega

/-- A run without pushes has no more steps than were left. -/
theorem Inv.length_le_rank {actions : List WriterAction} (ha : ∀ a ∈ actions, ¬ a.IsPush)
    (hrun : runSteps (GroupCommit.step env) s actions = some s') : actions.length ≤ s.rank := by
  induction actions generalizing s with
  | nil => exact Nat.zero_le _
  | cons a actions ih =>
    obtain ⟨t, ht, hrun⟩ := runSteps_cons.mp hrun
    have hlt := h.rank_lt (ha a List.mem_cons_self) ht
    have hle := ih (h.step ht) (fun b hb => ha b (List.mem_cons_of_mem a hb)) hrun
    rw [List.length_cons]
    omega

/-- **When no writer can go on, all requests are completed.** -/
theorem Inv.completed_of_stuck (hstuck : ∀ a, ¬ a.IsPush → s.step env a = none) :
    s.drained.flatten = List.range s.requests.length ∧ s.committed = s.drained
      ∧ s.completed.Perm (List.range s.requests.length) := by
  have hlock : s.lock = none := by
    cases hl : s.lock with
    | none => rfl
    | some t =>
      obtain ⟨batch, ht, -⟩ := h.locked.held t hl
      have hs := hstuck (.commit t) id
      simp [GroupCommit.step, ht] at hs
  have hfront : s.front = s.requests.length := by
    by_contra hne
    rcases h.linked.oldest (lt_of_le_of_ne h.linked.le hne) with ht | ht
    · have hs := hstuck (.maybeFlush s.front false) id
      simp [GroupCommit.step, ht] at hs
    · have hs := hstuck (.drain s.front) id
      simp [GroupCommit.step, ht, hlock] at hs
  have hcom := h.locked.free hlock
  have hdr := h.drained
  rw [hfront] at hdr
  refine ⟨hdr, hcom, ?_⟩
  refine (List.perm_ext_iff_of_nodup h.completions.nodup List.nodup_range).mpr (fun u => ?_)
  rw [← hdr, ← hcom]
  refine ⟨h.completions.sub u, fun hu => ?_⟩
  by_contra hnot
  obtain ⟨t, todo, ht, hmem⟩ := h.completions.left u hu hnot
  cases todo with
  | nil => cases hmem
  | cons x todo =>
    have hs := hstuck (.complete t) id
    simp [GroupCommit.step, ht] at hs

end

end Rank

/-! ## Nothing lost, doubled or reordered -/

/-- **What group commit does for its writers**, in any state. -/
structure Orderly (env : Env) (store₀ : KVStore) (s : GroupCommit) : Prop where
  /-- At most one leader has not drained yet. -/
  oneLeader : ∀ t u, (s.phase t).Undrained → (s.phase u).Undrained → t = u
  /-- It is the oldest in the queue. -/
  oldest : ∀ t, (s.phase t).Undrained → s.queue.getLast? = some t
  /-- The batches, one after the other, and the queue are the requests in the order
  of the pushes: each is in one batch and once, or in the queue. -/
  pushOrder : s.drained.flatten ++ s.queue.reverse = List.range s.requests.length
  /-- Batches are committed in the order they are drained. -/
  commitOrder : s.committed <+: s.drained
  /-- No request is completed twice or before it is committed. -/
  completedOnce : s.completed.Nodup ∧ ∀ u ∈ s.completed, u ∈ s.committed.flatten
  /-- The store is what the commits of these batches, and the swaps between them,
  have made of it. -/
  applied : runSteps (KVStore.apply env) store₀ s.events = some s.store
  /-- What is committed is the first of the requests pushed, in their order. -/
  committedOrder : StoreEvent.batches s.events = s.committed.map s.requestsOf
    ∧ (StoreEvent.batches s.events).flatten <+: s.requests
  /-- It is what the history, and with it the WAL and the memtables, have got. -/
  history : s.store.history
    = store₀.history ++ userOps (StoreEvent.batches s.events).flatten
  /-- The writers come to an end. -/
  ends : ∀ actions s', (∀ a ∈ actions, ¬ WriterAction.IsPush a) →
    runSteps (GroupCommit.step env) s actions = some s' → actions.length ≤ s.rank
  /-- Then every request is in one batch and has been completed, once. -/
  allDone : (∀ a, ¬ WriterAction.IsPush a → s.step env a = none) →
    s.drained.flatten = List.range s.requests.length ∧ s.committed = s.drained
      ∧ s.completed.Perm (List.range s.requests.length)

/-- The history after what was done to the store. -/
theorem history_of_events {env : Env} {store store' : KVStore} {events : List StoreEvent}
    (h : runSteps (KVStore.apply env) store events = some store') :
    store'.history = store.history ++ userOps (StoreEvent.batches events).flatten := by
  induction events generalizing store with
  | nil =>
    cases h
    exact (List.append_nil _).symm
  | cons e events ih =>
    obtain ⟨t, ht, hrest⟩ := runSteps_cons.mp h
    rw [ih hrest]
    cases e with
    | swap =>
      obtain ⟨-, rfl⟩ := KVStore.maybeFlush_cases ht
      rfl
    | commit batch =>
      cases ht
      show store.history ++ userOps batch ++ userOps (StoreEvent.batches events).flatten
        = store.history ++ userOps (batch ++ (StoreEvent.batches events).flatten)
      unfold userOps
      rw [List.filter_append, List.map_append, List.append_assoc]

/-- The requests of the first numbers are the first requests. -/
theorem filterMap_range_eq_take (rs : List WriteRequest) (n : ℕ) :
    (List.range n).filterMap (fun u => rs[u]?) = rs.take n := by
  induction n with
  | zero => rfl
  | succ n ih =>
    rw [List.range_succ, List.filterMap_append, ih, List.take_add_one]
    cases hn : rs[n]? <;> simp [hn]

/-- **Group commit loses, duplicates and reorders nothing**, whatever the
interleaving. -/
theorem orderly_of_run (env : Env) (store₀ : KVStore) (actions : List WriterAction)
    {s : GroupCommit}
    (hrun : runSteps (GroupCommit.step env) { store := store₀ } actions = some s) :
    Orderly env store₀ s := by
  have h : Inv env store₀ s := invariant_of_run (fun _ _ _ h hs => h.step hs)
    (Inv.init env store₀) hrun
  refine
    { oneLeader := fun t u ht hu =>
        (h.linked.eq_front ht).1.trans (h.linked.eq_front hu).1.symm
      oldest := fun t ht => ?_
      pushOrder := h.drained_queue
      commitOrder := h.locked.isPrefix
      completedOnce := ⟨h.completions.nodup, h.completions.sub⟩
      applied := h.applied
      committedOrder := ⟨h.commits, ?_⟩
      history := history_of_events h.applied
      ends := fun actions s' ha hr => h.length_le_rank ha hr
      allDone := h.completed_of_stuck }
  · obtain ⟨rfl, hlt⟩ := h.linked.eq_front ht
    rw [← List.head?_reverse, h.queue_eq,
      show s.requests.length - s.front = (s.requests.length - s.front - 1) + 1 by omega,
      List.range'_succ]
    rfl
  · obtain ⟨rest, hrest⟩ := h.locked.isPrefix.flatten
    have hcom : s.committed.flatten = List.range s.committed.flatten.length := by
      have htake := congrArg (List.take s.committed.flatten.length) (hrest.trans h.drained)
      rw [List.take_left] at htake
      have hlen := congrArg List.length (hrest.trans h.drained)
      rw [List.length_append, List.length_range] at hlen
      rw [htake, List.take_range, min_eq_left (by omega), List.length_range]
    have hflat : (s.committed.map s.requestsOf).flatten
        = s.committed.flatten.filterMap (fun u => s.requests[u]?) := by
      rw [List.filterMap_flatten]
      rfl
    rw [h.commits, hflat, hcom, filterMap_range_eq_take]
    exact List.take_prefix _ _

/-- Two writers are in one batch. A third is a leader while the first is still in its
commit, and is completed before the second. -/
def overlapping : List WriterAction :=
  [.push { key := [97] }, .push { key := [98] }, .maybeFlush 0 false, .drain 0,
    .push { key := [99] }, .commit 0, .maybeFlush 2 true, .drain 2, .complete 0, .commit 2,
    .complete 2, .complete 0, .return_ 1]

theorem orderly_of_run_overlapping :
    (finalState (GroupCommit.step Env.small) { store := {} } overlapping).drained = [[0, 1], [2]]
      ∧ (finalState (GroupCommit.step Env.small) { store := {} } overlapping).completed = [0, 2, 1]
      ∧ Orderly Env.small {}
        (finalState (GroupCommit.step Env.small) { store := {} } overlapping) :=
  ⟨by decide +kernel, by decide +kernel,
    orderly_of_run Env.small {} overlapping (runSteps_eq_finalState (by decide +kernel))⟩

end GroupCommit
