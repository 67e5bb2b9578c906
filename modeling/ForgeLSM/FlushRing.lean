import ForgeLSM.Util.Ring
import ForgeLSM.Util.Run

/-!
# The ring of frozen memtables, step by step

`maybe_flush` freezes the active memtable. It loads the index of the ring, tests the slot that
the index falls on, waits on a condition variable while the slot is taken, puts the memtable
there and raises the index, and then enqueues a task for the flush thread, which writes the
memtable to a table and clears the slot. Between any two of these the flush thread may clear a
slot, of this memtable or of an older one.

`get` takes the slots and the index under a lock and goes back from the index. That it comes
by the memtables newest first is written down nowhere: it follows from the order in which slots
are filled and cleared. `FlushRing` has one action for each step of the two threads, and a list
of the memtables frozen so far by which to tell what is newer.

One thread at a time is in `maybe_flush`, the leader of the write queue, and the pool runs its
tasks one by one in the order they came in. The index is a number without bound here.
-/

open Function

/-- Where `maybe_flush` is. -/
inductive FlushCall (M : Type) where
  | idle
  /-- The memtable and the index are loaded. -/
  | loaded (act : M) (idx : ℕ)
  /-- The slot was taken. -/
  | waiting (act : M) (idx : ℕ)
  /-- The slot was free. -/
  | ready (act : M) (idx : ℕ)
  /-- The memtable is in the ring and its task is yet to be enqueued. -/
  | stored (act : M) (slot : Fin 4)

/-- **The ring and its two threads.** -/
structure FlushRing (M : Type) where
  active : M
  immutables : Fin 4 → Option M := fun _ => none
  /-- `current_imm_idx_`, modulo the four slots what the `uint64_t` of the source is. -/
  currentImmIdx : ℕ := 0
  caller : FlushCall M := .idle
  /-- The tasks of the flush thread, oldest first. -/
  queue : List (M × Fin 4) := []
  /-- The task it is at. -/
  running : Option (M × Fin 4) := none
  /-- All memtables frozen so far, oldest first. -/
  frozen : List M := []

/-- A step of `maybe_flush` or of the flush thread. -/
inductive RingAction (M : Type) where
  /-- The active memtable is full: it and the index are loaded. -/
  | load
  | test
  /-- The condition variable wakes the caller, which looks again. -/
  | wake
  /-- The memtable is put in the ring, and a new one is active. -/
  | store (fresh : M)
  | enqueue
  /-- The flush thread takes a task. -/
  | take
  /-- It has written the table, or failed to, and clears the slot. -/
  | clear

namespace FlushRing

variable {M : Type}

/-- The slot is tested: taken or free. -/
def look (s : FlushRing M) (act : M) (idx : ℕ) : FlushRing M :=
  match s.immutables (Ring.slotOf 4 idx) with
  | some _ => { s with caller := .waiting act idx }
  | none => { s with caller := .ready act idx }

/-- **One step**, where it is enabled. -/
def step (s : FlushRing M) : RingAction M → Option (FlushRing M)
  | .load =>
    match s.caller with
    | .idle => some { s with caller := .loaded s.active s.currentImmIdx }
    | _ => none
  | .test =>
    match s.caller with
    | .loaded act idx => some (s.look act idx)
    | _ => none
  | .wake =>
    match s.caller with
    | .waiting act idx => some (s.look act idx)
    | _ => none
  | .store fresh =>
    match s.caller with
    | .ready act idx => some
      { s with
        immutables := update s.immutables (Ring.slotOf 4 idx) (some act)
        currentImmIdx := idx + 1
        active := fresh
        caller := .stored act (Ring.slotOf 4 idx)
        frozen := s.frozen ++ [act] }
    | _ => none
  | .enqueue =>
    match s.caller with
    | .stored act slot => some { s with caller := .idle, queue := s.queue ++ [(act, slot)] }
    | _ => none
  | .take =>
    match s.running, s.queue with
    | none, t :: rest => some { s with running := some t, queue := rest }
    | _, _ => none
  | .clear =>
    match s.running with
    | some t => some
      { s with running := none, immutables := update s.immutables t.2 none }
    | none => none

/-- The memtables in the ring with their slots, oldest first: the one at the flush thread, those
in its queue, and the one that is on its way there. -/
def pending (s : FlushRing M) : List (M × Fin 4) :=
  s.running.toList ++ (s.queue ++ match s.caller with
    | .stored act slot => [(act, slot)]
    | _ => [])

/-- **The ring is in order**: the memtables in it are the last ones frozen, each in the slot of
its index. -/
structure Ordered (slots : Fin 4 → Option M) (idx : ℕ) (frozen : List M)
    (tasks : List (M × Fin 4)) : Prop where
  holds : Ring.Holds slots idx (tasks.map Prod.fst).reverse
  unused : Ring.Unused slots idx
  slots_eq : tasks.map Prod.snd
    = (List.range' (idx - tasks.length) tasks.length).map (Ring.slotOf 4)
  frozen_length : frozen.length = idx
  frozen_eq : tasks.map Prod.fst = frozen.drop (idx - tasks.length)

namespace Ordered

variable {slots : Fin 4 → Option M} {idx : ℕ} {frozen : List M} {tasks : List (M × Fin 4)}

theorem length_le (h : Ordered slots idx frozen tasks) :
    tasks.length ≤ 4 ∧ tasks.length ≤ idx := by
  have hle := h.holds.length_le
  have hle' := h.holds.length_le_idx
  rw [List.length_reverse, List.length_map] at hle hle'
  exact ⟨hle, hle'⟩

/-- **A memtable is frozen.** -/
theorem push (h : Ordered slots idx frozen tasks) (hfree : slots (Ring.slotOf 4 idx) = none)
    (act : M) :
    Ordered (update slots (Ring.slotOf 4 idx) (some act)) (idx + 1) (frozen ++ [act])
      (tasks ++ [(act, Ring.slotOf 4 idx)]) := by
  have hle := h.length_le.2
  have hfirst : idx + 1 - (tasks ++ [(act, Ring.slotOf 4 idx)]).length = idx - tasks.length := by
    rw [List.length_append, List.length_singleton]
    omega
  refine ⟨?_, h.unused.push act, ?_, ?_, ?_⟩
  · rw [List.map_append, List.reverse_append]
    exact h.holds.push hfree act
  · rw [hfirst, List.length_append, List.length_singleton, List.range'_1_concat,
      Nat.sub_add_cancel hle, List.map_append, List.map_append, h.slots_eq]
    rfl
  · rw [List.length_append, h.frozen_length, List.length_singleton]
  · rw [hfirst, List.map_append, h.frozen_eq, List.drop_append_of_le_length]
    · rfl
    · rw [h.frozen_length]
      exact Nat.sub_le _ _

/-- **The slot of the oldest memtable is cleared.** -/
theorem pop {t : M × Fin 4} (h : Ordered slots idx frozen (t :: tasks)) :
    Ordered (update slots t.2 none) idx frozen tasks := by
  have hle := h.length_le.2
  rw [List.length_cons] at hle
  have hslots := h.slots_eq
  rw [List.length_cons, List.range'_succ, List.map_cons, List.map_cons, List.cons.injEq,
    show idx - (tasks.length + 1) + 1 = idx - tasks.length by omega] at hslots
  refine ⟨?_, h.unused.clear t.2, hslots.2, h.frozen_length, ?_⟩
  · have hholds := h.holds
    rw [List.map_cons, List.reverse_cons] at hholds
    have hpop := hholds.pop
    rwa [List.length_reverse, List.length_map, ← hslots.1] at hpop
  · have hfrozen := congrArg List.tail h.frozen_eq
    rwa [List.map_cons, List.tail_cons, List.tail_drop, List.length_cons,
      show idx - (tasks.length + 1) + 1 = idx - tasks.length by omega] at hfrozen

end Ordered

/-- **What holds of the ring** between any two steps. -/
structure Inv (s : FlushRing M) : Prop where
  ordered : Ordered s.immutables s.currentImmIdx s.frozen s.pending
  /-- The index that `maybe_flush` has loaded is still that of the ring. -/
  idx_eq : ∀ act idx, s.caller = .loaded act idx ∨ s.caller = .waiting act idx
    ∨ s.caller = .ready act idx → idx = s.currentImmIdx
  /-- A slot that was found free stays free. -/
  free : ∀ act idx, s.caller = .ready act idx → s.immutables (Ring.slotOf 4 idx) = none

theorem inv_new (active : M) : Inv { active := active } where
  ordered := ⟨Ring.holds_nil, fun _ _ => rfl, rfl, rfl, rfl⟩
  idx_eq := by rintro act idx (h | h | h) <;> cases h
  free := nofun

variable {s s' : FlushRing M}

/-- What a step of either thread can do. -/
theorem step_cases {a : RingAction M} (h : s.step a = some s') :
    (s.caller = .idle ∧ s' = { s with caller := .loaded s.active s.currentImmIdx })
      ∨ (∃ act idx, (s.caller = .loaded act idx ∨ s.caller = .waiting act idx)
        ∧ s' = s.look act idx)
      ∨ (∃ act idx fresh, s.caller = .ready act idx ∧ s' =
        { s with
          immutables := update s.immutables (Ring.slotOf 4 idx) (some act)
          currentImmIdx := idx + 1
          active := fresh
          caller := .stored act (Ring.slotOf 4 idx)
          frozen := s.frozen ++ [act] })
      ∨ (∃ act slot, s.caller = .stored act slot
        ∧ s' = { s with caller := .idle, queue := s.queue ++ [(act, slot)] })
      ∨ (∃ t rest, s.running = none ∧ s.queue = t :: rest
        ∧ s' = { s with running := some t, queue := rest })
      ∨ ∃ t, s.running = some t ∧ s' =
        { s with running := none, immutables := update s.immutables t.2 none } := by
  cases a with
  | load =>
    cases hc : s.caller with
    | idle => exact Or.inl ⟨rfl, by simpa [step, hc] using h.symm⟩
    | _ => simp [step, hc] at h
  | test =>
    cases hc : s.caller with
    | loaded act idx =>
      exact Or.inr (Or.inl ⟨act, idx, Or.inl rfl, by simpa [step, hc] using h.symm⟩)
    | _ => simp [step, hc] at h
  | wake =>
    cases hc : s.caller with
    | waiting act idx =>
      exact Or.inr (Or.inl ⟨act, idx, Or.inr rfl, by simpa [step, hc] using h.symm⟩)
    | _ => simp [step, hc] at h
  | store fresh =>
    cases hc : s.caller with
    | ready act idx =>
      exact Or.inr (Or.inr (Or.inl ⟨act, idx, fresh, rfl, by simpa [step, hc] using h.symm⟩))
    | _ => simp [step, hc] at h
  | enqueue =>
    cases hc : s.caller with
    | stored act slot =>
      exact Or.inr (Or.inr (Or.inr (Or.inl ⟨act, slot, rfl, by simpa [step, hc] using h.symm⟩)))
    | _ => simp [step, hc] at h
  | take =>
    cases hr : s.running with
    | some t => simp [step, hr] at h
    | none =>
      cases hq : s.queue with
      | nil => simp [step, hr, hq] at h
      | cons t rest =>
        exact Or.inr (Or.inr (Or.inr (Or.inr (Or.inl
          ⟨t, rest, rfl, rfl, by simpa [step, hr, hq] using h.symm⟩))))
  | clear =>
    cases hr : s.running with
    | none => simp [step, hr] at h
    | some t =>
      exact Or.inr (Or.inr (Or.inr (Or.inr (Or.inr ⟨t, rfl, by simpa [step, hr] using h.symm⟩))))

/-- **Every step keeps the ring in order.** -/
theorem Inv.step (h : Inv s) {a : RingAction M} (hs : s.step a = some s') : Inv s' := by
  rcases step_cases hs with ⟨hc, rfl⟩ | ⟨act, idx, hc, rfl⟩ | ⟨act, idx, fresh, hc, rfl⟩
    | ⟨act, slot, hc, rfl⟩ | ⟨t, rest, hr, hq, rfl⟩ | ⟨t, hr, rfl⟩
  -- the index is loaded
  · refine ⟨?_, ?_, fun act idx hc' => ?_⟩
    · simpa [pending, hc] using h.ordered
    · rintro act idx (hc' | hc' | hc') <;> cases hc'
      rfl
    · cases hc'
  -- the slot is tested
  · obtain rfl : idx = s.currentImmIdx := h.idx_eq act idx (by tauto)
    have hordered := h.ordered
    rw [show s.pending = s.running.toList ++ (s.queue ++ []) by
      rcases hc with hc | hc <;> rw [pending, hc]] at hordered
    unfold look
    cases hslot : s.immutables (Ring.slotOf 4 s.currentImmIdx) with
    | some m =>
      refine ⟨hordered, ?_, fun act' idx hc' => ?_⟩
      · rintro act' idx (hc' | hc' | hc') <;> cases hc'
        rfl
      · cases hc'
    | none =>
      refine ⟨hordered, ?_, ?_⟩
      · rintro act' idx (hc' | hc' | hc') <;> cases hc'
        rfl
      · rintro act' idx hc'
        cases hc'
        exact hslot
  -- the memtable is put in its slot
  · obtain rfl : idx = s.currentImmIdx := h.idx_eq act idx (by tauto)
    refine ⟨?_, ?_, fun act' idx hc' => ?_⟩
    · have hpush := h.ordered.push (h.free act _ hc) act
      simpa [pending, hc] using hpush
    · rintro act' idx (hc' | hc' | hc') <;> cases hc'
    · cases hc'
  -- its task is enqueued
  · refine ⟨?_, ?_, fun act' idx hc' => ?_⟩
    · simpa [pending, hc] using h.ordered
    · rintro act' idx (hc' | hc' | hc') <;> cases hc'
    · cases hc'
  -- a task is taken
  · refine ⟨?_, h.idx_eq, h.free⟩
    simpa [pending, hr, hq] using h.ordered
  -- its slot is cleared
  · refine ⟨?_, h.idx_eq, fun act idx hc => ?_⟩
    · have hordered := h.ordered
      rw [show s.pending = t :: ({ s with running := none } : FlushRing M).pending by
        simp [pending, hr]] at hordered
      exact hordered.pop
    · dsimp only
      by_cases hslot : Ring.slotOf 4 idx = t.2
      · rw [hslot, update_self]
      · rw [update_of_ne hslot]
        exact h.free act idx hc

/-- **The ring in every state of every run.** The slots in use are those of an interval of at
most four indices that ends below the current one, and each has the memtable that was frozen
with its index. A memtable goes only to a free slot. A lookup goes by each slot at most once
and by every slot in use, and finds the memtables newest first. -/
theorem run_ordered (active : M) {actions : List (RingAction M)}
    (hrun : runSteps step { active := active } actions = some s) :
    ∃ first, first ≤ s.currentImmIdx ∧ s.currentImmIdx ≤ first + 4
      ∧ s.frozen.length = s.currentImmIdx
      ∧ (∀ j, (s.immutables j).isSome
        ↔ ∃ x, first ≤ x ∧ x < s.currentImmIdx ∧ Ring.slotOf 4 x = j)
      ∧ (∀ x, first ≤ x → x < s.currentImmIdx → s.immutables (Ring.slotOf 4 x) = s.frozen[x]?)
      ∧ (∀ fresh s', s.step (.store fresh) = some s' →
        s.immutables (Ring.slotOf 4 s.currentImmIdx) = none
          ∧ ∀ j m, s.immutables j = some m → s'.immutables j = some m)
      ∧ (Ring.visits 4 s.currentImmIdx).Nodup
      ∧ (∀ j, (s.immutables j).isSome → j ∈ Ring.visits 4 s.currentImmIdx)
      ∧ (Ring.visits 4 s.currentImmIdx).filterMap s.immutables = (s.frozen.drop first).reverse := by
  have h : Inv s := invariant_of_run (fun _ _ _ hu hs => Inv.step hu hs) (inv_new active) hrun
  obtain ⟨hle, hle'⟩ := h.ordered.length_le
  have hlen : ((s.pending.map Prod.fst).reverse).length = s.pending.length := by simp
  have hsome := h.ordered.holds.isSome_iff h.ordered.unused
  rw [hlen] at hsome
  refine ⟨s.currentImmIdx - s.pending.length, Nat.sub_le _ _, by omega, h.ordered.frozen_length,
    hsome, fun x hlo hhi => ?_, fun fresh s' hs => ?_, Ring.nodup_visits 4 _, fun j hj => ?_, ?_⟩
  · have hslot := h.ordered.holds.slot_eq (by rw [hlen]; exact hlo) hhi
    have hcount : (s.pending.map Prod.fst).length = s.pending.length := List.length_map _
    rw [hslot, List.getElem?_reverse (by omega), hcount, h.ordered.frozen_eq, List.getElem?_drop]
    congr 1
    omega
  · obtain ⟨act, idx, hc, himm⟩ : ∃ act idx, s.caller = .ready act idx
        ∧ s'.immutables = update s.immutables (Ring.slotOf 4 idx) (some act) := by
      cases hc : s.caller with
      | ready act idx =>
        refine ⟨act, idx, rfl, ?_⟩
        simp only [step, hc, Option.some.injEq] at hs
        rw [← hs]
      | _ => simp [step, hc] at hs
    obtain rfl : idx = s.currentImmIdx := h.idx_eq act idx (by tauto)
    have hfree := h.free act _ hc
    refine ⟨hfree, fun j m hj => ?_⟩
    have hne : j ≠ Ring.slotOf 4 s.currentImmIdx := by
      rintro rfl
      rw [hfree] at hj
      cases hj
    rw [himm, update_of_ne hne, hj]
  · obtain ⟨x, hlo, hhi, rfl⟩ := (hsome j).mp hj
    refine Ring.mem_visits_iff.mpr ⟨s.currentImmIdx - 1 - x, by omega, by omega, ?_⟩
    congr 1
    omega
  · rw [Ring.filterMap_visits, h.ordered.holds.scan_eq, h.ordered.frozen_eq]

/-- Five memtables are frozen, the fifth once the slot of the first is clear. -/
def fiveFrozen : List (RingAction ℕ) :=
  [.load, .test, .store 1, .enqueue, .load, .test, .take, .store 2, .enqueue, .load, .test,
    .store 3, .enqueue, .load, .test, .store 4, .enqueue, .load, .test, .wake, .clear, .wake,
    .store 5]

theorem run_ordered_fiveFrozen :
    ∃ s, runSteps step { active := 0 } fiveFrozen = some s ∧ s.currentImmIdx = 5
      ∧ (Ring.visits 4 5).filterMap s.immutables = [4, 3, 2, 1]
      ∧ ∃ first, 5 ≤ first + 4 ∧ (s.frozen.drop first).reverse = [4, 3, 2, 1] := by
  obtain ⟨s, hs, hidx, hfound⟩ : ∃ s, runSteps step { active := 0 } fiveFrozen = some s
      ∧ s.currentImmIdx = 5 ∧ (Ring.visits 4 5).filterMap s.immutables = [4, 3, 2, 1] :=
    ⟨_, rfl, rfl, by decide⟩
  obtain ⟨first, -, hle, -, -, -, -, -, -, hnewest⟩ := run_ordered 0 hs
  rw [hidx] at hle hnewest
  exact ⟨s, hs, hidx, hfound, first, hle, hnewest.symm.trans hfound⟩

end FlushRing
