import ForgeLSM.Util.Run

/-!
# A commit that overlaps a hand-off

A leader drains the write queue under the commit lock, and from then on the
next leader can be elected. That one first hands off the memtable if it is
full – outside the commit lock – so the steps of the hand-off fall between any
two steps of the commit before it. `HandOff` is the machine of the two, with
the flush of the memtables handed off: memtables and WAL segments are numbered,
and what a memtable, a segment or an iteration holds is the list of writes in
it.

A write is *safe* (`Safe`) when it is in the active memtable with its record in
the current segment, or in a memtable whose iteration, if it has started, took
it in. The code does not keep the writes it acknowledges safe: a memtable can
be iterated while a leader that got hold of it before it was swapped still has
writes to put (`acked_lateLeader`). They are safe in the runs whose steps keep
apart what the code lets overlap (`Apart`).
-/

open Function

/-- How far the hand-off of a memtable is, in the thread of the leader that
has not drained the queue yet. -/
inductive FlusherPhase where
  | out
  /-- The memtable is in the ring and a new one active. -/
  | swapped (m : ℕ)
  /-- The new segment is open. -/
  | rotated (m : ℕ)
  deriving DecidableEq

/-- How far the commit of a batch is, in the thread that holds the commit
lock. -/
inductive CommitterPhase (W : Type) where
  | free
  | drained (batch : List W)
  | appended (batch : List W)
  /-- It has got hold of a memtable and has some writes still to put. -/
  | putting (batch : List W) (m : ℕ) (todo : List W)
  deriving DecidableEq

/-- **The state of a store between its leaders.** -/
structure HandOff (W : Type) where
  active : ℕ := 0
  /-- The writes put in each memtable. -/
  puts : ℕ → List W := fun _ => []
  /-- The current WAL segment. -/
  current : ℕ := 1
  records : ℕ → List W := fun _ => []
  flusher : FlusherPhase := .out
  committer : CommitterPhase W := .free
  /-- The memtables in the ring, the oldest first. -/
  ring : List ℕ := []
  /-- The tasks of the flush pool, the head being run. -/
  queue : List ℕ := []
  /-- What the iteration of a memtable took in. -/
  iterated : ℕ → Option (List W) := fun _ => none
  /-- The memtables whose tables are logged. -/
  logged : List ℕ := []
  /-- The batches committed and not acknowledged yet. -/
  completing : List (List W) := []
  acked : List W := []

/-- What can happen. -/
inductive HandOffAction (W : Type) where
  | drain (batch : List W)
  | append
  | readActive
  | put
  | unlock
  /-- One of the leaders that are through completes its batch. -/
  | complete (i : ℕ)
  | swap
  | rotate
  | enqueue
  | iterate
  | log
  | clear
  deriving DecidableEq

variable {W : Type}

namespace HandOff

/-! ## The committer -/

section

variable (s : HandOff W)

/-- The leader is past `maybe_flush` and has the lock. -/
def drain (batch : List W) : Option (HandOff W) :=
  match s.committer, s.flusher with
  | .free, .out => some { s with committer := .drained batch }
  | _, _ => none

/-- The batch goes to the current segment. -/
def append : Option (HandOff W) :=
  match s.committer with
  | .drained batch => some
      { s with
        records := update s.records s.current (s.records s.current ++ batch)
        committer := .appended batch }
  | _ => none

def readActive : Option (HandOff W) :=
  match s.committer with
  | .appended batch => some { s with committer := .putting batch s.active batch }
  | _ => none

def put : Option (HandOff W) :=
  match s.committer with
  | .putting batch m (w :: todo) => some
      { s with
        puts := update s.puts m (s.puts m ++ [w])
        committer := .putting batch m todo }
  | _ => none

def unlock : Option (HandOff W) :=
  match s.committer with
  | .putting batch _ [] => some
      { s with committer := .free, completing := s.completing ++ [batch] }
  | _ => none

def complete (i : ℕ) : Option (HandOff W) :=
  (s.completing[i]?).map (fun batch =>
    { s with completing := s.completing.eraseIdx i, acked := s.acked ++ batch })

/-! ## The hand-off -/

/-- The active memtable goes to a free slot of the ring. -/
def swap : Option (HandOff W) :=
  match s.flusher with
  | .out =>
    if s.ring.length < 4 then some
      { s with
        ring := s.ring ++ [s.active]
        active := s.active + 1
        flusher := .swapped s.active }
    else none
  | _ => none

/-- `rotate_wal`. -/
def rotate : Option (HandOff W) :=
  match s.flusher with
  | .swapped m => some { s with current := s.current + 1, flusher := .rotated m }
  | _ => none

def enqueue : Option (HandOff W) :=
  match s.flusher with
  | .rotated m => some { s with queue := s.queue ++ [m], flusher := .out }
  | _ => none

/-! ## The flush -/

/-- `flush_immutable` reads the memtable. -/
def iterate : Option (HandOff W) :=
  match s.queue with
  | m :: _ =>
    if s.iterated m = none then some
      { s with iterated := update s.iterated m (some (s.puts m)) }
    else none
  | [] => none

/-- The table it wrote is logged. -/
def log : Option (HandOff W) :=
  match s.queue with
  | m :: _ =>
    if s.iterated m ≠ none ∧ m ∉ s.logged then some { s with logged := s.logged ++ [m] } else none
  | [] => none

/-- The slot is cleared. -/
def clear : Option (HandOff W) :=
  match s.queue with
  | m :: rest =>
    if m ∈ s.logged then some { s with queue := rest, ring := s.ring.erase m } else none
  | [] => none

end

/-- **One step.** -/
def step (s : HandOff W) : HandOffAction W → Option (HandOff W)
  | .drain batch => s.drain batch
  | .append => s.append
  | .readActive => s.readActive
  | .put => s.put
  | .unlock => s.unlock
  | .complete i => s.complete i
  | .swap => s.swap
  | .rotate => s.rotate
  | .enqueue => s.enqueue
  | .iterate => s.iterate
  | .log => s.log
  | .clear => s.clear

/-! ## Safety -/

section

variable (s : HandOff W)

/-- The committer has appended to the WAL and not yet got hold of a
memtable. -/
def isAppended : Bool :=
  match s.committer with
  | .appended _ => true
  | _ => false

/-- The hand-off is between the swap and the rotation. -/
def isSwapped : Bool :=
  match s.flusher with
  | .swapped _ => true
  | _ => false

/-- The memtable that is in the ring and not yet queued. -/
def handing : List ℕ :=
  match s.flusher with
  | .out => []
  | .swapped m | .rotated m => [m]

/-- The memtable the committer has still writes to put in. -/
def owes : Option ℕ :=
  match s.committer with
  | .putting _ m (_ :: _) => some m
  | _ => none

/-- **A write is safe**: it is in the active memtable and its record in the
current segment, or in a memtable of the ring that is yet to be iterated, or
in what an iteration took in. -/
def Safe (w : W) : Prop :=
  (w ∈ s.puts s.active ∧ w ∈ s.records s.current)
    ∨ (∃ m ∈ s.ring, s.iterated m = none ∧ w ∈ s.puts m)
    ∨ ∃ m es, s.iterated m = some es ∧ w ∈ es

/-- **A read finds the write**: in the active memtable, in one of the ring, or
in a table. -/
def Visible (w : W) : Prop :=
  w ∈ s.puts s.active ∨ (∃ m ∈ s.ring, w ∈ s.puts m)
    ∨ ∃ m ∈ s.logged, ∃ es, s.iterated m = some es ∧ w ∈ es

/-- A memtable in which a write of a batch will be safe once it is put. -/
def Home (m : ℕ) (w : W) : Prop :=
  m = s.active ∧ w ∈ s.records s.current ∨ m ∈ s.ring ∧ s.iterated m = none

/-- What the batch under way needs, phase by phase. -/
def CommitterOk : Prop :=
  match s.committer with
  | .free | .drained _ => True
  | .appended batch => ∀ w ∈ batch, w ∈ s.records s.current
  | .putting batch m todo => (∀ w ∈ batch, w ∈ todo ∨ s.Safe w) ∧ ∀ w ∈ todo, s.Home m w

end

/-- **What holds in every state of a run that keeps things apart.** -/
structure Inv (s : HandOff W) : Prop where
  ring_lt : ∀ m ∈ s.ring, m < s.active
  /-- The ring holds the memtables queued, and the one being handed off. -/
  ring_eq : s.ring = s.queue ++ s.handing
  unused : ∀ m, s.active < m → s.puts m = []
  iterated_lt : ∀ m es, s.iterated m = some es → m < s.active
  /-- What an iteration took in is in the ring until it is logged. -/
  iterated_sub : ∀ m es, s.iterated m = some es → m ∈ s.logged ∨ m ∈ s.ring ∧ es ⊆ s.puts m
  logged_iterated : ∀ m ∈ s.logged, s.iterated m ≠ none
  /-- Between a swap and its rotation the new memtable is out of reach. -/
  flusher : s.isSwapped = true →
    s.puts s.active = [] ∧ s.isAppended = false ∧ s.owes ≠ some s.active
  committer : s.CommitterOk
  completing : ∀ batch ∈ s.completing, ∀ w ∈ batch, s.Safe w
  acked : ∀ w ∈ s.acked, s.Safe w

theorem inv_fresh : Inv ({} : HandOff W) where
  ring_lt m hm := by cases hm
  ring_eq := rfl
  unused m _ := rfl
  iterated_lt m es hm := by cases hm
  iterated_sub m es hm := by cases hm
  logged_iterated m hm := by cases hm
  flusher h := by cases h
  committer := trivial
  completing batch hb := by cases hb
  acked w hw := by cases hw

variable {s s' : HandOff W} {w : W}

/-- **What is safe is visible.** -/
theorem Inv.visible (h : Inv s) (hw : s.Safe w) : s.Visible w := by
  rcases hw with ⟨hput, -⟩ | ⟨m, hm, -, hput⟩ | ⟨m, es, hes, hmem⟩
  · exact Or.inl hput
  · exact Or.inr (Or.inl ⟨m, hm, hput⟩)
  · rcases h.iterated_sub m es hes with hlog | ⟨hring, hsub⟩
    · exact Or.inr (Or.inr ⟨m, hlog, es, hes, hmem⟩)
    · exact Or.inr (Or.inl ⟨m, hring, hsub hmem⟩)

/-! ## What keeps a write safe -/

/-- Memtables and segments that only grow. -/
theorem Safe.grow (h : s.Safe w) (ha : s'.active = s.active) (hc : s'.current = s.current)
    (hr : s'.ring = s.ring) (hi : s'.iterated = s.iterated) (hp : ∀ m, s.puts m ⊆ s'.puts m)
    (hw : ∀ i, s.records i ⊆ s'.records i) : s'.Safe w := by
  unfold Safe
  rw [ha, hc, hr, hi]
  rcases h with ⟨hput, hrec⟩ | ⟨m, hm, hnone, hput⟩ | h
  · exact Or.inl ⟨hp _ hput, hw _ hrec⟩
  · exact Or.inr (Or.inl ⟨m, hm, hnone, hp m hput⟩)
  · exact Or.inr (Or.inr h)

/-- The active memtable of a store is not iterated. -/
theorem Inv.iterated_active (h : Inv s) : s.iterated s.active = none := by
  cases hes : s.iterated s.active with
  | none => rfl
  | some es => exact absurd (h.iterated_lt _ es hes) (lt_irrefl _)

/-- A swap puts the active memtable in the ring, yet to be iterated. -/
theorem Safe.swap (h : Inv s) (hw : s.Safe w) (hr : s'.ring = s.ring ++ [s.active])
    (hi : s'.iterated = s.iterated) (hp : s'.puts = s.puts) : s'.Safe w := by
  unfold Safe
  rw [hr, hi, hp]
  rcases hw with ⟨hput, -⟩ | ⟨m, hm, hnone, hput⟩ | hes
  · exact Or.inr (Or.inl ⟨s.active, List.mem_append_right _ (List.mem_singleton.mpr rfl),
      h.iterated_active, hput⟩)
  · exact Or.inr (Or.inl ⟨m, List.mem_append_left _ hm, hnone, hput⟩)
  · exact Or.inr (Or.inr hes)

/-- An iteration takes in what was put. -/
theorem Safe.iterate (hw : s.Safe w) {m : ℕ} (ha : s'.active = s.active)
    (hc : s'.current = s.current) (hr : s'.ring = s.ring) (hp : s'.puts = s.puts)
    (hrec : s'.records = s.records) (hnone : s.iterated m = none)
    (hi : s'.iterated = update s.iterated m (some (s.puts m))) : s'.Safe w := by
  unfold Safe
  rw [ha, hc, hr, hp, hrec, hi]
  rcases hw with hact | ⟨m', hm', hnone', hput⟩ | ⟨m', es, hes, hmem⟩
  · exact Or.inl hact
  · by_cases heq : m' = m
    · subst heq
      exact Or.inr (Or.inr ⟨m', _, update_self _ _ _, hput⟩)
    · exact Or.inr (Or.inl ⟨m', hm', by rwa [update_of_ne heq], hput⟩)
  · have hne : m' ≠ m := by
      rintro rfl
      rw [hnone] at hes
      cases hes
    exact Or.inr (Or.inr ⟨m', es, by rwa [update_of_ne hne], hmem⟩)

/-- A slot is cleared once its memtable has been iterated. -/
theorem Safe.clear (hw : s.Safe w) {m : ℕ} (ha : s'.active = s.active) (hc : s'.current = s.current)
    (hp : s'.puts = s.puts) (hrec : s'.records = s.records) (hi : s'.iterated = s.iterated)
    (hm : s.iterated m ≠ none) (hr : s'.ring = s.ring.erase m) : s'.Safe w := by
  unfold Safe
  rw [ha, hc, hr, hp, hrec, hi]
  refine hw.imp_right (Or.imp_left ?_)
  rintro ⟨m', hm', hnone, hput⟩
  refine ⟨m', (List.mem_erase_of_ne ?_).mpr hm', hnone, hput⟩
  rintro rfl
  exact hm hnone

/-- The committer goes on as before where the memtable it has writes for stays their
home, and what it has appended is in the current segment still. -/
theorem CommitterOk.keep (h : s.CommitterOk) (hc : s'.committer = s.committer)
    (hsafe : ∀ w, s.Safe w → s'.Safe w)
    (happ : s.isAppended = true → s'.records s'.current = s.records s.current)
    (hhome : ∀ m w, s.owes = some m → s.Home m w → s'.Home m w) : s'.CommitterOk := by
  unfold CommitterOk at h ⊢
  unfold isAppended at happ
  unfold owes at hhome
  rw [hc]
  cases hcom : s.committer with
  | free | drained => trivial
  | appended batch =>
    rw [hcom] at h happ
    rw [happ rfl]
    exact h
  | putting batch m todo =>
    rw [hcom] at h hhome
    refine ⟨fun w hw => (h.1 w hw).imp_right (hsafe w), fun w hw => ?_⟩
    cases todo with
    | nil => cases hw
    | cons v todo => exact hhome m w rfl (h.2 w hw)

/-! ## The condition -/

/-- **The condition on a step**: no batch is appended to the WAL between a swap
and its rotation, no memtable is swapped between the append of a batch and the
moment its leader gets hold of the active memtable, and none is iterated while
a leader has writes to put in it. -/
def Apart (s : HandOff W) : HandOffAction W → Prop
  | .append => s.isSwapped = false
  | .swap => s.isAppended = false
  | .iterate => ∀ m ∈ s.queue.head?, s.owes ≠ some m
  | _ => True

instance (s : HandOff W) (a : HandOffAction W) : Decidable (Apart s a) := by
  cases a <;> unfold Apart <;> infer_instance

/-! ## The steps of the committer -/

namespace Inv

section

variable (h : Inv s)
include h

/-- The memtable with writes to come is not newer than the active one. -/
theorem owes_le {m : ℕ} (hm : s.owes = some m) : m ≤ s.active := by
  have hcom := h.committer
  unfold owes at hm
  unfold CommitterOk at hcom
  split at hm
  · rename_i batch m' w todo hc
    obtain rfl := Option.some.inj hm
    rw [hc] at hcom
    rcases hcom.2 w List.mem_cons_self with ⟨rfl, -⟩ | ⟨hring, -⟩
    · exact le_refl _
    · exact le_of_lt (h.ring_lt m' hring)
  · cases hm

theorem drain {batch : List W} (hs : s.drain batch = some s') : Inv s' := by
  unfold HandOff.drain at hs
  split at hs
  · rename_i hc hf
    cases hs
    refine { h with flusher := fun hsw => ?_, committer := trivial }
    have hsw' : s.isSwapped = true := hsw
    rw [isSwapped, hf] at hsw'
    cases hsw'
  · cases hs

theorem append (hok : s.isSwapped = false) (hs : s.append = some s') : Inv s' := by
  unfold HandOff.append at hs
  split at hs
  · rename_i batch hc
    cases hs
    have hsub : ∀ i, s.records i
        ⊆ update s.records s.current (s.records s.current ++ batch) i := by
      intro i r hr
      by_cases hi : i = s.current
      · subst hi
        rw [update_self]
        exact List.mem_append_left _ hr
      · rwa [update_of_ne hi]
    have hsafe : ∀ w, s.Safe w → Safe { s with
        records := update s.records s.current (s.records s.current ++ batch)
        committer := .appended batch } w := fun w hw =>
      hw.grow rfl rfl rfl rfl (fun _ _ hr => hr) hsub
    refine
      { h with
        flusher := fun hsw => absurd (hok.symm.trans hsw) Bool.false_ne_true
        committer := fun w hw => ?_
        completing := fun b hb w hw => hsafe w (h.completing b hb w hw)
        acked := fun w hw => hsafe w (h.acked w hw) }
    show w ∈ update s.records s.current _ s.current
    rw [update_self]
    exact List.mem_append_right _ hw
  · cases hs

theorem readActive (hs : s.readActive = some s') : Inv s' := by
  unfold HandOff.readActive at hs
  split at hs
  · rename_i batch hc
    cases hs
    have hrec := h.committer
    unfold CommitterOk at hrec
    rw [hc] at hrec
    refine
      { h with
        flusher := fun hsw => ?_
        committer := ⟨fun w hw => Or.inl hw, fun w hw => Or.inl ⟨rfl, hrec w hw⟩⟩ }
    -- no batch is appended between a swap and its rotation
    have happ := (h.flusher hsw).2.1
    rw [isAppended, hc] at happ
    cases happ
  · cases hs

theorem put (hs : s.put = some s') : Inv s' := by
  unfold HandOff.put at hs
  split at hs
  · rename_i batch m w todo hc
    cases hs
    have hcom := h.committer
    unfold CommitterOk at hcom
    rw [hc] at hcom
    obtain ⟨hbatch, hhome⟩ := hcom
    have howes : s.owes = some m := by rw [owes, hc]
    have hsub : ∀ i, s.puts i ⊆ update s.puts m (s.puts m ++ [w]) i := by
      intro i r hr
      by_cases hi : i = m
      · subst hi
        rw [update_self]
        exact List.mem_append_left _ hr
      · rwa [update_of_ne hi]
    have hmem : w ∈ update s.puts m (s.puts m ++ [w]) m := by
      rw [update_self]
      exact List.mem_append_right _ (List.mem_singleton.mpr rfl)
    have hsafe : ∀ v, s.Safe v → Safe { s with
        puts := update s.puts m (s.puts m ++ [w])
        committer := .putting batch m todo } v := fun v hv =>
      hv.grow rfl rfl rfl rfl hsub (fun _ _ hr => hr)
    -- the write put is safe, as its memtable is its home
    have hput : Safe { s with
        puts := update s.puts m (s.puts m ++ [w])
        committer := .putting batch m todo } w := by
      rcases hhome w List.mem_cons_self with ⟨rfl, hrec⟩ | ⟨hring, hnone⟩
      · exact Or.inl ⟨hmem, hrec⟩
      · exact Or.inr (Or.inl ⟨m, hring, hnone, hmem⟩)
    have hle : m ≤ s.active := h.owes_le howes
    refine
      { h with
        unused := fun i hi => ?_
        iterated_sub := fun i es hes => ?_
        flusher := fun hsw => ?_
        committer := ⟨fun v hv => ?_, fun v hv => hhome v (List.mem_cons_of_mem w hv)⟩
        completing := fun b hb v hv => hsafe v (h.completing b hb v hv)
        acked := fun v hv => hsafe v (h.acked v hv) }
    · show update s.puts m _ i = []
      have hi' : s.active < i := hi
      rw [update_of_ne (by omega)]
      exact h.unused i hi
    · exact (h.iterated_sub i es hes).imp_right (fun hr => ⟨hr.1, fun v hv => hsub i (hr.2 hv)⟩)
    · obtain ⟨hnil, -, hne⟩ := h.flusher hsw
      have hm : s.active ≠ m := fun heq => hne (by rw [howes, heq])
      refine ⟨(update_of_ne hm _ _).trans hnil, rfl, fun heq => ?_⟩
      unfold owes at heq
      split at heq
      · rename_i hput
        cases hput
        exact hm (Option.some.inj heq).symm
      · cases heq
    · rcases hbatch v hv with hv | hv
      · rcases List.mem_cons.mp hv with rfl | hv
        · exact Or.inr hput
        · exact Or.inl hv
      · exact Or.inr (hsafe v hv)
  · cases hs

theorem unlock (hs : s.unlock = some s') : Inv s' := by
  unfold HandOff.unlock at hs
  split at hs
  · rename_i batch m hc
    cases hs
    have hcom := h.committer
    unfold CommitterOk at hcom
    rw [hc] at hcom
    refine
      { h with
        flusher := fun hsw => ⟨(h.flusher hsw).1, rfl, by simp [owes]⟩
        committer := trivial
        completing := fun b hb w hw => ?_ }
    rcases List.mem_append.mp hb with hb | hb
    · exact h.completing b hb w hw
    · rw [List.mem_singleton.mp hb] at hw
      exact (hcom.1 w hw).resolve_left List.not_mem_nil
  · cases hs

theorem complete {i : ℕ} (hs : s.complete i = some s') : Inv s' := by
  obtain ⟨batch, hb, rfl⟩ := Option.map_eq_some_iff.mp hs
  refine
    { h with
      completing := fun b hb' => h.completing b (List.mem_of_mem_eraseIdx hb')
      acked := fun w hw => ?_ }
  rcases List.mem_append.mp hw with hw | hw
  · exact h.acked w hw
  · exact h.completing batch (List.mem_of_getElem? hb) w hw

/-! ## The steps of the hand-off -/

theorem swap (hok : s.isAppended = false) (hs : s.swap = some s') : Inv s' := by
  unfold HandOff.swap at hs
  split at hs
  · rename_i hf
    split_ifs at hs with hlen
    cases hs
    have hsafe : ∀ w, s.Safe w → Safe { s with
        ring := s.ring ++ [s.active]
        active := s.active + 1
        flusher := .swapped s.active } w := fun w hw => hw.swap h rfl rfl rfl
    refine
      { ring_lt := fun m hm => ?_
        ring_eq := ?_
        unused := fun m hm => h.unused m (Nat.lt_of_succ_lt hm)
        iterated_lt := fun m es hes => Nat.lt_succ_of_lt (h.iterated_lt m es hes)
        iterated_sub := fun m es hes => (h.iterated_sub m es hes).imp_right
          (fun hr => ⟨List.mem_append_left _ hr.1, hr.2⟩)
        logged_iterated := h.logged_iterated
        flusher := fun _ => ⟨h.unused _ (Nat.lt_succ_self _), hok, fun howes => ?_⟩
        committer := h.committer.keep rfl hsafe
          (fun happ => absurd (hok.symm.trans happ) Bool.false_ne_true) (fun m v _ hhome => ?_)
        completing := fun b hb w hw => hsafe w (h.completing b hb w hw)
        acked := fun w hw => hsafe w (h.acked w hw) }
    · rcases List.mem_append.mp hm with hm | hm
      · exact Nat.lt_succ_of_lt (h.ring_lt m hm)
      · rw [List.mem_singleton.mp hm]
        exact Nat.lt_succ_self _
    · rw [h.ring_eq, handing, hf, List.append_nil]
      rfl
    · -- the committer holds an older memtable
      exact absurd (h.owes_le howes) (Nat.not_succ_le_self _)
    · rcases hhome with ⟨rfl, -⟩ | ⟨hring, hnone⟩
      · exact Or.inr
          ⟨List.mem_append_right _ (List.mem_singleton.mpr rfl), h.iterated_active⟩
      · exact Or.inr ⟨List.mem_append_left _ hring, hnone⟩
  · cases hs

theorem rotate (hs : s.rotate = some s') : Inv s' := by
  unfold HandOff.rotate at hs
  split at hs
  · rename_i m hf
    cases hs
    obtain ⟨hnil, happ, howes⟩ := h.flusher (by rw [isSwapped, hf])
    -- nothing is in the active memtable yet, so no record is looked for in the new segment
    have hsafe : ∀ w, s.Safe w → Safe { s with
        current := s.current + 1
        flusher := .rotated m } w := by
      rintro w (⟨hput, -⟩ | hw)
      · rw [hnil] at hput
        cases hput
      · exact Or.inr hw
    refine
      { h with
        ring_eq := by rw [h.ring_eq, handing, hf]; rfl
        flusher := fun hsw => by cases hsw
        committer := h.committer.keep rfl hsafe
          (fun hyes => absurd (happ.symm.trans hyes) Bool.false_ne_true) (fun m' v hm' hhome => ?_)
        completing := fun b hb w hw => hsafe w (h.completing b hb w hw)
        acked := fun w hw => hsafe w (h.acked w hw) }
    rcases hhome with ⟨rfl, -⟩ | hring
    · exact absurd hm' howes
    · exact Or.inr hring
  · cases hs

theorem enqueue (hs : s.enqueue = some s') : Inv s' := by
  unfold HandOff.enqueue at hs
  split at hs
  · rename_i m hf
    cases hs
    refine { h with ring_eq := ?_, flusher := fun hsw => by cases hsw }
    rw [h.ring_eq, handing, hf]
    exact (List.append_nil _).symm
  · cases hs

/-! ## The steps of the flush -/

theorem iterate (hok : ∀ m ∈ s.queue.head?, s.owes ≠ some m) (hs : s.iterate = some s') :
    Inv s' := by
  unfold HandOff.iterate at hs
  split at hs
  · rename_i m rest hq
    split_ifs at hs with hnone
    cases hs
    have hring : m ∈ s.ring := by rw [h.ring_eq, hq]; exact List.mem_cons_self
    have howes : s.owes ≠ some m := hok m (by rw [hq]; rfl)
    have hsafe : ∀ w, s.Safe w → Safe { s with
        iterated := update s.iterated m (some (s.puts m)) } w := fun w hw =>
      hw.iterate rfl rfl rfl rfl rfl hnone rfl
    -- the iterations there were, and the new one
    have hcases : ∀ m' es, update s.iterated m (some (s.puts m)) m' = some es →
        s.iterated m' = some es ∨ m' = m ∧ es = s.puts m := by
      intro m' es hes
      by_cases heq : m' = m
      · subst heq
        rw [update_self] at hes
        exact Or.inr ⟨rfl, (Option.some.inj hes).symm⟩
      · rw [update_of_ne heq] at hes
        exact Or.inl hes
    refine
      { h with
        iterated_lt := fun m' es hes => ?_
        iterated_sub := fun m' es hes => ?_
        logged_iterated := fun m' hm' => ?_
        committer := h.committer.keep rfl hsafe (fun _ => rfl) (fun m' v hm' hhome =>
          hhome.imp_right (fun hr => ⟨hr.1, (update_of_ne ?_ _ _).trans hr.2⟩))
        completing := fun b hb w hw => hsafe w (h.completing b hb w hw)
        acked := fun w hw => hsafe w (h.acked w hw) }
    · rcases hcases m' es hes with hes | ⟨rfl, -⟩
      · exact h.iterated_lt m' es hes
      · exact h.ring_lt m' hring
    · rcases hcases m' es hes with hes | ⟨rfl, rfl⟩
      · exact h.iterated_sub m' es hes
      · exact Or.inr ⟨hring, fun v hv => hv⟩
    · show update s.iterated m _ m' ≠ none
      by_cases heq : m' = m
      · rw [heq, update_self]
        simp
      · rw [update_of_ne heq]
        exact h.logged_iterated m' hm'
    · rintro rfl
      exact howes hm'
  · cases hs

theorem log (hs : s.log = some s') : Inv s' := by
  unfold HandOff.log at hs
  split at hs
  · rename_i m rest hq
    split_ifs at hs with hm
    cases hs
    refine
      { h with
        iterated_sub := fun m' es hes =>
          (h.iterated_sub m' es hes).imp_left (List.mem_append_left _)
        logged_iterated := fun m' hm' => ?_ }
    rcases List.mem_append.mp hm' with hm' | hm'
    · exact h.logged_iterated m' hm'
    · rw [List.mem_singleton.mp hm']
      exact hm.1
  · cases hs

theorem clear (hs : s.clear = some s') : Inv s' := by
  unfold HandOff.clear at hs
  split at hs
  · rename_i m rest hq
    split_ifs at hs with hm
    cases hs
    have hsome := h.logged_iterated m hm
    have hsafe : ∀ w, s.Safe w → Safe { s with queue := rest, ring := s.ring.erase m } w :=
      fun w hw => hw.clear rfl rfl rfl rfl rfl hsome rfl
    have hring : s.ring.erase m = rest ++ s.handing := by
      rw [h.ring_eq, hq, List.cons_append, List.erase_cons_head]
    have hne : ∀ m', s.iterated m' = none → m' ∈ s.ring → m' ∈ s.ring.erase m := by
      intro m' hnone hm'
      refine (List.mem_erase_of_ne ?_).mpr hm'
      rintro rfl
      exact hsome hnone
    refine
      { h with
        ring_lt := fun m' hm' => h.ring_lt m' (List.mem_of_mem_erase hm')
        ring_eq := hring
        iterated_sub := fun m' es hes => ?_
        committer := h.committer.keep rfl hsafe (fun _ => rfl) (fun m' v _ hhome =>
          hhome.imp_right (fun hr => ⟨hne m' hr.2 hr.1, hr.2⟩))
        completing := fun b hb w hw => hsafe w (h.completing b hb w hw)
        acked := fun w hw => hsafe w (h.acked w hw) }
    rcases h.iterated_sub m' es hes with hlog | ⟨hmem, hsub⟩
    · exact Or.inl hlog
    · by_cases heq : m' = m
      · exact Or.inl (heq ▸ hm)
      · exact Or.inr ⟨(List.mem_erase_of_ne heq).mpr hmem, hsub⟩
  · cases hs

/-- **A step that keeps things apart keeps the writes safe.** -/
theorem step {a : HandOffAction W} (ha : Apart s a) (hs : s.step a = some s') : Inv s' := by
  cases a with
  | drain batch => exact h.drain hs
  | append => exact h.append ha hs
  | readActive => exact h.readActive hs
  | put => exact h.put hs
  | unlock => exact h.unlock hs
  | complete i => exact h.complete hs
  | swap => exact h.swap ha hs
  | rotate => exact h.rotate hs
  | enqueue => exact h.enqueue hs
  | iterate => exact h.iterate ha hs
  | log => exact h.log hs
  | clear => exact h.clear hs

theorem run {as : List (HandOffAction W)} (hok : RunOk HandOff.step Apart s as)
    (hrun : runSteps HandOff.step s as = some s') : Inv s' :=
  invariant_of_runOk (fun _ _ _ h ha hs => Inv.step h ha hs) h hok hrun

end

end Inv

/-- **No acknowledged write is lost between two leaders**, in the runs whose
steps keep apart what the code lets overlap: every write acknowledged is safe,
and a read finds it. -/
theorem safe_of_acked {as : List (HandOffAction W)} (hok : RunOk HandOff.step Apart {} as)
    (hrun : runSteps HandOff.step {} as = some s) (hw : w ∈ s.acked) : s.Safe w ∧ s.Visible w := by
  have hinv := inv_fresh.run hok hrun
  exact ⟨hinv.acked w hw, hinv.visible (hinv.acked w hw)⟩

/-- One leader commits two writes while the next hands the memtable off, and
the flush waits for the first. -/
def waitingFlush : List (HandOffAction ℕ) :=
  [.drain [7, 8], .append, .readActive, .put, .swap, .rotate, .enqueue, .put, .unlock, .iterate,
    .complete 0, .log, .clear]

theorem safe_of_acked_waitingFlush :
    (finalState HandOff.step {} waitingFlush).acked = [7, 8]
      ∧ (finalState HandOff.step {} waitingFlush).Safe 8
      ∧ (finalState HandOff.step {} waitingFlush).Visible 8 :=
  have hok : RunOk HandOff.step Apart {} waitingFlush := by decide
  ⟨by decide, safe_of_acked hok (runSteps_eq_finalState (by decide)) (by decide)⟩

/-- A leader has drained the queue, logged its write and got hold of the
memtable; the next one hands the memtable off, and it is flushed and its slot
cleared before the first puts its write. -/
def lateLeader : List (HandOffAction ℕ) :=
  [.drain [7], .append, .readActive, .swap, .rotate, .enqueue, .iterate, .log, .clear, .put,
    .unlock, .complete 0]

/-- **An acknowledged write is neither safe nor visible.** Its memtable is out
of the ring and the iteration did not take it in; the only record is in a
segment that has been retired. -/
theorem acked_lateLeader :
    let s := finalState HandOff.step {} lateLeader
    (runSteps HandOff.step {} lateLeader).isSome = true ∧ s.acked = [7] ∧ ¬ s.Safe 7
      ∧ ¬ s.Visible 7 ∧ s.records s.current = [] ∧ s.records 1 = [7] := by
  have hactive : (finalState HandOff.step {} lateLeader).puts
      (finalState HandOff.step {} lateLeader).active = [] := by decide
  have hring : (finalState HandOff.step {} lateLeader).ring = [] := by decide
  have hiter : (finalState HandOff.step {} lateLeader).iterated
      = update (fun _ : ℕ => none) 0 (some []) := rfl
  have hnone : ¬ ∃ m es, (finalState HandOff.step {} lateLeader).iterated m = some es ∧ 7 ∈ es := by
    rintro ⟨m, es, hes, hmem⟩
    rw [hiter] at hes
    by_cases hm : m = 0
    · rw [hm, update_self] at hes
      rw [← Option.some.inj hes] at hmem
      cases hmem
    · rw [update_of_ne hm] at hes
      cases hes
  refine ⟨by decide, by decide, ?_, ?_, by decide, by decide⟩
  · rintro (⟨hput, -⟩ | ⟨m, hm, -⟩ | hes)
    · rw [hactive] at hput
      cases hput
    · rw [hring] at hm
      cases hm
    · exact hnone hes
  · rintro (hput | ⟨m, hm, -⟩ | ⟨m, -, es, hes⟩)
    · rw [hactive] at hput
      cases hput
    · rw [hring] at hm
      cases hm
    · exact hnone ⟨m, es, hes⟩

end HandOff
