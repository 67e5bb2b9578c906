import ForgeLSM.SkipList
import ForgeLSM.Util.Run

/-!
# The skip list step by step

Puts take turns under a spinlock, but a lookup or an iteration takes no lock: it reads
the list while a put is raising the maximum height or has linked its node at some
levels and not at others. Here every load and every store of the list is a step of its
own, of the put that has the lock or of the read, and the two interleave in any way.

A read is followed together with puts only, since reads store nothing and do not see
each other. The machine keeps the puts that have finished, in the order of the lock, and
the ones that had finished when the read began.

A call whose steps nothing comes between does what the call as a whole is said to do in
`SkipList`: `SkipMachine.run_put` and `SkipMachine.run_read`, the latter with
`ReaderSteps.get`, `ReaderSteps.first` and `ReaderSteps.seek`.
-/

namespace SkipList

/-! ## The put that has the lock -/

/-- **Where the put that has the lock stands**: what it does next. -/
inductive Writer where
  /-- Nobody has the lock. -/
  | idle
  /-- Load `max_height_`. -/
  | locked (p : SkipPut)
  /-- Load a link in `find_greater_or_equal`. -/
  | searching (p : SkipPut) (x level : ℕ) (prev : List (Option ℕ))
  /-- The key is there: store its value. -/
  | replacing (p : SkipPut) (node : ℕ)
  /-- The key is not there: load `max_height_` and compare. -/
  | measuring (p : SkipPut) (prev : List (Option ℕ))
  /-- Store `max_height_`. -/
  | raising (p : SkipPut) (prev : List (Option ℕ))
  /-- Allocate the node. -/
  | allocating (p : SkipPut) (prev : List (Option ℕ))
  /-- Load `prev[i]->next[i]`. -/
  | linking (p : SkipPut) (node i : ℕ) (prev : List (Option ℕ))
  /-- Store `new_node->next[i]`. -/
  | storingOwn (p : SkipPut) (node i : ℕ) (prev : List (Option ℕ)) (link : Option ℕ)
  /-- Store `prev[i]->next[i]`. -/
  | storingPrev (p : SkipPut) (node i : ℕ) (prev : List (Option ℕ))
  /-- Clear the lock. -/
  | unlocking (p : SkipPut) (node : ℕ)

/-- The put under way. -/
def Writer.put? : Writer → Option SkipPut
  | .idle => none
  | .locked p | .searching p _ _ _ | .replacing p _ | .measuring p _ | .raising p _
  | .allocating p _ | .linking p _ _ _ | .storingOwn p _ _ _ _ | .storingPrev p _ _ _
  | .unlocking p _ => some p

/-- **One load or store of a put.** -/
def writerStep (s : SkipList) : Writer → Option (SkipList × Writer)
  | .idle => none
  | .locked p => some (s, .searching p head (s.maxHeight - 1) (List.replicate kMaxHeight none))
  | .searching p x level prev =>
    (s.move p.key x level).map (fun
      | .right n => (s, .searching p n level prev)
      | .down => (s, .searching p x (level - 1) (prev.set level (some x)))
      | .stop link =>
        match s.hit p.key link with
        | some n => (s, .replacing p n)
        | none => (s, .measuring p (prev.set level (some x))))
  | .replacing p n => (s.storeValue n p.ptr).map (fun s' => (s', .unlocking p n))
  | .measuring p prev =>
    if p.height.1 > s.maxHeight then
      some (s, .raising p (fillPrev prev s.maxHeight p.height.1))
    else some (s, .allocating p prev)
  | .raising p prev => some ({ s with maxHeight := p.height.1 }, .allocating p prev)
  | .allocating p prev =>
    some (s.addNode p.key p.ptr p.height.1, .linking p s.nodes.length 0 prev)
  | .linking p n i prev =>
    prev[i]?.join.bind (fun q =>
      (s.loadNext i q).map (fun link => (s, .storingOwn p n i prev link)))
  | .storingOwn p n i prev link =>
    (s.storeNext i n link).map (fun s' => (s', .storingPrev p n i prev))
  | .storingPrev p n i prev =>
    prev[i]?.join.bind (fun q => (s.storeNext i q (some n)).map (fun s' =>
      (s', if i + 1 < p.height.1 then .linking p n (i + 1) prev else .unlocking p n)))
  | .unlocking _ _ => some (s, .idle)

/-! ## The read -/

/-- What is read: a key, or the keys in order, from a target or from the first on. -/
inductive ReadCall where
  | get (k : Key)
  | seek (t : Key)
  | first

/-- The key a read searches for; the least of all for an iteration from the first on. -/
def ReadCall.key : ReadCall → Key
  | .get k => k
  | .seek t => t
  | .first => []

/-- Whether a lookup is made, not an iteration. -/
def ReadCall.isGet : ReadCall → Bool
  | .get _ => true
  | .seek _ | .first => false

/-- **Where a read stands**: what it does next. -/
inductive ReadPhase where
  | idle
  /-- Load `max_height_`, or the first link of the head. -/
  | started
  /-- Load a link in `find_greater_or_equal`. -/
  | searching (x level : ℕ)
  /-- Load the value of the node found. -/
  | loading (node : ℕ)
  | returned (result : Option VLogPointer)
  /-- An iterator at a node, null at the end, and the keys it has given. -/
  | iterating (yielded : List Key) (node : Option ℕ)
  deriving DecidableEq

namespace ReadPhase

/-- The read is over. -/
def finished : ReadPhase → Bool
  | .idle | .returned _ | .iterating _ none => true
  | _ => false

/-- An iterator comes to the node of a link. -/
def arrive (s : SkipList) (yielded : List Key) : Option ℕ → ReadPhase
  | none => .iterating yielded none
  | some n => .iterating (yielded ++ [s.nodeKey n]) (some n)

/-- What a read does with the node `find_greater_or_equal` returns. -/
def found (s : SkipList) (link : Option ℕ) : ReadCall → ReadPhase
  | .get k =>
    match s.hit k link with
    | some n => .loading n
    | none => .returned none
  | .seek _ | .first => arrive s [] link

end ReadPhase

/-- **One load of a read.** -/
def readerStep (s : SkipList) (c : ReadCall) : ReadPhase → Option ReadPhase
  | .idle | .returned _ | .iterating _ none => none
  | .started =>
    match c with
    | .first => s.seekToFirst.map (ReadPhase.arrive s [])
    | _ => some (.searching head (s.maxHeight - 1))
  | .searching x level =>
    (s.move c.key x level).map (fun
      | .right n => .searching n level
      | .down => .searching x (level - 1)
      | .stop link => ReadPhase.found s link c)
  | .loading n => (s.loadValue n).map (fun ptr => .returned (some ptr))
  | .iterating yielded (some x) => (s.loadNext 0 x).map (ReadPhase.arrive s yielded)

end SkipList

/-! ## The machine -/

open SkipList

/-- **A skip list, the put that has the lock, and a read.** -/
structure SkipMachine where
  list : SkipList := .init
  writer : Writer := .idle
  /-- The puts that have finished, in order. -/
  done : List SkipPut := []
  call : ReadCall := .first
  reader : ReadPhase := .idle
  /-- The puts that had finished when the read began. -/
  before : List SkipPut := []
  /-- How many steps the read has taken. -/
  ticks : ℕ := 0

/-- What can happen. -/
inductive SkipAction where
  /-- A put gets the lock. -/
  | lock (p : SkipPut)
  /-- The put takes a step. -/
  | write
  /-- A read begins. -/
  | start (c : ReadCall)
  /-- The read takes a step. -/
  | read

namespace SkipMachine

/-- The puts in the order of the lock, the one under way included. -/
def log (m : SkipMachine) : List SkipPut := m.done ++ m.writer.put?.toList

/-- **One step.** A put has finished when the lock is clear again. -/
def step (m : SkipMachine) : SkipAction → Option SkipMachine
  | .lock p =>
    match m.writer with
    | .idle => some { m with writer := .locked p }
    | _ => none
  | .write =>
    (writerStep m.list m.writer).map (fun (list, writer) =>
      { m with
        list := list
        writer := writer
        done := if writer.put?.isNone then m.log else m.done })
  | .start c => some { m with call := c, reader := .started, before := m.done, ticks := 0 }
  | .read =>
    (readerStep m.list m.call m.reader).map (fun reader =>
      { m with reader := reader, ticks := m.ticks + 1 })

end SkipMachine

variable {fuel : ℕ}

namespace SkipList

/-! ## The steps of a call

Taken with none in between, they come to what the call computes as a whole. -/

variable {s s' : SkipList} {p : SkipPut} {c : ReadCall} {node : Option ℕ}
  {items : List (Key × VLogPointer)} {prev : List (Option ℕ)}

/-- Some steps of the put that has the lock. -/
def WriterSteps : SkipList × Writer → SkipList × Writer → Prop :=
  Relation.ReflTransGen (fun a b => writerStep a.1 a.2 = some b)

theorem WriterSteps.head {a b : SkipList × Writer} {w : Writer}
    (hstep : writerStep s w = some a) (h : WriterSteps a b) : WriterSteps (s, w) b :=
  Relation.ReflTransGen.head hstep h

/-- Some steps of a read. -/
def ReaderSteps (s : SkipList) (c : ReadCall) : ReadPhase → ReadPhase → Prop :=
  Relation.ReflTransGen (fun a b => readerStep s c a = some b)

/-- What a put does with the node the search has found. -/
def Writer.found (s : SkipList) (p : SkipPut) (node : Option ℕ) (prev : List (Option ℕ)) :
    Writer :=
  match s.hit p.key node with
  | some n => .replacing p n
  | none => .measuring p prev

theorem writerStep_stop {x level : ℕ} {link : Option ℕ}
    (hmove : s.move p.key x level = some (.stop link)) :
    writerStep s (.searching p x level prev)
      = some (s, Writer.found s p link (prev.set level (some x))) := by
  rw [writerStep, hmove, Option.map_some]
  dsimp only
  unfold Writer.found
  cases s.hit p.key link with
  | some n => rfl
  | none => rfl

/-- The search of a put. -/
theorem WriterSteps.findLoop {fuel x level : ℕ} {prev prev' : List (Option ℕ)}
    (h : s.findLoop p.key fuel x level prev = some (node, prev')) :
    WriterSteps (s, .searching p x level prev) (s, Writer.found s p node prev') := by
  induction fuel generalizing x level prev with
  | zero => cases h
  | succ fuel ih =>
    obtain ⟨move, hmove, hrest⟩ := Option.bind_eq_some_iff.mp h
    cases move with
    | right n | down =>
      refine .head ?_ (ih hrest)
      rw [writerStep, hmove]
      rfl
    | stop link =>
      cases hrest
      exact .head (writerStep_stop hmove) .refl

/-- A level is linked by a load and two stores. -/
theorem WriterSteps.linkLevel {n i : ℕ} (h : linkLevel prev n s i = some s') :
    WriterSteps (s, .linking p n i prev)
      (s', if i + 1 < p.height.1 then .linking p n (i + 1) prev else .unlocking p n) := by
  obtain ⟨q, hq, hlink⟩ := Option.bind_eq_some_iff.mp h
  obtain ⟨link, hload, hstores⟩ := Option.bind_eq_some_iff.mp hlink
  obtain ⟨t, hown, hprev⟩ := Option.bind_eq_some_iff.mp hstores
  refine .head (a := (s, .storingOwn p n i prev link)) ?_
    (.head (a := (t, .storingPrev p n i prev)) ?_ (.head ?_ .refl))
  · rw [writerStep, hq, Option.bind_some, hload]
    rfl
  · rw [writerStep, hown]
    rfl
  · rw [writerStep, hq, Option.bind_some, hprev]
    rfl

/-- The loop that links a node, at a level of its tower. -/
theorem WriterSteps.linkLoop {n i : ℕ} (hi : i < p.height.1)
    (h : (List.range' i (p.height.1 - i)).foldlM (SkipList.linkLevel prev n) s = some s') :
    WriterSteps (s, .linking p n i prev) (s', .unlocking p n) := by
  induction hk : p.height.1 - (i + 1) generalizing i s with
  | zero =>
    rw [show p.height.1 - i = 1 by omega] at h
    have hlevel : WriterSteps (s, .linking p n i prev) (s', _) :=
      WriterSteps.linkLevel ((bind_pure _).symm.trans h)
    rw [if_neg (by omega)] at hlevel
    exact hlevel
  | succ k ih =>
    rw [show p.height.1 - i = p.height.1 - (i + 1) + 1 by omega, List.range'_succ,
      List.foldlM_cons] at h
    obtain ⟨t, ht, hrest⟩ := Option.bind_eq_some_iff.mp h
    have hlevel : WriterSteps (s, .linking p n i prev) (t, _) := WriterSteps.linkLevel ht
    rw [if_pos (by omega)] at hlevel
    exact hlevel.trans (ih (by omega) hrest (by omega))

/-- **A put that is left alone does what `put` does.** -/
theorem WriterSteps.put (h : s.put fuel p.key p.ptr p.height = some s') :
    ∃ n, WriterSteps (s, .locked p) (s', .unlocking p n) := by
  obtain ⟨⟨node, prev⟩, hfind, hrest⟩ := Option.bind_eq_some_iff.mp h
  have hsearch := WriterSteps.findLoop hfind
  unfold Writer.found at hsearch
  dsimp only at hrest
  cases hhit : s.hit p.key node with
  | some n =>
    rw [hhit] at hsearch hrest
    dsimp only at hsearch hrest
    refine ⟨n, .head rfl (hsearch.trans (.head ?_ .refl))⟩
    rw [writerStep, hrest]
    rfl
  | none =>
    rw [hhit] at hsearch hrest
    dsimp only at hsearch hrest
    refine ⟨s.nodes.length, .head rfl (hsearch.trans ?_)⟩
    rw [List.range_eq_range'] at hrest
    have hlink := WriterSteps.linkLoop p.height.2.1 hrest
    by_cases hmax : p.height.1 > s.maxHeight
    · rw [if_pos hmax, if_pos hmax] at hlink
      exact .head (if_pos hmax) (.head rfl (.head rfl hlink))
    · rw [if_neg hmax, if_neg hmax] at hlink
      exact .head (if_neg hmax) (.head rfl hlink)

/-- The search of a read. -/
theorem ReaderSteps.findLoop {fuel x level : ℕ} {prev prev' : List (Option ℕ)}
    (h : s.findLoop c.key fuel x level prev = some (node, prev')) :
    ReaderSteps s c (.searching x level) (ReadPhase.found s node c) := by
  induction fuel generalizing x level prev with
  | zero => cases h
  | succ fuel ih =>
    obtain ⟨move, hmove, hrest⟩ := Option.bind_eq_some_iff.mp h
    cases move with
    | right n | down =>
      refine .head ?_ (ih hrest)
      rw [readerStep, hmove]
      rfl
    | stop link =>
      cases hrest
      refine .head ?_ .refl
      rw [readerStep, hmove]
      rfl

/-- **A lookup of a list at rest returns what `get` does.** -/
theorem ReaderSteps.get {k : Key} {result : Option VLogPointer} (h : s.get fuel k = some result) :
    ReaderSteps s (.get k) .started (.returned result) := by
  obtain ⟨⟨node, prev⟩, hfind, hrest⟩ := Option.bind_eq_some_iff.mp h
  have hsearch := ReaderSteps.findLoop (c := .get k) hfind
  unfold ReadPhase.found at hsearch
  dsimp only at hrest hsearch
  refine .head rfl (hsearch.trans ?_)
  cases hhit : s.hit k node with
  | some n =>
    rw [hhit] at hrest
    refine .head ?_ .refl
    obtain ⟨ptr, hptr, rfl⟩ := Option.map_eq_some_iff.mp hrest
    rw [readerStep, hptr]
    rfl
  | none =>
    rw [hhit] at hrest
    cases hrest
    exact .refl

/-- The nodes an iterator comes to. -/
theorem ReaderSteps.walk {xs : List ℕ} (yielded : List Key)
    (h : walk (s.loadNext 0) fuel node = some xs) :
    ReaderSteps s c (ReadPhase.arrive s yielded node)
      (.iterating (yielded ++ xs.map s.nodeKey) none) := by
  induction fuel generalizing node xs yielded with
  | zero => cases h
  | succ fuel ih =>
    cases node with
    | none =>
      cases h
      rw [List.map_nil, List.append_nil]
      exact .refl
    | some x =>
      obtain ⟨link, hload, hrest⟩ := Option.bind_eq_some_iff.mp h
      obtain ⟨ys, hys, rfl⟩ := Option.map_eq_some_iff.mp hrest
      have htail := ih (yielded ++ [s.nodeKey x]) hys
      rw [List.append_assoc] at htail
      refine .head ?_ htail
      rw [ReadPhase.arrive, readerStep, hload]
      rfl

/-- The keys of the entries an iterator gives are those of its nodes. -/
theorem map_fst_of_mapM_entry {xs : List ℕ} (h : xs.mapM s.entry = some items) :
    items.map Prod.fst = xs.map s.nodeKey := by
  induction xs generalizing items with
  | nil =>
    cases h
    rfl
  | cons x xs ih =>
    rw [List.mapM_cons] at h
    obtain ⟨e, he, hrest⟩ := Option.bind_eq_some_iff.mp h
    obtain ⟨es, hes, hcons⟩ := Option.bind_eq_some_iff.mp hrest
    cases hcons
    obtain ⟨ptr, -, rfl⟩ := Option.map_eq_some_iff.mp he
    rw [List.map_cons, List.map_cons, ih hes]

theorem ReaderSteps.collect (h : s.collect fuel node = some items) :
    ReaderSteps s c (ReadPhase.arrive s [] node) (.iterating (items.map Prod.fst) none) := by
  obtain ⟨xs, hxs, hitems⟩ := Option.bind_eq_some_iff.mp h
  rw [map_fst_of_mapM_entry hitems]
  exact ReaderSteps.walk [] hxs

/-- **An iteration over a list at rest gives what the iterator does**, from the first key
on. -/
theorem ReaderSteps.first (h : s.seekToFirst.bind (s.collect fuel) = some items) :
    ReaderSteps s .first .started (.iterating (items.map Prod.fst) none) := by
  obtain ⟨link, hlink, hcollect⟩ := Option.bind_eq_some_iff.mp h
  refine .head ?_ (ReaderSteps.collect hcollect)
  rw [readerStep, hlink]
  rfl

/-- **An iteration over a list at rest gives what the iterator does**, from a target on. -/
theorem ReaderSteps.seek {t : Key} (h : (s.seek fuel t).bind (s.collect fuel) = some items) :
    ReaderSteps s (.seek t) .started (.iterating (items.map Prod.fst) none) := by
  obtain ⟨link, hlink, hcollect⟩ := Option.bind_eq_some_iff.mp h
  obtain ⟨⟨node, prev⟩, hfind, rfl⟩ := Option.map_eq_some_iff.mp hlink
  exact .head rfl ((ReaderSteps.findLoop (c := .seek t) hfind).trans (ReaderSteps.collect hcollect))

end SkipList

namespace SkipMachine

variable {m m' : SkipMachine}

/-- The lock is taken when it is clear. -/
theorem step_lock {p : SkipPut} (hs : m.step (.lock p) = some m') :
    m.writer = .idle ∧ m' = { m with writer := .locked p } := by
  simp only [step] at hs
  split at hs
  · rename_i hidle
    exact ⟨hidle, (Option.some.inj hs).symm⟩
  · cases hs

/-- Only a put that has the lock takes steps. -/
theorem put?_of_writerStep {s : SkipList} {w : Writer} {r : SkipList × Writer}
    (h : writerStep s w = some r) : ∃ p, w.put? = some p := by
  cases w with
  | idle => cases h
  | _ => exact ⟨_, rfl⟩

/-- Steps of a put that has not yet cleared the lock, as a run of the machine. -/
theorem run_writerSteps {b : SkipList × Writer} (h : WriterSteps (m.list, m.writer) b)
    (hb : b.2.put?.isSome = true) :
    ∃ n, runSteps SkipMachine.step m (List.replicate n .write)
      = some { m with list := b.1, writer := b.2 } := by
  induction h with
  | refl => exact ⟨0, rfl⟩
  | @tail b t _ hstep ih =>
    obtain ⟨p, hp⟩ := put?_of_writerStep hstep
    obtain ⟨n, hrun⟩ := ih (by rw [hp]; rfl)
    refine ⟨n + 1, ?_⟩
    rw [List.replicate_succ']
    refine runSteps_append.mpr ⟨_, hrun, runSteps_cons.mpr ⟨_, ?_, rfl⟩⟩
    obtain ⟨list, writer⟩ := t
    have hdone : writer.put?.isNone = false := Option.isNone_eq_false_iff.mpr hb
    rw [step, hstep, Option.map_some]
    dsimp only
    rw [hdone]
    rfl

/-- **A put that nothing comes between**: the lock is taken, and some steps later it is
clear again and the list is what `put` makes of it. -/
theorem run_put {p : SkipPut} {s' : SkipList} (hidle : m.writer = .idle)
    (h : m.list.put fuel p.key p.ptr p.height = some s') :
    ∃ n, runSteps SkipMachine.step m (.lock p :: List.replicate n .write)
      = some { m with list := s', writer := .idle, done := m.done ++ [p] } := by
  obtain ⟨x, hsteps⟩ := WriterSteps.put h
  obtain ⟨n, hrun⟩ := run_writerSteps (m := { m with writer := .locked p }) hsteps rfl
  refine ⟨n + 1, runSteps_cons.mpr ⟨{ m with writer := .locked p }, ?_, ?_⟩⟩
  · rw [step, hidle]
  · rw [List.replicate_succ']
    exact runSteps_append.mpr ⟨_, hrun, rfl⟩

/-- **A read that nothing comes between**: it begins, and some steps later it is where its
own steps on the list as it is lead. -/
theorem run_read {c : ReadCall} {r : ReadPhase} (h : ReaderSteps m.list c .started r) :
    ∃ n, runSteps SkipMachine.step m (.start c :: List.replicate n .read)
      = some { m with call := c, reader := r, before := m.done, ticks := n } := by
  induction h with
  | refl => exact ⟨0, rfl⟩
  | tail _ hstep ih =>
    obtain ⟨n, hrun⟩ := ih
    refine ⟨n + 1, ?_⟩
    rw [List.replicate_succ', ← List.cons_append]
    refine runSteps_append.mpr ⟨_, hrun, runSteps_cons.mpr ⟨_, ?_, rfl⟩⟩
    rw [step, hstep]
    rfl

end SkipMachine
