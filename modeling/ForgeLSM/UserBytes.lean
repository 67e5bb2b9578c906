import ForgeLSM.Batch
import ForgeLSM.Engine

/-!
# The count of the clients' bytes

The store counts the bytes its clients write in `user_bytes_written`, an unsigned counter of 64
bits. A commit adds the sizes of the requests of its batch, relocations included, but for those
it ignores because their key was overwritten. So that relocations do not count, `run_vlog_gc`
subtracts the size of each again, once its request is answered without an error. A relocation
that was ignored is answered without an error too.

`UserBytes n` is a store with the counter and `n` collectors, which run at the same time as each
other, as the clients and as the background tasks. In every run the counter and the sizes of the
relocations ignored, on the one side, and the sizes of the clients' operations and of the
relocations still to be subtracted, on the other, are the same modulo `2 ^ 64` (`Balanced`). The
counter is therefore right in the end, and does not wrap on the way, exactly if no relocation of
any bytes is ignored (`UserBytes.exact_iff_charged`). In a store that was opened again an ignored
relocation can take the counter below zero (`UserBytes.wraps_overwritten`).
-/

open Function

/-- The bytes of an operation: its key, and the value of a put. -/
def Op.bytes (op : Op) : ℕ := op.key.length + (op.value.map List.length).getD 0

/-- The bytes of a history. -/
def History.bytes (h : History) : ℕ := (h.map Op.bytes).sum

/-- What a commit adds to `user_bytes` for a request that it does not ignore. -/
def WriteRequest.size (r : WriteRequest) : ℕ :=
  if r.isDelete then r.key.length else r.key.length + r.value.length

/-- The action is a background task's, and not the collector's. -/
def EngineAction.isMaintenance : EngineAction → Bool
  | .commit _ | .crash _ _ | .gcStart | .gcScan | .gcFinish => false
  | _ => true

/-! ## The machine -/

/-- A thread in `run_vlog_gc`: what it collects, and the relocation it has an answer for and not
yet subtracted. -/
structure Collector where
  job : Option GcJob := none
  answered : Option WriteRequest := none
  deriving DecidableEq

/-- A request in the queue of the writers: a client's, or the relocation of a collector. -/
inductive QueuedWrite (n : ℕ) where
  | client (r : WriteRequest)
  | collector (i : Fin n)
  deriving DecidableEq

namespace Collector

/-- The relocation it has in the queue of the writers. -/
def pending (c : Collector) : Option WriteRequest :=
  if c.answered.isSome then none else ({ gc := c.job } : KVStore).gcPending

/-- It is answered. -/
def answer (c : Collector) (r : WriteRequest) : Collector where
  job := c.job.map (fun job => { job with live := job.live.tail })
  answered := some r

/-- What it is going to subtract. -/
def owes (c : Collector) : ℕ := (c.answered.map (fun r => r.key.length + r.value.length)).getD 0

/-- **The batch a leader drains**, of clients' requests and of relocations, and the collectors
when they are answered. -/
def drain {n : ℕ} : (Fin n → Collector) → List (QueuedWrite n) →
    Option (List WriteRequest × (Fin n → Collector))
  | cs, [] => some ([], cs)
  | cs, .client r :: batch =>
    if r.isGc then none else (drain cs batch).map (fun p => (r :: p.1, p.2))
  | cs, .collector i :: batch =>
    match (cs i).pending with
    | none => none
    | some r =>
      (drain (update cs i ((cs i).answer r)) batch).map (fun p => (r :: p.1, p.2))

end Collector

/-- The bytes of the relocations of a batch. -/
def relocatedBytes (rs : List WriteRequest) : ℕ :=
  ((rs.filter WriteRequest.isGc).map WriteRequest.size).sum

/-- The bytes of those that a commit ignores. -/
def ignoredBytes (act : Memtable) (rs : List WriteRequest) : ℕ :=
  ((rs.filter (fun r => r.isGc && Vlogs.overwritten act r)).map WriteRequest.size).sum

/-- **A store, its counter of the clients' bytes, and `n` collectors.** -/
structure UserBytes (n : ℕ) where
  store : KVStore := {}
  userBytesWritten : BitVec 64 := 0
  collectors : Fin n → Collector := fun _ => {}
  /-- The clients' operations committed. -/
  committed : History := []
  /-- The bytes of the relocations answered, and of those of them that were ignored. -/
  relocated : ℕ := 0
  ignored : ℕ := 0

/-- The steps. -/
inductive ByteAction (n : ℕ) where
  /-- A task that flushes, compacts or removes WAL segments. -/
  | background (a : EngineAction)
  /-- A leader commits a batch and answers it. -/
  | commit (batch : List (QueuedWrite n))
  | gcStart (i : Fin n)
  | gcScan (i : Fin n)
  | gcFinish (i : Fin n)
  /-- A collector goes on after an answer. -/
  | subtractUserBytes (i : Fin n)

namespace UserBytes

variable {n : ℕ}

/-- The `user_bytes` of a batch: the sizes of the requests that are given a pointer. -/
def userBytes (env : Env) (s : UserBytes n) (rs : List WriteRequest) : ℕ :=
  ((s.store.plan env rs).2.map (fun e => e.req.size)).sum

/-- A collector works on the store. -/
def collect (s : UserBytes n) (i : Fin n) (f : KVStore → Option KVStore) : Option (UserBytes n) :=
  if (s.collectors i).answered.isSome then none
  else (f { s.store with gc := (s.collectors i).job }).map (fun t =>
    { s with
      store := { t with gc := none }
      collectors := update s.collectors i { job := t.gc } })

/-- **One step.** -/
def step (env : Env) (s : UserBytes n) : ByteAction n → Option (UserBytes n)
  | .background a =>
    if a.isMaintenance then (s.store.step env a).map (fun t => { s with store := t }) else none
  | .commit batch => (Collector.drain s.collectors batch).map (fun p =>
    { store := s.store.commit env p.1
      userBytesWritten := s.userBytesWritten + BitVec.ofNat 64 (s.userBytes env p.1)
      collectors := p.2
      committed := s.committed ++ userOps p.1
      relocated := s.relocated + relocatedBytes p.1
      ignored := s.ignored + ignoredBytes s.store.active p.1 })
  | .gcStart i => s.collect i KVStore.gcStart
  | .gcScan i => s.collect i (KVStore.gcScan env)
  | .gcFinish i => s.collect i KVStore.gcFinish
  | .subtractUserBytes i => (s.collectors i).answered.map (fun r =>
    { s with
      userBytesWritten := s.userBytesWritten - BitVec.ofNat 64 (r.key.length + r.value.length)
      collectors := update s.collectors i { (s.collectors i) with answered := none } })

/-- The bytes of the relocations that are still to be subtracted. -/
def owed (s : UserBytes n) : ℕ := ∑ i, (s.collectors i).owes

/-- Whether a step takes the counter past its range. -/
def Wraps (env : Env) (s : UserBytes n) : ByteAction n → Prop
  | .commit batch => ∃ p, Collector.drain s.collectors batch = some p
    ∧ 2 ^ 64 ≤ s.userBytesWritten.toNat + s.userBytes env p.1
  | .subtractUserBytes i => s.userBytesWritten.toNat < (s.collectors i).owes
  | _ => False

/-- **No relocation of any bytes is ignored** in a step: none that the batch takes finds its key
overwritten in the active memtable, unless it is of an empty key and an empty value. -/
def Charged (s : UserBytes n) : ByteAction n → Prop
  | .commit batch => ∀ i, .collector i ∈ batch → ∀ r ∈ (s.collectors i).pending,
    Vlogs.overwritten s.store.active r = true → r.key = [] ∧ r.value = []
  | _ => True

instance (s : UserBytes n) (a : ByteAction n) : Decidable (s.Charged a) := by
  cases a <;> unfold Charged <;> infer_instance

end UserBytes

/-! ## The bytes of a batch -/

/-- The size of a client's request is that of its operation. -/
theorem WriteRequest.bytes_op (r : WriteRequest) : r.op.bytes = r.size := by
  unfold WriteRequest.op WriteRequest.size Op.bytes
  cases r.isDelete <;> rfl

theorem History.bytes_append (h h' : History) : bytes (h ++ h') = bytes h + bytes h' := by
  unfold bytes
  rw [List.map_append, List.sum_append]

/-- A batch is the clients' operations and the relocations. -/
theorem sum_size_eq (rs : List WriteRequest) :
    (rs.map WriteRequest.size).sum = History.bytes (userOps rs) + relocatedBytes rs := by
  unfold relocatedBytes History.bytes
  induction rs with
  | nil => rfl
  | cons r rs ih =>
    rw [userOps_cons, List.map_cons, List.sum_cons, List.filter_cons, ih]
    cases r.isGc with
    | true =>
      simp only [if_true, List.map_cons, List.sum_cons]
      omega
    | false =>
      simp only [Bool.false_eq_true, if_false, List.map_cons, List.sum_cons, r.bytes_op]
      omega

theorem ignoredBytes_le (act : Memtable) (rs : List WriteRequest) :
    ignoredBytes act rs ≤ relocatedBytes rs := by
  have hsub : (rs.filter (fun r => r.isGc && Vlogs.overwritten act r)).Sublist
      (rs.filter WriteRequest.isGc) := by
    refine List.monotone_filter_right rs (fun r hr => ?_)
    exact (Bool.and_eq_true_iff.mp hr).1
  exact (hsub.map WriteRequest.size).sum_le_sum (fun _ _ => Nat.zero_le _)

variable {rs : List WriteRequest}

/-- **What a commit counts and what it ignores make up the batch.** -/
theorem Vlogs.sum_size_placeAll (env : Env) (act : Memtable) (walId : ℕ)
    (hput : ∀ r ∈ rs, r.isGc = true → r.isDelete = false) (vl : Vlogs) (m : ℕ) :
    ((vl.placeAll env act walId m rs).2.map (fun e => e.req.size)).sum + ignoredBytes act rs
      = (rs.map WriteRequest.size).sum := by
  unfold ignoredBytes
  induction rs generalizing vl m with
  | nil => rfl
  | cons r rs ih =>
    have hrest := ih (fun q hq => hput q (List.mem_cons_of_mem r hq))
      (vl.place env act walId r).1 (if r.isGc then m else m + 1)
    rw [Vlogs.placeAll, List.filter_cons, List.map_cons, List.sum_cons]
    split
    · rename_i hnone
      have hboth : (r.isGc && Vlogs.overwritten act r) = true :=
        Bool.and_eq_true_iff.mpr (Vlogs.place_ne_none hnone)
      rw [if_pos hboth, List.map_cons, List.sum_cons]
      omega
    · rename_i ptr hptr
      have hkept : ¬ (r.isGc && Vlogs.overwritten act r) = true := by
        rw [Bool.and_eq_true]
        rintro ⟨hg, ho⟩
        rw [Vlogs.place_overwritten (hput r List.mem_cons_self hg) hg ho] at hptr
        cases hptr
      rw [if_neg hkept, List.map_cons, List.sum_cons]
      dsimp only
      omega

/-! ## The relocations of a batch -/

namespace Collector

variable {n : ℕ} {cs cs' : Fin n → Collector} {r : WriteRequest}

/-- What a collector has in the queue, it has no answer for, and it is a put. -/
theorem of_pending {c : Collector} (h : c.pending = some r) :
    c.answered = none ∧ r.isGc = true ∧ r.isDelete = false := by
  unfold pending at h
  split_ifs at h with hans
  unfold KVStore.gcPending at h
  dsimp only at h
  split at h
  · cases h
  · split_ifs at h
    obtain ⟨rec, -, rfl⟩ := Option.map_eq_some_iff.mp h
    exact ⟨by simpa using hans, rfl, rfl⟩

theorem owes_answer (c : Collector) (hr : r.isDelete = false) : (c.answer r).owes = r.size := by
  simp [owes, answer, WriteRequest.size, hr]

/-- A client's request is drained. -/
theorem drain_client {q : WriteRequest} {batch : List (QueuedWrite n)}
    (h : drain cs (.client q :: batch) = some (rs, cs')) :
    q.isGc = false ∧ ∃ rest, drain cs batch = some (rest, cs') ∧ rs = q :: rest := by
  rw [drain] at h
  split_ifs at h with hq
  obtain ⟨⟨rest, cs''⟩, hrest, heq⟩ := Option.map_eq_some_iff.mp h
  cases heq
  exact ⟨by simpa using hq, rest, hrest, rfl⟩

/-- A relocation is drained. -/
theorem drain_collector {i : Fin n} {batch : List (QueuedWrite n)}
    (h : drain cs (.collector i :: batch) = some (rs, cs')) :
    ∃ q, (cs i).pending = some q ∧ ∃ rest,
      drain (update cs i ((cs i).answer q)) batch = some (rest, cs') ∧ rs = q :: rest := by
  rw [drain] at h
  split at h
  · cases h
  · rename_i q hq
    obtain ⟨⟨rest, cs''⟩, hrest, heq⟩ := Option.map_eq_some_iff.mp h
    cases heq
    exact ⟨q, hq, rest, hrest, rfl⟩

/-- What the collectors owe when one of them changes. -/
theorem sum_owes_update (cs : Fin n → Collector) (i : Fin n) (c : Collector) :
    ∑ j, (update cs i c j).owes + (cs i).owes = ∑ j, (cs j).owes + c.owes := by
  have hupdate : (fun j => (update cs i c j).owes)
      = update (fun j => (cs j).owes) i c.owes := by
    funext j
    exact apply_update (fun _ c => c.owes) cs i c j
  rw [hupdate, Finset.sum_update_of_mem (Finset.mem_univ i),
    ← Finset.add_sum_erase Finset.univ (fun j => (cs j).owes) (Finset.mem_univ i),
    Finset.sdiff_singleton_eq_erase]
  omega

/-- **The relocations of a batch are those the collectors in it have in the queue.** -/
theorem mem_drain {batch : List (QueuedWrite n)} (h : drain cs batch = some (rs, cs')) :
    r ∈ rs ∧ r.isGc = true ↔ ∃ i, .collector i ∈ batch ∧ (cs i).pending = some r := by
  induction batch generalizing cs rs with
  | nil =>
    obtain ⟨rfl, -⟩ := Prod.mk.inj (Option.some.inj h)
    simp
  | cons q batch ih =>
    cases q with
    | client q =>
      obtain ⟨hq, rest, hrest, rfl⟩ := drain_client h
      have hne : r.isGc = true → r ≠ q := by
        rintro hr rfl
        rw [hq] at hr
        cases hr
      simp only [List.mem_cons, reduceCtorEq, false_or, ← ih hrest]
      exact ⟨fun ⟨hr, hg⟩ => ⟨hr.resolve_left (hne hg), hg⟩, fun ⟨hr, hg⟩ => ⟨Or.inr hr, hg⟩⟩
    | collector i =>
      obtain ⟨q, hq, rest, hrest, rfl⟩ := drain_collector h
      -- The collector has an answer now, so it is not in the batch a second time.
      have hgone : (update cs i ((cs i).answer q) i).pending = none := by
        rw [update_self]
        rfl
      rw [List.mem_cons, or_and_right, ih hrest]
      constructor
      · rintro (⟨rfl, -⟩ | ⟨j, hj, hr⟩)
        · exact ⟨i, List.mem_cons_self, hq⟩
        · have hji : j ≠ i := by
            rintro rfl
            rw [hgone] at hr
            cases hr
          rw [update_of_ne hji] at hr
          exact ⟨j, List.mem_cons_of_mem _ hj, hr⟩
      · rintro ⟨j, hj, hr⟩
        by_cases hji : j = i
        · subst hji
          cases hq.symm.trans hr
          exact Or.inl ⟨rfl, (of_pending hq).2.1⟩
        · refine Or.inr ⟨j, (List.mem_cons.mp hj).resolve_left ?_, ?_⟩
          · exact fun h => hji (QueuedWrite.collector.inj h)
          · rw [update_of_ne hji]
            exact hr

/-- What the collectors owe grows by the relocations of the batch. -/
theorem sum_owes_drain {batch : List (QueuedWrite n)} (h : drain cs batch = some (rs, cs')) :
    ∑ i, (cs' i).owes = ∑ i, (cs i).owes + relocatedBytes rs := by
  unfold relocatedBytes
  induction batch generalizing cs rs with
  | nil =>
    cases h
    rfl
  | cons q batch ih =>
    cases q with
    | client q =>
      obtain ⟨hq, rest, hrest, rfl⟩ := drain_client h
      rw [List.filter_cons_of_neg (by simp [hq]), ih hrest]
    | collector i =>
      obtain ⟨q, hq, rest, hrest, rfl⟩ := drain_collector h
      obtain ⟨hans, hg, hput⟩ := of_pending hq
      have hzero : (cs i).owes = 0 := by rw [owes, hans]; rfl
      have hsum := sum_owes_update cs i ((cs i).answer q)
      rw [owes_answer _ hput] at hsum
      rw [List.filter_cons_of_pos hg, List.map_cons, List.sum_cons, ih hrest]
      omega

end Collector

/-! ## The books -/

namespace UserBytes

variable {n : ℕ} {env : Env} {s s' : UserBytes n} {a : ByteAction n} {as : List (ByteAction n)}

/-- The books are left alone. -/
structure Kept (s s' : UserBytes n) : Prop where
  userBytesWritten : s'.userBytesWritten = s.userBytesWritten
  owed : s'.owed = s.owed
  committed : s'.committed = s.committed
  relocated : s'.relocated = s.relocated
  ignored : s'.ignored = s.ignored

/-- A collector that works on the store has nothing to subtract before or after. -/
theorem Kept.of_collect {i : Fin n} {f : KVStore → Option KVStore} (h : s.collect i f = some s') :
    Kept s s' := by
  unfold collect at h
  split_ifs at h with hans
  obtain ⟨t, -, rfl⟩ := Option.map_eq_some_iff.mp h
  have hnone : (s.collectors i).answered = none := by simpa using hans
  have hzero : (s.collectors i).owes = 0 := by
    rw [Collector.owes, hnone]
    rfl
  have hsum := Collector.sum_owes_update s.collectors i { job := t.gc }
  rw [hzero] at hsum
  exact ⟨rfl, hsum, rfl, rfl, rfl⟩

/-- **What a step does to the books**: it leaves them alone, commits a batch, or subtracts. -/
theorem step_cases (h : s.step env a = some s') :
    (Kept s s' ∧ s.Charged a ∧ ¬ s.Wraps env a)
      ∨ (∃ batch rs cs, a = .commit batch ∧ Collector.drain s.collectors batch = some (rs, cs)
        ∧ s'.userBytesWritten = s.userBytesWritten + BitVec.ofNat 64 (s.userBytes env rs)
        ∧ s'.owed = s.owed + relocatedBytes rs ∧ s'.committed = s.committed ++ userOps rs
        ∧ s'.relocated = s.relocated + relocatedBytes rs
        ∧ s'.ignored = s.ignored + ignoredBytes s.store.active rs)
      ∨ (∃ i, a = .subtractUserBytes i
        ∧ s'.userBytesWritten = s.userBytesWritten - BitVec.ofNat 64 (s.collectors i).owes
        ∧ s'.owed + (s.collectors i).owes = s.owed ∧ s'.committed = s.committed
        ∧ s'.relocated = s.relocated ∧ s'.ignored = s.ignored) := by
  cases a with
  | background a =>
    unfold step at h
    dsimp only at h
    split_ifs at h
    obtain ⟨t, -, rfl⟩ := Option.map_eq_some_iff.mp h
    exact Or.inl ⟨⟨rfl, rfl, rfl, rfl, rfl⟩, trivial, id⟩
  | gcStart i | gcScan i | gcFinish i => exact Or.inl ⟨Kept.of_collect h, trivial, id⟩
  | commit batch =>
    obtain ⟨⟨rs, cs⟩, hdrain, rfl⟩ := Option.map_eq_some_iff.mp h
    exact Or.inr (Or.inl ⟨batch, rs, cs, rfl, hdrain, rfl, Collector.sum_owes_drain hdrain, rfl,
      rfl, rfl⟩)
  | subtractUserBytes i =>
    obtain ⟨r, hr, rfl⟩ := Option.map_eq_some_iff.mp h
    have howes : (s.collectors i).owes = r.key.length + r.value.length := by
      rw [Collector.owes, hr]
      rfl
    refine Or.inr (Or.inr ⟨i, rfl, by rw [howes], ?_, rfl, rfl, rfl⟩)
    exact Collector.sum_owes_update s.collectors i { (s.collectors i) with answered := none }

/-- What a commit adds, and what it ignores: the clients' operations and the relocations. -/
theorem userBytes_add (env : Env) (s : UserBytes n) {batch : List (QueuedWrite n)}
    {cs : Fin n → Collector} (h : Collector.drain s.collectors batch = some (rs, cs)) :
    s.userBytes env rs + ignoredBytes s.store.active rs
      = History.bytes (userOps rs) + relocatedBytes rs := by
  rw [← sum_size_eq]
  refine Vlogs.sum_size_placeAll env _ _ (fun r hr hg => ?_) _ _
  obtain ⟨i, -, hi⟩ := (Collector.mem_drain h).mp ⟨hr, hg⟩
  exact (Collector.of_pending hi).2.2

/-- No bytes are ignored exactly if the step is charged. -/
theorem ignoredBytes_eq_zero_iff {batch : List (QueuedWrite n)} {cs : Fin n → Collector}
    (h : Collector.drain s.collectors batch = some (rs, cs)) :
    ignoredBytes s.store.active rs = 0 ↔ s.Charged (.commit batch) := by
  unfold ignoredBytes
  simp only [List.sum_eq_zero_iff, List.forall_mem_map, List.mem_filter, Bool.and_eq_true]
  have hsize : ∀ {i r}, (s.collectors i).pending = some r →
      (r.size = 0 ↔ r.key = [] ∧ r.value = []) := by
    intro i r hr
    simp [WriteRequest.size, (Collector.of_pending hr).2.2]
  constructor
  · intro hall i hi r hr ho
    obtain ⟨hmem, hg⟩ := (Collector.mem_drain h).mpr ⟨i, hi, hr⟩
    exact (hsize hr).mp (hall r ⟨hmem, hg, ho⟩)
  · rintro hcharged r ⟨hmem, hg, ho⟩
    obtain ⟨i, hi, hr⟩ := (Collector.mem_drain h).mp ⟨hmem, hg⟩
    exact (hsize hr).mpr (hcharged i hi r hr ho)

/-- **The books balance** modulo `2 ^ 64`: the counter and what was ignored, against the clients'
operations and what is still to be subtracted. -/
structure Balanced (s : UserBytes n) : Prop where
  balance : s.userBytesWritten + BitVec.ofNat 64 s.ignored
    = BitVec.ofNat 64 (s.committed.bytes + s.owed)
  ignored_le : s.ignored ≤ s.relocated
  owed_le : s.owed ≤ s.relocated

theorem balanced_open (store : KVStore) : Balanced ({ store := store } : UserBytes n) where
  balance := by
    have howed : ({ store := store } : UserBytes n).owed = 0 :=
      Finset.sum_eq_zero (fun _ _ => rfl)
    rw [howed]
    rfl
  ignored_le := le_refl 0
  owed_le := (Finset.sum_eq_zero (fun _ _ => rfl)).le

/-- **Every step keeps the books balanced.** -/
theorem Balanced.step (h : Balanced s) (hs : s.step env a = some s') : Balanced s' := by
  rcases step_cases hs with ⟨hkept, -, -⟩ | ⟨batch, rs, cs, rfl, hdrain, hcounter, howed,
    hcommitted, hrelocated, hignored⟩ | ⟨i, rfl, hcounter, howed, hcommitted, hrelocated, hignored⟩
  · refine ⟨?_, ?_, ?_⟩
    · rw [hkept.userBytesWritten, hkept.ignored, hkept.committed, hkept.owed]
      exact h.balance
    · rw [hkept.ignored, hkept.relocated]
      exact h.ignored_le
    · rw [hkept.owed, hkept.relocated]
      exact h.owed_le
  · have hadd := congrArg (BitVec.ofNat 64) (userBytes_add env s hdrain)
    have hbalance := h.balance
    have hle := ignoredBytes_le s.store.active rs
    refine ⟨?_, ?_, ?_⟩
    · rw [hcounter, hignored, hcommitted, howed, History.bytes_append]
      simp only [BitVec.ofNat_add] at hadd hbalance ⊢
      linear_combination hbalance + hadd
    · have := h.ignored_le
      omega
    · have := h.owed_le
      omega
  · have hbalance := h.balance
    refine ⟨?_, ?_, ?_⟩
    · rw [hcounter, hignored, hcommitted]
      rw [← howed] at hbalance
      simp only [BitVec.ofNat_add] at hbalance ⊢
      linear_combination hbalance
    · rw [hignored, hrelocated]
      exact h.ignored_le
    · have := h.owed_le
      omega

/-- **The counter is exact** when nothing was ignored and the bytes of all requests can be
counted. -/
theorem Balanced.toNat_eq (h : Balanced s) (hignored : s.ignored = 0)
    (hbytes : s.committed.bytes + s.relocated < 2 ^ 64) :
    s.userBytesWritten.toNat = s.committed.bytes + s.owed := by
  have hbalance := congrArg BitVec.toNat h.balance
  have howed := h.owed_le
  rw [hignored, BitVec.add_zero, BitVec.toNat_ofNat, Nat.mod_eq_of_lt (by omega)] at hbalance
  exact hbalance

/-- The columns of the books that only grow. -/
structure Grows (s s' : UserBytes n) : Prop where
  committed : s.committed.bytes ≤ s'.committed.bytes
  relocated : s.relocated ≤ s'.relocated
  ignored : s.ignored ≤ s'.ignored

theorem Grows.of_step (hs : s.step env a = some s') : Grows s s' := by
  rcases step_cases hs with ⟨hkept, -, -⟩ | ⟨batch, rs, cs, -, -, -, -, hcommitted, hrelocated,
    hignored⟩ | ⟨i, -, -, -, hcommitted, hrelocated, hignored⟩
  · exact ⟨by rw [hkept.committed], hkept.relocated.ge, hkept.ignored.ge⟩
  · refine ⟨?_, by omega, by omega⟩
    rw [hcommitted, History.bytes_append]
    exact Nat.le_add_right _ _
  · exact ⟨by rw [hcommitted], hrelocated.ge, hignored.ge⟩

theorem Grows.of_run (hrun : runSteps (UserBytes.step env) s as = some s') : Grows s s' := by
  have hstep : ∀ t a u, Grows s t → UserBytes.step env t a = some u → Grows s u := by
    intro t a u ht hu
    have hgrows := Grows.of_step hu
    exact ⟨ht.committed.trans hgrows.committed, ht.relocated.trans hgrows.relocated,
      ht.ignored.trans hgrows.ignored⟩
  exact invariant_of_run hstep ⟨le_refl _, le_refl _, le_refl _⟩ hrun

/-- **Every step of a run is charged exactly if the run ignores no bytes.** -/
theorem runOk_charged_iff (hrun : runSteps (UserBytes.step env) s as = some s') :
    RunOk (UserBytes.step env) Charged s as ↔ s'.ignored = s.ignored := by
  induction as generalizing s with
  | nil =>
    cases hrun
    exact iff_of_true trivial rfl
  | cons a as ih =>
    obtain ⟨t, ht, hr⟩ := runSteps_cons.mp hrun
    have hstep : s.Charged a ↔ t.ignored = s.ignored := by
      rcases step_cases ht with ⟨hkept, hcharged, -⟩ | ⟨batch, rs, cs, rfl, hdrain, -, -, -, -,
        hignored⟩ | ⟨i, rfl, -, -, -, -, hignored⟩
      · exact iff_of_true hcharged hkept.ignored
      · rw [← ignoredBytes_eq_zero_iff hdrain, hignored]
        omega
      · exact iff_of_true trivial hignored
    have hrest : (∀ u, s.step env a = some u → RunOk (UserBytes.step env) Charged u as)
        ↔ s'.ignored = t.ignored := by
      rw [← ih hr]
      refine ⟨fun h => h t ht, fun h u hu => ?_⟩
      cases ht.symm.trans hu
      exact h
    have hfirst := (Grows.of_step ht).ignored
    have hlast := (Grows.of_run hr).ignored
    rw [RunOk, hstep, hrest]
    omega

/-- A step from which on nothing is ignored does not wrap. -/
theorem Balanced.not_wraps (h : Balanced s) (hs : s.step env a = some s')
    (hignored : s'.ignored = 0) (hbytes : s'.committed.bytes + s'.relocated < 2 ^ 64) :
    ¬ s.Wraps env a := by
  have hgrows := Grows.of_step hs
  have hcounter := h.toNat_eq (by have := hgrows.ignored; omega)
    (by have := hgrows.committed; have := hgrows.relocated; omega)
  have howed' := (h.step hs).owed_le
  rcases step_cases hs with ⟨-, -, hnot⟩ | ⟨batch, rs, cs, rfl, hdrain, -, howed, hcommitted, -,
    hsum⟩ | ⟨i, rfl, -, howed, -, -, -⟩
  · exact hnot
  · rintro ⟨p, hp, hwraps⟩
    cases hdrain.symm.trans hp
    have hadd := userBytes_add env s hdrain
    rw [hcommitted, History.bytes_append] at hbytes
    dsimp only at hwraps
    omega
  · intro hwraps
    unfold Wraps at hwraps
    dsimp only at hwraps
    omega

/-- **No step of a run that ignores nothing wraps.** -/
theorem Balanced.runOk_not_wraps (h : Balanced s)
    (hrun : runSteps (UserBytes.step env) s as = some s') (hignored : s'.ignored = 0)
    (hbytes : s'.committed.bytes + s'.relocated < 2 ^ 64) :
    RunOk (UserBytes.step env) (fun t a => ¬ t.Wraps env a) s as := by
  induction as generalizing s with
  | nil => trivial
  | cons a as ih =>
    obtain ⟨t, ht, hr⟩ := runSteps_cons.mp hrun
    have hgrows := Grows.of_run hr
    refine ⟨h.not_wraps ht (by have := hgrows.ignored; omega)
      (by have := hgrows.committed; have := hgrows.relocated; omega), fun u hu => ?_⟩
    cases ht.symm.trans hu
    exact ih (h.step ht) hr

/-- **When the count of the clients' bytes is exact.** In every run of clients' puts and deletes,
of any number of garbage collections at a time and of background tasks, on any store: when every
relocation has been answered and subtracted, and the bytes of all requests are less than
`2 ^ 64`, the counter is the bytes of the clients' operations, and has wrapped at no step, exactly
if no step has ignored a relocation of any bytes. -/
theorem exact_iff_charged {store : KVStore} {as : List (ByteAction n)}
    (hrun : runSteps (UserBytes.step env) { store := store } as = some s)
    (hdone : ∀ i, (s.collectors i).answered = none)
    (hbytes : s.committed.bytes + s.relocated < 2 ^ 64) :
    (s.userBytesWritten.toNat = s.committed.bytes
        ∧ RunOk (UserBytes.step env) (fun t a => ¬ t.Wraps env a) { store := store } as)
      ↔ RunOk (UserBytes.step env) Charged { store := store } as := by
  have hopen := balanced_open (n := n) store
  have hbalanced : Balanced s := invariant_of_run (fun _ _ _ => Balanced.step) hopen hrun
  have howed : s.owed = 0 := Finset.sum_eq_zero (fun i _ => by rw [Collector.owes, hdone i]; rfl)
  rw [runOk_charged_iff hrun]
  constructor
  · rintro ⟨hcounter, -⟩
    have hbalance := congrArg BitVec.toNat hbalanced.balance
    have hle := hbalanced.ignored_le
    rw [howed, BitVec.toNat_add, hcounter, BitVec.toNat_ofNat, BitVec.toNat_ofNat] at hbalance
    show s.ignored = 0
    omega
  · intro hignored
    have hexact := hbalanced.toNat_eq hignored hbytes
    rw [howed, Nat.add_zero] at hexact
    exact ⟨hexact, hopen.runOk_not_wraps hrun hignored hbytes⟩

/-- A key is written twice with four bytes and another once, in the next log; then the process
is gone and the store is opened again. -/
def reopened : KVStore :=
  finalState (KVStore.step .small) {}
    [.commit [{ key := [97], value := [1, 1, 1, 1] }, { key := [97], value := [2, 2, 2, 2] }],
      .commit [{ key := [98], value := [3] }], .crash [] 0]

/-- A collection of the first log, during which a client puts the second value's key, or
another. -/
def collection (k : Key) : List (ByteAction 1) :=
  [.gcStart 0, .gcScan 0, .gcScan 0, .gcScan 0, .commit [.client { key := k, value := [4] }],
    .commit [.collector 0], .subtractUserBytes 0, .gcFinish 0]

/-- With another key put, the relocation is charged and taken back. -/
theorem exact_iff_charged_collection :
    let s := finalState (UserBytes.step .small) { store := reopened } (collection [98])
    (runSteps (UserBytes.step .small) { store := reopened } (collection [98])).isSome = true
      ∧ s.relocated = 5
      ∧ (s.userBytesWritten.toNat = s.committed.bytes
        ∧ RunOk (UserBytes.step .small) (fun t a => ¬ t.Wraps .small a) { store := reopened }
          (collection [98])) := by
  intro s
  have hrun : runSteps (UserBytes.step .small) { store := reopened } (collection [98]) = some s :=
    runSteps_eq_finalState (by decide +kernel)
  exact ⟨by decide +kernel, by decide +kernel,
    (exact_iff_charged hrun (by decide +kernel) (by decide +kernel)).mpr (by decide +kernel)⟩

/-- **The counter wraps.** The key of the relocation is put during the collection, with one byte.
The put is counted, the relocation is ignored, and its five bytes are subtracted. -/
theorem wraps_overwritten :
    let s := finalState (UserBytes.step .small) { store := reopened } (collection [97])
    (runSteps (UserBytes.step .small) { store := reopened } (collection [97])).isSome = true
      ∧ (∀ i, s.collectors i = {}) ∧ s.committed = [⟨[97], some [4]⟩] ∧ s.committed.bytes = 2
      ∧ s.userBytesWritten.toNat = 2 ^ 64 - 3 := by
  decide +kernel

end UserBytes
