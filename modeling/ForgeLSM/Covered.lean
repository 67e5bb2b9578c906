import ForgeLSM.Pointed

/-!
# What the garbage collector knows of

A log the collector removes must not be one a read leads to. So while it is at
work every key whose pointer leads into its log is either still ahead of its
scan or among the records it has found live (`KVStore.Covered`), and when it is
done with both no read leads there (`Covered.ne_target`).

A record it sends is passed over by the commit only when the active memtable
has the key with a pointer past the log, and then no read of the key leads
there any more.
-/

namespace KVStore

variable {env : Env} {s s' : KVStore} {batch : List WriteRequest}

/-- The active memtable answers first. -/
theorem lookup_of_active {k : Key} {c : Cell} (hc : s.active.get k = some c) :
    s.lookup env k = some c := by
  unfold KVStore.lookup
  rw [findSome?_cons_or, hc]
  rfl

/-- **A lookup after a commit**: the batch's last entry for the key, or what
it was. -/
theorem lookup_commit (s : KVStore) (batch : List WriteRequest) (gc : Option GcJob) (k : Key) :
    (∃ e ∈ (s.plan env batch).2, e.req.key = k
        ∧ ({ s.commit env batch with gc := gc } : KVStore).active.get k = some ⟨e.ptr, e.stamp⟩)
      ∨ (∀ e ∈ (s.plan env batch).2, e.req.key ≠ k)
        ∧ ({ s.commit env batch with gc := gc } : KVStore).lookup env k = s.lookup env k := by
  refine (Vlogs.get_foldl_put (s.plan env batch).2 s.active k).imp id (fun ⟨hne, hget⟩ => ⟨hne, ?_⟩)
  have hactive : ({ s.commit env batch with gc := gc } : KVStore).active.get k
      = s.active.get k := hget
  unfold KVStore.lookup
  rw [findSome?_cons_or, findSome?_cons_or, hactive]
  rfl

/-- A request of the batch for a key none of its entries is for was ignored:
the active memtable held the key, past the log being collected. -/
theorem ignored_of_ne {k : Key} (hne : ∀ e ∈ (s.plan env batch).2, e.req.key ≠ k) {r : WriteRequest}
    (hr : r ∈ batch) (hk : r.key = k) :
    ∃ c, s.lookup env k = some c ∧ r.gcOldVlogId < c.ptr.fileId := by
  rcases Vlogs.exists_entry env s.active s.wal.current (s.vlogs.startBatch env)
    s.history.length hr with ⟨e, he, rfl⟩ | ⟨-, ho⟩
  · exact absurd hk (hne e he)
  · unfold Vlogs.overwritten at ho
    rw [hk] at ho
    split at ho
    · cases ho
    · rename_i c hc
      exact ⟨c, lookup_of_active hc, of_decide_eq_true ho⟩

/-- **The collector knows of every key whose pointer leads into its log.** -/
def Covered (env : Env) (s : KVStore) : Prop :=
  ∀ job ∈ s.gc, ∀ k c, live (s.lookup env k) = some c → c.ptr.fileId = job.target →
    job.scanning = true ∧ job.offset + 8 + k.length ≤ c.ptr.offset ∨ ∃ r ∈ job.live, r.key = k

/-- The collector after a commit: it is where it was, with at most its first
record relocated. -/
theorem gcAfter_cases (hen : s.gcEnabled batch = true) {job : GcJob}
    (hjob : s.gcAfter batch = some job) :
    ∃ job₀, s.gc = some job₀ ∧ job.target = job₀.target ∧ job.scanning = job₀.scanning
      ∧ job.offset = job₀.offset ∧ (∀ r ∈ job.live, r ∈ job₀.live)
      ∧ ∀ r ∈ job₀.live, r ∈ job.live ∨ gcRequest job₀ r ∈ batch := by
  unfold gcAfter at hjob
  split_ifs at hjob with hany
  · obtain ⟨job₀, hjob₀, rfl⟩ := Option.map_eq_some_iff.mp hjob
    obtain ⟨r, hr, hg⟩ := List.any_eq_true.mp hany
    obtain ⟨job₁, rec, rest, hjob₁, -, hrest, rfl⟩ := gcPending_cases (gcPending_of_mem hen hr hg)
    rw [hjob₀] at hjob₁
    cases hjob₁
    refine ⟨job₀, hjob₀, rfl, rfl, rfl, fun r' hr' => List.mem_of_mem_tail hr', fun r' hr' => ?_⟩
    rw [hrest] at hr' ⊢
    rcases List.mem_cons.mp hr' with rfl | hr'
    · exact Or.inr hr
    · exact Or.inl hr'
  · exact ⟨job, hjob, rfl, rfl, rfl, fun r hr => hr, fun r hr => Or.inl hr⟩

namespace Covered

/-- Steps that leave reads and the collector alone. -/
theorem frame (h : Covered env s) (hl : ∀ k, live (s'.lookup env k) = live (s.lookup env k))
    (hg : s'.gc = s.gc) : Covered env s' := by
  intro job hjob k c
  rw [hg] at hjob
  rw [hl]
  exact h job hjob k c

/-- At the start of the scan everything is ahead. -/
theorem gcStart (h : Pointed s) (hp : Pipeline env s) (hs : s.gcStart = some s') :
    Covered env s' := by
  have htarget := (h.gcStart hs).gcTarget
  obtain ⟨-, rfl⟩ := gcStart_cases hs
  intro job hjob k c hk hid
  obtain ⟨hlt, log, -, -, hlog, -⟩ := htarget job hjob
  obtain ⟨id, -, rfl⟩ := Option.map_eq_some_iff.mp hjob
  have hlog' : s.vlogs.logs.get c.ptr.fileId = some log := hid ▸ hlog
  obtain ⟨v, -, pre, post, -, -, hoff, -⟩ := h.recordAt hp hk (hid ▸ hlt) hlog'
  dsimp only at hoff ⊢
  exact Or.inl ⟨rfl, by omega⟩

/-- A key ahead of the scan is at the next record, or past it. -/
theorem ahead (h : Pointed s) (hp : Pipeline env s) {job : GcJob}
    (hlt : job.target < s.vlogs.current) {log : VLog} {pre post : List VRecord}
    (hlog : s.vlogs.logs.get job.target = some log)
    (hfile : log.file = (pre ++ post).flatMap VLog.encodeRecord)
    (hfit : ∀ q ∈ pre ++ post, VLog.FitsRecord q)
    (hoff : job.offset = (pre.flatMap VLog.encodeRecord).length) {k : Key} {c : Cell}
    (hc : live (s.lookup env k) = some c) (hid : c.ptr.fileId = job.target)
    (hle : job.offset + 8 + k.length ≤ c.ptr.offset) :
    ∃ q rest, post = q :: rest ∧ (q.1 = k ∧ s.liveAt env job q = some c
      ∨ ((pre ++ [q]).flatMap VLog.encodeRecord).length + 8 + k.length ≤ c.ptr.offset) := by
  rw [← hid] at hlog hlt
  obtain ⟨v, -, hrec⟩ := h.recordAt hp hc hlt hlog
  rw [hoff] at hle
  obtain ⟨q, rest, hpost, ⟨rfl, hat⟩ | hpast⟩ := hrec.next hfile hfit hle
  · refine ⟨_, rest, hpost, Or.inl ⟨rfl, Option.filter_eq_some_iff.mpr ⟨hc, ?_⟩⟩⟩
    rw [← hoff] at hat
    exact decide_eq_true ⟨hid, hat⟩
  · exact ⟨q, rest, hpost, Or.inr hpast⟩

/-- **A round of the scan misses no key.** -/
theorem gcScan (hcov : Covered env s) (h : Pointed s) (hp : Pipeline env s)
    (hs : s.gcScan env = some s') : Covered env s' := by
  obtain ⟨job, hjob, -, hcase⟩ := gcScan_cases hs
  obtain ⟨hlt, log, pre, post, hlog, hfile, hfit, hoff⟩ := h.gcTarget job hjob
  rcases hcase with ⟨log', r, next, hlog', hread, hcase⟩ | rfl | ⟨hend, rfl⟩
  · rw [hlog] at hlog'
    cases hlog'
    -- a key ahead of the scan stays ahead, or is found live now
    have hahead : ∀ k c, live (s.lookup env k) = some c → c.ptr.fileId = job.target →
        job.offset + 8 + k.length ≤ c.ptr.offset →
        next + 8 + k.length ≤ c.ptr.offset ∨ r.1 = k ∧ s.liveAt env job r = some c := by
      intro k c hc hid hle
      obtain ⟨q, rest, rfl, hq⟩ := ahead h hp hlt hlog hfile hfit hoff hc hid hle
      have hread' := VLog.readNext_records _ _ hfile (hfit q (by simp))
      rw [← hoff, hread] at hread'
      obtain ⟨rfl, rfl⟩ := Prod.mk.inj (Option.some.inj hread')
      exact hq.symm
    rcases hcase with ⟨c₀, hc₀, rfl⟩ | ⟨hnone, rfl⟩
    · intro job' hjob' k c hc hid
      cases hjob'
      rcases hcov job hjob k c hc hid with ⟨hscan, hle⟩ | ⟨r', hr', hk⟩
      · rcases hahead k c hc hid hle with hle | ⟨hk, -⟩
        · exact Or.inl ⟨hscan, hle⟩
        · exact Or.inr ⟨_, List.mem_append_right _ (List.mem_singleton.mpr rfl), hk⟩
      · exact Or.inr ⟨r', List.mem_append_left _ hr', hk⟩
    · intro job' hjob' k c hc hid
      cases hjob'
      rcases hcov job hjob k c hc hid with ⟨hscan, hle⟩ | hlive
      · rcases hahead k c hc hid hle with hle | ⟨-, hsome⟩
        · exact Or.inl ⟨hscan, hle⟩
        · rw [hnone] at hsome
          cases hsome
      · exact Or.inr hlive
  · intro job' hjob'
    cases hjob'
  · intro job' hjob' k c hc hid
    cases hjob'
    rcases hcov job hjob k c hc hid with ⟨-, hle⟩ | hlive
    · -- at the end of the log no key is ahead
      obtain ⟨q, rest, rfl, -⟩ := ahead h hp hlt hlog hfile hfit hoff hc hid hle
      have hread := VLog.readNext_records _ _ hfile (hfit q (by simp))
      rw [hlog, Option.bind_some, hoff, hread] at hend
      cases hend
    · exact Or.inr hlive

/-- **No read leads to a log the collector is done with.** -/
theorem ne_target (hcov : Covered env s) {job : GcJob} (hjob : s.gc = some job)
    (hscan : job.scanning = false) (hlive : job.live = []) {k : Key} {c : Cell}
    (hc : live (s.lookup env k) = some c) : c.ptr.fileId ≠ job.target := by
  intro hid
  rcases hcov job hjob k c hc hid with ⟨htrue, -⟩ | ⟨r, hr, -⟩
  · rw [hscan] at htrue
    cases htrue
  · rw [hlive] at hr
    cases hr

/-- A commit leads no key into the collector's log, and out of it the one it
relocates. -/
theorem commit (hcov : Covered env s) (h : Pointed s) (hen : s.gcEnabled batch = true)
    (hfit : RecordsFit batch) : Covered env { s.commit env batch with gc := s.gcAfter batch } := by
  intro job hjob k c hc hid
  obtain ⟨job₀, hjob₀, htarget, hscan, hoffset, -, hlive⟩ := gcAfter_cases hen hjob
  have hlt := (h.gcTarget job₀ hjob₀).1
  rw [htarget] at hid
  rcases lookup_commit s batch (s.gcAfter batch) k with ⟨e, he, rfl, hget⟩ | ⟨hne, hlook⟩
  · -- what the batch writes is in a newer log
    rw [lookup_of_active hget] at hc
    obtain ⟨heq, htomb⟩ := live_eq_some.mp hc
    cases heq
    have hle := (((plan_spec env h.vlogs (h.fits hen hfit)).2.2 e he).1 htomb).1
    dsimp only at hid
    omega
  · rw [hlook] at hc
    rcases hcov job₀ hjob₀ k c hc hid with ⟨hs, hle⟩ | ⟨r, hr, hk⟩
    · exact Or.inl ⟨hscan.trans hs, by rw [hoffset]; exact hle⟩
    · rcases hlive r hr with hr | hr
      · exact Or.inr ⟨r, hr, hk⟩
      · obtain ⟨c', hc', hold⟩ := ignored_of_ne hne hr hk
        rw [(live_eq_some.mp hc).1] at hc'
        cases hc'
        rw [hid] at hold
        exact absurd hold (lt_irrefl _)

end Covered

end KVStore
