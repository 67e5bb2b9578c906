import ForgeLSM.Layers
import ForgeLSM.Reads

/-!
# Values that wait in a buffer

A put that is not synchronous leaves its value in the buffer of the value log
and its pointer in the memtable. The pointer is right – it leads to the place
the value will have in the file – but `KVStore::get` reads the file, and finds
nothing there until something has the buffer written out: a synchronous
request, the buffer's limit, the rotation of the log.

So with one client a read finds the last operation on its key whatever the sync
flags (`Buffered`), and returns its result exactly when the range of the
pointer it finds is in the file (`OnFile`). What a client sees does depend on
the flags (`get_buffered`).
-/

/-- The range of a pointer is in the file of its log. -/
def Vlogs.OnFile (vl : Vlogs) (p : VLogPointer) : Prop :=
  ∃ log ∈ vl.logs.get p.fileId, p.length = 0 ∨ p.offset + p.length ≤ log.file.length

instance (vl : Vlogs) (p : VLogPointer) : Decidable (vl.OnFile p) :=
  inferInstanceAs (Decidable (∃ log ∈ vl.logs.get p.fileId, _))

namespace KVStore

variable {env : Env} {s s' : KVStore}

/-- What a read of a key finds, if anything, is in the file it is read from. -/
def OnFile (env : Env) (s : KVStore) (k : Key) : Prop :=
  ∀ c ∈ live (s.lookup env k), s.vlogs.OnFile c.ptr

instance (k : Key) : Decidable (s.OnFile env k) :=
  inferInstanceAs (Decidable (∀ c ∈ live (s.lookup env k), _))

/-- **A store whose reads find the last operations**, be their values on disk
or in a buffer. -/
structure Buffered (env : Env) (s : KVStore) : Prop where
  pipeline : Pipeline env s
  pointed : Pointed s
  layers : ∃ b, Layers env s b
  reach : ∀ k c, live (s.lookup env k) = some c →
    ∃ log, s.vlogs.logs.get c.ptr.fileId = some log

namespace Buffered

theorem of_fresh : Buffered env {} where
  pipeline := Pipeline.of_empty Lsm.inv_fresh rfl rfl rfl rfl
  pointed := .of_fresh
  layers := ⟨0, .of_fresh⟩
  reach k c hc := by cases hc

section

variable (h : Buffered env s)
include h

theorem view (k : Key) : (live (s.lookup env k)).map Cell.stamp = s.history.putStamp k := by
  obtain ⟨b, hl⟩ := h.layers
  exact hl.view h.pipeline h.pointed k

/-- **What a read finds leads to the value of the last put.** -/
theorem value_of_lookup {k : Key} {c : Cell} (hc : live (s.lookup env k) = some c) :
    ∃ v log, s.history.value k = some v ∧ s.vlogs.logs.get c.ptr.fileId = some log
      ∧ c.ptr.Holds log.content v := by
  obtain ⟨hlook, htomb⟩ := live_eq_some.mp hc
  obtain ⟨v, hop, -, -, hrec⟩ := (h.pointed.cells.lookup h.pipeline hlook).put htomb
  obtain ⟨log, hlog⟩ := h.reach k c hc
  have hview := h.view k
  rw [hc] at hview
  refine ⟨v, log, ?_, hlog, (hrec log hlog).holds⟩
  rw [History.value, History.lastOp_eq_opAt, History.lastStamp_eq_of_putStamp hview.symm, hop]
  rfl

/-- **What a read returns**: the result of the last operation on the key when
the value is in the file, and nothing when it is in the buffer. -/
theorem get_eq (k : Key) : s.get env k = if s.OnFile env k then s.history.value k else none := by
  cases hc : live (s.lookup env k) with
  | none =>
    have hfile : s.OnFile env k := fun c hc' => by
      rw [hc] at hc'
      cases hc'
    have hview := h.view k
    rw [hc] at hview
    rw [if_pos hfile, History.value_eq_none_of_putStamp hview.symm, KVStore.get, Vlogs.readCell, hc]
    rfl
  | some c =>
    obtain ⟨v, log, hv, hlog, hholds⟩ := h.value_of_lookup hc
    have hfile : s.OnFile env k
        ↔ c.ptr.length = 0 ∨ c.ptr.offset + c.ptr.length ≤ log.file.length := by
      constructor
      · intro hfile
        obtain ⟨log', hlog', hrange⟩ := hfile c hc
        cases hlog.symm.trans hlog'
        exact hrange
      · intro hrange c' hc'
        cases hc.symm.trans hc'
        exact ⟨log, hlog, hrange⟩
    rw [KVStore.get, Vlogs.readCell, hc, Option.bind_some, hlog, Option.bind_some,
      hholds.readAt_content, hv]
    exact if_congr hfile.symm rfl rfl

/-- A value that is not on file is a value. -/
theorem value_ne_none {k : Key} (hk : ¬ s.OnFile env k) : s.history.value k ≠ none := by
  unfold OnFile at hk
  push Not at hk
  obtain ⟨c, hc, -⟩ := hk
  obtain ⟨v, -, hv, -⟩ := h.value_of_lookup hc
  rw [hv]
  exact Option.some_ne_none v

/-! ## Steps -/

theorem commit {batch : List WriteRequest} (hgc : ∀ r ∈ batch, r.isGc = false)
    (hen : s.gcEnabled batch = true) (hfit : RecordsFit batch) :
    Buffered env { s.commit env batch with gc := s.gcAfter batch } := by
  obtain ⟨b, hl⟩ := h.layers
  obtain ⟨-, hplan, happ⟩ := commit_vlogs_appends env h.pointed.vlogs (h.pointed.fits hen hfit)
  refine
    { pipeline := h.pipeline.commit batch
      pointed := h.pointed.commit hen hfit
      layers := ⟨b, hl.commit h.pointed hen (freshRelocations_of_user hgc) _⟩
      reach := fun k c hc => ?_ }
  rcases lookup_commit s batch (s.gcAfter batch) k with ⟨e, he, rfl, hget⟩ | ⟨-, hlook⟩
  · rw [lookup_of_active hget] at hc
    obtain ⟨heq, htomb⟩ := live_eq_some.mp hc
    cases heq
    have hplaced := (plan_spec env h.pointed.vlogs (h.pointed.fits hen hfit)).2.2 e he
    exact (hplaced.1.appends hplan htomb).2
  · rw [hlook] at hc
    obtain ⟨log, hlog⟩ := h.reach k c hc
    exact happ.mem _ log hlog

/-- **Every step without the collector keeps it**, whatever the sync flags. -/
theorem step {a : EngineAction} (ha : a.NoGc) (hfit : FitsStep s a) (hs : s.step env a = some s') :
    Buffered env s' := by
  rcases ha.cases with ⟨batch, rfl, hgc⟩ | ⟨hb, hgc⟩
  · obtain ⟨hen, rfl⟩ := step_commit_cases hs
    exact h.commit hgc hen hfit
  · obtain ⟨hp, hl, hh⟩ := h.pipeline.background hb hs
    obtain ⟨hv, -, -, -⟩ := background_frame hb hgc hs
    refine ⟨hp, h.pointed.background hb hgc hs, ?_, fun k c hc => ?_⟩
    · obtain ⟨b, hlayers⟩ := h.layers
      by_cases hflush : a = .maybeFlush
      · subst hflush
        exact ⟨b, hlayers.maybeFlush h.pipeline hs⟩
      · obtain ⟨hact, b', hadv⟩ := h.pipeline.advances_background hb hflush hs b
        exact ⟨b', hlayers.advance h.pointed hadv hh hact⟩
    · rw [hl] at hc
      rw [hv]
      exact h.reach k c hc

end

end Buffered

/-! ## One client -/

/-- A step of a store with one client: a put or a delete, synchronous or not,
that fits its encoding, or background work other than garbage collection. -/
def AsyncClientStep (_ : KVStore) : EngineAction → Prop
  | .commit [r] => r.isGc = false ∧ (r.isDelete = false → VLog.FitsRecord (r.key, r.value))
  | .commit _ | .crash _ _ | .gcStart | .gcScan | .gcFinish => False
  | _ => True

instance (s : KVStore) (a : EngineAction) : Decidable (AsyncClientStep s a) := by
  apply EngineAction.casesOn (motive := fun a => Decidable (AsyncClientStep s a)) a
  case commit => exact fun
    | [] | _ :: _ :: _ => instDecidableFalse
    | [_] => inferInstanceAs (Decidable (_ ∧ _))
  all_goals intros; unfold AsyncClientStep; infer_instance

theorem AsyncClientStep.noGc {a : EngineAction} (h : AsyncClientStep s a) :
    a.NoGc ∧ FitsStep s a := by
  cases a with
  | commit batch =>
    match batch, h with
    | [r], ⟨hg, hf⟩ =>
      refine ⟨fun q hq => ?_, fun q hq _ hd => ?_⟩
      all_goals obtain rfl := List.mem_singleton.mp hq
      · exact hg
      · exact hf hd
  | crash batch n | gcStart | gcScan | gcFinish => exact h.elim
  | _ => exact ⟨trivial, trivial⟩

/-- **Every run of one client** finds the last operations, and its history is
what the client did. -/
theorem Buffered.run {as : List EngineAction} (h : Buffered env s)
    (hok : RunOk (KVStore.step env) AsyncClientStep s as)
    (hrun : runSteps (KVStore.step env) s as = some s') :
    Buffered env s' ∧ s'.history = s.history ++ clientOps as := by
  refine log_of_runOk (fun t a t' ht ha hstep => ?_) h hok hrun
  obtain ⟨hnogc, hfit⟩ := AsyncClientStep.noGc ha
  refine ⟨ht.step hnogc hfit hstep, history_step ht.pipeline ?_ hstep⟩
  rintro b n rfl
  exact ha

/-- **When the sync flags make no difference to a read.** Take any two runs in
which one client does the same puts and deletes, with whatever sync flags, and
memtables are handed off, flushed and compacted at any points. A read of a key
returns the same in both exactly when what it finds is on file in both or in
neither. -/
theorem get_eq_get_iff_onFile {as bs : List EngineAction} {s t : KVStore}
    (hoka : RunOk (KVStore.step env) AsyncClientStep {} as)
    (hruna : runSteps (KVStore.step env) {} as = some s)
    (hokb : RunOk (KVStore.step env) AsyncClientStep {} bs)
    (hrunb : runSteps (KVStore.step env) {} bs = some t) (hops : clientOps as = clientOps bs)
    (k : Key) : s.get env k = t.get env k ↔ (s.OnFile env k ↔ t.OnFile env k) := by
  obtain ⟨hs, hhs⟩ := Buffered.of_fresh.run hoka hruna
  obtain ⟨ht, hht⟩ := Buffered.of_fresh.run hokb hrunb
  have hh : s.history = t.history := by rw [hhs, hht, hops]
  rw [hs.get_eq k, ht.get_eq k, ← hh]
  by_cases hks : s.OnFile env k <;> by_cases hkt : t.OnFile env k
  · simp [hks, hkt]
  · have hv := ht.value_ne_none hkt
    rw [← hh] at hv
    simp [hks, hkt, hv]
  · have hv := hs.value_ne_none hks
    simp [hks, hkt, Ne.symm hv]
  · simp [hks, hkt]

/-- A put that is not synchronous, and a synchronous one after it. -/
def asyncThenSync : List EngineAction :=
  [.commit [{ key := [97], value := [1], sync := false }], .commit [{ key := [98], value := [2] }]]

/-- The same, both synchronous. -/
def bothSync : List EngineAction :=
  [.commit [{ key := [97], value := [1] }], .commit [{ key := [98], value := [2] }]]

theorem get_eq_get_iff_onFile_asyncThenSync :
    (finalState (KVStore.step .small) {} asyncThenSync).get .small [97] = some [1]
      ∧ (finalState (KVStore.step .small) {} asyncThenSync).get .small [97]
        = (finalState (KVStore.step .small) {} bothSync).get .small [97] :=
  ⟨by decide +kernel,
    (get_eq_get_iff_onFile (by decide +kernel) (runSteps_eq_finalState (by decide +kernel))
      (by decide +kernel) (runSteps_eq_finalState (by decide +kernel)) (by decide +kernel)
      [97]).mpr (by decide +kernel)⟩

/-- **A read depends on the sync flag of the put before it.** The value of a put
that is not synchronous is not found, though its key is in the memtable. -/
theorem get_buffered :
    let put (sync : Bool) : List EngineAction := [.commit [{ key := [97], value := [1], sync }]]
    (finalState (KVStore.step .small) {} (put true)).get .small [97] = some [1]
      ∧ ((finalState (KVStore.step .small) {} (put false)).lookup .small [97]).isSome = true
      ∧ (finalState (KVStore.step .small) {} (put false)).get .small [97] = none := by
  decide +kernel

end KVStore
