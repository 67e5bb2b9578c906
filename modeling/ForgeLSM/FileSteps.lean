import ForgeLSM.Durable
import ForgeLSM.FileStore

/-!
# The steps of the store, in bytes and nodes

Every step of a store that stands for another is a step of the other and leads to
a store that stands for what that one leads to. There is a lemma for each step,
called after it. A step of the collector's or a commit is matched up to the stamps
of the relocations, which the bytes do not have (`restamp`); a round of a
compaction is matched by a table being put out or by nothing.

A recovery starts from the bytes of the segments. What it needs of them is what they
replay to (`Disk`), so that it may be from a segment that was cut anywhere.
-/

namespace FileStore

variable {env : Env} {c c' : FileStore} {s s' : KVStore}

/-! ### A commit -/

/-- The request of a relocation that stands for an operation. -/
def restamp (n : ℕ) (r : WriteRequest) : WriteRequest :=
  { r with gcStamp := if r.isGc then n else r.gcStamp }

theorem place_eq {m : SkipList} {a : Memtable} (h : MemRep m a) (walId : ℕ) (p : Vlogs)
    (n : ℕ) (r : WriteRequest) :
    place env m walId p r = .ok (p.place env a walId (restamp n r)) := by
  have hgone : overwritten m r = .ok (r.isGc && Vlogs.overwritten a (restamp n r)) := by
    unfold overwritten Vlogs.overwritten
    rw [h.find]
    dsimp only [restamp]
    cases r.isGc with
    | false => rfl
    | true => cases a.get r.key <;> rfl
  unfold place Vlogs.place
  rw [hgone]
  by_cases hd : r.isDelete = true
  · exact (if_pos hd).trans (congrArg Except.ok (if_pos hd).symm)
  · refine (if_neg hd).trans (Eq.trans ?_ (congrArg Except.ok (if_neg hd).symm))
    show (if r.isGc && Vlogs.overwritten a (restamp n r) then _ else _)
      = Except.ok (if r.isGc && Vlogs.overwritten a (restamp n r) then _ else _)
    split_ifs <;> rfl

/-- **A batch is placed as it should be.** -/
theorem placeAll_spec {m : SkipList} {a : Memtable} (h : MemRep m a) (walId n : ℕ)
    (batch : List WriteRequest) (p : Vlogs) (i : ℕ) :
    ∃ es, placeAll env m walId p batch
        = .ok ((p.placeAll env a walId i (batch.map (restamp n))).1, es)
      ∧ es.map (fun e => (restamp n e.1, e.2))
        = (p.placeAll env a walId i (batch.map (restamp n))).2.map (fun e => (e.req, e.ptr)) := by
  induction batch generalizing p i with
  | nil => exact ⟨[], rfl, rfl⟩
  | cons r rs ih =>
    obtain ⟨es, hes, hmap⟩ := ih (p.place env a walId (restamp n r)).1
      (if (restamp n r).isGc then i else i + 1)
    refine ⟨((p.place env a walId (restamp n r)).2.toList.map (fun ptr => (r, ptr))) ++ es, ?_, ?_⟩
    · rw [placeAll, place_eq h walId p n r]
      show (placeAll env m walId (p.place env a walId (restamp n r)).1 rs).bind _ = _
      rw [hes, List.map_cons, Vlogs.placeAll]
      cases (p.place env a walId (restamp n r)).2 <;> rfl
    · rw [List.map_append, hmap, List.map_cons, Vlogs.placeAll]
      cases (p.place env a walId (restamp n r)).2 <;> rfl

theorem walCall_entry {e : Entry} (h : e.ptr.Fits) :
    walCall (e.req, e.ptr) = e.walRecord.map WalRecord.call := by
  unfold walCall Entry.walRecord
  dsimp only
  split_ifs
  · rfl
  · rfl
  · simp only [Option.map_some, WalRecord.call, h.held_eq]

/-- **The records of a batch are those it should have.** -/
theorem filterMap_walCall {n : ℕ} {es : List (WriteRequest × VLogPointer)} {es' : List Entry}
    (h : es.map (fun e => (restamp n e.1, e.2)) = es'.map (fun e => (e.req, e.ptr)))
    (hfits : ∀ e ∈ es', e.ptr.Fits) :
    es.filterMap walCall = (es'.filterMap Entry.walRecord).map WalRecord.call :=
  calc es.filterMap walCall
      = (es.map (fun e => (restamp n e.1, e.2))).filterMap walCall := by
        rw [List.filterMap_map]
        rfl
    _ = es'.filterMap (fun e => e.walRecord.map WalRecord.call) := by
        rw [h, List.filterMap_map]
        exact List.filterMap_congr (fun e he => walCall_entry (hfits e he))
    _ = _ := by rw [List.map_filterMap]

theorem map_key_ptr {n : ℕ} {es : List (WriteRequest × VLogPointer)} {es' : List Entry}
    (h : es.map (fun e => (restamp n e.1, e.2)) = es'.map (fun e => (e.req, e.ptr))) :
    es.map (fun e => (e.1.key, e.2)) = es'.map (fun e => (e.req.key, e.ptr)) := by
  have hkeys := congrArg (List.map (fun e : WriteRequest × VLogPointer => (e.1.key, e.2))) h
  rw [List.map_map, List.map_map] at hkeys
  exact hkeys

theorem fits_tombstone {walId : ℕ} (h : walId < 2 ^ 32) : (VLogPointer.tombstone walId).Fits :=
  ⟨h, show uint64Max < 2 ^ 64 by decide, show 0 < 2 ^ 32 by decide⟩

/-- The pointer of a request fits its types, and has the length of the value. -/
theorem fits_of_place {vl : Vlogs} (h : vl.Ok) {act : Memtable} {walId : ℕ} {r : WriteRequest}
    {ptr : VLogPointer} (hptr : (vl.place env act walId r).2 = some ptr) (hwal : walId < 2 ^ 32)
    (hcur : (vl.place env act walId r).1.current < 2 ^ 32) :
    ptr.Fits ∧ (r.isDelete = false → ptr.length = u32 r.value.length) := by
  unfold Vlogs.place at hptr hcur
  by_cases hd : r.isDelete = true
  · rw [if_pos hd] at hptr
    cases hptr
    exact ⟨fits_tombstone hwal, fun hf => by rw [hd] at hf; cases hf⟩
  · rw [if_neg hd] at hptr hcur
    by_cases hg : (r.isGc && Vlogs.overwritten act r) = true
    · rw [if_pos hg] at hptr
      cases hptr
    · rw [if_neg hg] at hptr hcur
      obtain ⟨hroom, -, hoff⟩ := h.room env
      cases hptr
      have hb := hroom.buffer_lt _ _ hroom.log_eq
      have hmax := env.maxFileSize_lt
      have hkey := u32_lt r.key.length
      refine ⟨⟨hcur, ?_, u32_lt r.value.length⟩, fun _ => rfl⟩
      show (vl.room env).log.currentOffset + (vl.room env).log.buffer.length + 8
        + u32 r.key.length < 2 ^ 64
      unfold VLog.bufferLimit at hb
      omega

theorem fits_of_mem_placeAll {vl : Vlogs} (h : vl.Ok) {act : Memtable} {walId i : ℕ}
    {batch : List WriteRequest} (hfit : Vlogs.PutsFit batch)
    (hwal : walId < 2 ^ 32) (hcur : (vl.placeAll env act walId i batch).1.current < 2 ^ 32) :
    ∀ e ∈ (vl.placeAll env act walId i batch).2,
      e.ptr.Fits ∧ (e.req.isDelete = false → e.ptr.length = u32 e.req.value.length) := by
  induction batch generalizing vl i with
  | nil => exact fun e he => by cases he
  | cons r rs ih =>
    obtain ⟨hr, hrs⟩ := List.forall_mem_cons.mp hfit
    obtain ⟨hok, -, -⟩ := h.place env act walId hr
    have hgrow := (hok.placeAll env act walId (if r.isGc then i else i + 1) hrs).2.1.current_le
    rw [Vlogs.placeAll] at hcur ⊢
    cases hptr : (vl.place env act walId r).2 with
    | none =>
      rw [hptr] at hcur
      exact ih hok hrs hcur
    | some ptr =>
      rw [hptr] at hcur
      refine List.forall_mem_cons.mpr ⟨?_, ih hok hrs hcur⟩
      exact fits_of_place h hptr hwal (lt_of_le_of_lt hgrow hcur)

/-- **A batch whose keys and values are not too long.** -/
structure BatchOk (batch : List WriteRequest) : Prop where
  fits : ∀ r ∈ batch, r.isDelete = false → VLog.FitsRecord (r.key, r.value)
  keys : ∀ r ∈ batch, r.key.length < 2 ^ 32
  short : KVStore.WalSuffix.ShortKeys batch

/-- The records of such a batch are sound. -/
theorem BatchOk.sound {batch : List WriteRequest} (hb : BatchOk batch) {es : List Entry}
    (hmem : ∀ e ∈ es, e.req ∈ batch)
    (hes : ∀ e ∈ es, e.ptr.Fits
      ∧ (e.req.isDelete = false → e.ptr.length = u32 e.req.value.length)) :
    ∀ r ∈ es.filterMap Entry.walRecord, r.Sound := by
  intro r hr
  obtain ⟨e, he, hrec⟩ := List.mem_filterMap.mp hr
  unfold Entry.walRecord at hrec
  split_ifs at hrec with hg hd
  · cases hrec
    exact ⟨hb.short _ (hmem e he) (Bool.eq_false_iff.mpr hg), fun p hp => by cases hp⟩
  · cases hrec
    have hd' := Bool.eq_false_iff.mpr hd
    have hfit := hb.fits _ (hmem e he) hd'
    refine ⟨⟨hb.short _ (hmem e he) (Bool.eq_false_iff.mpr hg), VLogPointer.fits_held _, ?_⟩,
      fun p hp => Option.some.inj hp ▸ (hes e he).1⟩
    rw [(hes e he).1.held_eq]
    unfold VLog.FitsRecord at hfit
    dsimp only at hfit
    rw [(hes e he).2 hd', u32_of_lt (by omega)]
    unfold WAL.tombstoneLen
    omega

section

variable (h : Rep env c s)
include h

/-- **The value-log phase of a commit**: what it comes to, and what its records and
its entries are. -/
theorem Rep.plan (hv : s.vlogs.Ok) {batch batch' : List WriteRequest} {n : ℕ}
    (hbatch : batch' = batch.map (restamp n)) (hb : BatchOk batch')
    (hwal : s.wal.current < 2 ^ 32) :
    ∃ es, c.plan env batch = .ok ((s.plan env batch').1, es)
      ∧ es.map (fun e => (e.1.key, e.2))
        = (s.plan env batch').2.map (fun e => (e.req.key, e.ptr))
      ∧ ((s.plan env batch').1.current < 2 ^ 32 → (∀ e ∈ (s.plan env batch').2, e.ptr.Fits)
        ∧ es.filterMap walCall
          = ((s.plan env batch').2.filterMap Entry.walRecord).map WalRecord.call
        ∧ ∀ r ∈ (s.plan env batch').2.filterMap Entry.walRecord, r.Sound) := by
  obtain ⟨es, hes, hmap⟩ := @placeAll_spec env _ _ h.active s.wal.current n batch
    (s.vlogs.startBatch env) s.history.length
  rw [← hbatch] at hmap
  refine ⟨es, ?_, map_key_ptr hmap, fun hcur => ?_⟩
  · unfold FileStore.plan KVStore.plan
    rw [h.wal.current, h.vlogs, hes, hbatch]
  · have hfits := fits_of_mem_placeAll (hv.startBatch env).1 hb.fits hwal hcur
    exact ⟨fun e he => (hfits e he).1, filterMap_walCall hmap (fun e he => (hfits e he).1),
      hb.sound (fun e he => Vlogs.req_mem_of_mem_placeAll he) hfits⟩

/-- **A commit does not fault, and does what it should.** -/
theorem Rep.commit (hv : s.vlogs.Ok) {batch batch' : List WriteRequest} {n : ℕ}
    (hbatch : batch' = batch.map (restamp n)) (hb : BatchOk batch') (hwal : s.wal.current < 2 ^ 32)
    (heights : ℕ → Height) :
    ∃ c', c.commit env batch heights = .ok c'
      ∧ (c'.vlogs.current < 2 ^ 32 → Rep env c' (s.commit env batch')) := by
  obtain ⟨es, hplan, hputs, hspec⟩ := h.plan hv hbatch hb hwal
  have hany : batch'.any WriteRequest.sync = batch.any WriteRequest.sync := by
    rw [hbatch, List.any_map]
    rfl
  obtain ⟨m, hput, hmem⟩ := h.active.putEach (fun e : Entry => e.req.key)
    (fun e => ⟨e.ptr, e.stamp⟩) heights (l := (s.plan env batch').2)
    (fun e he => hb.keys _ (Vlogs.req_mem_of_mem_placeAll he))
  have hcommit : c.commit env batch heights = .ok
      { c with
        vlogs := if batch.any WriteRequest.sync then (s.plan env batch').1.sync
          else (s.plan env batch').1
        wal := if batch.any WriteRequest.sync then (c.wal.append (es.filterMap walCall)).sync
          else c.wal.append (es.filterMap walCall)
        active := m } := by
    unfold FileStore.commit
    rw [hplan]
    show (c.active.putEach heights (es.map (fun e => (e.1.key, e.2)))).bind _ = _
    rw [hputs]
    exact congrArg (fun o => Except.bind o _) hput
  refine ⟨_, hcommit, fun hcur => ?_⟩
  obtain ⟨hfits, hcalls, hsound⟩ := hspec (by dsimp only at hcur; split_ifs at hcur <;> exact hcur)
  have hwal' : WalRep (c.wal.append (es.filterMap walCall)) _ :=
    h.wal.append ⟨by rw [hcalls, List.flatMap_map], hsound⟩
  unfold KVStore.commit KVStore.putAll KVStore.writeLogs
  dsimp only
  rw [hany]
  refine { h with active := hmem hfits, vlogs := rfl, wal := ?_, walIds := fun j t ht => ?_ }
  · dsimp only
    split_ifs
    · exact hwal'.sync
    · exact hwal'
  · refine (h.walIds j t ht).trans (congrArg (· + j) ?_)
    dsimp only
    split_ifs <;> rfl

/-- The relocations of a batch are those the collector has in the queue. -/
theorem Rep.gcEnabled {batch : List WriteRequest} (hen : c.gcEnabled batch = true) :
    ∃ n, s.gcEnabled (batch.map (restamp n)) = true := by
  have hfilter : ∀ n, (batch.map (restamp n)).filter WriteRequest.isGc
      = (batch.filter WriteRequest.isGc).map (restamp n) := by
    intro n
    rw [List.filter_map]
    rfl
  unfold FileStore.gcEnabled at hen
  unfold KVStore.gcEnabled
  split at hen
  · rename_i hnil
    refine ⟨0, ?_⟩
    rw [hfilter, hnil]
    rfl
  · rename_i r hone
    have hpending := of_decide_eq_true hen
    unfold FileStore.gcPending at hpending
    unfold KVStore.gcPending
    rw [h.gc] at hpending
    cases hjob : s.gc with
    | none =>
      rw [hjob] at hpending
      cases hpending
    | some job =>
      rw [hjob] at hpending
      dsimp only [Option.map_some, GcJob.erase] at hpending ⊢
      split_ifs at hpending with hscan
      rw [List.head?_map, Option.map_map] at hpending
      obtain ⟨rec, hrec, rfl⟩ := Option.map_eq_some_iff.mp hpending
      refine ⟨rec.stamp, ?_⟩
      rw [hfilter, hone]
      refine decide_eq_true ?_
      rw [if_neg hscan, hrec]
      rfl
  · cases hen

theorem Rep.gcAfter (batch : List WriteRequest) (n : ℕ) :
    c.gcAfter batch = (s.gcAfter (batch.map (restamp n))).map GcJob.erase := by
  have hany : (batch.map (restamp n)).any WriteRequest.isGc = batch.any WriteRequest.isGc := by
    rw [List.any_map]
    rfl
  unfold FileStore.gcAfter KVStore.gcAfter
  rw [hany, h.gc]
  split_ifs
  · simp [GcJob.erase, Function.comp_def, List.map_tail]
  · rfl

/-! ### The hand-off and the flush of a memtable -/

theorem Rep.maybeFlush : Option.Rel (Rep env) c.maybeFlush s.maybeFlush := by
  have hslot := isSome_of_rel (h.immutables (Ring.slotOf 4 s.currentImmIdx))
  unfold FileStore.maybeFlush KVStore.maybeFlush KVStore.swap
  dsimp only
  rw [h.currentImmIdx, hslot]
  split_ifs
  · exact .none
  · refine .some
      { h with
        active := MemRep.init
        immutables := rel_update h.immutables _ (.some h.active)
        currentImmIdx := rfl
        wal := h.wal.rotate
        flushQueue := List.rel_append h.flushQueue
          (.cons ⟨rfl, h.active⟩ .nil)
        walIds := fun j t ht => ?_ }
    change (s.flushQueue ++ [_])[j]? = some t at ht
    show t.walId + (s.flushQueue ++ [_]).length = s.wal.current + 1 + j
    refine Eq.trans (congrArg (t.walId + ·) List.length_append) ?_
    rw [List.length_singleton]
    rw [List.getElem?_append] at ht
    split_ifs at ht with hj
    · have := h.walIds j t ht
      omega
    · rw [List.getElem?_singleton] at ht
      split_ifs at ht with hlast
      cases ht
      dsimp only
      omega

theorem Rep.flushStart (hk : env.FiltersFit)
    (hsize : ∀ t ∈ c.flushQueue.head?, ∀ es, t.mem.contents = .ok es →
      (SSTableWriter.write env es).length < 2 ^ 32) :
    ∃ o, c.flushStart env = .ok o ∧ Option.Rel (Rep env) o (s.flushStart env) := by
  have hids := h.walIds
  unfold FileStore.flushStart KVStore.flushStart
  rw [h.flushPhase]
  obtain ⟨hq, hq'⟩ | ⟨t, rest, t', rest', hq, hq', ht, hrest⟩ := forall₂_cases h.flushQueue
  · rw [hq, hq']
    exact ⟨none, rfl, .none⟩
  · rw [hq'] at hids ⊢
    rw [hq] at hsize ⊢
    cases s.flushPhase with
    | written | committed => exact ⟨none, rfl, .none⟩
    | queued =>
      have hcontents := ht.mem.contents
      obtain ⟨tree, htree, hrel⟩ := h.tree.flushStart hk ht.mem.fits
        (hsize t rfl _ hcontents)
      refine ⟨tree.map (fun tree => { c with
          tree := tree
          flushQueue := t :: rest
          flushPhase := if tree.flushing.isSome then .written else .committed }), ?_,
        rel_map hrel (fun tree lsm hl => ?_)⟩
      · dsimp only
        rw [hcontents]
        show (c.tree.flushStart env _).bind _ = _
        rw [htree]
        rfl
      · exact
          { h with
            tree := hl
            flushQueue := .cons ht hrest
            flushPhase := by rw [hl.flushing]
            walIds := hids }

theorem Rep.flushCommit : Option.Rel (Rep env) (c.flushCommit env) (s.flushCommit env) := by
  unfold FileStore.flushCommit KVStore.flushCommit
  rw [h.flushPhase]
  cases s.flushPhase with
  | queued | committed => exact .none
  | written =>
    exact rel_map h.tree.flushCommit (fun tree lsm hl => { h with tree := hl, flushPhase := rfl })

theorem Rep.flushClear : Option.Rel (Rep env) c.flushClear s.flushClear := by
  have hids := h.walIds
  unfold FileStore.flushClear KVStore.flushClear
  rw [h.flushPhase]
  obtain ⟨hq, hq'⟩ | ⟨t, rest, t', rest', hq, hq', ht, hrest⟩ := forall₂_cases h.flushQueue
  · rw [hq, hq']
    exact .none
  · rw [hq'] at hids ⊢
    rw [hq]
    cases s.flushPhase with
    | queued | written => exact .none
    | committed =>
      refine .some
        { h with
          immutables := ?_
          flushQueue := hrest
          flushPhase := rfl
          walIds := fun j u hu => ?_ }
      · rw [ht.slot]
        exact rel_update h.immutables _ .none
      · have := hids (j + 1) u hu
        rw [List.length_cons] at this
        show u.walId + rest'.length = s.wal.current + j
        omega

/-! ### Compaction -/

/-- A step of the tree is a step of the store. -/
theorem Rep.withTree {t : FileTree} {lsm : Lsm Cell} (ht : t.Rep env Cell.ptr lsm) :
    Rep env { c with tree := t } { s with lsm := lsm } :=
  { h with tree := ht }

end

theorem isTombstone_cell (cell : Cell) : Payload.isTombstone cell = cell.ptr.isTombstone := rfl

theorem onTreeE_eq {step : FileTree → Except TableError (Option FileTree)} {o : Option FileTree}
    (h : step c.tree = .ok o) : c.onTreeE step = .ok (o.map (fun t => { c with tree := t })) := by
  unfold onTreeE
  rw [h]
  rfl

section

variable (h : Rep env c s)
include h

theorem Rep.compactStart (hk : env.FiltersFit) (hs : Shape s.lsm.tables s.lsm.vs.current) :
    ∃ o, c.onTreeE (FileTree.compactStart env) = .ok o
      ∧ Option.Rel (Rep env) o (s.compact env .compactStart) := by
  obtain ⟨tree, htree, hrel⟩ := h.tree.compactStart hk isTombstone_cell hs
  exact ⟨_, onTreeE_eq htree, rel_map hrel (fun t lsm hl => h.withTree hl)⟩

theorem Rep.compactOutput (Q : StdQueue) :
    ∃ o, c.onTreeE (FileTree.compactOutput env Q) = .ok o ∧ ∀ c', o = some c' → c'.tree.Small →
      Rep env c' s ∨ ∃ s', s.compact env .compactOutput = some s' ∧ Rep env c' s' := by
  obtain ⟨tree, htree, hrel⟩ := h.tree.compactOutput Q
  refine ⟨_, onTreeE_eq htree, fun c' hc' hsmall => ?_⟩
  obtain ⟨t, rfl, rfl⟩ := Option.map_eq_some_iff.mp hc'
  rcases hrel t rfl hsmall with hr | ⟨lsm, hlsm, hr⟩
  · exact Or.inl (h.withTree hr)
  · exact Or.inr ⟨_, congrArg (Option.map _) hlsm, h.withTree hr⟩

theorem Rep.compactCommit (hc : c.onTree (FileTree.compactCommit env) = some c') :
    ∃ s', s.compact env .compactCommit = some s' ∧ Rep env c' s' := by
  obtain ⟨t, ht, rfl⟩ := Option.map_eq_some_iff.mp hc
  obtain ⟨lsm, hlsm, hr⟩ := h.tree.compactCommit ht
  exact ⟨_, congrArg (Option.map _) hlsm, h.withTree hr⟩

theorem Rep.purgeObsoleteFiles :
    Option.Rel (Rep env) (c.onTree FileTree.purgeObsoleteFiles)
      (s.compact env .purgeObsoleteFiles) :=
  rel_map h.tree.purgeObsoleteFiles (fun _ _ hl => h.withTree hl)

/-! ### Segments and value logs removed -/

theorem Rep.walRemove (id : ℕ) : Option.Rel (Rep env) (c.walRemove id) (s.walRemove id) := by
  unfold FileStore.walRemove KVStore.walRemove
  rw [h.wal.removals]
  split_ifs
  · exact .some
      { h with
        wal :=
          { h.wal with
            files := rel_filterKeys h.wal.files _
            removals := rfl } }
  · exact .none

theorem Rep.walRemoveFail (id : ℕ) :
    Option.Rel (Rep env) (c.walRemoveFail id) (s.walRemoveFail id) := by
  unfold FileStore.walRemoveFail KVStore.walRemoveFail
  rw [h.wal.removals]
  split_ifs
  · exact .some { h with wal := { h.wal with removals := rfl } }
  · exact .none

theorem Rep.gcStart : Option.Rel (Rep env) c.gcStart s.gcStart := by
  unfold FileStore.gcStart KVStore.gcStart
  rw [h.gc, Option.isSome_map]
  split_ifs
  · exact .none
  · refine .some { h with gc := ?_ }
    unfold FileStore.gcTarget KVStore.gcTarget
    rw [h.vlogs, Option.map_map]
    rfl

theorem Rep.isLive_eq (hk : env.FiltersFit) (job : GcJob) (r : VRecord) :
    c.isLive env job.erase r = .ok (s.liveAt env job r).isSome := by
  unfold isLive KVStore.liveAt
  rw [h.getPointer_eq hk, KVStore.getPointer]
  cases live (s.lookup env r.1) with
  | none => rfl
  | some cell =>
    show Except.ok (decide _) = _
    rw [Option.filter_some]
    split_ifs with hp
    · exact congrArg Except.ok hp
    · exact congrArg Except.ok (Bool.eq_false_iff.mpr hp)

theorem Rep.gcScan (hk : env.FiltersFit) :
    ∃ o, c.gcScan env = .ok o ∧ Option.Rel (Rep env) o (s.gcScan env) := by
  have hlogs : c.vlogs.logs = s.vlogs.logs := by rw [h.vlogs]
  unfold FileStore.gcScan KVStore.gcScan
  rw [h.gc]
  cases s.gc with
  | none => exact ⟨none, rfl, .none⟩
  | some job =>
    simp only [Option.map_some]
    rw [show job.erase.scanning = job.scanning from rfl]
    by_cases hscan : job.scanning = true
    · rw [if_pos hscan, if_pos hscan, show job.erase.target = job.target from rfl,
        show job.erase.offset = job.offset from rfl, hlogs]
      cases (s.vlogs.logs.get job.target).bind (fun log => log.readNext job.offset) with
      | none =>
        show ∃ o, (if job.totalBytes > 0 ∧ 2 * job.liveBytes > job.totalBytes then _ else _) = _ ∧ _
        dsimp only
        split_ifs
        · exact ⟨_, rfl, .some { h with gc := rfl }⟩
        · exact ⟨_, rfl, .some { h with gc := rfl }⟩
      | some found =>
        obtain ⟨r, next⟩ := found
        dsimp only
        rw [h.isLive_eq hk job]
        cases s.liveAt env job r with
        | none => exact ⟨_, rfl, .some { h with gc := rfl }⟩
        | some cell =>
          refine ⟨_, rfl, .some { h with gc := congrArg some ?_ }⟩
          simp [GcJob.erase]
    · rw [if_neg hscan, if_neg hscan]
      exact ⟨none, rfl, .none⟩

theorem Rep.gcFinish : Option.Rel (Rep env) c.gcFinish s.gcFinish := by
  unfold FileStore.gcFinish KVStore.gcFinish
  rw [h.gc]
  cases s.gc with
  | none => exact .none
  | some job =>
    have hdone : (job.erase.scanning = false ∧ job.erase.live = [])
        ↔ job.scanning = false ∧ job.live = [] := and_congr_right' List.map_eq_nil_iff
    dsimp only [Option.map_some]
    rw [h.vlogs]
    by_cases hd : job.scanning = false ∧ job.live = []
    · rw [if_pos (hdone.mpr hd), if_pos hd]
      exact .some { h with vlogs := rfl, gc := rfl }
    · rw [if_neg (mt hdone.mp hd), if_neg hd]
      exact .none

end

/-! ### Recovery -/

/-- **What a recovery reads.** -/
structure Disk (env : Env) (c : FileStore) (s : KVStore) : Prop where
  tree : c.tree.Rep env Cell.ptr s.lsm
  vlogs : c.vlogs = s.vlogs
  wal : ∀ id, Option.Rel ReplaysTo (c.wal.files.get id) (s.wal.segments.get id)

theorem key_of_sound {r : WalRecord} (h : r.Sound) : r.key.length ≤ KVStore.maxFieldSize := by
  have hcall := h.call
  unfold WalRecord.call at hcall
  split at hcall
  · exact hcall
  · exact hcall.1

theorem fits_replayCell {r : WalRecord} (h : r.Sound) : (KVStore.replayCell r).ptr.Fits := by
  have hfits := h.fits
  unfold KVStore.replayCell
  cases hp : r.pointer with
  | none => exact fits_tombstone (by decide)
  | some p => exact hfits p hp

/-- A record is put back as it was. -/
theorem replayPut_entry {r : WalRecord} (h : r.Sound) :
    replayPut r.call.entry = (r.key, (KVStore.replayCell r).ptr) := by
  have hfits := h.fits
  unfold WalRecord.call KVStore.replayCell
  cases hp : r.pointer with
  | none => rfl
  | some p =>
    dsimp only
    rw [(hfits p hp).held_eq]
    rfl

theorem replay_of_sound {rs : List WalRecord} (h : ∀ r ∈ rs, r.Sound) : KVStore.replay rs = rs :=
  List.takeWhile_eq_self_iff.mpr (fun r hr => decide_eq_true (key_of_sound (h r hr)))

/-- **The segments replay to the records they should.** -/
theorem Disk.replayed_eq (h : Disk env c s) :
    c.wal.replayed env = (KVStore.replayed env s.wal).map (fun r => r.call.entry)
      ∧ ∀ r ∈ KVStore.replayed env s.wal, r.Sound := by
  have hfile : ∀ id,
      ReplaysTo ((c.wal.files.get id).getD []) ((s.wal.segments.get id).getD []) := by
    intro id
    obtain ⟨hc, hs⟩ | ⟨file, rs, hc, hs, hr⟩ := rel_cases (h.wal id) <;> rw [hc, hs]
    · exact ReplaysTo.nil
    · exact hr
  unfold FileWal.replayed KVStore.replayed KVStore.walOrder
  rw [keys_eq_of_rel h.wal, List.map_flatMap]
  refine ⟨congrArg (fun f => List.flatMap f _) (funext (fun id => ?_)), fun r hr => ?_⟩
  · rw [(hfile id).entries, replay_of_sound (hfile id).sound]
  · obtain ⟨id, -, hr⟩ := List.mem_flatMap.mp hr
    rw [replay_of_sound (hfile id).sound] at hr
    exact (hfile id).sound r hr

/-- **A recovery does not fault, and a read afterwards returns what it should.** -/
theorem Disk.recover (h : Disk env c s) (hk : env.FiltersFit)
    (hmanifest : ∀ e ∈ s.lsm.vs.manifest, e.Fits ∧ e.encodeTo.length ≤ maxRecord)
    (heights : ℕ → Height) :
    ∃ c', c.recover env heights = .ok c' ∧ Reads env c' (KVStore.recover env s)
      ∧ ((∀ id, Option.Rel SegmentRep (c.wal.files.get id) (s.wal.segments.get id)) →
        Rep env c' (KVStore.recover env s)) := by
  obtain ⟨hreplayed, hsound⟩ := h.replayed_eq
  obtain ⟨m, hput, hmem⟩ := MemRep.init.putEach WalRecord.key KVStore.replayCell heights
    (fun r hr => (key_of_sound (hsound r hr)).trans_lt (by decide))
  have hputs : (c.wal.replayed env).map replayPut
      = (KVStore.replayed env s.wal).map (fun r => (r.key, (KVStore.replayCell r).ptr)) := by
    rw [hreplayed, List.map_map]
    exact List.map_congr_left (fun r hr => replayPut_entry (hsound r hr))
  have hmax : c.wal.files.maxKey = s.wal.segments.maxKey :=
    congrArg (List.foldl max 0) (keys_eq_of_rel h.wal)
  have hrun : c.recover env heights = .ok (c.reopened env m) := by
    choose o ho using h.tree.reader hk
    unfold FileStore.recover
    rw [collectE_eq (fun seq => (ho seq).1)]
    show (SkipList.init.putEach heights ((c.wal.replayed env).map replayPut)).bind _ = _
    rw [hputs, hput]
    rfl
  have hreads : Reads env (c.reopened env m) (KVStore.recover env s) :=
    { tree := h.tree.recover hmanifest
      active := hmem (fun r hr => fits_replayCell (hsound r hr))
      immutables := fun _ => .none
      currentImmIdx := rfl
      vlogs := by
        unfold reopened
        rw [h.vlogs]
        rfl }
  refine ⟨_, hrun, hreads, fun hfiles => ?_⟩
  have hwal : WalRep (c.reopened env m).wal (KVStore.recover env s).wal := by
    unfold reopened
    dsimp only
    rw [hmax]
    exact ⟨WalRep.openSegment hfiles _, SegmentRep.nil, rfl, rfl⟩
  exact
    { hreads with
      flushQueue := .nil
      flushPhase := rfl
      wal := hwal
      gc := rfl
      walIds := fun j t ht => by cases ht }

/-! ### A kill -/

end FileStore

/-- How many records are whole among the first bytes. -/
def WALCall.whole : ℕ → List WALCall → ℕ
  | _, [] => 0
  | n, c :: calls => if c.bytes.length ≤ n then whole (n - c.bytes.length) calls + 1 else 0

/-- **Of records cut anywhere those that are whole are replayed.** -/
theorem WALCall.entries_replay_take_whole {calls : List WALCall} (h : ∀ c ∈ calls, c.Sound)
    (n : ℕ) :
    (WAL.replay ((calls.flatMap bytes).take n)).entries
      = (calls.take (whole n calls)).map entry := by
  induction calls generalizing n with
  | nil =>
    rw [List.flatMap_nil, List.take_nil]
    rfl
  | cons c calls ih =>
    rw [List.flatMap_cons, List.take_append, whole]
    by_cases hn : c.bytes.length ≤ n
    · rw [if_pos hn, List.take_of_length_le hn,
        WAL.entries_replay_of_entry ((h c List.mem_cons_self).readRecord_bytes _),
        ih (fun d hd => h d (List.mem_cons_of_mem c hd)), List.take_succ_cons, List.map_cons]
    · rw [if_neg hn, show n - c.bytes.length = 0 by omega, List.take_zero, List.append_nil,
        WAL.entries_replay_of_ne (readRecord_bytes_take (by omega))]
      rfl

/-- No bytes stand for no records. -/
theorem SegmentRep.eq_nil {rs : List WalRecord} (h : SegmentRep [] rs) : rs = [] := by
  cases rs with
  | nil => rfl
  | cons r rs =>
    have hbytes : r.call.bytes = [] :=
      (List.append_eq_nil_iff.mp (List.flatMap_cons ▸ h.written.symm)).1
    have hread := (h.sound r List.mem_cons_self).call.readRecord_bytes []
    rw [hbytes] at hread
    cases hread

namespace FileStore

variable {env : Env} {c c' : FileStore} {s s' : KVStore}

/-- The records of a batch. -/
def batchCalls (env : Env) (c : FileStore) (batch : List WriteRequest) : List WALCall :=
  match c.plan env batch with
  | .ok p => p.2.filterMap walCall
  | .error _ => []

/-- How many records of a batch are whole on disk when so many bytes are. -/
def survivors (env : Env) (c : FileStore) (batch : List WriteRequest) (n : ℕ) : ℕ :=
  WALCall.whole n (c.batchCalls env batch)

/-- **The bytes that reach the WAL end with a record.** -/
def CleanCut (env : Env) (c : FileStore) (batch : List WriteRequest) (n : ℕ) : Prop :=
  ((c.batchCalls env batch).flatMap WALCall.bytes).take n
    = ((c.batchCalls env batch).take (c.survivors env batch n)).flatMap WALCall.bytes

instance (batch : List WriteRequest) (n : ℕ) : Decidable (CleanCut env c batch n) :=
  inferInstanceAs (Decidable (_ = _))

/-- **What a kill leaves is what it should**, however many bytes reach the WAL. -/
theorem Rep.kill (h : Rep env c s) (hv : s.vlogs.Ok) {batch batch' : List WriteRequest} {i : ℕ}
    (hbatch : batch' = batch.map (restamp i)) (hb : BatchOk batch')
    (hwal : s.wal.current < 2 ^ 32) (hbuf : c.wal.buffer = [])
    (hcur : (s.plan env batch').1.current < 2 ^ 32) (n : ℕ) :
    ∃ c', c.kill env batch n = .ok c' ∧ Disk env c' (s.kill env batch' (c.survivors env batch n))
      ∧ (CleanCut env c batch n → ∀ id, Option.Rel SegmentRep (c'.wal.files.get id)
        ((s.kill env batch' (c.survivors env batch n)).wal.segments.get id)) := by
  obtain ⟨es, hplan, -, hspec⟩ := h.plan hv hbatch hb hwal
  obtain ⟨-, hcalls, hsound⟩ := hspec hcur
  have hnil : s.wal.buffer = [] := SegmentRep.eq_nil (hbuf ▸ h.wal.buffer)
  have hes : c.batchCalls env batch = es.filterMap walCall := by
    unfold batchCalls
    rw [hplan]
  have hrun : c.kill env batch n = .ok
      { c with
        vlogs := (s.plan env batch').1.sync
        wal := { c.wal with
          files := c.wal.files.insert c.wal.current (c.wal.open_
            ++ ((c.batchCalls env batch).flatMap WALCall.bytes).take n) } } := by
    unfold FileStore.kill
    rw [hplan, hes]
    show Except.ok _ = _
    rw [hbuf]
    rfl
  rw [hes.trans hcalls] at hrun
  unfold CleanCut KVStore.kill survivors
  rw [hes.trans hcalls]
  dsimp only
  rw [hnil, List.nil_append]
  set rs := (s.plan env batch').2.filterMap Entry.walRecord with hrs
  set m := WALCall.whole n (rs.map WalRecord.call) with hm
  have htaken : ∀ r ∈ rs.take m, r.Sound := fun r hr => hsound r (List.mem_of_mem_take hr)
  refine ⟨_, hrun, ⟨h.tree, rfl, fun id => ?_⟩, fun hclean id => ?_⟩
  · dsimp only
    rw [h.wal.current]
    refine rel_insert (fun id => ?_) _ (h.wal.open_.replaysTo ⟨?_, htaken⟩) id
    · obtain ⟨hc, hs⟩ | ⟨file, rs, hc, hs, hr⟩ := rel_cases (h.wal.files id) <;> rw [hc, hs]
      · exact .none
      · have hreplays := hr.replaysTo ReplaysTo.nil
        rw [List.append_nil, List.append_nil] at hreplays
        exact .some hreplays
    · have hcalls := List.forall_mem_map.mpr (fun r hr => (hsound r hr).call)
      rw [WALCall.entries_replay_take_whole hcalls, ← hm, ← List.map_take, List.map_map]
      rfl
  · dsimp only
    rw [h.wal.current]
    refine rel_insert h.wal.files _ (h.wal.open_.append ⟨?_, htaken⟩) id
    rw [hclean, ← List.map_take, List.flatMap_map]

end FileStore
