import ForgeLSM.VlogsGrow

/-!
# The stamps of a batch

A batch turns into entries – a request, its pointer, its stamp – of which the
clients' go to the WAL and all go to the memtable. This module says what
stamps they carry: the clients' requests are stamped in their order
(`stamps_walRecords`), every entry stands for the operation with its stamp
(`opAt_of_mem_placeAll`), and what the memtable holds for a key afterwards is
the key's last operation (`lastStamp_of_get_put`).

The last needs the relocations to be *fresh*: one that is not ignored stands
for the last operation on its key at its place in the batch. The commit does
not see to it – it asks the active memtable and compares file ids.
-/

@[simp] theorem userOps_nil : userOps [] = [] := rfl

theorem userOps_cons (r : WriteRequest) (rs : List WriteRequest) :
    userOps (r :: rs) = if r.isGc then userOps rs else r.op :: userOps rs := by
  unfold userOps
  rw [List.filter_cons]
  cases r.isGc <;> rfl

/-- The request relocates an operation of the history. -/
structure WriteRequest.Relocates (r : WriteRequest) (h : History) : Prop where
  put : r.isDelete = false
  opAt : h.opAt r.gcStamp = some r.op

/-- **The relocations of a batch are fresh**: each is ignored, or stands for
the last operation on its key among those committed before the batch and
those ahead of it in the batch. -/
def FreshRelocations (act : Memtable) : History → List WriteRequest → Prop
  | _, [] => True
  | h, r :: rs =>
    (r.isGc = true → Vlogs.overwritten act r = true ∨ h.lastStamp r.key = r.gcStamp)
      ∧ FreshRelocations act (if r.isGc then h else h ++ [r.op]) rs

instance FreshRelocations.decidable (act : Memtable) :
    ∀ h rs, Decidable (FreshRelocations act h rs)
  | _, [] => isTrue trivial
  | h, r :: rs =>
    have := FreshRelocations.decidable act (if r.isGc then h else h ++ [r.op]) rs
    inferInstanceAs (Decidable (_ ∧ _))

variable {batch : List WriteRequest}

theorem freshRelocations_of_user {act : Memtable} {h : History} (hu : ∀ r ∈ batch, r.isGc = false) :
    FreshRelocations act h batch := by
  induction batch generalizing h with
  | nil => trivial
  | cons r rs ih =>
    refine ⟨fun hg => ?_, ih (fun q hq => hu q (List.mem_cons_of_mem r hq))⟩
    rw [hu r List.mem_cons_self] at hg
    cases hg

namespace Vlogs

variable {env : Env} {act : Memtable} {walId : ℕ} {vl : Vlogs} {e : Entry} {r : WriteRequest}

/-- Only a relocation is ignored. -/
theorem place_ne_none (h : (vl.place env act walId r).2 = none) :
    r.isGc = true ∧ Vlogs.overwritten act r = true := by
  unfold Vlogs.place at h
  split_ifs at h with hd hg
  simpa using hg

/-- A relocation that is ignored is one that finds its key overwritten. -/
theorem place_overwritten (hd : r.isDelete = false) (hg : r.isGc = true)
    (ho : Vlogs.overwritten act r = true) : (vl.place env act walId r).2 = none := by
  simp [Vlogs.place, hd, hg, ho]

/-- The clients' requests are stamped one after the other. -/
theorem stamps_walRecords (env : Env) (act : Memtable) (walId : ℕ) (vl : Vlogs) (n : ℕ)
    (batch : List WriteRequest) :
    ((vl.placeAll env act walId n batch).2.filterMap Entry.walRecord).map WalRecord.stamp
      = List.range' (n + 1) (userOps batch).length := by
  induction batch generalizing vl n with
  | nil => rfl
  | cons r rs ih =>
    rw [userOps_cons, Vlogs.placeAll]
    cases hg : r.isGc with
    | true =>
      simp only [if_true]
      split
      · exact ih _ n
      · rw [List.filterMap_cons_none (by simp [Entry.walRecord, hg])]
        exact ih _ n
    | false =>
      simp only [Bool.false_eq_true, if_false]
      split
      · rename_i hnone
        rw [(place_ne_none hnone).1] at hg
        cases hg
      · rename_i ptr _
        rw [List.filterMap_cons_some (f := Entry.walRecord)
          (b := ⟨r.key, if r.isDelete then none else some ptr, n + 1⟩)
          (by simp [Entry.walRecord, hg]),
          List.map_cons, ih _ (n + 1), List.length_cons, List.range'_succ]

/-- **Every entry stands for the operation with its stamp.** -/
theorem opAt_of_mem_placeAll {h : History} (hgc : ∀ r ∈ batch, r.isGc = true → r.Relocates h)
    (he : e ∈ (vl.placeAll env act walId h.length batch).2) :
    (h ++ userOps batch).opAt e.stamp = some e.req.op := by
  induction batch generalizing vl h with
  | nil => cases he
  | cons r rs ih =>
    have hrest : ∀ q ∈ rs, q.isGc = true → q.Relocates h := fun q hq =>
      hgc q (List.mem_cons_of_mem r hq)
    rw [Vlogs.placeAll] at he
    rw [userOps_cons]
    cases hg : r.isGc with
    | true =>
      rw [hg] at he
      simp only [if_true] at he ⊢
      split at he
      · exact ih hrest he
      · rcases List.mem_cons.mp he with rfl | he
        · have hop := (hgc r List.mem_cons_self hg).opAt
          rw [History.opAt_append_left (History.le_length_of_opAt hop)]
          exact hop
        · exact ih hrest he
    | false =>
      rw [hg] at he
      simp only [Bool.false_eq_true, if_false] at he ⊢
      have hlen : h.length + 1 = (h ++ [r.op]).length := by simp
      have hrest' : ∀ q ∈ rs, q.isGc = true → q.Relocates (h ++ [r.op]) := fun q hq hqg => by
        obtain ⟨hput, hop⟩ := hrest q hq hqg
        exact ⟨hput, by rw [History.opAt_append_left (History.le_length_of_opAt hop)]; exact hop⟩
      have happ : h ++ r.op :: userOps rs = h ++ [r.op] ++ userOps rs := by simp
      rw [happ]
      split at he
      · rw [hlen] at he
        exact ih hrest' he
      · rcases List.mem_cons.mp he with rfl | he
        · show (h ++ [r.op] ++ userOps rs).opAt (h.length + 1) = some r.op
          rw [History.opAt_append_left (by simp)]
          exact History.opAt_append_singleton h r.op
        · rw [hlen] at he
          exact ih hrest' he

/-! ## The memtable -/

/-- **What the memtable holds for a key after a batch is the key's last
operation**, if it was so before and the relocations are fresh. -/
theorem lastStamp_of_get_put {h : History} {m : Memtable}
    (hgc : ∀ r ∈ batch, r.isGc = true → r.isDelete = false) (hfresh : FreshRelocations act h batch)
    (hm : ∀ k c, m.get k = some c → c.stamp = h.lastStamp k) {k : Key} {c : Cell}
    (hc : ((vl.placeAll env act walId h.length batch).2.foldl Entry.put m).get k = some c) :
    c.stamp = (h ++ userOps batch).lastStamp k := by
  induction batch generalizing vl h m with
  | nil =>
    rw [userOps_nil, List.append_nil]
    exact hm k c hc
  | cons r rs ih =>
    obtain ⟨hr, hrs⟩ := hfresh
    have hrest : ∀ q ∈ rs, q.isGc = true → q.isDelete = false := fun q hq =>
      hgc q (List.mem_cons_of_mem r hq)
    rw [Vlogs.placeAll] at hc
    rw [userOps_cons]
    cases hg : r.isGc with
    | true =>
      rw [hg] at hc hrs
      simp only [if_true] at hc hrs ⊢
      split at hc
      · exact ih hrest hrs hm hc
      · rename_i ptr hptr
        have hlast : h.lastStamp r.key = r.gcStamp := by
          refine (hr hg).resolve_left (fun ho => ?_)
          rw [place_overwritten (hgc r List.mem_cons_self hg) hg ho] at hptr
          cases hptr
        refine ih hrest hrs (fun k' c' hc' => ?_) hc
        rcases OrdMap.get_insert_cases hc' with ⟨hk, rfl⟩ | ⟨-, hc'⟩
        · rw [hk, hlast]
        · exact hm k' c' hc'
    | false =>
      rw [hg] at hc hrs
      simp only [Bool.false_eq_true, if_false] at hc hrs ⊢
      have hlen : h.length + 1 = (h ++ [r.op]).length := by simp
      rw [show h ++ r.op :: userOps rs = h ++ [r.op] ++ userOps rs by simp]
      split at hc
      · rename_i hnone
        rw [(place_ne_none hnone).1] at hg
        cases hg
      · rw [hlen] at hc
        refine ih hrest hrs (fun k' c' hc' => ?_) hc
        rw [History.lastStamp_append_singleton]
        rcases OrdMap.get_insert_cases hc' with ⟨hk, rfl⟩ | ⟨hk, hc'⟩
        · rw [if_pos (show r.op.key = k' from hk.symm), hlen]
        · rw [if_neg (show r.op.key ≠ k' from Ne.symm hk)]
          exact hm k' c' hc'

/-- A request has an entry, unless it is a relocation that is ignored. -/
theorem exists_entry (env : Env) (act : Memtable) (walId : ℕ) (vl : Vlogs) (n : ℕ)
    (hr : r ∈ batch) :
    (∃ e ∈ (vl.placeAll env act walId n batch).2, e.req = r)
      ∨ r.isGc = true ∧ Vlogs.overwritten act r = true := by
  induction batch generalizing vl n with
  | nil => cases hr
  | cons q rs ih =>
    rw [Vlogs.placeAll]
    rcases List.mem_cons.mp hr with rfl | hr
    · split
      · rename_i hnone
        exact Or.inr (place_ne_none hnone)
      · exact Or.inl ⟨_, List.mem_cons_self, rfl⟩
    · rcases ih (vl.place env act walId q).1 (if q.isGc then n else n + 1) hr
        with ⟨e, he, heq⟩ | hign
      · refine Or.inl ?_
        split
        · exact ⟨e, he, heq⟩
        · exact ⟨e, List.mem_cons_of_mem _ he, heq⟩
      · exact Or.inr hign

/-- **Where an entry comes from**: its request is one of the batch, which was given its pointer
and stamped. -/
theorem placed_of_mem_placeAll {n : ℕ} (he : e ∈ (vl.placeAll env act walId n batch).2) :
    e.req ∈ batch ∧ (∃ p : Vlogs, (p.place env act walId e.req).2 = some e.ptr)
      ∧ ∃ m, e.stamp = if e.req.isGc then e.req.gcStamp else m + 1 := by
  induction batch generalizing vl n with
  | nil => cases he
  | cons r rs ih =>
    have hrest : ∀ {p m}, e ∈ (Vlogs.placeAll env act walId p m rs).2 → e.req ∈ r :: rs
        ∧ (∃ p : Vlogs, (p.place env act walId e.req).2 = some e.ptr)
        ∧ ∃ m, e.stamp = if e.req.isGc then e.req.gcStamp else m + 1 := by
      intro p m he
      exact ⟨List.mem_cons_of_mem r (ih he).1, (ih he).2⟩
    rw [Vlogs.placeAll] at he
    split at he
    · exact hrest he
    · rename_i ptr hptr
      rcases List.mem_cons.mp he with rfl | he
      · exact ⟨List.mem_cons_self, ⟨vl, hptr⟩, n, rfl⟩
      · exact hrest he

/-- The request of an entry is one of the batch. -/
theorem req_mem_of_mem_placeAll {n : ℕ} (he : e ∈ (vl.placeAll env act walId n batch).2) :
    e.req ∈ batch :=
  (placed_of_mem_placeAll he).1

/-- A relocation keeps the stamp of the operation it stands for. -/
theorem stamp_of_isGc {n : ℕ} (he : e ∈ (vl.placeAll env act walId n batch).2)
    (hg : e.req.isGc = true) : e.stamp = e.req.gcStamp := by
  obtain ⟨-, -, m, hstamp⟩ := placed_of_mem_placeAll he
  rw [hstamp, if_pos hg]

/-- A key no entry of a batch is for is on with its last operation. -/
theorem lastStamp_of_not_mem {n : ℕ} {h : History} {k : Key}
    (hk : ∀ e ∈ (vl.placeAll env act walId n batch).2, e.req.key ≠ k) :
    (h ++ userOps batch).lastStamp k = h.lastStamp k := by
  refine History.lastStamp_append_of_ne (fun op hop => ?_)
  obtain ⟨r, hr, rfl⟩ := List.mem_map.mp hop
  obtain ⟨hmem, hg⟩ := List.mem_filter.mp hr
  rcases exists_entry env act walId vl n hmem with ⟨e, he, rfl⟩ | ⟨hgc, -⟩
  · exact hk e he
  · simp [hgc] at hg

/-- **What the memtable holds for a key after a batch**: the last of its
entries for the key, or what it held before. -/
theorem get_foldl_put (es : List Entry) (m : Memtable) (k : Key) :
    (∃ e ∈ es, e.req.key = k ∧ (es.foldl Entry.put m).get k = some ⟨e.ptr, e.stamp⟩)
      ∨ (∀ e ∈ es, e.req.key ≠ k) ∧ (es.foldl Entry.put m).get k = m.get k := by
  induction es generalizing m with
  | nil => exact Or.inr ⟨fun e he => absurd he List.not_mem_nil, rfl⟩
  | cons e es ih =>
    rw [List.foldl_cons]
    rcases ih (Entry.put m e) with ⟨e', he', hk, hget⟩ | ⟨hne, hget⟩
    · exact Or.inl ⟨e', List.mem_cons_of_mem e he', hk, hget⟩
    · rw [hget, Entry.put, OrdMap.get_insert]
      by_cases hk : k = e.req.key
      · rw [if_pos hk]
        exact Or.inl ⟨e, List.mem_cons_self, hk.symm, rfl⟩
      · rw [if_neg hk]
        refine Or.inr ⟨fun e' he' => ?_, rfl⟩
        rcases List.mem_cons.mp he' with rfl | he'
        · exact Ne.symm hk
        · exact hne e' he'

end Vlogs
