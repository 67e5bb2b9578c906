import ForgeLSM.Lsm

/-!
# What the tree of tables holds

The tree makes up no entry. Whatever is said of every entry of every memtable
flushed is true of every entry of every table, of what a compaction has still
to write, and so of what a lookup finds (`Lsm.Entries`). And a table that a
flush has written keeps its contents until the flush logs it, whatever a
compaction does in the meantime.
-/

variable {V : Type}

namespace Lsm

/-- **Every entry of the tree satisfies a predicate**: those of the tables on
disk and those a compaction has still to write. -/
structure Entries (P : Key → V → Prop) (s : Lsm V) : Prop where
  tables : ∀ seq t, s.tables.get seq = some t → ∀ k v, t.contents.get k = some v → P k v
  todo : ∀ c ∈ s.job, ∀ chunk ∈ c.todo, ∀ k v, chunk.contents.get k = some v → P k v

variable {P : Key → V → Prop} {env : Env} {s s' : Lsm V}

theorem entries_fresh : Entries P ({} : Lsm V) where
  tables seq t h := by cases h
  todo c hc := by cases hc

theorem Entries.mono {Q : Key → V → Prop} (h : Entries P s) (hpq : ∀ k v, P k v → Q k v) :
    Entries Q s where
  tables seq t ht k v hv := hpq k v (h.tables seq t ht k v hv)
  todo c hc chunk hch k v hv := hpq k v (h.todo c hc chunk hch k v hv)

theorem Entries.of_file (h : Entries P s) {f : FileMetaData} {k : Key} {v : V}
    (hv : (fileContents s.tables f).get k = some v) : P k v := by
  unfold fileContents at hv
  cases ht : s.tables.get f.sequence with
  | none =>
    rw [ht] at hv
    cases hv
  | some t =>
    rw [ht] at hv
    exact h.tables _ t ht k v hv

/-- What a lookup finds is an entry of a table on disk. -/
theorem exists_table_of_lookup {k : Key} {v : V} (hv : s.lookup env k = some v) :
    ∃ seq t, s.tables.get seq = some t ∧ t.contents.get k = some v := by
  obtain ⟨level, -, hl⟩ := List.exists_of_findSome?_eq_some hv
  obtain ⟨f, -, hf⟩ := List.exists_of_findSome?_eq_some hl
  unfold probeFile at hf
  split_ifs at hf
  split at hf
  · cases hf
  · rename_i t ht
    split_ifs at hf
    rw [t.get_eq] at hf
    exact ⟨_, t, ht, hf⟩

/-- **What a lookup finds satisfies the predicate.** -/
theorem Entries.lookup (h : Entries P s) {k : Key} {v : V} (hv : s.lookup env k = some v) :
    P k v := by
  obtain ⟨seq, t, ht, hget⟩ := exists_table_of_lookup hv
  exact h.tables seq t ht k v hget

/-- The tables with one more. -/
theorem Entries.insert_table (h : Entries P s) {seq : ℕ} {t : SSTable V}
    (ht : ∀ k v, t.contents.get k = some v → P k v) :
    ∀ seq' t', (s.tables.insert seq t).get seq' = some t' →
      ∀ k v, t'.contents.get k = some v → P k v := by
  intro seq' t' hget
  rcases OrdMap.get_insert_cases hget with ⟨-, rfl⟩ | ⟨-, hget⟩
  · exact ht
  · exact h.tables seq' t' hget

/-- What a compaction sets out to write comes from its inputs. -/
theorem Entries.start [Payload V] (h : Entries P s) {v : Version} {c : Compaction V}
    (hc : Compaction.start env s.tables v = some c) :
    ∀ chunk ∈ c.todo, ∀ k x, chunk.contents.get k = some x → P k x := by
  intro chunk hch k x hx
  obtain ⟨source, ht, -, rfl⟩ := Compaction.start_cases hc
  have hmem := mem_of_mem_chunks hch (OrdMap.mem_entries_iff _ |>.mpr hx)
  rw [OrdMap.mem_entries_iff, dropTombstones, OrdMap.get_filterValues,
    Option.filter_eq_some_iff, mergeInputs_get_eq_find?] at hmem
  obtain ⟨y, hy, rfl⟩ := Option.map_eq_some_iff.mp hmem.1
  obtain rfl : y.key = k := by simpa using List.find?_some hy
  rcases ((mergeItems_spec _ _ _ _ _).2 y).mp (List.mem_of_find?_eq_some hy)
    with ⟨f, -, hf⟩ | ⟨f, -, hf⟩
  · exact h.of_file (mem_fileItems.mp hf).2.2
  · exact h.of_file (mem_fileItems.mp hf).2.2

/-- **Every step keeps it**, when the memtables flushed satisfy the
predicate. -/
theorem Entries.step [Payload V] {a : LsmAction V} (h : Entries P s)
    (hm : ∀ m, a = .flushStart m → ∀ k v, m.get k = some v → P k v)
    (hs : s.step env a = some s') : Entries P s' := by
  cases a with
  | flushStart m =>
    obtain ⟨-, ⟨-, rfl⟩ | ⟨hne, rfl⟩⟩ := flushStart_cases hs
    · exact ⟨h.tables, h.todo⟩
    · exact ⟨h.insert_table (t := SSTable.write env m hne) (hm m rfl), h.todo⟩
  | flushCommit =>
    obtain ⟨f, -, rfl⟩ := Option.map_eq_some_iff.mp hs
    exact ⟨h.tables, h.todo⟩
  | compactStart =>
    obtain ⟨-, -, rfl⟩ := compactStart_cases hs
    exact ⟨h.tables, fun c hc => h.start hc⟩
  | compactOutput =>
    obtain ⟨c, chunk, todo, hc, htodo, rfl⟩ := compactOutput_cases hs
    have hall := h.todo c hc
    rw [htodo] at hall
    refine ⟨h.insert_table (hall chunk List.mem_cons_self), fun c' hc' => ?_⟩
    cases hc'
    exact fun chunk' hch => hall chunk' (List.mem_cons_of_mem chunk hch)
  | compactCommit =>
    obtain ⟨c, -, -, rfl⟩ := compactCommit_cases hs
    exact ⟨h.tables, fun c' hc' => by cases hc'⟩
  | purgeObsoleteFiles =>
    obtain ⟨snapshot, -, rfl⟩ := Option.map_eq_some_iff.mp hs
    refine ⟨fun seq t ht => ?_, h.todo⟩
    rw [OrdMap.get_filterKeys] at ht
    split_ifs at ht
    exact h.tables seq t ht

/-! ## The table of a flush under way -/

/-- The action is a compaction's. -/
def Compacting : LsmAction V → Prop
  | .flushStart _ | .flushCommit => False
  | _ => True

/-- **A compaction leaves the table of a flush alone.** -/
theorem flushing_step [Payload V] (hi : Inv s) {a : LsmAction V} (ha : Compacting a)
    (hs : s.step env a = some s') : s'.flushing = s.flushing
      ∧ ∀ f ∈ s.flushing, fileContents s'.tables f = fileContents s.tables f := by
  cases a with
  | flushStart m | flushCommit => exact ha.elim
  | compactStart =>
    obtain ⟨-, -, rfl⟩ := compactStart_cases hs
    exact ⟨rfl, fun f _ => rfl⟩
  | compactOutput =>
    obtain ⟨c, chunk, todo, -, -, rfl⟩ := compactOutput_cases hs
    exact ⟨rfl, fun f hf => fileContents_congr (get_insert_next s _ (hi.flush f hf).2.1)⟩
  | compactCommit =>
    obtain ⟨c, -, -, rfl⟩ := compactCommit_cases hs
    exact ⟨rfl, fun f _ => rfl⟩
  | purgeObsoleteFiles =>
    obtain ⟨snapshot, -, rfl⟩ := Option.map_eq_some_iff.mp hs
    refine ⟨rfl, fun f hf => fileContents_congr ?_⟩
    rw [OrdMap.get_filterKeys, if_pos]
    simp [keepsTable, (hi.flush f hf).2.2.1]

end Lsm
