import ForgeLSM.Bloom
import ForgeLSM.VersionSet
import ForgeLSM.Util.Probe

/-!
# Tables and the search of a version

A table is a non-empty list of entries in strictly ascending key order with
the bloom filter built from their keys. `SSTable` carries all of this, so a
table whose search could miss an entry cannot be built.

A version is searched level by level, and within a level file by file in the
order of its list. `probeFile` is one iteration of the inner loop with its
four ways to go on – the key outside the recorded range, the table not
loaded, the filter ruling the key out, the table not holding it. When the
recorded range takes in the table's keys, the first three are shortcuts:
`Within.probeFile_eq`.
-/

variable {V : Type} {f : FileMetaData}

/-- **A sorted table**: its entries, in strictly ascending key order, and
its filter. -/
structure SSTable (V : Type) where
  contents : OrdMap Key V
  nonempty : contents.entries ≠ []
  bloom : BloomFilter
  /-- The filter admits the table's keys. -/
  bloom_admits : ∀ k ∈ contents.keys, bloom.mayContain k = true

namespace SSTable

/-- **`SSTableWriter::write`**, for entries in order. -/
def write (env : Env) (contents : OrdMap Key V) (nonempty : contents.entries ≠ []) :
    SSTable V where
  contents := contents
  nonempty := nonempty
  bloom := BloomFilter.build env contents.keys
  bloom_admits _ hk := BloomFilter.mayContain_build env hk

section

variable (t : SSTable V)
include t

/-- The first key, which `load` reads from the first block. -/
def minKey : Key := (t.contents.entries.head t.nonempty).1

/-- The last key, which `load` takes from the last index entry. -/
def maxKey : Key := (t.contents.entries.getLast t.nonempty).1

/-- `SSTableReader::overlaps`. -/
def overlaps (lo hi : Key) : Bool :=
  !(decide (t.maxKey < lo) || decide (t.minKey > hi))

/-- **`SSTableReader::get`**: the range check, then the search of the
entries. -/
def get (k : Key) : Option V :=
  if k < t.minKey ∨ k > t.maxKey then none else t.contents.get k

/-- The keys of a table lie between its first and its last. -/
theorem mem_range {e : Key × V} (he : e ∈ t.contents.entries) :
    t.minKey ≤ e.1 ∧ e.1 ≤ t.maxKey := by
  have hle : t.contents.entries.Pairwise (fun a b => a.1 ≤ b.1) := t.contents.sorted.imp le_of_lt
  refine ⟨?_, ?_⟩
  · have hcons : t.contents.entries.head t.nonempty :: t.contents.entries.tail
        = t.contents.entries := List.cons_head_tail t.nonempty
    rw [← hcons] at he hle
    rcases List.mem_cons.mp he with rfl | he
    · exact le_refl _
    · exact (List.pairwise_cons.mp hle).1 e he
  · have happ : t.contents.entries.dropLast ++ [t.contents.entries.getLast t.nonempty]
        = t.contents.entries := List.dropLast_append_getLast t.nonempty
    rw [← happ] at he hle
    rcases List.mem_append.mp he with he | he
    · exact (List.pairwise_append.mp hle).2.2 e he _ (List.mem_singleton.mpr rfl)
    · rw [List.mem_singleton.mp he]
      exact le_refl _

theorem minKey_le_maxKey : t.minKey ≤ t.maxKey :=
  (t.mem_range (List.head_mem t.nonempty)).2

/-- The first key is a key of the table. -/
theorem exists_mem_minKey : ∃ e ∈ t.contents.entries, e.1 = t.minKey :=
  ⟨_, List.head_mem t.nonempty, rfl⟩

/-- The last key is a key of the table. -/
theorem exists_mem_maxKey : ∃ e ∈ t.contents.entries, e.1 = t.maxKey :=
  ⟨_, List.getLast_mem t.nonempty, rfl⟩

theorem range_of_get {k : Key} {v : V} (h : t.contents.get k = some v) :
    t.minKey ≤ k ∧ k ≤ t.maxKey :=
  t.mem_range (t.contents.mem_entries_iff.mpr h)

/-- The range check of `get` is a shortcut. -/
theorem get_eq (k : Key) : t.get k = t.contents.get k := by
  unfold get
  split_ifs with h
  · cases hl : t.contents.get k with
    | none => rfl
    | some v =>
      obtain ⟨hlo, hhi⟩ := t.range_of_get hl
      rcases h with h | h
      · exact absurd hlo (not_le.mpr h)
      · exact absurd hhi (not_le.mpr h)
  · rfl

end

end SSTable

/-! ## Searching a version -/

/-- The tables on disk, by number. -/
abbrev Tables (V : Type) := OrdMap ℕ (SSTable V)

/-- **One iteration of the search of a level**: what the file gives for the
key. -/
def probeFile (env : Env) (tables : Tables V) (k : Key) (f : FileMetaData) : Option V :=
  if k < f.minKey ∨ k > f.maxKey then none
  else match tables.get f.sequence with
    | none => none
    | some t => if !env.disableBloom && !t.bloom.mayContain k then none else t.get k

/-- The search of one level. -/
def lookupLevel (env : Env) (tables : Tables V) (v : Version) (k : Key) (level : Level) :
    Option V :=
  (v.files level).findSome? (probeFile env tables k)

/-- **The level search of `KVStore::get`**: level 0 to 5, the files of a
level in the order of its list, the first hit. -/
def lookupVersion (env : Env) (tables : Tables V) (v : Version) (k : Key) : Option V :=
  (List.finRange maxLevels).findSome? (lookupLevel env tables v k)

/-- The contents of a file, none when its table is not there. -/
def fileContents (tables : Tables V) (f : FileMetaData) : OrdMap Key V :=
  match tables.get f.sequence with
  | none => .empty
  | some t => t.contents

/-- **The record of a file is exact**: its table is there, and its range is
the table's. -/
def Exact (tables : Tables V) (f : FileMetaData) : Prop :=
  ∃ t, tables.get f.sequence = some t ∧ f.minKey = t.minKey ∧ f.maxKey = t.maxKey

variable {tables : Tables V}

theorem fileContents_of_get {t : SSTable V} (h : tables.get f.sequence = some t) :
    fileContents tables f = t.contents := by
  simp [fileContents, h]

/-- **The recorded range takes in the keys of the table**, if it is there. -/
def Within (tables : Tables V) (f : FileMetaData) : Prop :=
  ∀ t, tables.get f.sequence = some t → f.minKey ≤ t.minKey ∧ t.maxKey ≤ f.maxKey

theorem Within.anti {tables tables' : Tables V} (h : Within tables f)
    (hsub : ∀ t, tables'.get f.sequence = some t → tables.get f.sequence = some t) :
    Within tables' f :=
  fun t ht => h t (hsub t ht)

/-- A key of the table passes the range check. -/
theorem Within.mem_range (h : Within tables f) {t : SSTable V} (ht : tables.get f.sequence = some t)
    {k : Key} {v : V} (hk : t.contents.get k = some v) : f.minKey ≤ k ∧ k ≤ f.maxKey := by
  obtain ⟨hmin, hmax⟩ := h t ht
  obtain ⟨hlo, hhi⟩ := t.range_of_get hk
  exact ⟨le_trans hmin hlo, le_trans hhi hmax⟩

/-- **The shortcuts of a search change nothing**: the file gives what its
table holds. -/
theorem Within.probeFile_eq (h : Within tables f) (env : Env) (k : Key) :
    probeFile env tables k f = (fileContents tables f).get k := by
  unfold probeFile fileContents
  cases ht : tables.get f.sequence with
  | none => exact ite_self _
  | some t =>
    dsimp only
    cases hl : t.contents.get k with
    | none => simp only [t.get_eq, hl, ite_self]
    | some v =>
      -- the key is in the table, so it is in range and the filter admits it
      obtain ⟨hlo, hhi⟩ := h.mem_range ht hl
      have hadm : t.bloom.mayContain k = true :=
        t.bloom_admits k (t.contents.mem_keys_iff.mpr ⟨v, hl⟩)
      rw [if_neg (not_or.mpr ⟨not_lt.mpr hlo, not_lt.mpr hhi⟩)]
      simp only [hadm, Bool.not_true, Bool.and_false, t.get_eq, hl]
      rfl

/-- **The filter changes no search**: with and without it a file gives the
same. -/
theorem probeFile_disableBloom (env : Env) (b : Bool) (tables : Tables V) (k : Key)
    (f : FileMetaData) :
    probeFile { env with disableBloom := b } tables k f = probeFile env tables k f := by
  have hplain : ∀ env : Env, probeFile env tables k f
      = if k < f.minKey ∨ k > f.maxKey then none
        else (tables.get f.sequence).bind (fun t => t.get k) := by
    intro env
    unfold probeFile
    cases ht : tables.get f.sequence with
    | none => rfl
    | some t =>
      dsimp only [Option.bind_some]
      cases hadm : t.bloom.mayContain k with
      | true => simp
      | false =>
        have hnone : t.get k = none := by
          rw [t.get_eq, Option.eq_none_iff_forall_ne_some]
          intro v hv
          have hmem := t.bloom_admits k (t.contents.mem_keys_iff.mpr ⟨v, hv⟩)
          rw [hadm] at hmem
          cases hmem
        rw [hnone, ite_self]
  rw [hplain, hplain]

theorem Exact.within (h : Exact tables f) : Within tables f := by
  obtain ⟨t, ht, hmin, hmax⟩ := h
  intro t' ht'
  rw [ht] at ht'
  cases ht'
  exact ⟨hmin.le, hmax.ge⟩

theorem Exact.mem_range (h : Exact tables f) {k : Key} {v : V}
    (hk : (fileContents tables f).get k = some v) : f.minKey ≤ k ∧ k ≤ f.maxKey := by
  obtain ⟨t, ht, hmin, hmax⟩ := h
  rw [fileContents_of_get ht] at hk
  rw [hmin, hmax]
  exact t.range_of_get hk

theorem Exact.minKey_le_maxKey (h : Exact tables f) : f.minKey ≤ f.maxKey := by
  obtain ⟨t, -, hmin, hmax⟩ := h
  rw [hmin, hmax]
  exact t.minKey_le_maxKey

/-- The ends of an exact file are keys of it. -/
theorem Exact.exists_get_ends (hf : Exact tables f) :
    (∃ v, (fileContents tables f).get f.minKey = some v)
      ∧ ∃ v, (fileContents tables f).get f.maxKey = some v := by
  obtain ⟨t, ht, hmin, hmax⟩ := hf
  rw [fileContents_of_get ht, hmin, hmax]
  obtain ⟨e, he, hek⟩ := t.exists_mem_minKey
  obtain ⟨e', he', hek'⟩ := t.exists_mem_maxKey
  rw [← hek, ← hek']
  exact ⟨⟨e.2, t.contents.mem_entries_iff.mp he⟩, ⟨e'.2, t.contents.mem_entries_iff.mp he'⟩⟩

/-- Where every record is exact, a level is searched table by table. -/
theorem lookupLevel_eq (env : Env) {v : Version} {level : Level}
    (h : ∀ f ∈ v.files level, Exact tables f) (k : Key) :
    lookupLevel env tables v k level
      = (v.files level).findSome? (fun f => (fileContents tables f).get k) :=
  findSome?_congr (fun f hf => (h f hf).within.probeFile_eq env k)
