import ForgeLSM.Util.Decimal
import ForgeLSM.VersionSet

/-!
# File names and the purge of orphan tables

Tables, WAL segments and value logs are files of one directory, told apart by
their names: a prefix, the file's number in decimal with at least six
digits, a suffix. `recover` walks the directory, takes the number out of
every table's name, and deletes the tables it does not count as active.

The numbers it counts as active are those of levels 0 and 1 (`activeSsts`),
although a version has six levels. So what the walk deletes is exactly the
tables of no file at level 0 or 1 (`mem_purgeOrphans_iff`), and it spares
the tables of the recovered version exactly when no file recorded deeper
depends on it (`purgeOrphans_keeps_recorded_iff`).

The walk does not ask whether there was a version to recover. A MANIFEST that is
there and cannot be opened makes `VersionSet::recover` return false with the empty
version still in place; `KVStore::recover` goes on, and to the walk every table is
an orphan (`recoverDir_unreadable_iff`).
-/

/-- A file name: a byte string. -/
abbrev FileName := List Byte

/-! ## Names -/

/-- `sst_` -/
def sstPrefix : FileName := [115, 115, 116, 95]

/-- `.sst` -/
def sstSuffix : FileName := [46, 115, 115, 116]

/-- The name `sst_%06u.sst`, without the directory. -/
def sstName (seq : ℕ) : FileName := sstPrefix ++ padDecimal 6 seq ++ sstSuffix

/-- `.bin.dead` -/
def deadSuffix : FileName := [46, 98, 105, 110, 46, 100, 101, 97, 100]

/-- Whether a name is a table's, as the directory walks ask. -/
def isSstName (name : FileName) : Bool :=
  decide (name.length > 4) && name.take 4 == sstPrefix
    && name.drop (name.length - 4) == sstSuffix

/-- The number in a table's name, as a `uint32_t`. -/
def sstNumber (name : FileName) : ℕ := strtoul (name.drop 4) % 2 ^ 32

/-! ## The walk -/

/-- The numbers `recover` counts as active: those of levels 0 and 1. -/
def activeSsts (v : Version) : List ℕ :=
  ((v.files 0) ++ (v.files 1)).map FileMetaData.sequence

/-- The names removed when the walk comes to an entry: a table that is not
active, or the marker of a dead value log together with the log itself. -/
def purgeEntry (active : List ℕ) (name : FileName) : List FileName :=
  if isSstName name then
    if sstNumber name ∈ active then [] else [name]
  else if decide (name.length > 9) && name.drop (name.length - 9) == deadSuffix then
    [name.take (name.length - 5), name]
  else []

/-- **The purge of `recover`**: the directory after the walk. -/
def purgeOrphans (v : Version) (dir : List FileName) : List FileName :=
  dir.filter (fun name => !((dir.flatMap (purgeEntry (activeSsts v))).contains name))

/-- A table's name is neither a dead log's marker nor a dead log. -/
theorem not_isSstName_of_dead {name : FileName} (hlen : 9 < name.length)
    (h : name.drop (name.length - 9) = deadSuffix) :
    isSstName name = false ∧ isSstName (name.take (name.length - 5)) = false := by
  obtain ⟨p, rfl⟩ : ∃ p, name = p ++ deadSuffix :=
    ⟨name.take (name.length - 9), by rw [← h, List.take_append_drop]⟩
  have hbin : (p ++ deadSuffix).take ((p ++ deadSuffix).length - 5)
      = p ++ [46, 98, 105, 110] := by
    rw [List.take_append]
    simp [deadSuffix]
  constructor
  · have hd : (p ++ deadSuffix).drop ((p ++ deadSuffix).length - 4) = [100, 101, 97, 100] := by
      rw [List.drop_append]
      simp [deadSuffix]
    rw [isSstName, hd]
    simp [sstSuffix]
  · have hd : (p ++ [46, 98, 105, 110]).drop ((p ++ [46, 98, 105, 110]).length - 4)
        = ([46, 98, 105, 110] : FileName) := by
      simp
    rw [hbin, isSstName, hd]
    simp [sstSuffix]

/-- The walk removes a table exactly when it comes to it and its number is
not active. -/
theorem mem_purgeEntry_iff {active : List ℕ} {name entry : FileName}
    (hname : isSstName name = true) :
    name ∈ purgeEntry active entry ↔ entry = name ∧ sstNumber name ∉ active := by
  unfold purgeEntry
  by_cases hs : isSstName entry = true
  · rw [if_pos hs]
    split_ifs with ha
    · simp only [List.not_mem_nil, false_iff, not_and, not_not]
      rintro rfl
      exact ha
    · rw [List.mem_singleton]
      constructor
      · rintro rfl
        exact ⟨rfl, ha⟩
      · exact fun h => h.1.symm
  · have hne : entry ≠ name := fun h => hs (h ▸ hname)
    rw [if_neg hs]
    split_ifs with hd
    · simp only [Bool.and_eq_true, decide_eq_true_eq, beq_iff_eq] at hd
      obtain ⟨h₁, h₂⟩ := not_isSstName_of_dead hd.1 hd.2
      simp only [List.mem_cons, List.not_mem_nil, or_false, hne, false_and, iff_false, not_or]
      constructor
      · rintro rfl
        rw [h₂] at hname
        cases hname
      · exact fun h => hne h.symm
    · simp [hne]

/-- **What the walk leaves**: of the tables in the directory, the active
ones. -/
theorem mem_purgeOrphans_iff (v : Version) {dir : List FileName} {name : FileName}
    (hname : isSstName name = true) :
    name ∈ purgeOrphans v dir ↔ name ∈ dir ∧ sstNumber name ∈ activeSsts v := by
  unfold purgeOrphans
  rw [List.mem_filter]
  refine and_congr_right (fun hmem => ?_)
  simp only [Bool.not_eq_true', List.contains_eq_mem, decide_eq_false_iff_not, List.mem_flatMap,
    mem_purgeEntry_iff hname]
  constructor
  · intro h
    by_contra hc
    exact h ⟨name, hmem, rfl, hc⟩
  · rintro h ⟨_, _, _, hc⟩
    exact hc h

theorem mem_activeSsts_iff {v : Version} {seq : ℕ} :
    seq ∈ activeSsts v
      ↔ ∃ level : Level, level.val ≤ 1 ∧ ∃ f ∈ v.files level, f.sequence = seq := by
  simp only [activeSsts, List.map_append, List.mem_append, List.mem_map]
  constructor
  · rintro (h | h)
    · exact ⟨0, by decide, h⟩
    · exact ⟨1, by decide, h⟩
  · rintro ⟨level, hl, h⟩
    have : level = 0 ∨ level = 1 := by
      rcases Nat.le_one_iff_eq_zero_or_eq_one.mp hl with h0 | h1
      · exact Or.inl (Fin.ext h0)
      · exact Or.inr (Fin.ext h1)
    rcases this with rfl | rfl
    · exact Or.inl h
    · exact Or.inr h

/-- **When the purge removes only unreferenced tables.** For any bytes of
the MANIFEST and any directory, every table the purge of `recover` deletes
is unrecorded at all six levels of the recovered version exactly when every
table of the directory that is recorded at a level 2 to 5 is recorded at
level 0 or 1 as well. -/
theorem purgeOrphans_keeps_recorded_iff (S : StdSort) (manifest : List Byte)
    (dir : List FileName) :
    (∀ name ∈ dir, isSstName name = true →
        name ∉ purgeOrphans (VersionSet.recover S manifest).current dir →
        ∀ level, ∀ f ∈ (VersionSet.recover S manifest).current.files level,
          f.sequence ≠ sstNumber name)
      ↔ ∀ name ∈ dir, isSstName name = true → ∀ level : Level, 2 ≤ level.val →
        ∀ f ∈ (VersionSet.recover S manifest).current.files level,
          f.sequence = sstNumber name →
          ∃ level' : Level, level'.val ≤ 1
            ∧ ∃ g ∈ (VersionSet.recover S manifest).current.files level',
              g.sequence = sstNumber name := by
  constructor
  · intro h name hmem hname level _ f hf hseq
    by_contra hc
    refine h name hmem hname ?_ level f hf hseq
    rw [mem_purgeOrphans_iff _ hname, mem_activeSsts_iff]
    exact fun hp => hc hp.2
  · intro h name hmem hname hdel level f hf hseq
    refine hdel ((mem_purgeOrphans_iff _ hname).mpr ⟨hmem, mem_activeSsts_iff.mpr ?_⟩)
    by_cases hl : level.val ≤ 1
    · exact ⟨level, hl, f, hf, hseq⟩
    · exact h name hmem hname level (by omega) f hf hseq

/-- The MANIFEST of a database with one table, number 7, at L2. -/
def deepManifest : List Byte :=
  frame ((({} : VersionEdit).addFile 2 7 45 [97] [97]).setNextFileSequence 7)

/-- **A table recorded at L2 is deleted.** -/
theorem purgeOrphans_deepManifest :
    (VersionSet.recover StdSort.insertion deepManifest).current.files 2 = [⟨7, 45, [97], [97]⟩]
      ∧ isSstName (sstName 7) = true ∧ sstNumber (sstName 7) = 7
      ∧ purgeOrphans (VersionSet.recover StdSort.insertion deepManifest).current [sstName 7]
        = [] := by
  decide

/-! ## A MANIFEST that cannot be read -/

/-- What `VersionSet::recover` finds at the path of the MANIFEST. -/
inductive ManifestFile where
  | missing
  /-- The file exists, and opening it for reading fails. -/
  | unreadable
  | readable (bytes : List Byte)
  deriving DecidableEq

/-- `VersionSet::recover` of a version set that was just constructed: what it
returns, and the version set. `opens` is whether the file can be opened for
appending. -/
def VersionSet.recoverFile (S : StdSort) (opens : Bool) : ManifestFile → Bool × VersionSet
  | .missing => (opens, {})
  | .unreadable => (false, {})
  | .readable bytes => (opens, recover S bytes)

/-- **The directory after `KVStore::recover`**, which does not look at what
`VersionSet::recover` returned. Nothing after the walk touches a table. -/
def recoverDir (S : StdSort) (opens : Bool) (manifest : ManifestFile) (dir : List FileName) :
    List FileName :=
  purgeOrphans (VersionSet.recoverFile S opens manifest).2.current dir

/-- **When an unreadable MANIFEST destroys nothing.** `VersionSet::recover` returns
false, and `KVStore::recover` leaves every table in place exactly when the
directory has none. -/
theorem recoverDir_unreadable_iff (S : StdSort) (opens : Bool) (dir : List FileName) :
    (VersionSet.recoverFile S opens .unreadable).1 = false
      ∧ ((∀ name ∈ dir, isSstName name = true → name ∈ recoverDir S opens .unreadable dir)
        ↔ ∀ name ∈ dir, isSstName name = false) := by
  refine ⟨rfl, ⟨fun h name hmem => ?_, fun h name hmem hname => ?_⟩⟩
  · by_contra hc
    have hname : isSstName name = true := by simpa using hc
    obtain ⟨-, hactive⟩ := (mem_purgeOrphans_iff _ hname).mp (h name hmem hname)
    -- the empty version has no file at any level
    obtain ⟨level, -, f, hf, -⟩ := mem_activeSsts_iff.mp hactive
    cases hf
  · rw [h name hmem] at hname
    cases hname

/-- The MANIFEST of a database with one table, number 2, at L0. -/
def oneTableManifest : List Byte :=
  frame ((({} : VersionEdit).addFile 0 2 45 [97] [97]).setNextFileSequence 2)

/-- **A table is destroyed because the MANIFEST could not be opened.** The table
is recorded at L0, and stays when the MANIFEST is read. -/
theorem recoverDir_oneTable :
    recoverDir StdSort.insertion true (.readable oneTableManifest) [sstName 2] = [sstName 2]
      ∧ isSstName (sstName 2) = true
      ∧ recoverDir StdSort.insertion true .unreadable [sstName 2] = [] := by
  decide
