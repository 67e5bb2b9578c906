import ForgeLSM.SSTable
import ForgeLSM.Util.KMerge

/-!
# The choice and the merge of a compaction

`run_compaction` takes a snapshot of the version, picks the level that most
exceeds its limit, takes inputs from it and from the level below, merges
them, and cuts the result into tables for the level below. This module is
the part of it that is a function of the snapshot and the tables: everything
up to the writing of the first output.

The result of the merge is one sorted map (`mergeInputs`), and
`mergeInputs_get` says which: for every key, what the source files give when
searched in their order, and failing that what the target files give. The
heap's three-way comparison – key, then level, then file number, newest
first – is what makes the first item of a key that one.
-/

variable {V : Type} {tables : Tables V} {f : FileMetaData}

/-! ## The source level -/

/-- The bytes of a level, as a `size_t`. -/
def levelSize (v : Version) (level : Level) : ℕ :=
  ((v.files level).map FileMetaData.fileSize).sum % 2 ^ 64

/-- The loop over the levels 1 to 4. The best score so far is kept as the
size and the limit it is the quotient of. -/
def pickLoop (env : Env) (v : Version) :
    List Level → ℕ → Option (Level × ℕ × ℕ) → Option (Level × ℕ × ℕ)
  | [], _, best => best
  | level :: rest, limit, best =>
    let size := levelSize v level
    let better := match best with
      | none => true
      | some b => env.scoring.gt (size, limit) b.2
    pickLoop env v rest (limit * env.opts.levelSizeMultiplier % 2 ^ 64)
      (if env.scoring.geOne size limit && better then some (level, size, limit) else best)

/-- **The level a compaction takes its source from**, if one is due. -/
def pickLevel (env : Env) (v : Version) : Option Level :=
  let l0 := ((v.files 0).length, env.opts.l0Trigger)
  (pickLoop env v [1, 2, 3, 4]
    (env.opts.flushThresholdBytes * env.opts.levelSizeMultiplier % 2 ^ 64)
    (if env.scoring.geOne l0.1 l0.2 then some (0, l0) else none)).map Prod.fst

/-- A level picked by the loop was due before, or is one of those looked at
and holds a file. -/
theorem pickLoop_mem {env : Env} {v : Version} {levels : List Level} {limit : ℕ}
    {best : Option (Level × ℕ × ℕ)} {p : Level × ℕ × ℕ}
    (h : pickLoop env v levels limit best = some p) :
    best = some p ∨ p.1 ∈ levels ∧ v.files p.1 ≠ [] := by
  induction levels generalizing limit best with
  | nil => exact Or.inl h
  | cons level rest ih =>
    rcases ih h with hb | ⟨hmem, hne⟩
    · split_ifs at hb with hc
      · cases hb
        refine Or.inr ⟨List.mem_cons_self, fun hnil => ?_⟩
        -- an empty level scores nothing
        have hz : levelSize v level = 0 := by
          unfold levelSize
          rw [show v.files level = [] from hnil]
          rfl
        simp [hz, env.scoring.geOne_zero] at hc
      · exact Or.inl hb
    · exact Or.inr ⟨List.mem_cons_of_mem level hmem, hne⟩

/-- **The picked level has a file, and a level below it.** -/
theorem pickLevel_spec {env : Env} {v : Version} {level : Level}
    (h : pickLevel env v = some level) : level.val ≤ 4 ∧ v.files level ≠ [] := by
  obtain ⟨p, hp, rfl⟩ := Option.map_eq_some_iff.mp h
  rcases pickLoop_mem hp with hb | ⟨hmem, hne⟩
  · split_ifs at hb with hc
    cases hb
    refine ⟨Nat.zero_le 4, fun hnil => ?_⟩
    have hz : (v.files 0).length = 0 := by
      rw [show v.files 0 = [] from hnil]
      rfl
    simp only [hz, env.scoring.geOne_zero] at hc
    cases hc
  · have hall : ∀ l ∈ ([1, 2, 3, 4] : List Level), l.val ≤ 4 := by decide
    exact ⟨hall p.1 hmem, hne⟩

/-! ## The inputs -/

/-- The source files: all of L0, or the first file of another level. -/
def srcInputs (v : Version) (source : Level) : List FileMetaData :=
  if source = 0 then v.files 0 else (v.files source).take 1

/-- The least key of the source files, starting from `"\xFF"`. -/
def globalMin (src : List FileMetaData) : Key :=
  src.foldl (fun g f => if f.minKey < g then f.minKey else g) [255]

/-- The greatest key of the source files, starting from the empty key. -/
def globalMax (src : List FileMetaData) : Key :=
  src.foldl (fun g f => if f.maxKey > g then f.maxKey else g) []

/-- Whether a file's table loads and overlaps the range. -/
def fileOverlaps (tables : Tables V) (lo hi : Key) (f : FileMetaData) : Bool :=
  match tables.get f.sequence with
  | none => false
  | some t => t.overlaps lo hi

/-- The range a file overlaps or not, in terms of its record. -/
theorem fileOverlaps_iff (hf : Exact tables f) {lo hi : Key} :
    fileOverlaps tables lo hi f = true ↔ lo ≤ f.maxKey ∧ f.minKey ≤ hi := by
  obtain ⟨t, ht, hmin, hmax⟩ := hf
  rw [fileOverlaps, ht, hmin, hmax]
  simp [SSTable.overlaps]

/-- The target files: those of the level below that overlap the source. -/
def targetInputs (tables : Tables V) (v : Version) (target : Level) (src : List FileMetaData) :
    List FileMetaData :=
  (v.files target).filter (fileOverlaps tables (globalMin src) (globalMax src))

/-- The range searched for target files covers every source file. -/
theorem globalMin_le {src : List FileMetaData} (hf : f ∈ src) : globalMin src ≤ f.minKey := by
  refine (OrdMap.foldl_rel (· ≤ ·) (fun g f => ?_) (fun g f => ?_) src [255]).2 f hf
  · split_ifs with h
    · exact le_of_lt h
    · exact le_refl g
  · split_ifs with h
    · exact le_refl _
    · exact not_lt.mp h

theorem le_globalMax {src : List FileMetaData} (hf : f ∈ src) : f.maxKey ≤ globalMax src := by
  refine (OrdMap.foldl_rel (· ≥ ·) (fun g f => ?_) (fun g f => ?_) src []).2 f hf
  · split_ifs with h
    · exact le_of_lt h
    · exact le_refl g
  · split_ifs with h
    · exact le_refl _
    · exact not_lt.mp h

/-! ## The merge -/

/-- What an iterator in the heap shows: an entry, with the level and the
number of the file it comes from. -/
structure MergeItem (V : Type) where
  key : Key
  level : ℕ
  seq : ℕ
  value : V

/-- **The order the heap gives items in**: by key; of one key, the upper
level first; of one level, the newer file first. -/
def MergeItem.le (a b : MergeItem V) : Bool :=
  if a.key ≠ b.key then decide (a.key < b.key)
  else if a.level ≠ b.level then decide (a.level < b.level)
  else decide (b.seq ≤ a.seq)

namespace MergeItem

theorem le_iff {a b : MergeItem V} : a.le b = true
    ↔ a.key < b.key ∨ a.key = b.key ∧ (a.level < b.level ∨ a.level = b.level ∧ b.seq ≤ a.seq) := by
  unfold le
  by_cases hk : a.key = b.key
  · by_cases hl : a.level = b.level
    · simp [hk, hl]
    · simp [hk, hl]
  · simp [hk]

theorem le_total (a b : MergeItem V) : a.le b = true ∨ b.le a = true := by
  rw [le_iff, le_iff]
  rcases lt_trichotomy a.key b.key with h | h | h
  · exact Or.inl (Or.inl h)
  · rcases lt_trichotomy a.level b.level with hl | hl | hl
    · exact Or.inl (Or.inr ⟨h, Or.inl hl⟩)
    · rcases Nat.le_total a.seq b.seq with hs | hs
      · exact Or.inr (Or.inr ⟨h.symm, Or.inr ⟨hl.symm, hs⟩⟩)
      · exact Or.inl (Or.inr ⟨h, Or.inr ⟨hl, hs⟩⟩)
    · exact Or.inr (Or.inr ⟨h.symm, Or.inl hl⟩)
  · exact Or.inr (Or.inl h)

theorem le_trans (a b c : MergeItem V) (hab : a.le b = true) (hbc : b.le c = true) :
    a.le c = true := by
  rw [le_iff] at *
  rcases hab with hab | ⟨hk, hab⟩
  · rcases hbc with hbc | ⟨hk', -⟩
    · exact Or.inl (lt_trans hab hbc)
    · exact Or.inl (hk' ▸ hab)
  · rcases hbc with hbc | ⟨hk', hbc⟩
    · exact Or.inl (hk ▸ hbc)
    · exact Or.inr ⟨hk.trans hk', by omega⟩

theorem key_le_of_le {a b : MergeItem V} (h : a.le b = true) : a.key ≤ b.key := by
  rcases le_iff.mp h with h | ⟨h, -⟩
  · exact le_of_lt h
  · exact le_of_eq h

end MergeItem

/-- The items of one file, in order. -/
def fileItems (tables : Tables V) (level : ℕ) (f : FileMetaData) : List (MergeItem V) :=
  (fileContents tables f).entries.map (fun e => ⟨e.1, level, f.sequence, e.2⟩)

/-- The iterators in the heap at the start: one per input that loads. -/
def mergeIters (tables : Tables V) (source target : ℕ) (src tgt : List FileMetaData) :
    List (List (MergeItem V)) :=
  tgt.map (fileItems tables target) ++ src.map (fileItems tables source)

/-- The items in the order the heap gives them. -/
def mergeItems (tables : Tables V) (source target : ℕ) (src tgt : List FileMetaData) :
    List (MergeItem V) :=
  drain MergeItem.le (mergeIters tables source target src tgt).flatten.length
    (mergeIters tables source target src tgt)

theorem mem_fileItems {level : ℕ} {x : MergeItem V} :
    x ∈ fileItems tables level f ↔ x.level = level ∧ x.seq = f.sequence
      ∧ (fileContents tables f).get x.key = some x.value := by
  unfold fileItems
  simp only [List.mem_map, Prod.exists, OrdMap.mem_entries_iff]
  constructor
  · rintro ⟨k, v, hg, rfl⟩
    exact ⟨rfl, rfl, hg⟩
  · rintro ⟨rfl, hs, hg⟩
    exact ⟨x.key, x.value, hg, by rw [← hs]⟩

theorem fileItems_sorted (tables : Tables V) (level : ℕ) (f : FileMetaData) :
    (fileItems tables level f).Pairwise (fun a b => a.le b = true) :=
  List.pairwise_map.mpr ((fileContents tables f).sorted.imp
    (fun h => MergeItem.le_iff.mpr (Or.inl h)))

/-- **What the heap gives**: the items of the source files and of the target
files, in the heap's order. -/
theorem mergeItems_spec (tables : Tables V) (source target : ℕ) (src tgt : List FileMetaData) :
    (mergeItems tables source target src tgt).Pairwise (fun a b => a.le b = true)
      ∧ ∀ x, x ∈ mergeItems tables source target src tgt
        ↔ (∃ f ∈ src, x ∈ fileItems tables source f)
          ∨ ∃ f ∈ tgt, x ∈ fileItems tables target f := by
  have hs : ∀ it ∈ mergeIters tables source target src tgt,
      it.Pairwise (fun a b => a.le b = true) := by
    intro it hit
    rcases List.mem_append.mp hit with hit | hit
    · obtain ⟨f, -, rfl⟩ := List.mem_map.mp hit
      exact fileItems_sorted tables target f
    · obtain ⟨f, -, rfl⟩ := List.mem_map.mp hit
      exact fileItems_sorted tables source f
  refine ⟨(drain_sorted MergeItem.le_total MergeItem.le_trans _ hs).1, fun x => ?_⟩
  unfold mergeItems
  rw [(drain_perm MergeItem.le (le_refl _)).mem_iff, mergeIters, List.flatten_append,
    List.mem_append, or_comm]
  simp [List.mem_flatten]

/-- **The merged entries**: of every key the first item, with `last_key`
telling repeats. -/
def mergeInputs (tables : Tables V) (source target : ℕ) (src tgt : List FileMetaData) :
    OrdMap Key V where
  entries := (dedupKey MergeItem.key none (mergeItems tables source target src tgt)).map
    (fun x => (x.key, x.value))
  sorted := by
    have hs := (mergeItems_spec tables source target src tgt).1.imp MergeItem.key_le_of_le
    exact List.pairwise_map.mpr (dedupKey_sorted hs (fun k hk => by cases hk)).1

/-- A lookup in the merged entries is a search for the key's first item. -/
theorem mergeInputs_get_eq_find? (tables : Tables V) (source target : ℕ)
    (src tgt : List FileMetaData) (k : Key) :
    (mergeInputs tables source target src tgt).get k
      = ((mergeItems tables source target src tgt).find?
          (fun x => decide (x.key = k))).map MergeItem.value := by
  rw [← find?_dedupKey MergeItem.key none _ (by simp)]
  exact lookup_map_eq_find? MergeItem.key MergeItem.value _ (fun x => decide_eq_true_iff)

/-- **The merge answers as its inputs do, newest first**: the source files
in their order, then the target files. -/
theorem mergeInputs_get {source target : ℕ} {src tgt : List FileMetaData} (hlt : source < target)
    (hsrc : src.Pairwise (fun a b => b.sequence < a.sequence)) {k : Key}
    (htgt : Exclusive (fun f => (fileContents tables f).get k) tgt) :
    (mergeInputs tables source target src tgt).get k
      = (src.findSome? (fun f => (fileContents tables f).get k)).or
        (tgt.findSome? (fun f => (fileContents tables f).get k)) := by
  obtain ⟨hsorted, hmem⟩ := mergeItems_spec tables source target src tgt
  rw [mergeInputs_get_eq_find?]
  cases hx : (mergeItems tables source target src tgt).find? (fun x => decide (x.key = k)) with
  | none =>
    -- an input that had the key would have put an item of it in the heap
    have hmiss : ∀ x ∈ mergeItems tables source target src tgt, x.key ≠ k := fun x hin hk =>
      List.find?_eq_none.mp hx x hin (decide_eq_true hk)
    have hs : src.findSome? (fun f => (fileContents tables f).get k) = none := by
      refine findSome?_eq_none (fun f hf => Option.eq_none_iff_forall_ne_some.mpr (fun v hg => ?_))
      exact hmiss ⟨k, source, f.sequence, v⟩
        ((hmem _).mpr (Or.inl ⟨f, hf, mem_fileItems.mpr ⟨rfl, rfl, hg⟩⟩)) rfl
    have ht : tgt.findSome? (fun f => (fileContents tables f).get k) = none := by
      refine findSome?_eq_none (fun f hf => Option.eq_none_iff_forall_ne_some.mpr (fun v hg => ?_))
      exact hmiss ⟨k, target, f.sequence, v⟩
        ((hmem _).mpr (Or.inr ⟨f, hf, mem_fileItems.mpr ⟨rfl, rfl, hg⟩⟩)) rfl
    rw [hs, ht]
    rfl
  | some x =>
    have hxk : x.key = k := by simpa using List.find?_some hx
    have hxmem : x ∈ mergeItems tables source target src tgt := List.mem_of_find?_eq_some hx
    cases hsv : src.findSome? (fun f => (fileContents tables f).get k) with
    | some v =>
      -- the first source file with the key gives the least item of the key
      obtain ⟨l₁, f, l₂, rfl, hv, hbefore⟩ := List.findSome?_eq_some_iff.mp hsv
      have hy : (⟨k, source, f.sequence, v⟩ : MergeItem V) ∈
          mergeItems tables source target (l₁ ++ f :: l₂) tgt :=
        (hmem _).mpr (Or.inl ⟨f, by simp, mem_fileItems.mpr ⟨rfl, rfl, hv⟩⟩)
      have hle := le_of_find?_sorted (fun a => (MergeItem.le_total a a).elim id id) hsorted hx hy
        (decide_eq_true rfl)
      have hle' := MergeItem.le_iff.mp hle
      simp only [hxk, lt_irrefl, false_or, true_and] at hle'
      rcases (hmem x).mp hxmem with ⟨g, hg, hxg⟩ | ⟨g, hg, hxg⟩
      · obtain ⟨hlev, hseq, hval⟩ := mem_fileItems.mp hxg
        rw [hxk] at hval
        have hfg : f.sequence ≤ g.sequence := by omega
        rcases List.mem_append.mp hg with hg | hg
        · rw [hbefore g hg] at hval
          cases hval
        · rcases List.mem_cons.mp hg with rfl | hg
          · rw [hv] at hval
            rw [Option.map_some, Option.some_or, hval]
          · have hdesc := (List.pairwise_cons.mp (List.pairwise_append.mp hsrc).2.1).1 g hg
            omega
      · obtain ⟨hlev, -, -⟩ := mem_fileItems.mp hxg
        omega
    | none =>
      -- no source file has the key, so the item is a target file's
      rcases (hmem x).mp hxmem with ⟨g, hg, hxg⟩ | ⟨g, hg, hxg⟩
      · obtain ⟨-, -, hval⟩ := mem_fileItems.mp hxg
        rw [hxk, List.findSome?_eq_none_iff.mp hsv g hg] at hval
        cases hval
      · obtain ⟨-, -, hval⟩ := mem_fileItems.mp hxg
        rw [hxk] at hval
        rw [Option.none_or, findSome?_eq_of_mem htgt hg hval, Option.map_some]

/-! ## The outputs -/

/-- The entries of one output table, and their estimated size. -/
structure Chunk (V : Type) where
  contents : OrdMap Key V
  nonempty : contents.entries ≠ []
  size : ℕ

/-- The loop that cuts the merged entries: an entry goes into the current
chunk, and a chunk that has reached the limit is written out. -/
def chunkLoop (limit : ℕ) :
    List (Key × V) → ℕ → List (Key × V) → List (List (Key × V) × ℕ)
  | chunk, size, [] => if chunk.isEmpty then [] else [(chunk, size)]
  | chunk, size, e :: es =>
    if size + e.1.length + 20 ≥ limit then
      (chunk ++ [e], size + e.1.length + 20) :: chunkLoop limit [] 0 es
    else chunkLoop limit (chunk ++ [e]) (size + e.1.length + 20) es

/-- The chunks are the entries in order, and none of them is empty. -/
theorem chunkLoop_spec (limit : ℕ) (chunk : List (Key × V)) (size : ℕ) (es : List (Key × V)) :
    ((chunkLoop limit chunk size es).map Prod.fst).flatten = chunk ++ es
      ∧ ∀ c ∈ chunkLoop limit chunk size es, c.1 ≠ [] := by
  induction es generalizing chunk size with
  | nil =>
    rw [chunkLoop]
    cases chunk with
    | nil => simp
    | cons e es => simp
  | cons e es ih =>
    rw [chunkLoop]
    split_ifs with h
    · obtain ⟨hf, hne⟩ := ih [] 0
      refine ⟨by simp [hf], fun c hc => ?_⟩
      rcases List.mem_cons.mp hc with rfl | hc
      · simp
      · exact hne c hc
    · obtain ⟨hf, hne⟩ := ih (chunk ++ [e]) (size + e.1.length + 20)
      exact ⟨by simp [hf], hne⟩

/-- A chunk of entries in order is in order, and not empty. -/
theorem chunkLoop_ok (limit : ℕ) (m : OrdMap Key V) :
    ∀ c ∈ chunkLoop limit [] 0 m.entries, c.1.Pairwise (fun a b => a.1 < b.1) ∧ c.1 ≠ [] := by
  intro c hc
  obtain ⟨hf, hne⟩ := chunkLoop_spec limit [] 0 m.entries
  refine ⟨?_, hne c hc⟩
  have hs := m.sorted
  rw [List.nil_append] at hf
  rw [← hf] at hs
  exact (List.pairwise_flatten.mp hs).1 c.1 (List.mem_map_of_mem hc)

/-- **The outputs of a merge**, in order. -/
def chunks (limit : ℕ) (m : OrdMap Key V) : List (Chunk V) :=
  (chunkLoop limit [] 0 m.entries).pmap (fun c h => ⟨⟨c.1, h.1⟩, h.2, c.2⟩) (chunkLoop_ok limit m)

theorem flatten_chunks (limit : ℕ) (m : OrdMap Key V) :
    ((chunks limit m).map (fun c => c.contents.entries)).flatten = m.entries := by
  unfold chunks
  rw [List.map_pmap, List.pmap_eq_map, (chunkLoop_spec limit [] 0 m.entries).1]
  rfl

/-- **Cutting loses no entry**: the chunks answer as the whole. -/
theorem chunks_get (limit : ℕ) (m : OrdMap Key V) (k : Key) :
    (chunks limit m).findSome? (fun c => c.contents.get k) = m.get k := by
  unfold OrdMap.get
  rw [← flatten_chunks limit m, lookup_flatten, List.findSome?_map]
  rfl

/-- **The chunks follow one another in key order.** -/
theorem chunks_sorted (limit : ℕ) (m : OrdMap Key V) :
    (chunks limit m).Pairwise (fun a b =>
      ∀ x ∈ a.contents.entries, ∀ y ∈ b.contents.entries, x.1 < y.1) := by
  have hs := m.sorted
  rw [← flatten_chunks limit m] at hs
  exact List.pairwise_map.mp (List.pairwise_flatten.mp hs).2

/-- An entry of a chunk is an entry of the whole. -/
theorem mem_of_mem_chunks {limit : ℕ} {m : OrdMap Key V} {c : Chunk V} (hc : c ∈ chunks limit m)
    {e : Key × V} (he : e ∈ c.contents.entries) : e ∈ m.entries := by
  rw [← flatten_chunks limit m]
  exact List.mem_flatten.mpr ⟨_, List.mem_map_of_mem hc, he⟩

/-! ## The job -/

/-- A compaction that has chosen its inputs and merged them, and has still
to write some of its outputs. -/
structure Compaction (V : Type) where
  /-- The version the inputs were chosen from. -/
  snapshot : Version
  source : Level
  target : Level
  src : List FileMetaData
  tgt : List FileMetaData
  /-- The outputs still to write. -/
  todo : List (Chunk V)
  /-- The outputs written. -/
  outputs : List FileMetaData

/-- Tombstones are dropped when the target is the last level. -/
def dropTombstones [Payload V] (target : Level) (m : OrdMap Key V) : OrdMap Key V :=
  m.filterValues (fun v => !(Payload.isTombstone v && decide (target.val = maxLevels - 1)))

/-- **The start of `run_compaction`**: nothing when no level is due. -/
def Compaction.start [Payload V] (env : Env) (tables : Tables V) (v : Version) :
    Option (Compaction V) :=
  match pickLevel env v with
  | none => none
  | some source =>
    if h : source.val + 1 < maxLevels then
      let target : Level := ⟨source.val + 1, h⟩
      let src := srcInputs v source
      let tgt := targetInputs tables v target src
      some
        { snapshot := v, source := source, target := target, src := src, tgt := tgt, outputs := [],
          todo := chunks env.opts.flushThresholdBytes
            (dropTombstones target (mergeInputs tables source.val target.val src tgt)) }
    else none

/-- What a compaction that starts has chosen. -/
theorem Compaction.start_cases [Payload V] {env : Env} {v : Version} {c : Compaction V}
    (hc : Compaction.start env tables v = some c) :
    ∃ source, ∃ h : source.val + 1 < maxLevels, pickLevel env v = some source ∧ c =
      { snapshot := v, source := source, target := ⟨source.val + 1, h⟩, src := srcInputs v source,
        tgt := targetInputs tables v ⟨source.val + 1, h⟩ (srcInputs v source), outputs := [],
        todo := chunks env.opts.flushThresholdBytes
          (dropTombstones ⟨source.val + 1, h⟩ (mergeInputs tables source.val (source.val + 1)
            (srcInputs v source)
            (targetInputs tables v ⟨source.val + 1, h⟩ (srcInputs v source)))) } := by
  unfold Compaction.start at hc
  split at hc
  · cases hc
  · rename_i source hsource
    split_ifs at hc with h
    exact ⟨source, h, hsource, (Option.some.inj hc).symm⟩

/-- The edit of a compaction: its inputs are deleted, its outputs added. -/
def Compaction.edit (c : Compaction V) : VersionEdit where
  deletedFiles := c.src.map (fun f => ((c.source.val : ℤ), f.sequence))
    ++ c.tgt.map (fun f => ((c.target.val : ℤ), f.sequence))
  newFiles := c.outputs.map (fun f => ((c.target.val : ℤ), f))

/-- The record of a table written for a chunk. -/
def Chunk.record (c : Chunk V) (seq : ℕ) : FileMetaData where
  sequence := seq
  fileSize := c.size + 24
  minKey := (c.contents.entries.head c.nonempty).1
  maxKey := (c.contents.entries.getLast c.nonempty).1
