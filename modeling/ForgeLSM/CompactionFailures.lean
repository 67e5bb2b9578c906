import ForgeLSM.Lsm

/-!
# Compactions of tables that cannot be read

`run_compaction` opens its inputs twice: the files of the target level to see
which of them overlap the source, and then every input it has chosen to iterate
over it. A table that does not load is passed over, the first time as not
overlapping and the second time as having no entries. The edit deletes what was
chosen, whether it was read or not.

So two things can go wrong. What does not load the second time is deleted and
not merged; and what does not load the first time stays, in the way of
the outputs. Nothing else can (`discards_merged_iff`): a file of the target level
that loads and stays lies on one side of all the keys that can be merged
(`Shape.side`).
-/

variable {V : Type} [Payload V]

/-- **Which tables load**: when target files are chosen, and when the inputs
are opened for the merge. -/
structure LoadOutcomes where
  choose : ℕ → Bool := fun _ => true
  merge : ℕ → Bool := fun _ => true

/-- The inputs that are iterated over. -/
def LoadOutcomes.opened (loads : LoadOutcomes) (fs : List FileMetaData) : List FileMetaData :=
  fs.filter (fun f => loads.merge f.sequence)

/-- **The start of `run_compaction`**, where tables can fail to load. -/
def Compaction.startFailing (env : Env) (tables : Tables V) (loads : LoadOutcomes) (v : Version) :
    Option (Compaction V) :=
  match pickLevel env v with
  | none => none
  | some source =>
    if h : source.val + 1 < maxLevels then
      let target : Level := ⟨source.val + 1, h⟩
      let src := srcInputs v source
      let tgt := (v.files target).filter (fun f =>
        loads.choose f.sequence && fileOverlaps tables (globalMin src) (globalMax src) f)
      some
        { snapshot := v, source := source, target := target, src := src, tgt := tgt, outputs := [],
          todo := chunks env.opts.flushThresholdBytes (dropTombstones target
            (mergeInputs tables source.val target.val (loads.opened src) (loads.opened tgt))) }
    else none

/-- The entries read into the merge. -/
def Compaction.mergedItems (tables : Tables V) (loads : LoadOutcomes) (c : Compaction V) :
    List (MergeItem V) :=
  mergeItems tables c.source.val c.target.val (loads.opened c.src) (loads.opened c.tgt)

/-- A file is an input of the compaction. -/
def Compaction.Picks (c : Compaction V) (level : Level) (f : FileMetaData) : Prop :=
  level = c.source ∧ f ∈ c.src ∨ level = c.target ∧ f ∈ c.tgt

section

variable {env : Env} {tables : Tables V} {loads : LoadOutcomes} {v : Version} {c : Compaction V}
  {f : FileMetaData}

/-- Where all tables load, this is the compaction. -/
theorem Compaction.startFailing_of_all (env : Env) (tables : Tables V) (v : Version) :
    Compaction.startFailing env tables {} v = Compaction.start env tables v := by
  have hopened : ∀ fs, LoadOutcomes.opened {} fs = fs := fun fs => List.filter_true fs
  unfold Compaction.startFailing Compaction.start targetInputs
  cases pickLevel env v with
  | none => rfl
  | some source => simp only [hopened, Bool.true_and]

omit [Payload V] in
/-- The items of the merge come from the inputs that were opened. -/
theorem mem_mergedItems {x : MergeItem V} :
    x ∈ c.mergedItems tables loads
      ↔ (∃ f ∈ loads.opened c.src, x ∈ fileItems tables c.source.val f)
        ∨ ∃ f ∈ loads.opened c.tgt, x ∈ fileItems tables c.target.val f :=
  (mergeItems_spec tables _ _ _ _).2 x

omit [Payload V] in
/-- **A file chosen is merged exactly when it is opened.** -/
theorem merged_iff (hs : Shape tables v) {level : Level} (hf : f ∈ v.files level)
    (hpick : c.Picks level f) :
    (∀ x ∈ fileItems tables level.val f, x ∈ c.mergedItems tables loads)
      ↔ loads.merge f.sequence = true := by
  constructor
  · intro hall
    -- a table has an entry, and its item bears the level and the number of the file
    obtain ⟨⟨w, hw⟩, -⟩ := (hs.exact level f hf).exists_get_ends
    have hx := hall ⟨f.minKey, level.val, f.sequence, w⟩ (mem_fileItems.mpr ⟨rfl, rfl, hw⟩)
    have hopened : ∀ {fs : List FileMetaData} {l : ℕ} {g : FileMetaData}, g ∈ loads.opened fs →
        (⟨f.minKey, level.val, f.sequence, w⟩ : MergeItem V) ∈ fileItems tables l g →
        loads.merge f.sequence = true := by
      intro fs l g hg hxg
      have hseq : f.sequence = g.sequence := (mem_fileItems.mp hxg).2.1
      rw [hseq]
      exact (List.mem_filter.mp hg).2
    rcases mem_mergedItems.mp hx with ⟨g, hg, hxg⟩ | ⟨g, hg, hxg⟩
    · exact hopened hg hxg
    · exact hopened hg hxg
  · intro hopen x hx
    rcases hpick with ⟨rfl, hmem⟩ | ⟨rfl, hmem⟩
    · exact mem_mergedItems.mpr (Or.inl ⟨f, List.mem_filter.mpr ⟨hmem, hopen⟩, hx⟩)
    · exact mem_mergedItems.mpr (Or.inr ⟨f, List.mem_filter.mpr ⟨hmem, hopen⟩, hx⟩)

/-- What a compaction has chosen. -/
structure Chosen (env : Env) (tables : Tables V) (loads : LoadOutcomes) (v : Version)
    (c : Compaction V) : Prop where
  target_eq : c.target.val = c.source.val + 1
  src_sub : ∀ f ∈ c.src, f ∈ v.files c.source
  tgt_eq : c.tgt = (v.files c.target).filter (fun f =>
    loads.choose f.sequence && fileOverlaps tables (globalMin c.src) (globalMax c.src) f)
  todo_eq : c.todo = chunks env.opts.flushThresholdBytes (dropTombstones c.target
    (mergeInputs tables c.source.val c.target.val (loads.opened c.src) (loads.opened c.tgt)))

theorem Compaction.startFailing_chosen (hc : Compaction.startFailing env tables loads v = some c) :
    Chosen env tables loads v c := by
  unfold Compaction.startFailing at hc
  split at hc
  · cases hc
  · rename_i source _
    split_ifs at hc
    cases hc
    refine ⟨rfl, fun f hf => ?_, rfl, rfl⟩
    dsimp only [srcInputs] at hf
    split_ifs at hf with h0
    · rwa [← h0] at hf
    · exact List.mem_of_mem_take hf

/-- **The compaction discards only what it merged**: every file that its edit deletes
has all its entries read into the merge, and no file of the target level that the edit
leaves overlaps an output. -/
def Compaction.DiscardsMerged (tables : Tables V) (loads : LoadOutcomes) (v : Version)
    (c : Compaction V) : Prop :=
  (∀ level, ∀ f ∈ v.files level, Version.deletes c.edit level f.sequence = true →
      ∀ x ∈ fileItems tables level.val f, x ∈ c.mergedItems tables loads)
    ∧ ∀ u ∈ v.files c.target, Version.deletes c.edit c.target u.sequence = false →
      ∀ ch ∈ c.todo, ∀ seq, RangeDisjoint u (ch.record seq)

namespace Chosen

section

variable (h : Chosen env tables loads v c)
include h

theorem target_ne_zero : c.target ≠ 0 := by
  intro hc
  have := h.target_eq
  rw [hc] at this
  simp at this

theorem source_ne_target : c.source ≠ c.target := by
  intro hc
  have := h.target_eq
  rw [hc] at this
  omega

theorem mem_tgt :
    f ∈ c.tgt ↔ f ∈ v.files c.target ∧ loads.choose f.sequence = true
      ∧ fileOverlaps tables (globalMin c.src) (globalMax c.src) f = true := by
  rw [h.tgt_eq, List.mem_filter, Bool.and_eq_true]

/-- **The files of the version that the edit deletes** are those chosen. -/
theorem deletes_iff (hs : Shape tables v) {level : Level} (hf : f ∈ v.files level) :
    Version.deletes c.edit level f.sequence = true
      ↔ c.Picks level f := by
  rw [c.deletes_edit]
  constructor
  · rintro (⟨rfl, g, hg, hseq⟩ | ⟨rfl, g, hg, hseq⟩)
    · exact Or.inl ⟨rfl, hs.eq_of_sequence_eq hf (h.src_sub g hg) hseq.symm ▸ hg⟩
    · exact Or.inr ⟨rfl, hs.eq_of_sequence_eq hf (h.mem_tgt.mp hg).1 hseq.symm ▸ hg⟩
  · rintro (⟨rfl, hpick⟩ | ⟨rfl, hpick⟩)
    · exact Or.inl ⟨rfl, f, hpick, rfl⟩
    · exact Or.inr ⟨rfl, f, hpick, rfl⟩

/-- The keys of an output can be merged. -/
theorem spanned_of_output (hs : Shape tables v) {ch : Chunk V} (hch : ch ∈ c.todo) {e : Key × V}
    (he : e ∈ ch.contents.entries) :
    Spanned tables v c.target (globalMin c.src) (globalMax c.src) e.1 := by
  rw [h.todo_eq] at hch
  have hget := (OrdMap.mem_entries_iff _).mp (mem_of_mem_chunks hch he)
  rw [dropTombstones, OrdMap.get_filterValues, mergeInputs_get_eq_find?] at hget
  obtain ⟨hmap, -⟩ := Option.filter_eq_some_iff.mp hget
  obtain ⟨x, hx, -⟩ := Option.map_eq_some_iff.mp hmap
  have hkey : x.key = e.1 := by simpa using List.find?_some hx
  have hmem : x ∈ c.mergedItems tables loads := List.mem_of_find?_eq_some hx
  rcases mem_mergedItems.mp hmem with ⟨f, hf, hxf⟩ | ⟨f, hf, hxf⟩
  · obtain ⟨-, -, hval⟩ := mem_fileItems.mp hxf
    have hsrc := List.mem_of_mem_filter hf
    exact hs.spanned_of_src hsrc (h.src_sub f hsrc) (hkey ▸ hval)
  · obtain ⟨-, -, hval⟩ := mem_fileItems.mp hxf
    obtain ⟨htgt, -, hov⟩ := h.mem_tgt.mp (List.mem_of_mem_filter hf)
    exact hs.spanned_of_tgt htgt hov (hkey ▸ hval)

/-- **A file that does not overlap the source meets no output.** -/
theorem disjoint_of_apart (hs : Shape tables v) {u : FileMetaData} (hu : u ∈ v.files c.target)
    (hov : fileOverlaps tables (globalMin c.src) (globalMax c.src) u = false) {ch : Chunk V}
    (hch : ch ∈ c.todo) (seq : ℕ) : RangeDisjoint u (ch.record seq) := by
  have hfirst := h.spanned_of_output hs hch (List.head_mem ch.nonempty)
  have hlast := h.spanned_of_output hs hch (List.getLast_mem ch.nonempty)
  exact (hs.side h.target_ne_zero hu hov).imp (fun hside => hside _ hfirst)
    (fun hside => hside _ hlast)

/-- **When only what is merged is discarded.** -/
theorem discardsMerged_iff (hs : Shape tables v) :
    c.DiscardsMerged tables loads v
      ↔ (∀ f ∈ c.src ++ c.tgt, loads.merge f.sequence = true)
        ∧ ∀ u ∈ v.files c.target, loads.choose u.sequence = false →
          ∀ ch ∈ c.todo, ∀ seq, RangeDisjoint u (ch.record seq) := by
  have hstays : ∀ u ∈ v.files c.target,
      (Version.deletes c.edit c.target u.sequence = false ↔ u ∉ c.tgt) := by
    intro u hu
    rw [← Bool.not_eq_true, h.deletes_iff hs hu]
    simp [Compaction.Picks, h.source_ne_target.symm]
  constructor
  · rintro ⟨hmerged, hleft⟩
    have hopened : ∀ {level f}, f ∈ v.files level → c.Picks level f →
        loads.merge f.sequence = true := fun hf hpick =>
      (merged_iff hs hf hpick).mp (hmerged _ _ hf ((h.deletes_iff hs hf).mpr hpick))
    refine ⟨fun f hf => ?_, fun u hu hload => hleft u hu ((hstays u hu).mpr (fun hmem => ?_))⟩
    · rcases List.mem_append.mp hf with hf | hf
      · exact hopened (h.src_sub f hf) (Or.inl ⟨rfl, hf⟩)
      · exact hopened (h.mem_tgt.mp hf).1 (Or.inr ⟨rfl, hf⟩)
    · rw [(h.mem_tgt.mp hmem).2.1] at hload
      cases hload
  · rintro ⟨hopen, hfailed⟩
    refine ⟨fun level f hf hdel => ?_, fun u hu hdel ch hch seq => ?_⟩
    · have hpick := (h.deletes_iff hs hf).mp hdel
      refine (merged_iff hs hf hpick).mpr (hopen f (List.mem_append.mpr ?_))
      exact hpick.imp (fun hc => hc.2) (fun hc => hc.2)
    · cases hload : loads.choose u.sequence with
      | false => exact hfailed u hu hload ch hch seq
      | true =>
        refine h.disjoint_of_apart hs hu (Bool.eq_false_iff.mpr (fun hov => ?_)) hch seq
        exact (hstays u hu).mp hdel (h.mem_tgt.mpr ⟨hu, hload, hov⟩)

end

end Chosen

/-- **What a compaction may discard.** Start `run_compaction` on any version of the
right shape, with any outcome of opening the tables. It discards only what it merged
exactly when every input chosen loads the second time, and no file of the target level
that does not load the first time overlaps an output. In terms of the version alone, it
is enough that every source file loads the second time, and every file of the target
level that overlaps the range of the source loads both times. -/
theorem Compaction.discards_merged_iff (hs : Shape tables v)
    (hc : Compaction.startFailing env tables loads v = some c) :
    (c.DiscardsMerged tables loads v
      ↔ (∀ f ∈ c.src ++ c.tgt, loads.merge f.sequence = true)
        ∧ ∀ u ∈ v.files c.target, loads.choose u.sequence = false →
          ∀ ch ∈ c.todo, ∀ seq, RangeDisjoint u (ch.record seq))
    ∧ ((∀ f ∈ c.src, loads.merge f.sequence = true) →
      (∀ u ∈ v.files c.target,
        fileOverlaps tables (globalMin c.src) (globalMax c.src) u = true →
          loads.choose u.sequence = true ∧ loads.merge u.sequence = true) →
      c.DiscardsMerged tables loads v) := by
  have h := Compaction.startFailing_chosen hc
  have hiff := h.discardsMerged_iff hs
  refine ⟨hiff, fun hsrc htgt => hiff.mpr ⟨fun f hf => ?_, fun u hu hload ch hch seq => ?_⟩⟩
  · rcases List.mem_append.mp hf with hf | hf
    · exact hsrc f hf
    · obtain ⟨hmem, -, hov⟩ := h.mem_tgt.mp hf
      exact (htgt f hmem hov).2
  · refine h.disjoint_of_apart hs hu (Bool.eq_false_iff.mpr (fun hov => ?_)) hch seq
    rw [(htgt u hu hov).1] at hload
    cases hload

end

/-- A small engine whose level 1 has room for a few tables. -/
def Env.roomy : Env :=
  { Env.small with opts := { flushThreshold := 20, l0CompactionTrigger := 1 } }

/-- Two keys are compacted, and the first is flushed again. -/
def twoLevels : List (LsmAction VLogPointer) :=
  Lsm.flushOne [97] ⟨1, 9, 1⟩ ++ Lsm.flushOne [122] ⟨1, 19, 1⟩
    ++ [.compactStart, .compactOutput, .compactOutput, .compactCommit, .purgeObsoleteFiles]
    ++ Lsm.flushOne [97] ⟨1, 29, 1⟩

/-- The table of the other key does not load, and is not missed. -/
theorem Compaction.discards_merged_iff_twoLevels :
    let s := finalState (Lsm.step .roomy) {} twoLevels
    let loads : LoadOutcomes := { choose := fun seq => seq != 5 }
    ∃ c, Compaction.startFailing .roomy s.tables loads s.vs.current = some c
      ∧ c.edit.deletedFiles = [(0, 6), (1, 4)] ∧ c.DiscardsMerged s.tables loads s.vs.current := by
  intro s loads
  have hs : Shape s.tables s.vs.current :=
    (Lsm.inv_fresh.run (runSteps_eq_finalState (by decide +kernel))).shape
  let c := (Compaction.startFailing .roomy s.tables loads s.vs.current).get (by decide +kernel)
  have hc : Compaction.startFailing .roomy s.tables loads s.vs.current = some c :=
    (Option.some_get _).symm
  exact ⟨c, hc, by decide +kernel,
    (Compaction.discards_merged_iff hs hc).2 (by decide +kernel) (by decide +kernel)⟩

/-- What a compaction deletes, what it reads into the merge, and the keys of its
outputs. -/
structure CompactionReport where
  deleted : List (ℤ × ℕ)
  merged : List (Key × ℕ)
  outputs : List (List Key)
  deriving DecidableEq

/-- The compaction that follows. -/
def compactionOf (loads : LoadOutcomes) : Option CompactionReport :=
  let s := finalState (Lsm.step .roomy) {} twoLevels
  (Compaction.startFailing .roomy s.tables loads s.vs.current).map (fun c =>
    { deleted := c.edit.deletedFiles
      merged := (c.mergedItems s.tables loads).map (fun x => (x.key, x.seq))
      outputs := c.todo.map (fun ch => ch.contents.keys) })

/-- **What is deleted and not merged, and what is left in the way.** A key is in a
table of L1, and in a newer one of L0. Where the newer does not load for the
merge, both are deleted and the old entry is all that is left of the key; where the
older does not, it is deleted unread; where it does not load when target
files are chosen it stays, and the output has the same range. -/
theorem Compaction.discards_unmerged :
    let s := finalState (Lsm.step .roomy) {} twoLevels
    (s.vs.current.files 0).map (fun f => (f.sequence, f.minKey, f.maxKey)) = [(6, [97], [97])]
      ∧ (s.vs.current.files 1).map (fun f => (f.sequence, f.minKey, f.maxKey))
        = [(4, [97], [97]), (5, [122], [122])]
      ∧ compactionOf { merge := fun seq => seq != 6 }
        = some ⟨[(0, 6), (1, 4)], [([97], 4)], [[[97]]]⟩
      ∧ compactionOf { merge := fun seq => seq != 4 }
        = some ⟨[(0, 6), (1, 4)], [([97], 6)], [[[97]]]⟩
      ∧ compactionOf { choose := fun seq => seq != 4 }
        = some ⟨[(0, 6)], [([97], 6)], [[[97]]]⟩ := by
  decide +kernel
