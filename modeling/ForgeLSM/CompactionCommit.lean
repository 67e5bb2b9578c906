import ForgeLSM.LevelShape

/-!
# The commit of a compaction

A compaction chooses its inputs from a snapshot of the version and commits
its edit to whatever the version has become. In between only L0 can have
grown, at its front. `JobInv` is what then still holds of the job; this
module proves that committing it keeps the shape of the version and every
lookup.

Both proofs rest on one fact about the files of the target level that the
merge left alone: each of them lies entirely below or entirely above *all*
the merged keys (`JobInv.side`). Below the range of the source files, say: a
target file that does overlap that range comes after it, and so do all its
keys. So an output, whatever gaps between target files it spans, meets none
of them; and a key the merge dropped as deleted is in none of them.
-/

variable {V : Type} [Payload V] {k : Key} {f : FileMetaData} {u : FileMetaData}

/-- The contents of the outputs of a job, written or still to write. -/
def Compaction.results (tables : Tables V) (c : Compaction V) : List (OrdMap Key V) :=
  c.outputs.map (fileContents tables) ++ c.todo.map Chunk.contents

/-- What the inputs of a job give for a key, newest first. -/
def Compaction.inputGet (tables : Tables V) (c : Compaction V) (k : Key) : Option V :=
  (c.src.findSome? (fun f => (fileContents tables f).get k)).or
    (c.tgt.findSome? (fun f => (fileContents tables f).get k))

/-- **What holds of a job between its start and its commit**, with the
version as it is now. -/
structure JobInv (tables : Tables V) (current : Version) (c : Compaction V) : Prop where
  target_eq : c.target.val = c.source.val + 1
  /-- Below L0 nothing has changed since the snapshot. -/
  deep : ∀ level, level ≠ 0 → current.files level = c.snapshot.files level
  /-- L0 has grown at its front. -/
  l0 : ∃ new, current.files 0 = new ++ c.snapshot.files 0
  src_eq : c.src = srcInputs c.snapshot c.source
  tgt_eq : c.tgt = targetInputs tables c.snapshot c.target c.src
  /-- The outputs follow one another in key order. -/
  sorted : (c.results tables).Pairwise (fun a b => ∀ x ∈ a.entries, ∀ y ∈ b.entries, x.1 < y.1)
  /-- The outputs answer as the inputs do, but for the tombstones dropped. -/
  get : ∀ k, (c.results tables).findSome? (fun m => m.get k)
    = (c.inputGet tables k).filter
      (fun v => !(Payload.isTombstone v && decide (c.target.val = maxLevels - 1)))
  outputs : ∀ f ∈ c.outputs, Exact tables f

/-! ## The start of a job -/

/-- **A job starts with its invariant.** -/
theorem JobInv.start {env : Env} {tables : Tables V} {v : Version} (hs : Shape tables v)
    {c : Compaction V} (hc : Compaction.start env tables v = some c) : JobInv tables v c := by
  obtain ⟨source, h, -, rfl⟩ := Compaction.start_cases hc
  have htgt0 : (⟨source.val + 1, h⟩ : Level) ≠ 0 := fun hc => by
    have := congrArg Fin.val hc
    simp at this
  have hsrc : (srcInputs v source).Pairwise (fun a b => b.sequence < a.sequence) := by
    unfold srcInputs
    split_ifs
    · exact hs.l0
    · cases v.files source <;> simp
  refine
    { target_eq := rfl
      deep := fun _ _ => rfl
      l0 := ⟨[], rfl⟩
      src_eq := rfl
      tgt_eq := rfl
      sorted := ?_
      get := fun k => ?_
      outputs := fun f hf => by cases hf }
  · exact List.pairwise_map.mpr (chunks_sorted _ _)
  · have htgt : Exclusive (fun f => (fileContents tables f).get k)
        (targetInputs tables v ⟨source.val + 1, h⟩ (srcInputs v source)) :=
      (hs.exclusive htgt0 k).filter _
    show ((chunks _ _).map Chunk.contents).findSome? _ = _
    rw [List.findSome?_map]
    refine (chunks_get _ _ k).trans ?_
    rw [dropTombstones, OrdMap.get_filterValues, mergeInputs_get (Nat.lt_succ_self _) hsrc htgt]
    rfl

/-! ## The keys a compaction can merge -/

section Spanned

omit [Payload V]

variable {tables : Tables V} {v : Version}

/-- A key in the range of the source files, or in the range of a target file that
overlaps it. -/
def Spanned (tables : Tables V) (v : Version) (target : Level) (lo hi k : Key) : Prop :=
  (lo ≤ k ∧ k ≤ hi)
    ∨ ∃ g ∈ v.files target, fileOverlaps tables lo hi g = true ∧ g.minKey ≤ k ∧ k ≤ g.maxKey

namespace Shape

theorem spanned_of_src (hs : Shape tables v) {src : List FileMetaData} (hf : f ∈ src)
    {source target : Level} (hmem : f ∈ v.files source) {w : V}
    (hk : (fileContents tables f).get k = some w) :
    Spanned tables v target (globalMin src) (globalMax src) k := by
  obtain ⟨hlo, hhi⟩ := (hs.exact source f hmem).mem_range hk
  exact Or.inl ⟨le_trans (globalMin_le hf) hlo, le_trans hhi (le_globalMax hf)⟩

theorem spanned_of_tgt (hs : Shape tables v) {target : Level} {g : FileMetaData}
    (hmem : g ∈ v.files target) {lo hi : Key} (hov : fileOverlaps tables lo hi g = true) {w : V}
    (hk : (fileContents tables g).get k = some w) : Spanned tables v target lo hi k :=
  Or.inr ⟨g, hmem, hov, (hs.exact target g hmem).mem_range hk⟩

/-- **A file that does not overlap the source files lies on one side of all the
keys that can be merged.** -/
theorem side (hs : Shape tables v) {target : Level} (h0 : target ≠ 0) {lo hi : Key}
    (hu : u ∈ v.files target) (hov : fileOverlaps tables lo hi u = false) :
    (∀ k, Spanned tables v target lo hi k → u.maxKey < k)
      ∨ (∀ k, Spanned tables v target lo hi k → k < u.minKey) := by
  have hexact := hs.exact target
  have hnot : ¬ (lo ≤ u.maxKey ∧ u.minKey ≤ hi) := by
    rw [← fileOverlaps_iff (hexact u hu), hov]
    simp
  -- a target file that is merged comes before or after the one left alone
  have hsep : ∀ g ∈ v.files target, fileOverlaps tables lo hi g = true →
      (g.maxKey < u.minKey ∨ u.maxKey < g.minKey) ∧ lo ≤ g.maxKey ∧ g.minKey ≤ hi := by
    intro g hg hgov
    have hne : g ≠ u := fun hc => by
      rw [hc, hov] at hgov
      cases hgov
    exact ⟨pairwise_or_of_ne (hs.levels _ h0) hg hu hne, (fileOverlaps_iff (hexact g hg)).mp hgov⟩
  have hurange := (hexact u hu).minKey_le_maxKey
  rcases not_and_or.mp hnot with hlo | hhi
  · -- the file lies below the source files
    rw [not_le] at hlo
    refine Or.inl (fun k hk => ?_)
    rcases hk with ⟨hmin, -⟩ | ⟨g, hg, hgov, hgk, -⟩
    · exact lt_of_lt_of_le hlo hmin
    · obtain ⟨hdis, hgmin, -⟩ := hsep g hg hgov
      rcases hdis with hdis | hdis
      · exact absurd (lt_of_lt_of_le hlo hgmin) (not_lt.mpr (le_trans (le_of_lt hdis) hurange))
      · exact lt_of_lt_of_le hdis hgk
  · -- the file lies above the source files
    rw [not_le] at hhi
    refine Or.inr (fun k hk => ?_)
    rcases hk with ⟨-, hmax⟩ | ⟨g, hg, hgov, -, hgk⟩
    · exact lt_of_le_of_lt hmax hhi
    · obtain ⟨hdis, -, hgmax⟩ := hsep g hg hgov
      rcases hdis with hdis | hdis
      · exact lt_of_le_of_lt hgk hdis
      · exact absurd (lt_of_le_of_lt hgmax hhi) (not_lt.mpr (le_trans hurange (le_of_lt hdis)))

end Shape

end Spanned

section Commit

variable {tables : Tables V} {current : Version} {c : Compaction V}

namespace JobInv

section

variable (h : JobInv tables current c)
include h

theorem source_ne_target : c.source ≠ c.target := by
  intro hc
  have := h.target_eq
  rw [hc] at this
  omega

theorem target_ne_zero : c.target ≠ 0 := by
  intro hc
  have := h.target_eq
  rw [hc] at this
  simp at this

/-- The source files are files of the version as it is now. -/
theorem mem_of_mem_src (hf : f ∈ c.src) : f ∈ current.files c.source := by
  rw [h.src_eq, srcInputs] at hf
  split_ifs at hf with h0
  · obtain ⟨new, hnew⟩ := h.l0
    rw [h0, hnew]
    exact List.mem_append_right new hf
  · rw [h.deep c.source h0]
    exact List.mem_of_mem_take hf

/-- The target files are the files of the target level, as it is now, that
overlap the source. -/
theorem tgt_eq_filter :
    c.tgt = (current.files c.target).filter
      (fileOverlaps tables (globalMin c.src) (globalMax c.src)) := by
  rw [h.deep c.target h.target_ne_zero]
  exact h.tgt_eq

theorem mem_of_mem_tgt (hf : f ∈ c.tgt) : f ∈ current.files c.target := by
  rw [h.tgt_eq_filter] at hf
  exact List.mem_of_mem_filter hf

end

end JobInv

omit [Payload V] in
/-- The files a compaction deletes. -/
theorem Compaction.deletes_edit (c : Compaction V) (level : Level) (seq : ℕ) :
    Version.deletes c.edit level seq = true
      ↔ (level = c.source ∧ ∃ f ∈ c.src, f.sequence = seq)
        ∨ (level = c.target ∧ ∃ f ∈ c.tgt, f.sequence = seq) := by
  have hcast : ∀ l l' : Level, ((l.val : ℤ) = (l'.val : ℤ)) ↔ l' = l := fun l l' => by
    rw [Fin.ext_iff]
    omega
  simp only [Version.deletes, Compaction.edit, List.any_append, List.any_map, Bool.or_eq_true,
    List.any_eq_true, Function.comp_apply, Bool.and_eq_true, decide_eq_true_eq, hcast]
  constructor
  · rintro (⟨f, hf, hl, hs⟩ | ⟨f, hf, hl, hs⟩)
    · exact Or.inl ⟨hl, f, hf, hs⟩
    · exact Or.inr ⟨hl, f, hf, hs⟩
  · rintro (⟨hl, f, hf, hs⟩ | ⟨hl, f, hf, hs⟩)
    · exact Or.inl ⟨f, hf, hl, hs⟩
    · exact Or.inr ⟨f, hf, hl, hs⟩

omit [Payload V] in
/-- The files a compaction adds. -/
theorem Compaction.added_edit (c : Compaction V) (level : Level) :
    Version.added c.edit level = if level = c.target then c.outputs else [] := by
  simp only [Version.added, Compaction.edit, List.filter_map, List.map_map]
  by_cases hl : level = c.target
  · rw [if_pos hl, hl]
    simp [Function.comp_def]
  · rw [if_neg hl]
    have hne : ¬ ((c.target.val : ℤ) = (level.val : ℤ)) := fun hc => hl (Fin.ext (by omega))
    simp [Function.comp_def, hne]

omit [Payload V] in
/-- Other levels lose nothing. -/
theorem Compaction.filter_other (c : Compaction V) {level : Level} (h₁ : level ≠ c.source)
    (h₂ : level ≠ c.target) :
    (current.files level).filter (fun f => !Version.deletes c.edit level f.sequence)
      = current.files level := by
  refine List.filter_eq_self.mpr (fun f _ => ?_)
  rw [Bool.not_eq_true', ← Bool.not_eq_true, c.deletes_edit]
  simp [h₁, h₂]

namespace JobInv

/-! ## The files left alone -/

/-- The files of the source level that stay. -/
theorem filter_source (h : JobInv tables current c) (hs : Shape tables current) :
    (current.files c.source).filter (fun f => !Version.deletes c.edit c.source f.sequence)
      = (current.files c.source).filter (fun f => decide (f ∉ c.src)) := by
  refine List.filter_congr (fun f hf => ?_)
  rw [Bool.not_eq_eq_eq_not, Bool.eq_iff_iff, c.deletes_edit]
  simp only [h.source_ne_target, false_and, or_false, true_and, Bool.not_eq_true',
    decide_eq_false_iff_not, not_not]
  constructor
  · rintro ⟨g, hg, hgs⟩
    rwa [hs.eq_of_sequence_eq hf (h.mem_of_mem_src hg) hgs.symm]
  · exact fun hf' => ⟨f, hf', rfl⟩

/-- The files of the target level that stay are those that do not overlap the
source. -/
theorem filter_target (h : JobInv tables current c) (hs : Shape tables current) :
    (current.files c.target).filter (fun f => !Version.deletes c.edit c.target f.sequence)
      = (current.files c.target).filter
        (fun f => !fileOverlaps tables (globalMin c.src) (globalMax c.src) f) := by
  refine List.filter_congr (fun f hf => ?_)
  congr 1
  rw [Bool.eq_iff_iff, c.deletes_edit]
  simp only [h.source_ne_target.symm, false_and, false_or, true_and]
  constructor
  · rintro ⟨g, hg, hgs⟩
    rw [hs.eq_of_sequence_eq hf (h.mem_of_mem_tgt hg) hgs.symm]
    rw [h.tgt_eq_filter] at hg
    exact (List.mem_filter.mp hg).2
  · intro hov
    refine ⟨f, ?_, rfl⟩
    rw [h.tgt_eq_filter]
    exact List.mem_filter.mpr ⟨hf, hov⟩

/-- A key of the inputs. -/
def InputKey (tables : Tables V) (c : Compaction V) (k : Key) : Prop :=
  c.inputGet tables k ≠ none

/-- A key of the inputs is in range of a source file, or in a target file. -/
theorem spanned_of_inputKey (h : JobInv tables current c) (hs : Shape tables current)
    (hk : InputKey tables c k) :
    Spanned tables current c.target (globalMin c.src) (globalMax c.src) k := by
  obtain ⟨v, hv⟩ := Option.ne_none_iff_exists'.mp hk
  rcases Option.or_eq_some_iff.mp hv with hv | ⟨-, hv⟩
  · obtain ⟨f, hf, hfv⟩ := List.exists_of_findSome?_eq_some hv
    exact hs.spanned_of_src hf (h.mem_of_mem_src hf) hfv
  · obtain ⟨g, hg, hgv⟩ := List.exists_of_findSome?_eq_some hv
    rw [h.tgt_eq_filter] at hg
    obtain ⟨hmem, hov⟩ := List.mem_filter.mp hg
    exact hs.spanned_of_tgt hmem hov hgv

/-- **A file left alone lies on one side of all the merged keys.** -/
theorem side (h : JobInv tables current c) (hs : Shape tables current)
    (hu : u ∈ current.files c.target)
    (hov : fileOverlaps tables (globalMin c.src) (globalMax c.src) u = false) :
    (∀ k, InputKey tables c k → u.maxKey < k) ∨ (∀ k, InputKey tables c k → k < u.minKey) :=
  (hs.side h.target_ne_zero hu hov).imp
    (fun hside k hk => hside k (h.spanned_of_inputKey hs hk))
    (fun hside k hk => hside k (h.spanned_of_inputKey hs hk))

/-! ## The outputs -/

omit [Payload V] in
/-- A written job has its outputs for results. -/
theorem results_eq (hdone : c.todo = []) :
    c.results tables = c.outputs.map (fileContents tables) := by
  rw [Compaction.results, hdone, List.map_nil, List.append_nil]

/-- The keys of an output are keys of the inputs. -/
theorem inputKey_of_output (h : JobInv tables current c) (hdone : c.todo = []) {o : FileMetaData}
    (ho : o ∈ c.outputs) {v : V} (hk : (fileContents tables o).get k = some v) :
    InputKey tables c k := by
  intro hnone
  have hget := h.get k
  rw [hnone, Option.filter_none, results_eq hdone, List.findSome?_map] at hget
  have := List.findSome?_eq_none_iff.mp hget o ho
  rw [Function.comp_apply, hk] at this
  cases this

/-- An output meets no file left alone. -/
theorem output_disjoint (h : JobInv tables current c) (hs : Shape tables current)
    (hdone : c.todo = []) {u o : FileMetaData} (hu : u ∈ current.files c.target)
    (hov : fileOverlaps tables (globalMin c.src) (globalMax c.src) u = false)
    (ho : o ∈ c.outputs) : RangeDisjoint u o := by
  obtain ⟨⟨v, hv⟩, ⟨w, hw⟩⟩ := (h.outputs o ho).exists_get_ends
  rcases h.side hs hu hov with hside | hside
  · exact Or.inl (hside _ (h.inputKey_of_output hdone ho hv))
  · exact Or.inr (hside _ (h.inputKey_of_output hdone ho hw))

/-- The outputs follow one another. -/
theorem outputs_sorted (h : JobInv tables current c) (hdone : c.todo = []) :
    c.outputs.Pairwise (fun a b => a.maxKey < b.minKey) := by
  have hs := h.sorted
  rw [results_eq hdone, List.pairwise_map] at hs
  refine List.Pairwise.imp_of_mem (fun {a b} ha hb hab => ?_) hs
  obtain ⟨-, ⟨v, hv⟩⟩ := (h.outputs a ha).exists_get_ends
  obtain ⟨⟨w, hw⟩, -⟩ := (h.outputs b hb).exists_get_ends
  exact hab (a.maxKey, v) ((OrdMap.mem_entries_iff _).mpr hv)
    (b.minKey, w) ((OrdMap.mem_entries_iff _).mpr hw)

/-! ## The committed version -/

/-- The files of the target level that the merge left alone. -/
def untouched (tables : Tables V) (current : Version) (c : Compaction V) : List FileMetaData :=
  (current.files c.target).filter
    (fun f => !fileOverlaps tables (globalMin c.src) (globalMax c.src) f)

omit [Payload V] in
theorem mem_untouched (hu : u ∈ untouched tables current c) :
    u ∈ current.files c.target
      ∧ fileOverlaps tables (globalMin c.src) (globalMax c.src) u = false := by
  obtain ⟨hmem, hov⟩ := List.mem_filter.mp hu
  exact ⟨hmem, by simpa using hov⟩

/-- The target level of the committed version, up to order. -/
theorem commit_target_perm (h : JobInv tables current c) (hs : Shape tables current)
    (S : StdSort) :
    ((current.applyEdit S c.edit).files c.target).Perm
      (c.outputs ++ untouched tables current c) := by
  have hp := Version.applyEdit_perm S current c.edit c.target
  rw [h.filter_target hs, c.added_edit, if_pos rfl] at hp
  exact hp.trans List.perm_append_comm

/-- The files of the target level do not meet. -/
theorem commit_target_disjoint (h : JobInv tables current c) (hs : Shape tables current)
    (hdone : c.todo = []) : (untouched tables current c ++ c.outputs).Pairwise RangeDisjoint := by
  refine List.pairwise_append.mpr ⟨?_, ?_, fun u hu o ho => ?_⟩
  · exact ((hs.levels _ h.target_ne_zero).filter _).imp Or.inl
  · exact (h.outputs_sorted hdone).imp Or.inl
  · obtain ⟨hmem, hov⟩ := mem_untouched hu
    exact h.output_disjoint hs hdone hmem hov ho

/-- The source level of the committed version. -/
theorem commit_source (h : JobInv tables current c) (hs : Shape tables current) (S : StdSort) :
    (current.applyEdit S c.edit).files c.source
      = (current.files c.source).filter (fun f => decide (f ∉ c.src)) := by
  refine Version.applyEdit_files_eq S ?_ ((hs.strict c.source).filter _)
  rw [h.filter_source hs, c.added_edit, if_neg h.source_ne_target, List.append_nil]

omit [Payload V] in
/-- The other levels of the committed version. -/
theorem commit_other (hs : Shape tables current) (S : StdSort) {level : Level}
    (h₁ : level ≠ c.source) (h₂ : level ≠ c.target) :
    (current.applyEdit S c.edit).files level = current.files level := by
  refine Version.applyEdit_files_eq S ?_ (hs.strict level)
  rw [c.filter_other h₁ h₂, c.added_edit, if_neg h₂, List.append_nil]

section

variable (h : JobInv tables current c)
include h

section

variable (hs : Shape tables current)
include hs

/-- **Committing a compaction keeps the shape of the version.** -/
theorem commit_shape (hdone : c.todo = []) (S : StdSort) :
    Shape tables (current.applyEdit S c.edit) := by
  have hexact : ∀ level, ∀ f ∈ (current.applyEdit S c.edit).files level, Exact tables f := by
    intro level f hf
    rcases List.mem_append.mp ((Version.applyEdit_perm S current c.edit level).mem_iff.mp hf)
      with hf | hf
    · exact hs.exact level f (List.mem_of_mem_filter hf)
    · rw [c.added_edit] at hf
      split_ifs at hf
      · exact h.outputs f hf
      · cases hf
  refine ⟨?_, fun level hl => ?_, hexact⟩
  · by_cases h0 : c.source = 0
    · rw [← h0, h.commit_source hs S, h0]
      exact hs.l0.filter _
    · rw [commit_other hs S (Ne.symm h0) (Ne.symm h.target_ne_zero)]
      exact hs.l0
  · by_cases ht : level = c.target
    · subst ht
      have hr : ∀ f ∈ untouched tables current c ++ c.outputs, f.minKey ≤ f.maxKey := by
        intro f hf
        refine (hexact c.target f ((h.commit_target_perm hs S).mem_iff.mpr ?_)).minKey_le_maxKey
        exact List.perm_append_comm.mem_iff.mp hf
      have hsort := Version.sort_pairwise_of_disjoint S hl (h.commit_target_disjoint hs hdone) hr
      have : (current.applyEdit S c.edit).files c.target
          = S.sort (Version.levelLt c.target) (untouched tables current c ++ c.outputs) := by
        show S.sort _ (_ ++ _) = _
        rw [h.filter_target hs, c.added_edit, if_pos rfl]
        rfl
      rw [this]
      exact hsort
    · by_cases hsrc : level = c.source
      · rw [hsrc, h.commit_source hs S]
        exact (hs.levels _ (hsrc ▸ hl)).filter _
      · rw [commit_other hs S hsrc ht]
        exact hs.levels level hl

/-! ## Lookups -/

/-- The source level is searched as the files that stay, then the source
files. -/
theorem source_findSome? (k : Key) :
    (current.files c.source).findSome? (fun f => (fileContents tables f).get k)
      = (((current.files c.source).filter (fun f => decide (f ∉ c.src))).findSome?
          (fun f => (fileContents tables f).get k)).or
        (c.src.findSome? (fun f => (fileContents tables f).get k)) := by
  have hnodup : (current.files c.source).Nodup :=
    (hs.strict c.source).imp (fun {a b} hab hc => by
      rw [hc, (Version.strictWeak_levelLt c.source).irrefl] at hab
      cases hab)
  by_cases h0 : c.source = 0
  · -- the files that stay are the front of L0
    obtain ⟨new, hnew⟩ := h.l0
    have hsrc : c.src = c.snapshot.files 0 := by rw [h.src_eq, srcInputs, if_pos h0]
    rw [h0, hnew, ← hsrc] at hnodup ⊢
    obtain ⟨-, -, hdis⟩ := List.nodup_append.mp hnodup
    have hf : (new ++ c.src).filter (fun f => decide (f ∉ c.src)) = new := by
      rw [List.filter_append, List.filter_eq_self.mpr, List.filter_eq_nil_iff.mpr,
        List.append_nil]
      · intro f hf
        simpa using hf
      · intro f hf
        simpa using fun hc => hdis f hf f hc rfl
    rw [hf, List.findSome?_append]
  · -- below L0 at most one file has the key, so the order does not matter
    rw [findSome?_split (hs.exclusive h0 k) (fun f => decide (f ∉ c.src))]
    congr 2
    have hsrc : c.src = (current.files c.source).take 1 := by
      rw [h.src_eq, srcInputs, if_neg h0, h.deep _ h0]
    rw [hsrc]
    cases hfiles : current.files c.source with
    | nil => rfl
    | cons a l =>
      rw [hfiles] at hnodup
      have ha : ∀ f ∈ l, ¬ f = a := fun f hf hc => (List.nodup_cons.mp hnodup).1 (hc ▸ hf)
      have hl : l.filter (fun f => decide (f = a)) = [] :=
        List.filter_eq_nil_iff.mpr (fun f hf => by simpa using ha f hf)
      simpa using hl

/-- The target level is searched as the target files, then the files left
alone. -/
theorem target_findSome? (k : Key) :
    (current.files c.target).findSome? (fun f => (fileContents tables f).get k)
      = (c.tgt.findSome? (fun f => (fileContents tables f).get k)).or
        ((untouched tables current c).findSome? (fun f => (fileContents tables f).get k)) := by
  rw [h.tgt_eq_filter]
  exact findSome?_split (hs.exclusive h.target_ne_zero k) _

/-- The committed target level is searched as the inputs, without the
tombstones dropped, then the files left alone. -/
theorem commit_target_findSome? (hdone : c.todo = []) (S : StdSort) (k : Key) :
    ((current.applyEdit S c.edit).files c.target).findSome? (fun f => (fileContents tables f).get k)
      = ((c.inputGet tables k).filter
          (fun v => !(Payload.isTombstone v && decide (c.target.val = maxLevels - 1)))).or
        ((untouched tables current c).findSome? (fun f => (fileContents tables f).get k)) := by
  have hshape := h.commit_shape hs hdone S
  rw [findSome?_perm (hshape.exclusive h.target_ne_zero k) (h.commit_target_perm hs S),
    List.findSome?_append, ← h.get k, results_eq hdone, List.findSome?_map]
  rfl

/-- A key of the inputs is in no file left alone. -/
theorem untouched_findSome?_eq_none (hk : InputKey tables c k) :
    (untouched tables current c).findSome? (fun f => (fileContents tables f).get k) = none := by
  refine findSome?_eq_none (fun u hu => Option.eq_none_iff_forall_ne_some.mpr (fun v hv => ?_))
  obtain ⟨hmem, hov⟩ := mem_untouched hu
  obtain ⟨hlo, hhi⟩ := (hs.exact _ u hmem).mem_range hv
  rcases h.side hs hmem hov with hside | hside
  · exact absurd hhi (not_le.mpr (hside k hk))
  · exact absurd hlo (not_le.mpr (hside k hk))

/-- The two levels a compaction works on answer, together, as they did, a
tombstone dropped at the last level counting as absent. -/
theorem commit_two_levels (hdone : c.todo = []) (S : StdSort) (k : Key) :
    let before := ((current.files c.source).findSome? (fun f => (fileContents tables f).get k)).or
      ((current.files c.target).findSome? (fun f => (fileContents tables f).get k))
    let after := (((current.applyEdit S c.edit).files c.source).findSome?
        (fun f => (fileContents tables f).get k)).or
      (((current.applyEdit S c.edit).files c.target).findSome?
        (fun f => (fileContents tables f).get k))
    live after = live before ∧ (c.target.val ≠ maxLevels - 1 → after = before) := by
  intro before after
  have hbefore : before = (((current.files c.source).filter (fun f => decide (f ∉ c.src))).findSome?
      (fun f => (fileContents tables f).get k)).or ((c.inputGet tables k).or
        ((untouched tables current c).findSome? (fun f => (fileContents tables f).get k))) := by
    show Option.or _ _ = _
    rw [h.source_findSome? hs k, h.target_findSome? hs k, Compaction.inputGet]
    simp only [Option.or_assoc]
  have hafter : after = (((current.files c.source).filter (fun f => decide (f ∉ c.src))).findSome?
      (fun f => (fileContents tables f).get k)).or (((c.inputGet tables k).filter
          (fun v => !(Payload.isTombstone v && decide (c.target.val = maxLevels - 1)))).or
        ((untouched tables current c).findSome? (fun f => (fileContents tables f).get k))) := by
    show Option.or _ _ = _
    rw [h.commit_source hs S, h.commit_target_findSome? hs hdone S k]
  rw [hbefore, hafter]
  cases hin : c.inputGet tables k with
  | none => exact ⟨rfl, fun _ => rfl⟩
  | some v =>
    by_cases hdrop : (Payload.isTombstone v && decide (c.target.val = maxLevels - 1)) = true
    · -- a tombstone dropped at the last level uncovers nothing
      obtain ⟨htomb, htop⟩ := Bool.and_eq_true_iff.mp hdrop
      have hkey : InputKey tables c k := by
        rw [InputKey, hin]
        simp
      refine ⟨live_or_congr ?_, fun hne => absurd (of_decide_eq_true htop) hne⟩
      rw [h.untouched_findSome?_eq_none hs hkey, Option.filter_some, if_neg (by rw [hdrop]; decide),
        Option.or_none, Option.or_none]
      exact (if_pos htomb).symm
    · have hkeep : (some v).filter
          (fun v => !(Payload.isTombstone v && decide (c.target.val = maxLevels - 1)))
          = some v := by
        rw [Option.filter_some, if_pos (by rw [Bool.eq_false_iff.mpr hdrop]; rfl)]
      rw [hkeep]
      exact ⟨rfl, fun _ => rfl⟩

/-- **Committing a compaction keeps every lookup**, a tombstone counting as
absent. -/
theorem commit_lookup (hdone : c.todo = []) (env : Env) (k : Key) :
    live (lookupVersion env tables (current.applyEdit env.stdSort c.edit) k)
      = live (lookupVersion env tables current k) := by
  obtain ⟨hlive, heq⟩ := h.commit_two_levels hs hdone env.stdSort k
  have hs' := h.commit_shape hs hdone env.stdSort
  obtain ⟨hsplit, hpre, hpost, hlast⟩ := finRange_split c.source c.target h.target_eq
  have hother : ∀ level, level ≠ c.source ∧ level ≠ c.target →
      lookupLevel env tables (current.applyEdit env.stdSort c.edit) k level
        = lookupLevel env tables current k level := fun level hl => by
    rw [lookupLevel, lookupLevel, commit_other hs env.stdSort hl.1 hl.2]
  have hcur := fun level => lookupLevel_eq env (hs.exact level) k
  have hnext := fun level => lookupLevel_eq env (hs'.exact level) k
  unfold lookupVersion
  rw [hsplit]
  simp only [List.findSome?_append, findSome?_cons_or]
  rw [findSome?_congr (fun l hl => hother l (hpre l hl)),
    findSome?_congr (fun l hl => hother l (hpost l hl))]
  refine live_or_congr ?_
  rw [← Option.or_assoc, ← Option.or_assoc, hcur, hcur, hnext, hnext]
  by_cases htop : c.target.val = maxLevels - 1
  · rw [hlast htop, List.findSome?_nil, Option.or_none, Option.or_none]
    exact hlive
  · rw [heq htop]

end

end

end JobInv

end Commit
