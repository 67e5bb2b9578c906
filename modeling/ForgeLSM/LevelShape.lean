import ForgeLSM.Compaction
import ForgeLSM.ManifestReplay

/-!
# The shape of a version

The search of a version gives the newest entry of a key only if the version
has a certain shape: L0 in descending file number, every other level a
sequence of disjoint key ranges, every record exact. `Shape` is that shape.
This module says what it gives a search, and how an edit keeps it.

An edit is applied by filtering, appending and sorting. Where the resulting
list can be written down in the order the sort would give,
`applyEdit_files_eq` computes the level; where it can only be described –
the outputs of a merge among the files the merge left alone – sorted by
least key and pairwise disjoint is already in order
(`sort_pairwise_of_disjoint`).
-/

variable {V : Type} {v : Version} {level : Level} {tables : Tables V}

/-- **The shape of a version.** -/
structure Shape (tables : Tables V) (v : Version) : Prop where
  /-- L0 is in strictly descending file number. -/
  l0 : (v.files 0).Pairwise (fun a b => b.sequence < a.sequence)
  /-- Every other level is a sequence of disjoint ranges, in key order. -/
  levels : ∀ level, level ≠ 0 → (v.files level).Pairwise (fun a b => a.maxKey < b.minKey)
  /-- The recorded ranges are the tables' own. -/
  exact : ∀ level, ∀ f ∈ v.files level, Exact tables f

/-- Two files whose ranges do not meet. -/
def RangeDisjoint (a b : FileMetaData) : Prop := a.maxKey < b.minKey ∨ b.maxKey < a.minKey

namespace Shape

theorem empty (tables : Tables V) : Shape tables .empty where
  l0 := List.Pairwise.nil
  levels _ _ := List.Pairwise.nil
  exact _ _ hf := by cases hf

/-- Every level is in the strict order it is kept in. -/
theorem strict (h : Shape tables v) (level : Level) :
    (v.files level).Pairwise (fun a b => Version.levelLt level a b = true) := by
  by_cases hl : level = 0
  · subst hl
    refine h.l0.imp (fun {a b} hab => ?_)
    simpa [Version.levelLt] using hab
  · refine List.Pairwise.imp_of_mem (fun {a b} ha _ hab => ?_) (h.levels level hl)
    have hle := (h.exact level a ha).minKey_le_maxKey
    simpa [Version.levelLt, hl] using lt_of_le_of_lt hle hab

/-- **Below L0 a key is in one file of a level at most.** -/
theorem exclusive (h : Shape tables v) (hl : level ≠ 0) (k : Key) :
    Exclusive (fun f => (fileContents tables f).get k) (v.files level) := by
  refine List.Pairwise.imp_of_mem (fun {a b} ha hb hab => ?_) (h.levels level hl)
  by_contra hc
  rw [not_or, ← ne_eq, ← ne_eq, Option.ne_none_iff_exists', Option.ne_none_iff_exists'] at hc
  obtain ⟨⟨x, hx⟩, ⟨y, hy⟩⟩ := hc
  have hka := ((h.exact level a ha).mem_range hx).2
  have hkb := ((h.exact level b hb).mem_range hy).1
  exact absurd (lt_of_le_of_lt hka hab) (not_lt.mpr hkb)

/-- Two files of a level with one number are one file. -/
theorem eq_of_sequence_eq (h : Shape tables v) {a b : FileMetaData} (ha : a ∈ v.files level)
    (hb : b ∈ v.files level) (hs : a.sequence = b.sequence) : a = b := by
  by_contra hne
  by_cases hl : level = 0
  · subst hl
    rcases pairwise_or_of_ne h.l0 ha hb hne with h | h <;> omega
  · -- one number is one table, so the two ranges are one
    obtain ⟨t, ht, hmin, hmax⟩ := h.exact level a ha
    obtain ⟨t', ht', hmin', hmax'⟩ := h.exact level b hb
    rw [hs, ht'] at ht
    obtain rfl := Option.some.inj ht
    have hle := t'.minKey_le_maxKey
    rcases pairwise_or_of_ne (h.levels level hl) ha hb hne with h | h
    · rw [hmax, hmin'] at h
      exact absurd h (not_lt.mpr hle)
    · rw [hmax', hmin] at h
      exact absurd h (not_lt.mpr hle)

/-- A shape is kept when the tables of the version are. -/
theorem congr_tables {tables tables' : Tables V} (h : Shape tables v)
    (ht : ∀ level, ∀ f ∈ v.files level, tables'.get f.sequence = tables.get f.sequence) :
    Shape tables' v where
  l0 := h.l0
  levels := h.levels
  exact level f hf := by
    obtain ⟨t, hget, hmin, hmax⟩ := h.exact level f hf
    exact ⟨t, by rw [ht level f hf, hget], hmin, hmax⟩

end Shape

/-! ## Applying an edit -/

namespace Version

/-- A level of the next version, written down in order. -/
theorem applyEdit_files_eq (S : StdSort) {e : VersionEdit} {l : List FileMetaData}
    (hp : l.Perm ((v.files level).filter (fun f => !deletes e level f.sequence) ++ added e level))
    (hs : l.Pairwise (fun a b => levelLt level a b = true)) : (v.applyEdit S e).files level = l :=
  S.sort_eq (strictWeak_levelLt level) hp hs

/-- Disjoint files sorted by their least keys follow one another. -/
theorem sort_pairwise_of_disjoint (S : StdSort) (hl : level ≠ 0) {l : List FileMetaData}
    (hd : l.Pairwise RangeDisjoint) (hr : ∀ f ∈ l, f.minKey ≤ f.maxKey) :
    (S.sort (levelLt level) l).Pairwise (fun a b => a.maxKey < b.minKey) := by
  have hp := S.perm (strictWeak_levelLt level) l
  have hd' : (S.sort (levelLt level) l).Pairwise RangeDisjoint :=
    (hp.pairwise_iff (fun hab => hab.symm)).mpr hd
  refine List.Pairwise.imp_of_mem (fun {a b} _ hb hab => ?_)
    (hd'.and (S.sorted (strictWeak_levelLt level) l))
  obtain ⟨hdis, hle⟩ := hab
  rcases hdis with h | h
  · exact h
  · -- the other way round would put the least keys out of order
    simp only [levelLt, hl, if_false, decide_eq_false_iff_not, not_lt] at hle
    have hb' := hr b (hp.mem_iff.mp hb)
    exact absurd (lt_of_le_of_lt (le_trans hle hb') h) (lt_irrefl _)

end Version

/-! ## Splitting a search -/

/-- The levels, split around two that follow one another. -/
theorem finRange_split (source target : Level) (h : target.val = source.val + 1) :
    List.finRange maxLevels = (List.finRange maxLevels).take source.val
        ++ source :: target :: (List.finRange maxLevels).drop (source.val + 2)
      ∧ (∀ l ∈ (List.finRange maxLevels).take source.val, l ≠ source ∧ l ≠ target)
      ∧ (∀ l ∈ (List.finRange maxLevels).drop (source.val + 2), l ≠ source ∧ l ≠ target)
      ∧ (target.val = maxLevels - 1 → (List.finRange maxLevels).drop (source.val + 2) = []) := by
  revert source target
  decide

/-- What a search that counts tombstones as absent sees, after the sources
in front missed. -/
theorem live_or_congr [Payload V] {a b c : Option V} (h : live b = live c) :
    live (a.or b) = live (a.or c) := by
  cases a with
  | none => exact h
  | some x => rfl
