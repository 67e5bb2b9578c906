import ForgeLSM.Lsm

/-!
# Reads past tables that cannot be read

The level search of `KVStore::get` passes a table over when
`get_sstable_reader` cannot load it, and `SSTableReader::get` reports a key as
absent when the block that would hold it cannot be read. Either way the search
goes on to older tables.

For a version of the right shape the tables that have a key come newest first in
the order of the search (`holders_pairwise`), and with failures the search
finds the entry of the first of them that can be read (`lookupFailing_eq`). So a
read is stale exactly when that entry has a value, and not the one of the newest
(`getFailing_newest_iff`).
-/

variable {V : Type}

/-- **Which reads fail**: the tables that do not load, and the blocks, given by
the keys looked for in them. -/
structure ReadFailures where
  load : ℕ → Bool := fun _ => false
  block : ℕ → Key → Bool := fun _ _ => false

/-- A search of a table for a key comes to nothing. -/
def ReadFailures.hides (fails : ReadFailures) (seq : ℕ) (k : Key) : Bool :=
  fails.load seq || fails.block seq k

/-- One iteration of the search of a level, where reads can fail. -/
def probeFileFailing (env : Env) (tables : Tables V) (fails : ReadFailures) (k : Key)
    (f : FileMetaData) : Option V :=
  if k < f.minKey ∨ k > f.maxKey then none
  else if fails.load f.sequence then none
  else match tables.get f.sequence with
    | none => none
    | some t =>
      if !env.disableBloom && !t.bloom.mayContain k then none
      else if fails.block f.sequence k then none
      else t.get k

/-- **The level search of `KVStore::get`**, where reads can fail. -/
def lookupFailing (env : Env) (tables : Tables V) (fails : ReadFailures) (v : Version) (k : Key) :
    Option V :=
  (List.finRange maxLevels).findSome? (fun level =>
    (v.files level).findSome? (probeFileFailing env tables fails k))

/-- What `KVStore::get` returns for an entry it found. -/
def valueOf [Payload V] (read : V → Option Value) (c : V) : Option Value :=
  (live (some c)).bind read

/-- **`KVStore::get`** on the tables of a version, where reads of tables can
fail. -/
def getFailing [Payload V] (env : Env) (tables : Tables V) (fails : ReadFailures)
    (read : V → Option Value) (v : Version) (k : Key) : Option Value :=
  (lookupFailing env tables fails v k).bind (valueOf read)

/-! ## The tables that have a key -/

/-- A table of a version that has a key, and its entry. -/
structure Holder (V : Type) where
  level : Level
  file : FileMetaData
  entry : V

/-- One is newer than the other: it is at a lesser level, or has the greater
number at the same. -/
def Holder.Newer (a b : Holder V) : Prop :=
  a.level < b.level ∨ a.level = b.level ∧ b.file.sequence < a.file.sequence

/-- The newest of some. -/
def Newest (hs : List (Holder V)) (h : Holder V) : Prop := h ∈ hs ∧ ∀ g ∈ hs, g = h ∨ h.Newer g

theorem Holder.Newer.asymm {a b : Holder V} (h : a.Newer b) : ¬ b.Newer a := by
  rintro (hlt | ⟨heq, hlt⟩) <;> rcases h with hlt' | ⟨heq', hlt'⟩
  · exact lt_asymm hlt hlt'
  · exact absurd heq' hlt.ne'
  · exact absurd heq hlt'.ne'
  · exact lt_asymm hlt hlt'

/-- In a list that goes from newer to older the newest comes first. -/
theorem newest_iff_head? {hs : List (Holder V)} (hp : hs.Pairwise Holder.Newer) {h : Holder V} :
    Newest hs h ↔ hs.head? = some h := by
  cases hs with
  | nil => simp [Newest]
  | cons first rest =>
    obtain ⟨hfirst, -⟩ := List.pairwise_cons.mp hp
    constructor
    · rintro ⟨hmem, hnew⟩
      rcases List.mem_cons.mp hmem with rfl | hmem
      · rfl
      · rcases hnew first List.mem_cons_self with rfl | hlt
        · rfl
        · exact absurd hlt (hfirst h hmem).asymm
    · intro heq
      cases heq
      refine ⟨List.mem_cons_self, fun g hg => ?_⟩
      exact (List.mem_cons.mp hg).imp_right (hfirst g)

/-- **The tables of a version that have a key**, readable or not, in the order of
the search. -/
def holders (tables : Tables V) (v : Version) (k : Key) : List (Holder V) :=
  (List.finRange maxLevels).flatMap (fun level =>
    (v.files level).filterMap (fun f => ((fileContents tables f).get k).map (Holder.mk level f)))

section Search

variable {tables : Tables V} {v : Version} {k : Key}

theorem mem_filterMap_holder {level : Level} {fs : List FileMetaData} {h : Holder V}
    (hh : h ∈ fs.filterMap (fun f => ((fileContents tables f).get k).map (Holder.mk level f))) :
    h.level = level ∧ h.file ∈ fs ∧ (fileContents tables h.file).get k = some h.entry := by
  obtain ⟨f, hf, hget⟩ := List.mem_filterMap.mp hh
  obtain ⟨c, hc, rfl⟩ := Option.map_eq_some_iff.mp hget
  exact ⟨rfl, hf, hc⟩

/-- **The search goes from newer tables to older ones.** -/
theorem holders_pairwise (hs : Shape tables v) (k : Key) :
    (holders tables v k).Pairwise Holder.Newer := by
  unfold holders
  rw [List.pairwise_flatMap]
  refine ⟨fun level _ => ?_, ?_⟩
  · rw [List.pairwise_filterMap]
    by_cases hl : level = 0
    · subst hl
      refine hs.l0.imp (fun {f g} hlt a ha b hb => ?_)
      obtain ⟨c, -, rfl⟩ := Option.map_eq_some_iff.mp ha
      obtain ⟨d, -, rfl⟩ := Option.map_eq_some_iff.mp hb
      exact Or.inr ⟨rfl, hlt⟩
    · -- the key is in one range only
      refine List.Pairwise.imp_of_mem (fun {f g} hf hg hlt a ha b hb => ?_) (hs.levels level hl)
      obtain ⟨c, hc, rfl⟩ := Option.map_eq_some_iff.mp ha
      obtain ⟨d, hd, rfl⟩ := Option.map_eq_some_iff.mp hb
      have hle := ((hs.exact level f hf).mem_range hc).2
      have hge := ((hs.exact level g hg).mem_range hd).1
      exact absurd (lt_of_lt_of_le hlt hge) (not_lt.mpr hle)
  · refine (List.pairwise_lt_finRange maxLevels).imp (fun {l l'} hlt a ha b hb => Or.inl ?_)
    rw [(mem_filterMap_holder ha).1, (mem_filterMap_holder hb).1]
    exact hlt

/-- A table that cannot be read gives nothing, and any other its entry. -/
theorem probeFileFailing_eq (env : Env) (fails : ReadFailures) {f : FileMetaData}
    (hf : Exact tables f) (k : Key) :
    probeFileFailing env tables fails k f
      = if fails.hides f.sequence k then none else (fileContents tables f).get k := by
  rw [← hf.within.probeFile_eq env k]
  unfold probeFileFailing probeFile ReadFailures.hides
  by_cases hrange : k < f.minKey ∨ k > f.maxKey
  · rw [if_pos hrange, if_pos hrange, ite_self]
  · rw [if_neg hrange, if_neg hrange]
    cases fails.load f.sequence with
    | true => rfl
    | false =>
      cases tables.get f.sequence with
      | none => simp
      | some t => cases fails.block f.sequence k <;> simp

/-- The tables that have a key and can be searched for it. -/
def readableHolders (tables : Tables V) (fails : ReadFailures) (v : Version) (k : Key) :
    List (Holder V) :=
  (holders tables v k).filter (fun h => !fails.hides h.file.sequence k)

theorem readableHolders_pairwise (hs : Shape tables v) (fails : ReadFailures) (k : Key) :
    (readableHolders tables fails v k).Pairwise Holder.Newer :=
  (holders_pairwise hs k).filter _

/-- **What the search finds**: the entry of the first table that has the key and
can be read. -/
theorem lookupFailing_eq (env : Env) (fails : ReadFailures) (hs : Shape tables v) (k : Key) :
    lookupFailing env tables fails v k
      = (readableHolders tables fails v k).head?.map Holder.entry := by
  have hlevel : ∀ level, ∀ fs : List FileMetaData, (∀ f ∈ fs, Exact tables f) →
      fs.findSome? (probeFileFailing env tables fails k)
        = ((fs.filterMap (fun f => ((fileContents tables f).get k).map (Holder.mk level f))).find?
          (fun h => !fails.hides h.file.sequence k)).map Holder.entry := by
    intro level fs hfs
    induction fs with
    | nil => rfl
    | cons f fs ih =>
      have ih := ih (fun g hg => hfs g (List.mem_cons_of_mem f hg))
      rw [findSome?_cons_or, probeFileFailing_eq env fails (hfs f List.mem_cons_self), ih,
        List.filterMap_cons]
      cases hc : (fileContents tables f).get k with
      | none => simp
      | some c =>
        cases hh : fails.hides f.sequence k <;> simp [hh]
  unfold lookupFailing readableHolders
  rw [List.head?_filter, holders, List.find?_flatMap, List.map_findSome?]
  exact findSome?_congr (fun level _ => hlevel level _ (hs.exact level))

/-- **When a read that can fail is not stale.** Take any version of the right
shape, any of its tables failing to load and any blocks failing to be read. A
value that a read of a key returns is that of the newest entry of the key over
all tables of the version exactly when the newest entry that can be read, if there
is one, is a tombstone or leads to no value, or has the value of the newest of
all – as it has when it is that one. -/
theorem getFailing_newest_iff [Payload V] (env : Env) (hs : Shape tables v) (fails : ReadFailures)
    (read : V → Option Value) (k : Key) :
    (∀ w, getFailing env tables fails read v k = some w →
        ∃ newest, Newest (holders tables v k) newest ∧ valueOf read newest.entry = some w)
      ↔ ∀ first newest, Newest (readableHolders tables fails v k) first →
          Newest (holders tables v k) newest →
        valueOf read first.entry = none
          ∨ valueOf read first.entry = valueOf read newest.entry := by
  have hnewest : ∀ h, Newest (holders tables v k) h ↔ (holders tables v k).head? = some h :=
    fun h => newest_iff_head? (holders_pairwise hs k)
  have hfirst : ∀ h, Newest (readableHolders tables fails v k) h
      ↔ (readableHolders tables fails v k).head? = some h :=
    fun h => newest_iff_head? (readableHolders_pairwise hs fails k)
  simp only [hnewest, hfirst]
  unfold getFailing
  rw [lookupFailing_eq env fails hs k]
  cases hread : (readableHolders tables fails v k).head? with
  | none => simp
  | some first =>
    have hmem : first ∈ holders tables v k := List.mem_of_mem_filter (List.mem_of_head? hread)
    rw [List.head?_eq_some_head (List.ne_nil_of_mem hmem), Option.map_some, Option.bind_some]
    constructor
    · intro h first' newest hf hn
      cases hf
      cases hn
      cases hval : valueOf read first.entry with
      | none => exact Or.inl rfl
      | some w =>
        obtain ⟨newest, hnew, hw⟩ := h w hval
        cases hnew
        exact Or.inr hw.symm
    · intro h w hw
      refine ⟨_, rfl, ?_⟩
      rcases h first _ rfl rfl with hnone | heq
      · rw [hnone] at hw
        cases hw
      · rw [← heq, hw]

end Search

/-- A key is flushed twice. -/
def twoFlushes : List (LsmAction VLogPointer) :=
  Lsm.flushOne [97] ⟨1, 9, 1⟩ ++ Lsm.flushOne [97] ⟨1, 19, 1⟩

/-- The values of the two. -/
def readTwo (p : VLogPointer) : Option Value := if p.offset = 9 then some [1] else some [2]

/-- A block of the older table fails, and the newer is read. -/
theorem getFailing_newest_iff_twoFlushes :
    let s := finalState (Lsm.step .small) {} twoFlushes
    let fails : ReadFailures := { block := fun seq _ => seq == 2 }
    getFailing .small s.tables fails readTwo s.vs.current [97] = some [2]
      ∧ ∀ w, getFailing .small s.tables fails readTwo s.vs.current [97] = some w →
        ∃ newest, Newest (holders s.tables s.vs.current [97]) newest
          ∧ valueOf readTwo newest.entry = some w := by
  intro s fails
  have hs : Shape s.tables s.vs.current :=
    (Lsm.inv_fresh.run (runSteps_eq_finalState (by decide +kernel))).shape
  refine ⟨by decide +kernel, (getFailing_newest_iff .small hs fails readTwo [97]).mpr ?_⟩
  intro first newest hfirst hnewest
  have hhead : (readableHolders s.tables fails s.vs.current [97]).head?
      = (holders s.tables s.vs.current [97]).head? := rfl
  rw [(newest_iff_head? (readableHolders_pairwise hs fails [97])).mp hfirst,
    (newest_iff_head? (holders_pairwise hs [97])).mp hnewest] at hhead
  exact Or.inr (by rw [Option.some.inj hhead])

/-- **Stale reads.** The newer table does not load, or its block is not read, and
the value of the older one is returned; the newer entry being a tombstone, a key
that was deleted is found. -/
theorem getFailing_stale :
    let s := finalState (Lsm.step .small) {} twoFlushes
    let d := finalState (Lsm.step .small) {}
      (Lsm.flushOne [97] ⟨1, 9, 1⟩ ++ Lsm.flushOne [97] (.tombstone 1))
    getFailing .small s.tables {} readTwo s.vs.current [97] = some [2]
      ∧ getFailing .small s.tables { load := fun seq => seq == 3 } readTwo s.vs.current [97]
        = some [1]
      ∧ getFailing .small s.tables { block := fun seq _ => seq == 3 } readTwo s.vs.current [97]
        = some [1]
      ∧ getFailing .small d.tables {} readTwo d.vs.current [97] = none
      ∧ getFailing .small d.tables { load := fun seq => seq == 3 } readTwo d.vs.current [97]
        = some [1] := by
  decide +kernel
