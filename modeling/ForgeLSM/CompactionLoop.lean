import ForgeLSM.Lsm

/-!
# The compaction loop

The background task runs one compaction after another until no level is due. A
compaction can push the level below over its limit and rewrite many files there,
so neither the number of files nor the size of any level goes down from one to
the next.

What does is the number of entries, each counted once for every level it can still
sink. A compaction moves the entries of its source down by a level, and the merge
drops entries and makes none (`weigh_mergeInputs_le`). Since its source has a file and
no table is empty, the weight decreases (`runCompaction_decreases`), and the loop ends
(`bgCompactionWorker_balances`). It ends in a balanced tree because the test it ends
with is the choice of `run_compaction`, made once more (`compactionDue_eq`).
-/

variable {V : Type} {v : Version} {tables : Tables V}

/-! ## The loop -/

/-- The loop of `bg_compaction_worker` over the levels 1 to 4, the best score so
far kept as the size and the limit. -/
def scoreLoop (env : Env) (v : Version) : List Level → ℕ → Option (ℕ × ℕ) → Option (ℕ × ℕ)
  | [], _, best => best
  | level :: rest, limit, best =>
    let size := levelSize v level
    let better := match best with
      | none => true
      | some b => env.scoring.gt (size, limit) b
    scoreLoop env v rest (limit * env.opts.levelSizeMultiplier % 2 ^ 64)
      (if env.scoring.geOne size limit && better then some (size, limit) else best)

/-- **The test of `bg_compaction_worker`**: some score is at least one. -/
def compactionDue (env : Env) (v : Version) : Bool :=
  let l0 := ((v.files 0).length, env.opts.l0Trigger)
  (scoreLoop env v [1, 2, 3, 4]
    (env.opts.flushThresholdBytes * env.opts.levelSizeMultiplier % 2 ^ 64)
    (if env.scoring.geOne l0.1 l0.2 then some l0 else none)).isSome

namespace Lsm

variable [Payload V]

/-- The steps of `run_compaction` with nothing in between. -/
def compactionSteps (env : Env) (s : Lsm V) : List (LsmAction V) :=
  match Compaction.start env s.tables s.vs.current with
  | none => [.compactStart]
  | some c => .compactStart :: (List.replicate c.todo.length .compactOutput
      ++ [.compactCommit, .purgeObsoleteFiles])

/-- **`run_compaction`**, all writes succeeding. -/
def runCompaction (env : Env) (s : Lsm V) : Option (Lsm V) :=
  runSteps (Lsm.step env) s (s.compactionSteps env)

/-- **`KVStore::bg_compaction_worker`**, for fewer compactions than the fuel: how
many it ran, and the tree it leaves. -/
def bgCompactionWorker (env : Env) : ℕ → Lsm V → Option (ℕ × Lsm V)
  | 0, _ => none
  | fuel + 1, s =>
    if compactionDue env s.vs.current then
      (s.runCompaction env).bind (fun s' =>
        (bgCompactionWorker env fuel s').map (fun p => (p.1 + 1, p.2)))
    else some (0, s)

end Lsm

/-! ## The test and the choice -/

/-- The two loops differ in that one of them keeps the level. -/
theorem scoreLoop_eq (env : Env) (v : Version) (levels : List Level) (limit : ℕ)
    (best : Option (Level × ℕ × ℕ)) :
    scoreLoop env v levels limit (best.map Prod.snd)
      = (pickLoop env v levels limit best).map Prod.snd := by
  induction levels generalizing limit best with
  | nil => rfl
  | cons level rest ih =>
    cases best with
    | none =>
      rw [pickLoop, ← ih, Option.map_none, scoreLoop]
      congr 1
      split_ifs <;> rfl
    | some b =>
      rw [pickLoop, ← ih, Option.map_some, scoreLoop]
      congr 1
      split_ifs <;> rfl

/-- **The loop goes on exactly while `run_compaction` finds a level.** -/
theorem compactionDue_eq (env : Env) (v : Version) :
    compactionDue env v = (pickLevel env v).isSome := by
  have hloop := scoreLoop_eq env v [1, 2, 3, 4]
    (env.opts.flushThresholdBytes * env.opts.levelSizeMultiplier % 2 ^ 64)
    (if env.scoring.geOne (v.files 0).length env.opts.l0Trigger
      then some (0, (v.files 0).length, env.opts.l0Trigger) else none)
  have hsome := congrArg Option.isSome hloop
  rw [Option.isSome_map, apply_ite (Option.map Prod.snd)] at hsome
  unfold pickLevel
  rw [Option.isSome_map]
  exact hsome

/-- A level found stays found, or gives way to another. -/
theorem pickLoop_some_ne_none (env : Env) (v : Version) (levels : List Level) (limit : ℕ)
    (b : Level × ℕ × ℕ) : pickLoop env v levels limit (some b) ≠ none := by
  induction levels generalizing limit b with
  | nil => exact Option.some_ne_none b
  | cons level rest ih =>
    rw [pickLoop]
    split_ifs
    · exact ih _ _
    · exact ih _ _

/-- **Where the loop finds no level**, the first of those it looks at is not due. -/
theorem geOne_of_pickLoop_eq_none {env : Env} {level : Level} {rest : List Level} {limit : ℕ}
    (h : pickLoop env v (level :: rest) limit none = none) :
    env.scoring.geOne (levelSize v level) limit = false
      ∧ pickLoop env v rest (limit * env.opts.levelSizeMultiplier % 2 ^ 64) none = none := by
  rw [pickLoop] at h
  cases hge : env.scoring.geOne (levelSize v level) limit with
  | false =>
    rw [hge] at h
    exact ⟨rfl, h⟩
  | true =>
    rw [hge] at h
    exact absurd h (pickLoop_some_ne_none env v rest _ _)

/-- Where no level is due, L0 is not, or the loop would have started with it. -/
theorem geOne_l0_of_pickLevel_eq_none {env : Env} (h : pickLevel env v = none) :
    env.scoring.geOne (v.files 0).length env.opts.l0Trigger = false := by
  have hloop := Option.map_eq_none_iff.mp h
  refine Bool.eq_false_iff.mpr (fun hge => ?_)
  rw [if_pos hge] at hloop
  exact pickLoop_some_ne_none env v _ _ _ hloop

/-- The limit of a level. -/
def levelLimit (o : Options) (level : ℕ) : ℕ :=
  o.flushThresholdBytes * o.levelSizeMultiplier ^ level

theorem Options.flushThresholdBytes_pos (o : Options) : 0 < o.flushThresholdBytes := by
  unfold flushThresholdBytes
  split_ifs with h
  · exact h
  · decide

theorem Options.l0Trigger_pos (o : Options) : 0 < o.l0Trigger := by
  unfold l0Trigger
  split_ifs with h
  · exact h
  · decide

/-- What is not due is below its limit. -/
theorem Scoring.lt_of_exact {size limit : ℕ} (hpos : 0 < limit)
    (h : Scoring.exact.geOne size limit = false) : size < limit := by
  simp only [Scoring.exact, decide_eq_false_iff_not] at h
  omega

section Limits

variable {env : Env} (hexact : env.scoring = Scoring.exact)
  (hm : 1 ≤ env.opts.levelSizeMultiplier) (hlimit : levelLimit env.opts 4 < 2 ^ 64)

include hm hlimit in
/-- The limits are positive, and none of them wraps. -/
theorem levelLimit_bounds {level : ℕ} (hl : level ≤ 4) :
    0 < levelLimit env.opts level ∧ levelLimit env.opts level < 2 ^ 64 := by
  refine ⟨Nat.mul_pos env.opts.flushThresholdBytes_pos (Nat.pow_pos hm), ?_⟩
  exact lt_of_le_of_lt (Nat.mul_le_mul_left _ (Nat.pow_le_pow_right hm hl)) hlimit

include hm hlimit in
/-- One round of the loop computes the next limit. -/
theorem levelLimit_succ (level : ℕ) (hl : level + 1 ≤ 4) :
    levelLimit env.opts level * env.opts.levelSizeMultiplier % 2 ^ 64
      = levelLimit env.opts (level + 1) := by
  have hmul : levelLimit env.opts level * env.opts.levelSizeMultiplier
      = levelLimit env.opts (level + 1) := by
    unfold levelLimit
    rw [Nat.pow_succ, Nat.mul_assoc]
  rw [hmul]
  exact Nat.mod_eq_of_lt (levelLimit_bounds hm hlimit hl).2

include hexact hm hlimit in
/-- **The loop stops in balance.** -/
theorem lt_limits_of_pickLevel_eq_none (h : pickLevel env v = none) :
    (v.files 0).length < env.opts.l0Trigger ∧ ∀ level : Level, 1 ≤ level.val → level.val ≤ 4 →
      levelSize v level < levelLimit env.opts level.val := by
  have hloop := Option.map_eq_none_iff.mp h
  have hl0 := geOne_l0_of_pickLevel_eq_none h
  rw [if_neg (by rw [hl0]; exact Bool.false_ne_true)] at hloop
  have hfirst : env.opts.flushThresholdBytes * env.opts.levelSizeMultiplier % 2 ^ 64
      = levelLimit env.opts 1 := by
    have := levelLimit_succ hm hlimit 0 (by decide)
    rwa [show levelLimit env.opts 0 = env.opts.flushThresholdBytes from Nat.mul_one _] at this
  rw [hfirst] at hloop
  obtain ⟨h1, hloop⟩ := geOne_of_pickLoop_eq_none hloop
  rw [levelLimit_succ hm hlimit 1 (by decide)] at hloop
  obtain ⟨h2, hloop⟩ := geOne_of_pickLoop_eq_none hloop
  rw [levelLimit_succ hm hlimit 2 (by decide)] at hloop
  obtain ⟨h3, hloop⟩ := geOne_of_pickLoop_eq_none hloop
  rw [levelLimit_succ hm hlimit 3 (by decide)] at hloop
  obtain ⟨h4, -⟩ := geOne_of_pickLoop_eq_none hloop
  rw [hexact] at hl0 h1 h2 h3 h4
  refine ⟨Scoring.lt_of_exact env.opts.l0Trigger_pos hl0, fun level hlo hhi => ?_⟩
  refine Scoring.lt_of_exact (levelLimit_bounds hm hlimit hhi).1 ?_
  have hall : ∀ l : Level, 1 ≤ l.val → l.val ≤ 4 → l = 1 ∨ l = 2 ∨ l = 3 ∨ l = 4 := by decide
  obtain hl | hl | hl | hl := hall level hlo hhi
  · exact hl ▸ h1
  · exact hl ▸ h2
  · exact hl ▸ h3
  · exact hl ▸ h4

end Limits

/-! ## What a merge weighs -/

/-- The weight of a map's entries, each by its key. -/
def weigh (h : Key → ℕ) (m : OrdMap Key V) : ℕ := (m.entries.map (fun e => h e.1)).sum

theorem weigh_le_of_sublist {h : Key → ℕ} {m m' : OrdMap Key V}
    (hs : m.entries.Sublist m'.entries) : weigh h m ≤ weigh h m' :=
  (hs.map _).sum_le_sum (fun _ _ => Nat.zero_le _)

/-- **Cutting neither adds nor loses weight.** -/
theorem weigh_chunks (h : Key → ℕ) (limit : ℕ) (m : OrdMap Key V) :
    ((chunks limit m).map (fun c => weigh h c.contents)).sum = weigh h m := by
  unfold weigh
  rw [← flatten_chunks limit m, List.map_flatten, List.sum_flatten, List.map_map, List.map_map]
  rfl

/-- Dropping repeats leaves a part of the list. -/
theorem dedupKey_sublist {α K : Type*} [DecidableEq K] (key : α → K) (last : Option K)
    (l : List α) : (dedupKey key last l).Sublist l := by
  induction l generalizing last with
  | nil => exact List.Sublist.refl []
  | cons x xs ih =>
    rw [dedupKey]
    split_ifs
    · exact (ih last).cons x
    · exact (ih _).cons_cons x

/-- The items of a file weigh what the file does. -/
theorem sum_fileItems (h : Key → ℕ) (tables : Tables V) (level : ℕ) (f : FileMetaData) :
    ((fileItems tables level f).map (fun x => h x.key)).sum = weigh h (fileContents tables f) := by
  unfold fileItems weigh
  rw [List.map_map]
  rfl

/-- **The merge weighs no more than its inputs.** -/
theorem weigh_mergeInputs_le (h : Key → ℕ) (tables : Tables V) (source target : ℕ)
    (src tgt : List FileMetaData) :
    weigh h (mergeInputs tables source target src tgt)
      ≤ (src.map (fun f => weigh h (fileContents tables f))).sum
        + (tgt.map (fun f => weigh h (fileContents tables f))).sum := by
  have hperm : (mergeItems tables source target src tgt).Perm
      (mergeIters tables source target src tgt).flatten := drain_perm MergeItem.le (le_refl _)
  calc weigh h (mergeInputs tables source target src tgt)
      = ((dedupKey MergeItem.key none (mergeItems tables source target src tgt)).map
          (fun x => h x.key)).sum := by
        unfold weigh mergeInputs
        rw [List.map_map]
        rfl
    _ ≤ ((mergeItems tables source target src tgt).map (fun x => h x.key)).sum :=
        ((dedupKey_sublist _ _ _).map _).sum_le_sum (fun _ _ => Nat.zero_le _)
    _ = ((mergeIters tables source target src tgt).flatten.map (fun x => h x.key)).sum :=
        (hperm.map _).sum_eq
    _ = _ := by
        rw [List.map_flatten, List.sum_flatten, List.map_map, mergeIters, List.map_append,
          List.sum_append, List.map_map, List.map_map, Nat.add_comm]
        simp only [Function.comp_def, sum_fileItems]

/-- **The outputs of a compaction weigh no more than its inputs.** -/
theorem weigh_todo_le [Payload V] {env : Env} {c : Compaction V}
    (hc : Compaction.start env tables v = some c) (h : Key → ℕ) :
    (c.todo.map (fun chunk => weigh h chunk.contents)).sum
      ≤ (c.src.map (fun f => weigh h (fileContents tables f))).sum
        + (c.tgt.map (fun f => weigh h (fileContents tables f))).sum := by
  obtain ⟨source, ht, -, rfl⟩ := Compaction.start_cases hc
  rw [weigh_chunks]
  exact le_trans (weigh_le_of_sublist List.filter_sublist)
    (weigh_mergeInputs_le h tables source.val (source.val + 1) _ _)

/-- The bytes an entry can add to the size of a table, the fixed part of the table
included. -/
def entryBytes (k : Key) : ℕ := 44 + k.length

/-- The size the loop computes for a chunk. -/
theorem chunkLoop_size (limit : ℕ) (chunk : List (Key × V)) (es : List (Key × V)) :
    ∀ c ∈ chunkLoop limit chunk (chunk.map (fun e => e.1.length + 20)).sum es,
      c.2 = (c.1.map (fun e => e.1.length + 20)).sum := by
  induction es generalizing chunk with
  | nil =>
    intro c hc
    rw [chunkLoop] at hc
    split_ifs at hc
    · cases hc
    · rw [List.mem_singleton.mp hc]
  | cons e es ih =>
    intro c hc
    have hsize : (chunk.map (fun e => e.1.length + 20)).sum + e.1.length + 20
        = ((chunk ++ [e]).map (fun e => e.1.length + 20)).sum := by
      rw [List.map_append, List.sum_append]
      simp [Nat.add_assoc]
    rw [chunkLoop, hsize] at hc
    split_ifs at hc
    · rcases List.mem_cons.mp hc with rfl | hc
      · rfl
      · exact ih [] c hc
    · exact ih (chunk ++ [e]) c hc

/-- **The recorded size of an output is covered by its entries.** -/
theorem size_le_of_mem_chunks {limit : ℕ} {m : OrdMap Key V} {c : Chunk V}
    (hc : c ∈ chunks limit m) : c.size + 24 ≤ weigh entryBytes c.contents := by
  obtain ⟨p, hp, hpc⟩ := List.mem_pmap.mp hc
  have hsize : c.size = (c.contents.entries.map (fun e => e.1.length + 20)).sum := by
    rw [← hpc]
    exact chunkLoop_size limit [] m.entries p hp
  have hall : weigh entryBytes c.contents = c.size + c.contents.entries.length * 24 := by
    rw [hsize]
    unfold weigh entryBytes
    rw [← smul_eq_mul, ← List.sum_replicate, ← List.map_const', ← List.sum_map_add]
    exact congrArg List.sum (List.map_congr_left (fun e _ => by omega))
  have hlen := List.length_pos_iff.mpr c.nonempty
  omega

theorem size_le_of_mem_todo [Payload V] {env : Env} {c : Compaction V}
    (hc : Compaction.start env tables v = some c) {chunk : Chunk V} (hmem : chunk ∈ c.todo) :
    chunk.size + 24 ≤ weigh entryBytes chunk.contents := by
  obtain ⟨source, ht, -, rfl⟩ := Compaction.start_cases hc
  exact size_le_of_mem_chunks hmem

/-! ## What a version weighs -/

namespace Version

/-- The files of a version, each with a weight of its own and that many times as its
level says. -/
def total (times : Level → ℕ) (g : FileMetaData → ℕ) (v : Version) : ℕ :=
  ∑ level, times level * ((v.files level).map g).sum

/-- What an edit does to the weight of a level. -/
theorem sum_applyEdit_le (S : StdSort) (v : Version) (e : VersionEdit) (level : Level)
    (g : FileMetaData → ℕ) {removed : List FileMetaData} (hsub : removed.Sublist (v.files level))
    (hdel : ∀ f ∈ removed, deletes e level f.sequence = true) :
    (((v.applyEdit S e).files level).map g).sum + (removed.map g).sum
      ≤ ((v.files level).map g).sum + ((added e level).map g).sum := by
  have hnew := ((applyEdit_perm S v e level).map g).sum_eq
  have hsplit := ((List.filter_append_perm (fun f => deletes e level f.sequence)
    (v.files level)).map g).sum_eq
  have hle : (removed.map g).sum
      ≤ (((v.files level).filter (fun f => deletes e level f.sequence)).map g).sum := by
    have hin := hsub.filter (fun f => deletes e level f.sequence)
    rw [List.filter_eq_self.mpr hdel] at hin
    exact (hin.map g).sum_le_sum (fun _ _ => Nat.zero_le _)
  rw [List.map_append, List.sum_append] at hnew hsplit
  omega

/-- **What a compaction does to the weight of a version.** -/
theorem total_applyEdit_le (S : StdSort) (v : Version) (c : Compaction V)
    (hne : c.source ≠ c.target) (hsrc : c.src.Sublist (v.files c.source))
    (htgt : c.tgt.Sublist (v.files c.target)) (times : Level → ℕ) (g : FileMetaData → ℕ) :
    (v.applyEdit S c.edit).total times g
        + (times c.source * (c.src.map g).sum + times c.target * (c.tgt.map g).sum)
      ≤ v.total times g + times c.target * (c.outputs.map g).sum := by
  let removed : Level → List FileMetaData := fun level =>
    if level = c.source then c.src else if level = c.target then c.tgt else []
  have hlevel : ∀ level, (((v.applyEdit S c.edit).files level).map g).sum
      + ((removed level).map g).sum
        ≤ ((v.files level).map g).sum + ((added c.edit level).map g).sum := by
    intro level
    refine sum_applyEdit_le S v c.edit level g ?_ (fun f hf => ?_)
    · dsimp only [removed]
      split_ifs with h₁ h₂
      · exact h₁ ▸ hsrc
      · exact h₂ ▸ htgt
      · exact List.nil_sublist _
    · dsimp only [removed] at hf
      rw [c.deletes_edit]
      split_ifs at hf with h₁ h₂
      · exact Or.inl ⟨h₁, f, hf, rfl⟩
      · exact Or.inr ⟨h₂, f, hf, rfl⟩
      · cases hf
  have hremoved : ∑ level, times level * ((removed level).map g).sum
      = times c.source * (c.src.map g).sum + times c.target * (c.tgt.map g).sum := by
    rw [Fintype.sum_eq_add c.source c.target hne]
    · dsimp only [removed]
      rw [if_pos rfl, if_neg hne.symm, if_pos rfl]
    · rintro level ⟨h₁, h₂⟩
      dsimp only [removed]
      rw [if_neg h₁, if_neg h₂]
      rfl
  have hadded : ∑ level, times level * ((added c.edit level).map g).sum
      = times c.target * (c.outputs.map g).sum := by
    rw [Fintype.sum_eq_single c.target]
    · rw [c.added_edit, if_pos rfl]
    · intro level hl
      rw [c.added_edit, if_neg hl]
      rfl
  rw [← hremoved, ← hadded, total, total, ← Finset.sum_add_distrib, ← Finset.sum_add_distrib]
  refine Finset.sum_le_sum (fun level _ => ?_)
  rw [← Nat.mul_add, ← Nat.mul_add]
  exact Nat.mul_le_mul_left _ (hlevel level)

theorem total_congr (times : Level → ℕ) {g g' : FileMetaData → ℕ}
    (h : ∀ level, ∀ f ∈ v.files level, g f = g' f) : v.total times g = v.total times g' :=
  Finset.sum_congr rfl (fun level _ => by rw [List.map_congr_left (h level)])

end Version

/-! ## One compaction -/

/-- **The inputs of a compaction**: files of two levels that follow one another, with one
from the upper at least. -/
theorem Compaction.inputs_start [Payload V] {env : Env} {c : Compaction V}
    (hc : Compaction.start env tables v = some c) :
    c.target.val = c.source.val + 1 ∧ c.src ≠ [] ∧ c.src.Sublist (v.files c.source)
      ∧ c.tgt.Sublist (v.files c.target) := by
  obtain ⟨source, h, hpick, rfl⟩ := Compaction.start_cases hc
  have hne := (pickLevel_spec hpick).2
  dsimp only
  refine ⟨rfl, ?_, ?_, List.filter_sublist⟩
  · unfold srcInputs
    split_ifs with h0
    · exact h0 ▸ hne
    · simpa using hne
  · unfold srcInputs
    split_ifs with h0
    · rw [h0]
    · exact List.take_sublist 1 _

/-- A level that is due has a compaction. -/
theorem Compaction.start_of_pickLevel [Payload V] {env : Env} (tables : Tables V) {source : Level}
    (h : pickLevel env v = some source) : ∃ c, Compaction.start env tables v = some c := by
  have hlt : source.val + 1 < maxLevels := by
    have := (pickLevel_spec h).1
    unfold maxLevels
    omega
  unfold Compaction.start
  rw [h]
  dsimp only
  rw [dif_pos hlt]
  exact ⟨_, rfl⟩

/-- A compaction whose outputs are written. -/
def Compaction.finished (c : Compaction V) (outputs : List FileMetaData) : Compaction V :=
  { c with todo := [], outputs := outputs }

namespace Lsm

/-- **A tree the loop can run on**: no compaction is under way, the numbers of the
version were handed out, and its tables load. -/
structure Loadable (s : Lsm V) : Prop where
  bound : ∀ level, ∀ f ∈ s.vs.current.files level, f.sequence ≤ s.vs.nextFileNumber
  loads : ∀ level, ∀ f ∈ s.vs.current.files level, (s.tables.get f.sequence).isSome = true
  job : s.job = none
  purging : s.purging = none

/-- A file that is the output written for a chunk. -/
structure Written (env : Env) (s : Lsm V) (f : FileMetaData) (chunk : Chunk V) : Prop where
  table : s.tables.get f.sequence = some (SSTable.write env chunk.contents chunk.nonempty)
  size : f.fileSize = chunk.size + 24
  bound : f.sequence ≤ s.vs.nextFileNumber

variable [Payload V] {env : Env} {s s' : Lsm V} {todo : List (Chunk V)}

/-- A tree of the right shape can be compacted whenever no compaction is under way. -/
theorem Inv.loadable (hi : s.Inv) (hjob : s.job = none) (hpurging : s.purging = none) :
    Loadable s where
  bound := hi.bound
  loads level f hf := by
    obtain ⟨t, ht, -⟩ := hi.shape.exact level f hf
    rw [ht]
    rfl
  job := hjob
  purging := hpurging

omit [Payload V] in
/-- Writing the next output of a compaction. -/
theorem exists_compactOutput (env : Env) {c : Compaction V} (hc : s.job = some c) {chunk : Chunk V}
    (htodo : c.todo = chunk :: todo) :
    ∃ t, s.compactOutput env = some t ∧ t.vs = s.vs.freshFileNumber.2
      ∧ t.tables = s.tables.insert (s.vs.nextFileNumber + 1)
          (SSTable.write env chunk.contents chunk.nonempty)
      ∧ t.job = some { c with
          todo := todo, outputs := c.outputs ++ [chunk.record (s.vs.nextFileNumber + 1)] } := by
  unfold compactOutput
  rw [hc]
  dsimp only
  rw [htodo]
  exact ⟨_, rfl, rfl, rfl, rfl⟩

/-- **The outputs of a compaction, one after another**: each gets a number of its own
and a table, and nothing that was there changes. -/
theorem runSteps_compactOutput {c : Compaction V} (hc : s.job = some c) :
    ∃ t new, runSteps (Lsm.step env) s (List.replicate c.todo.length .compactOutput) = some t
      ∧ t.job = some (c.finished (c.outputs ++ new))
      ∧ t.vs.current = s.vs.current ∧ s.vs.nextFileNumber ≤ t.vs.nextFileNumber
      ∧ (∀ seq ≤ s.vs.nextFileNumber, t.tables.get seq = s.tables.get seq)
      ∧ List.Forall₂ (Written env t) new c.todo := by
  generalize htodo : c.todo = todo
  induction todo generalizing s c with
  | nil =>
    refine ⟨s, [], rfl, ?_, rfl, le_refl _, fun _ _ => rfl, List.Forall₂.nil⟩
    rw [hc, List.append_nil, Compaction.finished, ← htodo]
  | cons chunk todo ih =>
    obtain ⟨s₁, hstep, hvs, htables, hjob₁⟩ := exists_compactOutput env hc htodo
    obtain ⟨t, new, hrun, hjob, hcur, hnext, hframe, hnew⟩ := ih hjob₁ rfl
    rw [hvs] at hcur hnext hframe
    rw [htables] at hframe
    refine ⟨t, chunk.record (s.vs.nextFileNumber + 1) :: new,
      runSteps_cons.mpr ⟨s₁, hstep, hrun⟩, ?_, hcur, Nat.le_of_succ_le hnext, ?_, ?_⟩
    · rw [hjob, List.append_assoc]
      rfl
    · intro seq hseq
      rw [hframe seq (Nat.le_succ_of_le hseq)]
      exact get_insert_next s _ hseq
    · refine List.Forall₂.cons ⟨?_, rfl, hnext⟩ hnew
      refine (hframe _ (le_refl _)).trans ?_
      exact OrdMap.get_insert_self _ _ _

/-- **What `run_compaction` does when a level is due.** The version it leaves has the
edit of the compaction, the outputs are written, and the tables of the version before
are still there. -/
theorem runCompaction_eq (hs : Loadable s) {c : Compaction V}
    (hc : Compaction.start env s.tables s.vs.current = some c) :
    ∃ s' new, s.runCompaction env = some s' ∧ s'.job = none ∧ s'.purging = none
      ∧ s'.vs.current = s.vs.current.applyEdit env.stdSort (c.finished new).edit
      ∧ s.vs.nextFileNumber ≤ s'.vs.nextFileNumber
      ∧ (∀ level, ∀ f ∈ s.vs.current.files level,
          s'.tables.get f.sequence = s.tables.get f.sequence)
      ∧ List.Forall₂ (Written env s') new c.todo := by
  have hstart : s.step env .compactStart = some { s with job := some c } := by
    show s.compactStart env = _
    unfold Lsm.compactStart
    rw [hs.job, hs.purging, hc]
    rfl
  obtain ⟨t, new, hrun, hjob, hcur, hnext, hframe, hnew⟩ :=
    @runSteps_compactOutput V _ env { s with job := some c } c rfl
  rw [outputs_start hc, List.nil_append] at hjob
  have hsnap : c.snapshot = s.vs.current := by
    obtain ⟨source, h, -, rfl⟩ := Compaction.start_cases hc
    rfl
  -- the commit and the purge
  have hcommit : t.step env .compactCommit = some
      { t with
        vs := t.vs.logAndApply env.stdSort (c.finished new).edit
        job := none
        purging := some c.snapshot } := by
    show t.compactCommit env = _
    unfold Lsm.compactCommit
    rw [hjob]
    rfl
  generalize hu : ({ t with
    vs := t.vs.logAndApply env.stdSort (c.finished new).edit
    job := none
    purging := some c.snapshot } : Lsm V) = u at hcommit
  have hucur : u.vs.current = s.vs.current.applyEdit env.stdSort (c.finished new).edit := by
    rw [← hu]
    exact (VersionSet.logAndApply_current _ _ _).trans (by rw [hcur])
  have hunext : u.vs.nextFileNumber = t.vs.nextFileNumber := by
    rw [← hu]
    exact VersionSet.logAndApply_nextFileNumber _ _ rfl
  have hutables : u.tables = t.tables := by rw [← hu]
  have hpurge : u.step env .purgeObsoleteFiles = some
      { u with tables := u.tables.filterKeys (u.keepsTable c.snapshot), purging := none } := by
    rw [← hu]
    rfl
  -- the purge keeps the tables of both versions
  have hkept : ∀ level, ∀ f ∈ u.vs.current.files level ++ c.snapshot.files level,
      (u.tables.filterKeys (u.keepsTable c.snapshot)).get f.sequence = t.tables.get f.sequence := by
    intro level f hf
    rw [OrdMap.get_filterKeys, if_pos (keepsTable_of_mem c.snapshot hf), hutables]
  have hadded : ∀ f ∈ new, f ∈ u.vs.current.files c.target := by
    intro f hf
    rw [hucur]
    refine (Version.applyEdit_perm env.stdSort s.vs.current _ c.target).mem_iff.mpr ?_
    refine List.mem_append_right _ ?_
    rw [Compaction.added_edit]
    exact (if_pos (rfl : c.target = (c.finished new).target)).symm ▸ hf
  refine ⟨{ u with tables := u.tables.filterKeys (u.keepsTable c.snapshot), purging := none }, new,
    ?_, ?_, rfl, hucur, ?_, ?_, ?_⟩
  · unfold runCompaction compactionSteps
    rw [hc]
    refine runSteps_cons.mpr ⟨_, hstart, runSteps_append.mpr ⟨t, hrun, ?_⟩⟩
    exact runSteps_cons.mpr ⟨u, hcommit, runSteps_cons.mpr ⟨_, hpurge, rfl⟩⟩
  · rw [← hu]
  · exact hunext.symm ▸ hnext
  · intro level f hf
    refine (hkept level f (List.mem_append_right _ (hsnap.symm ▸ hf))).trans ?_
    exact hframe f.sequence (hs.bound level f hf)
  · refine ((List.forall₂_and_left new c.todo).mpr ⟨hadded, hnew⟩).imp ?_
    rintro f chunk ⟨hf, hw⟩
    exact ⟨(hkept c.target f (List.mem_append_left _ hf)).trans hw.table, hw.size,
      hunext.symm ▸ hw.bound⟩

omit [Payload V] in
/-- Every output was written for a chunk. -/
theorem exists_written {new : List FileMetaData} (h : List.Forall₂ (Written env s) new todo)
    {f : FileMetaData} (hf : f ∈ new) : ∃ chunk ∈ todo, Written env s f chunk := by
  induction h with
  | nil => cases hf
  | cons hw _ ih =>
    rcases List.mem_cons.mp hf with rfl | hf
    · exact ⟨_, List.mem_cons_self, hw⟩
    · obtain ⟨chunk, hmem, hw'⟩ := ih hf
      exact ⟨chunk, List.mem_cons_of_mem _ hmem, hw'⟩

omit [Payload V] in
/-- What is written for a chunk weighs what the chunk does. -/
theorem sum_written {new : List FileMetaData} (h : Key → ℕ)
    (hw : List.Forall₂ (Written env s) new todo) :
    (new.map (fun f => weigh h (fileContents s.tables f))).sum
      = (todo.map (fun chunk => weigh h chunk.contents)).sum := by
  induction hw with
  | nil => rfl
  | cons hw _ ih =>
    rw [List.map_cons, List.map_cons, List.sum_cons, List.sum_cons, ih,
      fileContents_of_get hw.table]
    rfl

/-- The entries of a tree, each as many times as there are levels it can still sink,
and once more. -/
def weight (s : Lsm V) : ℕ :=
  s.vs.current.total (fun level => maxLevels - level.val)
    (fun f => weigh (fun _ => 1) (fileContents s.tables f))

/-- The bytes of a tree: of every file what its record says, or what its entries can
need where that is more. -/
def bytes (s : Lsm V) : ℕ :=
  s.vs.current.total (fun _ => 1)
    (fun f => max f.fileSize (weigh entryBytes (fileContents s.tables f)))

/-- **What a compaction does to a weight of files**: it loses that of the inputs, and
gains that of the outputs. The outputs are weighed by the tables after. -/
theorem total_finished_le {c : Compaction V} (S : StdSort)
    (hc : Compaction.start env tables v = some c) (new : List FileMetaData) (times : Level → ℕ)
    {g g' : FileMetaData → ℕ} (hg : ∀ level, ∀ f ∈ v.files level, g' f = g f) :
    (v.applyEdit S (c.finished new).edit).total times g'
        + (times c.source * (c.src.map g).sum + times c.target * (c.tgt.map g).sum)
      ≤ v.total times g + times c.target * (new.map g').sum := by
  obtain ⟨htarget, -, hsrc, htgt⟩ := Compaction.inputs_start hc
  have hne : c.source ≠ c.target := fun h => by
    rw [h] at htarget
    omega
  have hsum : ∀ {level : Level} {fs : List FileMetaData}, fs.Sublist (v.files level) →
      (fs.map g').sum = (fs.map g).sum := fun hsub => by
    rw [List.map_congr_left (fun f hf => hg _ f (hsub.subset hf))]
  have h := Version.total_applyEdit_le S v (c.finished new) hne hsrc htgt times g'
  dsimp only [Compaction.finished] at h
  rw [hsum hsrc, hsum htgt, Version.total_congr times hg] at h
  exact h

/-- A source file has an entry. -/
theorem one_le_sum_src (hs : Loadable s) {c : Compaction V}
    (hc : Compaction.start env s.tables s.vs.current = some c) :
    1 ≤ (c.src.map (fun f => weigh (fun _ => 1) (fileContents s.tables f))).sum := by
  obtain ⟨-, hne, hsrc, -⟩ := Compaction.inputs_start hc
  obtain ⟨f, hf⟩ := List.exists_mem_of_ne_nil _ hne
  obtain ⟨t, ht⟩ := Option.isSome_iff_exists.mp (hs.loads c.source f (hsrc.subset hf))
  have hone : 1 ≤ weigh (fun _ => 1) (fileContents s.tables f) := by
    rw [fileContents_of_get ht]
    unfold weigh
    rw [List.map_const', List.sum_replicate, smul_eq_mul, Nat.mul_one]
    exact List.length_pos_iff.mpr t.nonempty
  exact le_trans hone (List.single_le_sum (fun _ _ => Nat.zero_le _) _ (List.mem_map_of_mem hf))

/-- **One compaction.** Where a level is due, `run_compaction` leaves a tree the loop
can go on with; the entries have sunk, and the bytes have not grown. -/
theorem runCompaction_decreases (hs : Loadable s) (hdue : compactionDue env s.vs.current = true) :
    ∃ s', s.runCompaction env = some s' ∧ Loadable s' ∧ s'.weight < s.weight
      ∧ s'.bytes ≤ s.bytes := by
  rw [compactionDue_eq] at hdue
  obtain ⟨source, hsource⟩ := Option.isSome_iff_exists.mp hdue
  obtain ⟨c, hc⟩ := Compaction.start_of_pickLevel s.tables hsource
  obtain ⟨s', new, hrun, hjob, hpurging, hcur, hnext, hframe, hnew⟩ := runCompaction_eq hs hc
  have hcontents : ∀ level, ∀ f ∈ s.vs.current.files level,
      fileContents s'.tables f = fileContents s.tables f :=
    fun level f hf => fileContents_congr (hframe level f hf)
  refine ⟨s', hrun, ⟨fun level f hf => ?_, fun level f hf => ?_, hjob, hpurging⟩, ?_, ?_⟩
  · rw [hcur] at hf
    rcases mem_applyEdit_edit _ hf with hf | ⟨-, hf⟩
    · exact le_trans (hs.bound level f hf) hnext
    · obtain ⟨chunk, -, hw⟩ := exists_written hnew hf
      exact hw.bound
  · rw [hcur] at hf
    rcases mem_applyEdit_edit _ hf with hf | ⟨-, hf⟩
    · rw [hframe level f hf]
      exact hs.loads level f hf
    · obtain ⟨chunk, -, hw⟩ := exists_written hnew hf
      rw [hw.table]
      rfl
  · -- the entries of the source are counted once less
    have hle := total_finished_le env.stdSort hc new (fun level => maxLevels - level.val)
      (fun level f hf => congrArg (weigh (fun _ => 1)) (hcontents level f hf))
    have hout := weigh_todo_le hc (fun _ => 1)
    have hone := one_le_sum_src hs hc
    rw [← sum_written _ hnew] at hout
    have htimes : maxLevels - c.source.val = maxLevels - c.target.val + 1 := by
      have := (Compaction.inputs_start hc).1
      have := c.target.isLt
      omega
    have hmul := Nat.mul_le_mul_left (maxLevels - c.target.val) hout
    unfold weight
    rw [hcur]
    rw [htimes, Nat.add_mul, Nat.one_mul] at hle
    rw [Nat.mul_add] at hmul
    omega
  · have hle := total_finished_le env.stdSort hc new (fun _ => 1)
      (fun level f hf => congrArg (fun m => max f.fileSize (weigh entryBytes m))
        (hcontents level f hf))
    have hout :
        (new.map (fun f => max f.fileSize (weigh entryBytes (fileContents s'.tables f)))).sum
        = (c.todo.map (fun chunk => weigh entryBytes chunk.contents)).sum := by
      rw [← sum_written _ hnew]
      refine congrArg List.sum (List.map_congr_left (fun f hf => max_eq_right ?_))
      obtain ⟨chunk, hmem, hw⟩ := exists_written hnew hf
      rw [hw.size, fileContents_of_get hw.table]
      exact size_le_of_mem_todo hc hmem
    have hin := weigh_todo_le hc entryBytes
    have hmax : ∀ fs : List FileMetaData,
        (fs.map (fun f => weigh entryBytes (fileContents s.tables f))).sum
          ≤ (fs.map (fun f => max f.fileSize (weigh entryBytes (fileContents s.tables f)))).sum :=
      fun fs => List.sum_le_sum (fun f _ => le_max_right _ _)
    have hsrc := hmax c.src
    have htgt := hmax c.tgt
    unfold bytes
    rw [hcur]
    rw [hout] at hle
    omega

/-! ## The whole loop -/

omit [Payload V] in
/-- The bytes of a level are among those of the tree. -/
theorem sum_fileSize_le_bytes (s : Lsm V) (level : Level) :
    ((s.vs.current.files level).map FileMetaData.fileSize).sum ≤ s.bytes := by
  unfold bytes Version.total
  calc ((s.vs.current.files level).map FileMetaData.fileSize).sum
      ≤ ((s.vs.current.files level).map
          (fun f => max f.fileSize (weigh entryBytes (fileContents s.tables f)))).sum :=
        List.sum_le_sum (fun f _ => le_max_left _ _)
    _ = 1 * ((s.vs.current.files level).map
          (fun f => max f.fileSize (weigh entryBytes (fileContents s.tables f)))).sum :=
        (Nat.one_mul _).symm
    _ ≤ _ := Finset.single_le_sum
        (f := fun level => 1 * ((s.vs.current.files level).map
          (fun f => max f.fileSize (weigh entryBytes (fileContents s.tables f)))).sum)
        (fun _ _ => Nat.zero_le _) (Finset.mem_univ level)

/-- **The induction rule for the compaction loop.** The loop ends on every tree whose tables
load. What holds of a tree on which nothing is due, and of a tree on which a compaction runs
when it holds of the tree that comes of it, holds of what the loop makes of any tree. -/
theorem bgCompactionWorker_induction {motive : Lsm V → ℕ → Lsm V → Prop}
    (idle : ∀ s, Loadable s → pickLevel env s.vs.current = none → motive s 0 s)
    (compact : ∀ s s' n t, Loadable s → compactionDue env s.vs.current = true →
      s.runCompaction env = some s' → s'.weight < s.weight → s'.bytes ≤ s.bytes →
      motive s' n t → motive s (n + 1) t) (s : Lsm V) (hs : Loadable s) :
    ∃ n t, (∀ fuel, n < fuel → s.bgCompactionWorker env fuel = some (n, t)) ∧ motive s n t := by
  induction hw : s.weight using Nat.strong_induction_on generalizing s with
  | _ w ih =>
    subst hw
    by_cases hdue : compactionDue env s.vs.current = true
    · obtain ⟨s', hrun, hs', hlt, hbytes⟩ := runCompaction_decreases hs hdue
      obtain ⟨n, t, hloop, hmotive⟩ := ih s'.weight hlt s' hs' rfl
      refine ⟨n + 1, t, fun fuel hfuel => ?_, compact s s' n t hs hdue hrun hlt hbytes hmotive⟩
      obtain ⟨m, rfl⟩ : ∃ m, fuel = m + 1 := ⟨fuel - 1, by omega⟩
      rw [bgCompactionWorker, if_pos hdue, hrun, Option.bind_some, hloop m (by omega)]
      rfl
    · have hnone : pickLevel env s.vs.current = none := by
        rw [compactionDue_eq, Option.isSome_iff_ne_none, not_not] at hdue
        exact hdue
      refine ⟨0, s, fun fuel hfuel => ?_, idle s hs hnone⟩
      obtain ⟨m, rfl⟩ : ∃ m, fuel = m + 1 := ⟨fuel - 1, by omega⟩
      rw [bgCompactionWorker, if_neg hdue]

/-- **The compaction loop ends in a balanced tree.** On every tree whose tables load, with
scores compared as exact ratios, a multiplier of at least one and limits that do not wrap,
`bg_compaction_worker` runs finitely many compactions – no more than the tree weighs – and
leaves L0 below the trigger and each level below it, the last aside, below its limit. The
code adds sizes as a `size_t`; in a tree of less than `2 ^ 64` bytes the sums are exact. -/
theorem bgCompactionWorker_balances (env : Env) (hexact : env.scoring = Scoring.exact)
    (hm : 1 ≤ env.opts.levelSizeMultiplier) (hlimit : levelLimit env.opts 4 < 2 ^ 64) (s : Lsm V)
    (hs : Loadable s) :
    ∃ n t, (∀ fuel, n < fuel → s.bgCompactionWorker env fuel = some (n, t)) ∧ n ≤ s.weight
      ∧ (t.vs.current.files 0).length < env.opts.l0Trigger
      ∧ ∀ level : Level, 1 ≤ level.val → level.val ≤ 4 →
        levelSize t.vs.current level < levelLimit env.opts level.val
          ∧ (s.bytes < 2 ^ 64 → ((t.vs.current.files level).map FileMetaData.fileSize).sum
            < levelLimit env.opts level.val) := by
  refine bgCompactionWorker_induction
    (motive := fun s n t => n ≤ s.weight ∧ (t.vs.current.files 0).length < env.opts.l0Trigger
      ∧ ∀ level : Level, 1 ≤ level.val → level.val ≤ 4 →
        levelSize t.vs.current level < levelLimit env.opts level.val
          ∧ (s.bytes < 2 ^ 64 → ((t.vs.current.files level).map FileMetaData.fileSize).sum
            < levelLimit env.opts level.val))
    (fun s hs hnone => ?_) (fun s s' n t hs hdue hrun hlt hbytes hloop => ?_) s hs
  · obtain ⟨hl0, hlevels⟩ := lt_limits_of_pickLevel_eq_none hexact hm hlimit hnone
    refine ⟨Nat.zero_le _, hl0, fun level hlo hhi => ⟨hlevels level hlo hhi, fun h => ?_⟩⟩
    have hsize := hlevels level hlo hhi
    unfold levelSize at hsize
    rwa [Nat.mod_eq_of_lt (lt_of_le_of_lt (s.sum_fileSize_le_bytes level) h)] at hsize
  · obtain ⟨hn, hl0, hlevels⟩ := hloop
    refine ⟨by omega, hl0, fun level hlo hhi => ?_⟩
    obtain ⟨hlevel, hsum⟩ := hlevels level hlo hhi
    exact ⟨hlevel, fun h => hsum (lt_of_le_of_lt hbytes h)⟩

theorem oneFile_loadable : Loadable oneFile :=
  oneFile_atRest.inv.loadable oneFile_atRest.job oneFile_atRest.purging

/-- One file in L0 that is too large for L1: it sinks to L2, in two compactions. -/
theorem bgCompactionWorker_balances_oneFile :
    Loadable oneFile
      ∧ (oneFile.bgCompactionWorker .small 3).map (fun p =>
          (p.1, (List.finRange maxLevels).map (fun l => (p.2.vs.current.files l).length)))
        = some (2, [0, 0, 1, 0, 0, 0])
      ∧ ∃ n t, (∀ fuel, n < fuel → oneFile.bgCompactionWorker .small fuel = some (n, t))
        ∧ (t.vs.current.files 0).length < Env.small.opts.l0Trigger := by
  obtain ⟨n, t, hloop, -, hl0, -⟩ :=
    bgCompactionWorker_balances .small rfl (by decide) (by decide) oneFile oneFile_loadable
  exact ⟨oneFile_loadable, by decide, n, t, hloop, hl0⟩

end Lsm
