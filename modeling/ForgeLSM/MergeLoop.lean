import ForgeLSM.Compaction
import ForgeLSM.Util.StdQueue

/-!
# The merge loop of a compaction

`run_compaction` merges its inputs in one loop over a heap of iterators. A round
takes the first iterator off the heap, reads its entry, advances it and puts it
back; passes over the entry if its key is that of the entry kept last, or if it is
a tombstone on its way to the last level; and else adds it to the chunk, which is
written out when it is large enough. `MergeState` is the state of the loop, and
`MergeState.round` the round.

The loop does in one pass what `Compaction.start` says in four – merge, keep the
first entry of every key, drop tombstones, cut into chunks
(`MergeState.flushed_run`). It is correct for any heap that keeps the contract of
`std::priority_queue`: as long as no two inputs with a key in common have the same
level and number, the heap has no choice to make, and the chunks hold the newest
entry of every key, once (`MergeState.run_correct`).
-/

variable {V : Type}

/-! ## The inputs -/

/-- **An input of the merge**: a table, and the level and number it is tagged
with. -/
structure MergeInput (V : Type) where
  level : ℕ
  seq : ℕ
  contents : OrdMap Key V

variable {inputs : List (MergeInput V)}

namespace MergeInput

/-- The entries of the input, each with the tag. -/
def items (i : MergeInput V) : List (MergeItem V) :=
  i.contents.entries.map (fun e => ⟨e.1, i.level, i.seq, e.2⟩)

theorem mem_items {i : MergeInput V} {x : MergeItem V} :
    x ∈ i.items ↔ x.level = i.level ∧ x.seq = i.seq ∧ i.contents.get x.key = some x.value := by
  unfold items
  simp only [List.mem_map, Prod.exists, OrdMap.mem_entries_iff]
  constructor
  · rintro ⟨k, v, hg, rfl⟩
    exact ⟨rfl, rfl, hg⟩
  · rintro ⟨hl, hs, hg⟩
    exact ⟨x.key, x.value, hg, by rw [← hl, ← hs]⟩

theorem items_sorted (i : MergeInput V) : i.items.Pairwise (fun a b => a.le b = true) :=
  List.pairwise_map.mpr (i.contents.sorted.imp (fun h => MergeItem.le_iff.mpr (Or.inl h)))

/-- **Equal keys never carry equal tags.** -/
def Tagged (inputs : List (MergeInput V)) : Prop :=
  inputs.Pairwise (fun i j => ∀ k v w, i.contents.get k = some v → j.contents.get k = some w →
    (i.level, i.seq) ≠ (j.level, j.seq))

/-- **The input has the newest entry of the key**: no input that has the key is
of a smaller level, or of the same level and a larger number. -/
def Newest (inputs : List (MergeInput V)) (k : Key) (i : MergeInput V) : Prop :=
  ∀ j ∈ inputs, ∀ w, j.contents.get k = some w →
    i.level < j.level ∨ i.level = j.level ∧ j.seq ≤ i.seq

/-- Of tagged inputs, no two items are equal in the heap's order. -/
theorem Tagged.antisymm (h : Tagged inputs) {a b : MergeItem V} (ha : a ∈ inputs.flatMap items)
    (hb : b ∈ inputs.flatMap items) (hab : a.le b = true) (hba : b.le a = true) : a = b := by
  obtain ⟨i, hi, hai⟩ := List.mem_flatMap.mp ha
  obtain ⟨j, hj, hbj⟩ := List.mem_flatMap.mp hb
  obtain ⟨hal, has, hag⟩ := mem_items.mp hai
  obtain ⟨hbl, hbs, hbg⟩ := mem_items.mp hbj
  have hkey : a.key = b.key := le_antisymm (MergeItem.key_le_of_le hab) (MergeItem.key_le_of_le hba)
  rw [MergeItem.le_iff] at hab hba
  simp only [hkey, lt_irrefl, false_or, true_and] at hab hba
  have hlevel : i.level = j.level := by omega
  have hseq : i.seq = j.seq := by omega
  rw [hkey] at hag
  have hij : i = j := by
    by_contra hne
    rcases pairwise_or_of_ne h hi hj hne with hc | hc
    · exact hc b.key a.value b.value hag hbg (by rw [hlevel, hseq])
    · exact hc b.key b.value a.value hbg hag (by rw [hlevel, hseq])
  subst hij
  have hval : a.value = b.value := Option.some.inj (hag.symm.trans hbg)
  obtain ⟨k, l, s, v⟩ := a
  obtain ⟨k', l', s', v'⟩ := b
  simp only at hkey hal hbl has hbs hval
  rw [hkey, hval, hal, hbl, has, hbs]

end MergeInput

/-! ## The heap -/

/-- **`CompareIter`**: whether the first iterator comes after the second. -/
def compareIter (a b : Iter (MergeItem V)) : Bool :=
  if a.item.key ≠ b.item.key then decide (a.item.key > b.item.key)
  else if a.item.level ≠ b.item.level then decide (a.item.level > b.item.level)
  else decide (a.item.seq < b.item.seq)

/-- An iterator comes after another exactly when its item does. -/
theorem compareIter_eq (a b : Iter (MergeItem V)) : compareIter a b = !(a.item.le b.item) := by
  unfold compareIter MergeItem.le
  by_cases hk : a.item.key = b.item.key
  · by_cases hl : a.item.level = b.item.level
    · simp only [hk, hl, ne_eq, not_true_eq_false, if_false, ← decide_not, not_le]
    · simp only [hk, hl, ne_eq, not_true_eq_false, not_false_eq_true, if_false, if_true,
        ← decide_not, not_lt, gt_iff_lt]
      exact decide_eq_decide.mpr ⟨le_of_lt, fun h => lt_of_le_of_ne h (Ne.symm hl)⟩
  · simp only [hk, ne_eq, not_false_eq_true, if_true, ← decide_not, not_lt, gt_iff_lt]
    exact decide_eq_decide.mpr ⟨le_of_lt, fun h => lt_of_le_of_ne h (Ne.symm hk)⟩

/-- The comparison is one a heap can be kept by. -/
theorem strictWeak_compareIter : StrictWeak (compareIter (V := V)) where
  irrefl a := by
    rw [compareIter_eq, (MergeItem.le_total a.item a.item).elim id id]
    rfl
  trans a b c hab hbc := by
    rw [compareIter_eq, Bool.not_eq_true'] at hab hbc ⊢
    by_contra hac
    rw [Bool.not_eq_false] at hac
    have hba := (MergeItem.le_total a.item b.item).resolve_left (by rw [hab]; decide)
    rw [MergeItem.le_trans _ _ _ hba hac] at hbc
    cases hbc
  incomp a b c hba hcb := by
    rw [compareIter_eq, Bool.not_eq_false'] at hba hcb ⊢
    exact MergeItem.le_trans _ _ _ hcb hba

/-! ## The loop -/

/-- **The state of the loop.** -/
structure MergeState (V : Type) where
  pq : List (Iter (MergeItem V))
  lastKey : Key := []
  firstKey : Bool := true
  chunk : List (Key × V) := []
  chunkSize : ℕ := 0
  /-- The chunks written out, with their sizes. -/
  flushed : List (List (Key × V) × ℕ) := []

namespace MergeState

/-- `flush_chunk`, the write succeeding. -/
def flushChunk (s : MergeState V) : MergeState V :=
  if s.chunk.isEmpty then s
  else { s with flushed := s.flushed ++ [(s.chunk, s.chunkSize)], chunk := [], chunkSize := 0 }

/-- An entry is added to the chunk. -/
def pushEntry (limit : ℕ) (s : MergeState V) (e : Key × V) : MergeState V :=
  let s := { s with chunk := s.chunk ++ [e], chunkSize := s.chunkSize + e.1.length + 20 }
  if s.chunkSize ≥ limit then s.flushChunk else s

/-- What a round does with the entry it has read. -/
def take [Payload V] (limit : ℕ) (target : Level) (s : MergeState V) (x : MergeItem V) :
    MergeState V :=
  if !s.firstKey && decide (x.key = s.lastKey) then s
  else
    let s := { s with lastKey := x.key, firstKey := false }
    if Payload.isTombstone x.value && decide (target.val = maxLevels - 1) then s
    else s.pushEntry limit (x.key, x.value)

/-- **A round of the loop**, nothing when the heap is empty. -/
def round [Payload V] (Q : StdQueue) (limit : ℕ) (target : Level) (s : MergeState V) :
    Option (MergeState V) :=
  (Q.pop compareIter s.pq).map (fun p =>
    take limit target { s with pq := p.1.advance p.2 } p.1.item)

/-- The loop, for at most so many rounds. -/
def loop [Payload V] (Q : StdQueue) (limit : ℕ) (target : Level) : ℕ → MergeState V → MergeState V
  | 0, s => s
  | n + 1, s =>
    match round Q limit target s with
    | none => s
    | some s' => loop Q limit target n s'

/-- The heap at the start: an iterator over every input that has an entry. -/
def start (inputs : List (MergeInput V)) : MergeState V where
  pq := (inputs.map MergeInput.items).filterMap Iter.ofList

/-- **The merge**: the loop, over as many rounds as there are entries, and the
last chunk. -/
def run [Payload V] (Q : StdQueue) (limit : ℕ) (target : Level) (inputs : List (MergeInput V)) :
    MergeState V :=
  (loop Q limit target (inputs.flatMap MergeInput.items).length (start inputs)).flushChunk

/-! ## One pass and four -/

/-- The key kept last, if there is one. -/
def last (s : MergeState V) : Option Key := if s.firstKey then none else some s.lastKey

/-- Whether an entry is kept at a target level. -/
def keeps [Payload V] (target : Level) (v : V) : Bool :=
  !(Payload.isTombstone v && decide (target.val = maxLevels - 1))

/-- The entries that the loop adds to its chunks, of the items it is given. -/
def kept [Payload V] (target : Level) (last : Option Key) (xs : List (MergeItem V)) :
    List (Key × V) :=
  ((dedupKey MergeItem.key last xs).map (fun x => (x.key, x.value))).filter
    (fun e => keeps target e.2)

variable {Q : StdQueue} {limit : ℕ} {target : Level}

@[simp] theorem pq_flushChunk (s : MergeState V) : s.flushChunk.pq = s.pq := by
  unfold flushChunk
  split_ifs <;> rfl

@[simp] theorem last_flushChunk (s : MergeState V) : s.flushChunk.last = s.last := by
  unfold flushChunk
  split_ifs <;> rfl

/-- The chunks written once the rest of the entries has been cut. -/
theorem flushed_flushChunk (s : MergeState V) :
    s.flushChunk.flushed = s.flushed ++ chunkLoop limit s.chunk s.chunkSize [] := by
  unfold flushChunk
  rw [chunkLoop]
  split_ifs
  · rw [List.append_nil]
  · rfl

/-- An entry added is an entry cut. -/
theorem pushEntry_spec (limit : ℕ) (s : MergeState V) (e : Key × V) (es : List (Key × V)) :
    (s.pushEntry limit e).flushed
        ++ chunkLoop limit (s.pushEntry limit e).chunk (s.pushEntry limit e).chunkSize es
      = s.flushed ++ chunkLoop limit s.chunk s.chunkSize (e :: es) := by
  unfold pushEntry
  rw [chunkLoop]
  dsimp only
  split_ifs with h
  · simp [flushChunk]
  · rfl

/-- The heap at the start has the items of the inputs. -/
theorem flatMap_items_start (inputs : List (MergeInput V)) :
    (start inputs).pq.flatMap Iter.items = inputs.flatMap MergeInput.items := by
  rw [start, Iter.flatMap_items_filterMap]
  rfl

/-- **What the heap gives**: the items of the inputs, in the heap's order. -/
theorem popAll_spec (Q : StdQueue) (inputs : List (MergeInput V)) :
    let xs := Q.popAll compareIter (inputs.flatMap MergeInput.items).length (start inputs).pq
    xs.Pairwise (fun a b => a.le b = true) ∧ xs.Perm (inputs.flatMap MergeInput.items) := by
  have hn : ((start inputs).pq.flatMap Iter.items).length
      ≤ (inputs.flatMap MergeInput.items).length := by
    rw [flatMap_items_start]
  refine ⟨Q.popAll_sorted MergeItem.le_trans strictWeak_compareIter (fun a b h => ?_) ?_ hn, ?_⟩
  · rwa [compareIter_eq, Bool.not_eq_false'] at h
  · intro it hit
    obtain ⟨l, hl, hofl⟩ := List.mem_filterMap.mp hit
    obtain ⟨i, -, rfl⟩ := List.mem_map.mp hl
    have hitems : it.items = i.items := by
      cases hi : i.items with
      | nil =>
        rw [hi] at hofl
        cases hofl
      | cons x xs =>
        rw [hi] at hofl
        cases hofl
        rfl
    rw [hitems]
    exact i.items_sorted
  · have hperm := Q.popAll_perm compareIter hn
    rwa [flatMap_items_start] at hperm

variable [Payload V]

/-- **A round does to one item what the passes do.** -/
theorem take_spec (limit : ℕ) (target : Level) (s : MergeState V) (x : MergeItem V)
    (xs : List (MergeItem V)) :
    (s.take limit target x).pq = s.pq
      ∧ (s.take limit target x).flushed
          ++ chunkLoop limit (s.take limit target x).chunk (s.take limit target x).chunkSize
            (kept target (s.take limit target x).last xs)
        = s.flushed ++ chunkLoop limit s.chunk s.chunkSize (kept target s.last (x :: xs)) := by
  have hlast : (!s.firstKey && decide (x.key = s.lastKey)) = true ↔ s.last = some x.key := by
    unfold last
    cases s.firstKey with
    | true => simp
    | false => simp [eq_comm]
  unfold take
  split_ifs with hrep htomb
  · -- the key was kept before
    refine ⟨rfl, ?_⟩
    rw [kept, kept, dedupKey, if_pos (hlast.mp hrep)]
  · -- a tombstone at the last level
    refine ⟨rfl, ?_⟩
    rw [kept, kept, dedupKey, if_neg (fun h => hrep (hlast.mpr h)), List.map_cons,
      List.filter_cons_of_neg (by simp only [keeps, htomb]; decide)]
    rfl
  · have hkeep : keeps target x.value = true := by
      rw [keeps, Bool.eq_false_iff.mpr htomb]
      rfl
    have hspec := pushEntry_spec limit
      { s with lastKey := x.key, firstKey := false } (x.key, x.value)
      (kept target (some x.key) xs)
    have hnext : ({ s with lastKey := x.key, firstKey := false }.pushEntry limit
        (x.key, x.value)).last = some x.key := by
      unfold pushEntry
      dsimp only
      split_ifs
      · rw [last_flushChunk]
        rfl
      · rfl
    refine ⟨?_, ?_⟩
    · unfold pushEntry
      dsimp only
      split_ifs
      · exact pq_flushChunk _
      · rfl
    · have hcons : kept target s.last (x :: xs)
          = (x.key, x.value) :: kept target (some x.key) xs := by
        rw [kept, dedupKey, if_neg (fun h => hrep (hlast.mpr h)), List.map_cons]
        exact List.filter_cons_of_pos hkeep
      rw [hnext, hspec, hcons]

/-- **The loop does in one pass what the passes do one after the other**, and the
heap is empty at its end. -/
theorem loop_spec (Q : StdQueue) (limit : ℕ) (target : Level) {n : ℕ} {s : MergeState V}
    (hn : (s.pq.flatMap Iter.items).length ≤ n) :
    (loop Q limit target n s).pq = []
      ∧ (loop Q limit target n s).flushChunk.flushed
        = s.flushed ++ chunkLoop limit s.chunk s.chunkSize
          (kept target s.last (Q.popAll compareIter n s.pq)) := by
  induction n generalizing s with
  | zero =>
    have hnil : s.pq = [] := by
      cases hq : s.pq with
      | nil => rfl
      | cons it q =>
        rw [hq, List.flatMap_cons, Iter.items, List.cons_append, List.length_cons] at hn
        omega
    exact ⟨hnil, flushed_flushChunk s⟩
  | succ n ih =>
    rw [loop, round, StdQueue.popAll]
    cases hp : Q.pop compareIter s.pq with
    | none => exact ⟨(Q.pop_eq_none _ _).mp hp, flushed_flushChunk s⟩
    | some p =>
      obtain ⟨it, rest⟩ := p
      have hlen := Q.length_items_advance hp
      obtain ⟨hpq, hspec⟩ := take_spec limit target
        { s with pq := it.advance rest } it.item (Q.popAll compareIter n (it.advance rest))
      obtain ⟨hend, hflush⟩ := ih (s := take limit target { s with pq := it.advance rest } it.item)
        (by rw [hpq]; show ((it.advance rest).flatMap Iter.items).length ≤ n; omega)
      refine ⟨hend, ?_⟩
      rw [Option.map_some]
      dsimp only
      rw [hflush, hpq]
      exact hspec

end MergeState

/-! ## What is merged -/

namespace MergeInput

/-- The items of the inputs, in the heap's order. -/
def sortedItems (inputs : List (MergeInput V)) : List (MergeItem V) :=
  drain MergeItem.le (inputs.flatMap items).length (inputs.map items)

theorem sortedItems_spec (inputs : List (MergeInput V)) :
    (sortedItems inputs).Pairwise (fun a b => a.le b = true)
      ∧ (sortedItems inputs).Perm (inputs.flatMap items) := by
  refine ⟨(drain_sorted MergeItem.le_total MergeItem.le_trans _ ?_).1,
    drain_perm MergeItem.le le_rfl⟩
  intro it hit
  obtain ⟨i, -, rfl⟩ := List.mem_map.mp hit
  exact i.items_sorted

/-- **The merged entries**: the first item of every key. -/
def merged (inputs : List (MergeInput V)) : OrdMap Key V where
  entries := (dedupKey MergeItem.key none (sortedItems inputs)).map (fun x => (x.key, x.value))
  sorted := by
    have hs := (sortedItems_spec inputs).1.imp MergeItem.key_le_of_le
    exact List.pairwise_map.mpr (dedupKey_sorted hs (fun k hk => by cases hk)).1

/-- The inputs of a compaction, in the order they are put on the heap. -/
def ofFiles (tables : Tables V) (source target : ℕ) (src tgt : List FileMetaData) :
    List (MergeInput V) :=
  tgt.map (fun f => ⟨target, f.sequence, fileContents tables f⟩)
    ++ src.map (fun f => ⟨source, f.sequence, fileContents tables f⟩)

/-- A compaction merges its inputs so. -/
theorem merged_ofFiles (tables : Tables V) (source target : ℕ) (src tgt : List FileMetaData) :
    merged (ofFiles tables source target src tgt) = mergeInputs tables source target src tgt := by
  have hiters : (ofFiles tables source target src tgt).map items
      = mergeIters tables source target src tgt := by
    rw [ofFiles, mergeIters, List.map_append, List.map_map, List.map_map]
    rfl
  unfold merged mergeInputs sortedItems mergeItems
  simp only [List.flatMap, hiters]

/-- **The entry of a key is that of the first input that has it** in the heap's
order, and there is one as soon as an input has the key. -/
theorem get_merged (h : Tagged inputs) (k : Key) :
    (∀ v, (merged inputs).get k = some v
        ↔ ∃ i ∈ inputs, i.contents.get k = some v ∧ Newest inputs k i)
      ∧ ∀ i ∈ inputs, ∀ w, i.contents.get k = some w → ∃ v, (merged inputs).get k = some v := by
  obtain ⟨hsorted, hperm⟩ := sortedItems_spec inputs
  have hmem : ∀ {x}, x ∈ sortedItems inputs ↔ ∃ i ∈ inputs, x ∈ i.items := fun {x} =>
    hperm.mem_iff.trans List.mem_flatMap
  have hget : (merged inputs).get k
      = ((sortedItems inputs).find? (fun x => decide (x.key = k))).map MergeItem.value := by
    rw [← find?_dedupKey MergeItem.key none _ (by simp)]
    exact lookup_map_eq_find? MergeItem.key MergeItem.value _ (fun x => decide_eq_true_iff)
  have hitem : ∀ i ∈ inputs, ∀ w, i.contents.get k = some w →
      (⟨k, i.level, i.seq, w⟩ : MergeItem V) ∈ sortedItems inputs := fun i hi w hw =>
    hmem.mpr ⟨i, hi, mem_items.mpr ⟨rfl, rfl, hw⟩⟩
  have hfirst : ∀ {x}, (sortedItems inputs).find? (fun x => decide (x.key = k)) = some x →
      x ∈ sortedItems inputs ∧ x.key = k ∧ ∀ i ∈ inputs, ∀ w, i.contents.get k = some w →
        x.level < i.level ∨ x.level = i.level ∧ i.seq ≤ x.seq := by
    intro x hx
    have hxk : x.key = k := by simpa using List.find?_some hx
    refine ⟨List.mem_of_find?_eq_some hx, hxk, fun i hi w hw => ?_⟩
    have hle := le_of_find?_sorted (fun a => (MergeItem.le_total a a).elim id id) hsorted hx
      (hitem i hi w hw) (decide_eq_true rfl)
    simpa [MergeItem.le_iff, hxk] using hle
  constructor
  · intro v
    rw [hget, Option.map_eq_some_iff]
    constructor
    · rintro ⟨x, hx, rfl⟩
      obtain ⟨hxmem, rfl, hmin⟩ := hfirst hx
      obtain ⟨i, hi, hxi⟩ := hmem.mp hxmem
      obtain ⟨hl, hs, hv⟩ := mem_items.mp hxi
      refine ⟨i, hi, hv, fun j hj w hw => ?_⟩
      rw [← hl, ← hs]
      exact hmin j hj w hw
    · rintro ⟨i, hi, hv, hnew⟩
      have hin := hitem i hi v hv
      cases hx : (sortedItems inputs).find? (fun x => decide (x.key = k)) with
      | none => exact absurd (decide_eq_true rfl) (List.find?_eq_none.mp hx _ hin)
      | some x =>
        obtain ⟨hxmem, hxk, hmin⟩ := hfirst hx
        refine ⟨x, rfl, ?_⟩
        -- the first item of the key and the newest are each before the other
        obtain ⟨j, hj, hxj⟩ := hmem.mp hxmem
        obtain ⟨hl, hs, hw⟩ := mem_items.mp hxj
        have hle := hnew j hj x.value (hxk ▸ hw)
        have hle' := hmin i hi v hv
        have heq := h.antisymm (hperm.mem_iff.mp hxmem) (hperm.mem_iff.mp hin)
          (MergeItem.le_iff.mpr (.inr ⟨hxk, hle'⟩))
          (MergeItem.le_iff.mpr (.inr ⟨hxk.symm, by rw [hl, hs]; exact hle⟩))
        rw [heq]
  · intro i hi w hw
    rw [hget]
    cases hx : (sortedItems inputs).find? (fun x => decide (x.key = k)) with
    | none => exact absurd (decide_eq_true rfl) (List.find?_eq_none.mp hx _ (hitem i hi w hw))
    | some x => exact ⟨x.value, rfl⟩

end MergeInput

namespace MergeState

variable [Payload V]

/-- **The chunks of the merge**: the merged entries, without the tombstones that
are dropped, cut. -/
theorem flushed_run (Q : StdQueue) (limit : ℕ) (target : Level) (h : MergeInput.Tagged inputs) :
    (run Q limit target inputs).pq = []
      ∧ (run Q limit target inputs).flushed
        = chunkLoop limit [] 0 (dropTombstones target (MergeInput.merged inputs)).entries := by
  have hn : ((start inputs).pq.flatMap Iter.items).length
      ≤ (inputs.flatMap MergeInput.items).length := by
    rw [flatMap_items_start]
  obtain ⟨hend, hflush⟩ := loop_spec Q limit target hn
  obtain ⟨hsorted, hperm⟩ := popAll_spec Q inputs
  obtain ⟨hsorted', hperm'⟩ := MergeInput.sortedItems_spec inputs
  have heq : Q.popAll compareIter (inputs.flatMap MergeInput.items).length (start inputs).pq
      = MergeInput.sortedItems inputs := by
    refine List.Perm.eq_of_pairwise (fun a b ha hb => ?_) hsorted hsorted'
      (hperm.trans hperm'.symm)
    exact h.antisymm (hperm.mem_iff.mp ha) (hperm'.mem_iff.mp hb)
  refine ⟨by rw [run, pq_flushChunk, hend], ?_⟩
  rw [run, hflush, heq]
  rfl

/-- **The merge is correct.** For any inputs with ascending keys, equal keys never
carrying equal tags, the loop ends with an empty heap. The entries of its chunks,
one chunk after the other, have strictly ascending keys, and are for every key of
the inputs the entry of the smallest level and, within the level, of the largest
number – but for tombstones on the way to the last level. No chunk is empty, and
no key is in two of them. -/
theorem run_correct (Q : StdQueue) (limit : ℕ) (target : Level) (inputs : List (MergeInput V))
    (h : MergeInput.Tagged inputs) :
    let out := (run Q limit target inputs).flushed.map Prod.fst
    (run Q limit target inputs).pq = []
      ∧ out.flatten.Pairwise (fun a b => a.1 < b.1)
      ∧ (∀ k v, (k, v) ∈ out.flatten
        ↔ (∃ i ∈ inputs, i.contents.get k = some v ∧ MergeInput.Newest inputs k i)
          ∧ ¬ (Payload.isTombstone v = true ∧ target.val = maxLevels - 1))
      ∧ (∀ i ∈ inputs, ∀ k ∈ i.contents.keys,
        ∃ j ∈ inputs, ∃ v, j.contents.get k = some v ∧ MergeInput.Newest inputs k j)
      ∧ (∀ c ∈ out, c ≠ [])
      ∧ out.Pairwise (fun c d => ∀ a ∈ c, ∀ b ∈ d, a.1 ≠ b.1) := by
  intro out
  obtain ⟨hend, hflush⟩ := flushed_run Q limit target h
  obtain ⟨hflat, hne⟩ := chunkLoop_spec limit [] 0
    (dropTombstones target (MergeInput.merged inputs)).entries
  rw [← hflush, List.nil_append] at hflat
  rw [← hflush] at hne
  have hsorted : out.flatten.Pairwise (fun a b => a.1 < b.1) :=
    hflat ▸ (dropTombstones target (MergeInput.merged inputs)).sorted
  refine ⟨hend, hsorted, fun k v => ?_, fun i hi k hk => ?_, fun c hc => ?_, ?_⟩
  · obtain ⟨hget, -⟩ := MergeInput.get_merged h k
    rw [hflat, OrdMap.mem_entries_iff, dropTombstones, OrdMap.get_filterValues,
      Option.filter_eq_some_iff, hget v]
    refine and_congr Iff.rfl ?_
    rw [Bool.not_eq_true', ← Bool.not_eq_true, Bool.and_eq_true, decide_eq_true_eq]
  · obtain ⟨w, hw⟩ := i.contents.mem_keys_iff.mp hk
    obtain ⟨hget, hsome⟩ := MergeInput.get_merged h k
    obtain ⟨v, hv⟩ := hsome i hi w hw
    obtain ⟨j, hj, hjv⟩ := (hget v).mp hv
    exact ⟨j, hj, v, hjv⟩
  · obtain ⟨p, hp, rfl⟩ := List.mem_map.mp hc
    exact hne p hp
  · refine (List.pairwise_flatten.mp hsorted).2.imp (fun {c d} hcd a ha b hb => ?_)
    exact (hcd a ha b hb).ne

/-- Two files of L0 and one of L1, with a key in all of them and a tombstone. -/
def threeInputs : List (MergeInput VLogPointer) :=
  [⟨1, 2, (OrdMap.empty.insert [97] ⟨1, 9, 1⟩).insert [99] ⟨1, 19, 1⟩⟩,
    ⟨0, 4, (OrdMap.empty.insert [97] ⟨1, 29, 1⟩).insert [98] ⟨1, uint64Max, 0⟩⟩,
    ⟨0, 3, OrdMap.empty.insert [97] ⟨1, 39, 1⟩⟩]

theorem run_correct_threeInputs :
    (run StdQueue.linear 40 1 threeInputs).flushed.map Prod.fst
        = [[([97], ⟨1, 29, 1⟩), ([98], ⟨1, uint64Max, 0⟩)], [([99], ⟨1, 19, 1⟩)]]
      ∧ (([97], ⟨1, 29, 1⟩) ∈ ((run StdQueue.linear 40 1 threeInputs).flushed.map Prod.fst).flatten
        ↔ (∃ i ∈ threeInputs, i.contents.get [97] = some ⟨1, 29, 1⟩
            ∧ MergeInput.Newest threeInputs [97] i)
          ∧ ¬ (Payload.isTombstone (⟨1, 29, 1⟩ : VLogPointer) = true
            ∧ (1 : Level).val = maxLevels - 1)) := by
  have htagged : MergeInput.Tagged threeInputs := by
    refine List.Pairwise.imp (R := fun i j => (i.level, i.seq) ≠ (j.level, j.seq)) ?_ (by decide)
    intro i j hne k v w _ _
    exact hne
  exact ⟨by decide +kernel, (run_correct StdQueue.linear 40 1 threeInputs htagged).2.2.1 _ _⟩

end MergeState
