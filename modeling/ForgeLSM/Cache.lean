import Mathlib

/-!
# The block cache

Blocks of tables that were read are kept in a cache, in sixteen shards, a key in the shard of
its hash. A shard has a list of its keys, the one used last in front, and a map from the keys
to the blocks. A block that is put under a new key is counted by its size, and then keys are
dropped from the back of the list until the sizes fit the capacity of the shard – possibly all
of them, the new one included.

The list, the map and the running size are three accounts of one thing, each changed in its
own line. They agree (`LRUShard.Consistent`) as long as the blocks put under a key are all of
one size, since a block that replaces another is not counted again. What a shard answers is
said in terms of a log of what happened in it: `recency` is the keys by their last use, and
`held` is what was put last under a key and not dropped since.
-/

open Function

/-- `LRUShard`. The iterators into the list that the map keeps are left out: a key stands in the
list once, and so is found by itself. -/
structure LRUShard (K V : Type) where
  capacity : ℕ := 0
  currentSize : ℕ := 0
  list : List K := []
  map : K → Option V := fun _ => none

namespace LRUShard

variable {K V : Type} [DecidableEq K]

/-- The splice: a key is moved to the front. -/
def touch (k : K) (l : List K) : List K := k :: l.erase k

/-- **`LRUShard::get`.** -/
def get (s : LRUShard K V) (k : K) : LRUShard K V × Option V :=
  match s.map k with
  | none => (s, none)
  | some v => ({ s with list := touch k s.list }, some v)

/-- The loop that drops the oldest keys, for the `capacity()` of blocks. -/
def evict (size : V → ℕ) (s : LRUShard K V) : LRUShard K V :=
  if h : s.currentSize > s.capacity ∧ s.list ≠ [] then
    let oldest := s.list.getLast h.2
    match s.map oldest with
    | some v => evict size
      { s with
        currentSize := s.currentSize - size v
        map := update s.map oldest none
        list := s.list.dropLast }
    | none => evict size { s with list := s.list.dropLast }
  else s
termination_by s.list.length
decreasing_by
  all_goals
    have := List.length_pos_of_ne_nil h.2
    show s.list.dropLast.length < s.list.length
    rw [List.length_dropLast]
    omega

/-- **`LRUShard::put`.** -/
def put (size : V → ℕ) (s : LRUShard K V) (k : K) (v : V) : LRUShard K V :=
  if (s.map k).isSome then
    { s with map := update s.map k (some v), list := touch k s.list }
  else evict size
    { s with
      list := k :: s.list
      map := update s.map k (some v)
      currentSize := s.currentSize + size v }

/-! ## What happened in a shard -/

/-- A call on a shard. -/
inductive Op (K V : Type) where
  | get (k : K)
  | put (k : K) (v : V)

/-- What a call does. -/
inductive Event (K V : Type) where
  /-- A block is found. -/
  | used (k : K)
  | stored (k : K) (v : V)
  | evicted (k : K)

/-- The keys by their last use, the latest first. -/
def recency : List (Event K V) → List K
  | [] => []
  | .used k :: log => touch k (recency log)
  | .stored k _ :: log => touch k (recency log)
  | .evicted _ :: log => recency log

/-- The block that was stored last under a key and not evicted since. -/
def held : List (Event K V) → K → Option V
  | [], _ => none
  | .used _ :: log, k => held log k
  | .stored k' v :: log, k => if k = k' then some v else held log k
  | .evicted k' :: log, k => if k = k' then none else held log k

section Trace

variable (size : V → ℕ)

/-- A call is made. -/
def apply (s : LRUShard K V) : Op K V → LRUShard K V
  | .get k => (s.get k).1
  | .put k v => s.put size k v

/-- What the call does, the latest first: the keys that it drops are those that the list has
no longer. -/
def events (s : LRUShard K V) : Op K V → List (Event K V)
  | .get k => if (s.map k).isSome then [.used k] else []
  | .put k v =>
    ((touch k s.list).filter (fun x => x ∉ (s.put size k v).list)).map .evicted ++ [.stored k v]

/-- **Calls on a new shard**, and the log of what they did. -/
def trace (capacity : ℕ) (ops : List (Op K V)) : LRUShard K V × List (Event K V) :=
  ops.foldl (fun t op => (t.1.apply size op, t.1.events size op ++ t.2))
    ({ capacity := capacity }, [])

/-- The blocks put under a key are all of one size. -/
def SameSize (ops : List (Op K V)) : Prop :=
  ∀ k v v', Op.put k v ∈ ops → Op.put k v' ∈ ops → size v = size v'

/-- **The accounts of a shard agree**, and agree with what happened. -/
structure Consistent (s : LRUShard K V) (log : List (Event K V)) : Prop where
  nodup : s.list.Nodup
  mem_list : ∀ k, k ∈ s.list ↔ (s.map k).isSome
  /-- The keys in the list are the latest used, in the order of their last use. -/
  recent : s.list <+: recency log
  size_eq : s.currentSize = (s.list.map (fun k => ((s.map k).map size).getD 0)).sum
  size_le : s.currentSize ≤ s.capacity
  get_eq : ∀ k, (s.get k).2 = held log k

/-- **What a put drops** is the back of the list, and no more of it than has to go: with the
last key it drops, the blocks would not fit. -/
def DropsOldest (s : LRUShard K V) (k : K) (v : V) : Prop :=
  ∃ dropped, touch k s.list = (s.put size k v).list ++ dropped
    ∧ ∀ d ∈ dropped.head?, ∃ b, update s.map k (some v) d = some b
      ∧ s.capacity < (s.put size k v).currentSize + size b

end Trace

/-! ## The loop -/

/-- The accounts of a shard whose blocks have the sizes that go with their keys. -/
structure Counted (size : V → ℕ) (sizeOf : K → ℕ) (s : LRUShard K V) : Prop where
  nodup : s.list.Nodup
  mem_list : ∀ k, k ∈ s.list ↔ (s.map k).isSome
  size_eq : s.currentSize = (s.list.map sizeOf).sum
  size_of : ∀ k v, s.map k = some v → size v = sizeOf k

section Loop

variable {size : V → ℕ} {sizeOf : K → ℕ} {s : LRUShard K V}

omit [DecidableEq K] in
theorem Counted.exists_of_mem (h : s.Counted size sizeOf) {k : K} (hk : k ∈ s.list) :
    ∃ v, s.map k = some v ∧ size v = sizeOf k := by
  obtain ⟨v, hv⟩ := Option.isSome_iff_exists.mp ((h.mem_list k).mp hk)
  exact ⟨v, hv, h.size_of k v hv⟩

/-- The oldest key is dropped. -/
theorem Counted.dropLast (h : s.Counted size sizeOf) (hne : s.list ≠ []) {v : V}
    (hv : s.map (s.list.getLast hne) = some v) :
    Counted size sizeOf
      { s with
        currentSize := s.currentSize - size v
        map := update s.map (s.list.getLast hne) none
        list := s.list.dropLast } where
  nodup := h.nodup.sublist (List.dropLast_sublist _)
  mem_list k := by
    have hsplit := List.dropLast_append_getLast hne
    have hnodup := h.nodup
    rw [← hsplit, List.nodup_append] at hnodup
    dsimp only
    by_cases hk : k = s.list.getLast hne
    · rw [hk, update_self]
      refine iff_of_false (fun hmem => ?_) (by simp)
      exact hnodup.2.2 _ hmem _ (List.mem_singleton_self _) rfl
    · rw [update_of_ne hk, ← h.mem_list k]
      nth_rewrite 2 [← hsplit]
      rw [List.mem_append, List.mem_singleton, or_iff_left hk]
  size_eq := by
    have hsum := h.size_eq
    rw [← List.dropLast_append_getLast hne, List.map_append, List.sum_append,
      List.map_singleton, List.sum_singleton, ← h.size_of _ _ hv] at hsum
    show s.currentSize - size v = (s.list.dropLast.map sizeOf).sum
    omega
  size_of k w hw := by
    dsimp only at hw
    by_cases hk : k = s.list.getLast hne
    · rw [hk, update_self] at hw
      cases hw
    · rw [update_of_ne hk] at hw
      exact h.size_of k w hw

/-- **The loop** drops keys from the back until what is left fits, and stops at once then. -/
theorem Counted.evict (h : s.Counted size sizeOf) :
    ∃ dropped, s.list = (s.evict size).list ++ dropped ∧ (s.evict size).Counted size sizeOf
      ∧ (∀ k, (s.evict size).map k = if k ∈ dropped then none else s.map k)
      ∧ (s.evict size).capacity = s.capacity ∧ (s.evict size).currentSize ≤ s.capacity
      ∧ ∀ d ∈ dropped.head?, s.capacity < (s.evict size).currentSize + sizeOf d := by
  fun_induction LRUShard.evict size s with
  | case1 s hover oldest v hv ih =>
    have hcount := h.dropLast hover.2 hv
    obtain ⟨dropped, hlist, hcounted, hmap, hcap, hle, hneed⟩ := ih hcount
    dsimp only at hlist hmap
    refine ⟨dropped ++ [oldest], ?_, hcounted, fun k => ?_, hcap, hle, fun d hd => ?_⟩
    · rw [← List.append_assoc, ← hlist, List.dropLast_append_getLast]
    · rw [hmap k]
      by_cases hk : k = oldest
      · simp [hk]
      · simp [hk]
    · cases dropped with
      | nil =>
        -- the loop ends here: with the key just dropped it would not have
        obtain rfl : oldest = d := by simpa using hd
        have hsize := h.size_of _ _ hv
        have hsum := hcount.size_eq
        rw [List.append_nil] at hlist
        rw [hcounted.size_eq, ← hlist, ← hsum]
        dsimp only
        omega
      | cons e dropped => exact hneed d hd
  | case2 s hover oldest hnone ih =>
    obtain ⟨v, hv, -⟩ := h.exists_of_mem (List.getLast_mem hover.2)
    cases hnone.symm.trans hv
  | case3 s hstop =>
    refine ⟨[], (List.append_nil _).symm, h, fun k => by simp, rfl, ?_, nofun⟩
    by_cases hnil : s.list = []
    · rw [h.size_eq, hnil]
      exact Nat.zero_le _
    · exact not_lt.mp (fun hlt => hstop ⟨hlt, hnil⟩)

/-! ## A call -/

theorem mem_touch {k x : K} {l : List K} : x ∈ touch k l ↔ x = k ∨ x ∈ l := by
  rw [touch, List.mem_cons]
  by_cases hx : x = k
  · simp [hx]
  · rw [List.mem_erase_of_ne hx]

theorem nodup_touch {l : List K} (h : l.Nodup) (k : K) : (touch k l).Nodup :=
  List.nodup_cons.mpr ⟨h.not_mem_erase, h.erase k⟩

theorem sum_touch {k : K} {l : List K} (hk : k ∈ l) (f : K → ℕ) :
    ((touch k l).map f).sum = (l.map f).sum :=
  (((List.perm_cons_erase hk).symm.map f).sum_eq)

/-- Of two lists that begin alike, a key may be moved to the front of both. -/
theorem touch_isPrefix {l r : List K} (h : l <+: r) (k : K) : touch k l <+: touch k r := by
  obtain ⟨t, rfl⟩ := h
  by_cases hk : k ∈ l
  · exact ⟨t, by rw [touch, touch, List.erase_append_left _ hk, List.cons_append]⟩
  · refine ⟨t.erase k, ?_⟩
    rw [touch, touch, List.erase_append_right _ hk, List.erase_of_not_mem hk, List.cons_append]

/-- **A put** moves its key to the front of the list and then drops from the back what does
not fit. -/
theorem Counted.put (h : s.Counted size sizeOf) (hle : s.currentSize ≤ s.capacity) {k : K} {v : V}
    (hv : size v = sizeOf k) :
    ∃ dropped, touch k s.list = (s.put size k v).list ++ dropped
      ∧ (s.put size k v).Counted size sizeOf
      ∧ (∀ x, (s.put size k v).map x
        = if x ∈ dropped then none else update s.map k (some v) x)
      ∧ (s.put size k v).capacity = s.capacity ∧ (s.put size k v).currentSize ≤ s.capacity
      ∧ ∀ d ∈ dropped.head?, s.capacity < (s.put size k v).currentSize + sizeOf d := by
  have hmem : ∀ x, (x = k ∨ x ∈ s.list) ↔ (update s.map k (some v) x).isSome := by
    intro x
    by_cases hx : x = k
    · simp [hx]
    · rw [update_of_ne hx, ← h.mem_list x, or_iff_right hx]
  have hsizes : ∀ x w, update s.map k (some v) x = some w → size w = sizeOf x := by
    intro x w hw
    by_cases hx : x = k
    · rw [hx, update_self] at hw
      rw [hx, ← Option.some.inj hw, hv]
    · rw [update_of_ne hx] at hw
      exact h.size_of x w hw
  unfold LRUShard.put
  by_cases hold : (s.map k).isSome
  · rw [if_pos hold]
    refine ⟨[], (List.append_nil _).symm, ?_, fun x => by simp, rfl, hle, nofun⟩
    exact
      { nodup := nodup_touch h.nodup k
        mem_list := fun x => mem_touch.trans (hmem x)
        size_eq := by rw [sum_touch ((h.mem_list k).mpr hold), ← h.size_eq]
        size_of := hsizes }
  · rw [if_neg hold]
    have hk : k ∉ s.list := fun hk => hold ((h.mem_list k).mp hk)
    have hpushed : Counted size sizeOf
        { s with
          list := k :: s.list
          map := update s.map k (some v)
          currentSize := s.currentSize + size v } :=
      { nodup := List.nodup_cons.mpr ⟨hk, h.nodup⟩
        mem_list := fun x => List.mem_cons.trans (hmem x)
        size_eq := by
          rw [List.map_cons, List.sum_cons, ← h.size_eq, hv]
          exact Nat.add_comm _ _
        size_of := hsizes }
    have htouch : touch k s.list = k :: s.list := by rw [touch, List.erase_of_not_mem hk]
    rw [htouch]
    exact hpushed.evict

/-- The accounts of a shard, after what happened. -/
structure Tracks (size : V → ℕ) (sizeOf : K → ℕ) (s : LRUShard K V) (log : List (Event K V)) :
    Prop where
  counted : s.Counted size sizeOf
  recent : s.list <+: recency log
  size_le : s.currentSize ≤ s.capacity
  held_eq : ∀ k, s.map k = held log k

theorem tracks_new (capacity : ℕ) :
    Tracks size sizeOf ({ capacity := capacity } : LRUShard K V) [] where
  counted :=
    { nodup := List.nodup_nil
      mem_list := fun k => by simp
      size_eq := rfl
      size_of := nofun }
  recent := List.prefix_refl []
  size_le := Nat.zero_le _
  held_eq _ := rfl

theorem recency_evicted (ks : List K) (log : List (Event K V)) :
    recency (ks.map .evicted ++ log) = recency log := by
  induction ks with
  | nil => rfl
  | cons k ks ih => exact ih

theorem held_evicted (ks : List K) (log : List (Event K V)) (x : K) :
    held (ks.map .evicted ++ log) x = if x ∈ ks then none else held log x := by
  induction ks with
  | nil => rfl
  | cons k ks ih =>
    rw [List.map_cons, List.cons_append, held, ih]
    by_cases hx : x = k
    · simp [hx]
    · simp [hx]

variable {log : List (Event K V)}

theorem Tracks.get (h : s.Tracks size sizeOf log) (k : K) :
    Tracks size sizeOf (s.get k).1 (s.events size (.get k) ++ log) := by
  unfold LRUShard.get events
  dsimp only
  cases hk : s.map k with
  | none => exact h
  | some v =>
    have hmem : k ∈ s.list := (h.counted.mem_list k).mpr (by rw [hk]; rfl)
    refine ⟨⟨nodup_touch h.counted.nodup k, fun x => ?_, ?_, h.counted.size_of⟩,
      touch_isPrefix h.recent k, h.size_le, h.held_eq⟩
    · rw [mem_touch, ← h.counted.mem_list x]
      exact or_iff_right_of_imp (fun hx => hx ▸ hmem)
    · rw [sum_touch hmem]
      exact h.counted.size_eq

/-- What a put drops, of what was in the list, is what is logged. -/
theorem events_put {k : K} {v : V} {dropped : List K}
    (hnodup : s.list.Nodup) (hlist : touch k s.list = (s.put size k v).list ++ dropped) :
    s.events size (.put k v) = dropped.map .evicted ++ [.stored k v] := by
  have hall := nodup_touch hnodup k
  rw [hlist] at hall
  have hdropped := (List.nodup_append.mp hall).2.2
  rw [events, hlist, List.filter_append, List.filter_eq_nil_iff.mpr (by simp), List.nil_append,
    List.filter_eq_self.mpr]
  intro x hx
  simpa using fun hmem => hdropped x hmem x hx rfl

theorem Tracks.put (h : s.Tracks size sizeOf log) {k : K} {v : V} (hv : size v = sizeOf k) :
    Tracks size sizeOf (s.put size k v) (s.events size (.put k v) ++ log) := by
  obtain ⟨dropped, hlist, hcounted, hmap, hcap, hle, -⟩ := h.counted.put h.size_le hv
  rw [events_put h.counted.nodup hlist, List.append_assoc]
  refine ⟨hcounted, ?_, hcap ▸ hle, fun x => ?_⟩
  · rw [recency_evicted]
    exact (hlist ▸ List.prefix_append _ _).trans (touch_isPrefix h.recent k)
  · rw [held_evicted, hmap x, List.cons_append, List.nil_append, held]
    by_cases hx : x = k
    · rw [hx, update_self, if_pos rfl]
    · rw [update_of_ne hx, if_neg hx, h.held_eq x]

/-- **Any calls keep the accounts.** -/
theorem tracks_trace (capacity : ℕ) {ops : List (Op K V)}
    (hsizes : ∀ k v, Op.put k v ∈ ops → size v = sizeOf k) :
    Tracks size sizeOf (trace size capacity ops).1 (trace size capacity ops).2 := by
  unfold trace
  induction ops using List.reverseRecOn with
  | nil => exact tracks_new capacity
  | append_singleton ops op ih =>
    have htracks := ih (fun k v hmem => hsizes k v (List.mem_append_left _ hmem))
    rw [List.foldl_append, List.foldl_cons, List.foldl_nil]
    cases op with
    | get k => exact htracks.get k
    | put k v => exact htracks.put (hsizes k v (List.mem_append_right _ List.mem_cons_self))

end Loop

omit [DecidableEq K] in
/-- Blocks of one size for each key: the sizes go with the keys. -/
theorem SameSize.exists_sizeOf {size : V → ℕ} {ops : List (Op K V)} (h : SameSize size ops) :
    ∃ sizeOf : K → ℕ, ∀ k v, Op.put k v ∈ ops → size v = sizeOf k := by
  classical
  refine ⟨fun k => if hk : ∃ v, Op.put k v ∈ ops then size hk.choose else 0, fun k v hmem => ?_⟩
  have hk : ∃ v, Op.put k v ∈ ops := ⟨v, hmem⟩
  dsimp only
  rw [dif_pos hk]
  exact h k v hk.choose hmem hk.choose_spec

/-- **A shard after any calls** in which all blocks put under a key are of one size. -/
theorem consistent_trace (size : V → ℕ) (capacity : ℕ) {ops : List (Op K V)}
    (hsame : SameSize size ops) :
    Consistent size (trace size capacity ops).1 (trace size capacity ops).2
      ∧ ∀ pre k v post, ops = pre ++ .put k v :: post →
        DropsOldest size (trace size capacity pre).1 k v := by
  obtain ⟨sizeOf, hsizes⟩ := hsame.exists_sizeOf
  constructor
  · have h := tracks_trace capacity hsizes
    generalize trace size capacity ops = t at h
    refine ⟨h.counted.nodup, h.counted.mem_list, h.recent, ?_, h.size_le, fun k => ?_⟩
    · rw [h.counted.size_eq]
      refine congrArg List.sum (List.map_congr_left (fun k hk => ?_))
      obtain ⟨v, hv, hsize⟩ := h.counted.exists_of_mem hk
      rw [hv, ← hsize]
      rfl
    · rw [← h.held_eq k, get]
      cases t.1.map k <;> rfl
  · rintro pre k v post rfl
    have h := tracks_trace capacity
      (fun x w hmem => hsizes x w (List.mem_append_left (.put k v :: post) hmem))
    have hv : size v = sizeOf k := hsizes k v (by simp)
    obtain ⟨dropped, hlist, -, -, -, -, hneed⟩ := h.counted.put h.size_le hv
    refine ⟨dropped, hlist, fun d hd => ?_⟩
    have hmem : d ∈ touch k (trace size capacity pre).1.list :=
      hlist ▸ List.mem_append_right _ (List.mem_of_mem_head? hd)
    by_cases hdk : d = k
    · subst hdk
      exact ⟨v, update_self .., hv.symm ▸ hneed d hd⟩
    · obtain ⟨b, hb, hsize⟩ := h.counted.exists_of_mem ((mem_touch.mp hmem).resolve_left hdk)
      exact ⟨b, by rw [update_of_ne hdk, hb], hsize.symm ▸ hneed d hd⟩

/-- A block that was read again outlives a later one. -/
def reread : List (Op ℕ ℕ) := [.put 0 2, .put 1 2, .get 0, .put 2 2]

theorem consistent_trace_reread :
    SameSize id reread ∧ (trace id 5 reread).1.list = [2, 0]
      ∧ Consistent id (trace id 5 reread).1 (trace id 5 reread).2
      ∧ DropsOldest id (trace id 5 [.put 0 2, .put 1 2, .get 0]).1 2 2 := by
  have htwo : ∀ k v, Op.put k v ∈ reread → v = 2 := by
    intro k v h
    simp only [reread, List.mem_cons, Op.put.injEq, reduceCtorEq, List.not_mem_nil] at h
    tauto
  have hsame : SameSize id reread := fun k v v' hv hv' => (htwo k v hv).trans (htwo k v' hv').symm
  obtain ⟨hconsistent, hdrops⟩ := consistent_trace id 5 hsame
  exact ⟨hsame, by decide +kernel, hconsistent, hdrops _ _ _ [] rfl⟩

end LRUShard

/-! ## The shards together -/

namespace LRUShard

variable {K V : Type} [DecidableEq K]

/-- The loop adds no block. -/
theorem map_of_evict {size : V → ℕ} {s : LRUShard K V} {k : K} {v : V}
    (h : (s.evict size).map k = some v) : s.map k = some v := by
  fun_induction LRUShard.evict size s with
  | case1 s hover oldest w hw ih =>
    have hupdate : update s.map oldest none k = some v := ih h
    by_cases hk : k = oldest
    · rw [hk, update_self] at hupdate
      cases hupdate
    · rwa [update_of_ne hk] at hupdate
  | case2 s hover oldest hnone ih => exact ih h
  | case3 s hstop => exact h

/-- After a put, a block is the one that was put or one that was there. -/
theorem map_of_put {size : V → ℕ} {s : LRUShard K V} {k x : K} {v w : V}
    (h : (s.put size k v).map x = some w) : x = k ∧ w = v ∨ s.map x = some w := by
  have hupdate : update s.map k (some v) x = some w := by
    unfold put at h
    split_ifs at h
    · exact h
    · exact map_of_evict h
  by_cases hx : x = k
  · rw [hx, update_self] at hupdate
    exact Or.inl ⟨hx, (Option.some.inj hupdate).symm⟩
  · rw [update_of_ne hx] at hupdate
    exact Or.inr hupdate

theorem map_get (s : LRUShard K V) (k : K) : (s.get k).1.map = s.map := by
  unfold get
  cases s.map k <;> rfl

theorem snd_get (s : LRUShard K V) (k : K) : (s.get k).2 = s.map k := by
  unfold get
  cases s.map k <;> rfl

end LRUShard

/-- `ShardedLRUCache`. -/
structure ShardedLRUCache (K V : Type) where
  shards : Fin 16 → LRUShard K V

namespace ShardedLRUCache

variable {K V : Type} [DecidableEq K]

/-- A new cache, its capacity shared out. -/
def new (capacity : ℕ) : ShardedLRUCache K V := ⟨fun _ => { capacity := capacity / 16 }⟩

section

variable (hash : K → ℕ)

/-- **`ShardedLRUCache::get`.** -/
def get (c : ShardedLRUCache K V) (k : K) : ShardedLRUCache K V × Option V :=
  let i := Fin.ofNat 16 (hash k)
  let (s, v) := (c.shards i).get k
  (⟨update c.shards i s⟩, v)

/-- **`ShardedLRUCache::put`.** -/
def put (size : V → ℕ) (c : ShardedLRUCache K V) (k : K) (v : V) : ShardedLRUCache K V :=
  let i := Fin.ofNat 16 (hash k)
  ⟨update c.shards i ((c.shards i).put size k v)⟩

/-- Every block in the cache is as it should be under its key. -/
def Holds (P : K → V → Prop) (c : ShardedLRUCache K V) : Prop :=
  ∀ i k v, (c.shards i).map k = some v → P k v

end

variable {hash : K → ℕ} {P : K → V → Prop} {c : ShardedLRUCache K V}

omit [DecidableEq K] in
theorem holds_new (capacity : ℕ) : (new capacity : ShardedLRUCache K V).Holds P :=
  fun _ _ _ h => by cases h

theorem Holds.get (h : c.Holds P) (k : K) : (c.get hash k).1.Holds P := by
  intro i x v hv
  unfold ShardedLRUCache.get at hv
  dsimp only at hv
  by_cases hi : i = Fin.ofNat 16 (hash k)
  · rw [hi, update_self, LRUShard.map_get] at hv
    exact h _ x v hv
  · rw [update_of_ne hi] at hv
    exact h i x v hv

theorem Holds.of_get (h : c.Holds P) {k : K} {v : V} (hv : (c.get hash k).2 = some v) : P k v :=
  h _ k v ((LRUShard.snd_get _ k).symm.trans hv)

theorem Holds.put (h : c.Holds P) (size : V → ℕ) {k : K} {v : V} (hv : P k v) :
    (c.put hash size k v).Holds P := by
  intro i x w hw
  unfold ShardedLRUCache.put at hw
  dsimp only at hw
  by_cases hi : i = Fin.ofNat 16 (hash k)
  · rw [hi, update_self] at hw
    rcases LRUShard.map_of_put hw with ⟨rfl, rfl⟩ | hold
    · exact hv
    · exact h _ x w hold
  · rw [update_of_ne hi] at hw
    exact h i x w hw

end ShardedLRUCache
