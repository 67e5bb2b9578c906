import Mathlib

/-!
# Finite maps as strictly ascending association lists

Every ordered container of a storage engine – a memtable, the entries of a
sorted table, a `std::map` of open files – is read in two ways: by key, and
in key order. Both are functions of one object, the list of its bindings in
strictly ascending key order, so that list is what an `OrdMap` carries,
together with the proof that it ascends. A list out of order, or with one
key twice, is not a value of the type.

The two readings are `OrdMap.get` and `OrdMap.entries`; `OrdMap.get_insert`
says how the first sees an insertion, and `OrdMap.mem_entries_iff` says the
two readings agree.
-/

variable {K V : Type} [LinearOrder K] {k : K} {es : List (K × V)}

/-- Insertion into an ascending association list: a new key goes to its
place, a key already present has its value replaced. -/
def insertAssoc (k : K) (v : V) : List (K × V) → List (K × V)
  | [] => [(k, v)]
  | e :: es =>
    if k < e.1 then (k, v) :: e :: es
    else if k = e.1 then (k, v) :: es
    else e :: insertAssoc k v es

/-- A key of the list after an insertion is the inserted one or an old one. -/
theorem mem_insertAssoc {v : V} {e : K × V} (h : e ∈ insertAssoc k v es) : e = (k, v) ∨ e ∈ es := by
  induction es with
  | nil => exact Or.inl (by simpa [insertAssoc] using h)
  | cons d ds ih =>
    simp only [insertAssoc] at h
    split_ifs at h with hlt heq
    · exact (List.mem_cons.mp h).imp id id
    · exact (List.mem_cons.mp h).imp id (List.mem_cons_of_mem d)
    · rcases List.mem_cons.mp h with rfl | hm
      · exact Or.inr List.mem_cons_self
      · exact (ih hm).imp id (List.mem_cons_of_mem d)

/-- Insertion keeps the list strictly ascending. -/
theorem insertAssoc_sorted (k : K) (v : V) (h : es.Pairwise (fun a b => a.1 < b.1)) :
    (insertAssoc k v es).Pairwise (fun a b => a.1 < b.1) := by
  induction es with
  | nil => simp [insertAssoc]
  | cons d ds ih =>
    obtain ⟨hd, hds⟩ := List.pairwise_cons.mp h
    simp only [insertAssoc]
    split_ifs with hlt heq
    · refine List.pairwise_cons.mpr ⟨fun e he => ?_, h⟩
      rcases List.mem_cons.mp he with rfl | he
      · exact hlt
      · exact lt_trans hlt (hd e he)
    · subst heq
      exact List.pairwise_cons.mpr ⟨hd, hds⟩
    · refine List.pairwise_cons.mpr ⟨fun e he => ?_, ih hds⟩
      rcases mem_insertAssoc he with rfl | he
      · exact lt_of_le_of_ne (not_lt.mp hlt) (fun hc => heq hc.symm)
      · exact hd e he

/-- One step of a lookup, as a case split on the keys. -/
theorem lookup_cons_ite (k : K) (v : V) (es : List (K × V)) (j : K) :
    List.lookup j ((k, v) :: es) = if j = k then some v else es.lookup j := by
  rw [List.lookup_cons]
  by_cases h : j = k
  · rw [if_pos h, beq_iff_eq.mpr h]
  · rw [if_neg h, beq_eq_false_iff_ne.mpr h]

/-- What a lookup sees after an insertion: the new value at the new key, the
old value everywhere else. -/
theorem lookup_insertAssoc (k : K) (v : V) (es : List (K × V)) (j : K) :
    (insertAssoc k v es).lookup j = if j = k then some v else es.lookup j := by
  induction es with
  | nil => exact lookup_cons_ite k v [] j
  | cons d ds ih =>
    obtain ⟨dk, dv⟩ := d
    by_cases hlt : k < dk
    · rw [insertAssoc, if_pos hlt, lookup_cons_ite]
    · by_cases heq : k = dk
      · subst heq
        rw [insertAssoc, if_neg hlt, if_pos rfl, lookup_cons_ite, lookup_cons_ite]
        split_ifs <;> rfl
      · rw [insertAssoc, if_neg hlt, if_neg heq, lookup_cons_ite, lookup_cons_ite, ih]
        by_cases hj : j = k
        · rw [if_pos hj, if_pos hj, if_neg (fun hc => heq (hj.symm.trans hc))]
        · rw [if_neg hj, if_neg hj]

/-- What a lookup finds is a binding of the list. -/
theorem mem_of_lookup_eq_some {v : V} (h : es.lookup k = some v) : (k, v) ∈ es := by
  obtain ⟨l₁, l₂, rfl, -⟩ := List.lookup_eq_some_iff.mp h
  simp

/-- In a strictly ascending list a binding is what a lookup of its key
finds: no earlier binding has the same key. -/
theorem lookup_eq_some_of_mem (hs : es.Pairwise (fun a b => a.1 < b.1)) {v : V} (h : (k, v) ∈ es) :
    es.lookup k = some v := by
  induction es with
  | nil => cases h
  | cons d ds ih =>
    obtain ⟨hd, hds⟩ := List.pairwise_cons.mp hs
    rw [show d = (d.1, d.2) from rfl, lookup_cons_ite]
    rcases List.mem_cons.mp h with rfl | hm
    · exact if_pos rfl
    · rw [if_neg (ne_of_gt (hd (k, v) hm))]
      exact ih hds hm

/-- A lookup in a list of bindings computed from items is a search among the
items. -/
theorem lookup_map_eq_find? {α : Type*} (key : α → K) (value : α → V) (l : List α) {p : α → Bool}
    (hp : ∀ x, p x = true ↔ key x = k) :
    (l.map (fun x => (key x, value x))).lookup k = (l.find? p).map value := by
  induction l with
  | nil => rfl
  | cons x l ih =>
    rw [List.map_cons, lookup_cons_ite, List.find?_cons]
    by_cases h : key x = k
    · rw [if_pos h.symm, (hp x).mpr h]
      rfl
    · rw [if_neg (fun hc => h hc.symm), Bool.eq_false_iff.mpr (fun hc => h ((hp x).mp hc)), ih]

/-- A lookup in a concatenation is a lookup in the lists one after the
other. -/
theorem lookup_flatten (ls : List (List (K × V))) (k : K) :
    ls.flatten.lookup k = ls.findSome? (fun l => l.lookup k) := by
  induction ls with
  | nil => rfl
  | cons l ls ih =>
    rw [List.flatten_cons, List.lookup_append, List.findSome?_cons, ih]
    cases l.lookup k <;> rfl

/-- A finite map: its bindings, in strictly ascending key order. -/
@[ext] structure OrdMap (K V : Type) [LinearOrder K] where
  /-- The bindings, in key order. -/
  entries : List (K × V)
  /-- The keys strictly ascend. -/
  sorted : entries.Pairwise (fun a b => a.1 < b.1)

namespace OrdMap

instance [DecidableEq V] : DecidableEq (OrdMap K V) := fun a b =>
  decidable_of_iff (a.entries = b.entries) OrdMap.ext_iff.symm

/-- The map with no binding. -/
def empty : OrdMap K V := ⟨[], List.Pairwise.nil⟩

section

variable (m : OrdMap K V)

/-- The value bound to a key, if there is one. -/
def get (k : K) : Option V := m.entries.lookup k

/-- Bind a key, replacing the value it was bound to. -/
def insert (k : K) (v : V) : OrdMap K V :=
  ⟨insertAssoc k v m.entries, insertAssoc_sorted k v m.sorted⟩

/-- Keep the bindings whose key passes a test. -/
def filterKeys (p : K → Bool) : OrdMap K V :=
  ⟨m.entries.filter (fun e => p e.1), m.sorted.filter _⟩

/-- Keep the bindings whose value passes a test. -/
def filterValues (p : V → Bool) : OrdMap K V :=
  ⟨m.entries.filter (fun e => p e.2), m.sorted.filter _⟩

/-- Drop the binding of a key. -/
def erase (k : K) : OrdMap K V :=
  m.filterKeys (fun j => decide (j ≠ k))

/-- Apply a function to every value. -/
def mapValues {W : Type} (f : V → W) : OrdMap K W :=
  ⟨m.entries.map (fun e => (e.1, f e.2)),
    List.pairwise_map.mpr (m.sorted.imp (fun h => h))⟩

/-- The keys, in order. -/
def keys : List K := m.entries.map Prod.fst

end

@[simp] theorem get_empty (k : K) : (empty : OrdMap K V).get k = none := rfl

section

variable (m : OrdMap K V)
include m

/-- **Insertion is an update of the map.** -/
theorem get_insert (k : K) (v : V) (j : K) :
    (m.insert k v).get j = if j = k then some v else m.get j :=
  lookup_insertAssoc k v m.entries j

@[simp] theorem get_insert_self (k : K) (v : V) : (m.insert k v).get k = some v := by
  rw [get_insert, if_pos rfl]

theorem get_insert_of_ne {k j : K} (v : V) (h : j ≠ k) : (m.insert k v).get j = m.get j := by
  rw [get_insert, if_neg h]

variable {m} in
/-- **A binding after an insertion** is the new one, or an old one of another key. -/
theorem get_insert_cases {k j : K} {v w : V} (h : (m.insert k v).get j = some w) :
    j = k ∧ w = v ∨ j ≠ k ∧ m.get j = some w := by
  rw [get_insert] at h
  split_ifs at h with hj
  · exact Or.inl ⟨hj, (Option.some.inj h).symm⟩
  · exact Or.inr ⟨hj, h⟩

variable {m} in
/-- An insertion at a bound of the keys keeps the bound. -/
theorem le_of_get_insert {k j : K} {v w : V} (hle : ∀ i u, m.get i = some u → i ≤ k)
    (h : (m.insert k v).get j = some w) : j ≤ k := by
  rcases get_insert_cases h with ⟨heq, -⟩ | ⟨-, hget⟩
  · exact heq.le
  · exact hle j w hget

/-- **The two readings agree**: a binding of the list is what `get` returns
at its key, and nothing else is. -/
theorem mem_entries_iff {v : V} : (k, v) ∈ m.entries ↔ m.get k = some v :=
  ⟨lookup_eq_some_of_mem m.sorted, mem_of_lookup_eq_some⟩

theorem mem_keys_iff : k ∈ m.keys ↔ ∃ v, m.get k = some v := by
  simp only [keys, List.mem_map, Prod.exists, exists_and_right, exists_eq_right,
    mem_entries_iff]

/-- A restriction answers as the map does where the test passes. -/
theorem get_filterKeys (p : K → Bool) (k : K) :
    (m.filterKeys p).get k = if p k then m.get k else none := by
  cases hg : (m.filterKeys p).get k with
  | some v =>
    have hmem : (k, v) ∈ m.entries.filter (fun e => p e.1) :=
      (mem_entries_iff (m.filterKeys p)).mpr hg
    obtain ⟨hm, hp⟩ := List.mem_filter.mp hmem
    rw [if_pos hp, m.mem_entries_iff.mp hm]
  | none =>
    split_ifs with hp
    · cases hm : m.get k with
      | none => rfl
      | some v =>
        have hmem : (k, v) ∈ (m.filterKeys p).entries :=
          List.mem_filter.mpr ⟨m.mem_entries_iff.mpr hm, hp⟩
        rw [mem_entries_iff, hg] at hmem
        cases hmem
    · rfl

/-- A restriction by value drops the bindings that fail the test: no other
binding of the key takes their place. -/
theorem get_filterValues (p : V → Bool) (k : K) :
    (m.filterValues p).get k = (m.get k).filter p := by
  have hiff : ∀ v, (m.filterValues p).get k = some v ↔ (m.get k).filter p = some v := by
    intro v
    rw [← mem_entries_iff, Option.filter_eq_some_iff, ← mem_entries_iff]
    exact List.mem_filter
  exact Option.ext hiff

theorem get_erase (k j : K) : (m.erase k).get j = if j = k then none else m.get j := by
  rw [erase, get_filterKeys]
  by_cases h : j = k <;> simp [h]

variable {m} in
theorem get_erase_cases {k j : K} {w : V} (h : (m.erase k).get j = some w) :
    j ≠ k ∧ m.get j = some w := by
  rw [get_erase] at h
  split_ifs at h with hj
  exact ⟨hj, h⟩

theorem get_mapValues {W : Type} (f : V → W) (k : K) : (m.mapValues f).get k = (m.get k).map f := by
  show (m.entries.map (fun e => (e.1, f e.2))).lookup k = (m.entries.lookup k).map f
  induction m.entries with
  | nil => rfl
  | cons d ds ih =>
    obtain ⟨dk, dv⟩ := d
    simp only [List.map_cons, lookup_cons_ite, ih]
    split_ifs <;> rfl

/-- The keys of a map ascend. -/
theorem keys_sorted : m.keys.Pairwise (· < ·) :=
  List.pairwise_map.mpr m.sorted

theorem keys_mapValues {W : Type} (f : V → W) : (m.mapValues f).keys = m.keys := by
  unfold keys mapValues
  rw [List.map_map]
  rfl

end

/-- **A map is what it binds its keys to.** -/
theorem ext_get {m m' : OrdMap K V} (h : ∀ k, m.get k = m'.get k) : m = m' := by
  have : Std.Antisymm (fun a b : K × V => a.1 < b.1) :=
    ⟨fun a b hab hba => absurd hba hab.asymm⟩
  have : Std.Irrefl (fun a b : K × V => a.1 < b.1) := ⟨fun a => lt_irrefl a.1⟩
  refine OrdMap.ext (m.sorted.eq_of_mem_iff m'.sorted (fun e => ?_))
  rw [mem_entries_iff, mem_entries_iff, h]

theorem mapValues_insert {W : Type} (m : OrdMap K V) (f : V → W) (k : K) (v : V) :
    (m.insert k v).mapValues f = (m.mapValues f).insert k (f v) := by
  refine ext_get (fun j => ?_)
  rw [get_mapValues, get_insert, get_insert, get_mapValues]
  split_ifs <;> rfl

/-- Maps that bind the same keys. -/
theorem keys_congr {W : Type} {m : OrdMap K V} {m' : OrdMap K W}
    (h : ∀ k, (m.get k).isSome = (m'.get k).isSome) : m.keys = m'.keys := by
  have heq : m.mapValues (fun _ => ()) = m'.mapValues (fun _ => ()) := by
    refine ext_get (fun k => ?_)
    have hk := h k
    rw [get_mapValues, get_mapValues]
    cases hm : m.get k <;> cases hm' : m'.get k <;> simp_all
  rw [← keys_mapValues m (fun _ => ()), heq, keys_mapValues]

/-! ### The ends of a map -/

theorem insertAssoc_append (k : K) (v : V) {init : List (K × V)} (tail : List (K × V))
    (h : ∀ e ∈ init, e.1 < k) :
    insertAssoc k v (init ++ tail) = init ++ insertAssoc k v tail := by
  induction init with
  | nil => rfl
  | cons d ds ih =>
    have hd := h d List.mem_cons_self
    rw [List.cons_append, insertAssoc, if_neg (lt_asymm hd), if_neg (ne_of_gt hd),
      ih (fun e he => h e (List.mem_cons_of_mem d he)), List.cons_append]

section

variable (m : OrdMap K V)
include m

/-- A key past all others is bound at the end. -/
theorem entries_insert_of_lt (v : V) (h : ∀ j w, m.get j = some w → j < k) :
    (m.insert k v).entries = m.entries ++ [(k, v)] := by
  have hlt : ∀ e ∈ m.entries, e.1 < k := fun e he => h e.1 e.2 (m.mem_entries_iff.mp he)
  have happ := insertAssoc_append k v [] hlt
  rwa [List.append_nil] at happ

/-- The greatest key is bound at the end, and stays there. -/
theorem exists_entries_concat {v : V} (hk : m.get k = some v)
    (h : ∀ j w, m.get j = some w → j ≤ k) :
    ∃ init, m.entries = init ++ [(k, v)]
      ∧ ∀ v', (m.insert k v').entries = init ++ [(k, v')] := by
  obtain ⟨init, tail, heq⟩ := List.append_of_mem (m.mem_entries_iff.mpr hk)
  have hsorted := m.sorted
  rw [heq] at hsorted
  obtain ⟨-, htail, hcross⟩ := List.pairwise_append.mp hsorted
  obtain rfl : tail = [] := by
    refine List.eq_nil_iff_forall_not_mem.mpr (fun e he => ?_)
    have hmem : e ∈ m.entries := by
      rw [heq]
      exact List.mem_append_right _ (List.mem_cons_of_mem _ he)
    exact absurd ((List.pairwise_cons.mp htail).1 e he)
      (not_lt.mpr (h e.1 e.2 (m.mem_entries_iff.mp hmem)))
  refine ⟨init, heq, fun v' => ?_⟩
  show insertAssoc k v' m.entries = _
  rw [heq, insertAssoc_append k v' _ (fun e he => hcross e he _ List.mem_cons_self), insertAssoc,
    if_neg (lt_irrefl k), if_pos rfl]

/-- The least key is bound at the head, and erasing it leaves the rest. -/
theorem exists_entries_cons {v : V} (hk : m.get k = some v) (h : ∀ j w, m.get j = some w → k ≤ j) :
    ∃ tail, m.entries = (k, v) :: tail ∧ (m.erase k).entries = tail := by
  obtain ⟨init, tail, heq⟩ := List.append_of_mem (m.mem_entries_iff.mpr hk)
  have hsorted := m.sorted
  rw [heq] at hsorted
  obtain ⟨-, htail, hcross⟩ := List.pairwise_append.mp hsorted
  obtain rfl : init = [] := by
    refine List.eq_nil_iff_forall_not_mem.mpr (fun e he => ?_)
    have hmem : e ∈ m.entries := by
      rw [heq]
      exact List.mem_append_left _ he
    exact absurd (hcross e he _ List.mem_cons_self)
      (not_lt.mpr (h e.1 e.2 (m.mem_entries_iff.mp hmem)))
  refine ⟨tail, heq, ?_⟩
  show m.entries.filter (fun e => decide (e.1 ≠ k)) = tail
  rw [heq, List.nil_append, List.filter_cons_of_neg (by simp)]
  refine List.filter_eq_self.mpr (fun e he => decide_eq_true ?_)
  exact ne_of_gt ((List.pairwise_cons.mp htail).1 e he)

/-- Erasing a key that is not bound changes nothing. -/
theorem erase_of_get_none (hk : m.get k = none) : m.erase k = m := by
  refine OrdMap.ext (List.filter_eq_self.mpr (fun e he => decide_eq_true (fun heq => ?_)))
  have := m.mem_entries_iff.mp he
  rw [heq, hk] at this
  cases this

/-! ### Reading a range into another map -/

/-- The bindings from one key to another, as a cursor finds them that is set
on the first key not below the one and moved while it is not past the
other. -/
def range (lo hi : K) : List (K × V) :=
  (m.entries.dropWhile (fun e => decide (e.1 < lo))).takeWhile (fun e => decide (e.1 ≤ hi))

/-- Bind a key unless it is bound, as `std::map::insert` does. -/
def insertNew (k : K) (v : V) : OrdMap K V :=
  if (m.get k).isSome then m else m.insert k v

theorem get_insertNew (k : K) (v : V) (j : K) :
    (m.insertNew k v).get j = (m.get j).or (if j = k then some v else none) := by
  unfold insertNew
  split_ifs with hk hj hj
  · subst hj
    obtain ⟨w, hw⟩ := Option.isSome_iff_exists.mp hk
    rw [hw]
    rfl
  · rw [Option.or_none]
  · subst hj
    rw [get_insert_self, Option.not_isSome_iff_eq_none.mp hk]
    rfl
  · rw [get_insert_of_ne m v hj, Option.or_none]

/-- **What is bound first stays.** -/
theorem get_foldl_insertNew (es : List (K × V)) (k : K) :
    (es.foldl (fun acc e => acc.insertNew e.1 e.2) m).get k = (m.get k).or (es.lookup k) := by
  induction es generalizing m with
  | nil => rw [List.foldl_nil, List.lookup_nil, Option.or_none]
  | cons e es ih =>
    rw [List.foldl_cons, ih, get_insertNew, Option.or_assoc, show e = (e.1, e.2) from rfl,
      lookup_cons_ite]
    split_ifs <;> rfl

end

/-- **What is bound last stays.** -/
theorem get_foldl_insert {α : Type*} (key : α → K) (value : α → V) (l : List α) {p : α → Bool}
    (hp : ∀ a, p a = true ↔ key a = k) :
    (l.foldl (fun m a => m.insert (key a) (value a)) (empty : OrdMap K V)).get k
      = (l.reverse.find? p).map value := by
  induction l using List.reverseRecOn with
  | nil => rfl
  | append_singleton l a ih =>
    rw [List.foldl_append, List.reverse_append, List.foldl_cons, List.foldl_nil,
      List.reverse_singleton, List.singleton_append, List.find?_cons, get_insert]
    by_cases hk : key a = k
    · rw [if_pos hk.symm, (hp a).mpr hk]
      rfl
    · rw [if_neg (Ne.symm hk), Bool.eq_false_iff.mpr (fun h => hk ((hp a).mp h))]
      exact ih

/-- In an ascending list, what a loop leaves that passes over the keys below a
bound is what is not below it. -/
theorem dropWhile_lt_eq_filter (hs : es.Pairwise (fun a b => a.1 < b.1)) {lo : K}
    {p q : K × V → Bool} (hp : ∀ e, p e = true ↔ e.1 < lo) (hq : ∀ e, q e = true ↔ lo ≤ e.1) :
    es.dropWhile p = es.filter q := by
  induction es with
  | nil => rfl
  | cons e es ih =>
    obtain ⟨he, hes⟩ := List.pairwise_cons.mp hs
    by_cases hlo : e.1 < lo
    · rw [List.dropWhile_cons_of_pos ((hp e).mpr hlo), ih hes,
        List.filter_cons_of_neg (fun hc => absurd hlo (not_lt.mpr ((hq e).mp hc)))]
    · rw [List.dropWhile_cons_of_neg (fun hc => hlo ((hp e).mp hc)), List.filter_eq_self.mpr]
      intro d hd
      rw [hq]
      rcases List.mem_cons.mp hd with rfl | hd
      · exact not_lt.mp hlo
      · exact le_trans (not_lt.mp hlo) (le_of_lt (he d hd))

theorem takeWhile_le_eq_filter (hs : es.Pairwise (fun a b => a.1 < b.1)) (hi : K) :
    es.takeWhile (fun e => decide (e.1 ≤ hi)) = es.filter (fun e => decide (e.1 ≤ hi)) := by
  induction es with
  | nil => rfl
  | cons e es ih =>
    obtain ⟨he, hes⟩ := List.pairwise_cons.mp hs
    by_cases hhi : e.1 ≤ hi
    · rw [List.takeWhile_cons_of_pos (by simpa using hhi), ih hes,
        List.filter_cons_of_pos (by simpa using hhi)]
    · rw [List.takeWhile_cons_of_neg (by simpa using hhi), List.filter_eq_nil_iff.mpr]
      intro d hd
      rw [decide_eq_true_iff, not_le]
      rcases List.mem_cons.mp hd with rfl | hd
      · exact not_le.mp hhi
      · exact lt_trans (not_le.mp hhi) (he d hd)

/-- **A cursor finds the bindings of the range.** -/
theorem lookup_range (m : OrdMap K V) (lo hi k : K) :
    (m.range lo hi).lookup k = if lo ≤ k ∧ k ≤ hi then m.get k else none := by
  have hrange : m.range lo hi = ((m.filterKeys (fun j => decide (lo ≤ j))).filterKeys
      (fun j => decide (j ≤ hi))).entries := by
    unfold range
    rw [dropWhile_lt_eq_filter m.sorted (fun _ => decide_eq_true_iff) (fun _ => decide_eq_true_iff),
      takeWhile_le_eq_filter (m.sorted.filter _)]
    rfl
  rw [hrange]
  show OrdMap.get _ k = _
  rw [get_filterKeys, get_filterKeys]
  by_cases hlo : lo ≤ k <;> by_cases hhi : k ≤ hi <;> simp [hlo, hhi]

/-! ### Maps with numbers for keys -/

/-- The greatest key, found by a loop over the keys; zero when there is
none. -/
def maxKey {V : Type} (m : OrdMap ℕ V) : ℕ := m.keys.foldl max 0

/-- **A loop along a list that only goes one way** ends on that side of its start and of
everything that it met. -/
theorem foldl_rel {α β : Type*} (r : α → α → Prop) [Std.Refl r] [IsTrans α r]
    {next : α → β → α} {value : β → α} (hstart : ∀ g b, r (next g b) g)
    (hvalue : ∀ g b, r (next g b) (value b)) (l : List β) (g : α) :
    r (l.foldl next g) g ∧ ∀ b ∈ l, r (l.foldl next g) (value b) := by
  induction l generalizing g with
  | nil => exact ⟨Std.Refl.refl g, List.forall_mem_nil _⟩
  | cons b l ih =>
    obtain ⟨hend, hall⟩ := ih (next g b)
    refine ⟨IsTrans.trans _ _ _ hend (hstart g b), fun b' hb' => ?_⟩
    rcases List.mem_cons.mp hb' with rfl | hb'
    · exact IsTrans.trans _ _ _ hend (hvalue g b')
    · exact hall b' hb'

theorem foldl_max_le {l : List ℕ} {n b : ℕ} (hn : n ≤ b) (hl : ∀ x ∈ l, x ≤ b) :
    l.foldl max n ≤ b := by
  induction l generalizing n with
  | nil => exact hn
  | cons y l ih =>
    exact ih (max_le hn (hl y List.mem_cons_self)) (fun x hx => hl x (List.mem_cons_of_mem y hx))

theorem le_maxKey {V : Type} {m : OrdMap ℕ V} {k : ℕ} {v : V} (hk : m.get k = some v) :
    k ≤ m.maxKey :=
  (foldl_rel (· ≥ ·) le_max_left le_max_right m.keys 0).2 k (m.mem_keys_iff.mpr ⟨v, hk⟩)

theorem maxKey_eq {V : Type} {m : OrdMap ℕ V} {k : ℕ} {v : V} (hk : m.get k = some v)
    (hle : ∀ j w, m.get j = some w → j ≤ k) : m.maxKey = k := by
  refine le_antisymm (foldl_max_le (Nat.zero_le k) (fun j hj => ?_)) (le_maxKey hk)
  obtain ⟨w, hw⟩ := m.mem_keys_iff.mp hj
  exact hle j w hw

end OrdMap
