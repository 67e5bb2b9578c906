import ForgeLSM.SkipList

/-!
# The skip list as a sorted map

What the skip list is for: after any sequence of puts, whatever heights their nodes get,
it is the map of the keys to the pointers of their last puts. Searches find the least key
from a target on, iterations give the keys in order, and the list of a level is a part of
the one below.

A put links its node one level after another. Between the rounds of that loop the list is
well-formed with the node linked at the levels done (`linkLevel_spec`, `linkLoop_spec`); at
its end the node is linked at all of them, and the list holds the map with the key
inserted (`Rep.put`).
-/

open Function

namespace SkipList

variable {s s' : SkipList} {level x : ℕ} {fuel : ℕ} {key : Key} {prev : List (Option ℕ)}

/-! ## Linking a node -/

section Linking

variable {order : List ℕ} {linked : ℕ → ℕ} {p : ℕ}

/-- **One round of the loop that links a node.** -/
theorem linkLevel_spec {n i : ℕ} (h : Wf s order (update linked n i)) (hn : n ∈ order)
    (hheight : i < s.height n) (hmax : i < s.maxHeight) (hprev : prev[i]? = some (some p))
    (hp : IsPrev s order (update linked n i) (s.nodeKey n) i p) :
    ∃ s', linkLevel prev n s i = some s' ∧ Wf s' order (update linked n (i + 1))
      ∧ SameNodes s s' ∧ s'.maxHeight = s.maxHeight ∧ s'.loadValue = s.loadValue
      ∧ ∀ l, l ≠ i → s'.loadNext l = s.loadNext l := by
  obtain ⟨link, hload, hlink⟩ := hp.next
  obtain ⟨s₁, hs₁⟩ := exists_storeNext hheight link
  obtain ⟨hsame₁, hmax₁, hvalue₁, hnext₁⟩ := storeNext_spec hs₁
  have hpn : p ≠ n := by
    rintro rfl
    exact absurd hp.lt (by rw [h.rank_eq hn]; exact lt_irrefl _)
  have hload₁ : s₁.loadNext i p = some link := by
    rw [hnext₁, if_neg (fun hc => hpn hc.1), hload]
  have hown : s₁.loadNext i n = some link := by rw [hnext₁, if_pos ⟨rfl, rfl⟩]
  obtain ⟨s₂, hs₂⟩ := exists_storeNext (lt_height_of_loadNext hload₁) (some n)
  obtain ⟨hsame₂, hmax₂, hvalue₂, hnext₂⟩ := storeNext_spec hs₂
  have hw₁ := h.storeOwn (h.ne_head hn) (le_of_eq (update_self n i linked)) hs₁
  have hrank : s₁.rank = s.rank := hsame₁.rank
  have hw₂ : Wf s₂ order (update (update linked n i) n (i + 1)) := by
    refine hw₁.linkNode hn (update_self n i linked) (hmax₁ ▸ hmax) hp.mem ?_ hload₁ ?_
      hown hs₂
    · rw [hrank, h.rank_eq hn]
      exact hp.lt
    · rw [hrank, h.rank_eq hn]
      exact hlink
  rw [update_idem] at hw₂
  refine ⟨s₂, ?_, hw₂, hsame₁.trans hsame₂, hmax₂.trans hmax₁, hvalue₂.trans hvalue₁,
    fun l hl => funext (fun y => ?_)⟩
  · unfold linkLevel
    rw [hprev, Option.join_some, Option.bind_some, hload, Option.bind_some, hs₁, Option.bind_some,
      hs₂]
  · rw [hnext₂, if_neg (fun hc => hl hc.2), hnext₁, if_neg (fun hc => hl hc.2)]

/-- **The loop that links a node**, up to any level. -/
theorem linkLoop_spec {n height : ℕ} (h : Wf s order (update linked n 0)) (hn : n ∈ order)
    (hheight : height ≤ s.height n) (hmax : height ≤ s.maxHeight)
    (hprev : Prevs s order (update linked n 0) (s.nodeKey n) height prev) {i : ℕ}
    (hi : i ≤ height) :
    ∃ s', (List.range i).foldlM (linkLevel prev n) s = some s'
      ∧ Wf s' order (update linked n i) ∧ SameNodes s s'
      ∧ s'.maxHeight = s.maxHeight ∧ s'.loadValue = s.loadValue
      ∧ ∀ l, i ≤ l → s'.loadNext l = s.loadNext l := by
  induction i with
  | zero => exact ⟨s, rfl, h, SameNodes.refl s, rfl, rfl, fun _ _ => rfl⟩
  | succ i ih =>
    obtain ⟨s₁, hrun, hw, hsame, hmax₁, hvalue, hnext⟩ := ih (by omega)
    obtain ⟨p, hp, hisPrev⟩ := hprev i (by omega)
    have hp₁ : IsPrev s₁ order (update linked n i) (s₁.nodeKey n) i p := by
      rw [hsame.key]
      refine hisPrev.congr hsame.rank (congrFun (hnext i (le_refl i)) p) ?_
      refine chain_mono (fun x hx => ⟨hx, ?_⟩) hisPrev.mem
      by_cases hxn : x = n
      · rw [hxn, update_self]
        exact Nat.zero_le _
      · rw [update_of_ne hxn, update_of_ne hxn]
    obtain ⟨s₂, hstep, hw₂, hsame₂, hmax₂, hvalue₂, hnext₂⟩ := linkLevel_spec hw hn
      (by rw [hsame.height]; omega) (by omega) hp hp₁
    refine ⟨s₂, ?_, hw₂, hsame.trans hsame₂, hmax₂.trans hmax₁, hvalue₂.trans hvalue,
      fun l hl => (hnext₂ l (by omega)).trans (hnext l (by omega))⟩
    rw [List.range_succ, List.foldlM_append, hrun, Option.bind_eq_bind, Option.bind_some,
      List.foldlM_cons, hstep]
    rfl

end Linking

/-! ## The list as a map -/

theorem mapM_eq_some_map {α β : Type} {f : α → Option β} {g : α → β} {l : List α}
    (h : ∀ x ∈ l, f x = some (g x)) : l.mapM f = some (l.map g) := by
  induction l with
  | nil => rfl
  | cons x l ih =>
    obtain ⟨hx, hl⟩ := List.forall_mem_cons.mp h
    rw [List.mapM_cons, hx, ih hl]
    rfl

/-- **A list at rest that holds a map**: every node is linked at all the levels of its
tower, and the nodes are the entries. -/
structure Rep (s : SkipList) (order : List ℕ) (m : OrdMap Key VLogPointer) : Prop where
  wf : Wf s order s.height
  height_pos : ∀ x ∈ order, 1 ≤ s.height x
  get_iff : ∀ k ptr, m.get k = some ptr ↔ ∃ x ∈ order, s.nodeKey x = k ∧ s.loadValue x = some ptr

theorem rep_init : Rep init [] .empty where
  wf := wf_init _
  height_pos x hx := by cases hx
  get_iff k ptr := by simp

namespace Rep

variable {order : List ℕ} {m : OrdMap Key VLogPointer}

section

variable (h : Rep s order m)
include h

/-- **The value of a key of the list is replaced.** -/
theorem storeValue {ptr : VLogPointer} {n : ℕ} (hn : n ∈ order) (hkey : s.nodeKey n = key)
    (hs : s.storeValue n ptr = some s') : Rep s' order (m.insert key ptr) := by
  obtain ⟨hsame, -, -, hvalue⟩ := storeValue_spec hs
  refine ⟨hsame.height ▸ h.wf.storeValue hs, fun x hx => hsame.height ▸ h.height_pos x hx,
    fun k ptr' => ?_⟩
  rw [OrdMap.get_insert, hsame.key]
  by_cases hk : k = key
  · rw [if_pos hk]
    constructor
    · intro heq
      exact ⟨n, hn, hkey.trans hk.symm, by rw [hvalue, if_pos rfl, heq]⟩
    · rintro ⟨x, hx, hxk, hxv⟩
      have hxn : x = n := h.wf.eq_of_rank_eq hx hn (by
        rw [h.wf.rank_eq hx, h.wf.rank_eq hn, hxk, hkey, hk])
      rwa [hvalue, if_pos hxn] at hxv
  · rw [if_neg hk, h.get_iff]
    refine exists_congr (fun x => and_congr_right (fun _ => and_congr_right (fun hxk => ?_)))
    rw [hvalue, if_neg]
    rintro rfl
    exact hk (hxk.symm.trans hkey)

/-- **A new key is inserted.** -/
theorem insertNode (hkey : key.length < 2 ^ 32) (hnew : ∀ x ∈ order, s.nodeKey x ≠ key)
    (ptr : VLogPointer) {height : Height} (hmax : height.1 ≤ s.maxHeight)
    (hprev : Prevs s order s.height key height.1 prev) :
    ∃ s' order', (List.range height.1).foldlM (linkLevel prev s.nodes.length)
        (s.addNode key ptr height.1) = some s'
      ∧ Rep s' order' (m.insert key ptr) ∧ s'.nodes.length = s.nodes.length + 1 := by
  obtain ⟨order', hw, hperm⟩ := h.wf.addNode hkey hnew ptr height.1
  have hmem : ∀ x, x ∈ order' ↔ x = s.nodes.length ∨ x ∈ order := fun x => by
    rw [hperm.mem_iff, List.mem_cons]
  have hn : s.nodes.length ∈ order' := (hmem _).mpr (Or.inl rfl)
  have hnkey : (s.addNode key ptr height.1).nodeKey s.nodes.length = key :=
    nodeKey_addNode_self hkey
  have hprev' : Prevs (s.addNode key ptr height.1) order'
      (update s.height s.nodes.length 0)
      ((s.addNode key ptr height.1).nodeKey s.nodes.length) height.1 prev := by
    intro l hl
    obtain ⟨p, hp, hisPrev⟩ := hprev l hl
    rw [hnkey]
    exact ⟨p, hp, hisPrev.addNode h.wf (lt_of_lt_of_le hl height.2.2)
      (fun x hx => (hmem x).mpr (Or.inr hx))⟩
  have hheight : height.1 ≤ (s.addNode key ptr height.1).height s.nodes.length := by
    rw [height_addNode, update_self]
  obtain ⟨s', hrun, hw', hsame, -, hvalue, -⟩ :=
    linkLoop_spec hw hn hheight hmax hprev' (le_refl height.1)
  have hheights : s'.height = update s.height s.nodes.length height.1 := by
    rw [hsame.height, height_addNode]
  have hlt : ∀ x ∈ order, x < s.nodes.length := fun x hx =>
    h.wf.lt_length (List.mem_cons_of_mem head hx)
  refine ⟨s', order', hrun, ⟨hheights.symm ▸ hw', fun x hx => ?_, fun k ptr' => ?_⟩, ?_⟩
  · rw [hheights]
    rcases (hmem x).mp hx with rfl | hx
    · rw [update_self]
      exact height.2.1
    · rw [update_of_ne (Nat.ne_of_lt (hlt x hx))]
      exact h.height_pos x hx
  · rw [OrdMap.get_insert, hsame.key, hvalue]
    by_cases hk : k = key
    · rw [if_pos hk]
      constructor
      · intro heq
        exact ⟨s.nodes.length, hn, hnkey.trans hk.symm, loadValue_addNode_self.trans heq⟩
      · rintro ⟨x, hx, hxk, hxv⟩
        rcases (hmem x).mp hx with rfl | hx
        · rwa [loadValue_addNode_self] at hxv
        · rw [nodeKey_addNode_of_lt (hlt x hx)] at hxk
          exact absurd (hxk.trans hk) (hnew x hx)
    · rw [if_neg hk, h.get_iff]
      constructor
      · rintro ⟨x, hx, hxk, hxv⟩
        exact ⟨x, (hmem x).mpr (Or.inr hx), (nodeKey_addNode_of_lt (hlt x hx)).trans hxk,
          (loadValue_addNode_of_lt (hlt x hx)).trans hxv⟩
      · rintro ⟨x, hx, hxk, hxv⟩
        rcases (hmem x).mp hx with rfl | hx
        · exact absurd (hxk.symm.trans hnkey) hk
        · rw [nodeKey_addNode_of_lt (hlt x hx)] at hxk
          rw [loadValue_addNode_of_lt (hlt x hx)] at hxv
          exact ⟨x, hx, hxk, hxv⟩
  · rw [hsame.length, length_addNode]

/-- A greater maximum height changes nothing else. -/
theorem storeMaxHeight {max : ℕ} (hle : s.maxHeight ≤ max) (hmax : max ≤ kMaxHeight) :
    Rep { s with maxHeight := max } order m :=
  ⟨h.wf.storeMaxHeight hle hmax, h.height_pos, h.get_iff⟩

/-- **A put is an insertion into the map.** -/
theorem put (hkey : key.length < 2 ^ 32) (ptr : VLogPointer) (height : Height)
    (hfuel : s.nodes.length + kMaxHeight ≤ fuel) :
    ∃ s' order', s.put fuel key ptr height = some s' ∧ Rep s' order' (m.insert key ptr)
      ∧ s'.nodes.length ≤ s.nodes.length + 1 := by
  have hlen := h.wf.length_order
  obtain ⟨prev, hfind, hprevlen, hprev⟩ :=
    h.wf.findGreaterOrEqual_spec key (show order.length + kMaxHeight ≤ fuel by omega)
  unfold SkipList.put
  rw [hfind, Option.bind_some]
  dsimp only
  cases hhit : s.hit key ((chain order s.height 0).find?
      (fun y => decide ((key : WithBot Key) ≤ s.rank y))) with
  | some n =>
    obtain ⟨hn, hnkey⟩ := h.wf.hit_eq_some_iff.mp hhit
    rw [chain_zero h.height_pos] at hn
    obtain ⟨s', hs'⟩ := exists_storeValue (h.wf.lt_length (List.mem_cons_of_mem head hn)) ptr
    obtain ⟨hsame, -⟩ := storeValue_spec hs'
    exact ⟨s', order, hs', h.storeValue hn hnkey hs', by rw [hsame.length]; omega⟩
  | none =>
    have hnew := h.wf.hit_eq_none_iff.mp hhit
    rw [chain_zero h.height_pos] at hnew
    have hfilled := h.wf.prevs_fillPrev hprevlen hprev height
    generalize (if height.1 > s.maxHeight then fillPrev prev s.maxHeight height.1 else prev)
      = prev' at hfilled ⊢
    have hmax : height.1 ≤ (if height.1 > s.maxHeight then height.1 else s.maxHeight)
        ∧ s.maxHeight ≤ (if height.1 > s.maxHeight then height.1 else s.maxHeight)
        ∧ (if height.1 > s.maxHeight then height.1 else s.maxHeight) ≤ kMaxHeight := by
      have := h.wf.max_le
      have := height.2.2
      split_ifs <;> omega
    generalize (if height.1 > s.maxHeight then height.1 else s.maxHeight) = max at hmax ⊢
    have hr := h.storeMaxHeight hmax.2.1 hmax.2.2
    obtain ⟨s', order', hrun, hrep, hlen'⟩ := hr.insertNode hkey hnew ptr hmax.1
      (fun l hl => by
        obtain ⟨p, hp, hisPrev⟩ := hfilled l hl
        exact ⟨p, hp, hisPrev.congr rfl rfl hisPrev.mem⟩)
    exact ⟨s', order', hrun, hrep, le_of_eq hlen'⟩

/-- A lookup answers as the map does. -/
theorem get (k : Key) (hfuel : s.nodes.length + kMaxHeight ≤ fuel) :
    s.get fuel k = some (m.get k) := by
  have hlen := h.wf.length_order
  obtain ⟨prev, hfind, -, -⟩ :=
    h.wf.findGreaterOrEqual_spec k (show order.length + kMaxHeight ≤ fuel by omega)
  unfold SkipList.get
  rw [hfind, Option.bind_some]
  dsimp only
  cases hhit : s.hit k ((chain order s.height 0).find?
      (fun y => decide ((k : WithBot Key) ≤ s.rank y))) with
  | some n =>
    obtain ⟨hn, hnkey⟩ := h.wf.hit_eq_some_iff.mp hhit
    rw [chain_zero h.height_pos] at hn
    have hvalue := h.wf.loadValue_eq hn
    rw [(h.get_iff k _).mpr ⟨n, hn, hnkey, hvalue⟩]
    dsimp only
    rw [hvalue]
    rfl
  | none =>
    have hnone := h.wf.hit_eq_none_iff.mp hhit
    rw [chain_zero h.height_pos] at hnone
    refine congrArg some (Option.eq_none_iff_forall_ne_some.mpr (fun ptr hget => ?_)).symm
    obtain ⟨x, hx, hxk, -⟩ := (h.get_iff k ptr).mp hget
    exact hnone x hx hxk

/-- **The nodes in order are the entries of the map.** -/
theorem entries_eq : m.entries = order.map s.item := by
  have hsorted : (order.map s.item).Pairwise (fun a b => a.1 < b.1) := by
    refine List.pairwise_map.mpr ((List.pairwise_cons.mp h.wf.sorted).2.imp_of_mem ?_)
    intro x y hx hy hxy
    rw [h.wf.rank_eq hx, h.wf.rank_eq hy] at hxy
    exact WithBot.coe_lt_coe.mp hxy
  have : Std.Antisymm (fun a b : Key × VLogPointer => a.1 < b.1) :=
    ⟨fun a b hab hba => absurd hba hab.asymm⟩
  have : Std.Irrefl (fun a b : Key × VLogPointer => a.1 < b.1) := ⟨fun a => lt_irrefl a.1⟩
  refine m.sorted.eq_of_mem_iff hsorted (fun e => ?_)
  obtain ⟨k, ptr⟩ := e
  rw [OrdMap.mem_entries_iff, h.get_iff, List.mem_map]
  refine exists_congr (fun x => and_congr_right (fun hx => ?_))
  rw [item, Prod.mk.injEq, h.wf.loadValue_eq hx, Option.some.injEq]

/-- What an iterator gives from the first node of a back part on. -/
theorem collect (pre post : List ℕ) (hsplit : order = pre ++ post)
    (hfuel : s.nodes.length + kMaxHeight ≤ fuel) :
    s.collect fuel post.head? = some (post.map s.item) := by
  have hlen := h.wf.length_order
  have hlinked := h.wf.chains 0 (by decide)
  rw [chain_zero h.height_pos, hsplit] at hlinked
  have hpost : post.length ≤ order.length := by
    rw [hsplit, List.length_append]
    omega
  unfold SkipList.collect
  rw [hlinked.getLastD.walk_eq (by omega), Option.bind_some]
  refine mapM_eq_some_map (fun x hx => ?_)
  unfold entry
  rw [h.wf.loadValue_eq (hsplit ▸ List.mem_append_right pre hx)]
  rfl

/-- **An iteration gives the entries of the map.** -/
theorem collect_first (hfuel : s.nodes.length + kMaxHeight ≤ fuel) :
    s.seekToFirst.bind (s.collect fuel) = some m.entries := by
  have hlinked := h.wf.chains 0 (by decide)
  rw [chain_zero h.height_pos] at hlinked
  unfold seekToFirst
  rw [hlinked.next_start, Option.bind_some, h.entries_eq]
  exact h.collect [] order rfl hfuel

/-- **An iteration from a key on gives the entries that are not below it.** -/
theorem collect_seek (t : Key) (hfuel : s.nodes.length + kMaxHeight ≤ fuel) :
    (s.seek fuel t).bind (s.collect fuel)
      = some (m.entries.filter (fun e => decide (t ≤ e.1))) := by
  have hlen := h.wf.length_order
  obtain ⟨prev, hfind, -, -⟩ :=
    h.wf.findGreaterOrEqual_spec t (show order.length + kMaxHeight ≤ fuel by omega)
  obtain ⟨pre, post, hsplit, hpre, hpost⟩ :=
    exists_split_at (List.pairwise_cons.mp h.wf.sorted).2 (t : WithBot Key)
  have hmem : ∀ x ∈ pre ++ post, x ∈ order := fun x hx => hsplit ▸ hx
  have hfound : order.find? (fun y => decide ((t : WithBot Key) ≤ s.rank y)) = post.head? := by
    rw [hsplit]
    exact find?_append_eq_head? hpre (fun y hy => hpost y (List.mem_of_head? hy))
  unfold SkipList.seek
  rw [hfind, Option.map_some, Option.bind_some, chain_zero h.height_pos, hfound,
    h.collect pre post hsplit hfuel, h.entries_eq, hsplit, List.map_append, List.filter_append]
  -- what is before the node found is below the key, what is behind it is not
  have hnone : (pre.map s.item).filter (fun e => decide (t ≤ e.1)) = [] := by
    refine List.filter_eq_nil_iff.mpr (fun e he => ?_)
    obtain ⟨x, hx, rfl⟩ := List.mem_map.mp he
    have hlt := hpre x hx
    rw [h.wf.rank_eq (hmem x (List.mem_append_left post hx)), WithBot.coe_lt_coe] at hlt
    rw [decide_eq_true_eq]
    exact not_le.mpr hlt
  have hall : (post.map s.item).filter (fun e => decide (t ≤ e.1)) = post.map s.item := by
    refine List.filter_eq_self.mpr (fun e he => ?_)
    obtain ⟨x, hx, rfl⟩ := List.mem_map.mp he
    have hle := hpost x hx
    rw [h.wf.rank_eq (hmem x (List.mem_append_right pre hx)), WithBot.coe_le_coe] at hle
    exact decide_eq_true hle
  rw [hnone, hall, List.nil_append]

end

end Rep

/-! ## Sequences of puts -/

/-- **A sequence of puts.** -/
def putAll (fuel : ℕ) (s : SkipList) (puts : List SkipPut) : Option SkipList :=
  puts.foldlM (fun s p => s.put fuel p.key p.ptr p.height) s

/-- **Every sequence of puts makes the map that inserting makes.** -/
theorem putAll_spec {puts : List SkipPut} (hkeys : ∀ p ∈ puts, p.key.length < 2 ^ 32)
    {order : List ℕ} {m : OrdMap Key VLogPointer} (h : Rep s order m)
    (hfuel : s.nodes.length + puts.length + kMaxHeight ≤ fuel) :
    ∃ s' order', putAll fuel s puts = some s'
      ∧ Rep s' order' (puts.foldl (fun m p => m.insert p.key p.ptr) m)
      ∧ s'.nodes.length + kMaxHeight ≤ fuel := by
  induction puts generalizing s order m with
  | nil => exact ⟨s, order, rfl, h, hfuel⟩
  | cons p puts ih =>
    obtain ⟨hp, hputs⟩ := List.forall_mem_cons.mp hkeys
    rw [List.length_cons] at hfuel
    have hone : s.nodes.length + kMaxHeight ≤ fuel := by omega
    obtain ⟨s₁, order₁, hput, hrep, hlen⟩ := h.put hp p.ptr p.height hone
    obtain ⟨s', order', hrun, hrep', hfuel'⟩ := ih hputs hrep (by omega)
    refine ⟨s', order', ?_, hrep', hfuel'⟩
    unfold putAll
    rw [List.foldlM_cons, hput]
    exact hrun

/-- **The node a search should return**: of those in the list the one with the least key
from the target on, and null if there is none. -/
def LeastFrom (s : SkipList) (nodes : List ℕ) (t : Key) : Option ℕ → Prop
  | none => ∀ x ∈ nodes, s.nodeKey x < t
  | some n => n ∈ nodes ∧ t ≤ s.nodeKey n ∧ ∀ x ∈ nodes, t ≤ s.nodeKey x → s.nodeKey n ≤ s.nodeKey x

theorem Rep.leastFrom {order : List ℕ} {m : OrdMap Key VLogPointer} (h : Rep s order m) (t : Key) :
    LeastFrom s order t (order.find? (fun y => decide ((t : WithBot Key) ≤ s.rank y))) := by
  have hle : ∀ x ∈ order, (t : WithBot Key) ≤ s.rank x ↔ t ≤ s.nodeKey x := fun x hx => by
    rw [h.wf.rank_eq hx, WithBot.coe_le_coe]
  cases hfind : order.find? (fun y => decide ((t : WithBot Key) ≤ s.rank y)) with
  | none =>
    intro x hx
    have hx' := List.find?_eq_none.mp hfind x hx
    rw [decide_eq_true_eq, hle x hx] at hx'
    exact not_le.mp hx'
  | some n =>
    have hn := List.mem_of_find?_eq_some hfind
    have hsorted := (List.pairwise_cons.mp h.wf.sorted).2
    refine ⟨hn, (hle n hn).mp (by simpa using List.find?_some hfind), fun x hx hxt => ?_⟩
    have hrank := rank_le_of_find? hsorted hfind hx ((hle x hx).mpr hxt)
    rwa [h.wf.rank_eq hn, h.wf.rank_eq hx, WithBot.coe_le_coe] at hrank

/-- **The skip list is a sorted map.** After every sequence of puts of keys shorter than
`2 ^ 32` bytes, with any heights, a search returns the node with the least key from the
target on; a lookup gives the pointer of the last put of the key, or nothing if there was
none; an iteration gives the keys that were put, each once and in ascending order, and
from a key on those that are not below it; and the list of each level is a sublist of
the level below. None of these needs more rounds than there were puts and levels. -/
theorem putAll_sortedMap (puts : List SkipPut) (hkeys : ∀ p ∈ puts, p.key.length < 2 ^ 32)
    (fuel : ℕ) (hfuel : puts.length + kMaxHeight + 1 ≤ fuel) :
    ∃ s nodes items, putAll fuel init puts = some s ∧ s.levelList fuel 0 = some nodes
      ∧ (∀ t, ∃ node prev, s.findGreaterOrEqual fuel t = some (node, prev)
        ∧ LeastFrom s nodes t node)
      ∧ (∀ k, s.get fuel k
        = some ((puts.reverse.find? (fun p => decide (p.key = k))).map SkipPut.ptr))
      ∧ s.seekToFirst.bind (s.collect fuel) = some items
      ∧ items.Pairwise (fun a b => a.1 < b.1)
      ∧ (∀ k, (∃ ptr, (k, ptr) ∈ items) ↔ ∃ p ∈ puts, p.key = k)
      ∧ (∀ t, (s.seek fuel t).bind (s.collect fuel)
        = some (items.filter (fun e => decide (t ≤ e.1))))
      ∧ ∀ level, level + 1 < kMaxHeight → ∃ upper lower,
        s.levelList fuel (level + 1) = some upper ∧ s.levelList fuel level = some lower
          ∧ upper.Sublist lower := by
  have hone : init.nodes.length = 1 := rfl
  obtain ⟨s, order, hrun, hrep, hnodes⟩ := putAll_spec hkeys rep_init
    (show init.nodes.length + puts.length + kMaxHeight ≤ fuel by omega)
  have hlen := hrep.wf.length_order
  have hlist : ∀ level < kMaxHeight,
      s.levelList fuel level = some (chain order s.height level) := fun level hl =>
    hrep.wf.levelList hl (by omega)
  have hget : ∀ k, (puts.foldl (fun m p => m.insert p.key p.ptr)
      (.empty : OrdMap Key VLogPointer)).get k
        = (puts.reverse.find? (fun p => decide (p.key = k))).map SkipPut.ptr := fun k =>
    OrdMap.get_foldl_insert SkipPut.key SkipPut.ptr puts (fun p => decide_eq_true_iff)
  refine ⟨s, order, _, hrun, chain_zero hrep.height_pos ▸ hlist 0 (by decide), fun t => ?_,
    fun k => ?_, hrep.collect_first hnodes, OrdMap.sorted _, fun k => ?_,
    fun t => hrep.collect_seek t hnodes,
    fun level hl => ⟨_, _, hlist _ hl, hlist _ (by omega), chain_sublist order s.height level⟩⟩
  · obtain ⟨prev, hfind, -, -⟩ :=
      hrep.wf.findGreaterOrEqual_spec t (show order.length + kMaxHeight ≤ fuel by omega)
    rw [chain_zero hrep.height_pos] at hfind
    exact ⟨_, prev, hfind, hrep.leastFrom t⟩
  · rw [hrep.get k hnodes, hget]
  · simp only [OrdMap.mem_entries_iff, hget, Option.map_eq_some_iff]
    constructor
    · rintro ⟨ptr, p, hp, -⟩
      exact ⟨p, List.mem_reverse.mp (List.mem_of_find?_eq_some hp),
        by simpa using List.find?_some hp⟩
    · rintro ⟨p, hp, hpk⟩
      have hsome : (puts.reverse.find? (fun p => decide (p.key = k))).isSome = true :=
        List.find?_isSome.mpr ⟨p, List.mem_reverse.mpr hp, decide_eq_true hpk⟩
      obtain ⟨q, hq⟩ := Option.isSome_iff_exists.mp hsome
      exact ⟨q.ptr, q, hq, rfl⟩

/-- Three puts, one of the empty key and two of another. -/
def threePuts : List SkipPut :=
  [⟨[98], ⟨1, 12, 3⟩, ⟨2, by decide⟩⟩, ⟨[], ⟨1, 27, 3⟩, ⟨1, by decide⟩⟩,
    ⟨[98], ⟨1, 42, 3⟩, ⟨5, by decide⟩⟩]

theorem putAll_sortedMap_threePuts :
    (∀ p ∈ threePuts, p.key.length < 2 ^ 32)
      ∧ (putAll 16 init threePuts).bind (fun s => s.seekToFirst.bind (s.collect 16))
        = some [([], ⟨1, 27, 3⟩), ([98], ⟨1, 42, 3⟩)]
      ∧ ∃ s nodes, putAll 16 init threePuts = some s ∧ s.levelList 16 0 = some nodes
        ∧ ∀ t, ∃ node prev, s.findGreaterOrEqual 16 t = some (node, prev)
          ∧ LeastFrom s nodes t node := by
  obtain ⟨s, nodes, items, hrun, hlist, hfind, -⟩ :=
    putAll_sortedMap threePuts (by decide) 16 (by decide)
  exact ⟨by decide, by decide, s, nodes, hrun, hlist, hfind⟩

/-- A key whose length is a multiple of `2 ^ 32` is stored as the empty key. -/
theorem get_put_of_length (hlen : key.length = 2 ^ 32) (ptr : VLogPointer) :
    (init.put 16 key ptr ⟨1, by decide⟩).bind (fun s => s.get 16 key) = some none := by
  cases key with
  | nil => cases hlen
  | cons b bytes =>
    have hcut : u32 (b :: bytes).length = 0 := by rw [hlen]; rfl
    have hput : init.put 16 (b :: bytes) ptr ⟨1, by decide⟩ = some
        ⟨[⟨⟨0, 0, 0⟩, 0, some 1 :: List.replicate 11 none, []⟩,
          ⟨ptr, u32 (b :: bytes).length, [none], b :: bytes⟩], 1⟩ := rfl
    rw [hput, hcut]
    rfl

/-- **A key of `2 ^ 32` bytes is lost**: the list answers that it is not there right after
it was put. -/
theorem get_put_longKey :
    (List.replicate (2 ^ 32) (0 : Byte)).length = 2 ^ 32
      ∧ (putAll 16 init [⟨List.replicate (2 ^ 32) 0, ⟨1, 12, 3⟩, ⟨1, by decide⟩⟩]).bind
          (fun s => s.get 16 (List.replicate (2 ^ 32) 0)) = some none := by
  have hlen : (List.replicate (2 ^ 32) (0 : Byte)).length = 2 ^ 32 := List.length_replicate
  generalize List.replicate (2 ^ 32) (0 : Byte) = key at hlen ⊢
  refine ⟨hlen, ?_⟩
  have hone : putAll 16 init [⟨key, ⟨1, 12, 3⟩, ⟨1, by decide⟩⟩]
      = init.put 16 key ⟨1, 12, 3⟩ ⟨1, by decide⟩ := by
    unfold putAll
    rw [List.foldlM_cons]
    exact bind_pure _
  rw [hone]
  exact get_put_of_length hlen ⟨1, 12, 3⟩

end SkipList
