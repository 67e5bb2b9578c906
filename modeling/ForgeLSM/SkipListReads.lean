import ForgeLSM.SkipListSteps

/-!
# Reading the skip list during puts

What a read returns while puts go on, over every interleaving of their loads and stores
(`SkipMachine.reads_during_puts`).

What carries the proof is that the invariant of the list holds between any two stores,
and that what a read relies on only grows: a node linked at a level stays linked there,
and no key changes (`Effect`). So a read that stands on a node below its target at some
level may go on from there whatever has been linked since (`ReadPhase.Inv.mono`), and
what it finds is judged by the list at its last load. As a put adds at most one node, a
read takes no more steps than there are nodes and levels in the end.
-/

open SkipList Function

namespace SkipList

/-! ## What a put does to the list -/

variable {s s' : SkipList} {order order' : List ℕ} {w : Writer} {p : SkipPut}
  {prev : List (Option ℕ)} {link : Option ℕ}

/-- How many levels each node is linked at: all of its tower, but for the node under
construction. -/
def Writer.linked (s : SkipList) : Writer → ℕ → ℕ
  | .linking _ n i _ | .storingOwn _ n i _ _ | .storingPrev _ n i _ => update s.height n i
  | _ => s.height

/-- **A node under construction**, linked at the levels below `i`. -/
structure Building (s : SkipList) (order : List ℕ) (p : SkipPut) (n i : ℕ)
    (prev : List (Option ℕ)) : Prop where
  mem : n ∈ order
  lt : i < p.height.1
  height : s.height n = p.height.1
  max : p.height.1 ≤ s.maxHeight
  key : s.nodeKey n = p.key
  value : s.loadValue n = some p.ptr
  prevs : ∀ l, i ≤ l → l < p.height.1 → ∃ q, prev[l]? = some (some q)
    ∧ IsPrev s order (update s.height n i) p.key l q

/-- What holds of a put between its steps. -/
def Writer.Inv (s : SkipList) (order : List ℕ) : Writer → Prop
  | .idle | .locked _ => True
  | .searching p x level prev =>
    level < kMaxHeight ∧ x ∈ head :: chain order s.height level
      ∧ s.rank x < (p.key : WithBot Key) ∧ prev.length = kMaxHeight
      ∧ ∀ l, level < l → l < s.maxHeight → ∃ q, prev[l]? = some (some q)
        ∧ IsPrev s order s.height p.key l q
  | .replacing p n => n ∈ order ∧ s.nodeKey n = p.key
  | .measuring p prev =>
    (∀ x ∈ order, s.nodeKey x ≠ p.key) ∧ prev.length = kMaxHeight
      ∧ Prevs s order s.height p.key s.maxHeight prev
  | .raising p prev =>
    (∀ x ∈ order, s.nodeKey x ≠ p.key) ∧ s.maxHeight ≤ p.height.1
      ∧ Prevs s order s.height p.key p.height.1 prev
  | .allocating p prev =>
    (∀ x ∈ order, s.nodeKey x ≠ p.key) ∧ p.height.1 ≤ s.maxHeight
      ∧ Prevs s order s.height p.key p.height.1 prev
  | .linking p n i prev => Building s order p n i prev
  | .storingOwn p n i prev link => Building s order p n i prev
      ∧ ∃ q, prev[i]? = some (some q) ∧ s.loadNext i q = some link
  | .storingPrev p n i prev => Building s order p n i prev
      ∧ ∃ q link, prev[i]? = some (some q) ∧ s.loadNext i q = some link
        ∧ s.loadNext i n = some link
  | .unlocking p n => n ∈ order ∧ s.nodeKey n = p.key ∧ s.loadValue n = some p.ptr

/-- **A list with a put under way.** -/
structure Underway (s : SkipList) (order : List ℕ) (w : Writer) : Prop where
  wf : Wf s order (w.linked s)
  height_pos : ∀ x ∈ order, 1 ≤ s.height x
  writer : w.Inv s order

/-- **What a step of a put can do to the list**: links are added and none is lost, keys do
not change, and a node that has become visible, or whose value has changed, is that of
the put. -/
structure Effect (s : SkipList) (order : List ℕ) (linked : ℕ → ℕ) (s' : SkipList)
    (order' : List ℕ) (linked' : ℕ → ℕ) (p : SkipPut) : Prop where
  grows : ∀ x ∈ order, x ∈ order' ∧ linked x ≤ linked' x
  key : ∀ x ∈ order, s'.nodeKey x = s.nodeKey x
  visible : ∀ x ∈ order', 0 < linked' x →
    (x ∈ order ∧ 0 < linked x ∧ s'.loadValue x = s.loadValue x)
      ∨ s'.nodeKey x = p.key ∧ s'.loadValue x = some p.ptr
  length_le : order.length ≤ order'.length
  ahead_le : ∀ x ∈ head :: order,
    ahead s'.rank order' x + order.length ≤ ahead s.rank order x + order'.length

/-- A step that adds no node. -/
theorem Effect.of_same {linked linked' : ℕ → ℕ} (hs : SameNodes s s')
    (hlinked : ∀ x ∈ order, linked x ≤ linked' x)
    (hvisible : ∀ x ∈ order, 0 < linked' x →
      (0 < linked x ∧ s'.loadValue x = s.loadValue x)
        ∨ s'.nodeKey x = p.key ∧ s'.loadValue x = some p.ptr) :
    Effect s order linked s' order linked' p where
  grows x hx := ⟨hx, hlinked x hx⟩
  key x _ := by rw [hs.key]
  visible x hx hpos := (hvisible x hx hpos).imp_left (fun h => ⟨hx, h⟩)
  length_le := le_refl _
  ahead_le x _ := by rw [hs.rank]

/-- A step that only loads. -/
theorem Effect.refl (s : SkipList) (order : List ℕ) (linked : ℕ → ℕ) (p : SkipPut) :
    Effect s order linked s order linked p :=
  .of_same (SameNodes.refl s) (fun _ _ => le_refl _) (fun _ _ h => Or.inl ⟨h, rfl⟩)

/-- A new node is not visible. -/
theorem Effect.addNode {linked : ℕ → ℕ} (hlt : ∀ x ∈ head :: order, x < s.nodes.length)
    (hperm : order'.Perm (s.nodes.length :: order)) (h : ℕ) :
    Effect s order linked (s.addNode p.key p.ptr h) order'
      (update linked s.nodes.length 0) p where
  grows x hx := by
    have hne := Nat.ne_of_lt (hlt x (List.mem_cons_of_mem head hx))
    rw [update_of_ne hne]
    exact ⟨hperm.mem_iff.mpr (List.mem_cons_of_mem _ hx), le_refl _⟩
  key x hx := nodeKey_addNode_of_lt (hlt x (List.mem_cons_of_mem head hx))
  visible x hx hpos := by
    rcases List.mem_cons.mp (hperm.mem_iff.mp hx) with rfl | hx
    · rw [update_self] at hpos
      exact absurd hpos (lt_irrefl 0)
    · have hxlt := hlt x (List.mem_cons_of_mem head hx)
      rw [update_of_ne (Nat.ne_of_lt hxlt)] at hpos
      exact Or.inl ⟨hx, hpos, loadValue_addNode_of_lt hxlt⟩
  length_le := by
    rw [hperm.length_eq, List.length_cons]
    exact Nat.le_succ _
  ahead_le x hx := by
    have hrank : ∀ y ∈ head :: order, (s.addNode p.key p.ptr h).rank y = s.rank y :=
      fun y hy => rank_addNode_of_lt (hlt y hy)
    have hcount : ahead (s.addNode p.key p.ptr h).rank order x = ahead s.rank order x := by
      refine List.countP_congr (fun y hy => ?_)
      rw [hrank x hx, hrank y (List.mem_cons_of_mem head hy)]
    have hcons : ahead (s.addNode p.key p.ptr h).rank order' x
        ≤ ahead (s.addNode p.key p.ptr h).rank order x + 1 := by
      unfold ahead
      rw [hperm.countP_eq, List.countP_cons]
      split_ifs <;> omega
    rw [hperm.length_eq, List.length_cons]
    omega

/-- **A step of a put**: it can be taken, and leaves a list with the put under way. -/
def Steps (s : SkipList) (order : List ℕ) (w : Writer) (p : SkipPut) : Prop :=
  ∃ s' w' order', writerStep s w = some (s', w') ∧ w'.put? = some p ∧ Underway s' order' w'
    ∧ Effect s order (w.linked s) s' order' (w'.linked s') p

/-- One more level of a node under construction is linked. -/
theorem update_le_update {n i j : ℕ} (f : ℕ → ℕ) (hij : i ≤ j) (x : ℕ) :
    update f n i x ≤ update f n j x := by
  by_cases hx : x = n
  · rw [hx, update_self, update_self]
    exact hij
  · rw [update_of_ne hx, update_of_ne hx]

/-- A node stays under construction while links that are not those of its predecessors
change. -/
theorem Building.congr {n i j : ℕ} (hb : Building s order p n i prev) (hsame : SameNodes s s')
    (hmax : s'.maxHeight = s.maxHeight) (hvalue : s'.loadValue = s.loadValue) (hij : i ≤ j)
    (hj : j < p.height.1)
    (hnext : ∀ l q, j ≤ l → IsPrev s order (update s.height n i) p.key l q →
      s'.loadNext l q = s.loadNext l q) :
    Building s' order p n j prev where
  mem := hb.mem
  lt := hj
  height := by rw [hsame.height, hb.height]
  max := hmax.symm ▸ hb.max
  key := by rw [hsame.key, hb.key]
  value := by rw [hvalue, hb.value]
  prevs l hl hlt := by
    obtain ⟨q, hq, hisPrev⟩ := hb.prevs l (le_trans hij hl) hlt
    refine ⟨q, hq, hisPrev.congr hsame.rank (hnext l q hl hisPrev) ?_⟩
    rw [hsame.height]
    exact chain_mono (fun x hx => ⟨hx, update_le_update s.height hij x⟩) hisPrev.mem

theorem steps_locked (h : Underway s order (.locked p)) : Steps s order (.locked p) p := by
  have hmax := h.wf.max_le
  have hone := h.wf.one_le_max
  refine ⟨s, _, order, rfl, rfl, ⟨h.wf, h.height_pos, ?_⟩, Effect.refl s order s.height p⟩
  exact ⟨by omega, List.mem_cons_self, WithBot.bot_lt_coe p.key, List.length_replicate,
    fun l h₁ h₂ => by omega⟩

theorem steps_searching {x level : ℕ} (h : Underway s order (.searching p x level prev)) :
    Steps s order (.searching p x level prev) p := by
  obtain ⟨hl, hx, hlt, hlen, hprev⟩ := h.writer
  have hload := Effect.refl s order s.height p
  have hset : (prev.set level (some x))[level]? = some (some x) := by
    rw [List.getElem?_set_self (by omega)]
  have hother : ∀ l, l ≠ level → (prev.set level (some x))[l]? = prev[l]? := fun l hne =>
    List.getElem?_set_ne hne.symm
  rcases h.wf.move_spec hl hx hlt with ⟨n, hmove, hn, -, hnk⟩ | ⟨hmove, hpos, hisPrev⟩
    | ⟨link, hmove, rfl, hnext, hisPrev⟩
  · refine ⟨s, .searching p n level prev, order, ?_, rfl, ⟨h.wf, h.height_pos, ?_⟩, hload⟩
    · rw [writerStep, hmove]
      rfl
    · exact ⟨hl, List.mem_cons_of_mem head hn, hnk, hlen, hprev⟩
  · refine ⟨s, .searching p x (level - 1) (prev.set level (some x)), order, ?_, rfl,
      ⟨h.wf, h.height_pos, ?_⟩, hload⟩
    · rw [writerStep, hmove]
      rfl
    · refine ⟨by omega, mem_lower (Nat.sub_le level 1) hx, hlt, by rw [List.length_set, hlen], ?_⟩
      intro l h₁ h₂
      by_cases heq : l = level
      · rw [heq, hset]
        exact ⟨x, rfl, hisPrev⟩
      · rw [hother l heq]
        exact hprev l (by omega) h₂
  · obtain ⟨link', hnext', hge⟩ := hisPrev.next
    obtain rfl : link' = link := Option.some.inj (hnext'.symm.trans hnext)
    have hfind := (h.wf.sortedChain hl).eq_find? hx hlt hnext hge
    cases hhit : s.hit p.key link' with
    | some n =>
      have hn : n ∈ chain order s.height 0 ∧ s.nodeKey n = p.key := by
        rw [hfind] at hhit
        exact h.wf.hit_eq_some_iff.mp hhit
      refine ⟨s, .replacing p n, order, ?_, rfl, ⟨h.wf, h.height_pos, ?_⟩, hload⟩
      · rw [writerStep_stop hmove, Writer.found, hhit]
      · exact ⟨(mem_chain.mp hn.1).1, hn.2⟩
    | none =>
      have hnew : ∀ n ∈ chain order s.height 0, s.nodeKey n ≠ p.key := by
        rw [hfind] at hhit
        exact h.wf.hit_eq_none_iff.mp hhit
      rw [chain_zero h.height_pos] at hnew
      refine ⟨s, .measuring p (prev.set 0 (some x)), order, ?_, rfl, ⟨h.wf, h.height_pos, ?_⟩,
        hload⟩
      · rw [writerStep_stop hmove, Writer.found, hhit]
      · refine ⟨hnew, by rw [List.length_set, hlen], fun l hlt' => ?_⟩
        by_cases h0 : l = 0
        · rw [h0, hset]
          exact ⟨x, rfl, hisPrev⟩
        · rw [hother l h0]
          exact hprev l (Nat.pos_of_ne_zero h0) hlt'

theorem steps_replacing {n : ℕ} (h : Underway s order (.replacing p n)) :
    Steps s order (.replacing p n) p := by
  obtain ⟨hn, hkey⟩ := h.writer
  obtain ⟨s', hs'⟩ := exists_storeValue (h.wf.lt_length (List.mem_cons_of_mem head hn)) p.ptr
  obtain ⟨hsame, -, -, hvalue⟩ := storeValue_spec hs'
  refine ⟨s', .unlocking p n, order, ?_, rfl, ⟨?_, ?_, ?_⟩, .of_same hsame ?_ ?_⟩
  · rw [writerStep, hs']
    rfl
  · show Wf s' order s'.height
    rw [hsame.height]
    exact h.wf.storeValue hs'
  · rw [hsame.height]
    exact h.height_pos
  · exact ⟨hn, by rw [hsame.key, hkey], by rw [hvalue, if_pos rfl]⟩
  · intro x _
    show s.height x ≤ s'.height x
    rw [hsame.height]
  · intro x hx hpos
    by_cases hxn : x = n
    · exact Or.inr ⟨by rw [hsame.key, hxn, hkey], by rw [hvalue, if_pos hxn]⟩
    · refine Or.inl ⟨?_, by rw [hvalue, if_neg hxn]⟩
      show 0 < s.height x
      rw [← hsame.height]
      exact hpos

theorem steps_measuring (h : Underway s order (.measuring p prev)) :
    Steps s order (.measuring p prev) p := by
  obtain ⟨hnew, hlen, hprev⟩ := h.writer
  have hfilled := h.wf.prevs_fillPrev hlen hprev p.height
  by_cases hmax : p.height.1 > s.maxHeight
  · rw [if_pos hmax] at hfilled
    refine ⟨s, .raising p (fillPrev prev s.maxHeight p.height.1), order,
      by rw [writerStep, if_pos hmax], rfl, ⟨h.wf, h.height_pos, ?_⟩,
      Effect.refl s order s.height p⟩
    exact ⟨hnew, le_of_lt hmax, hfilled⟩
  · rw [if_neg hmax] at hfilled
    refine ⟨s, .allocating p prev, order, by rw [writerStep, if_neg hmax], rfl,
      ⟨h.wf, h.height_pos, ?_⟩, Effect.refl s order s.height p⟩
    exact ⟨hnew, not_lt.mp hmax, hfilled⟩

theorem steps_raising (h : Underway s order (.raising p prev)) :
    Steps s order (.raising p prev) p := by
  obtain ⟨hnew, hmax, hprev⟩ := h.writer
  refine ⟨_, _, order, rfl, rfl, ⟨h.wf.storeMaxHeight hmax p.height.2.2, h.height_pos, ?_⟩,
    .of_same ⟨rfl, rfl, rfl⟩ (fun _ _ => le_refl _) (fun _ _ hpos => Or.inl ⟨hpos, rfl⟩)⟩
  refine ⟨hnew, le_refl _, fun l hl => ?_⟩
  obtain ⟨q, hq, hisPrev⟩ := hprev l hl
  exact ⟨q, hq, hisPrev.congr rfl rfl hisPrev.mem⟩

theorem steps_allocating (h : Underway s order (.allocating p prev))
    (hkey : p.key.length < 2 ^ 32) :
    Steps s order (.allocating p prev) p := by
  obtain ⟨hnew, hmax, hprev⟩ := h.writer
  obtain ⟨order', hw, hperm⟩ := h.wf.addNode hkey hnew p.ptr p.height.1
  have hmem : ∀ x, x ∈ order' ↔ x = s.nodes.length ∨ x ∈ order := fun x => by
    rw [hperm.mem_iff, List.mem_cons]
  have hlt : ∀ x ∈ head :: order, x < s.nodes.length := fun x hx => h.wf.lt_length hx
  have hlinked : update (s.addNode p.key p.ptr p.height.1).height s.nodes.length 0
      = update s.height s.nodes.length 0 := by
    rw [height_addNode, update_idem]
  refine ⟨s.addNode p.key p.ptr p.height.1, .linking p s.nodes.length 0 prev, order', rfl, rfl,
    ⟨?_, fun x hx => ?_, ?_⟩, ?_⟩
  · show Wf _ order' (update (s.addNode p.key p.ptr p.height.1).height s.nodes.length 0)
    rw [hlinked]
    exact hw
  · rw [height_addNode]
    rcases (hmem x).mp hx with rfl | hx
    · rw [update_self]
      exact p.height.2.1
    · rw [update_of_ne (Nat.ne_of_lt (hlt x (List.mem_cons_of_mem head hx)))]
      exact h.height_pos x hx
  · refine
      { mem := (hmem _).mpr (Or.inl rfl)
        lt := p.height.2.1
        height := by rw [height_addNode, update_self]
        max := hmax
        key := nodeKey_addNode_self hkey
        value := loadValue_addNode_self
        prevs := fun l _ hl => ?_ }
    obtain ⟨q, hq, hisPrev⟩ := hprev l hl
    rw [hlinked]
    exact ⟨q, hq, hisPrev.addNode h.wf (lt_of_lt_of_le hl p.height.2.2)
      (fun x hx => (hmem x).mpr (Or.inr hx))⟩
  · show Effect s order s.height _ order'
      (update (s.addNode p.key p.ptr p.height.1).height s.nodes.length 0) p
    rw [hlinked]
    exact Effect.addNode hlt hperm _

theorem steps_linking {n i : ℕ} (h : Underway s order (.linking p n i prev)) :
    Steps s order (.linking p n i prev) p := by
  have hb : Building s order p n i prev := h.writer
  obtain ⟨q, hq, hisPrev⟩ := hb.prevs i (le_refl i) hb.lt
  obtain ⟨link, hload, -⟩ := hisPrev.next
  refine ⟨s, .storingOwn p n i prev link, order, ?_, rfl, ⟨h.wf, h.height_pos, hb, q, hq, hload⟩,
    Effect.refl s order (update s.height n i) p⟩
  rw [writerStep, hq, Option.join_some, Option.bind_some, hload]
  rfl

theorem steps_storingOwn {n i : ℕ} (h : Underway s order (.storingOwn p n i prev link)) :
    Steps s order (.storingOwn p n i prev link) p := by
  have hwf : Wf s order (update s.height n i) := h.wf
  obtain ⟨hb, q, hq, hload⟩ := h.writer
  obtain ⟨s', hs'⟩ := exists_storeNext (show i < s.height n by rw [hb.height]; exact hb.lt) link
  obtain ⟨hsame, hmax, hvalue, hnext⟩ := storeNext_spec hs'
  -- a predecessor is not the node itself, which is not linked at these levels
  have hne : ∀ l r, i ≤ l → IsPrev s order (update s.height n i) p.key l r → r ≠ n := by
    rintro l r hl hr rfl
    rcases List.mem_cons.mp hr.mem with hh | hc
    · exact hwf.ne_head hb.mem hh
    · have hlt := (mem_chain.mp hc).2
      rw [update_self] at hlt
      omega
  have hkeep : ∀ l r, i ≤ l → IsPrev s order (update s.height n i) p.key l r →
      s'.loadNext l r = s.loadNext l r := fun l r hl hr => by
    rw [hnext, if_neg (fun hc => hne l r hl hr hc.1)]
  refine ⟨s', .storingPrev p n i prev, order, ?_, rfl, ⟨?_, ?_, ?_, q, link, hq, ?_, ?_⟩, ?_⟩
  · rw [writerStep, hs']
    rfl
  · show Wf s' order (update s'.height n i)
    rw [hsame.height]
    exact hwf.storeOwn (hwf.ne_head hb.mem) (le_of_eq (update_self n i s.height)) hs'
  · rw [hsame.height]
    exact h.height_pos
  · exact hb.congr hsame hmax hvalue (le_refl i) hb.lt hkeep
  · obtain ⟨r, hr, hisPrev⟩ := hb.prevs i (le_refl i) hb.lt
    obtain rfl : r = q := by rw [hq] at hr; simpa using hr.symm
    rw [hkeep i r (le_refl i) hisPrev, hload]
  · rw [hnext, if_pos ⟨rfl, rfl⟩]
  · show Effect s order (update s.height n i) s' order (update s'.height n i) p
    rw [hsame.height]
    exact .of_same hsame (fun _ _ => le_refl _) (fun _ _ hpos => Or.inl ⟨hpos, by rw [hvalue]⟩)

theorem steps_storingPrev {n i : ℕ} (h : Underway s order (.storingPrev p n i prev)) :
    Steps s order (.storingPrev p n i prev) p := by
  have hwf : Wf s order (update s.height n i) := h.wf
  obtain ⟨hb, q, link, hq, hload, hown⟩ := h.writer
  obtain ⟨r, hr, hisPrev⟩ := hb.prevs i (le_refl i) hb.lt
  obtain rfl : r = q := by rw [hq] at hr; simpa using hr.symm
  obtain ⟨link', hload', hlink⟩ := hisPrev.next
  obtain rfl : link' = link := Option.some.inj (hload'.symm.trans hload)
  obtain ⟨s', hs'⟩ := exists_storeNext (lt_height_of_loadNext hload) (some n)
  obtain ⟨hsame, hmax, hvalue, hnext⟩ := storeNext_spec hs'
  have hrank : s.rank n = (p.key : WithBot Key) := by rw [hwf.rank_eq hb.mem, hb.key]
  have hw : Wf s' order (update (update s.height n i) n (i + 1)) :=
    hwf.linkNode hb.mem (update_self n i s.height) (lt_of_lt_of_le hb.lt hb.max)
      hisPrev.mem (by rw [hrank]; exact hisPrev.lt) hload (by rw [hrank]; exact hlink) hown hs'
  rw [update_idem, ← hsame.height] at hw
  have heffect : Effect s order (update s.height n i) s' order
      (update s'.height n (i + 1)) p := by
    rw [hsame.height]
    refine .of_same hsame (fun x _ => update_le_update s.height (Nat.le_succ i) x)
      (fun x _ hpos => ?_)
    by_cases hx : x = n
    · exact Or.inr ⟨by rw [hsame.key, hx, hb.key], by rw [hvalue, hx, hb.value]⟩
    · rw [update_of_ne hx] at hpos
      exact Or.inl ⟨by rw [update_of_ne hx]; exact hpos, by rw [hvalue]⟩
  have hheight : ∀ x ∈ order, 1 ≤ s'.height x := by
    rw [hsame.height]
    exact h.height_pos
  have hstep : writerStep s (.storingPrev p n i prev) = some (s',
      if i + 1 < p.height.1 then .linking p n (i + 1) prev else .unlocking p n) := by
    rw [writerStep, hq, Option.join_some, Option.bind_some, hs']
    rfl
  by_cases hlt : i + 1 < p.height.1
  · rw [if_pos hlt] at hstep
    refine ⟨s', _, order, hstep, rfl, ⟨hw, hheight, ?_⟩, heffect⟩
    refine hb.congr hsame hmax hvalue (Nat.le_succ i) hlt (fun l t hl _ => ?_)
    rw [hnext, if_neg (fun hc => by omega)]
  · rw [if_neg hlt] at hstep
    -- the node is now linked at all levels of its tower
    have hall : update s'.height n (i + 1) = s'.height := by
      have hi : i + 1 = s'.height n := by
        rw [hsame.height, hb.height]
        have := hb.lt
        omega
      rw [hi, update_eq_self]
    rw [hall] at hw heffect
    exact ⟨s', _, order, hstep, rfl, ⟨hw, hheight, hb.mem, by rw [hsame.key, hb.key],
      by rw [hvalue, hb.value]⟩, heffect⟩

/-- **Every step of a put**, up to the one that clears the lock. -/
theorem steps (h : Underway s order w) (hp : w.put? = some p) (hkey : p.key.length < 2 ^ 32)
    (hunlock : ∀ n, w ≠ .unlocking p n) : Steps s order w p := by
  cases w with
  | idle => cases hp
  | locked q => cases hp; exact steps_locked h
  | searching q x level prev => cases hp; exact steps_searching h
  | replacing q n => cases hp; exact steps_replacing h
  | measuring q prev => cases hp; exact steps_measuring h
  | raising q prev => cases hp; exact steps_raising h
  | allocating q prev => cases hp; exact steps_allocating h hkey
  | linking q n i prev => cases hp; exact steps_linking h
  | storingOwn q n i prev link => cases hp; exact steps_storingOwn h
  | storingPrev q n i prev => cases hp; exact steps_storingPrev h
  | unlocking q n => cases hp; exact absurd rfl (hunlock n)

/-! ## What a read relies on -/

/-- **What a lookup may answer**: with the pointer of a put of the key not older than any
that had finished before, and with nothing only if none had. -/
def Answers (log before : List SkipPut) (k : Key) : Option VLogPointer → Prop
  | some ptr => ∃ (i : ℕ) (p : SkipPut), log[i]? = some p ∧ p.key = k ∧ p.ptr = ptr
      ∧ ∀ (j : ℕ) (q : SkipPut), before[j]? = some q → q.key = k → j ≤ i
  | none => ∀ q ∈ before, q.key ≠ k

/-- What holds of a read between steps. -/
def ReadPhase.Inv (s : SkipList) (order : List ℕ) (linked : ℕ → ℕ) (log before : List SkipPut)
    (c : ReadCall) : ReadPhase → Prop
  | .idle | .started => True
  | .searching x level =>
    level < kMaxHeight ∧ x ∈ head :: chain order linked level ∧ s.rank x < (c.key : WithBot Key)
  | .loading n => c.isGet = true ∧ n ∈ chain order linked 0 ∧ s.nodeKey n = c.key
  | .returned result => c.isGet = true ∧ Answers log before c.key result
  | .iterating yielded none =>
    c.isGet = false ∧ yielded.Pairwise (· < ·)
      ∧ ∀ q ∈ before, c.key ≤ q.key → q.key ∈ yielded
  | .iterating yielded (some x) =>
    c.isGet = false ∧ x ∈ chain order linked 0 ∧ yielded.Pairwise (· < ·)
      ∧ (∀ k ∈ yielded, k ≤ s.nodeKey x)
      ∧ ∀ q ∈ before, c.key ≤ q.key → q.key ≤ s.nodeKey x → q.key ∈ yielded

/-- How many more steps a read can take, if nothing is linked meanwhile. -/
def ReadPhase.remaining (s : SkipList) (order : List ℕ) : ReadPhase → ℕ
  | .idle | .returned _ | .iterating _ none => 0
  | .started => order.length + kMaxHeight + 2
  | .searching x level => ahead s.rank order x + level + 2
  | .loading _ => 1
  | .iterating _ (some x) => ahead s.rank order x + 1

theorem ReadPhase.remaining_pos {r : ReadPhase} (hr : r.finished = false) :
    0 < r.remaining s order := by
  cases r with
  | idle => cases hr
  | started | searching x level => exact Nat.succ_pos _
  | loading n => exact Nat.one_pos
  | returned result => cases hr
  | iterating yielded node =>
    cases node with
    | none => cases hr
    | some x => exact Nat.succ_pos _

variable {linked linked' : ℕ → ℕ} {log log' before : List SkipPut} {c : ReadCall} {r : ReadPhase}

/-- What is at a place of a list is there in every longer one. -/
theorem getElem?_of_longer {α : Type} {l l' : List α} (h : l <+: l') {j : ℕ} {a : α}
    (ha : l[j]? = some a) : l'[j]? = some a := by
  obtain ⟨t, rfl⟩ := h
  rw [List.getElem?_append_left (List.getElem?_eq_some_iff.mp ha).1, ha]

theorem Effect.rank_eq (he : Effect s order linked s' order' linked' p) (hw : Wf s order linked)
    (hw' : Wf s' order' linked') {x : ℕ} (hx : x ∈ head :: order) : s'.rank x = s.rank x := by
  rcases List.mem_cons.mp hx with rfl | hx
  · rfl
  · rw [hw.rank_eq hx, hw'.rank_eq (he.grows x hx).1, he.key x hx]

/-- **A read keeps what it relies on while puts go on.** -/
theorem ReadPhase.Inv.mono (h : r.Inv s order linked log before c) (hw : Wf s order linked)
    (hw' : Wf s' order' linked') (he : Effect s order linked s' order' linked' p)
    (hlog : log <+: log') : r.Inv s' order' linked' log' before c := by
  have hchain : ∀ {x l : ℕ}, x ∈ chain order linked l → x ∈ chain order' linked' l := by
    intro x l hx
    obtain ⟨hxo, hlt⟩ := mem_chain.mp hx
    exact mem_chain.mpr ⟨(he.grows x hxo).1, lt_of_lt_of_le hlt (he.grows x hxo).2⟩
  have hkey : ∀ {x l : ℕ}, x ∈ chain order linked l → s'.nodeKey x = s.nodeKey x :=
    fun hx => he.key _ (mem_chain.mp hx).1
  cases r with
  | idle | started => trivial
  | searching x level =>
    obtain ⟨hl, hx, hlt⟩ := h
    refine ⟨hl, chain_mono he.grows hx, ?_⟩
    rw [he.rank_eq hw hw' (List.mem_cons.mpr ((List.mem_cons.mp hx).imp_right
      (fun h => (mem_chain.mp h).1)))]
    exact hlt
  | loading n =>
    obtain ⟨hc, hn, hnk⟩ := h
    exact ⟨hc, hchain hn, (hkey hn).trans hnk⟩
  | returned result =>
    cases result with
    | none => exact h
    | some ptr =>
      obtain ⟨hc, i, q, hq, hrest⟩ := h
      exact ⟨hc, i, q, getElem?_of_longer hlog hq, hrest⟩
  | iterating yielded node =>
    cases node with
    | none => exact h
    | some x =>
      obtain ⟨hc, hx, hsorted, hle, hall⟩ := h
      refine ⟨hc, hchain hx, hsorted, ?_, ?_⟩
      · rw [hkey hx]
        exact hle
      · rw [hkey hx]
        exact hall

/-- The steps a read can still take grow by no more than the nodes. -/
theorem ReadPhase.Inv.remaining_le (h : r.Inv s order linked log before c)
    (he : Effect s order linked s' order' linked' p) :
    r.remaining s' order' + order.length ≤ r.remaining s order + order'.length := by
  have hlen := he.length_le
  cases r with
  | idle => simpa [ReadPhase.remaining] using hlen
  | started =>
    simp only [ReadPhase.remaining]
    omega
  | searching x level =>
    have hx := he.ahead_le x (List.mem_cons.mpr ((List.mem_cons.mp h.2.1).imp_right
      (fun h => (mem_chain.mp h).1)))
    simp only [ReadPhase.remaining]
    omega
  | loading n =>
    simp only [ReadPhase.remaining]
    omega
  | returned result => simpa [ReadPhase.remaining] using hlen
  | iterating yielded node =>
    cases node with
    | none => simpa [ReadPhase.remaining] using hlen
    | some x =>
      have hx := he.ahead_le x (List.mem_cons_of_mem head (mem_chain.mp h.2.1).1)
      simp only [ReadPhase.remaining]
      omega

/-- **What a read is judged by**: the list as it is, with the puts that have finished and
the one under way. -/
structure Judged (s : SkipList) (order : List ℕ) (linked : ℕ → ℕ) (log done : List SkipPut) :
    Prop where
  /-- The key of a put that has finished is there. -/
  stored : ∀ q ∈ done, ∃ x ∈ chain order linked 0, s.nodeKey x = q.key
  /-- The value of a node is that of a put of its key, and of none older than one that has
  finished. -/
  fresh : ∀ x ∈ chain order linked 0, ∃ (i : ℕ) (p : SkipPut), log[i]? = some p
    ∧ p.key = s.nodeKey x ∧ s.loadValue x = some p.ptr
    ∧ ∀ (j : ℕ) (q : SkipPut), done[j]? = some q → q.key = s.nodeKey x → j ≤ i

/-- How a read is over. -/
theorem ReadPhase.finished_cases (hr : r.finished = true) :
    r = .idle ∨ (∃ result, r = .returned result) ∨ ∃ yielded, r = .iterating yielded none := by
  cases r with
  | idle => exact Or.inl rfl
  | started | searching x level | loading n => cases hr
  | returned result => exact Or.inr (Or.inl ⟨result, rfl⟩)
  | iterating yielded node =>
    cases node with
    | none => exact Or.inr (Or.inr ⟨yielded, rfl⟩)
    | some x => cases hr

/-- A read that is over takes no step. -/
theorem readerStep_of_finished (hr : r.finished = true) : readerStep s c r = none := by
  obtain rfl | ⟨result, rfl⟩ | ⟨yielded, rfl⟩ := ReadPhase.finished_cases hr
  · rfl
  · rfl
  · rfl

theorem ReadPhase.arrive_ne_idle (yielded : List Key) (link : Option ℕ) :
    ReadPhase.arrive s yielded link ≠ .idle := by
  cases link with
  | none => nofun
  | some n => nofun

theorem ReadPhase.found_ne_idle (link : Option ℕ) : ReadPhase.found s link c ≠ .idle := by
  cases c with
  | get k =>
    cases hhit : s.hit k link with
    | none | some n =>
      simp only [ReadPhase.found, hhit]
      nofun
  | seek t | first => exact arrive_ne_idle [] link

/-- A read under way does not go back to where none was made. -/
theorem readerStep_ne_idle {r' : ReadPhase} (h : readerStep s c r = some r') : r' ≠ .idle := by
  cases r with
  | idle => cases h
  | started =>
    cases c with
    | get k | seek t =>
      cases h
      nofun
    | first =>
      obtain ⟨link, -, rfl⟩ := Option.map_eq_some_iff.mp h
      exact ReadPhase.arrive_ne_idle [] link
  | searching x level =>
    obtain ⟨move, -, rfl⟩ := Option.map_eq_some_iff.mp h
    cases move with
    | right n => nofun
    | down => nofun
    | stop link => exact ReadPhase.found_ne_idle link
  | loading n =>
    obtain ⟨ptr, -, rfl⟩ := Option.map_eq_some_iff.mp h
    nofun
  | returned result => cases h
  | iterating yielded node =>
    cases node with
    | none => cases h
    | some x =>
      obtain ⟨link, -, rfl⟩ := Option.map_eq_some_iff.mp h
      exact ReadPhase.arrive_ne_idle yielded link

/-- What a lookup that is over has answered. -/
theorem ReadPhase.Inv.returned (h : r.Inv s order linked log before c) (hr : r.finished = true)
    (hidle : r ≠ .idle) (hc : c.isGet = true) :
    ∃ result, r = .returned result ∧ Answers log before c.key result := by
  obtain rfl | ⟨result, rfl⟩ | ⟨yielded, rfl⟩ := ReadPhase.finished_cases hr
  · exact absurd rfl hidle
  · exact ⟨result, rfl, h.2⟩
  · exact absurd (hc.symm.trans h.1) nofun

/-- What an iteration that is over has given. -/
theorem ReadPhase.Inv.iterated (h : r.Inv s order linked log before c) (hr : r.finished = true)
    (hidle : r ≠ .idle) (hc : c.isGet = false) :
    ∃ yielded, r = .iterating yielded none
      ∧ ∀ q ∈ before, c.key ≤ q.key → q.key ∈ yielded := by
  obtain rfl | ⟨result, rfl⟩ | ⟨yielded, rfl⟩ := ReadPhase.finished_cases hr
  · exact absurd rfl hidle
  · exact absurd (hc.symm.trans h.1) nofun
  · exact ⟨yielded, rfl, h.2.2⟩

theorem ReadPhase.Inv.ascending {yielded : List Key} {node : Option ℕ}
    (h : (ReadPhase.iterating yielded node).Inv s order linked log before c) :
    yielded.Pairwise (· < ·) := by
  cases node with
  | none => exact h.2.1
  | some x => exact h.2.2.1

section Read

variable {done : List SkipPut}

/-- **An iterator comes to the next node**: what it has given stays in order, and nothing
that was there before it began is passed over. -/
theorem arrive_spec (hw : Wf s order linked) (hj : Judged s order linked log done)
    (hbefore : before <+: done) (hc : c.isGet = false) {x : ℕ} {yielded : List Key}
    (hx : x ∈ head :: chain order linked 0) (hnext : s.loadNext 0 x = some link)
    (hsorted : yielded.Pairwise (· < ·)) (hle : ∀ k ∈ yielded, (k : WithBot Key) ≤ s.rank x)
    (hall : ∀ q ∈ before, c.key ≤ q.key → (q.key : WithBot Key) ≤ s.rank x → q.key ∈ yielded) :
    (ReadPhase.arrive s yielded link).Inv s order linked log before c
      ∧ (ReadPhase.arrive s yielded link).remaining s order ≤ ahead s.rank order x := by
  have hchain := hw.sortedChain (show 0 < kMaxHeight by decide)
  have hrank : ∀ {z : ℕ}, z ∈ chain order linked 0 → s.rank z = (s.nodeKey z : WithBot Key) :=
    fun hz => hw.rank_eq (mem_chain.mp hz).1
  -- where the key of a put that had finished is, seen from the link
  have hplace : ∀ q ∈ before, c.key ≤ q.key →
      q.key ∈ yielded ∨ ∃ y, link = some y ∧ s.rank y ≤ (q.key : WithBot Key) := by
    intro q hq hck
    obtain ⟨z, hz, hzk⟩ := hj.stored q (hbefore.subset hq)
    have hzr : s.rank z = (q.key : WithBot Key) := by rw [hrank hz, hzk]
    rcases hchain.le_or_le_of_next hx hnext hz with hle' | ⟨y, hy, hyz⟩
    · exact Or.inl (hall q hq hck (hzr ▸ hle'))
    · exact Or.inr ⟨y, hy, hzr ▸ hyz⟩
  cases link with
  | none =>
    refine ⟨⟨hc, hsorted, fun q hq hck => ?_⟩, Nat.zero_le _⟩
    rcases hplace q hq hck with hin | ⟨y, hy, -⟩
    · exact hin
    · cases hy
  | some y =>
    obtain ⟨hy, hxy⟩ := hchain.mem_of_next hx hnext
    have hlt : ∀ k ∈ yielded, k < s.nodeKey y := by
      intro k hk
      have := lt_of_le_of_lt (hle k hk) hxy
      rwa [hrank hy, WithBot.coe_lt_coe] at this
    refine ⟨⟨hc, hy, ?_, fun k hk => ?_, fun q hq hck hqy => ?_⟩,
      ahead_lt (mem_chain.mp hy).1 hxy⟩
    · refine List.pairwise_append.mpr ⟨hsorted, List.pairwise_singleton _ _, fun k hk k' hk' => ?_⟩
      rw [List.mem_singleton.mp hk']
      exact hlt k hk
    · rcases List.mem_append.mp hk with hk | hk
      · exact le_of_lt (hlt k hk)
      · exact le_of_eq (List.mem_singleton.mp hk)
    · rcases hplace q hq hck with hin | ⟨z, hz, hzq⟩
      · exact List.mem_append_left _ hin
      · cases hz
        rw [hrank hy, WithBot.coe_le_coe] at hzq
        exact List.mem_append_right _ (List.mem_singleton.mpr (le_antisymm hqy hzq))

/-- **A lookup has found its node, or that there is none.** -/
theorem hit_spec (hw : Wf s order linked) (hj : Judged s order linked log done)
    (hbefore : before <+: done) {k : Key} {x : ℕ} (hx : x ∈ head :: chain order linked 0)
    (hlt : s.rank x < (k : WithBot Key)) (hnext : s.loadNext 0 x = some link)
    (hge : ∀ y ∈ link, (k : WithBot Key) ≤ s.rank y) :
    (∀ n, s.hit k link = some n → n ∈ chain order linked 0 ∧ s.nodeKey n = k)
      ∧ (s.hit k link = none → Answers log before k none) := by
  rw [(hw.sortedChain (show 0 < kMaxHeight by decide)).eq_find? hx hlt hnext hge]
  refine ⟨fun n hn => hw.hit_eq_some_iff.mp hn, fun hnone q hq hqk => ?_⟩
  obtain ⟨z, hz, hzk⟩ := hj.stored q (hbefore.subset hq)
  exact hw.hit_eq_none_iff.mp hnone z hz (hzk.trans hqk)

/-- **Every step of a read can be taken, and brings it nearer to its end.** -/
theorem readerStep_spec (hw : Wf s order linked) (hj : Judged s order linked log done)
    (hbefore : before <+: done) (h : r.Inv s order linked log before c)
    (hr : r.finished = false) :
    ∃ r', readerStep s c r = some r' ∧ r'.Inv s order linked log before c
      ∧ r'.remaining s order < r.remaining s order := by
  have hchain := hw.sortedChain (show 0 < kMaxHeight by decide)
  have hahead := ahead_le_length s.rank order head
  have hmax := hw.max_le
  have hone := hw.one_le_max
  -- an iteration that has just found its first node
  have hfirst : ∀ {x : ℕ} {link : Option ℕ}, c.isGet = false →
      x ∈ head :: chain order linked 0 → s.rank x < (c.key : WithBot Key) ∨ x = head →
      s.loadNext 0 x = some link → (ReadPhase.arrive s [] link).Inv s order linked log before c
        ∧ (ReadPhase.arrive s [] link).remaining s order ≤ ahead s.rank order x := by
    intro x link hc hx hlt hnext
    refine arrive_spec hw hj hbefore hc hx hnext List.Pairwise.nil (by simp) (fun q _ hck hqx => ?_)
    rcases hlt with hlt | rfl
    · exact absurd (lt_of_le_of_lt hqx hlt) (not_lt.mpr (WithBot.coe_le_coe.mpr hck))
    · exact absurd hqx (not_le.mpr (WithBot.bot_lt_coe q.key))
  cases r with
  | idle => cases hr
  | started =>
    have hsearch : (ReadPhase.searching head (s.maxHeight - 1)).Inv s order linked log before c
        ∧ (ReadPhase.searching head (s.maxHeight - 1)).remaining s order
          < ReadPhase.started.remaining s order := by
      refine ⟨⟨by omega, List.mem_cons_self, WithBot.bot_lt_coe c.key⟩, ?_⟩
      simp only [ReadPhase.remaining]
      omega
    cases c with
    | get k | seek t => exact ⟨_, rfl, hsearch⟩
    | first =>
      have hnext := hchain.linked.next_start
      obtain ⟨hinv, hrem⟩ := hfirst rfl List.mem_cons_self (Or.inr rfl) hnext
      refine ⟨_, ?_, hinv, ?_⟩
      · rw [readerStep, seekToFirst, hnext]
        rfl
      · show _ < order.length + kMaxHeight + 2
        omega
  | searching x level =>
    obtain ⟨hl, hx, hlt⟩ := h
    rcases hw.move_spec hl hx hlt with ⟨n, hmove, hn, hxn, hnk⟩ | ⟨hmove, hpos, -⟩
      | ⟨link, hmove, rfl, hnext, hisPrev⟩
    · have hlt' := ahead_lt (mem_chain.mp hn).1 hxn
      refine ⟨.searching n level, ?_, ⟨hl, List.mem_cons_of_mem head hn, hnk⟩, ?_⟩
      · rw [readerStep, hmove]
        rfl
      · simp only [ReadPhase.remaining]
        omega
    · refine ⟨.searching x (level - 1), ?_, ⟨by omega, mem_lower (Nat.sub_le level 1) hx, hlt⟩, ?_⟩
      · rw [readerStep, hmove]
        rfl
      · simp only [ReadPhase.remaining]
        omega
    · obtain ⟨link', hnext', hge⟩ := hisPrev.next
      obtain rfl : link' = link := Option.some.inj (hnext'.symm.trans hnext)
      have hstep : readerStep s c (.searching x 0) = some (ReadPhase.found s link' c) := by
        rw [readerStep, hmove]
        rfl
      cases c with
      | get k =>
        obtain ⟨hsome, hnone⟩ := hit_spec hw hj hbefore hx hlt hnext hge
        cases hhit : s.hit k link' with
        | some n =>
          simp only [ReadPhase.found, hhit] at hstep
          refine ⟨.loading n, hstep, ⟨rfl, hsome n hhit⟩, ?_⟩
          simp only [ReadPhase.remaining]
          omega
        | none =>
          simp only [ReadPhase.found, hhit] at hstep
          exact ⟨.returned none, hstep, ⟨rfl, hnone hhit⟩, Nat.succ_pos _⟩
      | seek t | first =>
        obtain ⟨hinv, hrem⟩ := hfirst rfl hx (Or.inl hlt) hnext
        exact ⟨_, hstep, hinv, Nat.lt_succ_of_le (Nat.le_succ_of_le hrem)⟩
  | loading n =>
    obtain ⟨hc, hn, hkey⟩ := h
    obtain ⟨i, p, hp, hpk, hvalue, hnewest⟩ := hj.fresh n hn
    refine ⟨.returned (some p.ptr), ?_, ⟨hc, i, p, hp, hpk.trans hkey, rfl, ?_⟩, Nat.one_pos⟩
    · rw [readerStep, hvalue]
      rfl
    · intro j q hq hqk
      exact hnewest j q (getElem?_of_longer hbefore hq) (hqk.trans hkey.symm)
  | returned result => cases hr
  | iterating yielded node =>
    cases node with
    | none => cases hr
    | some x =>
      obtain ⟨hc, hx, hsorted, hle, hall⟩ := h
      have hxr : s.rank x = (s.nodeKey x : WithBot Key) := hw.rank_eq (mem_chain.mp hx).1
      obtain ⟨-, post, -, -, hnext, -, -⟩ := hchain.exists_split (List.mem_cons_of_mem head hx)
      obtain ⟨hinv, hrem⟩ := arrive_spec hw hj hbefore hc (List.mem_cons_of_mem head hx) hnext
        hsorted
        (fun k hk => by rw [hxr]; exact WithBot.coe_le_coe.mpr (hle k hk))
        (fun q hq hck hqx => hall q hq hck (by rwa [hxr, WithBot.coe_le_coe] at hqx))
      refine ⟨_, ?_, hinv, Nat.lt_succ_of_le hrem⟩
      rw [readerStep, hnext]
      rfl

end Read

/-! ## Every interleaving -/

/-- **The puts stay accounted for while one of them takes a step.** -/
theorem Judged.mono {done : List SkipPut} (hj : Judged s order linked (done ++ [p]) done)
    (he : Effect s order linked s' order' linked' p) :
    Judged s' order' linked' (done ++ [p]) done where
  stored q hq := by
    obtain ⟨x, hx, hxk⟩ := hj.stored q hq
    obtain ⟨hxo, hlt⟩ := mem_chain.mp hx
    obtain ⟨hxo', hle⟩ := he.grows x hxo
    exact ⟨x, mem_chain.mpr ⟨hxo', lt_of_lt_of_le hlt hle⟩, (he.key x hxo).trans hxk⟩
  fresh x hx := by
    obtain ⟨hxo, hpos⟩ := mem_chain.mp hx
    rcases he.visible x hxo hpos with ⟨hold, hlt, hvalue⟩ | ⟨hkey, hvalue⟩
    · rw [he.key x hold, hvalue]
      exact hj.fresh x (mem_chain.mpr ⟨hold, hlt⟩)
    · refine ⟨done.length, p, List.getElem?_concat_length, hkey.symm, hvalue, ?_⟩
      intro j q hq _
      exact le_of_lt (List.getElem?_eq_some_iff.mp hq).1

/-- **A put has finished**: its key is there with its value. -/
theorem Judged.finish {done : List SkipPut} (hw : Wf s order linked)
    (hj : Judged s order linked (done ++ [p]) done) {n : ℕ} (hn : n ∈ chain order linked 0)
    (hkey : s.nodeKey n = p.key) (hvalue : s.loadValue n = some p.ptr) :
    Judged s order linked (done ++ [p]) (done ++ [p]) where
  stored q hq := by
    rcases List.mem_append.mp hq with hq | hq
    · exact hj.stored q hq
    · exact ⟨n, hn, by rw [hkey, List.mem_singleton.mp hq]⟩
  fresh x hx := by
    by_cases hxk : s.nodeKey x = p.key
    · -- the node of the key is the one the put has stored
      have hxn : x = n := hw.eq_of_rank_eq (mem_chain.mp hx).1 (mem_chain.mp hn).1 (by
        rw [hw.rank_eq (mem_chain.mp hx).1, hw.rank_eq (mem_chain.mp hn).1, hxk, hkey])
      refine ⟨done.length, p, List.getElem?_concat_length, hxk.symm, hxn ▸ hvalue, ?_⟩
      intro j q hq _
      have hlt := (List.getElem?_eq_some_iff.mp hq).1
      rw [List.length_append, List.length_singleton] at hlt
      omega
    · obtain ⟨i, q, hq, hqk, hqv, hnewest⟩ := hj.fresh x hx
      refine ⟨i, q, hq, hqk, hqv, fun j t ht htk => ?_⟩
      by_cases hlt : j < done.length
      · rw [List.getElem?_append_left hlt] at ht
        exact hnewest j t ht htk
      · rw [List.getElem?_append_right (not_lt.mp hlt)] at ht
        have hmem : t ∈ [p] := List.mem_of_getElem? ht
        rw [List.mem_singleton.mp hmem] at htk
        exact absurd htk.symm hxk

end SkipList

namespace SkipMachine

/-- **What holds in every state**, with the order of the nodes. -/
structure Inv (m : SkipMachine) (order : List ℕ) : Prop where
  underway : Underway m.list order m.writer
  short : ∀ p ∈ m.writer.put?, p.key.length < 2 ^ 32
  judged : Judged m.list order (m.writer.linked m.list) m.log m.done
  before : m.before <+: m.done
  reader : m.reader.Inv m.list order (m.writer.linked m.list) m.log m.before m.call
  ticks : m.ticks + m.reader.remaining m.list order ≤ order.length + kMaxHeight + 2

variable {m m' : SkipMachine} {order : List ℕ}

theorem inv_init : Inv {} [] where
  underway := ⟨wf_init _, nofun, trivial⟩
  short p hp := by cases hp
  judged := ⟨nofun, nofun⟩
  before := List.prefix_refl _
  reader := trivial
  ticks := by decide

theorem Inv.lock (h : Inv m order) {p : SkipPut} (hkey : p.key.length < 2 ^ 32)
    (hs : m.step (.lock p) = some m') : Inv m' order := by
  obtain ⟨hidle, rfl⟩ := step_lock hs
  have hlog : m.log = m.done := by
    unfold log
    rw [hidle]
    exact List.append_nil _
  have hw := h.underway.wf
  have hj := h.judged
  have hr := h.reader
  rw [hidle] at hw hj hr
  rw [hlog] at hj hr
  refine
    { underway := ⟨hw, h.underway.height_pos, trivial⟩
      short := fun q hq => ?_
      judged := ⟨hj.stored, fun x hx => ?_⟩
      before := h.before
      reader := hr.mono hw hw (Effect.refl m.list order m.list.height p) (List.prefix_append _ _)
      ticks := h.ticks }
  · cases hq
    exact hkey
  · obtain ⟨i, q, hq, hrest⟩ := hj.fresh x hx
    exact ⟨i, q, getElem?_of_longer (List.prefix_append _ _) hq, hrest⟩

/-- **The put that has the lock takes a step.** -/
theorem Inv.write (h : Inv m order) (hs : m.step .write = some m') : ∃ order', Inv m' order' := by
  obtain ⟨⟨list, writer⟩, hstep, rfl⟩ := Option.map_eq_some_iff.mp hs
  obtain ⟨p, hp⟩ := put?_of_writerStep hstep
  have hlog : m.log = m.done ++ [p] := by
    unfold log
    rw [hp]
    rfl
  have hw := h.underway.wf
  have hj := h.judged
  have hr := h.reader
  rw [hlog] at hj hr
  by_cases hunlock : ∃ n, m.writer = .unlocking p n
  · -- the lock is cleared, and the put has finished
    obtain ⟨n, hn⟩ := hunlock
    have hinv := h.underway.writer
    rw [hn] at hw hj hr hinv hstep
    obtain ⟨hmem, hnkey, hvalue⟩ := hinv
    cases hstep
    have hvisible : n ∈ chain order m.list.height 0 :=
      mem_chain.mpr ⟨hmem, h.underway.height_pos n hmem⟩
    refine ⟨order,
      { underway := ⟨hw, h.underway.height_pos, trivial⟩
        short := nofun
        judged := ?_
        before := ?_
        reader := ?_
        ticks := h.ticks }⟩
    · show Judged m.list order m.list.height (m.log ++ []) m.log
      rw [List.append_nil, hlog]
      exact hj.finish hw hvisible hnkey hvalue
    · show m.before <+: m.log
      rw [hlog]
      exact h.before.trans (List.prefix_append _ _)
    · show m.reader.Inv m.list order m.list.height (m.log ++ []) m.before m.call
      rw [List.append_nil, hlog]
      exact hr
  · obtain ⟨s', w', order', hstep', hp', hu, he⟩ :=
      steps h.underway hp (h.short p hp) (fun n hn => hunlock ⟨n, hn⟩)
    cases hstep.symm.trans hstep'
    have hdone : (if writer.put?.isNone then m.log else m.done) = m.done := by
      rw [hp']
      rfl
    have hrem := h.reader.remaining_le he
    have hticks := h.ticks
    dsimp only
    rw [hdone]
    have hlog' : ({ m with list := list, writer := writer, done := m.done } : SkipMachine).log
        = m.done ++ [p] := by
      unfold log
      rw [hp']
      rfl
    refine ⟨order',
      { underway := hu
        short := fun q hq => ?_
        judged := ?_
        before := h.before
        reader := ?_
        ticks := ?_ }⟩
    · exact h.short q (by rw [hp]; exact hp' ▸ hq)
    · rw [hlog']
      exact hj.mono he
    · rw [hlog']
      exact hr.mono hw hu.wf he (List.prefix_refl _)
    · show m.ticks + m.reader.remaining list order' ≤ order'.length + kMaxHeight + 2
      omega

/-- **Every step keeps the invariant.** -/
theorem Inv.step {a : SkipAction} (h : Inv m order)
    (hkey : ∀ p, a = .lock p → p.key.length < 2 ^ 32) (hs : m.step a = some m') :
    ∃ order', Inv m' order' := by
  cases a with
  | lock p => exact ⟨order, h.lock (hkey p rfl) hs⟩
  | write => exact h.write hs
  | start c =>
    cases hs
    exact ⟨order, h.underway, h.short, h.judged, List.prefix_refl _, trivial, by
      show 0 + (order.length + kMaxHeight + 2) ≤ order.length + kMaxHeight + 2
      omega⟩
  | read =>
    obtain ⟨r, hr, rfl⟩ := Option.map_eq_some_iff.mp hs
    have hfin : m.reader.finished = false := by
      refine Bool.eq_false_iff.mpr (fun hfin => ?_)
      rw [readerStep_of_finished hfin] at hr
      cases hr
    obtain ⟨r', hr', hinv, hlt⟩ :=
      readerStep_spec h.underway.wf h.judged h.before h.reader hfin
    obtain rfl : r = r' := Option.some.inj (hr.symm.trans hr')
    have hticks := h.ticks
    exact ⟨order, h.underway, h.short, h.judged, h.before, hinv, by
      show m.ticks + 1 + r.remaining m.list order ≤ order.length + kMaxHeight + 2
      omega⟩

/-- **Every run keeps the invariant**, as long as the keys put fit the field of a node. -/
theorem Inv.run {as : List SkipAction} (h : Inv m order)
    (hkeys : ∀ p, .lock p ∈ as → p.key.length < 2 ^ 32)
    (hrun : runSteps SkipMachine.step m as = some m') : ∃ order', Inv m' order' := by
  let fits : SkipAction → Prop := fun a => ∀ p, a = .lock p → p.key.length < 2 ^ 32
  have hstep : ∀ t a t', (∃ order, Inv t order) → fits a → SkipMachine.step t a = some t' →
      ∃ order, Inv t' order := by
    rintro t a t' ⟨order, ht⟩ ha hs
    exact ht.step ha hs
  have hfits : ∀ a ∈ as, fits a := by
    rintro a ha p rfl
    exact hkeys p ha
  exact invariant_of_runOk hstep ⟨order, h⟩ (runOk_of_forall hfits m) hrun

end SkipMachine

/-- Whether an action is a step of the read. -/
def SkipAction.isRead : SkipAction → Bool
  | .read => true
  | .lock _ | .write | .start _ => false

namespace SkipMachine

variable {m m' : SkipMachine}

/-- What a step leaves of a read under way. -/
theorem step_frame {a : SkipAction} (ha : ∀ c, a ≠ .start c) (hs : m.step a = some m')
    (hidle : m.reader ≠ .idle) :
    m'.call = m.call ∧ m'.before = m.before ∧ m'.reader ≠ .idle
      ∧ m'.ticks = m.ticks + if a.isRead then 1 else 0 := by
  cases a with
  | lock p =>
    obtain ⟨-, rfl⟩ := step_lock hs
    exact ⟨rfl, rfl, hidle, rfl⟩
  | write =>
    obtain ⟨⟨list, writer⟩, -, rfl⟩ := Option.map_eq_some_iff.mp hs
    exact ⟨rfl, rfl, hidle, rfl⟩
  | start c => exact absurd rfl (ha c)
  | read =>
    obtain ⟨r, hr, rfl⟩ := Option.map_eq_some_iff.mp hs
    exact ⟨rfl, rfl, readerStep_ne_idle hr, rfl⟩

theorem run_frame {as : List SkipAction} (ha : ∀ c, .start c ∉ as)
    (hrun : runSteps SkipMachine.step m as = some m') (hidle : m.reader ≠ .idle) :
    m'.call = m.call ∧ m'.before = m.before ∧ m'.reader ≠ .idle
      ∧ m'.ticks = m.ticks + as.countP SkipAction.isRead := by
  induction as generalizing m with
  | nil =>
    cases hrun
    exact ⟨rfl, rfl, hidle, rfl⟩
  | cons a as ih =>
    obtain ⟨t, ht, hrest⟩ := runSteps_cons.mp hrun
    obtain ⟨hcall, hbefore, hidle', hticks⟩ :=
      step_frame (fun c hc => ha c (hc ▸ List.mem_cons_self)) ht hidle
    obtain ⟨hcall', hbefore', hidle'', hticks'⟩ :=
      ih (fun c hc => ha c (List.mem_cons_of_mem a hc)) hrest hidle'
    refine ⟨hcall'.trans hcall, hbefore'.trans hbefore, hidle'', ?_⟩
    rw [hticks', hticks, List.countP_cons]
    omega

/-- **Reads are safe during puts.** Begin a read after any run, and let it and any number
of puts of keys shorter than `2 ^ 32` bytes interleave step by step. The read is never
stuck, and it is over after at most as many of its own steps as there are nodes and
levels, and two. A lookup returns the pointer of a put of its key, and of none older than
one that had finished when it began, if one had; it returns nothing if the key was never
put. An iteration gives keys in ascending order, among them all that were put before it
began, from its target on. -/
theorem reads_during_puts {before during : List SkipAction} {c : ReadCall} {m₀ m : SkipMachine}
    (hkeys : ∀ p, .lock p ∈ before ++ during → p.key.length < 2 ^ 32)
    (hbefore : runSteps SkipMachine.step {} before = some m₀)
    (hduring : runSteps SkipMachine.step m₀ (.start c :: during) = some m)
    (hone : ∀ c', .start c' ∉ during) :
    (m.reader.finished = false → (m.step .read).isSome = true
        ∧ during.countP SkipAction.isRead < m.list.nodes.length + kMaxHeight + 1)
      ∧ (∀ k, c = .get k → m.reader.finished = true → ∃ result, m.reader = .returned result
        ∧ ((∃ q ∈ m₀.done, q.key = k) → ∃ (i : ℕ) (p : SkipPut), m.log[i]? = some p ∧ p.key = k
          ∧ result = some p.ptr
          ∧ ∀ (j : ℕ) (q : SkipPut), m₀.done[j]? = some q → q.key = k → j ≤ i)
        ∧ ((∀ p ∈ m.log, p.key ≠ k) → result = none))
      ∧ (∀ yielded node, m.reader = .iterating yielded node → yielded.Pairwise (· < ·))
      ∧ (c = .first → m.reader.finished = true → ∃ yielded, m.reader = .iterating yielded none
        ∧ ∀ q ∈ m₀.done, q.key ∈ yielded)
      ∧ ∀ t, c = .seek t → m.reader.finished = true → ∃ yielded, m.reader = .iterating yielded none
        ∧ ∀ q ∈ m₀.done, t ≤ q.key → q.key ∈ yielded := by
  obtain ⟨order₀, h₀⟩ := inv_init.run (fun p hp => hkeys p (List.mem_append_left _ hp)) hbefore
  obtain ⟨order, h⟩ := h₀.run (fun p hp => by
    rcases List.mem_cons.mp hp with hp | hp
    · cases hp
    · exact hkeys p (List.mem_append_right _ hp)) hduring
  obtain ⟨m₁, hstart, hrest⟩ := runSteps_cons.mp hduring
  cases hstart
  obtain ⟨hcall, hold, hidle, hticks⟩ := run_frame hone hrest nofun
  have hr := h.reader
  rw [hcall, hold] at hr
  dsimp only at hr hticks
  refine ⟨fun hfin => ⟨?_, ?_⟩, ?_, ?_, ?_, ?_⟩
  · obtain ⟨r, hread, -⟩ := readerStep_spec h.underway.wf h.judged h.before h.reader hfin
    rw [step, hread]
    rfl
  · have hpos : 0 < m.reader.remaining m.list order := ReadPhase.remaining_pos hfin
    have hbound := h.ticks
    have hlen := h.underway.wf.length_order
    omega
  · rintro k rfl hfin
    obtain ⟨result, hreader, hanswer⟩ := hr.returned hfin hidle rfl
    refine ⟨result, hreader, fun hput => ?_, fun hnever => ?_⟩
    · cases result with
      | none =>
        obtain ⟨q, hq, hqk⟩ := hput
        exact absurd hqk (hanswer q hq)
      | some ptr =>
        obtain ⟨i, p, hp, hpk, rfl, hnewest⟩ := hanswer
        exact ⟨i, p, hp, hpk, rfl, hnewest⟩
    · cases result with
      | none => rfl
      | some ptr =>
        obtain ⟨i, p, hp, hpk, -⟩ := hanswer
        exact absurd hpk (hnever p (List.mem_of_getElem? hp))
  · intro yielded node hreader
    rw [hreader] at hr
    exact hr.ascending
  · rintro rfl hfin
    obtain ⟨yielded, hreader, hall⟩ := hr.iterated hfin hidle rfl
    exact ⟨yielded, hreader, fun q hq => hall q hq (not_lt.mp List.not_lex_nil)⟩
  · rintro t rfl hfin
    exact hr.iterated hfin hidle rfl

/-- A put of height one into an empty list: the lock, and eight steps. -/
def firstPut (p : SkipPut) : List SkipAction := .lock p :: List.replicate 8 .write

theorem two_le_kMaxHeight : 1 ≤ 2 ∧ 2 ≤ kMaxHeight := by decide

/-- The steps of a lookup around those of a put that links its node at one of two levels. -/
def lookupDuringPut : List SkipAction :=
  .read :: .lock ⟨[1], ⟨1, 40, 3⟩, ⟨2, two_le_kMaxHeight⟩⟩ :: List.replicate 8 .write
    ++ [.read, .read, .read]

/-- A lookup passes a node that is not yet linked at all levels of its tower. -/
theorem reads_during_puts_lookup :
    ∃ m₀ m, runSteps SkipMachine.step {} (firstPut ⟨[2], ⟨1, 12, 3⟩, ⟨1, by decide⟩⟩) = some m₀
      ∧ runSteps SkipMachine.step m₀ (.start (.get [2]) :: lookupDuringPut) = some m
      ∧ ∃ result, m.reader = .returned result ∧ ∃ (i : ℕ) (p : SkipPut), m.log[i]? = some p
        ∧ p.key = [2] ∧ result = some p.ptr := by
  have hall : (runSteps SkipMachine.step {} (firstPut ⟨[2], ⟨1, 12, 3⟩, ⟨1, by decide⟩⟩
      ++ .start (.get [2]) :: lookupDuringPut)).map (fun m => m.reader.finished) = some true := rfl
  obtain ⟨m, hrun, hfin⟩ := Option.map_eq_some_iff.mp hall
  obtain ⟨m₀, hbefore, hduring⟩ := runSteps_append.mp hrun
  have hdone : (runSteps SkipMachine.step {} (firstPut ⟨[2], ⟨1, 12, 3⟩, ⟨1, by decide⟩⟩)).map
      SkipMachine.done = some [⟨[2], ⟨1, 12, 3⟩, ⟨1, by decide⟩⟩] := rfl
  rw [hbefore] at hdone
  obtain ⟨-, hget, -⟩ := reads_during_puts (by simp [firstPut, lookupDuringPut]) hbefore hduring
    (by simp [lookupDuringPut])
  obtain ⟨result, hreader, hput, -⟩ := hget [2] rfl hfin
  obtain ⟨i, p, hp, hpk, hresult, -⟩ := hput
    ⟨_, by rw [Option.some.inj hdone]; exact List.mem_singleton_self _, rfl⟩
  exact ⟨m₀, m, hbefore, hduring, result, hreader, i, p, hp, hpk, hresult⟩

/-- A node says that its key is empty if the key is of `2 ^ 32` bytes. -/
theorem get_of_length {key : Key} (hlen : key.length = 2 ^ 32) (ptr : VLogPointer) :
    ∃ m₀ m, runSteps SkipMachine.step {} (firstPut ⟨key, ptr, ⟨1, by decide⟩⟩) = some m₀
      ∧ m₀.done = [⟨key, ptr, ⟨1, by decide⟩⟩]
      ∧ runSteps SkipMachine.step m₀ [.start (.get key), .read, .read, .read] = some m
      ∧ m.reader = .returned none := by
  cases key with
  | nil => cases hlen
  | cons b bytes =>
    have hcut : u32 (b :: bytes).length = 0 := by rw [hlen]; rfl
    have hput : runSteps SkipMachine.step {} (firstPut ⟨b :: bytes, ptr, ⟨1, by decide⟩⟩) = some
        { list := ⟨[⟨⟨0, 0, 0⟩, 0, some 1 :: List.replicate 11 none, []⟩,
            ⟨ptr, u32 (b :: bytes).length, [none], b :: bytes⟩], 1⟩
          done := [⟨b :: bytes, ptr, ⟨1, by decide⟩⟩] } := rfl
    rw [hcut] at hput
    have hget : (runSteps SkipMachine.step
        { list := ⟨[⟨⟨0, 0, 0⟩, 0, some 1 :: List.replicate 11 none, []⟩,
            ⟨ptr, 0, [none], b :: bytes⟩], 1⟩
          done := [⟨b :: bytes, ptr, ⟨1, by decide⟩⟩] }
        [.start (.get (b :: bytes)), .read, .read, .read]).map SkipMachine.reader
          = some (.returned none) := rfl
    obtain ⟨m, hrun, hreader⟩ := Option.map_eq_some_iff.mp hget
    exact ⟨_, m, hput, rfl, hrun, hreader⟩

/-- **The lookup of a key of `2 ^ 32` bytes returns nothing**, though its put had finished
when it began. -/
theorem get_longKey :
    (List.replicate (2 ^ 32) (0 : Byte)).length = 2 ^ 32
      ∧ ∃ m₀ m, runSteps SkipMachine.step {}
          (firstPut ⟨List.replicate (2 ^ 32) 0, ⟨1, 12, 3⟩, ⟨1, by decide⟩⟩) = some m₀
        ∧ m₀.done = [⟨List.replicate (2 ^ 32) 0, ⟨1, 12, 3⟩, ⟨1, by decide⟩⟩]
        ∧ runSteps SkipMachine.step m₀
          [.start (.get (List.replicate (2 ^ 32) 0)), .read, .read, .read] = some m
        ∧ m.reader = .returned none := by
  have hlen : (List.replicate (2 ^ 32) (0 : Byte)).length = 2 ^ 32 := List.length_replicate
  generalize List.replicate (2 ^ 32) (0 : Byte) = key at hlen ⊢
  exact ⟨hlen, get_of_length hlen ⟨1, 12, 3⟩⟩

end SkipMachine
