import ForgeLSM.Basic
import ForgeLSM.Util.Bytes
import ForgeLSM.Util.OrdMap
import ForgeLSM.Util.SortedChain

/-!
# The skip list

The memtable keeps its entries in a skip list: nodes in an arena, each with a tower of
links, and for every level the list of the nodes whose tower reaches it. A search walks
right along a level while the next key is below the target and otherwise goes down; an
insertion links the new node level by level behind the predecessors the search met.

A node is an index into the arena, the head being the first. Reading or writing a link
outside a tower, and using a predecessor the search did not fill in, are undefined
here, so that what is proved of a put includes that it does neither.

All levels are described by one list: the nodes of the arena in order of key, with the
number of levels each of them is linked at (`Wf`). The list of a level is the part
linked above it. A node under construction is linked at fewer levels than its tower
has, so the same invariant holds between any two stores of a put, and the lemmas here
are about single stores: `Wf.addNode`, `Wf.storeOwn`, `Wf.linkNode`.
-/

open Function

/-! ## The nodes -/

/-- `K_MAX_HEIGHT`. -/
def kMaxHeight : ℕ := 12

/-- The height of a node. -/
def Height : Type := { h : ℕ // 1 ≤ h ∧ h ≤ kMaxHeight }

instance : DecidableEq Height := inferInstanceAs (DecidableEq { h : ℕ // 1 ≤ h ∧ h ≤ kMaxHeight })

/-- A node of the skip list. Its `height` is the length of the array of links. -/
structure SkipNode where
  value : VLogPointer
  /-- A `uint32_t`. -/
  keyLength : ℕ
  next : List (Option ℕ)
  /-- The bytes that follow the array. -/
  bytes : Key
  deriving DecidableEq

/-- `Node::key`: as many of the bytes as the length says. -/
def SkipNode.key (n : SkipNode) : Key := n.bytes.take n.keyLength

/-- **`allocate_node`**: the length of the key is cut to 32 bits. -/
def allocateNode (key : Key) (ptr : VLogPointer) (height : ℕ) : SkipNode where
  value := ptr
  keyLength := u32 key.length
  next := List.replicate height none
  bytes := key

/-- **`ConcurrentSkipList`**: the nodes in the order they were allocated, the head first,
and `max_height_`. -/
structure SkipList where
  nodes : List SkipNode
  maxHeight : ℕ
  deriving DecidableEq

namespace SkipList

/-- `head_`. -/
def head : ℕ := 0

/-- The list the constructor makes. -/
def init : SkipList := ⟨[allocateNode [] ⟨0, 0, 0⟩ kMaxHeight], 1⟩

/-- The list with one more node in its arena, which no link leads to. -/
def addNode (s : SkipList) (key : Key) (ptr : VLogPointer) (height : ℕ) : SkipList :=
  { s with nodes := s.nodes ++ [allocateNode key ptr height] }

/-- `x->next[level].load()`. -/
def loadNext (s : SkipList) (level x : ℕ) : Option (Option ℕ) :=
  s.nodes[x]?.bind (fun n => n.next[level]?)

/-- `x->next[level].store(link)`. -/
def storeNext (s : SkipList) (level x : ℕ) (link : Option ℕ) : Option SkipList :=
  s.nodes[x]?.bind (fun n =>
    if level < n.next.length then
      some { s with nodes := s.nodes.set x { n with next := n.next.set level link } }
    else none)

/-- `x->value.load()`. -/
def loadValue (s : SkipList) (x : ℕ) : Option VLogPointer := s.nodes[x]?.map SkipNode.value

/-- `x->value.store(ptr)`. -/
def storeValue (s : SkipList) (x : ℕ) (ptr : VLogPointer) : Option SkipList :=
  s.nodes[x]?.map (fun n => { s with nodes := s.nodes.set x { n with value := ptr } })

/-- `x->key()`. -/
def nodeKey (s : SkipList) (x : ℕ) : Key := (s.nodes[x]?.map SkipNode.key).getD []

/-! ## The search -/

/-- What one round of the loop of `find_greater_or_equal` does. -/
inductive Move where
  /-- `x = next` -/
  | right (next : ℕ)
  /-- `level--` -/
  | down
  /-- `return next` -/
  | stop (next : Option ℕ)

/-- `key_is_after_node`, for a node that is not null. -/
def keyIsAfterNode (s : SkipList) (key : Key) (n : ℕ) : Bool := decide (s.nodeKey n < key)

/-- **One round of `find_greater_or_equal`**, at a node and a level. -/
def move (s : SkipList) (key : Key) (x level : ℕ) : Option Move :=
  (s.loadNext level x).map (fun next =>
    match next with
    | some n =>
      if s.keyIsAfterNode key n then .right n else if level = 0 then .stop (some n) else .down
    | none => if level = 0 then .stop none else .down)

/-- The loop of `find_greater_or_equal`, for fewer rounds than the fuel. `prev` has the node
at which the search left each level. -/
def findLoop (s : SkipList) (key : Key) :
    ℕ → ℕ → ℕ → List (Option ℕ) → Option (Option ℕ × List (Option ℕ))
  | 0, _, _, _ => none
  | fuel + 1, x, level, prev =>
    (s.move key x level).bind (fun
      | .right n => s.findLoop key fuel n level prev
      | .down => s.findLoop key fuel x (level - 1) (prev.set level (some x))
      | .stop n => some (n, prev.set level (some x)))

/-- **`find_greater_or_equal`.** The entries of `prev` are not initialised. -/
def findGreaterOrEqual (s : SkipList) (fuel : ℕ) (key : Key) :
    Option (Option ℕ × List (Option ℕ)) :=
  s.findLoop key fuel head (s.maxHeight - 1) (List.replicate kMaxHeight none)

/-- `node != nullptr && node->key() == key`: the node that has the key, if it is the one
found. -/
def hit (s : SkipList) (key : Key) (node : Option ℕ) : Option ℕ :=
  node.filter (fun n => decide (s.nodeKey n = key))

/-- **`get`**: whether the key is there, and its pointer. -/
def get (s : SkipList) (fuel : ℕ) (key : Key) : Option (Option VLogPointer) :=
  (s.findGreaterOrEqual fuel key).bind (fun (node, _) =>
    match s.hit key node with
    | some n => (s.loadValue n).map some
    | none => some none)

/-! ## Put -/

/-- The loop that sets the predecessors above `current_max` to the head. -/
def fillPrev (prev : List (Option ℕ)) (currentMax height : ℕ) : List (Option ℕ) :=
  (List.range' currentMax (height - currentMax)).foldl (fun p i => p.set i (some head)) prev

/-- One round of the loop that links a node. -/
def linkLevel (prev : List (Option ℕ)) (newNode : ℕ) (s : SkipList) (i : ℕ) : Option SkipList :=
  prev[i]?.join.bind (fun p =>
    (s.loadNext i p).bind (fun link =>
      (s.storeNext i newNode link).bind (fun s' => s'.storeNext i p (some newNode))))

/-- **`put`.** The height is what `random_height` returns. -/
def put (s : SkipList) (fuel : ℕ) (key : Key) (ptr : VLogPointer) (height : Height) :
    Option SkipList :=
  (s.findGreaterOrEqual fuel key).bind (fun (node, prev) =>
    match s.hit key node with
    | some n => s.storeValue n ptr
    | none =>
      let prev := if height.1 > s.maxHeight then fillPrev prev s.maxHeight height.1 else prev
      let maxHeight := if height.1 > s.maxHeight then height.1 else s.maxHeight
      let s' := { s with maxHeight := maxHeight }.addNode key ptr height.1
      (List.range height.1).foldlM (linkLevel prev s.nodes.length) s')

/-- A call of `put`, with the height its node would get. -/
structure SkipPut where
  key : Key
  ptr : VLogPointer
  height : Height

/-! ## Iterators -/

section

variable (s : SkipList)

/-- `Iterator::seek_to_first`: the node the iterator is at, null at the end. -/
def seekToFirst : Option (Option ℕ) := s.loadNext 0 head

/-- `Iterator::seek`. -/
def seek (fuel : ℕ) (target : Key) : Option (Option ℕ) :=
  (s.findGreaterOrEqual fuel target).map Prod.fst

/-- `Iterator::key` and `Iterator::value`. -/
def entry (x : ℕ) : Option (Key × VLogPointer) :=
  (s.loadValue x).map (fun ptr => (s.nodeKey x, ptr))

/-- `for (; it.valid(); it.next())`: the entries an iterator gives from a node on. -/
def collect (fuel : ℕ) (node : Option ℕ) : Option (List (Key × VLogPointer)) :=
  (walk (s.loadNext 0) fuel node).bind (fun xs => xs.mapM s.entry)

/-- The list of a level. -/
def levelList (fuel level : ℕ) : Option (List ℕ) :=
  (s.loadNext level head).bind (walk (s.loadNext level) fuel)

/-! ## Single loads and stores -/

/-- The number of links of a node. -/
def height (x : ℕ) : ℕ := (s.nodes[x]?.map (fun n => n.next.length)).getD 0

/-- The value of a node. -/
def nodeValue (x : ℕ) : VLogPointer := (s.loadValue x).getD ⟨0, 0, 0⟩

/-- The entry of a node. -/
def item (x : ℕ) : Key × VLogPointer := (s.nodeKey x, s.nodeValue x)

/-- The nodes in order of key, the head below all others. -/
def rank (x : ℕ) : WithBot Key := if x = head then ⊥ else (s.nodeKey x : WithBot Key)

end

variable {s s' : SkipList} {level x : ℕ} {link : Option ℕ}

/-- The links of a node are those its height says. -/
theorem lt_height_of_loadNext (h : s.loadNext level x = some link) : level < s.height x := by
  obtain ⟨n, hn, hl⟩ := Option.bind_eq_some_iff.mp h
  unfold height
  rw [hn]
  exact (List.getElem?_eq_some_iff.mp hl).1

/-- **Two lists with the same nodes**, whatever their links and values. -/
structure SameNodes (s s' : SkipList) : Prop where
  length : s'.nodes.length = s.nodes.length
  key : s'.nodeKey = s.nodeKey
  height : s'.height = s.height

theorem SameNodes.refl (s : SkipList) : SameNodes s s := ⟨rfl, rfl, rfl⟩

theorem SameNodes.trans {t : SkipList} (h : SameNodes s s') (h' : SameNodes s' t) :
    SameNodes s t :=
  ⟨h'.length.trans h.length, h'.key.trans h.key, h'.height.trans h.height⟩

theorem SameNodes.rank (h : SameNodes s s') : s'.rank = s.rank := by
  unfold SkipList.rank
  rw [h.key]

/-- The nodes after one of them is replaced. -/
theorem getElem?_replace {n : SkipNode} (hn : s.nodes[x]? = some n) (n' : SkipNode) (y : ℕ) :
    (s.nodes.set x n')[y]? = if y = x then some n' else s.nodes[y]? := by
  rw [List.getElem?_set]
  by_cases hy : y = x
  · subst hy
    rw [if_pos rfl, if_pos (List.getElem?_eq_some_iff.mp hn).1, if_pos rfl]
  · rw [if_neg (Ne.symm hy), if_neg hy]

/-- Replacing a node by one of the same key and height. -/
theorem sameNodes_replace {n : SkipNode} (hn : s.nodes[x]? = some n) (n' : SkipNode)
    (hkey : n'.key = n.key) (hlen : n'.next.length = n.next.length) :
    SameNodes s ⟨s.nodes.set x n', s.maxHeight⟩ := by
  refine ⟨List.length_set, funext (fun y => ?_), funext (fun y => ?_)⟩
  · unfold nodeKey
    rw [getElem?_replace hn]
    split_ifs with hy
    · rw [hy, hn, Option.map_some, Option.map_some, hkey]
    · rfl
  · unfold SkipList.height
    rw [getElem?_replace hn]
    split_ifs with hy
    · rw [hy, hn, Option.map_some, Option.map_some, hlen]
    · rfl

/-- **What storing a link does.** -/
theorem storeNext_spec (h : s.storeNext level x link = some s') :
    SameNodes s s' ∧ s'.maxHeight = s.maxHeight ∧ s'.loadValue = s.loadValue
      ∧ ∀ l y, s'.loadNext l y = if y = x ∧ l = level then some link else s.loadNext l y := by
  obtain ⟨n, hn, hs⟩ := Option.bind_eq_some_iff.mp h
  split_ifs at hs with hl
  cases hs
  refine ⟨sameNodes_replace hn { n with next := n.next.set level link } rfl List.length_set, rfl,
    funext (fun y => ?_), fun l y => ?_⟩
  · unfold loadValue
    rw [getElem?_replace hn]
    split_ifs with hy
    · rw [hy, hn]
      rfl
    · rfl
  · unfold loadNext
    rw [getElem?_replace hn]
    by_cases hy : y = x
    · rw [if_pos hy, hy, hn, Option.bind_some, Option.bind_some, List.getElem?_set]
      by_cases hll : level = l
      · rw [if_pos hll, if_pos (hll ▸ hl), if_pos ⟨rfl, hll.symm⟩]
      · rw [if_neg hll, if_neg (fun hc => hll hc.2.symm)]
    · rw [if_neg hy, if_neg (fun hc => hy hc.1)]

/-- A link inside a tower can be stored. -/
theorem exists_storeNext (hl : level < s.height x) (link : Option ℕ) :
    ∃ s', s.storeNext level x link = some s' := by
  unfold height at hl
  cases hn : s.nodes[x]? with
  | none =>
    rw [hn] at hl
    cases hl
  | some n =>
    rw [hn, Option.map_some, Option.getD_some] at hl
    unfold storeNext
    rw [hn, Option.bind_some, if_pos hl]
    exact ⟨_, rfl⟩

/-- **What storing a value does.** -/
theorem storeValue_spec {ptr : VLogPointer} (h : s.storeValue x ptr = some s') :
    SameNodes s s' ∧ s'.maxHeight = s.maxHeight ∧ s'.loadNext = s.loadNext
      ∧ ∀ y, s'.loadValue y = if y = x then some ptr else s.loadValue y := by
  obtain ⟨n, hn, rfl⟩ := Option.map_eq_some_iff.mp h
  refine ⟨sameNodes_replace hn { n with value := ptr } rfl rfl, rfl,
    funext₂ (fun l y => ?_), fun y => ?_⟩
  · unfold loadNext
    rw [getElem?_replace hn]
    split_ifs with hy
    · rw [hy, hn]
      rfl
    · rfl
  · unfold loadValue
    rw [getElem?_replace hn]
    split_ifs <;> rfl

theorem exists_storeValue (hx : x < s.nodes.length) (ptr : VLogPointer) :
    ∃ s', s.storeValue x ptr = some s' := by
  unfold storeValue
  rw [List.getElem?_eq_getElem hx]
  exact ⟨_, rfl⟩

theorem exists_loadValue (hx : x < s.nodes.length) : ∃ ptr, s.loadValue x = some ptr := by
  unfold loadValue
  rw [List.getElem?_eq_getElem hx]
  exact ⟨_, rfl⟩

/-! ## The invariant -/

/-- The nodes linked at a level. -/
def chain (order : List ℕ) (linked : ℕ → ℕ) (level : ℕ) : List ℕ :=
  order.filter (fun x => decide (level < linked x))

/-- **A well-formed list**: `order` is the nodes in order of key, and `linked` how many
levels each of them is linked at, from the lowest up. -/
structure Wf (s : SkipList) (order : List ℕ) (linked : ℕ → ℕ) : Prop where
  head_height : s.height head = kMaxHeight
  mem_order : ∀ x, x ∈ order ↔ 0 < x ∧ x < s.nodes.length
  sorted : (head :: order).Pairwise (fun x y => s.rank x < s.rank y)
  one_le_max : 1 ≤ s.maxHeight
  max_le : s.maxHeight ≤ kMaxHeight
  linked_le : ∀ x ∈ order, linked x ≤ s.maxHeight
  chains : ∀ level < kMaxHeight, Linked (s.loadNext level) head (chain order linked level)

theorem mem_chain {order : List ℕ} {linked : ℕ → ℕ} :
    x ∈ chain order linked level ↔ x ∈ order ∧ level < linked x := by
  rw [chain, List.mem_filter, decide_eq_true_eq]

/-- The lowest level has every node, if all of them are linked at it. -/
theorem chain_zero {order : List ℕ} {linked : ℕ → ℕ} (h : ∀ x ∈ order, 1 ≤ linked x) :
    chain order linked 0 = order :=
  List.filter_eq_self.mpr (fun x hx => decide_eq_true (h x hx))

/-- A node linked at a level is linked below it. -/
theorem mem_lower {order : List ℕ} {linked : ℕ → ℕ} {l : ℕ} (hl : l ≤ level)
    (hx : x ∈ head :: chain order linked level) : x ∈ head :: chain order linked l := by
  rw [List.mem_cons, mem_chain] at hx ⊢
  exact hx.imp_right (fun h => ⟨h.1, lt_of_le_of_lt hl h.2⟩)

/-- A node stays in the chain of a level while the levels it is linked at grow. -/
theorem chain_mono {order order' : List ℕ} {linked linked' : ℕ → ℕ}
    (horder : ∀ x ∈ order, x ∈ order' ∧ linked x ≤ linked' x)
    (hx : x ∈ head :: chain order linked level) : x ∈ head :: chain order' linked' level := by
  rw [List.mem_cons, mem_chain] at hx ⊢
  refine hx.imp_right (fun h => ?_)
  obtain ⟨hmem, hle⟩ := horder x h.1
  exact ⟨hmem, lt_of_lt_of_le h.2 hle⟩

/-- **Each level's list is a sublist of the level below.** -/
theorem chain_sublist (order : List ℕ) (linked : ℕ → ℕ) (level : ℕ) :
    (chain order linked (level + 1)).Sublist (chain order linked level) :=
  List.monotone_filter_right order (fun x hx => by
    simp only [decide_eq_true_eq] at hx ⊢
    omega)

theorem wf_init (linked : ℕ → ℕ) : Wf init [] linked where
  head_height := rfl
  mem_order x := by
    have : init.nodes.length = 1 := rfl
    simp only [List.not_mem_nil, false_iff]
    omega
  sorted := List.pairwise_singleton _ _
  one_le_max := le_refl 1
  max_le := by decide
  linked_le x hx := by cases hx
  chains level hl := by
    have hall : ∀ l < kMaxHeight, init.loadNext l head = some none := by decide
    exact hall level hl

namespace Wf

variable {order : List ℕ} {linked : ℕ → ℕ}

section

variable (h : Wf s order linked)
include h

theorem ne_head (hx : x ∈ order) : x ≠ head := by
  have := ((h.mem_order x).mp hx).1
  exact Nat.ne_of_gt this

theorem rank_eq (hx : x ∈ order) :
    s.rank x = (s.nodeKey x : WithBot Key) := if_neg (h.ne_head hx)

/-- The nodes are in the arena. -/
theorem lt_length (hx : x ∈ head :: order) : x < s.nodes.length := by
  rcases List.mem_cons.mp hx with rfl | hx
  · by_contra hc
    have hh := h.head_height
    unfold height at hh
    rw [List.getElem?_eq_none (not_lt.mp hc)] at hh
    cases hh
  · exact ((h.mem_order x).mp hx).2

theorem loadValue_eq (hx : x ∈ order) : s.loadValue x = some (s.nodeValue x) := by
  obtain ⟨ptr, hptr⟩ := exists_loadValue (h.lt_length (List.mem_cons_of_mem head hx))
  unfold nodeValue
  rw [hptr]
  rfl

/-- The order has every node but the head. -/
theorem length_order : order.length + 1 = s.nodes.length := by
  have hnodup : order.Nodup := List.Pairwise.imp
    (fun {x y} (hlt : s.rank x < s.rank y) (heq : x = y) => lt_irrefl (s.rank x) (heq ▸ hlt))
    (List.pairwise_cons.mp h.sorted).2
  have hperm : order.Perm (List.range' 1 (s.nodes.length - 1)) := by
    refine (List.perm_ext_iff_of_nodup hnodup List.nodup_range').mpr (fun x => ?_)
    rw [h.mem_order, List.mem_range'_1]
    omega
  have hpos := h.lt_length List.mem_cons_self
  rw [hperm.length_eq, List.length_range']
  omega

/-- No two nodes have the same key. -/
theorem eq_of_rank_eq {y : ℕ} (hx : x ∈ order) (hy : y ∈ order) (heq : s.rank x = s.rank y) :
    x = y := by
  by_contra hne
  rcases pairwise_or_of_ne (List.pairwise_cons.mp h.sorted).2 hx hy hne with hlt | hlt
  · exact absurd heq hlt.ne
  · exact absurd heq hlt.ne'

/-- The list of a level is a chain in order of key. -/
theorem sortedChain (hl : level < kMaxHeight) :
    SortedChain (s.loadNext level) s.rank head (chain order linked level) where
  linked := h.chains level hl
  sorted := h.sorted.sublist (List.filter_sublist.cons_cons head)

/-- Nothing is linked above the maximum height. -/
theorem chain_eq_nil (hl : s.maxHeight ≤ level) : chain order linked level = [] := by
  refine List.filter_eq_nil_iff.mpr (fun x hx => ?_)
  have := h.linked_le x hx
  rw [decide_eq_true_eq]
  omega

/-- **Stores that leave the links of the chains alone keep the list well-formed.** -/
theorem congr (hs : SameNodes s s') (hle : s.maxHeight ≤ s'.maxHeight)
    (hmax : s'.maxHeight ≤ kMaxHeight)
    (hnext : ∀ level, ∀ x ∈ head :: chain order linked level,
      s'.loadNext level x = s.loadNext level x) :
    Wf s' order linked where
  head_height := by rw [hs.height, h.head_height]
  mem_order x := by rw [h.mem_order, hs.length]
  sorted := by rw [hs.rank]; exact h.sorted
  one_le_max := le_trans h.one_le_max hle
  max_le := hmax
  linked_le x hx := le_trans (h.linked_le x hx) hle
  chains level hl := (h.chains level hl).congr (hnext level)

/-- The store into a link of a node that is not linked there yet. -/
theorem storeOwn (hx : x ≠ head) (hl : linked x ≤ level) (hs : s.storeNext level x link = some s') :
    Wf s' order linked := by
  obtain ⟨hsame, hmax, -, hnext⟩ := storeNext_spec hs
  refine h.congr hsame (le_of_eq hmax.symm) (hmax ▸ h.max_le) (fun l y hy => ?_)
  rw [hnext, if_neg]
  rintro ⟨rfl, rfl⟩
  rcases List.mem_cons.mp hy with hy | hy
  · exact hx hy
  · exact absurd (mem_chain.mp hy).2 (not_lt.mpr hl)

theorem storeValue {ptr : VLogPointer} (hs : s.storeValue x ptr = some s') :
    Wf s' order linked := by
  obtain ⟨hsame, hmax, hnext, -⟩ := storeValue_spec hs
  exact h.congr hsame (le_of_eq hmax.symm) (hmax ▸ h.max_le) (fun l y _ => by rw [hnext])

/-- The store of a greater maximum height. -/
theorem storeMaxHeight {m : ℕ} (hle : s.maxHeight ≤ m) (hm : m ≤ kMaxHeight) :
    Wf { s with maxHeight := m } order linked :=
  h.congr ⟨rfl, rfl, rfl⟩ hle hm (fun _ _ _ => rfl)

/-- **A node linked at one more level.** It already leads to what follows it there, and now
the node before it leads to it. -/
theorem linkNode {n p i : ℕ} (hn : n ∈ order) (hi : linked n = i) (hmax : i < s.maxHeight)
    (hp : p ∈ head :: chain order linked i) (hpn : s.rank p < s.rank n)
    (hload : s.loadNext i p = some link) (hlink : ∀ y ∈ link, s.rank n ≤ s.rank y)
    (hown : s.loadNext i n = some link) (hs : s.storeNext i p (some n) = some s') :
    Wf s' order (update linked n (i + 1)) := by
  obtain ⟨hsame, hmax', -, hnext⟩ := storeNext_spec hs
  have hik : i < kMaxHeight := lt_of_lt_of_le hmax h.max_le
  have hchain : ∀ l, l ≠ i → chain order (update linked n (i + 1)) l
      = chain order linked l := by
    intro l hl
    refine List.filter_congr (fun x _ => ?_)
    by_cases hx : x = n
    · rw [hx, update_self, hi, decide_eq_decide]
      omega
    · rw [update_of_ne hx]
  have hmem : ∀ y, y ∈ chain order (update linked n (i + 1)) i
      ↔ y = n ∨ y ∈ chain order linked i := by
    intro y
    rw [mem_chain, mem_chain]
    by_cases hy : y = n
    · simp [hy, hn]
    · simp [hy]
  have hsorted : ∀ l, (head :: chain order (update linked n (i + 1)) l).Pairwise
      (fun x y => s.rank x < s.rank y) :=
    fun l => h.sorted.sublist (List.filter_sublist.cons_cons head)
  have hnp : n ≠ p := fun hc => lt_irrefl _ (hc ▸ hpn)
  refine
    { head_height := by rw [hsame.height, h.head_height]
      mem_order := fun x => by rw [h.mem_order, hsame.length]
      sorted := by rw [hsame.rank]; exact h.sorted
      one_le_max := hmax' ▸ h.one_le_max
      max_le := hmax' ▸ h.max_le
      linked_le := fun x hx => ?_
      chains := fun l hl => ?_ }
  · rw [hmax']
    by_cases hxn : x = n
    · rw [hxn, update_self]
      exact hmax
    · rw [update_of_ne hxn]
      exact h.linked_le x hx
  · by_cases hli : l = i
    · subst hli
      -- what follows has another key, since the new node is not linked here yet
      have hstrict : ∀ y ∈ link, s.rank n < s.rank y := by
        intro y hy
        obtain ⟨hyc, -⟩ := (h.sortedChain hl).mem_of_next hp (hy ▸ hload)
        refine lt_of_le_of_ne (hlink y hy) (fun heq => ?_)
        rw [← h.eq_of_rank_eq hn (mem_chain.mp hyc).1 heq, mem_chain, hi] at hyc
        exact lt_irrefl _ hyc.2
      refine ((h.sortedChain hl).splice hp hload hpn hstrict ?_ ?_ ?_ (hsorted l) hmem).linked
      · rw [hnext, if_neg (fun hc => hnp hc.1), hown]
      · rw [hnext, if_pos ⟨rfl, rfl⟩]
      · intro x _ hx
        rw [hnext, if_neg (fun hc => hx hc.1)]
    · rw [hchain l hli]
      refine (h.chains l hl).congr (fun x _ => ?_)
      rw [hnext, if_neg (fun hc => hli hc.2)]

end

end Wf

/-! ## A new node -/

section AddNode

variable {key : Key} {ptr : VLogPointer} {h : ℕ}

theorem getElem?_addNode_of_lt (hx : x < s.nodes.length) :
    (s.addNode key ptr h).nodes[x]? = s.nodes[x]? := List.getElem?_append_left hx

theorem getElem?_addNode_self :
    (s.addNode key ptr h).nodes[s.nodes.length]? = some (allocateNode key ptr h) :=
  List.getElem?_concat_length

theorem length_addNode : (s.addNode key ptr h).nodes.length = s.nodes.length + 1 := by
  unfold addNode
  rw [List.length_append]
  rfl

theorem loadNext_addNode_of_lt (hx : x < s.nodes.length) :
    (s.addNode key ptr h).loadNext level x = s.loadNext level x := by
  unfold loadNext
  rw [getElem?_addNode_of_lt hx]

theorem nodeKey_addNode_of_lt (hx : x < s.nodes.length) :
    (s.addNode key ptr h).nodeKey x = s.nodeKey x := by
  unfold nodeKey
  rw [getElem?_addNode_of_lt hx]

theorem rank_addNode_of_lt (hx : x < s.nodes.length) :
    (s.addNode key ptr h).rank x = s.rank x := by
  unfold rank
  rw [nodeKey_addNode_of_lt hx]

theorem height_addNode :
    (s.addNode key ptr h).height = update s.height s.nodes.length h := by
  funext x
  unfold height
  rcases Nat.lt_trichotomy x s.nodes.length with hx | rfl | hx
  · rw [getElem?_addNode_of_lt hx, update_of_ne (Nat.ne_of_lt hx)]
  · rw [getElem?_addNode_self, update_self]
    exact List.length_replicate
  · rw [update_of_ne (Nat.ne_of_gt hx), List.getElem?_eq_none (le_of_lt hx),
      List.getElem?_eq_none (by rw [length_addNode]; exact hx)]

theorem loadValue_addNode_of_lt (hx : x < s.nodes.length) :
    (s.addNode key ptr h).loadValue x = s.loadValue x := by
  unfold loadValue
  rw [getElem?_addNode_of_lt hx]

/-- **A node has the key it was allocated with if the length fits its field.** -/
theorem nodeKey_addNode_self (hkey : key.length < 2 ^ 32) :
    (s.addNode key ptr h).nodeKey s.nodes.length = key := by
  unfold nodeKey
  rw [getElem?_addNode_self]
  show key.take (u32 key.length) = key
  rw [u32_of_lt hkey, List.take_length]

theorem loadValue_addNode_self :
    (s.addNode key ptr h).loadValue s.nodes.length = some ptr := by
  unfold loadValue
  rw [getElem?_addNode_self]
  rfl

end AddNode

/-- **A new node takes its place in the order**, linked at no level. -/
theorem Wf.addNode {order : List ℕ} {linked : ℕ → ℕ} (hw : Wf s order linked) {key : Key}
    (hkey : key.length < 2 ^ 32) (hnew : ∀ x ∈ order, s.nodeKey x ≠ key) (ptr : VLogPointer)
    (h : ℕ) :
    ∃ order', Wf (s.addNode key ptr h) order' (update linked s.nodes.length 0)
      ∧ order'.Perm (s.nodes.length :: order) := by
  have hpos : 0 < s.nodes.length := hw.lt_length List.mem_cons_self
  obtain ⟨pre, post, rfl, hpre, hpost⟩ :=
    exists_split_at (List.pairwise_cons.mp hw.sorted).2 (key : WithBot Key)
  have hlt : ∀ x ∈ head :: (pre ++ post), x < s.nodes.length := fun x hx => hw.lt_length hx
  have hrank : ∀ x ∈ head :: (pre ++ post), (s.addNode key ptr h).rank x = s.rank x :=
    fun x hx => rank_addNode_of_lt (hlt x hx)
  have hself : (s.addNode key ptr h).rank s.nodes.length = (key : WithBot Key) := by
    unfold rank
    rw [if_neg (show s.nodes.length ≠ head from Nat.ne_of_gt hpos), nodeKey_addNode_self hkey]
  have hmem : ∀ x, x ∈ pre ++ s.nodes.length :: post ↔ x = s.nodes.length ∨ x ∈ pre ++ post := by
    intro x
    simp only [List.mem_append, List.mem_cons]
    tauto
  have hchain : ∀ l, chain (pre ++ s.nodes.length :: post)
      (update linked s.nodes.length 0) l = chain (pre ++ post) linked l := by
    intro l
    have hold : ∀ x ∈ pre ++ post, decide (l < update linked s.nodes.length 0 x)
        = decide (l < linked x) := fun x hx => by
      rw [update_of_ne (Nat.ne_of_lt (hlt x (List.mem_cons_of_mem head hx)))]
    unfold chain
    rw [List.filter_append, List.filter_cons_of_neg (by simp), ← List.filter_append]
    exact List.filter_congr hold
  refine ⟨pre ++ s.nodes.length :: post, ?_, List.perm_middle⟩
  refine
    { head_height := ?_
      mem_order := fun x => ?_
      sorted := ?_
      one_le_max := hw.one_le_max
      max_le := hw.max_le
      linked_le := fun x hx => ?_
      chains := fun l hl => ?_ }
  · rw [height_addNode, update_of_ne (show head ≠ s.nodes.length from Nat.ne_of_lt hpos),
      hw.head_height]
  · rw [hmem, hw.mem_order, length_addNode]
    omega
  · have hsorted : ((head :: pre) ++ post).Pairwise
        (fun x y => (s.addNode key ptr h).rank x < (s.addNode key ptr h).rank y) :=
      hw.sorted.imp_of_mem (fun {x y} hx hy hxy => by rw [hrank x hx, hrank y hy]; exact hxy)
    refine pairwise_insert hsorted (fun x hx => ?_) (fun y hy => ?_)
    · rw [hself, hrank x (List.mem_append_left post hx)]
      rcases List.mem_cons.mp hx with rfl | hx
      · exact WithBot.bot_lt_coe key
      · exact hpre x hx
    · have hy' : y ∈ pre ++ post := List.mem_append_right pre hy
      rw [hself, hrank y (List.mem_cons_of_mem head hy')]
      refine lt_of_le_of_ne (hpost y hy) (fun heq => hnew y hy' ?_)
      rw [hw.rank_eq hy'] at heq
      exact (WithBot.coe_injective heq).symm
  · rcases (hmem x).mp hx with rfl | hx
    · rw [update_self]
      exact Nat.zero_le _
    · rw [update_of_ne (Nat.ne_of_lt (hlt x (List.mem_cons_of_mem head hx)))]
      exact hw.linked_le x hx
  · rw [hchain]
    refine (hw.chains l hl).congr (fun x hx => loadNext_addNode_of_lt (hlt x ?_))
    exact List.mem_cons.mpr ((List.mem_cons.mp hx).imp_right (fun h => (mem_chain.mp h).1))

/-! ## What a search finds -/

/-- **A predecessor of a key at a level**: a node linked there below the key, whose link
leads to none below it. -/
structure IsPrev (s : SkipList) (order : List ℕ) (linked : ℕ → ℕ) (key : Key) (level p : ℕ) :
    Prop where
  mem : p ∈ head :: chain order linked level
  lt : s.rank p < (key : WithBot Key)
  next : ∃ link, s.loadNext level p = some link ∧ ∀ y ∈ link, (key : WithBot Key) ≤ s.rank y

namespace Wf

variable {order : List ℕ} {linked : ℕ → ℕ} {key : Key}

section

variable (h : Wf s order linked)
include h

/-- **One round of the search**, from a node linked at the level and below the key: to the
right along the level and still below the key, or away from the predecessor. -/
theorem move_spec (hl : level < kMaxHeight) (hx : x ∈ head :: chain order linked level)
    (hlt : s.rank x < (key : WithBot Key)) :
    (∃ n, s.move key x level = some (.right n) ∧ n ∈ chain order linked level
        ∧ s.rank x < s.rank n ∧ s.rank n < (key : WithBot Key))
      ∨ (s.move key x level = some .down ∧ 0 < level ∧ IsPrev s order linked key level x)
      ∨ ∃ link, s.move key x level = some (.stop link) ∧ level = 0
        ∧ s.loadNext 0 x = some link ∧ IsPrev s order linked key 0 x := by
  have hchain := h.sortedChain hl
  obtain ⟨-, post, -, -, hnext, -, -⟩ := hchain.exists_split hx
  unfold move
  rw [hnext, Option.map_some]
  cases hlink : post.head? with
  | none =>
    rw [hlink] at hnext
    have hprev : IsPrev s order linked key level x := ⟨hx, hlt, none, hnext, nofun⟩
    dsimp only
    split_ifs with h0
    · subst h0
      exact Or.inr (Or.inr ⟨none, rfl, rfl, hnext, hprev⟩)
    · exact Or.inr (Or.inl ⟨rfl, Nat.pos_of_ne_zero h0, hprev⟩)
  | some n =>
    rw [hlink] at hnext
    obtain ⟨hn, hxn⟩ := hchain.mem_of_next hx hnext
    have hrank := h.rank_eq (mem_chain.mp hn).1
    dsimp only
    cases hafter : s.keyIsAfterNode key n with
    | true =>
      rw [if_pos rfl]
      exact Or.inl ⟨n, rfl, hn, hxn, hrank ▸ WithBot.coe_lt_coe.mpr (of_decide_eq_true hafter)⟩
    | false =>
      rw [if_neg Bool.false_ne_true]
      have hprev : IsPrev s order linked key level x := by
        refine ⟨hx, hlt, some n, hnext, fun y hy => ?_⟩
        cases hy
        exact hrank ▸ WithBot.coe_le_coe.mpr (not_lt.mp (of_decide_eq_false hafter))
      split_ifs with h0
      · subst h0
        exact Or.inr (Or.inr ⟨some n, rfl, rfl, hnext, hprev⟩)
      · exact Or.inr (Or.inl ⟨rfl, Nat.pos_of_ne_zero h0, hprev⟩)

/-- **The loop of the search.** With fuel for what lies ahead and for the levels below, it
returns the first node that is not below the key, and has filled in a predecessor at
every level it went through. -/
theorem findLoop_spec {fuel : ℕ} {prev : List (Option ℕ)} (hl : level < kMaxHeight)
    (hx : x ∈ head :: chain order linked level) (hlt : s.rank x < (key : WithBot Key))
    (hlen : prev.length = kMaxHeight) (hfuel : ahead s.rank order x + level < fuel) :
    ∃ prev', s.findLoop key fuel x level prev = some
        ((chain order linked 0).find? (fun y => decide ((key : WithBot Key) ≤ s.rank y)), prev')
      ∧ prev'.length = kMaxHeight
      ∧ (∀ l ≤ level, ∃ p, prev'[l]? = some (some p) ∧ IsPrev s order linked key l p)
      ∧ ∀ l, level < l → prev'[l]? = prev[l]? := by
  induction fuel generalizing x level prev with
  | zero => omega
  | succ fuel ih =>
    rw [findLoop]
    have hset : (prev.set level (some x))[level]? = some (some x) := by
      rw [List.getElem?_set_self (by omega)]
    have hother : ∀ l, l ≠ level → (prev.set level (some x))[l]? = prev[l]? := fun l hne =>
      List.getElem?_set_ne hne.symm
    rcases h.move_spec hl hx hlt with ⟨n, hmove, hn, hxn, hnk⟩ | ⟨hmove, hpos, hprev⟩
      | ⟨link, hmove, rfl, hnext, hprev⟩
    · have hahead := ahead_lt (mem_chain.mp hn).1 hxn
      rw [hmove]
      exact ih hl (List.mem_cons_of_mem head hn) hnk hlen (by omega)
    · rw [hmove]
      have hlen₁ : (prev.set level (some x)).length = kMaxHeight := by rw [List.length_set, hlen]
      obtain ⟨prev', hrun, hlen', hfilled, hrest⟩ :=
        ih (by omega) (mem_lower (Nat.sub_le level 1) hx) hlt hlen₁ (by omega)
      refine ⟨prev', hrun, hlen', fun l hle => ?_, fun l hlt' => ?_⟩
      · by_cases heq : l = level
        · rw [heq, hrest level (by omega), hset]
          exact ⟨x, rfl, hprev⟩
        · exact hfilled l (by omega)
      · rw [hrest l (by omega), hother l (by omega)]
    · rw [hmove]
      obtain ⟨link', hnext', hge⟩ := hprev.next
      obtain rfl : link' = link := Option.some.inj (hnext'.symm.trans hnext)
      refine ⟨prev.set 0 (some x), ?_, by rw [List.length_set, hlen], fun l hle => ?_,
        fun l hlt' => hother l (by omega)⟩
      · rw [← (h.sortedChain hl).eq_find? hx hlt hnext hge]
        rfl
      · obtain rfl : l = 0 := by omega
        exact ⟨x, hset, hprev⟩

/-- **`find_greater_or_equal` returns**, with the first node that is not below the key, and
with a predecessor at every level below the maximum height. -/
theorem findGreaterOrEqual_spec (key : Key) {fuel : ℕ} (hfuel : order.length + kMaxHeight ≤ fuel) :
    ∃ prev, s.findGreaterOrEqual fuel key = some
        ((chain order linked 0).find? (fun y => decide ((key : WithBot Key) ≤ s.rank y)), prev)
      ∧ prev.length = kMaxHeight
      ∧ ∀ l < s.maxHeight, ∃ p, prev[l]? = some (some p) ∧ IsPrev s order linked key l p := by
  have hmax := h.max_le
  have hone := h.one_le_max
  have hahead := ahead_le_length s.rank order head
  have hx : head ∈ head :: chain order linked (s.maxHeight - 1) := List.mem_cons_self
  have hlt : s.rank head < (key : WithBot Key) := WithBot.bot_lt_coe key
  have hnone : (List.replicate kMaxHeight (none : Option ℕ)).length = kMaxHeight :=
    List.length_replicate
  have hround : ahead s.rank order head + (s.maxHeight - 1) < fuel := by omega
  obtain ⟨prev, hrun, hlen, hfilled, -⟩ := h.findLoop_spec (by omega) hx hlt hnone hround
  exact ⟨prev, hrun, hlen, fun l hl => hfilled l (by omega)⟩

/-- A walk along a level gives its list. -/
theorem levelList (hl : level < kMaxHeight) {fuel : ℕ} (hfuel : order.length < fuel) :
    s.levelList fuel level = some (chain order linked level) := by
  have hlinked := h.chains level hl
  have hlen : (chain order linked level).length ≤ order.length := List.length_filter_le _ _
  unfold SkipList.levelList
  rw [hlinked.next_start, Option.bind_some]
  exact hlinked.walk_eq (by omega)

/-- **What the search hits is the node of the key**, if one is linked. -/
theorem hit_eq_some_iff {n : ℕ} :
    s.hit key ((chain order linked 0).find? (fun y => decide ((key : WithBot Key) ≤ s.rank y)))
      = some n ↔ n ∈ chain order linked 0 ∧ s.nodeKey n = key := by
  have hsorted := (List.pairwise_cons.mp (h.sortedChain (show 0 < kMaxHeight by decide)).sorted).2
  unfold hit
  rw [Option.filter_eq_some_iff, decide_eq_true_eq]
  constructor
  · rintro ⟨hfind, hkey⟩
    exact ⟨List.mem_of_find?_eq_some hfind, hkey⟩
  · rintro ⟨hn, hkey⟩
    refine ⟨?_, hkey⟩
    have hrank : s.rank n = (key : WithBot Key) := by
      rw [h.rank_eq (mem_chain.mp hn).1, hkey]
    cases hfind : (chain order linked 0).find?
        (fun y => decide ((key : WithBot Key) ≤ s.rank y)) with
    | none => exact absurd (decide_eq_true hrank.ge) (List.find?_eq_none.mp hfind n hn)
    | some y =>
      -- the first node not below the key is no higher than the node of the key
      have hle := rank_le_of_find? hsorted hfind hn hrank.ge
      have hge : (key : WithBot Key) ≤ s.rank y := by simpa using List.find?_some hfind
      have hy := (mem_chain.mp (List.mem_of_find?_eq_some hfind)).1
      rw [h.eq_of_rank_eq hy (mem_chain.mp hn).1
        (le_antisymm hle (hrank.symm ▸ hge))]

theorem hit_eq_none_iff :
    s.hit key ((chain order linked 0).find? (fun y => decide ((key : WithBot Key) ≤ s.rank y)))
      = none ↔ ∀ n ∈ chain order linked 0, s.nodeKey n ≠ key := by
  rw [Option.eq_none_iff_forall_ne_some]
  exact forall_congr' (fun n => by rw [ne_eq, h.hit_eq_some_iff, not_and])

end

end Wf

/-! ## The array of predecessors -/

/-- The predecessors filled in by a loop of stores. -/
theorem getElem?_foldl_set {α : Type} (v : α) (n a : ℕ) (prev : List α) (l : ℕ) :
    ((List.range' a n).foldl (fun p i => p.set i v) prev)[l]?
      = if a ≤ l ∧ l < a + n ∧ l < prev.length then some v else prev[l]? := by
  induction n generalizing a prev with
  | zero =>
    rw [if_neg (by omega)]
    rfl
  | succ n ih =>
    rw [List.range'_succ, List.foldl_cons, ih, List.length_set, List.getElem?_set]
    by_cases ha : a = l
    · subst ha
      by_cases hlen : a < prev.length
      · rw [if_neg (by omega), if_pos rfl, if_pos hlen, if_pos (by omega)]
      · rw [if_neg (by omega), if_pos rfl, if_neg hlen, if_neg (by omega),
          List.getElem?_eq_none (by omega)]
    · rw [if_neg ha]
      by_cases hin : a + 1 ≤ l ∧ l < a + 1 + n ∧ l < prev.length
      · rw [if_pos hin, if_pos (by omega)]
      · rw [if_neg hin, if_neg (by omega)]

/-- **The array `prev` as a put uses it**: a predecessor of the key at every level of the
new node. -/
def Prevs (s : SkipList) (order : List ℕ) (linked : ℕ → ℕ) (key : Key) (height : ℕ)
    (prev : List (Option ℕ)) : Prop :=
  ∀ l < height, ∃ p, prev[l]? = some (some p) ∧ IsPrev s order linked key l p

section Prevs

variable {order order' : List ℕ} {linked linked' : ℕ → ℕ} {key : Key} {p : ℕ}

theorem IsPrev.congr (h : IsPrev s order linked key level p) (hrank : s'.rank = s.rank)
    (hnext : s'.loadNext level p = s.loadNext level p)
    (hmem : p ∈ head :: chain order' linked' level) : IsPrev s' order' linked' key level p where
  mem := hmem
  lt := by rw [hrank]; exact h.lt
  next := by rw [hrank, hnext]; exact h.next

/-- **The loop that fills in the head** completes the array above the maximum height. -/
theorem Wf.prevs_fillPrev (h : Wf s order linked) {prev : List (Option ℕ)}
    (hlen : prev.length = kMaxHeight) (hprev : Prevs s order linked key s.maxHeight prev)
    (height : Height) :
    Prevs s order linked key height.1
      (if height.1 > s.maxHeight then fillPrev prev s.maxHeight height.1 else prev) := by
  intro l hl
  have hle := height.2.2
  by_cases hmax : l < s.maxHeight
  · obtain ⟨p, hp, hprev⟩ := hprev l hmax
    refine ⟨p, ?_, hprev⟩
    split_ifs
    · rw [fillPrev, getElem?_foldl_set, if_neg (by omega), hp]
    · exact hp
  · refine ⟨head, ?_, List.mem_cons_self, WithBot.bot_lt_coe key, none, ?_, nofun⟩
    · rw [if_pos (by omega), fillPrev, getElem?_foldl_set, if_pos (by omega)]
    · have hchain := h.chains l (by omega)
      rw [h.chain_eq_nil (by omega)] at hchain
      exact hchain

/-- A predecessor stays one when a node is added that is linked nowhere. -/
theorem IsPrev.addNode (hw : Wf s order linked) (hl : level < kMaxHeight)
    (hp : IsPrev s order linked key level p) {k : Key} {ptr : VLogPointer} {h : ℕ}
    (horder : ∀ x ∈ order, x ∈ order') :
    IsPrev (s.addNode k ptr h) order' (update linked s.nodes.length 0) key level p := by
  obtain ⟨link, hload, hlink⟩ := hp.next
  have hlt : p < s.nodes.length :=
    hw.lt_length (List.mem_cons.mpr ((List.mem_cons.mp hp.mem).imp_right
      (fun h => (mem_chain.mp h).1)))
  refine ⟨?_, by rw [rank_addNode_of_lt hlt]; exact hp.lt, link, ?_, fun y hy => ?_⟩
  · refine chain_mono (fun x hx => ⟨horder x hx, ?_⟩) hp.mem
    rw [update_of_ne (Nat.ne_of_lt (hw.lt_length (List.mem_cons_of_mem head hx)))]
  · rw [loadNext_addNode_of_lt hlt, hload]
  · obtain ⟨hyc, -⟩ := (hw.sortedChain hl).mem_of_next hp.mem (hy ▸ hload)
    rw [rank_addNode_of_lt (hw.lt_length (List.mem_cons_of_mem head (mem_chain.mp hyc).1))]
    exact hlink y hy

end Prevs

end SkipList
