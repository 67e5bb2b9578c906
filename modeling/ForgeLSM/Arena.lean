import ForgeLSM.Util.Run

/-!
# The arena

The nodes of a memtable are carved out of large blocks. `Arena::allocate` rounds the size up to
a multiple of eight and adds it to the offset of the current block, by one atomic operation: if
what was there leaves room, the bytes from there on are the caller's. An attempt that finds no
room has moved the offset all the same, so the offset of a block goes past its end and stays
there. Such a caller takes a lock and tries the current block once more, since another may have
changed it; failing again, it makes a block, of its own if the size is large, and else a new
current block, of which it takes the front before anyone else can see it.

`Arena.step` has an action for every access to what the threads share. Offsets and sums are in
64 bits, as in the code. What is proved is that no two callers are given the same byte. The
reason is that the offset of a block never goes down, which is where the bound on the sizes
comes in: `bumped` sums up, for all attempts to take bytes, the sizes rounded up, and
below `2 ^ 64` no offset wraps. That the lock is held plays no part in it.
-/

/-- `K_BLOCK_SIZE`. -/
def kBlockSize : ℕ := 4096 * 1024

/-- `(bytes + align - 1) & ~(align - 1)`, for an alignment of eight. -/
def alignUp (bytes : ℕ) : ℕ := (bytes + 7) % 2 ^ 64 / 8 * 8

/-- A size rounded up to a multiple of eight. -/
def roundUp (bytes : ℕ) : ℕ := (bytes + 7) / 8 * 8

/-- `Arena::Block`: the size of its data, and the offset up to which it is taken. -/
structure ArenaBlock where
  size : ℕ
  offset : ℕ
  deriving DecidableEq

/-- **Where a call of `allocate` is.** Blocks are given by their place in `blocks_`. -/
inductive AllocPhase where
  | entered
  /-- About to add to the offset of the block it has loaded. -/
  | bump (b : ℕ)
  /-- About to take the lock, in `allocate_fallback`. -/
  | blocked
  | locked
  /-- About to try the current block again. -/
  | retry (b : ℕ)
  /-- There is no room. -/
  | full
  /-- Bytes of a new block are taken; it is yet to become the current one. -/
  | publish (b off : ℕ)
  | returned (b off : ℕ)
  deriving DecidableEq

/-- A call, with the size asked for. -/
structure AllocCall where
  bytes : ℕ
  phase : AllocPhase
  deriving DecidableEq

/-- **The arena and the calls on it.** -/
structure Arena where
  /-- `blocks_`, in the order they were made. -/
  blocks : List ArenaBlock := []
  current : Option ℕ := none
  /-- The call that holds `fallback_mutex_`. -/
  holder : Option ℕ := none
  bytesAllocated : ℕ := 0
  memoryUsage : ℕ := 0
  calls : List AllocCall := []
  /-- The sizes of all attempts to take bytes from a block, rounded up. -/
  bumped : ℕ := 0
  deriving DecidableEq

/-- A call is made, or one goes on. -/
inductive ArenaAction where
  | call (bytes : ℕ)
  | step (i : ℕ)

namespace Arena

/-- `block->offset.fetch_add`. -/
def fetchAdd (s : Arena) (b : ℕ) (blk : ArenaBlock) (bytes : ℕ) : Arena :=
  { s with
    blocks := s.blocks.set b { blk with offset := (blk.offset + alignUp bytes) % 2 ^ 64 }
    bumped := s.bumped + roundUp bytes }

/-- The test of what `fetch_add` returned. -/
def fits (blk : ArenaBlock) (bytes : ℕ) : Bool :=
  decide ((blk.offset + alignUp bytes) % 2 ^ 64 ≤ kBlockSize)

/-- Where a call is next. -/
def goto (s : Arena) (i : ℕ) (c : AllocCall) (phase : AllocPhase) : Arena :=
  { s with calls := s.calls.set i { c with phase := phase } }

/-- A block is made and registered. -/
def addBlock (s : Arena) (blk : ArenaBlock) : Arena :=
  { s with
    blocks := s.blocks ++ [blk]
    memoryUsage := (s.memoryUsage + blk.size + 8) % 2 ^ 64 }

/-- **A step of a call**, which is at the place given in the list. -/
def stepCall (s : Arena) (i : ℕ) (c : AllocCall) : Option Arena :=
  match c.phase with
  | .entered =>
    let s := { s with bytesAllocated := (s.bytesAllocated + alignUp c.bytes) % 2 ^ 64 }
    match s.current with
    | some b => some (s.goto i c (.bump b))
    | none => some (s.goto i c .blocked)
  | .bump b => do
    let blk ← s.blocks[b]?
    let s := s.fetchAdd b blk c.bytes
    if fits blk c.bytes then some (s.goto i c (.returned b blk.offset))
    else some (s.goto i c .blocked)
  | .blocked =>
    if s.holder = none then some ({ s with holder := some i }.goto i c .locked) else none
  | .locked =>
    match s.current with
    | some b => some (s.goto i c (.retry b))
    | none => some (s.goto i c .full)
  | .retry b => do
    let blk ← s.blocks[b]?
    let s := s.fetchAdd b blk c.bytes
    if fits blk c.bytes then some ({ s with holder := none }.goto i c (.returned b blk.offset))
    else some (s.goto i c .full)
  | .full =>
    let b := s.blocks.length
    if alignUp c.bytes > kBlockSize / 4 then
      -- `allocate_new_block`: the whole of it is taken
      let s := s.addBlock ⟨alignUp c.bytes, alignUp c.bytes⟩
      some ({ s with holder := none }.goto i c (.returned b 0))
    else
      let s := (s.addBlock ⟨kBlockSize, 0⟩).fetchAdd b ⟨kBlockSize, 0⟩ c.bytes
      some (s.goto i c (.publish b 0))
  | .publish b off => some ({ s with current := some b, holder := none }.goto i c (.returned b off))
  | .returned _ _ => none

/-- **One step.** A size is a number of 64 bits. -/
def step (s : Arena) : ArenaAction → Option Arena
  | .call bytes =>
    if bytes < 2 ^ 64 then some { s with calls := s.calls ++ [⟨bytes, .entered⟩] } else none
  | .step i => (s.calls[i]?).bind (s.stepCall i)

end Arena

/-! ## Sizes -/

/-- A size that can be rounded up in 64 bits. -/
theorem alignUp_of_lt {bytes : ℕ} (h : roundUp bytes < 2 ^ 64) :
    alignUp bytes = roundUp bytes ∧ bytes ≤ alignUp bytes := by
  unfold alignUp roundUp at *
  omega

/-- A size that wraps is rounded to nothing. -/
theorem le_alignUp_of_pos {bytes : ℕ} (hlt : bytes < 2 ^ 64) (hpos : 0 < alignUp bytes) :
    bytes ≤ alignUp bytes := by
  unfold alignUp at *
  omega

theorem dvd_alignUp (bytes : ℕ) : 8 ∣ alignUp bytes := Nat.dvd_mul_left _ _

/-! ## What a call has, and what it is at -/

namespace AllocPhase

/-- The bytes a call has taken: a block, and where they begin. -/
def region : AllocPhase → Option (ℕ × ℕ)
  | publish b off | returned b off => some (b, off)
  | _ => none

/-- The block whose offset a call is about to add to, or that it is about to publish. -/
def target : AllocPhase → Option ℕ
  | bump b => some b
  | retry b => some b
  | publish b _ => some b
  | _ => none

end AllocPhase

namespace Arena

/-- **What a step of a call can do.** -/
inductive Moves (s : Arena) (c : AllocCall) : List ArenaBlock → Option ℕ → ℕ → AllocPhase → Prop
  /-- No block is touched. -/
  | idle {phase : AllocPhase} (hregion : phase.region = none) (hnone : c.phase.region = none)
    (htarget : ∀ b, phase.target = some b → s.current = some b) :
    Moves s c s.blocks s.current s.bumped phase
  /-- Bytes are taken from a block. -/
  | take {b : ℕ} {blk : ArenaBlock} (htarget : c.phase.target = some b)
    (hblock : s.blocks[b]? = some blk) (hfits : fits blk c.bytes = true) :
    Moves s c (s.fetchAdd b blk c.bytes).blocks s.current (s.bumped + roundUp c.bytes)
      (.returned b blk.offset)
  /-- Bytes are asked of a block that has not got them. -/
  | miss {b : ℕ} {blk : ArenaBlock} {phase : AllocPhase} (htarget : c.phase.target = some b)
    (hblock : s.blocks[b]? = some blk) (hregion : phase.region = none)
    (hphase : phase.target = none) :
    Moves s c (s.fetchAdd b blk c.bytes).blocks s.current (s.bumped + roundUp c.bytes) phase
  /-- A block is made for the call alone. -/
  | bespoke (hsize : alignUp c.bytes > kBlockSize / 4) :
    Moves s c (s.blocks ++ [⟨alignUp c.bytes, alignUp c.bytes⟩]) s.current s.bumped
      (.returned s.blocks.length 0)
  /-- A new block is made, and its front taken. -/
  | fresh (hsize : alignUp c.bytes ≤ kBlockSize / 4) :
    Moves s c (s.blocks ++ [⟨kBlockSize, alignUp c.bytes⟩]) s.current
      (s.bumped + roundUp c.bytes) (.publish s.blocks.length 0)
  /-- It becomes the current one. -/
  | publish {b off : ℕ} (hphase : c.phase = .publish b off) :
    Moves s c s.blocks (some b) s.bumped (.returned b off)

theorem stepCall_moves {s s' : Arena} {i : ℕ} {c : AllocCall} (h : s.stepCall i c = some s') :
    ∃ phase, s'.calls = s.calls.set i { c with phase := phase }
      ∧ Moves s c s'.blocks s'.current s'.bumped phase := by
  unfold stepCall at h
  cases hp : c.phase with
  | entered =>
    rw [hp] at h
    dsimp only at h
    split at h
    · rename_i b hb
      cases h
      exact ⟨.bump b, rfl, .idle rfl (by rw [hp]; rfl) (fun x hx => Option.some.inj hx ▸ hb)⟩
    · cases h
      exact ⟨.blocked, rfl, .idle rfl (by rw [hp]; rfl) nofun⟩
  | bump b =>
    rw [hp] at h
    obtain ⟨blk, hblk, h⟩ := Option.bind_eq_some_iff.mp h
    split_ifs at h with hfits
    · cases h
      exact ⟨_, rfl, .take (by rw [hp]; rfl) hblk hfits⟩
    · cases h
      exact ⟨.blocked, rfl, .miss (by rw [hp]; rfl) hblk rfl rfl⟩
  | blocked =>
    rw [hp] at h
    dsimp only at h
    split_ifs at h
    cases h
    exact ⟨.locked, rfl, .idle rfl (by rw [hp]; rfl) nofun⟩
  | locked =>
    rw [hp] at h
    dsimp only at h
    split at h
    · rename_i b hb
      cases h
      exact ⟨.retry b, rfl, .idle rfl (by rw [hp]; rfl) (fun x hx => Option.some.inj hx ▸ hb)⟩
    · cases h
      exact ⟨.full, rfl, .idle rfl (by rw [hp]; rfl) nofun⟩
  | retry b =>
    rw [hp] at h
    obtain ⟨blk, hblk, h⟩ := Option.bind_eq_some_iff.mp h
    split_ifs at h with hfits
    · cases h
      exact ⟨_, rfl, .take (by rw [hp]; rfl) hblk hfits⟩
    · cases h
      exact ⟨.full, rfl, .miss (by rw [hp]; rfl) hblk rfl rfl⟩
  | full =>
    rw [hp] at h
    dsimp only at h
    split_ifs at h with hsize
    · cases h
      exact ⟨_, rfl, .bespoke hsize⟩
    · cases h
      have hmod : (0 + alignUp c.bytes) % 2 ^ 64 = alignUp c.bytes := by
        unfold kBlockSize at hsize
        omega
      have hblocks : (s.blocks ++ [ArenaBlock.mk kBlockSize 0]).set s.blocks.length
          ⟨kBlockSize, (0 + alignUp c.bytes) % 2 ^ 64⟩
            = s.blocks ++ [⟨kBlockSize, alignUp c.bytes⟩] := by
        rw [List.set_append_right _ _ le_rfl, Nat.sub_self, List.set_cons_zero, hmod]
      refine ⟨.publish s.blocks.length 0, rfl, ?_⟩
      have hfresh := Moves.fresh (s := s) (c := c) (not_lt.mp hsize)
      rw [← hblocks] at hfresh
      exact hfresh
  | publish b off =>
    rw [hp] at h
    cases h
    exact ⟨_, rfl, .publish hp⟩
  | returned b off =>
    rw [hp] at h
    cases h

/-! ## No byte twice -/

/-- A block that calls may still take bytes from: of the standard size, its offset no higher
than all that was asked for. -/
def Live (s : Arena) (b : ℕ) : Prop :=
  ∃ blk, s.blocks[b]? = some blk ∧ blk.size = kBlockSize ∧ blk.offset ≤ s.bumped

/-- A call has these bytes: they are in the block, below its offset. -/
structure Placed (s : Arena) (c : AllocCall) (b off : ℕ) : Prop where
  block : ∃ blk, s.blocks[b]? = some blk ∧ off + alignUp c.bytes ≤ blk.offset
    ∧ off + alignUp c.bytes ≤ blk.size
  bytes_le : c.bytes ≤ alignUp c.bytes
  aligned : 8 ∣ off

/-- **What holds of the arena**, as long as no offset wraps. -/
structure Good (s : Arena) : Prop where
  live : ∀ b, (s.current = some b ∨ ∃ c ∈ s.calls, c.phase.target = some b) → s.Live b
  aligned : ∀ blk ∈ s.blocks, 8 ∣ blk.offset
  sizes : ∀ c ∈ s.calls, c.bytes < 2 ^ 64
  placed : ∀ c ∈ s.calls, ∀ b off, c.phase.region = some (b, off) → s.Placed c b off
  apart : ∀ (i j : ℕ) (c d : AllocCall), s.calls[i]? = some c → s.calls[j]? = some d → i ≠ j →
    ∀ b off off',
    c.phase.region = some (b, off) → d.phase.region = some (b, off') →
      off + alignUp c.bytes ≤ off' ∨ off' + alignUp d.bytes ≤ off

theorem good_new : Good {} where
  live := by rintro b (h | ⟨c, hc, -⟩) <;> cases ‹_›
  aligned := List.forall_mem_nil _
  sizes := List.forall_mem_nil _
  placed := List.forall_mem_nil _
  apart i j c d h := by cases h

/-- **Offsets go up**, by no more than the total of what was asked for does. -/
def Grows (s s' : Arena) : Prop :=
  ∀ (b : ℕ) (blk : ArenaBlock), s.blocks[b]? = some blk →
    ∃ blk', s'.blocks[b]? = some blk' ∧ blk'.size = blk.size
    ∧ blk.offset ≤ blk'.offset ∧ blk'.offset + s.bumped ≤ blk.offset + s'.bumped

variable {s s' : Arena} {c : AllocCall} {phase : AllocPhase} {blk : ArenaBlock}

theorem Live.mono {b : ℕ} (hlive : s.Live b) (h : Grows s s') : s'.Live b := by
  obtain ⟨blk, hblk, hsize, hoff⟩ := hlive
  obtain ⟨blk', hblk', hsize', -, hoff'⟩ := h b blk hblk
  exact ⟨blk', hblk', hsize'.trans hsize, by omega⟩

theorem Placed.mono {b off : ℕ} (hplaced : s.Placed c b off) (h : Grows s s') :
    s'.Placed c b off := by
  obtain ⟨blk, hblk, hoff, hsize⟩ := hplaced.block
  obtain ⟨blk', hblk', hsize', hle, -⟩ := h b blk hblk
  exact ⟨⟨blk', hblk', by omega, by omega⟩, hplaced.bytes_le, hplaced.aligned⟩

/-- **A call goes on**: it keeps what it has, or takes bytes at or above the offset. -/
theorem Good.goto (h : Good s) (hgrows : Grows s s') {i : ℕ} (hc : s.calls[i]? = some c)
    (hcalls : s'.calls = s.calls.set i { c with phase := phase })
    (hlive : ∀ b, s'.current = some b ∨ phase.target = some b → s'.Live b)
    (haligned : ∀ blk ∈ s'.blocks, 8 ∣ blk.offset)
    (hregion : ∀ b off, phase.region = some (b, off) → s'.Placed c b off
      ∧ (c.phase.region = some (b, off)
        ∨ ∀ blk : ArenaBlock, s.blocks[b]? = some blk → blk.offset ≤ off)) :
    Good s' := by
  have hmem : c ∈ s.calls := List.mem_of_getElem? hc
  -- the bytes of the call that goes on and those of another
  have hother : ∀ (j : ℕ) (d : AllocCall), s.calls[j]? = some d → i ≠ j → ∀ b off off',
      phase.region = some (b, off) → d.phase.region = some (b, off') →
      off + alignUp c.bytes ≤ off' ∨ off' + alignUp d.bytes ≤ off := by
    intro j d hd hij b off off' hoff hoff'
    rcases (hregion b off hoff).2 with hsame | hnew
    · exact h.apart i j c d hc hd hij b off off' hsame hoff'
    · obtain ⟨blk, hblk, hle, -⟩ := (h.placed d (List.mem_of_getElem? hd) b off' hoff').block
      exact Or.inr (hle.trans (hnew blk hblk))
  refine ⟨fun b hb => ?_, haligned, fun d hd => ?_, fun d hd b off hoff => ?_,
    fun j k d e hd he hjk b off off' hoff hoff' => ?_⟩
  · rcases hb with hb | ⟨d, hd, hb⟩
    · exact hlive b (Or.inl hb)
    · rw [hcalls] at hd
      rcases List.mem_or_eq_of_mem_set hd with hd | rfl
      · exact (h.live b (Or.inr ⟨d, hd, hb⟩)).mono hgrows
      · exact hlive b (Or.inr hb)
  · rw [hcalls] at hd
    rcases List.mem_or_eq_of_mem_set hd with hd | rfl
    · exact h.sizes d hd
    · exact h.sizes c hmem
  · rw [hcalls] at hd
    rcases List.mem_or_eq_of_mem_set hd with hd | rfl
    · exact (h.placed d hd b off hoff).mono hgrows
    · obtain ⟨hblock, hle, hdvd⟩ := (hregion b off hoff).1
      exact ⟨hblock, hle, hdvd⟩
  · have hset : ∀ {x : AllocCall}, s'.calls[i]? = some x → x = { c with phase := phase } := by
      intro x hx
      rw [hcalls, List.getElem?_set_self (List.getElem?_eq_some_iff.mp hc).1] at hx
      exact (Option.some.inj hx).symm
    have hold : ∀ {k : ℕ} {x : AllocCall}, i ≠ k → s'.calls[k]? = some x →
        s.calls[k]? = some x := by
      intro k x hik hx
      rwa [hcalls, List.getElem?_set_ne hik] at hx
    by_cases hj : i = j
    · subst hj
      obtain rfl := hset hd
      exact hother k e (hold hjk he) hjk b off off' hoff hoff'
    · by_cases hk : i = k
      · subst hk
        obtain rfl := hset he
        exact (hother j d (hold hj hd) hj b off' off hoff' hoff).symm
      · exact h.apart j k d e (hold hj hd) (hold hk he) hjk b off off' hoff hoff'

theorem grows_of_eq (hblocks : s'.blocks = s.blocks) (hbumped : s'.bumped = s.bumped) :
    Grows s s' := by
  intro b blk hblk
  exact ⟨blk, by rw [hblocks, hblk], rfl, le_rfl, by rw [hbumped]⟩

theorem grows_of_append {new : ArenaBlock} (hblocks : s'.blocks = s.blocks ++ [new])
    (hbumped : s.bumped ≤ s'.bumped) : Grows s s' := by
  intro b blk hblk
  refine ⟨blk, ?_, rfl, le_rfl, by omega⟩
  rw [hblocks, List.getElem?_append_left (List.getElem?_eq_some_iff.mp hblk).1, hblk]

/-- **`fetch_add` adds**, for a block that is live. -/
theorem Live.fetchAdd {b : ℕ} (hlive : s.Live b) (hblk : s.blocks[b]? = some blk)
    (hbumped : s.bumped + roundUp c.bytes < 2 ^ 64) :
    (blk.offset + alignUp c.bytes) % 2 ^ 64 = blk.offset + alignUp c.bytes
      ∧ alignUp c.bytes = roundUp c.bytes ∧ c.bytes ≤ alignUp c.bytes ∧ blk.size = kBlockSize := by
  obtain ⟨blk', hblk', hsize, hoff⟩ := hlive
  obtain rfl : blk' = blk := Option.some.inj (hblk'.symm.trans hblk)
  obtain ⟨hround, hle⟩ := alignUp_of_lt (lt_of_le_of_lt (Nat.le_add_left _ _) hbumped)
  exact ⟨Nat.mod_eq_of_lt (by omega), hround, hle, hsize⟩

theorem grows_of_fetchAdd {b : ℕ} (hlive : s.Live b) (hblk : s.blocks[b]? = some blk)
    (hlt : s.bumped + roundUp c.bytes < 2 ^ 64)
    (hblocks : s'.blocks = (s.fetchAdd b blk c.bytes).blocks)
    (hbumped : s'.bumped = s.bumped + roundUp c.bytes) :
    Grows s s' ∧ s'.blocks[b]? = some { blk with offset := blk.offset + alignUp c.bytes } := by
  obtain ⟨hadd, hround, -, -⟩ := hlive.fetchAdd hblk hlt
  have hself : s'.blocks[b]? = some { blk with offset := blk.offset + alignUp c.bytes } := by
    rw [hblocks, Arena.fetchAdd]
    dsimp only
    rw [List.getElem?_set_self (List.getElem?_eq_some_iff.mp hblk).1, hadd]
  refine ⟨fun x blk' hblk' => ?_, hself⟩
  by_cases hx : b = x
  · subst hx
    obtain rfl : blk = blk' := Option.some.inj (hblk.symm.trans hblk')
    exact ⟨_, hself, rfl, Nat.le_add_right _ _, by dsimp only; omega⟩
  · refine ⟨blk', ?_, rfl, le_rfl, by omega⟩
    rw [hblocks, Arena.fetchAdd]
    dsimp only
    rw [List.getElem?_set_ne hx, hblk']

theorem aligned_fetchAdd (h : ∀ blk ∈ s.blocks, 8 ∣ blk.offset) {b : ℕ}
    (hblk : s.blocks[b]? = some blk) (bytes : ℕ) :
    ∀ blk' ∈ (s.fetchAdd b blk bytes).blocks, 8 ∣ blk'.offset := by
  intro blk' hmem
  rcases List.mem_or_eq_of_mem_set hmem with hmem | rfl
  · exact h blk' hmem
  · have hoff := h blk (List.mem_of_getElem? hblk)
    have hbytes := dvd_alignUp bytes
    dsimp only
    omega

theorem aligned_append (h : ∀ blk ∈ s.blocks, 8 ∣ blk.offset) {new : ArenaBlock}
    (hnew : 8 ∣ new.offset) : ∀ blk ∈ s.blocks ++ [new], 8 ∣ blk.offset := by
  intro blk hmem
  rcases List.mem_append.mp hmem with hmem | hmem
  · exact h blk hmem
  · rw [List.mem_singleton.mp hmem]
    exact hnew

/-- What is current stays live, and what a call goes on to has to be. -/
theorem Good.live_of_grows (h : Good s) (hgrows : Grows s s') (hcurrent : s'.current = s.current)
    (hphase : ∀ b, phase.target = some b → s'.Live b) :
    ∀ b, s'.current = some b ∨ phase.target = some b → s'.Live b := by
  rintro b (hb | hb)
  · exact (h.live b (Or.inl (hcurrent ▸ hb))).mono hgrows
  · exact hphase b hb

/-- **The front of a new block** is in it, and no other call has a byte there. -/
theorem placed_new {size : ℕ} (hblocks : s'.blocks = s.blocks ++ [⟨size, alignUp c.bytes⟩])
    (hsize : alignUp c.bytes ≤ size) (hle : c.bytes ≤ alignUp c.bytes) :
    s'.Placed c s.blocks.length 0
      ∧ ∀ blk : ArenaBlock, s.blocks[s.blocks.length]? = some blk → blk.offset ≤ 0 := by
  have hself : s'.blocks[s.blocks.length]? = some ⟨size, alignUp c.bytes⟩ := by
    rw [hblocks, List.getElem?_concat_length]
  refine ⟨⟨⟨_, hself, (Nat.zero_add _).le, (Nat.zero_add _).trans_le hsize⟩, hle,
    Nat.dvd_zero 8⟩, fun blk hblk => ?_⟩
  rw [List.getElem?_eq_none le_rfl] at hblk
  cases hblk

/-- **Every step of a call keeps it so.** -/
theorem Good.stepCall (h : Good s) {i : ℕ} (hc : s.calls[i]? = some c)
    (hs : s.stepCall i c = some s') (hlt : s'.bumped < 2 ^ 64) : Good s' := by
  obtain ⟨phase, hcalls, hmoves⟩ := stepCall_moves hs
  have hmem : c ∈ s.calls := List.mem_of_getElem? hc
  generalize hblocks : s'.blocks = blocks at hmoves
  generalize hcurrent : s'.current = current at hmoves
  generalize hbumped : s'.bumped = bumped at hmoves
  cases hmoves with
  | idle hregion hnone htarget =>
    have hgrows := grows_of_eq hblocks hbumped
    refine h.goto hgrows hc hcalls (fun b hb => ?_) (by rw [hblocks]; exact h.aligned)
      (fun b off hoff => by rw [hregion] at hoff; cases hoff)
    refine (h.live b (Or.inl ?_)).mono hgrows
    exact hb.elim (fun hb => hcurrent ▸ hb) (htarget b)
  | @publish b off hphase =>
    have hgrows := grows_of_eq hblocks hbumped
    refine h.goto hgrows hc hcalls (fun x hx => ?_) (by rw [hblocks]; exact h.aligned) ?_
    · obtain rfl : b = x := by
        rcases hx with hx | hx
        · exact Option.some.inj (hcurrent.symm.trans hx)
        · cases hx
      exact (h.live b (Or.inr ⟨c, hmem, by rw [hphase]; rfl⟩)).mono hgrows
    · rintro x y ⟨⟩
      have hregion : c.phase.region = some (b, off) := by rw [hphase]; rfl
      exact ⟨(h.placed c hmem b off hregion).mono hgrows, Or.inl hregion⟩
  | @take b blk htarget hblk hfits =>
    have hlive := h.live b (Or.inr ⟨c, hmem, htarget⟩)
    rw [hbumped] at hlt
    obtain ⟨hadd, -, hle, hsize⟩ := hlive.fetchAdd hblk hlt
    obtain ⟨hgrows, hself⟩ := grows_of_fetchAdd hlive hblk hlt hblocks hbumped
    refine h.goto hgrows hc hcalls (h.live_of_grows hgrows hcurrent nofun)
      (by rw [hblocks]; exact aligned_fetchAdd h.aligned hblk c.bytes) ?_
    rintro x y ⟨⟩
    have hroom : blk.offset + alignUp c.bytes ≤ blk.size := by
      rw [← hadd, hsize]
      exact of_decide_eq_true hfits
    refine ⟨⟨⟨_, hself, le_rfl, hroom⟩, hle, h.aligned blk (List.mem_of_getElem? hblk)⟩,
      Or.inr (fun blk' hblk' => ?_)⟩
    rw [Option.some.inj (hblk'.symm.trans hblk)]
  | @miss b blk _ htarget hblk hregion hphase =>
    have hlive := h.live b (Or.inr ⟨c, hmem, htarget⟩)
    rw [hbumped] at hlt
    obtain ⟨hgrows, -⟩ := grows_of_fetchAdd hlive hblk hlt hblocks hbumped
    exact h.goto hgrows hc hcalls
      (h.live_of_grows hgrows hcurrent (fun x hx => by rw [hphase] at hx; cases hx))
      (by rw [hblocks]; exact aligned_fetchAdd h.aligned hblk c.bytes)
      (fun x off hoff => by rw [hregion] at hoff; cases hoff)
  | bespoke hsize =>
    have hgrows := grows_of_append hblocks hbumped.ge
    refine h.goto hgrows hc hcalls (h.live_of_grows hgrows hcurrent nofun)
      (by rw [hblocks]; exact aligned_append h.aligned (dvd_alignUp _)) ?_
    rintro x y ⟨⟩
    have hle : c.bytes ≤ alignUp c.bytes := le_alignUp_of_pos (h.sizes c hmem) (by omega)
    obtain ⟨hplaced, hfront⟩ := placed_new hblocks le_rfl hle
    exact ⟨hplaced, Or.inr hfront⟩
  | fresh hsize =>
    rw [hbumped] at hlt
    obtain ⟨hround, hle⟩ := alignUp_of_lt (lt_of_le_of_lt (Nat.le_add_left _ _) hlt)
    have hgrows := grows_of_append hblocks (hbumped ▸ Nat.le_add_right _ _)
    have hself : s'.blocks[s.blocks.length]? = some ⟨kBlockSize, alignUp c.bytes⟩ := by
      rw [hblocks, List.getElem?_concat_length]
    refine h.goto hgrows hc hcalls (h.live_of_grows hgrows hcurrent (fun x hx => ?_))
      (by rw [hblocks]; exact aligned_append h.aligned (dvd_alignUp _)) ?_
    · cases hx
      exact ⟨_, hself, rfl, by dsimp only; omega⟩
    · rintro x y ⟨⟩
      obtain ⟨hplaced, hfront⟩ :=
        placed_new hblocks (hsize.trans (Nat.div_le_self kBlockSize 4)) hle
      exact ⟨hplaced, Or.inr hfront⟩

theorem Moves.bumped_le {blocks : List ArenaBlock} {current : Option ℕ} {bumped : ℕ}
    (h : Moves s c blocks current bumped phase) : s.bumped ≤ bumped := by
  cases h <;> omega

/-- A call is made. -/
theorem Good.call (h : Good s) {bytes : ℕ} (hbytes : bytes < 2 ^ 64) :
    Good { s with calls := s.calls ++ [⟨bytes, .entered⟩] } := by
  have hmem : ∀ {d : AllocCall}, d ∈ s.calls ++ [⟨bytes, .entered⟩] →
      d ∈ s.calls ∨ d = ⟨bytes, .entered⟩ := fun hd =>
    (List.mem_append.mp hd).imp id List.mem_singleton.mp
  have hget : ∀ {k : ℕ} {d : AllocCall}, (s.calls ++ [⟨bytes, .entered⟩])[k]? = some d →
      s.calls[k]? = some d ∨ d = ⟨bytes, .entered⟩ := by
    intro k d hd
    rcases Nat.lt_or_ge k s.calls.length with hlt | hge
    · rw [List.getElem?_append_left hlt] at hd
      exact Or.inl hd
    · rw [List.getElem?_append_right hge] at hd
      exact Or.inr (List.mem_singleton.mp (List.mem_of_getElem? hd))
  refine ⟨fun b hb => ?_, h.aligned, fun d hd => ?_, fun d hd b off hoff => ?_,
    fun i j d e hd he hij b off off' hoff hoff' => ?_⟩
  · rcases hb with hb | ⟨d, hd, hb⟩
    · exact h.live b (Or.inl hb)
    · rcases hmem hd with hd | rfl
      · exact h.live b (Or.inr ⟨d, hd, hb⟩)
      · cases hb
  · rcases hmem hd with hd | rfl
    · exact h.sizes d hd
    · exact hbytes
  · rcases hmem hd with hd | rfl
    · obtain ⟨hblock, hle, hdvd⟩ := h.placed d hd b off hoff
      exact ⟨hblock, hle, hdvd⟩
    · cases hoff
  · rcases hget hd with hd | rfl
    · rcases hget he with he | rfl
      · exact h.apart i j d e hd he hij b off off' hoff hoff'
      · cases hoff'
    · cases hoff

/-- **Every step keeps it so**, as long as the sizes add up to less than `2 ^ 64`. -/
theorem good_step {a : ArenaAction} (h : s.bumped < 2 ^ 64 → Good s) (hs : s.step a = some s')
    (hlt : s'.bumped < 2 ^ 64) : Good s' := by
  cases a with
  | call bytes =>
    rw [step] at hs
    split_ifs at hs with hbytes
    cases hs
    exact (h hlt).call hbytes
  | step i =>
    obtain ⟨c, hc, hstep⟩ := Option.bind_eq_some_iff.mp hs
    obtain ⟨phase, -, hmoves⟩ := stepCall_moves hstep
    exact (h (lt_of_le_of_lt hmoves.bumped_le hlt)).stepCall hc hstep hlt

/-- **Allocations are disjoint.** For calls on a new arena, in any order of their steps, such that
the sizes of all attempts, rounded up, add up to less than `2 ^ 64`: the bytes that a call returns
are in a block, from a multiple of eight on, and no two calls return a byte in common. -/
theorem returned_disjoint {actions : List ArenaAction} (hrun : runSteps step {} actions = some s)
    (hbumped : s.bumped < 2 ^ 64) :
    (∀ (i : ℕ) (c : AllocCall) (b off : ℕ), s.calls[i]? = some c → c.phase = .returned b off →
      8 ∣ off ∧ ∃ blk : ArenaBlock, s.blocks[b]? = some blk ∧ off + c.bytes ≤ blk.size)
    ∧ ∀ (i j : ℕ) (c d : AllocCall) (b off off' : ℕ), i ≠ j → s.calls[i]? = some c →
      s.calls[j]? = some d → c.phase = .returned b off → d.phase = .returned b off' →
      off + c.bytes ≤ off' ∨ off' + d.bytes ≤ off := by
  have hgood : s.bumped < 2 ^ 64 → Good s :=
    invariant_of_run (fun _ _ _ hu hs hlt => good_step hu hs hlt) (fun _ => good_new) hrun
  have h := hgood hbumped
  have hplaced : ∀ {i : ℕ} {c : AllocCall} {b off : ℕ}, s.calls[i]? = some c →
      c.phase = .returned b off → s.Placed c b off := fun hc hp =>
    h.placed _ (List.mem_of_getElem? hc) _ _ (by rw [hp]; rfl)
  constructor
  · intro i c b off hc hp
    obtain ⟨⟨blk, hblk, -, hsize⟩, hle, hdvd⟩ := hplaced hc hp
    exact ⟨hdvd, blk, hblk, by omega⟩
  · intro i j c d b off off' hij hc hd hp hp'
    have hle := (hplaced hc hp).bytes_le
    have hle' := (hplaced hd hp').bytes_le
    have hapart := h.apart i j c d hc hd hij b off off' (by rw [hp]; rfl) (by rw [hp']; rfl)
    omega

/-- A call that makes the first block, one that finds room in it, and one that does not and is
given a block of its own. -/
def threeCalls : List ArenaAction :=
  [.call 10, .call 4194304, .step 0, .step 0, .step 0, .step 0, .call 5, .step 0, .step 2,
    .step 1, .step 2, .step 1, .step 1, .step 1, .step 1, .step 1]

theorem returned_disjoint_threeCalls :
    ∃ s, runSteps step {} threeCalls = some s ∧ s.bumped < 2 ^ 64
      ∧ s.calls = [⟨10, .returned 0 0⟩, ⟨4194304, .returned 1 0⟩, ⟨5, .returned 0 16⟩]
      ∧ ((0 : ℕ) + 10 ≤ 16 ∨ 16 + 5 ≤ 0) := by
  have hrun : (runSteps step {} threeCalls).map (fun s => (s.calls, decide (s.bumped < 2 ^ 64)))
      = some ([⟨10, .returned 0 0⟩, ⟨4194304, .returned 1 0⟩, ⟨5, .returned 0 16⟩], true) := by
    decide +kernel
  obtain ⟨s, hs, heq⟩ := Option.map_eq_some_iff.mp hrun
  obtain ⟨hcalls, hlt⟩ := Prod.mk.inj heq
  have hbumped := of_decide_eq_true hlt
  exact ⟨s, hs, hbumped, hcalls, (returned_disjoint hs hbumped).2 0 2 _ _ 0 0 16 (by decide)
    (by rw [hcalls]; rfl) (by rw [hcalls]; rfl) rfl rfl⟩

end Arena
