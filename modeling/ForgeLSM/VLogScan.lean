import ForgeLSM.Engine

/-!
# Scanning a value log

The garbage collector reads a value log from its start, record by record, and
each header says where the next record is. Two things are asked of such a scan.

The first is that it finds what was appended. A pointer is made from the offset
counter and the length of the buffer, while the scan finds the record by adding
up the sizes in front of it. The two agree whatever the appends were grouped
into writes by, and over every reopening, but the scan sees the file only:
`VLogCalls.scan_matches_iff` – what was appended is what is scanned exactly when
nothing is left in the buffer.

The second is that a crash does no harm. A record cut short stays in the file, the
log is reopened at the end of the file, and the records that follow it stand
behind bytes that are no record. The scan takes these bytes for a header and
goes on past the record behind them, so that it is never visited:
`KVStore.gc_reaches_iff`.
-/

variable {p : VRecord × VLogPointer}

namespace VLog

/-! ## The loop -/

/-- The loop over `read_next` from an offset on, for so many rounds: the records
read, each with its pointer. -/
def scanFrom (fileId : ℕ) (l : VLog) : ℕ → ℕ → List (VRecord × VLogPointer)
  | 0, _ => []
  | fuel + 1, offset =>
    match l.readNext offset with
    | none => []
    | some (r, next) =>
      (r, ⟨fileId, offset + 8 + r.1.length, r.2.length⟩) :: scanFrom fileId l fuel next

/-- The loop from an offset to its end. A round moves on, so that there are not
more rounds than bytes. -/
def scanAt (fileId : ℕ) (l : VLog) (offset : ℕ) : List (VRecord × VLogPointer) :=
  scanFrom fileId l (l.file.length + 1 - offset) offset

/-- **The scan of a value log**, from its start. -/
def scan (fileId : ℕ) (l : VLog) : List (VRecord × VLogPointer) := scanAt fileId l 0

/-- Records from an offset on, each with the pointer that leads to it. -/
def pointersFrom (fileId : ℕ) : ℕ → List VRecord → List (VRecord × VLogPointer)
  | _, [] => []
  | offset, r :: rs =>
    (r, ⟨fileId, offset + 8 + r.1.length, r.2.length⟩)
      :: pointersFrom fileId (offset + (8 + r.1.length + r.2.length)) rs

variable {fileId : ℕ} {l : VLog} {rs : List VRecord}

/-- What `read_next` reads is in the file, and it moves on behind it. -/
theorem readNext_eq_some {offset next : ℕ} {r : VRecord} (h : l.readNext offset = some (r, next)) :
    next = offset + (8 + r.1.length + r.2.length) ∧ next ≤ l.file.length := by
  unfold readNext at h
  split at h
  · cases h
  · rename_i headers hheaders
    have hh := pread_eq_some hheaders
    dsimp only at h
    split at h
    · rename_i key value hkey hvalue
      cases h
      have hk := pread_eq_some hkey
      have hv := pread_eq_some hvalue
      dsimp only
      omega
    · cases h

theorem scanFrom_eq {n m offset : ℕ} (hn : l.file.length < offset + n)
    (hm : l.file.length < offset + m) :
    scanFrom fileId l n offset = scanFrom fileId l m offset := by
  induction n generalizing m offset with
  | zero =>
    -- the offset is past the end of the file, and nothing is read there
    cases m with
    | zero => rfl
    | succ m =>
      unfold scanFrom
      cases h : l.readNext offset with
      | none => rfl
      | some p =>
        have hnext := readNext_eq_some h
        omega
  | succ n ih =>
    cases m with
    | zero =>
      unfold scanFrom
      cases h : l.readNext offset with
      | none => rfl
      | some p =>
        have hnext := readNext_eq_some h
        omega
    | succ m =>
      unfold scanFrom
      cases h : l.readNext offset with
      | none => rfl
      | some p =>
        have hnext := readNext_eq_some h
        have hrest : scanFrom fileId l n p.2 = scanFrom fileId l m p.2 := ih (by omega) (by omega)
        simp only [hrest]

/-- Where nothing is read, the scan ends. -/
theorem scanAt_of_none {offset : ℕ} (h : l.readNext offset = none) :
    scanAt fileId l offset = [] := by
  unfold scanAt
  cases l.file.length + 1 - offset with
  | zero => rfl
  | succ n => rw [scanFrom, h]

/-- A record is read, and the scan goes on behind it. -/
theorem scanAt_of_some {offset next : ℕ} {r : VRecord} (h : l.readNext offset = some (r, next)) :
    scanAt fileId l offset
      = (r, ⟨fileId, offset + 8 + r.1.length, r.2.length⟩) :: scanAt fileId l next := by
  have hnext := readNext_eq_some h
  have hfuel : l.file.length + 1 - offset = (l.file.length - offset) + 1 := by omega
  unfold scanAt
  rw [hfuel, scanFrom, h]
  dsimp only
  rw [scanFrom_eq (by omega) (by omega : l.file.length < next + (l.file.length + 1 - next))]

/-- **How a scan goes on**, as a rule of induction: it ends, or it reads a record
and goes on behind it. -/
theorem scanAt_induction {motive : ℕ → Prop} (l : VLog)
    (stop : ∀ offset, l.readNext offset = none → motive offset)
    (record : ∀ offset r next, l.readNext offset = some (r, next) → motive next → motive offset)
    (offset : ℕ) : motive offset := by
  induction hn : l.file.length + 1 - offset using Nat.strong_induction_on generalizing offset with
  | _ n ih =>
    cases h : l.readNext offset with
    | none => exact stop offset h
    | some p =>
      have hnext := readNext_eq_some h
      exact record offset p.1 p.2 h (ih _ (by omega) p.2 rfl)

/-- What a scan from an offset visits lies behind the offset and in the file. -/
theorem range_of_mem_scanAt {offset : ℕ} (hp : p ∈ scanAt fileId l offset) :
    offset + 8 + p.1.1.length ≤ p.2.offset ∧ p.2.offset + p.2.length ≤ l.file.length := by
  induction offset using scanAt_induction l with
  | stop offset h =>
    rw [scanAt_of_none h] at hp
    cases hp
  | record offset r next h ih =>
    have hnext := readNext_eq_some h
    rw [scanAt_of_some h] at hp
    rcases List.mem_cons.mp hp with rfl | hp
    · dsimp only
      omega
    · have hrest := ih hp
      omega

/-- **A scan over whole records** visits each with its pointer, and goes on behind
them. -/
theorem scanAt_records (fileId : ℕ) (hrs : ∀ r ∈ rs, FitsRecord r) (front back : List Byte)
    (hfile : l.file = front ++ (rs.flatMap encodeRecord ++ back)) :
    scanAt fileId l front.length
      = pointersFrom fileId front.length rs
        ++ scanAt fileId l (front ++ rs.flatMap encodeRecord).length := by
  induction rs generalizing front with
  | nil =>
    rw [List.flatMap_nil, List.append_nil]
    rfl
  | cons r rs ih =>
    have hr := hrs r List.mem_cons_self
    rw [List.flatMap_cons, List.append_assoc] at hfile
    have hread := readNext_encodeRecord front _ hfile hr
    rw [← List.append_assoc] at hfile
    have hrest := ih (fun q hq => hrs q (List.mem_cons_of_mem r hq)) (front ++ encodeRecord r) hfile
    rw [List.length_append, hr.length_encodeRecord] at hrest
    rw [scanAt_of_some hread, pointersFrom, hr.length_encodeRecord, hrest, List.flatMap_cons,
      List.append_assoc, List.cons_append]

/-- The pointers of records lead in between the bytes of these. -/
theorem range_of_mem_pointersFrom {offset : ℕ} (hrs : ∀ r ∈ rs, FitsRecord r)
    (hp : p ∈ pointersFrom fileId offset rs) :
    p.2.offset + p.2.length ≤ offset + (rs.flatMap encodeRecord).length := by
  induction rs generalizing offset with
  | nil => cases hp
  | cons r rs ih =>
    rw [List.flatMap_cons, List.length_append, (hrs r List.mem_cons_self).length_encodeRecord]
    rcases List.mem_cons.mp hp with rfl | hp
    · dsimp only
      omega
    · have hrest := ih (fun q hq => hrs q (List.mem_cons_of_mem r hq)) hp
      omega

theorem pointersFrom_append (hrs : ∀ r ∈ rs, FitsRecord r) (offset : ℕ) (us : List VRecord) :
    pointersFrom fileId offset (rs ++ us)
      = pointersFrom fileId offset rs
        ++ pointersFrom fileId (offset + (rs.flatMap encodeRecord).length) us := by
  induction rs generalizing offset with
  | nil => rfl
  | cons r rs ih =>
    rw [List.cons_append, pointersFrom, pointersFrom, List.flatMap_cons, List.length_append,
      (hrs r List.mem_cons_self).length_encodeRecord, List.cons_append,
      ih (fun q hq => hrs q (List.mem_cons_of_mem r hq)),
      Nat.add_assoc offset (8 + r.1.length + r.2.length)]

/-- The pointers of whole records are good. -/
theorem recordAt_of_mem_pointersFrom {bytes : List Byte} (pre : List VRecord)
    (hbytes : bytes = (pre ++ rs).flatMap encodeRecord) (hfit : ∀ r ∈ pre ++ rs, FitsRecord r)
    (hp : p ∈ pointersFrom fileId (pre.flatMap encodeRecord).length rs) :
    RecordAt bytes p.2 p.1 := by
  induction rs generalizing pre with
  | nil => cases hp
  | cons r rs ih =>
    rcases List.mem_cons.mp hp with rfl | hp
    · exact ⟨pre, rs, hbytes, hfit, rfl, rfl⟩
    · have hr : FitsRecord r := hfit r (by simp)
      have hsplit : pre ++ r :: rs = (pre ++ [r]) ++ rs := by simp
      refine ih (pre ++ [r]) (hsplit ▸ hbytes) (hsplit ▸ hfit) ?_
      rwa [List.flatMap_append, List.length_append, List.flatMap_singleton,
        hr.length_encodeRecord]

/-- A file of whole records is scanned to its end. -/
theorem scan_records (hrs : ∀ r ∈ rs, FitsRecord r) (hfile : l.file = rs.flatMap encodeRecord) :
    scan fileId l = pointersFrom fileId 0 rs := by
  have hend : scanAt fileId l ([] ++ rs.flatMap encodeRecord).length = [] := by
    rw [List.nil_append, ← hfile]
    exact scanAt_of_none (readNext_end l)
  refine (scanAt_records fileId hrs [] [] (by rw [hfile]; simp)).trans ?_
  rw [hend, List.append_nil]
  rfl

end VLog

/-! ## What was appended -/

/-- A call on a value log. -/
inductive VLogCall where
  | append (key : Key) (value : Value)
  | sync
  /-- `close_files`, and a new `VLog` on the file. -/
  | reopen
  deriving DecidableEq

/-- A value log with what the appends returned, in order. -/
structure VLogCalls where
  log : VLog := {}
  returned : List (VRecord × VLogPointer) := []
  deriving DecidableEq

namespace VLogCalls

/-- A call on the log with a number. -/
def call (fileId : ℕ) (s : VLogCalls) : VLogCall → VLogCalls
  | .append key value =>
    let p := s.log.append fileId key value
    ⟨p.2, s.returned ++ [((key, value), p.1)]⟩
  | .sync => { s with log := s.log.sync }
  | .reopen => { s with log := VLog.openFile s.log.sync.file }

/-- A sequence of calls on a new file. -/
def calls (fileId : ℕ) (cs : List VLogCall) : VLogCalls := cs.foldl (call fileId) {}

end VLogCalls

/-- The record of an append fits the 32-bit arithmetic of its header. -/
def VLogCall.Fits : VLogCall → Prop
  | .append key value => VLog.FitsRecord (key, value)
  | .sync | .reopen => True

instance (c : VLogCall) : Decidable c.Fits := by
  cases c <;> unfold VLogCall.Fits <;> infer_instance

namespace VLogCalls

open VLog

/-- **What holds after every call**: what the log holds is the records appended,
and what was returned are their pointers. -/
structure Inv (fileId : ℕ) (s : VLogCalls) : Prop where
  consistent : s.log.Consistent
  fits : ∀ p ∈ s.returned, FitsRecord p.1
  content : s.log.content = (s.returned.map Prod.fst).flatMap encodeRecord
  returned : s.returned = pointersFrom fileId 0 (s.returned.map Prod.fst)

theorem Inv.fits_map {fileId : ℕ} {s : VLogCalls} (h : Inv fileId s) :
    ∀ r ∈ s.returned.map Prod.fst, FitsRecord r := by
  intro r hr
  obtain ⟨p, hp, rfl⟩ := List.mem_map.mp hr
  exact h.fits p hp

/-- A call keeps the invariant. -/
theorem Inv.call {fileId : ℕ} {s : VLogCalls} (h : Inv fileId s) {c : VLogCall} (hc : c.Fits) :
    Inv fileId (s.call fileId c) := by
  cases c with
  | append key value =>
    have hsize : key.length < 2 ^ 32 ∧ value.length < 2 ^ 32 := by
      have : 8 + key.length + value.length < 2 ^ 32 := hc
      omega
    refine ⟨h.consistent.append fileId key value, ?_, ?_, ?_⟩
    · intro p hp
      rcases List.mem_append.mp hp with hp | hp
      · exact h.fits p hp
      · rw [List.mem_singleton.mp hp]
        exact hc
    · show (s.log.append fileId key value).2.content = _
      rw [content_append, h.content]
      simp [VLogCalls.call]
    · -- the offset counter and the buffer together are the bytes in front
      have hoff : s.log.currentOffset + s.log.buffer.length
          = 0 + ((s.returned.map Prod.fst).flatMap encodeRecord).length := by
        rw [← h.content, VLog.content, List.length_append, h.consistent, Nat.zero_add]
      have hptr : ((key, value), (s.log.append fileId key value).1)
          = ((key, value), (⟨fileId, 0 + ((s.returned.map Prod.fst).flatMap encodeRecord).length
              + 8 + key.length, value.length⟩ : VLogPointer)) := by
        rw [← hoff, VLog.append, u32_of_lt hsize.1, u32_of_lt hsize.2]
      show s.returned ++ [((key, value), (s.log.append fileId key value).1)]
        = pointersFrom fileId 0
          ((s.returned ++ [((key, value), (s.log.append fileId key value).1)]).map Prod.fst)
      rw [List.map_append, List.map_singleton, pointersFrom_append h.fits_map, ← h.returned, hptr]
      rfl
  | sync =>
    exact ⟨h.consistent.sync, h.fits, (content_sync s.log).trans h.content, h.returned⟩
  | reopen =>
    exact ⟨rfl, h.fits, (List.append_nil _).trans h.content, h.returned⟩

theorem inv_calls (fileId : ℕ) {cs : List VLogCall} (h : ∀ c ∈ cs, c.Fits) :
    Inv fileId (calls fileId cs) := by
  have hrun : ∀ (s : VLogCalls), Inv fileId s →
      Inv fileId (cs.foldl (VLogCalls.call fileId) s) := by
    induction cs with
    | nil => exact fun s hs => hs
    | cons c cs ih =>
      intro s hs
      exact ih (fun d hd => h d (List.mem_cons_of_mem c hd)) _ (hs.call (h c List.mem_cons_self))
  exact hrun {} ⟨rfl, nofun, rfl, rfl⟩

/-- **When the scan matches the appends**: exactly when nothing is left in the
buffer. The scan then visits the records appended, in their order and with the
pointers that the appends returned, and the value is read at each of these. -/
theorem scan_matches_iff (fileId : ℕ) (cs : List VLogCall) (h : ∀ c ∈ cs, c.Fits) :
    ((calls fileId cs).log.scan fileId = (calls fileId cs).returned
        ∧ ∀ p ∈ (calls fileId cs).returned, (calls fileId cs).log.readAt p.2 = some p.1.2)
      ↔ (calls fileId cs).log.buffer = [] := by
  have hinv := inv_calls fileId h
  generalize calls fileId cs = s at hinv ⊢
  constructor
  · -- the bytes of the buffer are the end of the last record, which the scan does not reach
    rintro ⟨hscan, -⟩
    by_contra hbuffer
    have hlt : s.log.file.length < s.log.content.length := by
      rw [VLog.content, List.length_append]
      have := List.length_pos_iff.mpr hbuffer
      omega
    rcases List.eq_nil_or_concat s.returned with hnil | ⟨front, p, hlast⟩
    · rw [hinv.content, hnil] at hlt
      exact Nat.not_lt_zero _ hlt
    · rw [List.concat_eq_append] at hlast
      have hfits := hinv.fits_map
      have hptrs := hinv.returned
      have hcontent := hinv.content
      rw [hlast, List.map_append, List.map_singleton] at hfits hptrs hcontent
      rw [pointersFrom_append (fun r hr => hfits r (List.mem_append_left _ hr))] at hptrs
      obtain ⟨-, hp⟩ := List.append_inj' hptrs rfl
      have hvisited : p ∈ s.log.scanAt fileId 0 := by
        rw [← scan, hscan, hlast]
        exact List.mem_append_right _ List.mem_cons_self
      have hend := (range_of_mem_scanAt hvisited).2
      have hpfit := hfits p.1 (by simp)
      rw [hcontent, List.flatMap_append, List.length_append, List.flatMap_singleton,
        hpfit.length_encodeRecord] at hlt
      rw [List.singleton_inj.mp hp] at hend
      dsimp only at hend
      omega
  · intro hbuffer
    have hfile : s.log.file = (s.returned.map Prod.fst).flatMap encodeRecord := by
      rw [← hinv.content, VLog.content, hbuffer, List.append_nil]
    refine ⟨?_, fun p hp => ?_⟩
    · rw [scan_records hinv.fits_map hfile, ← hinv.returned]
    · rw [hinv.returned] at hp
      exact (recordAt_of_mem_pointersFrom [] hfile hinv.fits_map hp).holds.readAt

/-- Two appends, a sync, a reopening and another append before a sync. -/
theorem scan_matches_iff_reopened :
    (∀ c ∈ [VLogCall.append [97] [1, 2], .append [98] [], .sync, .reopen, .append [97] [3], .sync],
        c.Fits)
      ∧ (calls 1 [.append [97] [1, 2], .append [98] [], .sync, .reopen, .append [97] [3],
          .sync]).log.scan 1
        = [(([97], [1, 2]), ⟨1, 9, 2⟩), (([98], []), ⟨1, 20, 0⟩), (([97], [3]), ⟨1, 29, 1⟩)] :=
  have hfits : ∀ c ∈ [VLogCall.append [97] [1, 2], .append [98] [], .sync, .reopen,
      .append [97] [3], .sync], c.Fits := by decide
  ⟨hfits, ((scan_matches_iff 1 _ hfits).mpr (by decide)).1⟩

/-- An append that nothing follows is not scanned, and its value is not read. -/
theorem scan_buffered :
    (calls 1 [.append [97] [1]]).returned = [(([97], [1]), ⟨1, 9, 1⟩)]
      ∧ (calls 1 [.append [97] [1]]).log.scan 1 = []
      ∧ (calls 1 [.append [97] [1]]).log.readAt ⟨1, 9, 1⟩ = none := by
  decide

end VLogCalls

/-! ## Behind a record cut short -/

namespace VLog

variable {fileId : ℕ} {l : VLog}

/-- **A record cut short is not the end.** What is read in front of its bytes ends
behind them: either the header is that of the record, or it reaches past the
bytes. -/
theorem lt_of_readNext_fragment {front fragment back : List Byte} {torn : VRecord}
    (hfile : l.file = front ++ (fragment ++ back)) (htorn : FitsRecord torn)
    (hbegin : fragment <+: encodeRecord torn) (hne : fragment ≠ encodeRecord torn)
    {r : VRecord} {next : ℕ} (h : l.readNext front.length = some (r, next)) :
    front.length + fragment.length < next := by
  obtain ⟨hnext, -⟩ := readNext_eq_some h
  by_cases hshort : fragment.length < 8
  · omega
  -- the header is whole
  obtain ⟨cut, hcut⟩ := hbegin
  have hcutlen : 0 < cut.length := by
    rw [List.length_pos_iff]
    rintro rfl
    exact hne (by rw [← hcut, List.append_nil])
  have hsize := htorn.length_encodeRecord
  have htaken : (leBytes 4 torn.1.length ++ leBytes 4 torn.2.length)
      = fragment.take 8 := by
    have hhead : (encodeRecord torn).take 8
        = leBytes 4 torn.1.length ++ leBytes 4 torn.2.length := by
      rw [htorn.encodeRecord_eq, List.append_assoc (_ ++ _)]
      exact List.take_left' (by simp)
    rw [← hhead, ← hcut, List.take_append_of_le_length (by omega)]
  have hheader : pread l.file 8 front.length
      = some (leBytes 4 torn.1.length ++ leBytes 4 torn.2.length) := by
    refine pread_of_eq front (fragment.drop 8 ++ back) ?_ (by simp) rfl
    rw [hfile, htaken, List.append_assoc front, ← List.append_assoc (fragment.take 8),
      List.take_append_drop]
  have hk : leNat ((leBytes 4 torn.1.length ++ leBytes 4 torn.2.length).take 4)
      = torn.1.length := by
    have : 8 + torn.1.length + torn.2.length < 2 ^ 32 := htorn
    rw [List.take_left' (length_leBytes 4 _), leNat_leBytes, Nat.mod_eq_of_lt]
    omega
  have hv : leNat ((leBytes 4 torn.1.length ++ leBytes 4 torn.2.length).drop 4)
      = torn.2.length := by
    have : 8 + torn.1.length + torn.2.length < 2 ^ 32 := htorn
    rw [List.drop_left' (length_leBytes 4 _), leNat_leBytes, Nat.mod_eq_of_lt]
    omega
  unfold readNext at h
  rw [hheader] at h
  simp only [hk, hv] at h
  split at h
  · obtain ⟨-, rfl⟩ := Prod.mk.inj (Option.some.inj h)
    rw [← hcut, List.length_append] at hsize
    omega
  · cases h

end VLog

namespace KVStore

open VLog

/-- The whole records of a log that a crash left a fragment in, each with its
pointer. -/
def wholeRecords (fileId : ℕ) (whole : List VRecord) (fragment : List Byte)
    (more : List VRecord) : List (VRecord × VLogPointer) :=
  pointersFrom fileId 0 whole
    ++ pointersFrom fileId ((whole.flatMap encodeRecord).length + fragment.length) more

/-- **Which logs are scanned in full**: those in which nothing was cut short, or
nothing follows what was. -/
theorem visits_iff (fileId : ℕ) {l : VLog} {whole more : List VRecord} {fragment : List Byte}
    {torn : VRecord}
    (hfile : l.file = whole.flatMap encodeRecord ++ (fragment ++ more.flatMap encodeRecord))
    (hwhole : ∀ r ∈ whole, FitsRecord r) (hmore : ∀ r ∈ more, FitsRecord r)
    (htorn : FitsRecord torn) (hbegin : fragment <+: encodeRecord torn)
    (hne : fragment ≠ encodeRecord torn) :
    (∀ p ∈ wholeRecords fileId whole fragment more, p ∈ l.scan fileId)
      ↔ fragment = [] ∨ more = [] := by
  have hscan : l.scan fileId = pointersFrom fileId 0 whole
      ++ scanAt fileId l (whole.flatMap encodeRecord).length :=
    scanAt_records fileId hwhole [] (fragment ++ more.flatMap encodeRecord) hfile
  constructor
  · -- the first record behind the fragment is passed over
    intro hvisits
    by_contra hcond
    obtain ⟨hfrag, hnonempty⟩ := not_or.mp hcond
    have hpos := List.length_pos_iff.mpr hfrag
    obtain ⟨r, rest, rfl⟩ := List.exists_cons_of_ne_nil hnonempty
    have hr := hvisits (r, ⟨fileId, (whole.flatMap encodeRecord).length + fragment.length + 8
      + r.1.length, r.2.length⟩) (List.mem_append_right _ List.mem_cons_self)
    rw [hscan] at hr
    rcases List.mem_append.mp hr with hr | hr
    · have hrange := range_of_mem_pointersFrom hwhole hr
      dsimp only at hrange
      omega
    · cases hread : l.readNext (whole.flatMap encodeRecord).length with
      | none =>
        rw [scanAt_of_none hread] at hr
        cases hr
      | some q =>
        have hlt := lt_of_readNext_fragment hfile htorn hbegin hne hread
        rw [scanAt_of_some hread] at hr
        rcases List.mem_cons.mp hr with hr | hr
        · obtain ⟨rfl, hptr⟩ := Prod.mk.inj hr
          have hoff := congrArg VLogPointer.offset hptr
          dsimp only at hoff
          omega
        · have hrange := (range_of_mem_scanAt hr).1
          dsimp only at hrange
          omega
  · rintro (rfl | rfl) p hp
    · -- nothing was cut short: the file is whole records
      have hrest := scanAt_records (l := l) fileId hmore (whole.flatMap encodeRecord) [] (by
        rw [hfile, List.nil_append, List.append_nil])
      rw [hscan, hrest]
      unfold wholeRecords at hp
      rw [List.length_nil, Nat.add_zero] at hp
      rcases List.mem_append.mp hp with hp | hp
      · exact List.mem_append_left _ hp
      · exact List.mem_append_right _ (List.mem_append_left _ hp)
    · rw [hscan]
      unfold wholeRecords at hp
      rcases List.mem_append.mp hp with hp | hp
      · exact List.mem_append_left _ hp
      · cases hp

/-! ## The scan of the collector -/

/-- The collector's run after the visit of a record. -/
def gcVisit (env : Env) (s : KVStore) (job : GcJob) (r : VRecord) : GcJob :=
  let size := r.1.length + r.2.length
  match s.liveAt env job r with
  | some c => { job with
      offset := job.offset + (8 + r.1.length + r.2.length)
      live := job.live ++ [⟨r.1, r.2, c.stamp⟩]
      liveBytes := job.liveBytes + size
      totalBytes := job.totalBytes + size }
  | none => { job with
      offset := job.offset + (8 + r.1.length + r.2.length)
      totalBytes := job.totalBytes + size }

/-- The end of the scan: the run is given up when more than half of the log is
live. -/
def gcEnd (job : GcJob) : Option GcJob :=
  if job.totalBytes > 0 ∧ 2 * job.liveBytes > job.totalBytes then none
  else some { job with scanning := false }

variable {env : Env} {s : KVStore} {job : GcJob} {log : VLog}

/-- What a visit does to the run, whatever the record is found to be. -/
theorem gcVisit_frame (env : Env) (s : KVStore) (job : GcJob) (r : VRecord) :
    (s.gcVisit env job r).target = job.target ∧ (s.gcVisit env job r).scanning = job.scanning
      ∧ (s.gcVisit env job r).offset = job.offset + (8 + r.1.length + r.2.length)
      ∧ job.live <+: (s.gcVisit env job r).live := by
  unfold gcVisit
  dsimp only
  split
  · exact ⟨rfl, rfl, rfl, List.prefix_append _ _⟩
  · exact ⟨rfl, rfl, rfl, List.prefix_rfl⟩

theorem live_foldl_gcVisit (s : KVStore) (job : GcJob) (rs : List VRecord) :
    job.live <+: (rs.foldl (s.gcVisit env) job).live := by
  induction rs generalizing job with
  | nil => exact List.prefix_rfl
  | cons r rs ih => exact (gcVisit_frame env s job r).2.2.2.trans (ih _)

/-- A round of the scan visits a record. -/
theorem gcScan_of_some (hgc : s.gc = some job) (hscan : job.scanning = true)
    (hlog : s.vlogs.logs.get job.target = some log) {r : VRecord} {next : ℕ}
    (hread : log.readNext job.offset = some (r, next)) :
    s.gcScan env = some { s with gc := some (s.gcVisit env job r) } := by
  have hnext := (readNext_eq_some hread).1
  unfold gcScan gcVisit
  rw [hgc]
  dsimp only
  rw [if_pos hscan, hlog, Option.bind_some, hread]
  dsimp only
  rw [hnext]
  cases s.liveAt env job r <;> rfl

/-- At the end of the log the scan ends. -/
theorem gcScan_of_none (hgc : s.gc = some job) (hscan : job.scanning = true)
    (hlog : s.vlogs.logs.get job.target = some log) (hread : log.readNext job.offset = none) :
    s.gcScan env = some { s with gc := gcEnd job } := by
  unfold gcScan gcEnd
  rw [hgc]
  dsimp only
  rw [if_pos hscan, hlog, Option.bind_some, hread]
  dsimp only
  split_ifs <;> rfl

/-- **The rounds of the collector are the scan of the log.** -/
theorem runSteps_gcScan (hgc : s.gc = some job) (hscan : job.scanning = true)
    (hlog : s.vlogs.logs.get job.target = some log) :
    runSteps (step env) s
        (List.replicate ((scanAt job.target log job.offset).length + 1) EngineAction.gcScan)
      = some { s with
          gc := gcEnd (((scanAt job.target log job.offset).map Prod.fst).foldl
            (s.gcVisit env) job) } := by
  obtain ⟨offset, hoff⟩ : ∃ offset, offset = job.offset := ⟨_, rfl⟩
  induction offset using scanAt_induction log generalizing s job with
  | stop offset h =>
    rw [hoff] at h
    rw [scanAt_of_none h]
    exact runSteps_cons.mpr ⟨_, gcScan_of_none hgc hscan hlog h, rfl⟩
  | record offset r next h ih =>
    rw [hoff] at h
    have hnext := (readNext_eq_some h).1
    obtain ⟨htarget, hscan', hoff', -⟩ := gcVisit_frame env s job r
    have hrest := @ih { s with gc := some (s.gcVisit env job r) } (s.gcVisit env job r) rfl
      (hscan'.trans hscan) (by rw [htarget]; exact hlog) (by rw [hoff', hnext])
    rw [htarget, hoff', ← hnext] at hrest
    rw [scanAt_of_some h, List.length_cons, List.replicate_succ]
    exact runSteps_cons.mpr ⟨_, gcScan_of_some hgc hscan hlog h, hrest⟩

/-- **What is live and visited is relocated.** -/
theorem mem_live_of_mem_scanAt (hp : p ∈ scanAt job.target log job.offset)
    (hlive : s.getPointer env p.1.1 = some p.2) :
    ∃ q ∈ (((scanAt job.target log job.offset).map Prod.fst).foldl (s.gcVisit env) job).live,
      q.key = p.1.1 ∧ q.value = p.1.2 := by
  obtain ⟨offset, hoff⟩ : ∃ offset, offset = job.offset := ⟨_, rfl⟩
  induction offset using scanAt_induction log generalizing job with
  | stop offset h =>
    rw [hoff] at h
    rw [scanAt_of_none h] at hp
    cases hp
  | record offset r next h ih =>
    rw [hoff] at h
    have hnext := (readNext_eq_some h).1
    obtain ⟨htarget, -, hoff', -⟩ := gcVisit_frame env s job r
    rw [scanAt_of_some h] at hp ⊢
    rw [List.map_cons, List.foldl_cons]
    rcases List.mem_cons.mp hp with rfl | hp
    · -- the record visited here
      obtain ⟨c, hc, hptr⟩ := Option.map_eq_some_iff.mp hlive
      have hat : s.liveAt env job r = some c := by
        unfold liveAt
        rw [hc, Option.filter_some, hptr, if_pos (by simp)]
      have hmem : (⟨r.1, r.2, c.stamp⟩ : GcRecord) ∈ (s.gcVisit env job r).live := by
        unfold gcVisit
        rw [hat]
        exact List.mem_append_right _ List.mem_cons_self
      exact ⟨_, (live_foldl_gcVisit s _ _).subset hmem, rfl, rfl⟩
    · have hrest := @ih (s.gcVisit env job r)
        (by rw [htarget, hoff', ← hnext]; exact hp) (by rw [hoff', hnext])
      rw [htarget, hoff', ← hnext] at hrest
      exact hrest

/-- **When the collector reaches every live record**: exactly when nothing was cut
short, or nothing was appended behind what was. A log is scanned that is whole
records, the front of a record that a crash cut short, and whole records
appended since. Then each whole record is visited with its pointer, and when the
log is going to be removed each live value in it is among those that are
relocated before. -/
theorem gc_reaches_iff (env : Env) (s : KVStore) (id : ℕ) (log : VLog)
    (whole more : List VRecord) (fragment : List Byte) (torn : VRecord)
    (hgc : s.gc = some { target := id }) (hlog : s.vlogs.logs.get id = some log)
    (hfile : log.file = whole.flatMap encodeRecord ++ (fragment ++ more.flatMap encodeRecord))
    (hwhole : ∀ r ∈ whole, FitsRecord r) (hmore : ∀ r ∈ more, FitsRecord r)
    (htorn : FitsRecord torn) (hbegin : fragment <+: encodeRecord torn)
    (hne : fragment ≠ encodeRecord torn) :
    ((∀ p ∈ wholeRecords id whole fragment more, p ∈ log.scan id)
        ∧ ∃ s', runSteps (step env) s
            (List.replicate ((log.scan id).length + 1) EngineAction.gcScan) = some s'
          ∧ ∀ job ∈ s'.gc, job.scanning = false
            ∧ ∀ p ∈ wholeRecords id whole fragment more, s.getPointer env p.1.1 = some p.2 →
              ∃ q ∈ job.live, q.key = p.1.1 ∧ q.value = p.1.2)
      ↔ fragment = [] ∨ more = [] := by
  rw [← visits_iff id hfile hwhole hmore htorn hbegin hne]
  refine ⟨And.left, fun hvisits => ⟨hvisits, _, runSteps_gcScan hgc rfl hlog, ?_⟩⟩
  intro job hjob
  unfold gcEnd at hjob
  split_ifs at hjob
  · cases hjob
  · cases hjob
    exact ⟨rfl, fun p hp hlive => mem_live_of_mem_scanAt (hvisits p hp) hlive⟩

/-- A store whose first log has three bytes of a record that a crash cut short, and
behind them the record of a live key. The log is being collected. -/
def afterTear : KVStore where
  active := OrdMap.empty.insert [107] ⟨⟨1, 12, 1⟩, 0⟩
  vlogs :=
    { logs := (OrdMap.empty.insert 1
          (VLog.openFile ([1, 0, 0] ++ encodeRecord ([107], [118])))).insert 2 {}
      current := 2 }
  gc := some { target := 1 }

/-- The log is removed although its one record is live, and the value is lost. -/
theorem gc_passes_over :
    afterTear.getPointer Env.small [107] = some ⟨1, 12, 1⟩
      ∧ afterTear.get Env.small [107] = some [118]
      ∧ [(1 : Byte), 0, 0] <+: encodeRecord ([97], [1])
      ∧ (([107], [118]), ⟨1, 12, 1⟩) ∈ wholeRecords 1 [] [1, 0, 0] [([107], [118])]
      ∧ VLog.scan 1 (VLog.openFile ([1, 0, 0] ++ encodeRecord ([107], [118]))) = []
      ∧ (runSteps (step Env.small) afterTear [.gcScan, .gcFinish]).map
          (fun s => (s.get Env.small [107], s.vlogs.logs.keys)) = some (none, [2]) := by
  decide +kernel

/-- Nothing was cut short: two records, the second of them live. -/
theorem gc_reaches_iff_untorn :
    (wholeRecords 1 [([97], [1, 2])] [] [([97], [3])]).length = 2
      ∧ ∀ p ∈ wholeRecords 1 [([97], [1, 2])] [] [([97], [3])],
        p ∈ VLog.scan 1 (VLog.openFile ([([97], [1, 2]), ([97], [3])].flatMap encodeRecord)) :=
  ⟨rfl, ((gc_reaches_iff Env.small
    { vlogs :=
        { logs := OrdMap.empty.insert 1
            (VLog.openFile ([([97], [1, 2]), ([97], [3])].flatMap encodeRecord))
          current := 2 }
      gc := some { target := 1 } } 1
    (VLog.openFile ([([97], [1, 2]), ([97], [3])].flatMap encodeRecord)) [([97], [1, 2])]
    [([97], [3])] [] ([], []) rfl (by decide) (by decide) (by decide) (by decide) (by decide)
    List.nil_prefix (by decide)).mpr (Or.inl rfl)).1⟩

end KVStore
