import Mathlib

/-!
# Linearizability of an object with updates and queries

Calls on a shared object overlap: each is invoked at one time and responds at
a later one. A history of such calls is *linearizable* when the calls can be
put in one order in which a sequential object gives the same answers, and in
which a call that responded before another was invoked comes first
(`SeqObject.Linearizes`). Calls that have not responded may be in the order or
not.

Many implementations decide the order in two ways. The updates go through a
log, which orders them; a query answers from a state the object had at some
time while the query ran, and which time it was may be known only afterwards.
`SeqObject.Points` collects what has to be shown of such an implementation:
every call has a *point*, the number of updates in effect once it has taken
place. The order is then that of the points, an update before the queries of its
point and those in the order of their responses (`SeqObject.Points.linearizes`).
-/

/-- **A sequential object**: what its updates do to its state, and what its
queries return. -/
structure SeqObject (σ U Q R : Type*) where
  init : σ
  update : σ → U → σ
  query : σ → Q → R

/-- A call. -/
inductive ObjCall (U Q : Type*) where
  | update (u : U)
  | query (q : Q)
  deriving DecidableEq

/-- What a call answers. -/
inductive ObjAnswer (R : Type*) where
  | done
  | value (r : R)
  deriving DecidableEq

/-- A call that has taken place, with its answer. -/
structure DoneCall (U Q R : Type*) where
  id : ℕ
  call : ObjCall U Q
  answer : ObjAnswer R
  deriving DecidableEq

/-- What is seen of the calls from outside. -/
inductive CallEvent (U Q R : Type*) where
  | invoke (id : ℕ) (call : ObjCall U Q)
  | respond (done : DoneCall U Q R)
  deriving DecidableEq

variable {σ U Q R : Type*}

/-- **One call precedes another**: it responds before the other is invoked. -/
def Precedes (events : List (CallEvent U Q R)) (i j : ℕ) : Prop :=
  ∃ (d : DoneCall U Q R) (call : ObjCall U Q), d.id = i
    ∧ [CallEvent.respond d, .invoke j call].Sublist events

namespace SeqObject

/-- A call on the sequential object. -/
def apply (o : SeqObject σ U Q R) (s : σ) : ObjCall U Q → σ × ObjAnswer R
  | .update u => (o.update s u, .done)
  | .query q => (s, .value (o.query s q))

/-- The state after some updates. -/
def after (o : SeqObject σ U Q R) (us : List U) : σ := us.foldl o.update o.init

/-- **The calls give the answers of the sequential object**, one after the
other. -/
def Legal (o : SeqObject σ U Q R) : σ → List (DoneCall U Q R) → Prop
  | _, [] => True
  | s, d :: ds => (o.apply s d.call).2 = d.answer ∧ o.Legal (o.apply s d.call).1 ds

/-- **An order of the calls explains the history**: all that have responded are
in it, with their answers, and no call but those invoked; the sequential object
gives these answers; and no call comes before one that precedes it. -/
structure Linearizes (o : SeqObject σ U Q R) (events : List (CallEvent U Q R))
    (order : List (DoneCall U Q R)) : Prop where
  nodup : (order.map DoneCall.id).Nodup
  complete : ∀ d, CallEvent.respond d ∈ events → d ∈ order
  invoked : ∀ d ∈ order, CallEvent.invoke d.id d.call ∈ events
  legal : o.Legal o.init order
  realTime : ∀ c ∈ order, ∀ d ∈ order, Precedes events c.id d.id → [c, d].Sublist order

/-- **The history is linearizable.** -/
def Linearizable (o : SeqObject σ U Q R) (events : List (CallEvent U Q R)) : Prop :=
  ∃ order, o.Linearizes events order

/-- Two events are not the responses of one call. -/
def RespondsApart (e f : CallEvent U Q R) : Prop :=
  ∀ c d, e = .respond c → f = .respond d → c.id ≠ d.id

instance : Std.Symm (RespondsApart (U := U) (Q := Q) (R := R)) :=
  ⟨fun _ _ h c d hc hd => (h d c hd hc).symm⟩

/-- **Every call has its point**, in a history of updates that go through a log
and queries that answer from one of the states it has been through. -/
structure Points (o : SeqObject σ U Q R) (events : List (CallEvent U Q R))
    (log : List (ℕ × U)) (point : ℕ → ℕ) : Prop where
  logged : (log.map Prod.fst).Nodup
  /-- The updates of the log were invoked, and their points are their places. -/
  update : ∀ n i u, log[n]? = some (i, u) →
    point i = n + 1 ∧ CallEvent.invoke i (.update u) ∈ events
  /-- A call of the log that responds is an update. -/
  responds : ∀ x ∈ log, ∀ d, CallEvent.respond d ∈ events → d.id = x.1 →
    d = ⟨x.1, .update x.2, .done⟩
  once : events.Pairwise RespondsApart
  called : ∀ d, CallEvent.respond d ∈ events → CallEvent.invoke d.id d.call ∈ events
  /-- No call responds before it is invoked. -/
  ordered : events.Pairwise (fun e f => ∀ d call, e = .respond d → f ≠ .invoke d.id call)
  done : ∀ i u a, CallEvent.respond ⟨i, .update u, a⟩ ∈ events → (i, u) ∈ log
  /-- A query answers from the state its point stands for. -/
  answer : ∀ i q a, CallEvent.respond ⟨i, .query q, a⟩ ∈ events → point i ≤ log.length
    ∧ a = .value (o.query (o.after ((log.take (point i)).map Prod.snd)) q)
  before_query : ∀ i d q, Precedes events i d.id → CallEvent.respond d ∈ events →
    d.call = .query q → point i ≤ point d.id
  before_update : ∀ i x, x ∈ log → Precedes events i x.1 → point i < point x.1

/-! ## The order -/

/-- The query that a response ends. -/
def answered : CallEvent U Q R → Option (DoneCall U Q R)
  | .respond ⟨i, .query q, a⟩ => some ⟨i, .query q, a⟩
  | .respond ⟨_, .update _, _⟩ => none
  | .invoke _ _ => none

/-- The call of an update of the log. -/
def logCall (x : ℕ × U) : DoneCall U Q R := ⟨x.1, .update x.2, .done⟩

/-- The update that a call is. -/
def updateOf (d : DoneCall U Q R) : Option (ℕ × U) :=
  match d.call with
  | .update u => some (d.id, u)
  | .query _ => none

/-- The queries that have responded and the updates of the log. -/
def calls (events : List (CallEvent U Q R)) (log : List (ℕ × U)) : List (DoneCall U Q R) :=
  events.filterMap answered ++ log.map logCall

/-- Where a call stands: the queries of a point between the updates around
it. -/
def rank (point : ℕ → ℕ) (d : DoneCall U Q R) : ℕ :=
  match d.call with
  | .query _ => 2 * point d.id
  | .update _ => 2 * point d.id - 1

/-- **The calls by their ranks**, those of one rank as they come. -/
def order (events : List (CallEvent U Q R)) (log : List (ℕ × U)) (point : ℕ → ℕ) :
    List (DoneCall U Q R) :=
  (calls events log).insertionSort (Order.Preimage (rank point) (· ≤ ·))

variable {o : SeqObject σ U Q R} {events : List (CallEvent U Q R)} {log : List (ℕ × U)}
  {point : ℕ → ℕ} {c d : DoneCall U Q R}

theorem answered_eq_some {e : CallEvent U Q R} :
    answered e = some d ↔ e = .respond d ∧ ∃ q, d.call = .query q := by
  constructor
  · intro h
    match e, h with
    | .respond ⟨i, .query q, a⟩, h =>
      cases h
      exact ⟨rfl, q, rfl⟩
  · obtain ⟨i, call, a⟩ := d
    rintro ⟨rfl, q, rfl⟩
    rfl

theorem mem_order : d ∈ order events log point
    ↔ (CallEvent.respond d ∈ events ∧ ∃ q, d.call = .query q) ∨ ∃ x ∈ log, logCall x = d := by
  rw [order, List.mem_insertionSort, calls, List.mem_append, List.mem_filterMap, List.mem_map]
  refine or_congr_left ⟨?_, fun ⟨he, hq⟩ => ⟨_, he, answered_eq_some.mpr ⟨rfl, hq⟩⟩⟩
  rintro ⟨e, he, hd⟩
  obtain ⟨rfl, hq⟩ := answered_eq_some.mp hd
  exact ⟨he, hq⟩

theorem rank_of_query {q : Q} (h : d.call = .query q) : rank point d = 2 * point d.id := by
  rw [rank, h]

theorem pairwise_order :
    (order events log point).Pairwise (fun c d => rank point c ≤ rank point d) :=
  List.pairwise_insertionSort _ _

/-- What stands lower comes first. -/
theorem sublist_of_rank_lt (hc : c ∈ order events log point) (hd : d ∈ order events log point)
    (hlt : rank point c < rank point d) : [c, d].Sublist (order events log point) := by
  have hsorted : (order events log point).Pairwise (fun c d => rank point c ≤ rank point d) :=
    pairwise_order
  obtain ⟨as, bs, heq⟩ := List.append_of_mem hc
  rw [heq] at hd hsorted ⊢
  rcases List.mem_append.mp hd with hd | hd
  · exact absurd ((List.pairwise_append.mp hsorted).2.2 d hd c List.mem_cons_self)
      (not_le.mpr hlt)
  · rcases List.mem_cons.mp hd with rfl | hd
    · exact absurd rfl hlt.ne
    · refine List.Sublist.trans ?_ (List.sublist_append_right as (c :: bs))
      exact (List.singleton_sublist.mpr hd).cons_cons c

/-! ## Its answers -/

/-- **Calls in the order of their ranks are legal**, when every query answers from
the state of its point. The updates among them are the log from some place on. -/
theorem legal_of_pairwise {ds : List (DoneCall U Q R)} {n : ℕ} {s : σ}
    (hsorted : ds.Pairwise (fun c d => rank point c ≤ rank point d))
    (hlog : ds.filterMap updateOf = log)
    (hpoint : ∀ m x, log[m]? = some x → point x.1 = n + m + 1)
    (hdone : ∀ d ∈ ds, ∀ u, d.call = .update u → d.answer = .done)
    (hquery : ∀ d ∈ ds, ∀ q, d.call = .query q → n ≤ point d.id ∧ point d.id ≤ n + log.length
      ∧ d.answer = .value (o.query (((log.take (point d.id - n)).map Prod.snd).foldl o.update s)
        q)) :
    o.Legal s ds := by
  induction ds generalizing log n s with
  | nil => trivial
  | cons d ds ih =>
    obtain ⟨hd, hds⟩ := List.pairwise_cons.mp hsorted
    have hdone' := fun e he => hdone e (List.mem_cons_of_mem d he)
    obtain ⟨i, call, a⟩ := d
    subst hlog
    cases call with
    | query q =>
      obtain ⟨hge, hle, ha⟩ := hquery _ List.mem_cons_self q rfl
      -- the next update has a rank no lower
      have hn : point i = n := by
        cases hlog : ds.filterMap updateOf with
        | nil =>
          have : point i ≤ n + (ds.filterMap updateOf).length := hle
          rw [hlog] at this
          exact le_antisymm this hge
        | cons x rest =>
          obtain ⟨e, he, hx⟩ := List.mem_filterMap.mp (hlog ▸ List.mem_cons_self (a := x))
          have hplace : point x.1 = n + 0 + 1 :=
            hpoint 0 x (congrArg (fun l : List (ℕ × U) => l[0]?) hlog)
          have hle := hd e he
          unfold updateOf at hx
          split at hx
          · rename_i u hu
            cases hx
            rw [rank, rank, hu] at hle
            dsimp only at hle hge hplace
            omega
          · cases hx
      refine ⟨?_, ih hds rfl hpoint hdone' (fun e he => hquery e (List.mem_cons_of_mem _ he))⟩
      rw [show a = _ from ha, hn, Nat.sub_self]
      rfl
    | update u =>
      have hplace : point i = n + 0 + 1 := hpoint 0 (i, u) rfl
      refine ⟨(hdone _ List.mem_cons_self u rfl).symm, ih (n := n + 1) hds rfl (fun m x hx => ?_)
        hdone' (fun e he q hq => ?_)⟩
      · rw [hpoint (m + 1) x hx]
        omega
      · have hrank := hd e he
        rw [rank_of_query hq, rank] at hrank
        dsimp only at hrank
        obtain ⟨-, hle, ha⟩ := hquery e (List.mem_cons_of_mem _ he) q hq
        have hle' : point e.id ≤ n + ((ds.filterMap updateOf).length + 1) := hle
        refine ⟨by omega, by omega, ?_⟩
        rw [ha, show point e.id - n = point e.id - (n + 1) + 1 by omega]
        rfl

/-- A call responds once. -/
theorem eq_of_respond (honce : events.Pairwise RespondsApart)
    (hc : CallEvent.respond c ∈ events) (hd : CallEvent.respond d ∈ events) (hid : c.id = d.id) :
    c = d := by
  by_contra hne
  have hapart : RespondsApart (CallEvent.respond c) (CallEvent.respond d) :=
    honce.forall hc hd (fun heq => hne (CallEvent.respond.inj heq))
  exact hapart c d rfl rfl hid

namespace Points

section

variable (h : o.Points events log point)
include h

/-- **A response before an invocation is before the response that follows the
invocation.** -/
theorem respond_sublist (hp : Precedes events c.id d.id) (hc : CallEvent.respond c ∈ events)
    (hd : CallEvent.respond d ∈ events) : [CallEvent.respond c, .respond d].Sublist events := by
  obtain ⟨c', call, hid, hsub⟩ := hp
  obtain rfl := eq_of_respond h.once (hsub.subset List.mem_cons_self) hc hid
  obtain ⟨as, bs, rfl, has, hbs⟩ := List.cons_sublist_iff.mp hsub
  obtain ⟨bs, cs, rfl⟩ := List.append_of_mem (List.singleton_sublist.mp hbs)
  have hord := List.pairwise_append.mp h.ordered
  have hlast : CallEvent.respond d ∈ cs := by
    rcases List.mem_append.mp hd with hd | hd
    · exact absurd rfl (hord.2.2 _ hd _ (List.mem_append_right bs List.mem_cons_self) d call rfl)
    · rcases List.mem_append.mp hd with hd | hd
      · exact absurd rfl
          ((List.pairwise_append.mp hord.2.1).2.2 _ hd _ List.mem_cons_self d call rfl)
      · exact (List.mem_cons.mp hd).resolve_left (fun heq => by cases heq)
  refine List.Sublist.append (List.singleton_sublist.mpr has) (List.singleton_sublist.mpr ?_)
  exact List.mem_append_right bs (List.mem_cons_of_mem _ hlast)

/-- The rank of an update is odd. -/
theorem rank_logCall {x : ℕ × U} (hx : x ∈ log) :
    rank point (logCall (Q := Q) (R := R) x) + 1 = 2 * point x.1 := by
  obtain ⟨n, hn⟩ := List.getElem?_of_mem hx
  have := (h.update n x.1 x.2 hn).1
  show 2 * point x.1 - 1 + 1 = _
  omega

/-- **The updates stand as in the log.** -/
theorem filterMap_order : (order events log point).filterMap updateOf = log := by
  have hlog : (log.map (logCall (Q := Q) (R := R))).filterMap updateOf = log := by
    rw [List.filterMap_map]
    exact List.filterMap_some
  have hsub : (log.map logCall).Sublist (order events log point) := by
    refine List.sublist_insertionSort ?_ (List.sublist_append_right _ _)
    refine List.pairwise_map.mpr (List.pairwise_iff_getElem.mpr (fun i j hi hj hij => ?_))
    have hpi := (h.update i log[i].1 log[i].2 (List.getElem?_eq_getElem hi)).1
    have hpj := (h.update j log[j].1 log[j].2 (List.getElem?_eq_getElem hj)).1
    show 2 * point log[i].1 - 1 ≤ 2 * point log[j].1 - 1
    omega
  have hmap := hsub.filterMap updateOf
  rw [hlog] at hmap
  refine (hmap.eq_of_length ?_).symm
  have hperm := (List.perm_insertionSort (Order.Preimage (rank point) (· ≤ ·))
    (calls events log)).filterMap updateOf
  have hnone : (events.filterMap answered).filterMap updateOf = [] := by
    refine List.filterMap_eq_nil_iff.mpr (fun d hd => ?_)
    obtain ⟨e, -, he⟩ := List.mem_filterMap.mp hd
    obtain ⟨-, q, hq⟩ := answered_eq_some.mp he
    rw [updateOf, hq]
  rw [order, hperm.length_eq, calls, List.filterMap_append, hnone, hlog]
  rfl

theorem nodup_order : ((order events log point).map DoneCall.id).Nodup := by
  rw [order, ((List.perm_insertionSort _ _).map DoneCall.id).nodup_iff, calls, List.map_append,
    List.map_map]
  refine List.nodup_append'.mpr ⟨?_, h.logged, fun i hi hi' => ?_⟩
  · rw [List.Nodup, List.pairwise_map, List.pairwise_filterMap]
    exact h.once.imp (fun hef c hc d hd =>
      hef c d (answered_eq_some.mp hc).1 (answered_eq_some.mp hd).1)
  · -- a query and an update are different calls
    obtain ⟨d, hd, rfl⟩ := List.mem_map.mp hi
    obtain ⟨x, hx, hid⟩ := List.mem_map.mp hi'
    obtain ⟨e, he, hd⟩ := List.mem_filterMap.mp hd
    obtain ⟨rfl, q, hq⟩ := answered_eq_some.mp hd
    rw [h.responds x hx d he hid.symm] at hq
    cases hq

/-- **What precedes comes first.** -/
theorem sublist_of_precedes (hc : c ∈ order events log point) (hd : d ∈ order events log point)
    (hp : Precedes events c.id d.id) : [c, d].Sublist (order events log point) := by
  rcases mem_order.mp hd with ⟨hdr, q, hq⟩ | ⟨x, hx, rfl⟩
  · have hle := h.before_query c.id d q hp hdr hq
    have hrank : rank point d = 2 * point d.id := rank_of_query hq
    rcases mem_order.mp hc with ⟨hcr, q', hq'⟩ | ⟨y, hy, rfl⟩
    · -- queries stand in the order of their responses
      have hmap := (h.respond_sublist hp hcr hdr).filterMap answered
      rw [List.filterMap_cons_some (answered_eq_some.mpr ⟨rfl, q', hq'⟩),
        List.filterMap_cons_some (answered_eq_some.mpr ⟨rfl, q, hq⟩), List.filterMap_nil] at hmap
      refine List.pair_sublist_insertionSort ?_ (hmap.trans (List.sublist_append_left _ _))
      show rank point c ≤ rank point d
      rw [rank_of_query hq', hrank]
      omega
    · have := h.rank_logCall (Q := Q) (R := R) hy
      have hle' : point y.1 ≤ point d.id := hle
      exact sublist_of_rank_lt hc hd (by omega)
  · have hlt : point c.id < point x.1 := h.before_update c.id x hx hp
    have hrank : rank point c ≤ 2 * point c.id := by
      unfold rank
      split <;> omega
    have := h.rank_logCall (Q := Q) (R := R) hx
    exact sublist_of_rank_lt hc hd (by omega)

/-- **Calls that have their points are linearizable**: the order of their ranks
explains the history. -/
theorem linearizes :
    o.Linearizes events (order events log point) where
  nodup := h.nodup_order
  complete := by
    rintro ⟨i, call, a⟩ hd
    cases call with
    | query q => exact mem_order.mpr (Or.inl ⟨hd, q, rfl⟩)
    | update u =>
      have hx := h.done i u a hd
      exact mem_order.mpr (Or.inr ⟨(i, u), hx, (h.responds (i, u) hx _ hd rfl).symm⟩)
  invoked d hd := by
    rcases mem_order.mp hd with ⟨hd, -⟩ | ⟨x, hx, rfl⟩
    · exact h.called d hd
    · obtain ⟨m, hm⟩ := List.getElem?_of_mem hx
      exact (h.update m x.1 x.2 hm).2
  legal := by
    refine legal_of_pairwise (n := 0) pairwise_order h.filterMap_order (fun m x hx => ?_)
      (fun d hd u hu => ?_) (fun d hd q hq => ?_)
    · rw [(h.update m x.1 x.2 hx).1, Nat.zero_add]
    · rcases mem_order.mp hd with ⟨-, q, hq⟩ | ⟨x, -, rfl⟩
      · cases hu.symm.trans hq
      · rfl
    · rcases mem_order.mp hd with ⟨hdr, -⟩ | ⟨x, -, rfl⟩
      · obtain ⟨i, call, a⟩ := d
        obtain rfl : call = .query q := hq
        obtain ⟨hle, ha⟩ := h.answer i q a hdr
        exact ⟨Nat.zero_le _, (Nat.zero_add log.length).symm ▸ hle, ha⟩
      · cases hq
  realTime c hc d hd hp := h.sublist_of_precedes hc hd hp

end

end Points

end SeqObject
