import TxChain.Chain.Supply
import TxChain.Library.Run
import TxChain.Mempool.Mempool

/-!
# The pool as a queue

Seen from outside the pool is a queue of transactions, one for each sender and no
more than its capacity: an admission appends to it and an eviction filters it.
`Describes` ties the two hash maps to such a queue in every run. `Numbered` ties the
admission order to it as long as the counter of admissions has not wrapped around,
that is up to `2 ^ 64` accepted admissions.
-/

namespace TxChain

inductive MempoolOp where
  | admitTxn (accountAt : AccountLookup) (t : Txn)
  | evictIncluded (txns : List Txn)

/-- The transactions a call presents. -/
def MempoolOp.presented : MempoolOp → List Txn
  | .admitTxn _ t => [t]
  | .evictIncluded txns => txns

section Queue

variable [Crypto]

def MempoolOp.apply (mp : Mempool) : MempoolOp → Mempool
  | .admitTxn accountAt t => (mp.admitTxn accountAt t).2
  | .evictIncluded txns => mp.evictIncluded txns

/-- The pool after a sequence of calls. -/
def runMempool (cap : ℕ) (ops : List MempoolOp) : Mempool := ops.foldl MempoolOp.apply { cap }

/-- Whether a call is an admission that is accepted. -/
def MempoolOp.accepts (mp : Mempool) : MempoolOp → Bool
  | .admitTxn accountAt t => (mp.admitTxn accountAt t).1 = .ok
  | .evictIncluded _ => false

/-- How many admissions of a run are accepted. -/
def acceptedCount (cap : ℕ) (ops : List MempoolOp) : ℕ :=
  (Run.moves MempoolOp.apply { cap } ops).countP fun m => m.2.accepts m.1

/-! ### The queue -/

/-- What a transaction needs to join the queue. -/
structure Joins (cap : ℕ) (accountAt : AccountLookup) (queue : List Txn) (t : Txn) : Prop where
  ver : t.ver = kTxnVersion
  authentic : t.Authentic
  spendable : t.Spendable (accountAt t.from)
  free : ∀ p ∈ queue, p.from ≠ t.from
  room : queue.length < cap

open Classical in
/-- What a call does to the queue. -/
noncomputable def MempoolOp.onQueue (cap : ℕ) (queue : List Txn) : MempoolOp → List Txn
  | .admitTxn accountAt t => if Joins cap accountAt queue t then queue ++ [t] else queue
  | .evictIncluded txns => queue.filter fun t => t ∉ txns

noncomputable def runQueue (cap : ℕ) (ops : List MempoolOp) : List Txn :=
  ops.foldl (MempoolOp.onQueue cap) []

theorem length_runQueue (cap : ℕ) (ops : List MempoolOp) : (runQueue cap ops).length ≤ cap := by
  have hstart : ([] : List Txn).length ≤ cap := Nat.zero_le cap
  apply Run.invariant (J := fun queue : List Txn => queue.length ≤ cap) _ hstart
  intro queue op h
  cases op with
  | admitTxn accountAt t =>
      rw [MempoolOp.onQueue]
      split_ifs with hjoins
      · rw [List.length_append]
        exact hjoins.room
      · exact h
  | evictIncluded txns => exact (List.length_filter_le _ _).trans h

/-! ### The indexes describe a queue -/

namespace Mempool

/-- The hash maps hold the entries of the queue, each under its own txid, and the
slots of their senders. -/
structure Describes (mp : Mempool) (queue : List MempoolEntry) : Prop where
  byTxid : ∀ id e, mp.byTxid[id]? = some e ↔ e ∈ queue ∧ e.txid = id
  bySender : ∀ a id, mp.bySender[a]? = some id ↔ ∃ e ∈ queue, e.txn.from = a ∧ e.txid = id
  cached : ∀ e ∈ queue, e.txid = TxChain.txid e.txn
  senders : (queue.map fun e => e.txn.from).Nodup

/-- The admission order holds the entries of the queue, in its order, each under its own
number. -/
structure Numbered (mp : Mempool) (queue : List MempoolEntry) : Prop where
  bySeq : ∀ seq id, mp.bySeq[seq]? = some id ↔ ∃ e ∈ queue, e.feelessSeq = seq ∧ e.txid = id
  ordered : queue.Pairwise fun e e' => e.feelessSeq < e'.feelessSeq

variable {mp : Mempool} {queue : List MempoolEntry} {accountAt : AccountLookup} {t : Txn}
variable {P : Txn → Prop}

theorem Describes.sender_inj (h : mp.Describes queue) {e e' : MempoolEntry} (he : e ∈ queue)
    (he' : e' ∈ queue) (heq : e.txn.from = e'.txn.from) : e = e' :=
  List.inj_on_of_nodup_map h.senders he he' heq

theorem Describes.size (h : mp.Describes queue) : mp.byTxid.size = queue.length := by
  have hnodup : (queue.map fun e => (e.txid, e)).Nodup := by
    apply List.Nodup.of_map (fun kv => kv.2.txn.from)
    rw [List.map_map]
    exact h.senders
  rw [OrderedMap.size_of_mem_iff mp.byTxid hnodup, List.length_map]
  intro id e
  rw [h.byTxid, List.mem_map]
  constructor
  · rintro ⟨he, rfl⟩
    exact ⟨e, he, rfl⟩
  · rintro ⟨e', he', heq⟩
    obtain ⟨rfl, rfl⟩ := Prod.mk.inj heq
    exact ⟨he', rfl⟩

theorem Describes.slot_free_iff (h : mp.Describes queue) {a : Address} :
    mp.bySender[a]? = none ↔ ∀ e ∈ queue, e.txn.from ≠ a := by
  rw [Option.eq_none_iff_forall_ne_some]
  constructor
  · intro hnone e he heq
    exact hnone e.txid ((h.bySender _ _).mpr ⟨e, he, heq, rfl⟩)
  · intro hfree id hid
    obtain ⟨e, he, heq, -⟩ := (h.bySender _ _).mp hid
    exact hfree e he heq

/-- The admission order lists the queue. -/
theorem Numbered.sortedBySeq (hn : mp.Numbered queue) (h : mp.Describes queue) :
    mp.sortedBySeq = queue := by
  have horder : mp.bySeq.toList = queue.map fun e => (e.feelessSeq, e.txid) := by
    apply OrderedMap.toList_of_mem_iff
    · rw [List.pairwise_map]
      exact hn.ordered.imp fun hlt => Std.compare_eq_lt.mpr hlt
    · intro seq id
      rw [hn.bySeq, List.mem_map]
      simp only [Prod.mk.injEq]
  have hentry : ∀ e ∈ queue, mp.byTxid[e.txid]? = some e := fun e he => (h.byTxid _ _).mpr ⟨he, rfl⟩
  rw [Mempool.sortedBySeq, horder, List.filterMap_map]
  exact (List.filterMap_congr hentry).trans List.filterMap_some

/-- A pool admits what may join the queue it describes. -/
theorem Describes.admits_iff (h : mp.Describes queue)
    (hids : ∀ e ∈ queue, TxChain.txid e.txn = TxChain.txid t → e.txn = t) :
    mp.Admits accountAt t ↔ Joins mp.cap accountAt (queue.map MempoolEntry.txn) t := by
  have hslot : mp.bySender[t.from]? = none ↔ ∀ p ∈ queue.map MempoolEntry.txn, p.from ≠ t.from := by
    rw [List.forall_mem_map]
    exact h.slot_free_iff
  have hroom : mp.byTxid.size = (queue.map MempoolEntry.txn).length := by
    rw [List.length_map]
    exact h.size
  constructor
  · intro hadmits
    exact ⟨hadmits.ver, hadmits.authentic, hadmits.spendable, hslot.mp hadmits.free,
      hroom ▸ hadmits.room⟩
  · intro hjoins
    refine ⟨hjoins.ver, ?_, hjoins.authentic, hjoins.spendable, hslot.mpr hjoins.free,
      hroom ▸ hjoins.room⟩
    -- an entry under the same id would hold the sender's slot
    rw [Option.eq_none_iff_forall_ne_some]
    intro e he
    obtain ⟨he, hid⟩ := (h.byTxid _ _).mp he
    rw [h.cached e he] at hid
    exact hjoins.free e.txn (List.mem_map_of_mem he) (congrArg Txn.from (hids e he hid))

/-! ### Admission appends -/

theorem Describes.accept (h : mp.Describes queue) (hadmits : mp.Admits accountAt t) :
    (mp.accept t).Describes (queue ++ [⟨t, TxChain.txid t, mp.nextSeq⟩]) where
  byTxid id e := by
    have hnew : ∀ e ∈ queue, e.txid ≠ TxChain.txid t :=
      fun e he => hadmits.id_ne ((h.byTxid _ _).mpr ⟨he, rfl⟩)
    rw [Mempool.accept, OrderedMap.getElem?_insert_some, h.byTxid, List.mem_append,
      List.mem_singleton]
    constructor
    · rintro (⟨rfl, rfl⟩ | ⟨-, he, hid⟩)
      · exact ⟨.inr rfl, rfl⟩
      · exact ⟨.inl he, hid⟩
    · rintro ⟨he | rfl, rfl⟩
      · exact .inr ⟨hnew e he, he, rfl⟩
      · exact .inl ⟨rfl, rfl⟩
  bySender a id := by
    have hfree : ∀ e ∈ queue, e.txn.from ≠ t.from :=
      fun e he => hadmits.sender_ne ((h.bySender _ _).mpr ⟨e, he, rfl, rfl⟩)
    rw [Mempool.accept, OrderedMap.getElem?_insert_some, h.bySender]
    simp only [List.mem_append, List.mem_singleton]
    constructor
    · rintro (⟨rfl, rfl⟩ | ⟨-, e, he, hsender, hid⟩)
      · exact ⟨_, .inr rfl, rfl, rfl⟩
      · exact ⟨e, .inl he, hsender, hid⟩
    · rintro ⟨e, he | rfl, rfl, rfl⟩
      · exact .inr ⟨hfree e he, e, he, rfl, rfl⟩
      · exact .inl ⟨rfl, rfl⟩
  cached e he := by
    rcases List.mem_append.mp he with hold | hnew
    · exact h.cached e hold
    · rw [List.mem_singleton.mp hnew]
  senders := by
    rw [List.map_append, List.nodup_append]
    refine ⟨h.senders, List.nodup_singleton _, ?_⟩
    rintro a ha b hb rfl
    obtain ⟨e, he, rfl⟩ := List.mem_map.mp ha
    have hslot := (h.bySender _ _).mpr ⟨e, he, rfl, rfl⟩
    exact hadmits.sender_ne hslot (List.mem_singleton.mp hb)

theorem Numbered.accept (h : mp.Numbered queue)
    (hbelow : ∀ e ∈ queue, e.feelessSeq < mp.nextSeq) :
    (mp.accept t).Numbered (queue ++ [⟨t, TxChain.txid t, mp.nextSeq⟩]) where
  bySeq seq id := by
    rw [Mempool.accept, OrderedMap.getElem?_insert_some, h.bySeq]
    simp only [List.mem_append, List.mem_singleton]
    constructor
    · rintro (⟨rfl, rfl⟩ | ⟨-, e, he, hseq, hid⟩)
      · exact ⟨_, .inr rfl, rfl, rfl⟩
      · exact ⟨e, .inl he, hseq, hid⟩
    · rintro ⟨e, he | rfl, rfl, rfl⟩
      · exact .inr ⟨UInt64.ne_of_lt (hbelow e he), e, he, rfl, rfl⟩
      · exact .inl ⟨rfl, rfl⟩
  ordered := by
    rw [List.pairwise_append]
    refine ⟨h.ordered, List.pairwise_singleton _ _, ?_⟩
    intro e he e' he'
    rw [List.mem_singleton.mp he']
    exact hbelow e he

/-! ### Eviction filters -/

/-- An eviction finds no entry and does nothing, or it erases one entry and its slot. -/
theorem Describes.evictOne_cases (h : mp.Describes queue)
    (hids : ∀ e ∈ queue, TxChain.txid e.txn = TxChain.txid t → e.txn = t) :
    ((∀ e ∈ queue, e.txn ≠ t) ∧ mp.evictOne t = mp) ∨
      ∃ gone ∈ queue, gone.txn = t ∧ mp.evictOne t =
        { mp with
          bySeq := mp.bySeq.erase gone.feelessSeq
          bySender := mp.bySender.erase t.from
          byTxid := mp.byTxid.erase (TxChain.txid t) } := by
  cases hentry : mp.byTxid[TxChain.txid t]? with
  | none =>
      left
      refine ⟨?_, by rw [Mempool.evictOne, hentry]⟩
      rintro e he rfl
      rw [(h.byTxid _ _).mpr ⟨he, h.cached e he⟩] at hentry
      cases hentry
  | some gone =>
      right
      obtain ⟨hgone, hid⟩ := (h.byTxid _ _).mp hentry
      have htxn : gone.txn = t := hids gone hgone (by rw [← h.cached gone hgone, hid])
      have hslot : mp.bySender[t.from]? = some (TxChain.txid t) :=
        (h.bySender _ _).mpr ⟨gone, hgone, congrArg Txn.from htxn, hid⟩
      refine ⟨gone, hgone, htxn, ?_⟩
      rw [Mempool.evictOne, hentry]
      simp only [hslot, if_true]

theorem Describes.evictOne (h : mp.Describes queue)
    (hids : ∀ e ∈ queue, TxChain.txid e.txn = TxChain.txid t → e.txn = t) :
    (mp.evictOne t).Describes (queue.filter fun e => e.txn ≠ t) := by
  rcases h.evictOne_cases hids with ⟨hnone, hsame⟩ | ⟨gone, hgone, rfl, hnext⟩
  · rw [hsame, List.filter_eq_self.mpr fun e he => decide_eq_true (hnone e he)]
    exact h
  · rw [hnext]
    constructor
    · intro id e
      rw [OrderedMap.getElem?_erase_some, h.byTxid, List.mem_filter, decide_eq_true_eq]
      constructor
      · rintro ⟨hother, he, rfl⟩
        refine ⟨⟨he, fun htxn => hother ?_⟩, rfl⟩
        rw [h.cached e he, htxn]
      · rintro ⟨⟨he, htxn⟩, rfl⟩
        refine ⟨fun hid => htxn (hids e he ?_), he, rfl⟩
        rw [← h.cached e he, hid]
    · intro a id
      rw [OrderedMap.getElem?_erase_some, h.bySender]
      simp only [List.mem_filter, decide_eq_true_eq]
      constructor
      · rintro ⟨hother, e, he, rfl, hid⟩
        exact ⟨e, ⟨he, fun htxn => hother (congrArg Txn.from htxn)⟩, rfl, hid⟩
      · rintro ⟨e, ⟨he, htxn⟩, rfl, hid⟩
        refine ⟨fun hsender => htxn ?_, e, he, rfl, hid⟩
        rw [h.sender_inj he hgone hsender]
    · intro e he
      exact h.cached e (List.mem_of_mem_filter he)
    · exact h.senders.sublist (List.filter_sublist.map _)

theorem Numbered.evictOne (hn : mp.Numbered queue) (h : mp.Describes queue)
    (hids : ∀ e ∈ queue, TxChain.txid e.txn = TxChain.txid t → e.txn = t) :
    (mp.evictOne t).Numbered (queue.filter fun e => e.txn ≠ t) := by
  rcases h.evictOne_cases hids with ⟨hnone, hsame⟩ | ⟨gone, hgone, rfl, hnext⟩
  · rw [hsame, List.filter_eq_self.mpr fun e he => decide_eq_true (hnone e he)]
    exact hn
  · rw [hnext]
    refine ⟨?_, hn.ordered.sublist List.filter_sublist⟩
    intro seq id
    rw [OrderedMap.getElem?_erase_some, hn.bySeq]
    simp only [List.mem_filter, decide_eq_true_eq]
    constructor
    · rintro ⟨hother, e, he, rfl, hid⟩
      refine ⟨e, ⟨he, fun htxn => hother ?_⟩, rfl, hid⟩
      rw [h.sender_inj he hgone (congrArg Txn.from htxn)]
    · rintro ⟨e, ⟨he, htxn⟩, rfl, hid⟩
      refine ⟨fun hseq => htxn ?_, e, he, rfl, hid⟩
      -- two entries with one number are under one id
      have hsame := (hn.bySeq _ _).mpr ⟨e, he, rfl, rfl⟩
      rw [(hn.bySeq _ _).mpr ⟨gone, hgone, hseq.symm, rfl⟩] at hsame
      have hentry := (h.byTxid _ _).mpr ⟨hgone, Option.some.inj hsame⟩
      rw [(h.byTxid _ _).mpr ⟨he, rfl⟩] at hentry
      rw [Option.some.inj hentry]

end Mempool

/-! ### Runs -/

open Mempool

variable {mp : Mempool} {queue : List MempoolEntry} {accountAt : AccountLookup} {t : Txn}
variable {P : Txn → Prop} {cap n : ℕ}

/-- A pool after `n` accepted admissions, with the queue it describes. -/
structure Queued (P : Txn → Prop) (cap n : ℕ) (mp : Mempool) (queue : List MempoolEntry) : Prop
    extends mp.Describes queue where
  capacity : mp.cap = cap
  presented : ∀ e ∈ queue, P e.txn
  next : mp.nextSeq = UInt64.ofNat n
  numbered : n ≤ 2 ^ 64 → mp.Numbered queue ∧ ∀ e ∈ queue, e.feelessSeq.toNat < n

theorem queued_empty (P : Txn → Prop) (cap : ℕ) : Queued P cap 0 { cap } [] where
  byTxid id e := by simp
  bySender a id := by simp
  cached e he := by cases he
  senders := List.nodup_nil
  capacity := rfl
  presented e he := by cases he
  next := rfl
  numbered _ := ⟨⟨fun seq id => by simp, List.Pairwise.nil⟩, fun e he => by cases he⟩

theorem Queued.accept (h : Queued P cap n mp queue) (hadmits : mp.Admits accountAt t) (ht : P t) :
    Queued P cap (n + 1) (mp.accept t) (queue ++ [⟨t, txid t, mp.nextSeq⟩]) where
  toDescribes := h.toDescribes.accept hadmits
  capacity := h.capacity
  presented e he := by
    rcases List.mem_append.mp he with hold | hnew
    · exact h.presented e hold
    · rw [List.mem_singleton.mp hnew]
      exact ht
  next := by
    show mp.nextSeq + 1 = UInt64.ofNat (n + 1)
    rw [h.next, UInt64.ofNat_add]
    rfl
  numbered hn := by
    obtain ⟨hnumbered, hbelow⟩ := h.numbered (by omega)
    have hlast : mp.nextSeq.toNat = n := by
      rw [h.next]
      exact UInt64.toNat_ofNat_of_lt' hn
    refine ⟨hnumbered.accept fun e he => ?_, fun e he => ?_⟩
    · rw [UInt64.lt_iff_toNat_lt, hlast]
      exact hbelow e he
    · rcases List.mem_append.mp he with hold | hnew
      · exact Nat.lt_succ_of_lt (hbelow e hold)
      · rw [List.mem_singleton.mp hnew]
        exact hlast.trans_lt (Nat.lt_succ_self n)

/-- Distinct presented transactions have distinct ids. -/
theorem Queued.ids (h : Queued P cap n mp queue)
    (hids : ∀ t t', P t → P t' → txid t = txid t' → t = t') (ht : P t) :
    ∀ e ∈ queue, txid e.txn = txid t → e.txn = t :=
  fun e he => hids e.txn t (h.presented e he) ht

theorem Queued.evictOne (h : Queued P cap n mp queue)
    (hids : ∀ e ∈ queue, txid e.txn = txid t → e.txn = t) :
    Queued P cap n (mp.evictOne t) (queue.filter fun e => e.txn ≠ t) := by
  have hsettings : (mp.evictOne t).cap = mp.cap ∧ (mp.evictOne t).nextSeq = mp.nextSeq := by
    rcases h.evictOne_cases hids with ⟨-, hsame⟩ | ⟨_, -, -, hnext⟩
    · rw [hsame]
      exact ⟨rfl, rfl⟩
    · rw [hnext]
      exact ⟨rfl, rfl⟩
  refine ⟨h.toDescribes.evictOne hids, hsettings.1.trans h.capacity, ?_,
    hsettings.2.trans h.next, ?_⟩
  · exact fun e he => h.presented e (List.mem_of_mem_filter he)
  · intro hn
    obtain ⟨hnumbered, hbelow⟩ := h.numbered hn
    exact ⟨hnumbered.evictOne h.toDescribes hids,
      fun e he => hbelow e (List.mem_of_mem_filter he)⟩

theorem Queued.evictIncluded (h : Queued P cap n mp queue)
    (hids : ∀ t t', P t → P t' → txid t = txid t' → t = t') {txns : List Txn}
    (htxns : ∀ t ∈ txns, P t) :
    Queued P cap n (mp.evictIncluded txns) (queue.filter fun e => e.txn ∉ txns) := by
  induction txns generalizing mp queue with
  | nil => simpa [Mempool.evictIncluded] using h
  | cons t rest ih =>
      obtain ⟨ht, hrest⟩ := List.forall_mem_cons.mp htxns
      have hall := ih (h.evictOne (h.ids hids ht)) hrest
      rw [List.filter_filter] at hall
      have hlist : (queue.filter fun e => e.txn ∉ t :: rest) =
          queue.filter fun e => decide (e.txn ∉ rest) && decide (e.txn ≠ t) := by
        apply List.filter_congr
        intro e _
        rw [← Bool.decide_and, decide_eq_decide, List.mem_cons, not_or, and_comm]
      rw [hlist]
      exact hall

/-- One call keeps the pool and its queue in step. -/
theorem Queued.apply (h : Queued P cap n mp queue)
    (hids : ∀ t t', P t → P t' → txid t = txid t' → t = t') {op : MempoolOp}
    (hop : ∀ t ∈ op.presented, P t) :
    ∃ queue', Queued P cap (n + if op.accepts mp then 1 else 0) (op.apply mp) queue' ∧
      queue'.map MempoolEntry.txn = op.onQueue cap (queue.map MempoolEntry.txn) := by
  cases op with
  | admitTxn accountAt t =>
      have ht : P t := hop t (List.mem_singleton_self t)
      have hjoins : mp.Admits accountAt t ↔ _ := h.admits_iff (h.ids hids ht)
      rw [h.capacity] at hjoins
      rcases mp.admitTxn_cases accountAt t with ⟨hadmits, hok⟩ | ⟨hrefused, hsame⟩
      · refine ⟨queue ++ [⟨t, txid t, mp.nextSeq⟩], ?_, ?_⟩
        · simp only [MempoolOp.accepts, MempoolOp.apply, hok, decide_true, if_true]
          exact h.accept hadmits ht
        · rw [MempoolOp.onQueue, if_pos (hjoins.mp hadmits), List.map_append]
          rfl
      · have hstays : ¬mp.Admits accountAt t := by
          intro hadmits
          rw [admitTxn_ok hadmits] at hrefused
          exact hrefused rfl
        refine ⟨queue, ?_, ?_⟩
        · simp only [MempoolOp.accepts, MempoolOp.apply, hsame, hrefused, decide_false,
            Bool.false_eq_true, if_false]
          exact h
        · rw [MempoolOp.onQueue, if_neg fun hj => hstays (hjoins.mpr hj)]
  | evictIncluded txns =>
      refine ⟨queue.filter fun e => e.txn ∉ txns, h.evictIncluded hids hop, ?_⟩
      rw [MempoolOp.onQueue, List.filter_map]
      rfl

/-- After any run the pool describes the queue that the same calls build. -/
theorem runMempool_queued (hids : ∀ t t', P t → P t' → txid t = txid t' → t = t') (cap : ℕ)
    {ops : List MempoolOp} (hops : ∀ t ∈ ops.flatMap MempoolOp.presented, P t) :
    ∃ queue, Queued P cap (acceptedCount cap ops) (runMempool cap ops) queue ∧
      queue.map MempoolEntry.txn = runQueue cap ops := by
  induction ops using List.reverseRecOn with
  | nil => exact ⟨[], queued_empty P cap, rfl⟩
  | append_singleton pre op ih =>
      rw [List.flatMap_append, List.flatMap_singleton, List.forall_mem_append] at hops
      obtain ⟨queue, hqueued, hqueue⟩ := ih hops.1
      obtain ⟨queue', hnext, hqueue'⟩ := hqueued.apply hids hops.2
      have hcount : acceptedCount cap (pre ++ [op]) =
          acceptedCount cap pre + if op.accepts (runMempool cap pre) then 1 else 0 := by
        rw [acceptedCount, Run.moves_concat, List.countP_append, List.countP_singleton]
        rfl
      have hrun : runMempool cap (pre ++ [op]) = op.apply (runMempool cap pre) :=
        List.foldl_concat _ _ _ _
      refine ⟨queue', ?_, ?_⟩
      · rw [hcount, hrun]
        exact hnext
      · rw [runQueue, List.foldl_concat, hqueue', hqueue]
        rfl

/-- The transaction waits in the pool, under its own id. -/
def Mempool.Holds (mp : Mempool) (t : Txn) : Prop := ∃ e, mp.byTxid[txid t]? = some e ∧ e.txn = t

theorem Mempool.Describes.holds_iff (h : mp.Describes queue) :
    mp.Holds t ↔ ∃ e ∈ queue, e.txn = t := by
  constructor
  · rintro ⟨e, he, rfl⟩
    exact ⟨e, ((h.byTxid _ _).mp he).1, rfl⟩
  · rintro ⟨e, he, rfl⟩
    exact ⟨e, (h.byTxid _ _).mpr ⟨he, h.cached e he⟩, rfl⟩

/-- What a pool holds whose queue has lost the listed transactions. -/
theorem Mempool.Describes.holds_filter {mp' : Mempool} {txns : List Txn}
    (h : mp.Describes queue) (h' : mp'.Describes (queue.filter fun e => e.txn ∉ txns)) :
    mp'.Holds t ↔ mp.Holds t ∧ t ∉ txns := by
  rw [h'.holds_iff, h.holds_iff]
  simp only [List.mem_filter, decide_eq_true_eq]
  constructor
  · rintro ⟨e, ⟨he, hkept⟩, rfl⟩
    exact ⟨⟨e, he, rfl⟩, hkept⟩
  · rintro ⟨⟨e, he, rfl⟩, hkept⟩
    exact ⟨e, ⟨he, hkept⟩, rfl⟩

/-- A slot is freed by the listed transaction that held it. -/
theorem Mempool.Describes.slot_free_filter {mp' : Mempool} {txns : List Txn}
    (h : mp.Describes queue) (h' : mp'.Describes (queue.filter fun e => e.txn ∉ txns))
    (a : Address) :
    mp'.bySender[a]? = none ↔
      mp.bySender[a]? = none ∨ ∃ t ∈ txns, mp.Holds t ∧ t.from = a := by
  rw [h'.slot_free_iff, h.slot_free_iff]
  simp only [List.mem_filter, decide_eq_true_eq]
  constructor
  · intro hfree
    by_cases hslot : ∃ e ∈ queue, e.txn.from = a
    · right
      obtain ⟨e, he, rfl⟩ := hslot
      have hlisted : e.txn ∈ txns := by
        by_contra hkept
        exact hfree e ⟨he, hkept⟩ rfl
      exact ⟨e.txn, hlisted, h.holds_iff.mpr ⟨e, he, rfl⟩, rfl⟩
    · left
      intro e he heq
      exact hslot ⟨e, he, heq⟩
  · rintro (hfree | ⟨t, ht, hholds, rfl⟩) e ⟨he, hkept⟩ heq
    · exact hfree e he heq
    · -- the sender's only entry is listed
      obtain ⟨e', he', rfl⟩ := h.holds_iff.mp hholds
      rw [h.sender_inj he he' heq] at hkept
      exact hkept ht

/-- In every run that presents no two transactions under one id, the hash maps describe
one queue of entries, which is the queue the calls build; so does the admission order
while the counter has not wrapped around; and an eviction removes the listed pending
transactions and frees their slots, and no others. -/
theorem pool_describes_queue (cap : ℕ) (ops : List MempoolOp)
    (hids : ∀ t ∈ ops.flatMap MempoolOp.presented, ∀ t' ∈ ops.flatMap MempoolOp.presented,
      txid t = txid t' → t = t') :
    (∃ queue, (runMempool cap ops).Describes queue ∧
      queue.map MempoolEntry.txn = runQueue cap ops ∧
      (runMempool cap ops).byTxid.size = queue.length ∧ queue.length ≤ cap ∧
      (acceptedCount cap ops ≤ 2 ^ 64 →
        (runMempool cap ops).Numbered queue ∧ (runMempool cap ops).sortedBySeq = queue)) ∧
    ∀ pre txns post, ops = pre ++ .evictIncluded txns :: post →
      let before := runMempool cap pre
      let after := before.evictIncluded txns
      (∀ t, after.Holds t ↔ before.Holds t ∧ t ∉ txns) ∧
      ∀ a, after.bySender[a]? = none ↔
        before.bySender[a]? = none ∨ ∃ t ∈ txns, before.Holds t ∧ t.from = a := by
  have hinj : ∀ t t', t ∈ ops.flatMap MempoolOp.presented →
      t' ∈ ops.flatMap MempoolOp.presented → txid t = txid t' → t = t' :=
    fun t t' ht ht' => hids t ht t' ht'
  constructor
  · obtain ⟨queue, hqueued, hqueue⟩ := runMempool_queued hinj cap fun t ht => ht
    have hlength : queue.length ≤ cap := by
      have hbound := length_runQueue cap ops
      rw [← hqueue, List.length_map] at hbound
      exact hbound
    refine ⟨queue, hqueued.toDescribes, hqueue, hqueued.size, hlength, ?_⟩
    intro hcount
    obtain ⟨hnumbered, -⟩ := hqueued.numbered hcount
    exact ⟨hnumbered, hnumbered.sortedBySeq hqueued.toDescribes⟩
  · intro pre txns post hsplit before after
    have hpre : ∀ t ∈ pre.flatMap MempoolOp.presented, t ∈ ops.flatMap MempoolOp.presented := by
      intro t ht
      rw [hsplit, List.flatMap_append]
      exact List.mem_append_left _ ht
    have htxns : ∀ t ∈ txns, t ∈ ops.flatMap MempoolOp.presented := by
      intro t ht
      rw [hsplit, List.flatMap_append, List.flatMap_cons]
      exact List.mem_append_right _ (List.mem_append_left _ ht)
    obtain ⟨queue, hbefore, -⟩ := runMempool_queued hinj cap hpre
    have hafter := hbefore.evictIncluded hinj htxns
    exact ⟨fun t => hbefore.toDescribes.holds_filter hafter.toDescribes,
      hbefore.toDescribes.slot_free_filter hafter.toDescribes⟩

end Queue

section Samples

/-! ### When the counter wraps around -/

/-- Real SHA-256, and the signatures of the two transfers. -/
abbrev twoSigners : Crypto :=
  knownSignatures ([payOliver, payRacheal].map fun t => (t.pubkey, t.sig, signedPayload t))

def funded : AccountLookup := fun _ => { balance := 1000 }

/-- The second transfer is admitted and evicted. -/
def wrapRound : List MempoolOp := [.admitTxn funded payRacheal, .evictIncluded [payRacheal]]

/-- One transfer stays pending while the other is admitted and evicted again and again,
and then admitted once more. -/
def wrapOps (rounds : ℕ) : List MempoolOp :=
  .admitTxn funded payOliver ::
    (List.replicate rounds wrapRound).flatten ++ [.admitTxn funded payRacheal]

attribute [local instance] twoSigners

theorem payOliver_authentic : payOliver.Authentic := by
  refine ⟨by decide, (rachealKey_address rfl).symm, decide_eq_true ?_⟩
  exact List.mem_map_of_mem List.mem_cons_self

theorem payRacheal_authentic : payRacheal.Authentic := by
  refine ⟨by decide, (oliverKey_address rfl).symm, decide_eq_true ?_⟩
  exact List.mem_map_of_mem (List.mem_cons_of_mem _ List.mem_cons_self)

theorem wrapOps_presented {rounds : ℕ} {t : Txn}
    (h : t ∈ (wrapOps rounds).flatMap MempoolOp.presented) : t ∈ [payOliver, payRacheal] := by
  obtain ⟨op, hop, ht⟩ := List.mem_flatMap.mp h
  simp only [wrapOps, wrapRound, List.mem_append, List.mem_cons, List.mem_flatten, List.not_mem_nil,
    or_false] at hop
  rcases hop with (rfl | ⟨round, hround, hop⟩) | rfl
  · exact List.mem_cons.mpr (.inl (List.mem_singleton.mp ht))
  · rw [List.eq_of_mem_replicate hround] at hop
    simp only [List.mem_cons, List.not_mem_nil, or_false] at hop
    rcases hop with rfl | rfl <;>
      exact List.mem_cons_of_mem _ ht
  · exact List.mem_cons_of_mem _ ht

theorem payRacheal_joins : Joins 4096 funded [payOliver] payRacheal :=
  ⟨rfl, payRacheal_authentic, ⟨rfl, by decide⟩, by decide, by decide⟩

/-- With both transfers admitted and the first one evicted, the second waits. -/
theorem payRacheal_stays :
    (runMempool 4096 [.admitTxn funded payOliver, .admitTxn funded payRacheal,
      .evictIncluded [payOliver]]).sortedBySeq.map MempoolEntry.txn = [payRacheal] := by
  let ops : List MempoolOp := [.admitTxn funded payOliver, .admitTxn funded payRacheal,
    .evictIncluded [payOliver]]
  have hpresented : ∀ t ∈ ops.flatMap MempoolOp.presented, t ∈ [payOliver, payRacheal] := by
    simp [ops, MempoolOp.presented]
  obtain ⟨⟨queue, -, hqueue, -, -, hnumbered⟩, -⟩ := pool_describes_queue 4096 ops
    fun t ht t' ht' => two_ids rfl t t' (hpresented t ht) (hpresented t' ht')
  have hcount : acceptedCount 4096 ops ≤ 2 ^ 64 :=
    List.countP_le_length.trans (by simp [ops, Run.moves])
  have hfirst : Joins 4096 funded [] payOliver :=
    ⟨rfl, payOliver_authentic, ⟨rfl, by decide⟩, by simp, by decide⟩
  have hqueue' : runQueue 4096 ops = [payRacheal] := by
    have hkept : ([payOliver, payRacheal].filter fun t => t ∉ [payOliver]) = [payRacheal] := by
      decide
    simp only [ops, runQueue, List.foldl_cons, List.foldl_nil, MempoolOp.onQueue, if_pos hfirst,
      List.nil_append, if_pos payRacheal_joins, List.singleton_append]
    exact hkept
  rw [(hnumbered hcount).2, hqueue, hqueue']

/-- The second transfer can join the pool that holds the first. -/
theorem payRacheal_admits {n : ℕ} {mp : Mempool} {e : MempoolEntry} (he : e.txn = payOliver)
    (h : Queued (· ∈ [payOliver, payRacheal]) 4096 n mp [e]) : mp.Admits funded payRacheal := by
  have hmem : payRacheal ∈ [payOliver, payRacheal] := List.mem_cons_of_mem _ List.mem_cons_self
  apply (h.admits_iff (h.ids (two_ids rfl) hmem)).mpr
  rw [h.capacity, List.map_singleton, he]
  exact payRacheal_joins

/-- A round leaves the pool as it was, but for the counter. -/
theorem wrap_rounds {n : ℕ} {mp : Mempool} {e : MempoolEntry} (he : e.txn = payOliver)
    (h : Queued (· ∈ [payOliver, payRacheal]) 4096 n mp [e]) (rounds : ℕ) :
    Queued (· ∈ [payOliver, payRacheal]) 4096 (n + rounds)
      ((List.replicate rounds wrapRound).flatten.foldl MempoolOp.apply mp) [e] := by
  induction rounds generalizing n mp with
  | zero => exact h
  | succ rounds ih =>
      have hmem : payRacheal ∈ [payOliver, payRacheal] := List.mem_cons_of_mem _ List.mem_cons_self
      have hadmits := payRacheal_admits he h
      have hlisted : ∀ t ∈ [payRacheal], t ∈ [payOliver, payRacheal] :=
        fun t ht => List.mem_cons_of_mem _ ht
      have hround := (h.accept hadmits hmem).evictIncluded (two_ids rfl) hlisted
      have hqueue : ([e] ++ [(⟨payRacheal, txid payRacheal, mp.nextSeq⟩ : MempoolEntry)]).filter
          (fun e => e.txn ∉ [payRacheal]) = [e] := by
        have hother : payOliver ≠ payRacheal := by decide
        simp [he, hother]
      rw [hqueue] at hround
      have hnext := ih hround
      rw [List.replicate_succ, List.flatten_cons, List.foldl_append, Nat.add_comm rounds,
        ← Nat.add_assoc]
      have happly : wrapRound.foldl MempoolOp.apply mp =
          (mp.accept payRacheal).evictIncluded [payRacheal] :=
        congrArg (fun r => (Prod.snd r).evictIncluded [payRacheal]) (Mempool.admitTxn_ok hadmits)
      rw [happly]
      exact hnext

/-- The last admission takes the number of the transfer that waits. -/
theorem wrap_last {mp : Mempool} {e : MempoolEntry} (he : e.txn = payOliver)
    (hseq : e.feelessSeq = 0) (h : Queued (· ∈ [payOliver, payRacheal]) 4096 (2 ^ 64) mp [e]) :
    (mp.admitTxn funded payRacheal).2.Holds payOliver ∧
      payOliver ∉ (mp.admitTxn funded payRacheal).2.sortedBySeq.map MempoolEntry.txn := by
  have hadmits := payRacheal_admits he h
  have hafter := h.toDescribes.accept hadmits
  obtain ⟨hnumbered, -⟩ := h.numbered le_rfl
  have hnext : mp.nextSeq = 0 := h.next
  have horder : (mp.accept payRacheal).bySeq.toList = [(0, txid payRacheal)] := by
    apply OrderedMap.toList_of_mem_iff _ (List.pairwise_singleton _ _)
    intro seq id
    rw [Mempool.accept, hnext, OrderedMap.getElem?_insert_some, hnumbered.bySeq,
      List.mem_singleton, Prod.mk.injEq]
    constructor
    · rintro (⟨hnew, rfl⟩ | ⟨hold, e', he', rfl, -⟩)
      · exact ⟨hnew, rfl⟩
      · rw [List.mem_singleton.mp he', hseq] at hold
        exact absurd rfl hold
    · rintro ⟨hnew, rfl⟩
      exact .inl ⟨hnew, rfl⟩
  rw [Mempool.admitTxn_ok hadmits]
  refine ⟨hafter.holds_iff.mpr ⟨e, List.mem_append_left _ (List.mem_singleton_self e), he⟩, ?_⟩
  intro hlisted
  obtain ⟨e', he', htxn⟩ := List.mem_map.mp hlisted
  obtain ⟨kv, hkv, hentry⟩ := List.mem_filterMap.mp he'
  rw [show (mp.accept payRacheal).bySeq.toList = _ from horder, List.mem_singleton] at hkv
  rw [hkv] at hentry
  obtain ⟨hmem, hid⟩ := (hafter.byTxid _ _).mp hentry
  rw [hafter.cached e' hmem, htxn] at hid
  exact payOliver_txid_ne rfl hid

theorem wrapOps_hides {rounds : ℕ} (hrounds : rounds + 1 = 2 ^ 64) :
    (runMempool 4096 (wrapOps rounds)).Holds payOliver ∧
      payOliver ∉ (runMempool 4096 (wrapOps rounds)).sortedBySeq.map MempoolEntry.txn := by
  have hmem : payOliver ∈ [payOliver, payRacheal] := List.mem_cons_self
  have hfirst : ({ cap := 4096 } : Mempool).Admits funded payOliver :=
    Mempool.admits_empty (by decide) rfl payOliver_authentic ⟨rfl, by decide⟩
  have hstart := (queued_empty (· ∈ [payOliver, payRacheal]) 4096).accept hfirst hmem
  have hfull := wrap_rounds rfl hstart rounds
  rw [Nat.zero_add, Nat.add_comm 1, hrounds] at hfull
  have hrun : runMempool 4096 (wrapOps rounds) =
      (((List.replicate rounds wrapRound).flatten.foldl MempoolOp.apply
        (({ cap := 4096 } : Mempool).accept payOliver)).admitTxn funded payRacheal).2 := by
    rw [runMempool, wrapOps, List.cons_append, List.foldl_cons, List.foldl_append, MempoolOp.apply,
      Mempool.admitTxn_ok hfirst]
    rfl
  rw [hrun]
  exact wrap_last rfl rfl hfull

/-- After `2 ^ 64 + 1` accepted admissions a number is given out again while its first
owner still waits: the pool holds both transfers and its order lists one. -/
theorem wrapped_counter_hides_transaction :
    (∀ t ∈ (wrapOps (2 ^ 64 - 1)).flatMap MempoolOp.presented,
      ∀ t' ∈ (wrapOps (2 ^ 64 - 1)).flatMap MempoolOp.presented, txid t = txid t' → t = t') ∧
    (runMempool 4096 (wrapOps (2 ^ 64 - 1))).Holds payOliver ∧
    payOliver ∉ (runMempool 4096 (wrapOps (2 ^ 64 - 1))).sortedBySeq.map MempoolEntry.txn := by
  have hrounds : 2 ^ 64 - 1 + 1 = 2 ^ 64 := Nat.sub_add_cancel (Nat.one_le_two_pow)
  generalize 2 ^ 64 - 1 = rounds at hrounds ⊢
  exact ⟨fun t ht t' ht' => two_ids rfl t t' (wrapOps_presented ht) (wrapOps_presented ht'),
    wrapOps_hides hrounds⟩

end Samples

end TxChain
