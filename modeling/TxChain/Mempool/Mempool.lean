import TxChain.Chain.Gate
import TxChain.Library.OrderedMap

/-!
# The mempool

Validated transactions that wait for inclusion, one slot for each sender. Three
indexes describe the pool: the entries by txid, the slot of a sender and the
admission order. The two hash maps are looked up and never traversed, so ordered
maps stand for them as well. Admission asks the consensus gate itself, on a map
that holds the committed account of the sender and nothing else.

`WellIndexed` is what every sequence of admissions and evictions preserves, against
any committed state and without assuming that txids are distinct.
-/

namespace TxChain

/-- A pending transaction with its cached id and its admission number. -/
structure MempoolEntry where
  txn : Txn
  txid : Digest32
  feelessSeq : UInt64

inductive AdmitResult where
  | ok
  | badSig
  | badAddr
  | staleNonce
  | insufficientFunds
  | unparseable
  | duplicate
  | mempoolFull
  | pendingSlotBusy
  deriving DecidableEq

/-- The members shared with the consensus enumeration keep their names. -/
def reasonToAdmit : Reason → AdmitResult
  | .ok => .ok
  | .badAddr => .badAddr
  | .badSig => .badSig
  | .staleNonce => .staleNonce
  | .insufficientFunds => .insufficientFunds
  | _ => .unparseable

/-- A read-only view of the committed accounts. -/
abbrev AccountLookup := Address → AccountState

structure Mempool where
  cap : ℕ := 4096
  nextSeq : UInt64 := 0
  byTxid : Std.TreeMap Digest32 MempoolEntry byteOrder := ∅
  bySender : Std.TreeMap Address Digest32 byteOrder := ∅
  bySeq : Std.TreeMap UInt64 Digest32 := ∅

namespace Mempool

/-- The pending entries in admission order. -/
def sortedBySeq (mp : Mempool) : List MempoolEntry :=
  mp.bySeq.toList.filterMap fun kv => mp.byTxid[kv.2]?

variable [Crypto]

/-- The last step of an admission: fill the slot and all three indexes. -/
def accept (mp : Mempool) (t : Txn) : Mempool :=
  { mp with
    nextSeq := mp.nextSeq + 1
    byTxid := mp.byTxid.insert (txid t) ⟨t, txid t, mp.nextSeq⟩
    bySender := mp.bySender.insert t.from (txid t)
    bySeq := mp.bySeq.insert mp.nextSeq (txid t) }

/-- The normative order of the checks. The index 1 keeps the gate off its coinbase
branch. -/
def admitTxn (mp : Mempool) (accountAt : AccountLookup) (t : Txn) : AdmitResult × Mempool :=
  if t.ver ≠ kTxnVersion then (.unparseable, mp)
  else if mp.byTxid[txid t]? ≠ none then (.duplicate, mp)
  else
    let shadow : AccountMap := AccountMap.set ∅ t.from (accountAt t.from)
    let r := (applyTxn shadow t 0 1).1
    if r = .badAddr ∨ r = .badSig ∨ r = .staleNonce then (reasonToAdmit r, mp)
    else if r ≠ .ok ∧ r ≠ .insufficientFunds then (.badAddr, mp)
    else if mp.bySender[t.from]? ≠ none then (.pendingSlotBusy, mp)
    else if r = .insufficientFunds then (.insufficientFunds, mp)
    else if mp.byTxid.size ≥ mp.cap then (.mempoolFull, mp)
    else (.ok, mp.accept t)

/-- Drop one included transaction; its slot is freed if it is the one that holds it. -/
def evictOne (mp : Mempool) (t : Txn) : Mempool :=
  match mp.byTxid[txid t]? with
  | none => mp
  | some e =>
      { mp with
        bySeq := mp.bySeq.erase e.feelessSeq
        bySender :=
          if mp.bySender[t.from]? = some (txid t) then mp.bySender.erase t.from else mp.bySender
        byTxid := mp.byTxid.erase (txid t) }

def evictIncluded (mp : Mempool) (txns : List Txn) : Mempool := txns.foldl evictOne mp

/-! ### What an admission is -/

/-- The checks of an admission, all passed. -/
structure Admits (mp : Mempool) (accountAt : AccountLookup) (t : Txn) : Prop where
  ver : t.ver = kTxnVersion
  fresh : mp.byTxid[txid t]? = none
  authentic : t.Authentic
  spendable : t.Spendable (accountAt t.from)
  free : mp.bySender[t.from]? = none
  room : mp.byTxid.size < mp.cap

variable {mp : Mempool} {accountAt : AccountLookup} {t : Txn}

/-- On its shadow the gate sees the sender's account and no coinbase. -/
theorem shadow_ok_iff :
    (applyTxn (AccountMap.set ∅ t.from (accountAt t.from)) t 0 1).1 = .ok ↔
      t.Authentic ∧ t.Spendable (accountAt t.from) := by
  have hview : (AccountMap.set ∅ t.from (accountAt t.from)).lookup t.from = accountAt t.from := by
    rw [AccountMap.lookup_set, if_pos rfl]
  constructor
  · intro h
    rcases applyTxn_cases h with ⟨hindex, -⟩ | ⟨hauth, hspend, -⟩
    · exact absurd hindex Nat.one_ne_zero
    · rw [hview] at hspend
      exact ⟨hauth, hspend⟩
  · rintro ⟨hauth, hspend⟩
    rw [← hview] at hspend
    rw [applyTxn_signed hauth hspend]

theorem admitTxn_ok (h : mp.Admits accountAt t) : mp.admitTxn accountAt t = (.ok, mp.accept t) := by
  have hgate := shadow_ok_iff.mpr ⟨h.authentic, h.spendable⟩
  simp [admitTxn, h.ver, h.fresh, hgate, h.free, h.room]

/-- An admission fills every index or leaves the pool as it was. -/
theorem admitTxn_cases (mp : Mempool) (accountAt : AccountLookup) (t : Txn) :
    (mp.Admits accountAt t ∧ mp.admitTxn accountAt t = (.ok, mp.accept t)) ∨
      ((mp.admitTxn accountAt t).1 ≠ .ok ∧ (mp.admitTxn accountAt t).2 = mp) := by
  by_cases h : mp.Admits accountAt t
  · exact .inl ⟨h, admitTxn_ok h⟩
  · right
    simp only [admitTxn]
    split_ifs with hver hfresh hearly hshape hslot hfunds hfull
    · simp
    · simp
    · refine ⟨?_, rfl⟩
      rcases hearly with hr | hr | hr <;> simp [hr, reasonToAdmit]
    · simp
    · simp
    · simp
    · simp
    · -- every check passed
      have hok : (applyTxn (AccountMap.set ∅ t.from (accountAt t.from)) t 0 1).1 = .ok := by
        by_contra hne
        exact hshape ⟨hne, hfunds⟩
      obtain ⟨hauth, hspend⟩ := shadow_ok_iff.mp hok
      exact absurd ⟨not_not.mp hver, not_not.mp hfresh, hauth, hspend, not_not.mp hslot,
        Nat.lt_of_not_le hfull⟩ h

/-- An admitted transaction comes under a new id. -/
theorem Admits.id_ne (h : mp.Admits accountAt t) {id : Digest32} {e : MempoolEntry}
    (he : mp.byTxid[id]? = some e) : id ≠ txid t := by
  rintro rfl
  rw [h.fresh] at he
  cases he

/-- It comes from a sender without a slot. -/
theorem Admits.sender_ne (h : mp.Admits accountAt t) {a : Address} {id : Digest32}
    (hslot : mp.bySender[a]? = some id) : a ≠ t.from := by
  rintro rfl
  rw [h.free] at hslot
  cases hslot

/-! ### The indexes -/

/-- What holds of the entry stored under `id`. -/
structure Pending (mp : Mempool) (id : Digest32) (e : MempoolEntry) : Prop where
  cached : e.txid = id
  content : TxChain.txid e.txn = id
  slot : mp.bySender[e.txn.from]? = some id
  ver : e.txn.ver = kTxnVersion
  authentic : e.txn.Authentic

/-- Every entry holds the slot of its sender, and the queue lists entries only,
each under its own number. -/
structure WellIndexed (mp : Mempool) : Prop where
  pending : ∀ {id : Digest32} {e : MempoolEntry}, mp.byTxid[id]? = some e → mp.Pending id e
  queued : ∀ {seq : UInt64} {id : Digest32}, mp.bySeq[seq]? = some id →
    ∃ e, mp.byTxid[id]? = some e ∧ e.feelessSeq = seq

theorem wellIndexed_empty (cap : ℕ) : ({ cap } : Mempool).WellIndexed where
  pending h := by simp at h
  queued h := by simp at h

/-- An empty pool with room admits every transaction the tip admits. -/
theorem admits_empty {cap : ℕ} (hcap : 0 < cap) (hver : t.ver = kTxnVersion) (hauth : t.Authentic)
    (hspend : t.Spendable (accountAt t.from)) : ({ cap } : Mempool).Admits accountAt t :=
  ⟨hver, by simp, hauth, hspend, by simp, by simpa using hcap⟩

/-- Admitted behind a pending transaction of another sender as well, while there is room. -/
theorem Admits.behind {u : Txn} (h : mp.Admits accountAt t) (hid : txid t ≠ txid u)
    (hsender : t.from ≠ u.from) (hroom : (mp.accept u).byTxid.size < mp.cap) :
    (mp.accept u).Admits accountAt t where
  ver := h.ver
  fresh := by rw [accept, OrderedMap.getElem?_insert, if_neg hid, h.fresh]
  authentic := h.authentic
  spendable := h.spendable
  free := by rw [accept, OrderedMap.getElem?_insert, if_neg hsender, h.free]
  room := hroom

theorem WellIndexed.accept (h : mp.WellIndexed) (hadmits : mp.Admits accountAt t) :
    (mp.accept t).WellIndexed where
  pending {id e} hid := by
    rw [Mempool.accept, OrderedMap.getElem?_insert] at hid
    split_ifs at hid with hnew
    · obtain rfl := Option.some.inj hid
      refine ⟨hnew.symm, hnew.symm, ?_, hadmits.ver, hadmits.authentic⟩
      rw [Mempool.accept, OrderedMap.getElem?_insert, if_pos rfl, hnew]
    · have hp := h.pending hid
      refine ⟨hp.cached, hp.content, ?_, hp.ver, hp.authentic⟩
      rw [Mempool.accept, OrderedMap.getElem?_insert, if_neg (hadmits.sender_ne hp.slot)]
      exact hp.slot
  queued {seq id} hseq := by
    rw [Mempool.accept, OrderedMap.getElem?_insert] at hseq
    split_ifs at hseq with hnew
    · obtain rfl := Option.some.inj hseq
      refine ⟨⟨t, TxChain.txid t, mp.nextSeq⟩, ?_, hnew.symm⟩
      rw [Mempool.accept, OrderedMap.getElem?_insert, if_pos rfl]
    · obtain ⟨e, he, hnumber⟩ := h.queued hseq
      refine ⟨e, ?_, hnumber⟩
      rw [Mempool.accept, OrderedMap.getElem?_insert, if_neg (hadmits.id_ne he)]
      exact he

theorem WellIndexed.evictOne (h : mp.WellIndexed) (t : Txn) : (mp.evictOne t).WellIndexed := by
  rw [Mempool.evictOne]
  cases hentry : mp.byTxid[TxChain.txid t]? with
  | none => exact h
  | some gone =>
      constructor
      · intro id e hid
        rw [OrderedMap.getElem?_erase] at hid
        split_ifs at hid with hsame
        have hp := h.pending hid
        refine ⟨hp.cached, hp.content, ?_, hp.ver, hp.authentic⟩
        show (if mp.bySender[t.from]? = some (TxChain.txid t) then mp.bySender.erase t.from
          else mp.bySender)[e.txn.from]? = some id
        split
        next hheld =>
          have hother : e.txn.from ≠ t.from := by
            intro heq
            have hslot := hp.slot
            rw [heq, hheld] at hslot
            exact hsame (Option.some.inj hslot).symm
          rw [OrderedMap.getElem?_erase, if_neg hother]
          exact hp.slot
        next => exact hp.slot
      · intro seq id hseq
        rw [OrderedMap.getElem?_erase] at hseq
        split_ifs at hseq with hsame
        obtain ⟨e, he, hnumber⟩ := h.queued hseq
        refine ⟨e, ?_, hnumber⟩
        have hother : id ≠ TxChain.txid t := by
          rintro rfl
          rw [hentry] at he
          obtain rfl := Option.some.inj he
          exact hsame hnumber.symm
        rw [OrderedMap.getElem?_erase, if_neg hother]
        exact he

theorem WellIndexed.admitTxn (h : mp.WellIndexed) (accountAt : AccountLookup) (t : Txn) :
    (mp.admitTxn accountAt t).2.WellIndexed := by
  rcases mp.admitTxn_cases accountAt t with ⟨hadmits, hok⟩ | ⟨-, hsame⟩
  · rw [hok]
    exact h.accept hadmits
  · rw [hsame]
    exact h

theorem WellIndexed.evictIncluded (h : mp.WellIndexed) (txns : List Txn) :
    (mp.evictIncluded txns).WellIndexed :=
  List.foldlRecOn txns Mempool.evictOne h fun _ hmp t _ => hmp.evictOne t

/-- An eviction forgets the ids it is given and no others. -/
theorem evictOne_byTxid (mp : Mempool) (t : Txn) (id : Digest32) :
    (mp.evictOne t).byTxid[id]? = if id = TxChain.txid t then none else mp.byTxid[id]? := by
  rw [Mempool.evictOne]
  cases hentry : mp.byTxid[TxChain.txid t]? with
  | none =>
      by_cases hid : id = TxChain.txid t
      · rw [if_pos hid, hid]
        exact hentry
      · rw [if_neg hid]
  | some e => exact OrderedMap.getElem?_erase _ _ _

theorem evictIncluded_byTxid (mp : Mempool) (txns : List Txn) (id : Digest32) :
    (mp.evictIncluded txns).byTxid[id]? =
      if id ∈ txns.map TxChain.txid then none else mp.byTxid[id]? := by
  induction txns generalizing mp with
  | nil => rfl
  | cons t rest ih =>
      have hrest := ih (mp.evictOne t)
      rw [evictOne_byTxid] at hrest
      show ((mp.evictOne t).evictIncluded rest).byTxid[id]? = _
      rw [hrest]
      by_cases hid : id = TxChain.txid t <;> simp [hid]

/-- What an eviction leaves was there before. -/
theorem byTxid_of_evictIncluded {txns : List Txn} {id : Digest32} {e : MempoolEntry}
    (h : (mp.evictIncluded txns).byTxid[id]? = some e) : mp.byTxid[id]? = some e := by
  rw [evictIncluded_byTxid] at h
  split_ifs at h
  exact h

/-! ### The queue -/

omit [Crypto] in
theorem mem_sortedBySeq {e : MempoolEntry} (he : e ∈ mp.sortedBySeq) :
    ∃ id : Digest32, mp.byTxid[id]? = some e := by
  obtain ⟨kv, -, hkv⟩ := List.mem_filterMap.mp he
  exact ⟨kv.2, hkv⟩

/-- The queue of a pool after its first admission. -/
theorem sortedBySeq_accept_empty (cap : ℕ) (t : Txn) :
    (({ cap } : Mempool).accept t).sortedBySeq = [⟨t, TxChain.txid t, 0⟩] := by
  have hqueue : (({ cap } : Mempool).accept t).bySeq.toList = [(0, TxChain.txid t)] := rfl
  rw [sortedBySeq, hqueue]
  simp [Mempool.accept, OrderedMap.getElem?_insert]

/-- Entries under different ids have different senders. -/
theorem WellIndexed.sender_ne (h : mp.WellIndexed) {id id' : Digest32} {e e' : MempoolEntry}
    (he : mp.byTxid[id]? = some e) (he' : mp.byTxid[id']? = some e') (hne : id ≠ id') :
    e.txn.from ≠ e'.txn.from := by
  intro heq
  have hslot := (h.pending he).slot
  rw [heq, (h.pending he').slot] at hslot
  exact hne (Option.some.inj hslot).symm

/-- The queue never lists two transactions of one sender. -/
theorem WellIndexed.senders_nodup (h : mp.WellIndexed) :
    (mp.sortedBySeq.map fun e => e.txn.from).Nodup := by
  have hkeys := mp.bySeq.distinct_keys_toList
  rw [List.Nodup, List.pairwise_map, sortedBySeq, List.pairwise_filterMap]
  refine hkeys.imp_of_mem ?_
  intro kv kv' hkv hkv' hne e he e' he'
  obtain ⟨_, hq, hseq⟩ := h.queued (Std.TreeMap.mem_toList_iff_getElem?_eq_some.mp hkv)
  obtain ⟨_, hq', hseq'⟩ := h.queued (Std.TreeMap.mem_toList_iff_getElem?_eq_some.mp hkv')
  rw [he] at hq
  rw [he'] at hq'
  obtain rfl := Option.some.inj hq
  obtain rfl := Option.some.inj hq'
  refine h.sender_ne he he' fun hid => hne ?_
  rw [hid, he'] at he
  obtain rfl := Option.some.inj he
  rw [← hseq, ← hseq']
  exact Std.ReflCmp.compare_self

end Mempool

end TxChain
