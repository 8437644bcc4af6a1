import TxChain.Library.Stutter
import TxChain.Node.Waiting
import TxChain.Rpc.Segments
import TxChain.Serialize.Bijection
import TxChain.Wallet.SendNode

/-!
# The whole process

`txnode` runs two threads over one node and one pool. The event loop seals or mines blocks.
The RPC thread takes one connection after the other, reads a request from it byte by byte
and answers it under the lock; a client that stays connected without finishing its request
keeps that thread from every other client. What the two do to the node is a run of the
operations that the model of mining and admission is about, and a client brings about no
more of them than the admission of a transaction it has sent.
-/

namespace TxChain

open Stream Search

/-- The shared state, and whether the RPC thread waits for more of a request. -/
structure Process where
  miner : Miner
  waiting : Bool

inductive ProcessOp where
  | connection (fd : Socket)
  | drainSeal (now_s : UInt64) (io : AppendOutcome)
  | snapshot (minerAddr : Address) (now_s : UInt64)
  | commitMined (timestamp nonce now_s : UInt64) (io : AppendOutcome)

/-- The text has the transaction in it, in hex. -/
def Carries (text : Text) (t : Txn) : Prop :=
  ∃ hex bytes, hex <:+: text ∧ fromHex kTxnSize hex = some bytes ∧ bytes.toList = t.serialize

theorem Carries.mono {text whole : Text} {t : Txn} (h : Carries text t) (hpart : text <:+: whole) :
    Carries whole t := by
  obtain ⟨hex, bytes, hhex, hread, hbytes⟩ := h
  exact ⟨hex, bytes, hhex.trans hpart, hread, hbytes⟩

/-- Some client has sent the transaction. -/
def Submitted (ops : List ProcessOp) (t : Txn) : Prop :=
  ∃ fd, .connection fd ∈ ops ∧ Carries (content fd) t

/-! ### What is read is what was sent -/

section Reading

variable {req whole : Text} {fd : Socket} {need : ℕ}

theorem readHeaders_isPrefix {got : Text} {headerEnd : ℕ} {rest : Socket}
    (h : readHeaders req fd = .found got headerEnd rest) :
    got ++ content rest = req ++ content fd := by
  induction hn : size fd using Nat.strong_induction_on generalizing req fd with
  | _ n ih =>
      rw [readHeaders_call] at h
      rcases recv_cases kReadSize_pos fd with ⟨symbols, left, hrecv, hd⟩ | ⟨hrecv, -⟩ |
        ⟨left, hrecv, -⟩ | ⟨left, hrecv, -⟩
      · rw [hrecv] at h
        dsimp only at h
        have hwhole : req ++ content fd = (req ++ symbols) ++ content left := by
          rw [hd.content, List.append_assoc]
        split at h
        next => cases h
        next =>
          split at h
          next =>
            cases h
            exact hwhole.symm
          next => exact (ih _ (hn ▸ hd.size) h rfl).trans hwhole.symm
      · rw [hrecv] at h
        cases h
      · rw [hrecv] at h
        cases h
      · rw [hrecv] at h
        cases h

theorem readRest_isPrefix {got : Text} (h : readRest req need fd = .complete got) :
    got <+: req ++ content fd := by
  induction hn : size fd using Nat.strong_induction_on generalizing req need fd with
  | _ n ih =>
      by_cases hneed : need = 0
      · rw [readRest, if_pos hneed] at h
        cases h
        exact List.prefix_append _ _
      · rw [readRest_call hneed] at h
        rcases recv_cases kReadSize_pos fd with ⟨symbols, left, hrecv, hd⟩ | ⟨hrecv, -⟩ |
          ⟨left, hrecv, -⟩ | ⟨left, hrecv, -⟩
        · rw [hrecv] at h
          dsimp only at h
          split at h
          next => cases h
          next =>
            rw [hd.content, ← List.append_assoc]
            exact ih _ (hn ▸ hd.size) h rfl
        · rw [hrecv] at h
          cases h
        · rw [hrecv] at h
          cases h
          exact List.prefix_append _ _
        · rw [hrecv] at h
          cases h
          exact List.prefix_append _ _

/-- A request is the front of what the client has sent. -/
theorem readRequest_isPrefix {got : Text} (h : readRequest fd = .complete got) :
    got <+: content fd := by
  rw [readRequest] at h
  cases hheaders : readHeaders [] fd with
  | blocks =>
      rw [hheaders] at h
      cases h
  | refused =>
      rw [hheaders] at h
      cases h
  | found req headerEnd rest =>
      rw [hheaders] at h
      have hsplit := readHeaders_isPrefix hheaders
      rw [List.nil_append] at hsplit
      rw [← hsplit]
      exact readRest_isPrefix h

theorem bodyOf_isInfix (text : Text) : bodyOf text <:+: text := by
  rw [bodyOf]
  split
  next => exact List.nil_infix
  next => exact (List.drop_suffix _ _).isInfix

theorem trim_isInfix (s : Text) : trim s <:+: s := by
  rw [trim]
  have hright := List.rdropWhile_prefix isBlank (l := s.dropWhile isBlank)
  exact hright.isInfix.trans (List.dropWhile_suffix isBlank).isInfix

/-- The server calls its handler once at most, with a body that was sent. -/
theorem serveConnection_cases (handler : Handler) (fd : Socket) :
    serveConnection handler fd = .blocks ∨
      (∃ out, serveConnection handler fd = .closed [] out ∧ (parseResponse out).status ≠ 200) ∨
      ∃ method target body, body <:+: content fd ∧
        serveConnection handler fd =
          .closed [(method, target, body)] (responseText (handler method target body)) := by
  rw [serveConnection]
  cases hread : readRequest fd with
  | blocks => exact .inl rfl
  | refused => exact .inr (.inl ⟨_, rfl, by decide⟩)
  | complete req =>
      have hmalformed : ∀ body, (parseResponse (responseText ⟨400, body⟩)).status ≠ 200 := by
        intro body
        have hstatus : (0 : Int32) ≤ 400 := by decide
        have hother : (400 : Int32) ≠ 200 := by decide
        rw [parseResponse_responseText _ hstatus]
        exact hother
      right
      dsimp only
      simp only [answer]
      split
      next => exact .inl ⟨_, rfl, hmalformed _⟩
      next =>
        split
        next => exact .inl ⟨_, rfl, hmalformed _⟩
        next =>
          right
          exact ⟨_, _, _, (bodyOf_isInfix req).trans (readRequest_isPrefix hread).isInfix, rfl⟩

end Reading

/-! ### The bodies of responses -/

theorem txidBody_third (id : Digest32) : (txidBody id)[2]? = some 't' := by
  unfold txidBody
  simp

theorem accountBody_third (a : Address) (balance confirmed pending : UInt64) :
    (accountBody a balance confirmed pending)[2]? = some 'a' := by
  unfold accountBody
  simp

theorem jsonError_third (token detail : String) : (jsonError token detail)[2]? = some 'e' := by
  unfold jsonError
  simp

theorem tipResp_third (ctx : RpcContext) : (tipResp ctx).body[2]? = some 'i' := by
  unfold tipResp
  simp

/-- The response tells the client that its transaction is admitted. -/
def RpcResponse.Acknowledges (r : RpcResponse) (id : Digest32) : Prop := r = ⟨200, txidBody id⟩

theorem RpcResponse.not_acknowledges {r : RpcResponse} {c : Char} (h : r.body[2]? = some c)
    (hc : c ≠ 't') (id : Digest32) : ¬r.Acknowledges id := by
  rintro rfl
  rw [txidBody_third] at h
  exact hc (Option.some.inj h).symm

theorem txidBody_injective {id id' : Digest32} (h : txidBody id = txidBody id') : id = id' := by
  unfold txidBody at h
  rw [List.append_assoc, List.append_assoc] at h
  have hhex : toHex id.toList = toHex id'.toList :=
    List.append_cancel_right (List.append_cancel_left h)
  have hread := fromHex_toHex id
  rw [hhex, fromHex_toHex id'] at hread
  exact (Option.some.inj hread).symm

theorem RpcResponse.eq_of_read {r : RpcResponse} {id : Digest32}
    (h : HttpResult.mk true r.status r.body = ⟨true, 200, txidBody id⟩) : r.Acknowledges id := by
  obtain ⟨-, hstatus, hbody⟩ := HttpResult.mk.inj h
  rw [RpcResponse.Acknowledges, ← hstatus, ← hbody]

section Process

variable [Crypto]

/-- The tip as the RPC thread shows it. -/
def Chain.tipInfo (c : Chain) : TipInfo where
  index := c.height
  blockHash := c.tip.header.hash
  prevHash := c.tip.header.prevHash
  cumWork := c.cumWork
  difficulty := c.difficulty
  timestamp := c.tip.header.timestamp

def Sealer.rpcContext (s : Sealer) : RpcContext where
  account := s.node.chain.account
  tip := s.node.chain.tipInfo
  mempool := s.mp

/-- The handler of the server, called under the lock. -/
def Sealer.handle (s : Sealer) (call : Text × Text × Text) : RpcResponse × Sealer :=
  let handled := handleRequest call.1 call.2.1 call.2.2 s.rpcContext
  (handled.1, { s with mp := handled.2.mempool })

/-- One connection: what is written to it, if it is served, and the state it leaves. -/
def Process.serve (p : Process) (fd : Socket) : Option Text × Process :=
  if p.waiting then (none, p)
  else
    let s := p.miner.shared
    match serveConnection (fun method target body => (s.handle (method, target, body)).1) fd with
    | .blocks => (none, { p with waiting := true })
    | .closed calls out =>
        (some out,
          { p with
            miner :=
              { p.miner with shared := calls.foldl (fun s call => (s.handle call).2) s } })

def ProcessOp.apply (p : Process) : ProcessOp → Process
  | .connection fd => (p.serve fd).2
  | .drainSeal now_s io => { p with miner := MinerOp.apply p.miner (.drainSeal now_s io) }
  | .snapshot minerAddr now_s =>
      { p with miner := MinerOp.apply p.miner (.snapshot minerAddr now_s) }
  | .commitMined timestamp nonce now_s io =>
      { p with miner := MinerOp.apply p.miner (.commitMined timestamp nonce now_s io) }

/-- The process once both threads run. -/
def Process.start [Picojson] (cfg : NodeConfig) (now_s : UInt64) (fs : FileSystem)
    (io : AppendOutcome) (cap : ℕ) : Process :=
  ⟨Miner.start cfg now_s fs io cap, false⟩

def runProcess [Picojson] (cfg : NodeConfig) (now_s : UInt64) (fs : FileSystem) (io : AppendOutcome)
    (cap : ℕ) (ops : List ProcessOp) : Process :=
  ops.foldl ProcessOp.apply (Process.start cfg now_s fs io cap)

/-! ### One request -/

/-- A request is the submission of a transaction, or it changes nothing and acknowledges none. -/
theorem handleRequest_cases (method target body : Text) (ctx : RpcContext) :
    (∃ t, Carries body t ∧
        (handleRequest method target body ctx).2 =
          { ctx with mempool := (ctx.mempool.admitTxn ctx.account t).2 } ∧
        ∀ id, (handleRequest method target body ctx).1.Acknowledges id →
          (ctx.mempool.admitTxn ctx.account t).1 = .ok ∧ txid t = id) ∨
      ((handleRequest method target body ctx).2 = ctx ∧
        ∀ id, ¬(handleRequest method target body ctx).1.Acknowledges id) := by
  have herror : ∀ status token detail, ∀ id,
      ¬(RpcResponse.mk status (jsonError token detail)).Acknowledges id :=
    fun _ token detail => RpcResponse.not_acknowledges (jsonError_third token detail) (by decide)
  simp only [handleRequest]
  split
  next =>
    rw [submitTx]
    split
    next => exact .inr ⟨rfl, herror _ _ _⟩
    next bytes hhex =>
      dsimp only
      rw [Mempool.admitBytes]
      cases hdecode : deserializeTxn bytes.toList with
      | none =>
          right
          dsimp only
          rw [if_neg (by decide)]
          exact ⟨rfl, herror _ _ _⟩
      | some t =>
          left
          have hbytes := serialize_of_deserializeTxn hdecode
          refine ⟨t, ⟨_, _, trim_isInfix body, hhex, hbytes.symm⟩, ?_, ?_⟩
          · dsimp only
            split <;> rfl
          · intro id hack
            dsimp only at hack ⊢
            split at hack
            next hok =>
              refine ⟨hok, txidBody_injective ?_⟩
              rw [txid, hbytes]
              exact congrArg RpcResponse.body hack
            next => exact absurd hack (herror _ _ _ id)
  next =>
    right
    split
    next => exact ⟨rfl, RpcResponse.not_acknowledges (tipResp_third ctx) (by decide)⟩
    next =>
      split
      next =>
        refine ⟨rfl, ?_⟩
        rw [accountResp]
        split
        next => exact herror _ _ _
        next => exact RpcResponse.not_acknowledges (accountBody_third _ _ _ _) (by decide)
      next => exact ⟨rfl, herror _ _ _⟩

/-! ### One step -/

/-- The operations that a step of the process may stand for. -/
inductive ProcessOp.Causes : ProcessOp → List MinerOp → Prop where
  | unserved (fd : Socket) : Causes (.connection fd) []
  | submission (fd : Socket) (t : Txn) (h : Carries (content fd) t) :
      Causes (.connection fd) [.admitTxn t]
  | drainSeal (now_s : UInt64) (io : AppendOutcome) :
      Causes (.drainSeal now_s io) [.drainSeal now_s io]
  | snapshot (minerAddr : Address) (now_s : UInt64) :
      Causes (.snapshot minerAddr now_s) [.snapshot minerAddr now_s]
  | commitMined (timestamp nonce now_s : UInt64) (io : AppendOutcome) :
      Causes (.commitMined timestamp nonce now_s io) [.commitMined timestamp nonce now_s io]

variable {p : Process} {P : Txn → Prop}

/-- A connection admits one transaction that it carries, or none. If the client reads that its
transaction is admitted, then it is. -/
theorem Process.serve_cases (p : Process) (fd : Socket) :
    (∃ t, Carries (content fd) t ∧
        (p.serve fd).2.miner = MinerOp.apply p.miner (.admitTxn t) ∧
        ∀ out id, (p.serve fd).1 = some out → parseResponse out = ⟨true, 200, txidBody id⟩ →
          (p.miner.shared.mp.admitTxn p.miner.shared.node.chain.account t).1 = .ok ∧
            txid t = id) ∨
      ((p.serve fd).2.miner = p.miner ∧
        ∀ out id, (p.serve fd).1 = some out → parseResponse out ≠ ⟨true, 200, txidBody id⟩) := by
  rw [Process.serve]
  by_cases hwaiting : p.waiting = true
  · rw [if_pos hwaiting]
    exact .inr ⟨rfl, fun _ _ hnone => nomatch hnone⟩
  · rw [if_neg hwaiting]
    dsimp only
    obtain hserved | ⟨out, hserved, hstatus⟩ | ⟨method, target, body, hbody, hserved⟩ :=
      serveConnection_cases (fun method target body =>
        (p.miner.shared.handle (method, target, body)).1) fd
    · rw [hserved]
      exact .inr ⟨rfl, fun _ _ hnone => nomatch hnone⟩
    · rw [hserved]
      refine .inr ⟨rfl, fun out' id hout hack => hstatus ?_⟩
      rw [Option.some.inj hout, hack]
    · rw [hserved]
      dsimp only [List.foldl_cons, List.foldl_nil, Sealer.handle]
      have hread := parseResponse_responseText
        (handleRequest method target body p.miner.shared.rpcContext).1
        (handleRequest_status_nonneg method target body _)
      obtain ⟨t, hcarries, hnext, hack⟩ | ⟨hsame, hnone⟩ :=
        handleRequest_cases method target body p.miner.shared.rpcContext
      · left
        refine ⟨t, hcarries.mono hbody, ?_, fun out id hout hparsed => hack id ?_⟩
        · rw [hnext]
          rfl
        · rw [← Option.some.inj hout, hread] at hparsed
          exact RpcResponse.eq_of_read hparsed
      · right
        refine ⟨by rw [hsame]; rfl, fun out id hout hparsed => hnone id ?_⟩
        rw [← Option.some.inj hout, hread] at hparsed
        exact RpcResponse.eq_of_read hparsed

theorem ProcessOp.causes (op : ProcessOp) (p : Process) :
    ∃ js, op.Causes js ∧ (op.apply p).miner = js.foldl MinerOp.apply p.miner := by
  cases op with
  | connection fd =>
      obtain ⟨t, hcarries, hserved, -⟩ | ⟨hserved, -⟩ := p.serve_cases fd
      · exact ⟨_, .submission fd t hcarries, hserved⟩
      · exact ⟨_, .unserved fd, hserved⟩
  | drainSeal now_s io => exact ⟨_, .drainSeal now_s io, rfl⟩
  | snapshot minerAddr now_s => exact ⟨_, .snapshot minerAddr now_s, rfl⟩
  | commitMined timestamp nonce now_s io => exact ⟨_, .commitMined timestamp nonce now_s io, rfl⟩

/-! ### Where blocks come from -/

/-- A mined block is the candidate with the timestamp and the nonce that were found. -/
theorem Miner.commitMined_block (m : Miner) (timestamp nonce now_s : UInt64) (io : AppendOutcome) :
    (m.commitMined timestamp nonce now_s io).2.shared.node.chain.blocks =
      m.shared.node.chain.blocks ∨
      ∃ cand, m.inFlight = some cand ∧
        (m.commitMined timestamp nonce now_s io).2.shared.node.chain.blocks =
          m.shared.node.chain.blocks ++
            [{ header := { cand.hdr with timestamp, nonce }, txns := cand.txns }] := by
  obtain ⟨-, hsame, -⟩ | ⟨_, _, -, -, hok, -⟩ := m.commitMined_cases timestamp nonce now_s io
  · exact .inl (by rw [hsame])
  · obtain ⟨cand, hcand, hcommit⟩ := Miner.commitMined_ok hok
    exact .inr ⟨cand, hcand, hcommit.blocks⟩

/-- The block holds transactions of `P`, and the reward of some miner. -/
def Block.From (P : Txn → Prop) (b : Block) : Prop :=
  ∀ t ∈ b.txns, P t ∨ ∃ minerAddr, t = coinbaseTxn minerAddr b.header.index

/-- Every block is an old one or made of transactions of `P`; so will be the one that is searched
for. -/
structure Miner.Traced (m : Miner) (old : List Block) (P : Txn → Prop) : Prop
    extends m.Sourced P where
  reward : ∀ {c : Candidate}, m.inFlight = some c → ∀ t ∈ c.txns,
    t ∈ c.txns.tail ∨ ∃ minerAddr, t = coinbaseTxn minerAddr c.hdr.index
  blocks : ∀ b ∈ m.shared.node.chain.blocks, b ∈ old ∨ b.From P

variable {m : Miner} {old : List Block}

theorem Miner.Traced.drainSeal (h : m.Traced old P) (now_s : UInt64) (io : AppendOutcome) :
    ∀ b ∈ (MinerOp.apply m (.drainSeal now_s io)).shared.node.chain.blocks, b ∈ old ∨ b.From P := by
  intro b hb
  obtain hsame | ⟨fs', c', hcommit, hnext⟩ := m.shared.drainSeal_cases now_s io
  · rw [MinerOp.apply, hsame] at hb
    exact h.blocks b hb
  · rw [MinerOp.apply, hnext] at hb
    dsimp only at hb
    rw [hcommit.blocks] at hb
    obtain hb | hb := List.mem_append.mp hb
    · exact h.blocks b hb
    · rw [List.mem_singleton.mp hb]
      exact .inr fun t ht => .inl (h.queue (m.shared.mp.batch_sublist.subset ht))

theorem Miner.Traced.commitMined (h : m.Traced old P) (timestamp nonce now_s : UInt64)
    (io : AppendOutcome) :
    ∀ b ∈ (MinerOp.apply m (.commitMined timestamp nonce now_s io)).shared.node.chain.blocks,
      b ∈ old ∨ b.From P := by
  intro b hb
  rw [MinerOp.apply] at hb
  obtain hsame | ⟨cand, hcand, hblocks⟩ := m.commitMined_block timestamp nonce now_s io
  · rw [hsame] at hb
    exact h.blocks b hb
  · rw [hblocks] at hb
    obtain hb | hb := List.mem_append.mp hb
    · exact h.blocks b hb
    · rw [List.mem_singleton.mp hb]
      refine .inr fun t ht => ?_
      obtain htail | hreward := h.reward hcand t ht
      · exact .inl (h.candidate hcand t htail)
      · exact .inr hreward

theorem buildCandidate_reward {mp : Mempool} (hmp : mp.WellIndexed) (state : AccountMap)
    (minerAddr : Address) (tipIndex : UInt64) (tipHash : Hash256) (tipTimestamp now_s : UInt64) :
    let c := buildCandidate minerAddr tipIndex tipHash tipTimestamp now_s mp state.lookup
    ∀ t ∈ c.txns, t ∈ c.txns.tail ∨ ∃ a, t = coinbaseTxn a c.hdr.index := by
  intro c t ht
  obtain ⟨picked, -, htxns, -⟩ :=
    buildCandidate_txns hmp state minerAddr tipIndex tipHash tipTimestamp now_s
  have hc : c.txns = coinbaseTxn minerAddr (tipIndex + 1) :: picked := htxns
  rw [hc] at ht ⊢
  obtain rfl | htail := List.mem_cons.mp ht
  · exact .inr ⟨minerAddr, rfl⟩
  · exact .inl htail

theorem Miner.Traced.apply (h : m.Traced old P) {op : MinerOp} (hop : ∀ t, op = .admitTxn t → P t) :
    (op.apply m).Traced old P := by
  have hsourced := h.toSourced.apply hop
  cases op with
  | admitTxn t => exact { hsourced with reward := h.reward, blocks := h.blocks }
  | drainSeal now_s io =>
      exact { hsourced with reward := h.reward, blocks := h.drainSeal now_s io }
  | snapshot minerAddr now_s =>
      refine { hsourced with reward := ?_, blocks := h.blocks }
      intro c hc
      obtain rfl := Option.some.inj hc
      exact buildCandidate_reward h.indexed m.shared.node.chain.state minerAddr
        m.shared.node.chain.height m.shared.node.chain.tipHash
        m.shared.node.chain.tip.header.timestamp now_s
  | commitMined timestamp nonce now_s io =>
      refine { hsourced with reward := ?_, blocks := h.commitMined timestamp nonce now_s io }
      intro c hc
      obtain ⟨-, -, hflight⟩ | ⟨_, _, -, -, -, -, -, hflight⟩ :=
        m.commitMined_cases timestamp nonce now_s io
      · exact h.reward (hflight c hc)
      · rw [MinerOp.apply, hflight] at hc
        cases hc

/-! ### Runs -/

/-- What single operations preserve if they are of the run, the steps of the process preserve. -/
theorem ProcessOp.preserves {K : Miner → Prop} {ops : List ProcessOp}
    (hK : ∀ (m : Miner) (op : MinerOp), (∀ t, op = .admitTxn t → Submitted ops t) → K m →
      K (op.apply m))
    {op : ProcessOp} (hop : op ∈ ops) (hp : K p.miner) : K (op.apply p).miner := by
  obtain ⟨js, hcauses, hnext⟩ := op.causes p
  rw [hnext]
  refine List.foldlRecOn js MinerOp.apply hp fun m hm j hj => hK m j ?_ hm
  rintro t rfl
  cases hcauses with
  | unserved fd => cases hj
  | submission fd u hcarries =>
      cases List.mem_singleton.mp hj
      exact ⟨fd, hop, hcarries⟩
  | drainSeal now_s io => cases List.mem_singleton.mp hj
  | snapshot minerAddr now_s => cases List.mem_singleton.mp hj
  | commitMined timestamp nonce now_s io => cases List.mem_singleton.mp hj

theorem ProcessOp.preserves_run {K : Miner → Prop} {ops is : List ProcessOp}
    (hK : ∀ (m : Miner) (op : MinerOp), (∀ t, op = .admitTxn t → Submitted ops t) → K m →
      K (op.apply m))
    (his : ∀ op ∈ is, op ∈ ops) (hp : K p.miner) : K (is.foldl ProcessOp.apply p).miner :=
  List.foldlRecOn (motive := fun p : Process => K p.miner) is ProcessOp.apply hp
    fun _ hp op hop => ProcessOp.preserves hK (his op hop) hp

/-- To node and pool every run of the process is a run of operations, in the same order, in which
a connection is at most the admission of one transaction that it carries. -/
theorem process_refines_miner [Picojson] (cfg : NodeConfig) (now_s : UInt64) (fs : FileSystem)
    (io : AppendOutcome) (cap : ℕ) (ops : List ProcessOp) :
    ∃ jss, List.Forall₂ ProcessOp.Causes ops jss ∧
      (runProcess cfg now_s fs io cap ops).miner = runMiner cfg now_s fs io cap jss.flatten := by
  refine Run.matched (R := fun (p : Process) m => p.miner = m) ?_ rfl
  rintro p m op - rfl
  exact op.causes p

/-- Whatever clients send, each transaction in a block that the process commits is the reward
of a miner or one that some client sent in full. -/
theorem committed_transactions_were_sent [Picojson] (cfg : NodeConfig) (now_s : UInt64)
    (fs : FileSystem) (io : AppendOutcome) (cap : ℕ) (ops : List ProcessOp) :
    ∀ b ∈ (runProcess cfg now_s fs io cap ops).miner.shared.node.chain.blocks,
      b ∈ (Sealer.start cfg now_s fs io cap).node.chain.blocks ∨ b.From (Submitted ops) := by
  have hstart : (Process.start cfg now_s fs io cap).miner.Traced
      (Sealer.start cfg now_s fs io cap).node.chain.blocks (Submitted ops) :=
    { Miner.start_sourced cfg now_s fs io cap with
      reward := fun hc => nomatch hc
      blocks := fun b hb => .inl hb }
  have hend : (runProcess cfg now_s fs io cap ops).miner.Traced
      (Sealer.start cfg now_s fs io cap).node.chain.blocks (Submitted ops) :=
    ProcessOp.preserves_run (K := fun m => m.Traced _ (Submitted ops))
      (fun _ _ hop hm => hm.apply hop) (fun _ hop => hop) hstart
  exact hend.blocks

/-- A client that reads that its transaction is admitted will find it pending or committed at
any later time, whatever all the others send. -/
theorem acknowledged_transaction_kept [Picojson] (cfg : NodeConfig) (now_s : UInt64)
    (fs : FileSystem) (io : AppendOutcome) (cap : ℕ) (pre post : List ProcessOp) (fd : Socket)
    (hids : ∀ t t', Submitted (pre ++ .connection fd :: post) t →
      Submitted (pre ++ .connection fd :: post) t' → txid t = txid t' → t = t')
    {out : Text} {id : Digest32}
    (hout : ((runProcess cfg now_s fs io cap pre).serve fd).1 = some out)
    (hread : parseResponse out = ⟨true, 200, txidBody id⟩) :
    ∃ t, Carries (content fd) t ∧ txid t = id ∧
      ∀ p ∈ post.scanl ProcessOp.apply ((runProcess cfg now_s fs io cap pre).serve fd).2,
        p.miner.Pending t ∨ p.miner.Committed t := by
  have hmem : ∀ op ∈ pre, op ∈ pre ++ .connection fd :: post := fun op hop =>
    List.mem_append_left _ hop
  have hbefore : (runProcess cfg now_s fs io cap pre).miner.Sourced
      (Submitted (pre ++ .connection fd :: post)) :=
    ProcessOp.preserves_run (K := fun m => m.Sourced (Submitted (pre ++ .connection fd :: post)))
      (fun _ _ hop hm => hm.apply hop) hmem (Miner.start_sourced cfg now_s fs io cap)
  obtain ⟨t, hcarries, hnext, hack⟩ | ⟨-, hnone⟩ :=
    (runProcess cfg now_s fs io cap pre).serve_cases fd
  · obtain ⟨hok, hid⟩ := hack out id hout hread
    refine ⟨t, hcarries, hid, ?_⟩
    have hsubmitted : Submitted (pre ++ .connection fd :: post) t := ⟨fd, by simp, hcarries⟩
    have hafter : ((runProcess cfg now_s fs io cap pre).serve fd).2.miner.Sourced
        (Submitted (pre ++ .connection fd :: post)) := by
      rw [hnext]
      exact hbefore.apply fun u hu => by cases hu; exact hsubmitted
    have hpending : ((runProcess cfg now_s fs io cap pre).serve fd).2.miner.Pending t := by
      rw [hnext]
      exact pending_of_admitTxn hok
    let K : Miner → Prop := fun m => m.Sourced (Submitted (pre ++ .connection fd :: post)) ∧
      (m.Pending t ∨ m.Committed t)
    have hK : ∀ (m : Miner) (op : MinerOp),
        (∀ u, op = .admitTxn u → Submitted (pre ++ .connection fd :: post) u) → K m →
          K (op.apply m) := by
      rintro m op hop ⟨hm, hwhere⟩
      refine ⟨hm.apply hop, ?_⟩
      obtain hpending | hcommitted := hwhere
      · obtain hstill | ⟨b, hblocks, htb⟩ := hm.leaves hids op hpending
        · exact .inl hstill
        · exact .inr ⟨b, by rw [hblocks]; simp, htb⟩
      · exact .inr (hm.stays op hcommitted)
    have hrun : ∀ p ∈ post.scanl ProcessOp.apply ((runProcess cfg now_s fs io cap pre).serve fd).2,
        K p.miner := by
      refine Run.invariant_mem (J := fun p : Process => K p.miner) ?_ ⟨hafter, .inl hpending⟩
      intro p op hop hp
      exact ProcessOp.preserves hK (List.mem_append_right _ (List.mem_cons_of_mem _ hop)) hp
    exact fun p hp => (hrun p hp).2
  · exact absurd hread (hnone out id hout)

end Process

/-! ### A submission alone -/

/-- A text of this length in a longer one, without the symbol that stands in front of its end. -/
theorem eq_of_infix_behind {front body part : Text} {c : Char} (hlength : part.length = body.length)
    (hfront : front.length < body.length) (hc : c ∉ part) (h : part <:+: front ++ c :: body) :
    part = body := by
  obtain ⟨pre, post, hsplit⟩ := h
  have hsize := congrArg List.length hsplit
  simp only [List.length_append, List.length_cons] at hsize
  by_cases hpre : pre.length ≤ front.length
  · -- the symbol would stand within the part
    have hget : (pre ++ part ++ post)[front.length]? = some c := by
      rw [hsplit]
      simp
    rw [List.append_assoc, List.getElem?_append_right hpre, List.getElem?_append_left (by omega)]
      at hget
    exact absurd (List.mem_of_getElem? hget) hc
  · have hpost : post = [] := List.eq_nil_of_length_eq_zero (by omega)
    have hbehind : pre ++ part = (front ++ [c]) ++ body := by
      rw [List.append_assoc, List.singleton_append, ← hsplit, hpost, List.append_nil]
    exact (List.append_inj' hbehind hlength).2

/-- The request of a client that submits a transaction. -/
def submission (host : Text) (t : Txn) : Text :=
  requestText "POST".toList host "/tx".toList (toHex t.serialize)

/-- It carries no other transaction. -/
theorem carries_submission {host : Text} (hhost : host.length ≤ 100) {t u : Txn}
    (h : Carries (submission host t) u) : u = t := by
  obtain ⟨hex, bytes, hinfix, hread, hbytes⟩ := h
  obtain ⟨hlength, hdecode⟩ := fromHex_eq_some_iff.mp hread
  have hdigits := ((fromHex_isSome_iff kTxnSize hex).mp ⟨bytes, hread⟩).2
  have hbody : (toHex t.serialize).length = 306 := by
    rw [length_toHex, t.length_serialize]
    rfl
  have hplain : '\n' ∉ hex := fun hmem => absurd (hdigits _ hmem) (by unfold IsHexDigit; decide)
  have hdecimal : (decimal 306).length = 3 := by decide
  unfold submission requestText at hinfix
  rw [hbody] at hinfix
  have hclose : "\r\n\r\n".toList = ['\r', '\n', '\r'] ++ ['\n'] := by decide
  rw [hclose, ← List.append_assoc _ _ ['\n'], List.append_assoc _ ['\n'], List.singleton_append]
    at hinfix
  have hsame := eq_of_infix_behind (hlength.trans hbody.symm) (by
    simp only [hbody, hdecimal, List.length_append, String.reduceToList, List.length_cons,
      List.length_nil]
    omega) hplain hinfix
  rw [hsame, decodeNibbles_toHex] at hdecode
  exact (Txn.serialize_injective ((Option.some.inj hdecode).trans hbytes)).symm

theorem length_submission {host : Text} (hhost : host.length ≤ 100) (t : Txn) :
    (submission host t).length ≤ 1048576 := by
  have hbody : (toHex t.serialize).length = 306 := by
    rw [length_toHex, t.length_serialize]
    rfl
  have hdecimal : (decimal 306).length = 3 := by decide
  unfold submission requestText
  simp only [hbody, hdecimal, List.length_append, String.reduceToList, List.length_cons,
    List.length_nil]
  omega

/-- A submission that is admitted is acknowledged, in whatever pieces it arrives. -/
theorem Process.serve_submission [Crypto] {p : Process} (hidle : p.waiting = false) {host : Text}
    (hword : OneWord host) (hhost : host.length ≤ 100) {t : Txn} (hver : t.ver = kTxnVersion)
    (hok : (p.miner.shared.mp.admitTxn p.miner.shared.node.chain.account t).1 = .ok)
    {sent : List Text} (hpieces : ∀ piece ∈ sent, piece ≠ [])
    (hsent : sent.flatten = submission host t) :
    ∃ out, (p.serve (arrivals sent)).1 = some out ∧
      parseResponse out = ⟨true, 200, txidBody (txid t)⟩ := by
  let handler : Handler := fun method target body =>
    (p.miner.shared.handle (method, target, body)).1
  have hhandled : handler "POST".toList "/tx".toList (toHex t.serialize) =
      ⟨200, txidBody (txid t)⟩ := by
    have hblank : ∀ c ∈ ([] : Text), isBlank c = true := by simp
    have hanswered := submitTx_padded hver hblank hblank p.miner.shared.rpcContext
    rw [List.nil_append, List.append_nil] at hanswered
    show (handleRequest _ _ _ _).1 = _
    rw [handleRequest_tx, hanswered]
    exact if_pos hok
  have hunderstands : Understands handler "POST".toList host "/tx".toList (toHex t.serialize) :=
    understands_words oneWord_literals.2.1 oneWord_literals.2.2.1 hword (length_submission hhost t)
      (handleRequest_status_nonneg _ _ _ _)
  obtain ⟨out, hserved, hread⟩ := hunderstands sent hpieces hsent
  refine ⟨out, ?_, ?_⟩
  · rw [Process.serve, hidle, if_neg Bool.false_ne_true]
    dsimp only
    rw [hserved]
  · have hout := hread (out.map fun c => [c]) (by simp) (flatten_singles out)
    rw [readAll_eq (pieces_arrivals _), List.nil_append, content_arrivals, flatten_singles,
      hhandled] at hout
    exact hout

section Samples

attribute [local instance] sampleKeys Json.picojson

/-- A client hands over a transfer in one piece. -/
def payRequest : Socket := arrivals [submission ['h'] payOliver]

/-- The process when it starts on an empty datadir. -/
def idleProcess : Process := runProcess {} genesisTimestamp (fun _ => none) .complete 4096 []

theorem payRequest_acknowledged :
    ∃ out, (idleProcess.serve payRequest).1 = some out ∧
      parseResponse out = ⟨true, 200, txidBody (txid payOliver)⟩ := by
  have hok : ((Sealer.start {} genesisTimestamp (fun _ => none) .complete 4096).mp.admitTxn
      (Sealer.start {} genesisTimestamp (fun _ => none) .complete 4096).node.chain.account
        payOliver).1 = .ok := by
    rw [Sealer.start_mp, waitingSealer_eq.1, Mempool.admitTxn_ok (payOliver_admits_first 0 0)]
  have hword : OneWord ['h'] := by simp [OneWord]
  exact Process.serve_submission (p := idleProcess) rfl hword (by simp) rfl hok
    (by simp [submission, requestText]) List.flatten_singleton

theorem payRequest_carries {t : Txn} (h : Carries (content payRequest) t) : t = payOliver := by
  rw [payRequest, content_arrivals, List.flatten_singleton] at h
  exact carries_submission (by simp) h

/-- Once the connection is served the transfer waits in the pool. -/
theorem payRequest_waits : (idleProcess.serve payRequest).2.miner.shared = waitingSealer := by
  obtain ⟨out, hout, hread⟩ := payRequest_acknowledged
  obtain ⟨t, hcarries, hserved, -⟩ | ⟨-, hnone⟩ := idleProcess.serve_cases payRequest
  · rw [hserved, payRequest_carries hcarries]
    rfl
  · exact absurd hread (hnone out _ hout)

/-- The transfer of that client is sealed. -/
theorem sealed_payOliver :
    ∃ b ∈ (runProcess {} genesisTimestamp (fun _ => none) .complete 4096
        [.connection payRequest, .drainSeal genesisTimestamp
          .complete]).miner.shared.node.chain.blocks,
      payOliver ∈ b.txns ∧
        b.From (Submitted [.connection payRequest, .drainSeal genesisTimestamp .complete]) := by
  obtain ⟨hstart, -, hbatch⟩ := waitingSealer_eq
  have hblocks : (runProcess {} genesisTimestamp (fun _ => none) .complete 4096
      [.connection payRequest, .drainSeal genesisTimestamp
        .complete]).miner.shared.node.chain.blocks =
      waitingSealer.node.chain.blocks ++
        [waitingSealer.node.chain.nextBlock genesisTimestamp waitingSealer.mp.batch] := by
    rw [← (Sealer.drainSeal_ok waitingSealer_drains).1, ← payRequest_waits]
    rfl
  have hmem : waitingSealer.node.chain.nextBlock genesisTimestamp waitingSealer.mp.batch ∈
      (runProcess {} genesisTimestamp (fun _ => none) .complete 4096
        [.connection payRequest, .drainSeal genesisTimestamp
          .complete]).miner.shared.node.chain.blocks := by
    rw [hblocks]
    simp
  have hholds : payOliver ∈
      (waitingSealer.node.chain.nextBlock genesisTimestamp waitingSealer.mp.batch).txns := by
    have htxns : ∀ (c : Chain) (txns : List Txn), (c.nextBlock genesisTimestamp txns).txns = txns :=
      fun _ _ => rfl
    rw [htxns, hbatch]
    exact List.mem_singleton_self payOliver
  refine ⟨_, hmem, hholds, ?_⟩
  obtain hold | hsent := committed_transactions_were_sent {} genesisTimestamp (fun _ => none)
    .complete 4096 [.connection payRequest, .drainSeal genesisTimestamp .complete] _ hmem
  · -- the block it started with is empty
    rw [hstart] at hold
    have hgenesis : (Chain.new 0 0).blocks = [genesisBlock] := rfl
    rw [hgenesis, List.mem_singleton] at hold
    rw [hold] at hholds
    exact absurd hholds List.not_mem_nil
  · exact hsent

/-- The transfer is acknowledged and then sealed. -/
theorem acknowledged_payOliver :
    ∃ t, Carries (content payRequest) t ∧ txid t = txid payOliver ∧
      ∀ p ∈ [ProcessOp.drainSeal genesisTimestamp .complete].scanl ProcessOp.apply
        ((runProcess {} genesisTimestamp (fun _ => none) .complete 4096 []).serve payRequest).2,
        p.miner.Pending t ∨ p.miner.Committed t := by
  have hsubmitted : ∀ t, Submitted ([] ++ .connection payRequest ::
      [.drainSeal genesisTimestamp .complete]) t → t = payOliver := by
    rintro t ⟨fd, hfd, hcarries⟩
    have hfd' : fd = payRequest := by simpa using hfd
    rw [hfd'] at hcarries
    exact payRequest_carries hcarries
  obtain ⟨out, hout, hread⟩ := payRequest_acknowledged
  refine acknowledged_transaction_kept {} genesisTimestamp (fun _ => none) .complete 4096 []
    [.drainSeal genesisTimestamp .complete] payRequest ?_ hout hread
  intro t t' ht ht' _
  rw [hsubmitted t ht, hsubmitted t' ht']

end Samples

end TxChain
