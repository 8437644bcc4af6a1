import TxChain.Mempool.Queue
import TxChain.Rpc.Rpc
import TxChain.Wallet.Wallet

/-!
# Submission of a transaction

What `POST /tx` answers is the verdict of admission under the tokens of the transport.
Two results rest on that. A transaction signed by the wallet is refused for the state of
the chain and of the pool only, never for its form. The nonce an account is told to use
next is stale as long as the account has a transaction pending: it is the nonce after
the pending one, and admission compares with the committed nonce alone.
-/

namespace TxChain

/-- The body is an error under this token. -/
def RpcResponse.Rejects (r : RpcResponse) (token : String) : Prop :=
  ∃ detail, r.body = jsonError token detail

/-! ### The answer to a verdict -/

/-- The text between an opening of known length and the next quote. -/
theorem quoted_text {opening token rest : Text} {n : ℕ} (hn : opening.length = n)
    (hplain : ∀ c ∈ token, c ≠ '"') :
    ((opening ++ token ++ '"' :: rest).drop n).takeWhile (· ≠ '"') = token := by
  rw [List.append_assoc, List.drop_left' hn,
    List.takeWhile_append_of_pos (fun c hc => decide_eq_true (hplain c hc))]
  simp

/-- The token of an error can be read back from its body. -/
theorem jsonError_token {token : String} (hplain : ∀ c ∈ token.toList, c ≠ '"')
    (detail : String) :
    ((jsonError token detail).drop 10).takeWhile (· ≠ '"') = token.toList := by
  have hopen : "\x7b\"error\":\"".toList.length = 10 := by simp
  have hquote : "\",\"detail\":\"".toList = '"' :: ",\"detail\":\"".toList := by simp
  have hbody : jsonError token detail = "\x7b\"error\":\"".toList ++ token.toList ++
      '"' :: (",\"detail\":\"".toList ++ (detail.toList ++ "\"\x7d".toList)) := by
    rw [← List.cons_append, ← hquote, ← List.append_assoc, ← List.append_assoc]
    unfold jsonError
    rfl
  rw [hbody]
  exact quoted_text hopen hplain

theorem txidBody_ne_jsonError (id : Digest32) (token detail : String) :
    txidBody id ≠ jsonError token detail := by
  have htxid : "\x7b\"txid\":\"".toList = '\x7b' :: '"' :: 't' :: "xid\":\"".toList := by simp
  have herror : "\x7b\"error\":\"".toList = '\x7b' :: '"' :: 'e' :: "rror\":\"".toList := by simp
  unfold txidBody jsonError
  rw [htxid, herror]
  intro h
  injection h with _ h
  injection h with _ h
  injection h with hthird _
  exact absurd hthird (by decide)

/-- No token contains a quote. -/
theorem errorToken_plain (ar : AdmitResult) : ∀ c ∈ (errorToken ar).toList, c ≠ '"' := by
  cases ar <;> simp [errorToken, admitResultName]

section Answer

variable [Crypto]

def submitAnswer (t : Txn) (ar : AdmitResult) : RpcResponse :=
  if ar = .ok then ⟨200, txidBody (txid t)⟩
  else ⟨admitStatus ar, jsonError (errorToken ar) "rejected by admit()"⟩

theorem submitAnswer_status (t : Txn) (ar : AdmitResult) :
    (submitAnswer t ar).status = 200 ↔ ar = .ok := by
  cases ar <;> simp [submitAnswer, admitStatus]

theorem submitAnswer_rejects {t : Txn} {ar : AdmitResult} {token : String}
    (hplain : ∀ c ∈ token.toList, c ≠ '"') :
    (submitAnswer t ar).Rejects token ↔ ar ≠ .ok ∧ errorToken ar = token := by
  constructor
  · rintro ⟨detail, hbody⟩
    by_cases hok : ar = .ok
    · rw [submitAnswer, if_pos hok] at hbody
      exact absurd hbody (txidBody_ne_jsonError _ _ _)
    · rw [submitAnswer, if_neg hok] at hbody
      have hread := jsonError_token (errorToken_plain ar) "rejected by admit()"
      have hsame : jsonError (errorToken ar) "rejected by admit()" = jsonError token detail := hbody
      rw [hsame, jsonError_token hplain] at hread
      exact ⟨hok, (String.toList_inj.mp hread).symm⟩
  · rintro ⟨hok, rfl⟩
    exact ⟨"rejected by admit()", by rw [submitAnswer, if_neg hok]⟩

variable {t : Txn} {pre post : Text}

/-- A transaction submitted in hex, with blanks around it, is answered by its verdict. -/
theorem handleRequest_submit (hver : t.ver = kTxnVersion) (hpre : ∀ c ∈ pre, isBlank c = true)
    (hpost : ∀ c ∈ post, isBlank c = true) (ctx : RpcContext) :
    handleRequest "POST".toList "/tx".toList (pre ++ toHex t.serialize ++ post) ctx =
      (submitAnswer t (ctx.mempool.verdict ctx.account t),
        { ctx with mempool := (ctx.mempool.admitTxn ctx.account t).2 }) := by
  rw [handleRequest_tx, submitTx_padded hver hpre hpost, submitAnswer,
    ← Mempool.admitTxn_verdict]

/-! ### What the verdict says -/

section Verdict

variable {mp : Mempool} {accountAt : AccountLookup}

theorem verdict_ok_iff : mp.verdict accountAt t = .ok ↔ mp.Admits accountAt t := by
  rw [← Mempool.admitTxn_verdict]
  constructor
  · intro hok
    rcases mp.admitTxn_cases accountAt t with ⟨hadmits, -⟩ | ⟨hrefused, -⟩
    · exact hadmits
    · exact absurd hok hrefused
  · intro hadmits
    rw [Mempool.admitTxn_ok hadmits]

/-- The pool changes on no other verdict than OK. -/
theorem admitTxn_refused (hrefused : mp.verdict accountAt t ≠ .ok) :
    (mp.admitTxn accountAt t).2 = mp := by
  rcases mp.admitTxn_cases accountAt t with ⟨hadmits, -⟩ | ⟨-, hsame⟩
  · exact absurd (verdict_ok_iff.mpr hadmits) hrefused
  · exact hsame

/-- A well-formed signed transaction is not refused for its form. -/
theorem verdict_authentic (hver : t.ver = kTxnVersion) (hauth : t.Authentic) :
    mp.verdict accountAt t ∉ [AdmitResult.unparseable, .badAddr, .badSig] := by
  have hform : ¬(t.from = kNullAddr ∨ t.from ≠ address t.pubkey) :=
    not_or.mpr ⟨hauth.sender, not_not.mpr hauth.address⟩
  rw [Mempool.verdict, if_neg (not_not.mpr hver), if_neg hform,
    if_neg (not_not.mpr hauth.signature)]
  split_ifs <;> simp

theorem holds_accept (mp : Mempool) (t : Txn) : (mp.accept t).Holds t :=
  ⟨⟨t, txid t, mp.nextSeq⟩, by rw [Mempool.accept, OrderedMap.getElem?_insert, if_pos rfl], rfl⟩

omit [Crypto] in
theorem hasPending_eq_false {a : Address} : mp.hasPending a = false ↔ mp.bySender[a]? = none := by
  rw [Mempool.hasPending, Option.isSome_eq_false_iff, Option.isNone_iff_eq_none]

end Verdict

/-! ### What the wallet submits -/

section Wallet

variable [Signer]

/-- The node decodes what the wallet submits to that very transaction and refuses it for
the nonce, the slot, the funds, the capacity or a duplicate only; it answers 200 with the
id of the 153 bytes exactly if none of these stands against it, and any other answer
leaves everything as it was. -/
theorem wallet_submission_faithful (hsign : SignaturesVerify) (seed : Seed32) («to» : Address)
    (amount nonce : UInt64) (haddr : address (Signer.derivePubkey seed) ≠ kNullAddr)
    (hpre : ∀ c ∈ pre, isBlank c = true) (hpost : ∀ c ∈ post, isBlank c = true)
    (ctx : RpcContext) :
    let t := signTxn seed «to» amount nonce
    let body := pre ++ toHex t.serialize ++ post
    let answered := handleRequest "POST".toList "/tx".toList body ctx
    ((fromHex kTxnSize (trim body)).bind fun bytes => deserializeTxn bytes.toList) = some t ∧
      (∀ token ∈ ["PARSE_ERROR", "BAD_ADDR", "BAD_SIG"], ¬answered.1.Rejects token) ∧
      (answered.1.status = 200 ↔
        nonce = (ctx.account t.from).nonce ∧ ctx.mempool.hasPending t.from = false ∧
          amount ≤ (ctx.account t.from).balance ∧ ctx.mempool.byTxid.size < ctx.mempool.cap ∧
            ctx.mempool.byTxid[txid t]? = none) ∧
      (answered.1.status = 200 →
        answered.1.body = txidBody (Crypto.sha256 t.serialize) ∧ t.serialize.length = 153 ∧
          answered.2.mempool.Holds t) ∧
      (answered.1.status ≠ 200 → answered.2 = ctx) := by
  intro t body answered
  have hanswered : answered = (submitAnswer t (ctx.mempool.verdict ctx.account t),
      { ctx with mempool := (ctx.mempool.admitTxn ctx.account t).2 }) :=
    handleRequest_submit rfl hpre hpost ctx
  have hver : t.ver = kTxnVersion := rfl
  have hauth : t.Authentic := ⟨haddr, rfl, signTxn_verifies seed «to» amount nonce hsign⟩
  refine ⟨?_, ?_, ?_, ?_, ?_⟩
  · obtain ⟨a, hdecode, ha⟩ := fromHex_padded t.length_serialize hpre hpost
    rw [hdecode, Option.bind_some, ha, deserializeTxn_serialize, if_pos hver]
  · intro token htoken hrejects
    rw [hanswered] at hrejects
    have hform : ctx.mempool.verdict ctx.account t ∉ [AdmitResult.unparseable, .badAddr, .badSig] :=
      verdict_authentic hver hauth
    generalize ctx.mempool.verdict ctx.account t = verdict at hrejects hform
    simp only [List.mem_cons, List.not_mem_nil, or_false] at htoken
    rcases htoken with rfl | rfl | rfl
    all_goals
      have hrefused := ((submitAnswer_rejects (by simp)).mp hrejects).2
      cases verdict <;> simp [errorToken, admitResultName] at hrefused hform
  · rw [hanswered, submitAnswer_status, verdict_ok_iff, hasPending_eq_false]
    constructor
    · intro h
      exact ⟨h.spendable.nonce, h.free, h.spendable.funds, h.room, h.fresh⟩
    · rintro ⟨hnonce, hfree, hfunds, hroom, hfresh⟩
      exact ⟨hver, hfresh, hauth, ⟨hnonce, hfunds⟩, hfree, hroom⟩
  · intro hok
    rw [hanswered, submitAnswer_status] at hok
    rw [hanswered]
    refine ⟨?_, t.length_serialize, ?_⟩
    · rw [submitAnswer, if_pos hok, txid]
    · show (ctx.mempool.admitTxn ctx.account t).2.Holds t
      rw [Mempool.admitTxn_ok (verdict_ok_iff.mp hok)]
      exact holds_accept ctx.mempool t
  · intro hrefused
    rw [hanswered] at hrefused ⊢
    have hverdict := mt (submitAnswer_status t _).mpr hrefused
    rw [admitTxn_refused hverdict]

end Wallet

/-! ### What the node advertises -/

/-- Slots belong to senders that signed, so not to the coinbase. -/
def Mempool.SlotsSigned (mp : Mempool) : Prop :=
  ∀ a : Address, mp.bySender[a]? ≠ none → a ≠ kNullAddr

theorem Mempool.SlotsSigned.admitTxn {mp : Mempool} (h : mp.SlotsSigned)
    (accountAt : AccountLookup) (t : Txn) : (mp.admitTxn accountAt t).2.SlotsSigned := by
  rcases mp.admitTxn_cases accountAt t with ⟨hadmits, hok⟩ | ⟨-, hsame⟩
  · intro a ha
    rw [hok, Mempool.accept, OrderedMap.getElem?_insert] at ha
    split_ifs at ha with hnew
    · rw [hnew]
      exact hadmits.authentic.sender
    · exact h a ha
  · rw [hsame]
    exact h

theorem Mempool.SlotsSigned.evictOne {mp : Mempool} (h : mp.SlotsSigned) (t : Txn) :
    (mp.evictOne t).SlotsSigned := by
  intro a ha
  rw [Mempool.evictOne] at ha
  split at ha
  · exact h a ha
  · dsimp only at ha
    split_ifs at ha with hheld
    · rw [OrderedMap.getElem?_erase] at ha
      split_ifs at ha
      · exact absurd rfl ha
      · exact h a ha
    · exact h a ha

theorem slotsSigned_runMempool (cap : ℕ) (ops : List MempoolOp) :
    (runMempool cap ops).SlotsSigned := by
  refine Run.invariant (J := Mempool.SlotsSigned) ?_ (fun a ha => absurd (by simp) ha) ops
  intro mp op hmp
  cases op with
  | admitTxn accountAt t => exact hmp.admitTxn accountAt t
  | evictIncluded txns =>
      exact List.foldlRecOn txns Mempool.evictOne (motive := Mempool.SlotsSigned) hmp
        fun _ hmp t _ => hmp.evictOne t

omit [Crypto] in
/-- A word is never its own successor. -/
theorem pendingNonce_ne_iff {ctx : RpcContext} {a : Address} :
    ctx.pendingNonce a ≠ (ctx.account a).nonce ↔ ctx.mempool.hasPending a = true := by
  rw [RpcContext.pendingNonce]
  cases ctx.mempool.hasPending a <;> simp

section Advertised

variable {cap : ℕ} {ops : List MempoolOp} {ctx : RpcContext}

/-- At the advertised nonce the nonce is what admission refuses, if the slot is taken. -/
theorem submit_rejects_stale (hpool : ctx.mempool = runMempool cap ops)
    (hver : t.ver = kTxnVersion) (haddress : t.from = address t.pubkey)
    (hsig : Crypto.verify t.pubkey t.sig (signedPayload t) = true)
    (hnonce : t.nonce = ctx.pendingNonce t.from) (hpre : ∀ c ∈ pre, isBlank c = true)
    (hpost : ∀ c ∈ post, isBlank c = true) :
    (handleRequest "POST".toList "/tx".toList (pre ++ toHex t.serialize ++ post) ctx).1.Rejects
        "STALE_NONCE" ↔
      ctx.mempool.hasPending t.from = true ∧ ctx.mempool.byTxid[txid t]? = none := by
  rw [handleRequest_submit hver hpre hpost, submitAnswer_rejects (by simp),
    ← pendingNonce_ne_iff, ← hnonce]
  have hstale : ctx.mempool.verdict ctx.account t = .staleNonce ↔
      t.nonce ≠ (ctx.account t.from).nonce ∧ ctx.mempool.byTxid[txid t]? = none := by
    rw [Mempool.verdict, if_neg (not_not.mpr hver)]
    by_cases hcommitted : t.nonce = (ctx.account t.from).nonce
    · rw [if_neg (not_not.mpr hcommitted)]
      split_ifs <;> simp [hcommitted]
    · have hslot : ctx.mempool.bySender[t.from]? ≠ none := by
        rw [hnonce, ← ne_eq, pendingNonce_ne_iff] at hcommitted
        intro hfree
        rw [hasPending_eq_false.mpr hfree] at hcommitted
        cases hcommitted
      have hsender : t.from ≠ kNullAddr := by
        rw [hpool] at hslot
        exact slotsSigned_runMempool cap ops t.from hslot
      rw [if_neg (not_or.mpr ⟨hsender, not_not.mpr haddress⟩), if_neg (not_not.mpr hsig),
        if_pos hcommitted]
      by_cases hfresh : ctx.mempool.byTxid[txid t]? = none <;> simp [hfresh, hcommitted]
  rw [← hstale]
  constructor
  · rintro ⟨-, htoken⟩
    generalize ctx.mempool.verdict ctx.account t = verdict at htoken ⊢
    cases verdict <;> simp [errorToken, admitResultName] at htoken ⊢
  · intro h
    rw [h]
    exact ⟨by decide, rfl⟩

/-- A transaction that carries the nonce its sender is shown is refused as stale exactly
if the sender has a transaction pending and this one is not in the pool already. -/
theorem advertised_nonce_stale_iff_pending (hpool : ctx.mempool = runMempool cap ops)
    (hver : t.ver = kTxnVersion) (haddress : t.from = address t.pubkey)
    (hsig : Crypto.verify t.pubkey t.sig (signedPayload t) = true)
    (hnonce : t.nonce = ctx.pendingNonce t.from) (hpre : ∀ c ∈ pre, isBlank c = true)
    (hpost : ∀ c ∈ post, isBlank c = true) :
    handleRequest "GET".toList ("/account/".toList ++ toHex t.from.toList) [] ctx =
        (⟨200, accountBody t.from (ctx.account t.from).balance (ctx.account t.from).nonce t.nonce⟩,
          ctx) ∧
      ((handleRequest "POST".toList "/tx".toList (pre ++ toHex t.serialize ++ post) ctx).1.Rejects
          "STALE_NONCE" ↔
        ctx.mempool.hasPending t.from = true ∧ ctx.mempool.byTxid[txid t]? = none) :=
  ⟨by rw [handleRequest_account, hnonce],
    submit_rejects_stale hpool hver haddress hsig hnonce hpre hpost⟩

end Advertised

end Answer

section Samples

/-! ### A transfer of the demo account -/

def rachealSeed : Seed32 :=
  bigEndian 0xbca85309b25a395cb2e00fbc8bc2c301c89491e4d46a91816d4ea805bd73f942

/-- The real signature of one payload; every other message gets a fixed one. -/
def sampleSignature (pubkey : PubKey32) (message : List Byte) : Sig64 :=
  if pubkey = rachealKey ∧ message = signedPayload payOliver then payOliver.sig
  else Vector.replicate 64 0

/-- Real SHA-256, and the key and the signature of the demo account. -/
abbrev walletKeys : Crypto where
  sha256 := Sha256.sha256
  verify := fun pubkey sig message => sig = sampleSignature pubkey message

abbrev walletSigner : Signer where
  derivePubkey := fun seed => if seed = rachealSeed then rachealKey else seed
  sign := fun seed message =>
    sampleSignature (if seed = rachealSeed then rachealKey else seed) message

attribute [local instance] walletKeys walletSigner

theorem walletKeys_verify : SignaturesVerify := fun _ _ => decide_eq_true rfl

theorem rachealSeed_key : Signer.derivePubkey rachealSeed = rachealKey := if_pos rfl

theorem rachealSeed_address : address (Signer.derivePubkey rachealSeed) = racheal := by
  rw [rachealSeed_key]
  exact rachealKey_address rfl

/-- The wallet signs the sample transfer. -/
theorem signTxn_rachealSeed : signTxn rachealSeed oliver 100 0 = payOliver := by
  have hpayload : signedPayload (unsignedTxn rachealSeed oliver 100 0) =
      signedPayload payOliver := by
    rw [signedPayload_eq_iff]
    exact ⟨rfl, rachealSeed_address, rfl, rfl, rfl, rachealSeed_key⟩
  have hsig : Signer.sign rachealSeed (signedPayload (unsignedTxn rachealSeed oliver 100 0)) =
      payOliver.sig := by
    rw [hpayload]
    show sampleSignature (Signer.derivePubkey rachealSeed) (signedPayload payOliver) = payOliver.sig
    rw [rachealSeed_key, sampleSignature, if_pos ⟨rfl, rfl⟩]
  have hfields : signTxn rachealSeed oliver 100 0 = ⟨kTxnVersion,
      address (Signer.derivePubkey rachealSeed), oliver, 100, 0, Signer.derivePubkey rachealSeed,
      Signer.sign rachealSeed (signedPayload (unsignedTxn rachealSeed oliver 100 0))⟩ := rfl
  rw [hfields, hsig, rachealSeed_address, rachealSeed_key, payOliver, rachealPays]

/-- Every account holds 1000 and nothing is pending. -/
def emptyCtx : RpcContext := ⟨funded, {}, {}⟩

def leading : Text := ['\r', '\n']
def trailing : Text := [' ']

/-- The sample transfer with blanks around its hex. -/
def paddedBody : Text := leading ++ toHex payOliver.serialize ++ trailing

theorem wallet_submission_admitted :
    signTxn rachealSeed oliver 100 0 = payOliver ∧
      (handleRequest "POST".toList "/tx".toList paddedBody emptyCtx).1.status = 200 ∧
        (handleRequest "POST".toList "/tx".toList paddedBody emptyCtx).2.mempool.Holds
          payOliver := by
  have hsender : address (Signer.derivePubkey rachealSeed) ≠ kNullAddr := by
    rw [rachealSeed_address]
    decide
  have hpre : ∀ c ∈ leading, isBlank c = true := by simp [leading, isBlank]
  have hpost : ∀ c ∈ trailing, isBlank c = true := by simp [trailing, isBlank]
  have hfunds : ∀ a, (100 : UInt64) ≤ (emptyCtx.account a).balance := by
    intro a
    show (100 : UInt64) ≤ 1000
    decide
  have hroom : emptyCtx.mempool.byTxid.size < emptyCtx.mempool.cap := by decide
  have hfresh : ∀ id : Digest32, emptyCtx.mempool.byTxid[id]? = none := by simp [emptyCtx]
  have hfree : ∀ a, emptyCtx.mempool.hasPending a = false := fun a =>
    hasPending_eq_false.mpr (by simp [emptyCtx])
  have hnonce : ∀ a, 0 = (emptyCtx.account a).nonce := fun _ => rfl
  obtain ⟨-, -, hok, hholds, -⟩ := wallet_submission_faithful walletKeys_verify rachealSeed oliver
    100 0 hsender hpre hpost emptyCtx
  rw [signTxn_rachealSeed, ← paddedBody] at hok hholds
  have hstatus := hok.mpr ⟨hnonce _, hfree _, hfunds _, hroom, hfresh _⟩
  exact ⟨signTxn_rachealSeed, hstatus, (hholds hstatus).2.2⟩

end Samples

section Samples

/-! ### The transfer after a pending one -/

attribute [local instance] sampleKeys

/-- The first transfer of the demo account is pending. -/
def pendingOps : List MempoolOp := [.admitTxn funded payOliver]

def pendingCtx : RpcContext := ⟨funded, {}, runMempool 4096 pendingOps⟩

theorem pendingCtx_mempool : pendingCtx.mempool = ({} : Mempool).accept payOliver := by
  have hauth := signedSamples_authentic payOliver (by simp [signedSamples])
  have hspend : payOliver.Spendable (funded payOliver.from) := ⟨rfl, by decide⟩
  have hadmits : ({} : Mempool).Admits funded payOliver :=
    Mempool.admits_empty (by decide) rfl hauth hspend
  have hrun : runMempool 4096 pendingOps = (({} : Mempool).admitTxn funded payOliver).2 := by
    simp only [runMempool, pendingOps, List.foldl_cons, List.foldl_nil, MempoolOp.apply]
  rw [pendingCtx, hrun, Mempool.admitTxn_ok hadmits]

/-- The second transfer is not in the pool, and its sender has the first one pending. -/
theorem fillWord_waits :
    pendingCtx.mempool.hasPending fillWord.from = true ∧
      pendingCtx.mempool.byTxid[txid fillWord]? = none := by
  have hfirst : (txid fillWord).toList.head? ≠ (txid payOliver).toList.head? := by decide +kernel
  have hid : txid fillWord ≠ txid payOliver := fun heq =>
    hfirst (congrArg (fun id : Digest32 => id.toList.head?) heq)
  have hsender : fillWord.from = payOliver.from := by
    rw [fillWord, payOliver, rachealPays, rachealPays]
  have hslot : (({} : Mempool).accept payOliver).bySender[fillWord.from]? =
      some (txid payOliver) := by
    rw [Mempool.accept, OrderedMap.getElem?_insert, if_pos hsender]
  rw [pendingCtx_mempool]
  constructor
  · rw [Mempool.hasPending, hslot, Option.isSome_some]
  · rw [Mempool.accept, OrderedMap.getElem?_insert, if_neg hid]
    simp

theorem fillWord_nonce : fillWord.nonce = pendingCtx.pendingNonce fillWord.from := by
  rw [RpcContext.pendingNonce, fillWord_waits.1]
  rfl

/-- It is shown its nonce, and refused for it. -/
theorem fillWord_stale :
    (handleRequest "POST".toList "/tx".toList ([] ++ toHex fillWord.serialize ++ [])
      pendingCtx).1.Rejects "STALE_NONCE" := by
  have hauth := signedSamples_authentic fillWord (by simp [signedSamples])
  have hpool : pendingCtx.mempool = runMempool 4096 pendingOps := by simp only [pendingCtx]
  have hblank : ∀ c ∈ ([] : Text), isBlank c = true := by simp
  have hstale := advertised_nonce_stale_iff_pending hpool rfl hauth.address hauth.signature
    fillWord_nonce hblank hblank
  exact hstale.2.mpr fillWord_waits

/-- The node refuses the nonce it advertises. -/
theorem advertised_nonce_refused :
    ¬∀ (cap : ℕ) (ops : List MempoolOp) (ctx : RpcContext) (t : Txn),
      ctx.mempool = runMempool cap ops → t.ver = kTxnVersion → t.Authentic →
        t.nonce = ctx.pendingNonce t.from →
          ¬(handleRequest "POST".toList "/tx".toList (toHex t.serialize) ctx).1.Rejects
            "STALE_NONCE" := by
  intro hclaim
  have hauth := signedSamples_authentic fillWord (by simp [signedSamples])
  have hpool : pendingCtx.mempool = runMempool 4096 pendingOps := by simp only [pendingCtx]
  have hblank : ∀ c ∈ ([] : Text), isBlank c = true := by simp
  have hstale := submit_rejects_stale hpool rfl hauth.address hauth.signature fillWord_nonce hblank
    hblank
  rw [List.nil_append, List.append_nil] at hstale
  exact hclaim 4096 pendingOps pendingCtx fillWord hpool rfl hauth fillWord_nonce
    (hstale.mpr fillWord_waits)

end Samples

end TxChain
