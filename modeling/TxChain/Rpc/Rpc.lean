import TxChain.Mempool.Admission
import TxChain.Serialize.Json

/-!
# The RPC surface

Requests are dispatched on method and path: `POST /tx` submits a transaction in hex to
the mempool, `GET /account/…` and `GET /tip` read a snapshot. The pool is the only
thing a request can change.
-/

namespace TxChain

/-- A snapshot of the chain tip. -/
structure TipInfo where
  index : UInt64 := 0
  blockHash : Hash256 := Vector.replicate 32 0
  prevHash : Hash256 := Vector.replicate 32 0
  cumWork : Work := 0
  difficulty : UInt32 := 0
  timestamp : UInt64 := 0

/-- What a handler reads and changes. The pool was built over the same account lookup. -/
structure RpcContext where
  account : AccountLookup
  tip : TipInfo
  mempool : Mempool

structure RpcResponse where
  status : Int32 := 200
  body : Text
  deriving DecidableEq

def jsonError (token detail : String) : Text :=
  "\x7b\"error\":\"".toList ++ token.toList ++
  "\",\"detail\":\"".toList ++ detail.toList ++ "\"\x7d".toList

/-- Decimal digits of a 128-bit value. -/
def u128ToString (v : Work) : Text := decimal v.toNat

def isBlank (c : Char) : Bool := c = ' ' || c = '\t' || c = '\r' || c = '\n'

def trim (s : Text) : Text := (s.dropWhile isBlank).rdropWhile isBlank

/-- The token of an admission outcome. -/
def admitResultName : AdmitResult → String
  | .ok => "OK"
  | .badSig => "BAD_SIG"
  | .badAddr => "BAD_ADDR"
  | .staleNonce => "STALE_NONCE"
  | .insufficientFunds => "INSUFFICIENT_FUNDS"
  | .unparseable => "UNPARSEABLE"
  | .duplicate => "DUPLICATE"
  | .mempoolFull => "MEMPOOL_FULL"
  | .pendingSlotBusy => "PENDING_SLOT_BUSY"

def admitStatus : AdmitResult → Int32
  | .ok => 200
  | .staleNonce | .duplicate | .pendingSlotBusy => 409
  | .mempoolFull => 503
  | .unparseable | .badAddr | .badSig | .insufficientFunds => 400

/-- An unparseable transaction surfaces as the transport token. -/
def errorToken (ar : AdmitResult) : String :=
  if ar = .unparseable then "PARSE_ERROR" else admitResultName ar

section Handlers

variable [Crypto]

/-- Admission of bytes; a wrong length or version is unparseable. -/
def Mempool.admitBytes (mp : Mempool) (accountAt : AccountLookup) (bytes : List Byte) :
    AdmitResult × Mempool :=
  match deserializeTxn bytes with
  | none => (.unparseable, mp)
  | some t => mp.admitTxn accountAt t

def txidBody (txid : Digest32) : Text :=
  "\x7b\"txid\":\"".toList ++ toHex txid.toList ++ "\"\x7d".toList

def submitTx (body : Text) (ctx : RpcContext) : RpcResponse × RpcContext :=
  match fromHex kTxnSize (trim body) with
  | none =>
      (⟨400, jsonError "PARSE_ERROR" "body must be a 153-byte hex-encoded txn"⟩, ctx)
  | some bytes =>
      let admitted := ctx.mempool.admitBytes ctx.account bytes.toList
      let next := { ctx with mempool := admitted.2 }
      if admitted.1 = .ok then (⟨200, txidBody (Crypto.sha256 bytes.toList)⟩, next)
      else
        (⟨admitStatus admitted.1,
          jsonError (errorToken admitted.1) "rejected by admit()"⟩, next)

omit [Crypto] in
def Mempool.hasPending (mp : Mempool) (a : Address) : Bool := mp.bySender[a]?.isSome

omit [Crypto] in
/-- The nonce a client is told to use next. -/
def RpcContext.pendingNonce (ctx : RpcContext) (a : Address) : UInt64 :=
  (ctx.account a).nonce + if ctx.mempool.hasPending a then 1 else 0

omit [Crypto] in
def accountBody (a : Address) (balance confirmed pending : UInt64) : Text :=
  "\x7b\"address\":\"".toList ++ toHex a.toList ++
  "\",\"balance\":".toList ++ decimal balance.toNat ++
  ",\"confirmedNonce\":".toList ++ decimal confirmed.toNat ++
  ",\"pendingNonce\":".toList ++ decimal pending.toNat ++ "\x7d".toList

omit [Crypto] in
def accountResp (addrHex : Text) (ctx : RpcContext) : RpcResponse :=
  match fromHex 20 addrHex with
  | none => ⟨400, jsonError "BAD_REQUEST" "address must be 40 hex chars"⟩
  | some a =>
      ⟨200, accountBody a (ctx.account a).balance (ctx.account a).nonce (ctx.pendingNonce a)⟩

omit [Crypto] in
def tipResp (ctx : RpcContext) : RpcResponse :=
  ⟨200,
    "\x7b\"index\":".toList ++ decimal ctx.tip.index.toNat ++
    ",\"blockHash\":\"".toList ++ toHex ctx.tip.blockHash.toList ++
    "\",\"prevHash\":\"".toList ++ toHex ctx.tip.prevHash.toList ++
    "\",\"cumWork\":\"".toList ++ u128ToString ctx.tip.cumWork ++
    "\",\"difficulty\":".toList ++ decimal ctx.tip.difficulty.toNat ++
    ",\"timestamp\":".toList ++ decimal ctx.tip.timestamp.toNat ++ "\x7d".toList⟩

/-- Routes are matched on the path in front of a query. -/
def handleRequest (method target body : Text) (ctx : RpcContext) : RpcResponse × RpcContext :=
  let path := target.takeWhile (· ≠ '?')
  if method = "POST".toList ∧ path = "/tx".toList then submitTx body ctx
  else if method = "GET".toList ∧ path = "/tip".toList then (tipResp ctx, ctx)
  else if method = "GET".toList ∧ "/account/".toList <+: path then
    (accountResp (path.drop "/account/".length) ctx, ctx)
  else (⟨404, jsonError "NOT_FOUND" "unknown route"⟩, ctx)

/-! ### Routes -/

theorem handleRequest_tx (body : Text) (ctx : RpcContext) :
    handleRequest "POST".toList "/tx".toList body ctx = submitTx body ctx := by
  rw [handleRequest]
  exact if_pos (by decide)

omit [Crypto] in
/-- Hex contains none of the characters a request is split at. -/
theorem not_mem_toHex {c : Char} (hc : c ∉ kHex) (bytes : List Byte) : c ∉ toHex bytes :=
  fun h => hc (mem_toHex h)

theorem handleRequest_account (a : Address) (body : Text) (ctx : RpcContext) :
    handleRequest "GET".toList ("/account/".toList ++ toHex a.toList) body ctx =
      (⟨200, accountBody a (ctx.account a).balance (ctx.account a).nonce (ctx.pendingNonce a)⟩,
        ctx) := by
  have hpath : ("/account/".toList ++ toHex a.toList).takeWhile (· ≠ '?') =
      "/account/".toList ++ toHex a.toList := by
    apply List.takeWhile_eq_self_iff.mpr
    intro c hc
    apply decide_eq_true
    rintro rfl
    rcases List.mem_append.mp hc with hc | hc
    · exact absurd hc (by decide)
    · exact not_mem_toHex (by decide) _ hc
  have htip : "/account/".toList ++ toHex a.toList ≠ "/tip".toList := by
    intro h
    have hsecond := congrArg (·[1]?) h
    exact absurd hsecond (by simp)
  have hdrop : ("/account/".toList ++ toHex a.toList).drop "/account/".length = toHex a.toList :=
    List.drop_left' rfl
  have hmethod : "GET".toList ≠ "POST".toList := by decide
  rw [handleRequest, hpath, if_neg (fun h => hmethod h.1), if_neg (fun h => htip h.2),
    if_pos ⟨rfl, List.prefix_append _ _⟩, hdrop, accountResp, fromHex_toHex]

/-! ### Submission -/

omit [Crypto] in
/-- Blanks around a text without blanks are trimmed off. -/
theorem trim_padded {pre s post : Text} (hpre : ∀ c ∈ pre, isBlank c = true)
    (hs : ∀ c ∈ s, isBlank c = false) (hpost : ∀ c ∈ post, isBlank c = true) :
    trim (pre ++ s ++ post) = s := by
  have hright : ∀ front : Text, (∀ c ∈ front, isBlank c = false) →
      (front ++ post).rdropWhile isBlank = front := by
    intro front hfront
    rw [List.rdropWhile, List.reverse_append,
      List.dropWhile_append_of_pos (fun c hc => hpost c (List.mem_reverse.mp hc)),
      List.dropWhile_eq_self_iff.mpr, List.reverse_reverse]
    intro hl hblank
    have hmem := List.mem_reverse.mp (List.getElem_mem hl)
    rw [hfront _ hmem] at hblank
    cases hblank
  rw [trim, List.append_assoc, List.dropWhile_append_of_pos hpre]
  cases s with
  | nil =>
      have hnil : post.dropWhile isBlank = [] := List.dropWhile_eq_nil_iff.mpr hpost
      rw [List.nil_append, hnil]
      rfl
  | cons c s =>
      have hc : ¬isBlank c = true := by simp [hs c List.mem_cons_self]
      rw [List.cons_append, List.dropWhile_cons_of_neg hc, ← List.cons_append]
      exact hright _ hs

omit [Crypto] in
theorem toHex_not_blank (bytes : List Byte) : ∀ c ∈ toHex bytes, isBlank c = false := by
  intro c hc
  have hall : kHex.all (fun c => !isBlank c) = true := by rfl
  simpa using List.all_eq_true.mp hall c (mem_toHex hc)

omit [Crypto] in
/-- The submitted hex is decoded to the bytes it was made from. -/
theorem fromHex_padded {n : ℕ} {bytes : List Byte} (hlen : bytes.length = n) {pre post : Text}
    (hpre : ∀ c ∈ pre, isBlank c = true) (hpost : ∀ c ∈ post, isBlank c = true) :
    ∃ a : Vector Byte n, fromHex n (trim (pre ++ toHex bytes ++ post)) = some a ∧
      a.toList = bytes := by
  refine ⟨⟨bytes.toArray, by simpa using hlen⟩, ?_, ?_⟩
  · rw [trim_padded hpre (toHex_not_blank bytes) hpost]
    exact fromHex_toHex ⟨bytes.toArray, by simpa using hlen⟩
  · exact List.toList_toArray

/-- A submitted transaction meets the admission checks. -/
theorem submitTx_padded {t : Txn} (hver : t.ver = kTxnVersion) {pre post : Text}
    (hpre : ∀ c ∈ pre, isBlank c = true) (hpost : ∀ c ∈ post, isBlank c = true)
    (ctx : RpcContext) :
    submitTx (pre ++ toHex t.serialize ++ post) ctx =
      let admitted := ctx.mempool.admitTxn ctx.account t
      (if admitted.1 = .ok then ⟨200, txidBody (txid t)⟩
        else ⟨admitStatus admitted.1, jsonError (errorToken admitted.1) "rejected by admit()"⟩,
        { ctx with mempool := admitted.2 }) := by
  obtain ⟨a, hdecode, ha⟩ := fromHex_padded t.length_serialize hpre hpost
  have hbytes : deserializeTxn t.serialize = some t := by
    rw [deserializeTxn_serialize, if_pos hver]
  simp only [submitTx, hdecode, ha, Mempool.admitBytes, hbytes, txid]
  split <;> rfl

end Handlers

end TxChain
