import TxChain.Node.Swap
import TxChain.Rpc.Answers
import TxChain.Wallet.Send
import TxChain.Wallet.Startup

/-!
# Sending through a node

`txchain send` asks a node for the next nonce of its account, signs a transfer with it and
posts it. Between the two requests the node serves others and seals blocks, so the nonce may
be an old one by then; that is for the node to refuse. Client and node talk over streams
that are cut into pieces anywhere.
-/

namespace TxChain

open Stream Search Json

/-! ### The command -/

/-- `host:port`, split at the last colon. -/
def parseNode (s : Text) : Option (Text × Int32) :=
  match find [':'] s.reverse with
  | none => none
  | some behind =>
      let colon := s.length - (behind + 1)
      if colon = 0 ∨ s.length ≤ colon + 1 then none
      else
        let port := (Scan.strtol (s.drop (colon + 1))).toInt32
        if 0 < port then some (s.take colon, port) else none

/-- What `%s` prints of a text. -/
def printed (s : Text) : Text := s.takeWhile (· ≠ '\x00')

/-- How the command ends, with what it prints. -/
inductive SendExit where
  | usage
  | badTo
  | noWallet (error : String)
  | badNode
  | cannotReadAccount
  | malformedAccount
  | badChain
  | produced (txid : Text) (nonce : UInt64) (raw : Text)
  | cannotReach (host : Text) (port : Int32)
  | sent (txid : Text)
  | rejected (reason : Text)
  deriving DecidableEq

def SendExit.code : SendExit → ℕ
  | .usage | .badTo | .badNode => 2
  | .noWallet _ | .cannotReadAccount | .malformedAccount | .badChain => 1
  | .cannotReach _ _ | .rejected _ => 1
  | .produced _ _ _ | .sent _ => 0

/-- `http_request` to a host and port, with method, path and body. The world `σ` is the one
the peer lives in; there is no answer if both sides wait. -/
abbrev Network (σ : Type) := Text → Int32 → Text → Text → Text → σ → Option (HttpResult × σ)

section Command

variable [Crypto] [Signer] [Picojson] {σ : Type}

/-- Submit a transaction and print how that went. -/
def postTxn (net : Network σ) (host : Text) (port : Int32) (t : Txn) (world : σ) :
    Option (SendExit × σ) :=
  (net host port "POST".toList "/tx".toList (toHex t.serialize) world).map fun (r, world) =>
    if ¬r.ok then (.cannotReach host port, world)
    else if r.status / 100 = 2 then
      (.sent (((jsonGetString r.body "txid").map printed).getD (toHex (txid t).toList)), world)
    else (.rejected (((jsonGetString r.body "error").map printed).getD (printed r.body)), world)

/-- With a node the next nonce is asked for. -/
def sendThrough (net : Network σ) (host : Text) (port : Int32) (w : Wallet) («to» : Address)
    (amount : UInt64) (world : σ) : Option (SendExit × σ) :=
  match net host port "GET".toList ("/account/".toList ++ toHex w.address.toList) [] world with
  | none => none
  | some (r, world) =>
      if ¬r.ok ∨ r.status ≠ 200 then some (.cannotReadAccount, world)
      else
        match jsonGetU64 r.body "pendingNonce" with
        | none => some (.malformedAccount, world)
        | some nonce => postTxn net host port (signTxn w.seed «to» amount nonce) world

/-- `--key` wins over the datadir. -/
def sendKeyPath (options : List String) (datadir : String) : String :=
  if opt options "--key" ≠ "" then opt options "--key" else walletPathForDatadir datadir

def sendDatadir (options : List String) : String :=
  if opt options "--datadir" = "" then "./txchain-data" else opt options "--datadir"

/-- `txchain send`, the program and the verb included. -/
def runSend (net : Network σ) (argv : List String) (files : KeyFiles) (readable : Bool)
    (fs : FileSystem) (clock : UInt64) (world : σ) : Option (SendExit × σ) :=
  let options := argv.drop 2
  let node := opt options "--node"
  let datadir := sendDatadir options
  if opt options "--to" = "" ∨ opt options "--amount" = "" then some (.usage, world)
  else
    match fromHex 20 (opt options "--to").toList with
    | none => some (.badTo, world)
    | some dest =>
        let amount := Scan.strtoull (opt options "--amount").toList
        let wl := walletLoad files (sendKeyPath options datadir) readable
        if ¬wl.ok then some (.noWallet wl.error, world)
        else if node ≠ "" then
          match parseNode node.toList with
          | none => some (.badNode, world)
          | some (host, port) => sendThrough net host port wl.wallet dest amount world
        else
          match resolveOffline fs datadir clock wl.wallet.address with
          | none => some (.badChain, world)
          | some nonce =>
              let t := signTxn wl.wallet.seed dest amount nonce
              some (.produced (toHex (txid t).toList) nonce (toHex t.serialize), world)

end Command

/-! ### A node at the other end -/

/-- How a connection cuts what is written to it. -/
structure Wire where
  pieces : Text → List Text
  whole (text : Text) : (pieces text).flatten = text
  nonempty (text : Text) : ∀ piece ∈ pieces text, piece ≠ []

section Exchange

variable [Crypto]

/-- One request to a node: what the client makes of the answer, and the node behind it. -/
def exchange (up down : Wire) (method host path body : Text) (ctx : RpcContext) :
    Option (HttpResult × RpcContext) :=
  match serveConnection (fun method path body => (handleRequest method path body ctx).1)
      (arrivals (up.pieces (requestText method host path body))) with
  | .blocks => none
  | .closed calls out =>
      some (parseResponse (readAll [] (arrivals (down.pieces out))),
        calls.foldl (fun ctx call => (handleRequest call.1 call.2.1 call.2.2 ctx).2) ctx)

/-- Every address leads to the node, which goes on by itself behind each request. -/
def nodeNetwork (up down : Wire) (goesOn : RpcContext → RpcContext) : Network RpcContext :=
  fun host _ method path body ctx =>
    (exchange up down method host path body ctx).map fun (r, ctx) => (r, goesOn ctx)

/-! ### The declared length -/

omit [Crypto] in
theorem toLower_ne_colon {c : Char} (h : c ≠ ':') : c.toLower ≠ ':' := by
  rw [Char.toLower]
  split
  next hupper =>
    intro hlower
    have hval : c.val + 32 = 58 := congrArg Char.val hlower
    have hlow : 65 ≤ c.val.toNat := UInt32.le_iff_toNat_le.mp hupper.1
    have hhigh : c.val.toNat ≤ 90 := UInt32.le_iff_toNat_le.mp hupper.2
    have hsum := congrArg UInt32.toNat hval
    rw [UInt32.toNat_add] at hsum
    have h32 : (32 : UInt32).toNat = 32 := rfl
    have h58 : (58 : UInt32).toNat = 58 := rfl
    omega
  next => exact h

omit [Crypto] in
/-- A front part whose one colon is the one behind `Host` names no other length. -/
theorem lengthReadable_plain {method host path : Text} (hmethod : ':' ∉ method) (hpath : ':' ∉ path)
    (hhost : ':' ∉ host) (n : ℕ) : LengthReadable (requestFront method host path) n := by
  intro before after hfirst
  exfalso
  have hlower : ∀ {s : Text}, ':' ∉ s → ':' ∉ s.map Char.toLower := by
    intro s hs h
    obtain ⟨c, hc, hcolon⟩ := List.mem_map.mp h
    exact toLower_ne_colon (fun heq => hs (heq ▸ hc)) hcolon
  have hfront : requestFront method host path =
      (method ++ ' ' :: (path ++ " HTTP/1.1\r\nHost".toList)) ++ ':' :: (' ' :: host) := by
    unfold requestFront
    simp
  have hfield : lengthField = "content-length".toList ++ [':'] := by decide
  have hsplit := hfirst.split
  rw [hfront, hfield, List.map_append, List.map_cons, List.append_assoc, ← List.append_assoc]
    at hsplit
  have hbefore : ':' ∉ method ++ ' ' :: (path ++ " HTTP/1.1\r\nHost".toList) := by
    simp [hmethod, hpath]
  have hafter : ':' ∉ ' ' :: host := by simp [hhost]
  obtain ⟨hsame, -⟩ := (List.append_cons_inj_of_notMem (hlower hbefore) (hlower hafter)).mp hsplit
  -- in front of the colon stands the end of `Host` there and of `content-length` here
  have hhost' : method ++ ' ' :: (path ++ " HTTP/1.1\r\nHost".toList) =
      (method ++ ' ' :: (path ++ " HTTP/1.1\r\nHos".toList)) ++ ['t'] := by simp
  have hlength : "content-length".toList = "content-lengt".toList ++ ['h'] := by decide
  rw [hhost', hlength, List.map_append, ← List.append_assoc] at hsame
  exact absurd (List.append_inj' hsame rfl).2 (by decide)

/-- Texts that stand in a request without being taken apart. -/
def OneWord (s : Text) : Prop := ∀ c ∈ s, c ≠ ' ' ∧ c ≠ '\r' ∧ c ≠ '\n' ∧ c ≠ ':'

omit [Crypto] in
/-- No such text is mistaken for the field with the length. -/
theorem understands_words {handler : Handler} {method host path body : Text}
    (hmethod : OneWord method) (hpath : OneWord path) (hhost : OneWord host)
    (hsize : (requestText method host path body).length ≤ 1048576)
    (hstatus : 0 ≤ (handler method path body).status) :
    Understands handler method host path body := by
  have hbody : body.length < 2 ^ 64 := by
    rw [requestText_eq, List.length_append, List.length_append] at hsize
    omega
  have hreadable : LengthReadable (requestFront method host path) body.length :=
    lengthReadable_plain (fun h => (hmethod _ h).2.2.2 rfl) (fun h => (hpath _ h).2.2.2 rfl)
      (fun h => (hhost _ h).2.2.2 rfl) _
  refine (understands_iff_contentLength (fun c hc => ?_) (fun c hc => ?_) (fun c hc => ?_) hsize
    hstatus).mpr ((contentLength_request hbody).mpr hreadable)
  · exact ⟨(hmethod c hc).1, (hmethod c hc).2.1, (hmethod c hc).2.2.1⟩
  · exact ⟨(hpath c hc).1, (hpath c hc).2.1, (hpath c hc).2.2.1⟩
  · exact ⟨(hhost c hc).2.1, (hhost c hc).2.2.1⟩

/-- Client and node understand each other, so the exchange is a call of the handler. -/
theorem exchange_eq (up down : Wire) {method host path body : Text} (hmethod : OneWord method)
    (hpath : OneWord path) (hhost : OneWord host)
    (hsize : (requestText method host path body).length ≤ 1048576) (ctx : RpcContext) :
    exchange up down method host path body ctx =
      some (⟨true, (handleRequest method path body ctx).1.status,
        (handleRequest method path body ctx).1.body⟩, (handleRequest method path body ctx).2) := by
  have hstatus := handleRequest_status_nonneg method path body ctx
  have hunderstands : Understands (fun method path body => (handleRequest method path body ctx).1)
      method host path body := understands_words hmethod hpath hhost hsize hstatus
  obtain ⟨out, hserved, hread⟩ := hunderstands (up.pieces _) (up.nonempty _) (up.whole _)
  rw [exchange, hserved]
  dsimp only
  rw [hread (down.pieces out) (down.nonempty out) (down.whole out)]
  rfl

omit [Crypto] in
theorem oneWord_toHex (bytes : List Byte) : OneWord (toHex bytes) := by
  have hplain : OneWord kHex := by simp [OneWord, kHex]
  exact fun c hc => hplain c (mem_toHex hc)

omit [Crypto] in
theorem oneWord_literals :
    OneWord "GET".toList ∧ OneWord "POST".toList ∧ OneWord "/tx".toList ∧
      OneWord "/account/".toList := by
  simp [OneWord]

theorem exchange_account (up down : Wire) {host : Text} (hhost : OneWord host)
    (hsize : host.length ≤ 1000000) (a : Address) (ctx : RpcContext) :
    exchange up down "GET".toList host ("/account/".toList ++ toHex a.toList) [] ctx =
      some (⟨true, 200, accountBody a (ctx.account a).balance (ctx.account a).nonce
        (ctx.pendingNonce a)⟩, ctx) := by
  have hpath : OneWord ("/account/".toList ++ toHex a.toList) := by
    intro c hc
    obtain hc | hc := List.mem_append.mp hc
    · exact oneWord_literals.2.2.2 c hc
    · exact oneWord_toHex _ c hc
  have hlength : (requestText "GET".toList host ("/account/".toList ++ toHex a.toList) []).length ≤
      1048576 := by
    unfold requestText
    simp [length_toHex, decimal]
    omega
  rw [exchange_eq up down oneWord_literals.1 hpath hhost hlength, handleRequest_account]

theorem exchange_submit (up down : Wire) {host : Text} (hhost : OneWord host)
    (hsize : host.length ≤ 1000000) {t : Txn} (hver : t.ver = kTxnVersion) (ctx : RpcContext) :
    exchange up down "POST".toList host "/tx".toList (toHex t.serialize) ctx =
      some (⟨true, (submitAnswer t (ctx.mempool.verdict ctx.account t)).status,
        (submitAnswer t (ctx.mempool.verdict ctx.account t)).body⟩,
        { ctx with mempool := (ctx.mempool.admitTxn ctx.account t).2 }) := by
  have hlength : (requestText "POST".toList host "/tx".toList (toHex t.serialize)).length ≤
      1048576 := by
    unfold requestText
    have hbody : (toHex t.serialize).length = 306 := by rw [length_toHex, t.length_serialize]; rfl
    have hdigits : (decimal 306).length = 3 := by decide
    simp only [hbody, hdigits, List.length_append, String.reduceToList, List.length_cons,
      List.length_nil]
    omega
  have hblank : ∀ c ∈ ([] : Text), isBlank c = true := by simp
  have hanswered := handleRequest_submit hver hblank hblank ctx
  rw [List.nil_append, List.append_nil] at hanswered
  rw [exchange_eq up down oneWord_literals.2.1 oneWord_literals.2.2.1 hhost hlength, hanswered]

end Exchange

/-! ### The whole command -/

section Through

variable [Crypto] [Signer]

attribute [local instance] picojson

/-- What the command reports of a verdict. -/
def SendExit.ofVerdict (t : Txn) (ar : AdmitResult) : SendExit :=
  if ar = .ok then .sent (toHex (txid t).toList) else .rejected (errorToken ar).toList

omit [Crypto] [Signer] in
theorem printed_eq {s : Text} (h : '\x00' ∉ s) : printed s = s :=
  List.takeWhile_eq_self_iff.mpr fun _ hc => decide_eq_true fun heq => h (heq ▸ hc)

omit [Signer] in
/-- The posted transaction is reported by its verdict. -/
theorem postTxn_eq (up down : Wire) (goesOn : RpcContext → RpcContext) {host : Text} (port : Int32)
    (hhost : OneWord host) (hsize : host.length ≤ 1000000) {t : Txn} (hver : t.ver = kTxnVersion)
    (ctx : RpcContext) :
    postTxn (nodeNetwork up down goesOn) host port t ctx =
      some (.ofVerdict t (ctx.mempool.verdict ctx.account t),
        goesOn { ctx with mempool := (ctx.mempool.admitTxn ctx.account t).2 }) := by
  rw [postTxn, nodeNetwork, exchange_submit up down hhost hsize hver, Option.map_some,
    Option.map_some]
  dsimp only
  rw [if_neg (not_not.mpr rfl), SendExit.ofVerdict, submitAnswer]
  by_cases hok : ctx.mempool.verdict ctx.account t = .ok
  · have hstatus : (200 : Int32) / 100 = 2 := by decide
    rw [if_pos hok, if_pos hok, if_pos hstatus, jsonGetString_txidBody, Option.map_some,
      printed_eq (not_mem_toHex (by decide) _)]
    rfl
  · have hstatus : ∀ ar : AdmitResult, ar ≠ .ok → admitStatus ar / 100 ≠ 2 := by
      intro ar
      cases ar <;> decide
    have htoken : ∀ ar : AdmitResult, '\x00' ∉ (errorToken ar).toList := by
      intro ar
      cases ar <;> decide
    have hdetail : Bare "rejected by admit()".toList := by simp [Bare]
    rw [if_neg hok, if_neg hok, if_neg (hstatus _ hok),
      jsonGetString_jsonError (bare_errorToken _) hdetail, Option.map_some, printed_eq (htoken _)]
    rfl

/-- A wallet file that was written whole. -/
theorem walletLoad_whole {seed : Seed32} {files : KeyFiles} {path : String}
    (hfile : files path = some ⟨walletJson (.ofSeed seed), 0o600⟩) :
    walletLoad files path true = { ok := true, wallet := .ofSeed seed } := by
  rw [← List.take_length (l := walletJson (.ofSeed seed))] at hfile
  rw [walletLoad_take hfile, if_pos (Nat.le_succ _)]

/-- Sending through a node that serves others between its requests: the transfer carries the
nonce that the account is shown, and the command reports what the node makes of it by then. -/
theorem send_through_node (up down : Wire) (goesOn : RpcContext → RpcContext) (argv : List String)
    {dest : Address} {host : Text} {port : Int32} {files : KeyFiles} {readable : Bool}
    {wl : WalletLoad} (fs : FileSystem) (clock : UInt64) (ctx : RpcContext)
    (hto : fromHex 20 (opt (argv.drop 2) "--to").toList = some dest)
    (hamount : opt (argv.drop 2) "--amount" ≠ "")
    (hnode : parseNode (opt (argv.drop 2) "--node").toList = some (host, port))
    (hhost : OneWord host) (hsize : host.length ≤ 1000000)
    (hload : walletLoad files (sendKeyPath (argv.drop 2) (sendDatadir (argv.drop 2))) readable = wl)
    (hok : wl.ok = true)
    (hlossless : LosslessLiteral (ctx.pendingNonce wl.wallet.address).toNat) :
    let t := signTxn wl.wallet.seed dest (Scan.strtoull (opt (argv.drop 2) "--amount").toList)
      (ctx.pendingNonce wl.wallet.address)
    let later := goesOn ctx
    runSend (nodeNetwork up down goesOn) argv files readable fs clock ctx =
      some (.ofVerdict t (later.mempool.verdict later.account t),
        goesOn { later with mempool := (later.mempool.admitTxn later.account t).2 }) := by
  intro t later
  have hgiven : ¬(opt (argv.drop 2) "--to" = "" ∨ opt (argv.drop 2) "--amount" = "") := by
    rintro (hempty | hempty)
    · rw [hempty] at hto
      cases hto
    · exact hamount hempty
  have hthrough : opt (argv.drop 2) "--node" ≠ "" := by
    intro hempty
    rw [hempty] at hnode
    cases hnode
  have hnonce := (jsonGetU64_accountBody_iff wl.wallet.address
    (ctx.account wl.wallet.address).balance
    (ctx.account wl.wallet.address).nonce (ctx.pendingNonce wl.wallet.address)).mpr hlossless
  rw [runSend]
  dsimp only
  rw [if_neg hgiven, hto]
  dsimp only
  rw [hload, if_neg (not_not.mpr hok), if_pos hthrough, hnode]
  dsimp only
  rw [sendThrough, nodeNetwork, exchange_account up down hhost hsize, Option.map_some]
  dsimp only
  rw [if_neg (by simp), hnonce]
  dsimp only
  exact postTxn_eq up down goesOn port hhost hsize rfl later

end Through

section Samples

attribute [local instance] walletKeys walletSigner picojson

/-- A connection that hands everything over at once. -/
def wholeWire : Wire where
  pieces := fun text => if text = [] then [] else [text]
  whole := fun text => by split_ifs with h <;> simp [h]
  nonempty := fun text => by split_ifs with h <;> simp [h]

def payArgs : List String :=
  ["txchain", "send", "--amount", "100", "--node", "h:80", "--to",
    String.ofList (toHex oliver.toList)]

/-- The demo account's wallet in the default datadir. -/
def payFiles : KeyFiles :=
  KeyFiles.write (fun _ => none) "./txchain-data/wallet.key"
    ⟨walletJson (.ofSeed rachealSeed), 0o600⟩

theorem payOliver_through_node :
    runSend (nodeNetwork wholeWire wholeWire id) payArgs payFiles true (fun _ => none) 0 emptyCtx =
      some (.ofVerdict payOliver (emptyCtx.mempool.verdict emptyCtx.account payOliver),
        { emptyCtx with mempool := (emptyCtx.mempool.admitTxn emptyCtx.account payOliver).2 }) := by
  have hto : opt (payArgs.drop 2) "--to" = String.ofList (toHex oliver.toList) := by
    simp [opt, payArgs]
  have hamount : opt (payArgs.drop 2) "--amount" = "100" := by simp [opt, payArgs]
  have hnode : opt (payArgs.drop 2) "--node" = "h:80" := by simp [opt, payArgs]
  have hpath : sendKeyPath (payArgs.drop 2) (sendDatadir (payArgs.drop 2)) =
      "./txchain-data/wallet.key" := by
    simp [sendKeyPath, sendDatadir, opt, payArgs, walletPathForDatadir]
  have hdest : fromHex 20 (opt (payArgs.drop 2) "--to").toList = some oliver := by
    rw [hto, String.toList_ofList, fromHex_toHex]
  have haddress : parseNode (opt (payArgs.drop 2) "--node").toList = some (['h'], 80) := by
    rw [hnode]
    decide +kernel
  have hnonempty : opt (payArgs.drop 2) "--amount" ≠ "" := by
    rw [hamount]
    decide
  have hfree : ∀ a, emptyCtx.pendingNonce a = 0 := fun a => by
    rw [RpcContext.pendingNonce, hasPending_eq_false.mpr (by simp [emptyCtx])]
    rfl
  have hload :
      walletLoad payFiles (sendKeyPath (payArgs.drop 2) (sendDatadir (payArgs.drop 2))) true =
        { ok := true, wallet := .ofSeed rachealSeed } := by
    rw [hpath]
    exact walletLoad_whole (KeyFiles.write_self _ _ _)
  have hlossless : LosslessLiteral
      (emptyCtx.pendingNonce (Wallet.ofSeed rachealSeed).address).toNat := by
    rw [hfree]
    exact .inl (by decide)
  have hsent := send_through_node wholeWire wholeWire id payArgs (fun _ => none) 0 emptyCtx
    hdest hnonempty haddress (by simp [OneWord]) (by simp) hload rfl hlossless
  have hsigned : signTxn (Wallet.ofSeed rachealSeed).seed oliver
      (Scan.strtoull (opt (payArgs.drop 2) "--amount").toList)
        (emptyCtx.pendingNonce (Wallet.ofSeed rachealSeed).address) = payOliver := by
    rw [hamount, hfree]
    exact signTxn_rachealSeed
  dsimp only at hsent
  rw [hsigned] at hsent
  exact hsent

end Samples

end TxChain
