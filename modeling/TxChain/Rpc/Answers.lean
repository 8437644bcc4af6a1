import TxChain.Json.ChainLine
import TxChain.Rpc.Http
import TxChain.Rpc.Submission

/-!
# The answers as documents

The bodies are put together from texts. Each is the text of an object with different keys,
whatever the request was, so the parser that the clients are linked with reads its fields
back. The client does not compare the length of a body with the announced one; it need not,
since a body that is cut off is no object.
-/

namespace TxChain

open Json Search

/-! ### Reading a field -/

section Read

variable [Picojson]

def jsonGetString (json : Text) (key : String) : Option Text :=
  match Picojson.parse json with
  | some (.object o) =>
      match o.lookup key with
      | some (.string s) => some s
      | _ => none
  | _ => none

def jsonGetU64 (json : Text) (key : String) : Option UInt64 :=
  match Picojson.parse json with
  | some (.object o) =>
      match o.lookup key with
      | some (.int64 x) => if 0 ≤ x then some (UInt64.ofNat x.toNat) else none
      | some (.double d) => if 0 ≤ d then some (UInt64.ofNat ⌊d⌋₊) else none
      | _ => none
  | _ => none

variable {json : Text} {o : Fields}

theorem jsonGetString_object (h : Picojson.parse json = some (.object o)) {key : String} {s : Text}
    (hkey : o.lookup key = some (.string s)) : jsonGetString json key = some s := by
  rw [jsonGetString, h]
  dsimp only
  rw [hkey]

/-- The chain file's reader of numbers and this one agree. -/
theorem jsonGetU64_object (h : Picojson.parse json = some (.object o)) (key : String) :
    jsonGetU64 json key = getU64 o key := by
  rw [jsonGetU64, h, getU64]
  dsimp only
  cases o.lookup key with
  | none => rfl
  | some v =>
      cases v with
      | int64 x =>
          dsimp only
          by_cases hx : x < 0
          · rw [if_pos hx, if_neg (not_le.mpr hx)]
          · rw [if_neg hx, if_pos (not_lt.mp hx)]
      | double d =>
          dsimp only
          by_cases hd : d < 0
          · rw [if_pos hd, if_neg (not_le.mpr hd)]
          · rw [if_neg hd, if_pos (not_lt.mp hd)]
      | _ => rfl

theorem jsonGet_refused (h : Picojson.parse json = none) (key : String) :
    jsonGetString json key = none ∧ jsonGetU64 json key = none := by
  rw [jsonGetString, jsonGetU64, h]
  exact ⟨rfl, rfl⟩

end Read

/-! ### The documents -/

def txidWritten (id : Digest32) : WrittenFields := [("txid", .string (toHex id.toList))]

def errorWritten (token detail : String) : WrittenFields :=
  [("error", .string token.toList), ("detail", .string detail.toList)]

def accountWritten (a : Address) (balance confirmed pending : UInt64) : WrittenFields :=
  [("address", .string (toHex a.toList)), ("balance", .number (.ofNat balance.toNat)),
   ("confirmedNonce", .number (.ofNat confirmed.toNat)),
   ("pendingNonce", .number (.ofNat pending.toNat))]

def tipWritten (t : TipInfo) : WrittenFields :=
  [("index", .number (.ofNat t.index.toNat)), ("blockHash", .string (toHex t.blockHash.toList)),
   ("prevHash", .string (toHex t.prevHash.toList)), ("cumWork", .string (u128ToString t.cumWork)),
   ("difficulty", .number (.ofNat t.difficulty.toNat)),
   ("timestamp", .number (.ofNat t.timestamp.toNat))]

theorem txidBody_eq (id : Digest32) : txidBody id = (Written.object (txidWritten id)).render := by
  rw [txidWritten, Written.render_object]
  simp only [List.map_cons, List.map_nil, fieldText, memberText, Written.render]
  unfold txidBody
  simp only [String.reduceToList, List.cons_append, List.nil_append, List.intercalate_singleton,
    List.append_assoc]

theorem jsonError_eq (token detail : String) :
    jsonError token detail = (Written.object (errorWritten token detail)).render := by
  rw [errorWritten, Written.render_object]
  simp only [List.map_cons, List.map_nil, fieldText, memberText, Written.render]
  unfold jsonError
  simp only [String.reduceToList, List.cons_append, List.nil_append, List.append_assoc,
    List.intercalate_cons_cons, List.intercalate_singleton]

theorem accountBody_eq (a : Address) (balance confirmed pending : UInt64) :
    accountBody a balance confirmed pending =
      (Written.object (accountWritten a balance confirmed pending)).render := by
  rw [accountWritten, Written.render_object]
  simp only [List.map_cons, List.map_nil, fieldText, memberText, Written.render,
    NumberLiteral.text_ofNat]
  unfold accountBody
  simp only [String.reduceToList, List.cons_append, List.nil_append, List.append_assoc,
    List.intercalate_cons_cons, List.intercalate_singleton]

theorem tipResp_eq (ctx : RpcContext) :
    tipResp ctx = ⟨200, (Written.object (tipWritten ctx.tip)).render⟩ := by
  rw [tipWritten, Written.render_object]
  simp only [List.map_cons, List.map_nil, fieldText, memberText, Written.render,
    NumberLiteral.text_ofNat]
  unfold tipResp
  simp only [String.reduceToList, List.cons_append, List.nil_append, List.append_assoc,
    List.intercalate_cons_cons, List.intercalate_singleton]

/-! ### Keys, numbers and strings -/

theorem txidWritten_within (id : Digest32) :
    Written.Within NumberLiteral.Short defaultMaxDepths (.object (txidWritten id)) := by
  have hkeys : KeysFit ["txid"] := by simp [KeysFit, Bare]
  refine .object hkeys fun f hf => ?_
  rw [List.mem_singleton.mp hf]
  exact hex_within _

theorem errorWritten_within {token detail : String} (htoken : Bare token.toList)
    (hdetail : Bare detail.toList) :
    Written.Within NumberLiteral.Short defaultMaxDepths (.object (errorWritten token detail)) := by
  have hkeys : KeysFit ["error", "detail"] := by simp [KeysFit, Bare]
  refine .object hkeys ?_
  simp only [errorWritten, List.forall_mem_cons]
  exact ⟨.string htoken, .string hdetail, by simp⟩

theorem accountWritten_within (a : Address) (balance confirmed pending : UInt64) :
    Written.Within NumberLiteral.Short defaultMaxDepths
      (.object (accountWritten a balance confirmed pending)) := by
  have hkeys : KeysFit ["address", "balance", "confirmedNonce", "pendingNonce"] := by
    simp [KeysFit, Bare]
  refine .object hkeys ?_
  simp only [accountWritten, List.forall_mem_cons]
  exact ⟨hex_within _, word_within _, word_within _, word_within _, by simp⟩

theorem bare_decimal (n : ℕ) : Bare (decimal n) := by
  intro c hc
  have hdigit := Numeral.isDigit_toDigits hc
  simp only [Char.isDigit, Bool.and_eq_true, decide_eq_true_eq] at hdigit
  refine ⟨fun hlow => ?_, ?_, ?_⟩
  · exact absurd (UInt32.lt_of_le_of_lt hdigit.1 hlow) (by decide)
  · rintro rfl
    exact absurd hdigit.1 (by decide)
  · rintro rfl
    exact absurd hdigit.2 (by decide)

theorem tipWritten_within (t : TipInfo) :
    Written.Within NumberLiteral.Short defaultMaxDepths (.object (tipWritten t)) := by
  have hkeys : KeysFit
      ["index", "blockHash", "prevHash", "cumWork", "difficulty", "timestamp"] := by
    simp [KeysFit, Bare]
  have hdifficulty : t.difficulty.toNat < 2 ^ 64 := t.difficulty.toNat_lt.trans (by norm_num)
  refine .object hkeys ?_
  simp only [tipWritten, List.forall_mem_cons]
  exact ⟨word_within _, hex_within _, hex_within _, .string (bare_decimal _),
    number_within hdifficulty, word_within _, by simp⟩

theorem bare_errorToken (ar : AdmitResult) : Bare (errorToken ar).toList := by
  cases ar <;> simp [errorToken, admitResultName, Bare]

/-! ### Every answer -/

section Handler

variable [Crypto]

/-- The body is the text of these fields, and the answer reports an error exactly if one of
them is called so. -/
structure RpcResponse.Spells (resp : RpcResponse) (fields : WrittenFields) : Prop where
  body : resp.body = (Written.object fields).render
  within : Written.Within NumberLiteral.Short defaultMaxDepths (.object fields)
  error : "error" ∈ fields.map Prod.fst ↔ resp.status ≠ 200

omit [Crypto] in
theorem spells_error {status : Int32} {token detail : String} (hstatus : status ≠ 200)
    (htoken : Bare token.toList) (hdetail : Bare detail.toList) :
    RpcResponse.Spells ⟨status, jsonError token detail⟩ (errorWritten token detail) :=
  ⟨jsonError_eq token detail, errorWritten_within htoken hdetail, by simp [errorWritten, hstatus]⟩

omit [Crypto] in
theorem spells_txid (id : Digest32) : RpcResponse.Spells ⟨200, txidBody id⟩ (txidWritten id) :=
  ⟨txidBody_eq id, txidWritten_within id, by simp [txidWritten]⟩

omit [Crypto] in
theorem admitStatus_ne {ar : AdmitResult} (h : ar ≠ .ok) : admitStatus ar ≠ 200 := by
  cases ar <;> simp [admitStatus] at h ⊢

theorem submitTx_spells (body : Text) (ctx : RpcContext) :
    ∃ fields, (submitTx body ctx).1.Spells fields := by
  rw [submitTx]
  split
  next => exact ⟨_, spells_error (by decide) (by simp [Bare]) (by simp [Bare])⟩
  next bytes _ =>
    dsimp only
    split
    next => exact ⟨_, spells_txid _⟩
    next hrefused =>
      exact ⟨_, spells_error (admitStatus_ne hrefused) (bare_errorToken _) (by simp [Bare])⟩

omit [Crypto] in
theorem accountResp_spells (addrHex : Text) (ctx : RpcContext) :
    ∃ fields, (accountResp addrHex ctx).Spells fields := by
  rw [accountResp]
  split
  next => exact ⟨_, spells_error (by decide) (by simp [Bare]) (by simp [Bare])⟩
  next a _ =>
    exact ⟨_, accountBody_eq _ _ _ _, accountWritten_within _ _ _ _, by simp [accountWritten]⟩

omit [Crypto] in
theorem tipResp_spells (ctx : RpcContext) : (tipResp ctx).Spells (tipWritten ctx.tip) := by
  rw [tipResp_eq]
  exact ⟨rfl, tipWritten_within _, by simp [tipWritten]⟩

/-- Whatever is asked, the answer is an object. -/
theorem handleRequest_spells (method target body : Text) (ctx : RpcContext) :
    ∃ fields, (handleRequest method target body ctx).1.Spells fields := by
  simp only [handleRequest]
  split
  next => exact submitTx_spells body ctx
  next =>
    split
    next => exact ⟨_, tipResp_spells ctx⟩
    next =>
      split
      next => exact accountResp_spells _ ctx
      next => exact ⟨_, spells_error (by decide) (by simp [Bare]) (by simp [Bare])⟩

omit [Crypto] in
theorem admitStatus_nonneg (ar : AdmitResult) : 0 ≤ admitStatus ar := by
  cases ar <;> decide

theorem handleRequest_status_nonneg (method target body : Text) (ctx : RpcContext) :
    0 ≤ (handleRequest method target body ctx).1.status := by
  have hok : (0 : Int32) ≤ 200 := by decide
  have hbad : (0 : Int32) ≤ 400 := by decide
  have hmissing : (0 : Int32) ≤ 404 := by decide
  simp only [handleRequest]
  split
  next =>
    rw [submitTx]
    split
    next => exact hbad
    next =>
      dsimp only
      split
      next => exact hok
      next => exact admitStatus_nonneg _
  next =>
    split
    next => exact hok
    next =>
      split
      next =>
        rw [accountResp]
        split
        next => exact hbad
        next => exact hok
      next => exact hmissing

end Handler

/-! ### What the clients read -/

section Fields

attribute [local instance] picojson

theorem parse_fields {fields : WrittenFields}
    (h : Written.Within NumberLiteral.Short defaultMaxDepths (.object fields)) :
    Picojson.parse (Written.object fields).render =
      some (.object (fields.map fun f => (f.1, f.2.toValue))) := by
  have hread := parse_render (h.mono fun _ hl => hl.readable) [] fun _ h => by cases h
  rw [List.append_nil] at hread
  rw [parse_picojson, hread, Written.toValue, fieldValues_eq]
  rfl

theorem jsonGetString_txidBody (id : Digest32) :
    jsonGetString (txidBody id) "txid" = some (toHex id.toList) := by
  have hparse := parse_fields (txidWritten_within id)
  rw [← txidBody_eq] at hparse
  refine jsonGetString_object hparse ?_
  simp only [txidWritten, List.map_cons, List.map_nil, Written.toValue]
  rfl

theorem jsonGetString_jsonError {token detail : String} (htoken : Bare token.toList)
    (hdetail : Bare detail.toList) :
    jsonGetString (jsonError token detail) "error" = some token.toList := by
  have hparse := parse_fields (errorWritten_within htoken hdetail)
  rw [← jsonError_eq] at hparse
  refine jsonGetString_object hparse ?_
  simp only [errorWritten, List.map_cons, List.map_nil, Written.toValue]
  rfl

/-- The advertised nonce arrives exactly if its literal is lossless. -/
theorem jsonGetU64_accountBody_iff (a : Address) (balance confirmed pending : UInt64) :
    jsonGetU64 (accountBody a balance confirmed pending) "pendingNonce" = some pending ↔
      LosslessLiteral pending.toNat := by
  have hparse := parse_fields (accountWritten_within a balance confirmed pending)
  rw [← accountBody_eq] at hparse
  have hkey : ((accountWritten a balance confirmed pending).map fun f => (f.1, f.2.toValue)).lookup
      "pendingNonce" = some (NumberLiteral.ofNat pending.toNat).toValue := by
    simp only [accountWritten, List.map_cons, List.map_nil, Written.toValue]
    rfl
  rw [jsonGetU64_object hparse, getU64_eq, hkey, Option.bind_some]
  exact readNumber_eq_iff (readsLiteral_toValue pending.toNat_lt)

end Fields

/-! ### Answers that are cut off -/

section Truncated

variable {resp : RpcResponse} {got : Text}

/-- A client that gets a response from its beginning on, but not to its end, gets a body that
is not all there. -/
theorem parseResponse_prefix (hstatus : 0 ≤ resp.status) (hbody : resp.body ≠ [])
    (hgot : got <+: responseText resp) :
    parseResponse got = ⟨true, resp.status, resp.body⟩ ∨
      (parseResponse got).body <+: resp.body ∧ (parseResponse got).body ≠ resp.body := by
  obtain ⟨header, hheader, hbodyOf⟩ :
      ∃ header, responseText resp = header ++ (blankLine ++ resp.body) ∧
      ∀ body, find blankLine (header ++ (blankLine ++ body)) = some header.length := by
    refine ⟨_, responseText_eq resp, find_headerText ?_ ?_⟩
    · have hnumber := not_mem_intToString resp.status.toInt
      have hphrase := not_mem_reasonPhrase resp.status
      simp [hnumber, hphrase]
    · have hlength := not_mem_decimal (c := '\r') rfl resp.body.length
      simp [hlength]
  have hempty : ∀ {r : HttpResult}, r.body = [] → r.body <+: resp.body ∧ r.body ≠ resp.body :=
    fun h => ⟨h ▸ List.nil_prefix, fun heq => hbody (heq.symm.trans h)⟩
  have hresult : (parseResponse got).body = [] ∨ (parseResponse got).body = bodyOf got := by
    rw [parseResponse]
    split
    next => exact .inl rfl
    next => exact .inr rfl
  by_cases hlong : header.length + 4 ≤ got.length
  · have hwhole : header ++ blankLine <+: responseText resp := by
      rw [hheader, ← List.append_assoc]
      exact List.prefix_append _ _
    have hfront : header ++ blankLine <+: got := by
      refine List.prefix_of_prefix_length_le hwhole hgot ?_
      rw [List.length_append]
      exact hlong
    obtain ⟨part, rfl⟩ := hfront
    rw [hheader, ← List.append_assoc, List.prefix_append_right_inj] at hgot
    have hpart : bodyOf (header ++ blankLine ++ part) = part := by
      rw [List.append_assoc, bodyOf, hbodyOf, ← List.append_assoc]
      exact List.drop_left' (List.length_append ..)
    by_cases hwhole : part = resp.body
    · left
      rw [hwhole, List.append_assoc, ← hheader]
      exact parseResponse_responseText resp hstatus
    · right
      obtain hnone | hsome := hresult
      · exact hempty hnone
      · rw [hsome, hpart]
        exact ⟨hgot, hwhole⟩
  · right
    have hnone : find blankLine got = none := by
      cases hfind : find blankLine got with
      | none => rfl
      | some i =>
          obtain ⟨rest, hrest⟩ := hgot
          have hwhole := find_append hfind rest
          rw [hrest, hheader, hbodyOf] at hwhole
          obtain rfl := Option.some.inj hwhole
          exact absurd (add_length_le hfind) hlong
    refine hempty ?_
    obtain hempty | hsome := hresult
    · exact hempty
    · rw [hsome, bodyOf, hnone]

attribute [local instance] picojson

/-- No field is read from the body of an answer that is cut off. -/
theorem RpcResponse.Spells.unread {fields : WrittenFields} (h : resp.Spells fields) {part : Text}
    (hpart : part <+: resp.body) (hne : part ≠ resp.body) (key : String) :
    jsonGetString part key = none ∧ jsonGetU64 part key = none := by
  refine jsonGet_refused ?_ key
  rw [parse_picojson]
  rw [h.body] at hpart hne
  obtain rfl | hpos := eq_or_ne part []
  · rfl
  · have htorn := parse_torn h.within apart_nil hpart hpos hne
    rw [List.append_nil] at htorn
    rw [htorn]
    rfl

variable [Crypto]

/-- However much of a response reaches a client, it gets the answer or reads no field at all. -/
theorem truncated_answer_unread (method target body : Text) (ctx : RpcContext) (got : Text)
    (hgot : got <+: responseText (handleRequest method target body ctx).1) (key : String) :
    parseResponse got =
        ⟨true, (handleRequest method target body ctx).1.status,
          (handleRequest method target body ctx).1.body⟩ ∨
      jsonGetString (parseResponse got).body key = none ∧
        jsonGetU64 (parseResponse got).body key = none := by
  obtain ⟨fields, hspells⟩ := handleRequest_spells method target body ctx
  have hbody : (handleRequest method target body ctx).1.body ≠ [] := by
    rw [hspells.body, Written.render_object]
    exact List.cons_ne_nil _ _
  obtain hwhole | ⟨hpart, hne⟩ :=
    parseResponse_prefix (handleRequest_status_nonneg method target body ctx) hbody hgot
  · exact .inl hwhole
  · exact .inr (hspells.unread hpart hne key)

end Truncated

section Samples

attribute [local instance] sampleKeys picojson

/-- The answer about an account of 1000, cut behind the second digit of its balance. -/
def cutAnswer : Text :=
  (responseText (handleRequest "GET".toList ("/account/".toList ++ toHex racheal.toList) []
    emptyCtx).1).take 157

/-- The body that arrives ends in a balance of 10, which is not read. -/
theorem cut_balance_unread :
    (parseResponse cutAnswer).body =
        "\x7b\"address\":\"".toList ++ toHex racheal.toList ++ "\",\"balance\":10".toList ∧
      jsonGetU64 (parseResponse cutAnswer).body "balance" = none := by
  have hbody : (parseResponse cutAnswer).body =
      "\x7b\"address\":\"".toList ++ toHex racheal.toList ++ "\",\"balance\":10".toList := by
    decide +kernel
  refine ⟨hbody, ?_⟩
  obtain hwhole | ⟨-, hnone⟩ := truncated_answer_unread "GET".toList
    ("/account/".toList ++ toHex racheal.toList) [] emptyCtx cutAnswer (List.take_prefix 157 _)
    "balance"
  · -- the whole body is longer
    rw [hwhole] at hbody
    exact absurd (congrArg List.length hbody) (by decide +kernel)
  · exact hnone

end Samples

end TxChain
