import TxChain.V1.Ledger

/-!
# Balances

The main server folds the returned rows into a balance with wrapping additions. The fold
follows the plaintext balance modulo the word, so it is the balance whenever that fits, and
rows that a query leaves out do not name the user.
-/

namespace TxChain.V1

open Scan Numeral Transfers

/-- The user is sender or receiver of a row. -/
def Knows (rows : List Row) (user : Text) : Prop := Occurs (rows.map Row.transfer) user

instance (rows : List Row) (user : Text) : Decidable (Knows rows user) :=
  inferInstanceAs (Decidable (Occurs _ _))

variable {r : Row} {rows rows' : List Row} {part : Server → List Row} {net : Network}
  {user : Text}

theorem knows_iff : Knows rows user ↔ ∃ r ∈ rows, r.transfer.Names user := by
  simp [Knows, Occurs]

theorem knows_perm (h : rows.Perm rows') : Knows rows user ↔ Knows rows' user :=
  occurs_perm (h.map _) user

theorem balance_perm (h : rows.Perm rows') : balance rows user = balance rows' user :=
  holding_perm (h.map _) _ user

/-- A party of a row is a name. -/
theorem Knows.name (h : Knows rows user) : ∃ a : Name, a.text = user := by
  obtain ⟨r, -, hs | hr⟩ := knows_iff.mp h
  · exact ⟨r.sender, hs⟩
  · exact ⟨r.receiver, hr⟩

/-! ### The loop over the returned rows -/

theorem settle_ofInt (user : Text) (b : ℤ) (t : Txn) :
    settle user (Int64.ofInt b) t =
      Int64.ofInt (b + t.transfer.received user - t.transfer.sent user) := by
  by_cases hr : t.receiver = user
  · by_cases hs : t.sender = user
    · simp [settle, Transfer.received, Transfer.sent, Txn.transfer, hr, hs]
    · simp [settle, Transfer.received, Transfer.sent, Txn.transfer, hr, hs]
  · by_cases hs : t.sender = user
    · simp [settle, Transfer.received, Transfer.sent, Txn.transfer, hr, hs, Int64.ofInt_sub]
    · simp [settle, Transfer.received, Transfer.sent, Txn.transfer, hr, hs]

theorem foldl_settle (user : Text) (ts : List Txn) (b : ℤ) :
    ts.foldl (settle user) (Int64.ofInt b) =
      Int64.ofInt (holding b (ts.map Txn.transfer) user) := by
  induction ts generalizing b with
  | nil => rw [List.foldl_nil, List.map_nil, holding_nil]
  | cons t ts ih => rw [List.foldl_cons, settle_ofInt, ih, List.map_cons, holding_shift]

theorem map_transfer_txn (rows : List Row) :
    (rows.map Row.txn).map Txn.transfer = rows.map Row.transfer := by
  rw [List.map_map]
  exact List.map_congr_left fun r _ => r.transfer_txn

/-- The rows that name the user determine what the loop computes. -/
theorem foldl_settle_filter {p : Row → Bool} (h : ∀ r ∈ rows, r.transfer.Names user → p r = true) :
    ((rows.filter p).map Row.txn).foldl (settle user) INITIAL_BALANCE =
      Int64.ofInt (balance rows user) := by
  have hstart : INITIAL_BALANCE = Int64.ofInt INITIAL_BALANCE.toInt := (Int64.ofInt_toInt _).symm
  rw [hstart, foldl_settle, map_transfer_txn, holding_filter h]
  rfl

theorem found_map_txn (rows : List Row) (user : Text) :
    found (rows.map Row.txn) user = true ↔ Knows rows user := by
  simp only [found, List.any_map, List.any_eq_true, Function.comp, Bool.or_eq_true,
    decide_eq_true_eq, knows_iff]
  rfl

/-! ### Requests -/

theorem isWord_CHECK_WALLET : IsWord CHECK_WALLET := ⟨by decide, by simp [CHECK_WALLET, isSpace]⟩

theorem parseRequest_checkWallet (user : Name) :
    parseRequest (CHECK_WALLET ++ ' ' :: user.text) = .checkWallet user.text := by
  rw [parseRequest, readWord_cstr isWord_CHECK_WALLET (by decide), cstr_eq_self user.plain]
  dsimp only
  rw [if_pos rfl, user.word.next_last]

/-- The second name of a query for one user. -/
def star : Name := ⟨['*'], ⟨by decide, by simp [isSpace]⟩, by decide⟩

theorem visible_star (a : Text) (r : Row) : visible a ['*'] r = true ↔ r.transfer.Names a := by
  simp [visible]

/-- The reply to a balance enquiry; the network stays as it is. -/
theorem doCheckWallet_rows (hstores : net.Stores part) (user : Name) :
    doCheckWallet user.text net =
      (net, if Knows (rowsOf part) user.text then
        FOUND ++ ' ' :: print (Int64.ofInt (balance (rowsOf part) user.text)).toInt
      else NOTFOUND) := by
  have hquery := queryAll_names hstores user star
  have hstar : encStr star.text = ['*'] := by decide
  rw [hstar] at hquery
  have hempty : ((rowsOf part).filter (visible user.text star.text)).map Row.txn = [] ↔
      ¬Knows (rowsOf part) user.text := by
    rw [List.map_eq_nil_iff, List.filter_eq_nil_iff, knows_iff]
    simp [star, visible_star]
  have hnamed : ∀ r ∈ rowsOf part, r.transfer.Names user.text →
      visible user.text star.text r = true := fun r _ hnames => (visible_star _ r).mpr hnames
  rw [doCheckWallet, hquery]
  dsimp only
  rw [foldl_settle_filter hnamed]
  by_cases h : Knows (rowsOf part) user.text
  · rw [if_neg (fun hnil => hempty.mp hnil h), if_pos h]
  · rw [if_pos (hempty.mpr h), if_neg h]

theorem checkWallet_computes_plaintext_balance (hsplit : (rowsOf part).Perm rows)
    (hstores : net.Stores part) (user : Name) (hfits : Fits (balance rows user.text))
    (pick : Server) :
    (handleClient pick (CHECK_WALLET ++ ' ' :: user.text) net).2 =
      some (if Knows rows user.text then FOUND ++ ' ' :: print (balance rows user.text)
        else NOTFOUND) := by
  rw [handleClient, parseRequest_checkWallet]
  dsimp only
  rw [doCheckWallet_rows hstores, balance_perm hsplit, hfits.toInt]
  simp only [knows_perm hsplit]

section Samples

def ali : Name := ⟨['A', 'l', 'i'], ⟨by decide, by simp [isSpace]⟩, by decide⟩
def luke : Name := ⟨['L', 'u', 'k', 'e'], ⟨by decide, by simp [isSpace]⟩, by decide⟩

/-- Four transfers by serial, one of which Ali makes to himself. -/
def sampleRows : List Row :=
  [Row.written 1 ali luke 155, Row.written 2 luke ali 40, Row.written 3 ali ali 500,
    Row.written 4 ali luke 5]

/-- They lie on all three backends, in no order. -/
def samplePart : Server → List Row
  | .A => [Row.written 2 luke ali 40]
  | .B => [Row.written 4 ali luke 5, Row.written 1 ali luke 155]
  | .C => [Row.written 3 ali ali 500]

theorem samplePart_perm : (rowsOf samplePart).Perm sampleRows := by
  have hsorted : ∀ a b c d : Row, [b, d, a, c].Perm [a, b, c, d] := fun a b c d =>
    ((List.Perm.swap a d [c]).cons b).trans
      ((List.Perm.swap a b [d, c]).trans (((List.Perm.swap c d []).cons b).cons a))
  exact hsorted _ _ _ _

theorem balance_ali : balance sampleRows ali.text = 880 := by decide +kernel

end Samples

/-- Ali has sent 160 of 1000 coins and received 40; what he sent himself does not count. -/
theorem checkWallet_ali : (handleClient .A (CHECK_WALLET ++ ' ' :: ali.text)
    (Network.ofRows samplePart)).2 = some (FOUND ++ ' ' :: print 880) := by
  have hfits : Fits (balance sampleRows ali.text) := by
    rw [balance_ali]
    decide
  have hreply := checkWallet_computes_plaintext_balance samplePart_perm (stores_ofRows _) ali
    hfits .A
  rwa [if_pos (by decide +kernel), balance_ali] at hreply

end TxChain.V1
