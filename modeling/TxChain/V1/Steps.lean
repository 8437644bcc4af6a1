import TxChain.V1.Coins
import TxChain.V1.Statement

/-!
# One connection

Whatever a connection asks for, it either records one transfer or leaves the backends as they
are. The rows of a network are read off its memory by decryption.
-/

namespace TxChain.V1

open Scan Numeral Transfers

/-- The decrypted rows of all backends. -/
def Network.ledger (net : Network) : List Txn :=
  ((net.backend .A).txns ++ (net.backend .B).txns ++ (net.backend .C).txns).filterMap readTxn

def Network.transfers (net : Network) : List (Transfer Text) := net.ledger.map Txn.transfer

/-- The balance of a user according to the rows of all backends. -/
def Network.balance (net : Network) (user : Text) : ℤ :=
  holding INITIAL_BALANCE.toInt net.transfers user

/-- The transfer that a connection asks for. -/
def Input.transfer : Input → Option (Text × Text × Int64)
  | .client buf _ =>
      match parseRequest buf with
      | .txcoins sender receiver amount => some (sender, receiver, amount)
      | .checkWallet _ => none
      | .unknown => none
  | .monitor _ => none

/-- The connection is told that its transfer is recorded. -/
def Succeeds (net : Network) (i : Input) : Prop :=
  ∃ reply, (serve net i).2 = some reply ∧ SUCCESS <+: reply

instance (net : Network) (i : Input) : Decidable (Succeeds net i) :=
  decidable_of_iff (((serve net i).2.any fun reply => SUCCESS <+: reply) = true)
    (by simp [Succeeds, Option.any_eq_true])

variable {part : Server → List Row} {net net' : Network} {i : Input}

theorem Network.Stores.ledger (h : net.Stores part) : net.ledger = (rowsOf part).map Row.txn := by
  rw [Network.ledger, h .A, h .B, h .C, ← List.map_append, ← List.map_append, List.filterMap_map,
    ← List.filterMap_eq_map, rowsOf]
  exact List.filterMap_congr fun r _ => r.readTxn_line

theorem Network.Stores.transfers (h : net.Stores part) :
    net.transfers = (rowsOf part).map Row.transfer := by
  rw [Network.transfers, h.ledger, map_transfer_txn]

theorem Network.Stores.balance (h : net.Stores part) (user : Text) :
    net.balance user = V1.balance (rowsOf part) user := by
  rw [Network.balance, h.transfers, V1.balance]

theorem ledger_of_backend (h : net'.backend = net.backend) : net'.ledger = net.ledger := by
  rw [Network.ledger, h, Network.ledger]

theorem transfers_of_backend (h : net'.backend = net.backend) : net'.transfers = net.transfers := by
  rw [Network.transfers, ledger_of_backend h, Network.transfers]

theorem doCheckWallet_backend (hstores : net.Stores part) (user : Text) :
    ∃ reply, doCheckWallet user net = (net, reply) ∧ ¬SUCCESS <+: reply := by
  obtain ⟨select, hquery⟩ := queryAll_any hstores (encStr user) ['*']
  rw [doCheckWallet, hquery]
  dsimp only
  split_ifs
  · exact ⟨_, rfl, by decide⟩
  · exact ⟨_, rfl, by simp [SUCCESS, FOUND]⟩

/-- Writing the statement leaves the backends alone. -/
theorem doTxlist_backend (hstores : net.Stores part) : (doTxlist net).1.backend = net.backend := by
  obtain ⟨text, hdone, -⟩ := doTxlist_isStatement hstores
  rw [hdone]

theorem not_succeeds {reply : Text} (hreply : (serve net i).2 = some reply)
    (hfails : ¬SUCCESS <+: reply) : ¬Succeeds net i := by
  rintro ⟨told, htold, hsuccess⟩
  rw [hreply] at htold
  obtain rfl := Option.some.inj htold
  exact hfails hsuccess

/-! ### Connections that record nothing -/

theorem serve_monitor_idle (hstores : net.Stores part) (buf : Text) :
    (serve net (.monitor buf)).1.backend = net.backend ∧ ¬Succeeds net (.monitor buf) := by
  by_cases hlist : TXLIST <+: cstr buf
  · have hserve : serve net (.monitor buf) = ((doTxlist net).1, some OK) := by
      rw [serve, handleMonitor, if_pos hlist]
      rfl
    refine ⟨?_, not_succeeds (congrArg Prod.snd hserve) (by decide)⟩
    rw [hserve]
    exact doTxlist_backend hstores
  · have hserve : serve net (.monitor buf) = (net, none) := by
      rw [serve, handleMonitor, if_neg hlist]
    refine ⟨by rw [hserve], ?_⟩
    rintro ⟨told, htold, -⟩
    rw [hserve] at htold
    cases htold

theorem serve_unknown_idle {buf : Text} (hrequest : parseRequest buf = .unknown) (pick : Server) :
    (serve net (.client buf pick)).1.backend = net.backend ∧ ¬Succeeds net (.client buf pick) := by
  have hserve : serve net (.client buf pick) = (net, none) := by
    rw [serve, handleClient, hrequest]
  refine ⟨by rw [hserve], ?_⟩
  rintro ⟨told, htold, -⟩
  rw [hserve] at htold
  cases htold

theorem serve_checkWallet_idle (hstores : net.Stores part) {buf user : Text}
    (hrequest : parseRequest buf = .checkWallet user) (pick : Server) :
    (serve net (.client buf pick)).1.backend = net.backend ∧ ¬Succeeds net (.client buf pick) := by
  obtain ⟨reply, hdone, hfails⟩ := doCheckWallet_backend hstores user
  have hserve : serve net (.client buf pick) = (net, some reply) := by
    rw [serve, handleClient, hrequest]
    dsimp only
    rw [hdone]
  exact ⟨by rw [hserve], not_succeeds (congrArg Prod.snd hserve) hfails⟩

/-- What one connection can do. -/
theorem serve_cases (hstores : net.Stores part) (i : Input) :
    (∃ pick a b amount left, i.transfer = some (Name.text a, Name.text b, amount) ∧
      Accepted (rowsOf part) a.text b.text amount ∧
      serve net i = (net.append pick (Row.written (nextSerial (rowsOf part)) a b amount),
        some (SUCCESS ++ ' ' :: left))) ∨
    ((∀ s r amount, i.transfer = some (s, r, amount) → ¬Accepted (rowsOf part) s r amount) ∧
      (serve net i).1.backend = net.backend ∧ ¬Succeeds net i) := by
  cases i with
  | monitor buf => exact .inr ⟨by simp [Input.transfer], serve_monitor_idle hstores buf⟩
  | client buf pick =>
      cases hrequest : parseRequest buf with
      | unknown =>
          exact .inr ⟨by simp [Input.transfer, hrequest], serve_unknown_idle hrequest pick⟩
      | checkWallet user =>
          exact .inr ⟨by simp [Input.transfer, hrequest],
            serve_checkWallet_idle hstores hrequest pick⟩
      | txcoins s r amount =>
          have htransfer : (Input.client buf pick).transfer = some (s, r, amount) := by
            rw [Input.transfer, hrequest]
          have hserve : serve net (.client buf pick) = ((doTxcoins pick s r amount net).1,
              some (doTxcoins pick s r amount net).2) := by
            rw [serve, handleClient, hrequest]
          rcases doTxcoins_cases hstores s r amount pick with
            ⟨a, b, rfl, rfl, haccepted, left, hdone⟩ | ⟨hrefused, reply, hdone, hfails⟩
          · rw [hdone] at hserve
            exact .inl ⟨pick, a, b, amount, left, htransfer, haccepted, hserve⟩
          · rw [hdone] at hserve
            refine .inr ⟨fun s' r' amount' hasked => ?_, by rw [hserve],
              not_succeeds (congrArg Prod.snd hserve) hfails⟩
            rw [htransfer] at hasked
            cases hasked
            exact hrefused

end TxChain.V1
