import TxChain.V1.Wallet

/-!
# Transfers

One query for both names gives the main server membership, balance and next serial. A query
for the reserved name `*` returns the rows of the sender only, so a receiver of that name is
found only in them.
-/

namespace TxChain.V1

open Scan Numeral Transfers

variable {rows rows' : List Row} {part : Server → List Row} {net : Network} {s r : Text}
  {amount : Int64} {pick : Server}

/-! ### Recording a row -/

def Backend.append (b : Backend) (row : Row) : Backend where
  txns := b.txns ++ [row.line]
  file := b.file ++ (row.line ++ ['\n'])

def Network.append (net : Network) (pick : Server) (row : Row) : Network :=
  { net with backend := Function.update net.backend pick ((net.backend pick).append row) }

def appendRow (part : Server → List Row) (pick : Server) (row : Row) : Server → List Row :=
  Function.update part pick (part pick ++ [row])

theorem Network.Stores.append (h : net.Stores part) (pick : Server) (row : Row) :
    (net.append pick row).Stores (appendRow part pick row) := by
  intro i
  by_cases hi : i = pick
  · subst hi
    simp [Network.append, appendRow, Backend.append, h i]
  · simp [Network.append, appendRow, Function.update_of_ne hi, h i]

theorem rowsOf_appendRow (part : Server → List Row) (pick : Server) (row : Row) :
    (rowsOf (appendRow part pick row)).Perm (rowsOf part ++ [row]) := by
  refine Multiset.coe_eq_coe.mp ?_
  simp only [rowsOf, ← Multiset.coe_add]
  cases pick with
  | A =>
      simp only [appendRow, Function.update_self, ne_eq, reduceCtorEq, not_false_eq_true,
        Function.update_of_ne, ← Multiset.coe_add]
      ac_rfl
  | B =>
      simp only [appendRow, Function.update_self, ne_eq, reduceCtorEq, not_false_eq_true,
        Function.update_of_ne, ← Multiset.coe_add]
      ac_rfl
  | C =>
      simp only [appendRow, Function.update_self, ne_eq, reduceCtorEq, not_false_eq_true,
        Function.update_of_ne, ← Multiset.coe_add]
      ac_rfl

theorem isWord_NEW : IsWord NEW := ⟨by decide, by simp [NEW, isSpace]⟩

theorem newEntry_eq (serial : Int64) (s r : Name) (amount : Int64) :
    newEntry serial (encStr s.text) (encStr r.text) amount =
      NEW ++ ' ' :: (Row.written serial s r amount).line := rfl

theorem rowLine_fields (serial : Int64) (s r : Name) (amount : Int64) :
    rowLine (Row.written serial s r amount).fields = (Row.written serial s r amount).line := by
  simp only [rowLine, Row.fields, Row.written, Row.line, Literal.value_ofInt, Int64.ofInt_toInt]
  rfl

theorem receive_newEntry (b : Backend) (serial : Int64) (s r : Name) (amount : Int64) :
    b.receive (newEntry serial (encStr s.text) (encStr r.text) amount) =
      (b.append (Row.written serial s r amount), OK) := by
  generalize hrow : Row.written serial s r amount = row
  have hline : '\n' ∉ ' ' :: row.line := by
    simp [row.newline_not_mem]
  have hread : readLine (' ' :: row.line) = some (' ' :: row.line, []) := by
    have hnil : ∀ c ∈ ([] : Text).head?, c = '\n' := by simp
    have hread := readLine_append hline (List.cons_ne_nil _ _) hnil
    rwa [List.append_nil] at hread
  have hcanonical : rowLine row.fields = row.line := hrow ▸ rowLine_fields serial s r amount
  rw [Backend.receive, newEntry_eq, hrow, readWord_cstr isWord_NEW (by decide),
    cstr_eq_self row.nul_not_mem]
  dsimp only
  rw [if_neg (by decide), if_neg (by decide), if_pos rfl, hread]
  simp [handleNew, hcanonical, Backend.append]

theorem udpRequest_newEntry (net : Network) (pick : Server) (serial : Int64) (s r : Name)
    (amount : Int64) :
    udpRequest pick (newEntry serial (encStr s.text) (encStr r.text) amount) net =
      (net.append pick (Row.written serial s r amount), OK) := by
  rw [udpRequest, receive_newEntry]
  rfl

/-! ### What a transfer finds -/

/-- The receiver appears in a row that the query returns. -/
def Reaches (rows : List Row) (s r : Text) : Prop := Knows (rows.filter (visible s r)) r

instance (rows : List Row) (s r : Text) : Decidable (Reaches rows s r) :=
  inferInstanceAs (Decidable (Knows _ _))

/-- The receiver has the reserved name and no row is shared with the sender. -/
def Hidden (rows : List Row) (s r : Text) : Prop :=
  r = ['*'] ∧ s ≠ ['*'] ∧ ∀ row ∈ rows, row.transfer.Names s → ¬row.transfer.Names r

instance (rows : List Row) (s r : Text) : Decidable (Hidden rows s r) :=
  inferInstanceAs (Decidable (_ ∧ _))

theorem knows_filter {p : Row → Bool} (h : Knows (rows.filter p) s) : Knows rows s := by
  obtain ⟨row, hrow, hnames⟩ := knows_iff.mp h
  exact knows_iff.mpr ⟨row, List.mem_of_mem_filter hrow, hnames⟩

theorem visible_of_sender {row : Row} (h : row.transfer.Names s) : visible s r row = true := by
  simp [visible, h]

theorem knows_visible (rows : List Row) (s r : Text) :
    Knows (rows.filter (visible s r)) s ↔ Knows rows s := by
  refine ⟨knows_filter, fun h => ?_⟩
  obtain ⟨row, hrow, hnames⟩ := knows_iff.mp h
  exact knows_iff.mpr ⟨row, List.mem_filter.mpr ⟨hrow, visible_of_sender hnames⟩, hnames⟩

theorem reaches_iff : Reaches rows s r ↔ Knows rows r ∧ ¬Hidden rows s r := by
  rw [Reaches, knows_iff, knows_iff]
  constructor
  · rintro ⟨row, hrow, hnames⟩
    obtain ⟨hmem, hvisible⟩ := List.mem_filter.mp hrow
    refine ⟨⟨row, hmem, hnames⟩, ?_⟩
    rintro ⟨hstar, -, hapart⟩
    have hsender : row.transfer.Names s := by simpa [visible, hstar] using hvisible
    exact hapart row hmem hsender hnames
  · rintro ⟨⟨row, hmem, hnames⟩, hhidden⟩
    by_cases hstar : r = ['*']
    · by_cases hs : s = ['*']
      · have hsender : row.transfer.Names s := by rwa [hs, ← hstar]
        exact ⟨row, List.mem_filter.mpr ⟨hmem, visible_of_sender hsender⟩, hnames⟩
      · have hshared : ∃ row ∈ rows, row.transfer.Names s ∧ row.transfer.Names r := by
          by_contra hnone
          exact hhidden ⟨hstar, hs, fun row hrow hrs hrr => hnone ⟨row, hrow, hrs, hrr⟩⟩
        obtain ⟨row, hrow, hsender, hreceiver⟩ := hshared
        exact ⟨row, List.mem_filter.mpr ⟨hrow, visible_of_sender hsender⟩, hreceiver⟩
    · exact ⟨row, List.mem_filter.mpr ⟨hmem, by simp [visible, hstar, hnames]⟩, hnames⟩

/-! ### The cases of a transfer -/

/-- The main server records the transfer. -/
def Accepted (rows : List Row) (s r : Text) (amount : Int64) : Prop :=
  Knows rows s ∧ Reaches rows s r ∧ amount ≤ Int64.ofInt (balance rows s)

def nextSerial (rows : List Row) : Int64 := topSerial (rows.map Row.txn) + 1

theorem doTxcoins_names (hstores : net.Stores part) (s r : Name) (amount : Int64) (pick : Server) :
    doTxcoins pick s.text r.text amount net =
      if ¬Knows (rowsOf part) s.text ∧ ¬Reaches (rowsOf part) s.text r.text then (net, MISSINGBOTH)
      else if ¬Knows (rowsOf part) s.text then (net, MISSINGSENDER)
      else if ¬Reaches (rowsOf part) s.text r.text then (net, MISSINGRECEIVER)
      else if Int64.ofInt (balance (rowsOf part) s.text) < amount then
        (net, INSUFFICIENT ++ ' ' :: print (Int64.ofInt (balance (rowsOf part) s.text)).toInt)
      else
        (net.append pick (Row.written (nextSerial (rowsOf part)) s r amount),
          SUCCESS ++ ' ' :: print (Int64.ofInt (balance (rowsOf part) s.text) - amount).toInt) := by
  have hsender := (found_map_txn ((rowsOf part).filter (visible s.text r.text)) s.text).trans
    (knows_visible _ _ _)
  have hreceiver := found_map_txn ((rowsOf part).filter (visible s.text r.text)) r.text
  have hnamed : ∀ row ∈ rowsOf part, row.transfer.Names s.text →
      visible s.text r.text row = true := fun row _ hnames => visible_of_sender hnames
  have hbalance := foldl_settle_filter hnamed
  rw [doTxcoins, queryAll_names hstores]
  dsimp only
  rw [hbalance, udpRequest_newEntry]
  simp only [Bool.and_eq_true, Bool.not_eq_true', ← Bool.not_eq_true, hsender, hreceiver, Reaches,
    nextSerial]
  split_ifs <;> simp_all

/-- A transfer is recorded, or refused without a change. -/
theorem doTxcoins_cases (hstores : net.Stores part) (s r : Text) (amount : Int64) (pick : Server) :
    (∃ a b : Name, a.text = s ∧ b.text = r ∧ Accepted (rowsOf part) s r amount ∧
      ∃ left, doTxcoins pick s r amount net =
        (net.append pick (Row.written (nextSerial (rowsOf part)) a b amount),
          SUCCESS ++ ' ' :: left)) ∨
    (¬Accepted (rowsOf part) s r amount ∧
      ∃ reply, doTxcoins pick s r amount net = (net, reply) ∧ ¬SUCCESS <+: reply) := by
  by_cases hknown : Knows (rowsOf part) s ∧ Knows (rowsOf part) r
  · obtain ⟨a, rfl⟩ := hknown.1.name
    obtain ⟨b, rfl⟩ := hknown.2.name
    rw [doTxcoins_names hstores]
    split_ifs with hboth hsender hreceiver hfunds
    · exact .inr ⟨fun h => hboth.1 h.1, _, rfl, by decide⟩
    · exact .inr ⟨fun h => Int64.not_le.mpr hfunds h.2.2, _, rfl, by simp [SUCCESS, INSUFFICIENT]⟩
    · exact .inl ⟨a, b, rfl, rfl, ⟨hsender, hreceiver, Int64.not_lt.mp hfunds⟩, _, rfl⟩
    · exact .inr ⟨fun h => hreceiver h.2.1, _, rfl, by decide⟩
    · exact .inr ⟨fun h => hsender h.1, _, rfl, by decide⟩
  · refine .inr ⟨fun h => hknown ⟨h.1, (reaches_iff.mp h.2.1).1⟩, ?_⟩
    obtain ⟨select, hquery⟩ := queryAll_any hstores (encStr s) (encStr r)
    -- Whatever the query selects, a party that occurs in no row is not found.
    have hfound : ∀ party,
        found (((rowsOf part).filter (select ·.fields)).map Row.txn) party = true →
        Knows (rowsOf part) party := fun party h => knows_filter ((found_map_txn _ _).mp h)
    rw [doTxcoins, hquery]
    dsimp only
    split_ifs with hboth hsender hreceiver hfunds
    · exact ⟨_, rfl, by decide⟩
    · exact ⟨_, rfl, by decide⟩
    · exact ⟨_, rfl, by decide⟩
    · exact ⟨_, rfl, by simp [SUCCESS, INSUFFICIENT]⟩
    · exact absurd ⟨hfound s (by simpa using hsender), hfound r (by simpa using hreceiver)⟩ hknown

/-! ### What a transfer reports -/

def txcoinsRequest (s r amt : Name) : Text :=
  TXCOINS ++ ' ' :: (s.text ++ ' ' :: (r.text ++ ' ' :: amt.text))

theorem isWord_TXCOINS : IsWord TXCOINS := ⟨by decide, by simp [TXCOINS, isSpace]⟩

theorem parseRequest_txcoins (s r amt : Name) :
    parseRequest (txcoinsRequest s r amt) = .txcoins s.text r.text (strtol amt.text) := by
  have hplain : '\x00' ∉ s.text ++ ' ' :: (r.text ++ ' ' :: amt.text) := by
    simp [s.plain, r.plain, amt.plain]
  rw [parseRequest, txcoinsRequest, readWord_cstr isWord_TXCOINS (by decide), cstr_eq_self hplain]
  dsimp only
  rw [if_neg (by decide), if_pos rfl, s.word.next (endsWord_space _),
    r.word.next (endsWord_space _), amt.word.next_last]

/-- The reply to a transfer according to the rows, and to the sender's balance enquiry after
it. -/
structure TrueOutcome (rows : List Row) (s r : Text) (amount : ℤ) (reply next : Option Text) :
    Prop where
  both : ¬Knows rows s → ¬Knows rows r → reply = some MISSINGBOTH
  sender : ¬Knows rows s → Knows rows r → reply = some MISSINGSENDER
  receiver : Knows rows s → ¬Knows rows r → reply = some MISSINGRECEIVER
  insufficient : Knows rows s → Knows rows r → balance rows s < amount →
    reply = some (INSUFFICIENT ++ ' ' :: print (balance rows s))
  success : Knows rows s → Knows rows r → amount ≤ balance rows s →
    ∃ n, reply = some (SUCCESS ++ ' ' :: print n) ∧ next = some (FOUND ++ ' ' :: print n)

/-- The balance enquiry that follows a recorded transfer. -/
theorem doCheckWallet_append (hstores : net.Stores part) (serial : Int64) (s r : Name)
    (amount : Int64) (pick : Server) (hknows : Knows (rowsOf part) s.text) :
    (doCheckWallet s.text (net.append pick (Row.written serial s r amount))).2 =
      FOUND ++ ' ' :: print (Int64.ofInt (balance (rowsOf part) s.text +
        ((if r.text = s.text then amount.toInt else 0) - amount.toInt))).toInt := by
  have hperm := rowsOf_appendRow part pick (Row.written serial s r amount)
  have hknows' : Knows (rowsOf (appendRow part pick (Row.written serial s r amount))) s.text := by
    obtain ⟨row, hrow, hnames⟩ := knows_iff.mp hknows
    exact (knows_perm hperm).mpr (knows_iff.mpr ⟨row, List.mem_append_left _ hrow, hnames⟩)
  rw [doCheckWallet_rows (hstores.append pick _)]
  dsimp only
  rw [if_pos hknows', balance_perm hperm, balance, List.map_append, List.map_singleton,
    holding_concat]
  simp [Transfer.received, Transfer.sent, Row.transfer, Row.written, balance]

theorem Hidden.ne (h : Hidden rows s r) : s ≠ r := by
  rintro rfl
  exact h.2.1 h.1

/-- Nobody reached: the reply is true unless the receiver is hidden. -/
theorem trueOutcome_unreached {a : ℤ} {next : Option Text} (hunreached : ¬Reaches rows s r) :
    TrueOutcome rows s r a (some (if Knows rows s then MISSINGRECEIVER else MISSINGBOTH)) next ↔
      ¬(Knows rows r ∧ Hidden rows s r) := by
  have hhidden : Knows rows r → Hidden rows s r := by
    intro hr
    by_contra hnot
    exact hunreached (reaches_iff.mpr ⟨hr, hnot⟩)
  constructor
  · rintro h ⟨hr, -⟩
    by_cases hs : Knows rows s
    · rw [if_pos hs] at h
      rcases le_or_gt a (balance rows s) with hle | hlt
      · obtain ⟨n, hn, -⟩ := h.success hs hr hle
        simp [MISSINGRECEIVER, SUCCESS] at hn
      · have hn := h.insufficient hs hr hlt
        simp [MISSINGRECEIVER, INSUFFICIENT] at hn
    · rw [if_neg hs] at h
      have hn := h.sender hs hr
      exact absurd hn (by decide)
  · intro h
    have hr : ¬Knows rows r := fun hr => h ⟨hr, hhidden hr⟩
    refine ⟨fun hs _ => ?_, fun _ hr' => absurd hr' hr, fun hs _ => ?_,
      fun _ hr' => absurd hr' hr, fun _ hr' => absurd hr' hr⟩
    · rw [if_neg hs]
    · rw [if_pos hs]

/-- A recorded transfer: the balance reported is the next one unless sender and receiver are
the same. -/
theorem trueOutcome_recorded {a : ℤ} (hs : Knows rows s) (hr : Knows rows r) (ha : 0 < a)
    (hle : a ≤ balance rows s) :
    TrueOutcome rows s r a (some (SUCCESS ++ ' ' :: print (balance rows s - a)))
        (some (FOUND ++ ' ' :: print (balance rows s + ((if r = s then a else 0) - a)))) ↔
      s ≠ r := by
  constructor
  · rintro h rfl
    obtain ⟨n, hn, hnext⟩ := h.success hs hr hle
    have hreported : balance rows s - a = n := by
      refine print_injective ?_
      simpa using hn
    have hread : balance rows s + ((if s = s then a else 0) - a) = n := by
      refine print_injective ?_
      simpa using hnext
    rw [if_pos rfl, sub_self, add_zero] at hread
    omega
  · intro hne
    refine ⟨fun h => absurd hs h, fun h => absurd hs h, fun _ h => absurd hr h,
      fun _ _ hlt => absurd hle (not_le.mpr hlt), fun _ _ _ => ⟨_, rfl, ?_⟩⟩
    rw [if_neg (Ne.symm hne), zero_sub, ← sub_eq_add_neg]

/-- The sender is missing or has too little: the reply is true. -/
theorem trueOutcome_no_sender {a : ℤ} {next : Option Text} (hs : ¬Knows rows s)
    (hr : Knows rows r) : TrueOutcome rows s r a (some MISSINGSENDER) next where
  both := fun _ h => absurd hr h
  sender := fun _ _ => rfl
  receiver := fun h => absurd h hs
  insufficient := fun h => absurd h hs
  success := fun h => absurd h hs

theorem trueOutcome_unfunded {a : ℤ} {next : Option Text} (hs : Knows rows s)
    (hr : Knows rows r) (hlt : balance rows s < a) :
    TrueOutcome rows s r a (some (INSUFFICIENT ++ ' ' :: print (balance rows s))) next where
  both := fun h => absurd hs h
  sender := fun h => absurd hs h
  receiver := fun _ h => absurd hr h
  insufficient := fun _ _ _ => rfl
  success := fun _ _ hle => absurd hlt (not_lt.mpr hle)

/-- A transfer that is recorded, and the balance enquiry after it. -/
theorem doTxcoins_recorded_iff (hstores : net.Stores part) (s r : Name)
    (hamount : 0 < amount.toInt) (hfits : Fits (balance (rowsOf part) s.text)) (pick : Server)
    (hs : Knows (rowsOf part) s.text) (hr : Knows (rowsOf part) r.text)
    (hle : amount.toInt ≤ balance (rowsOf part) s.text) :
    TrueOutcome (rowsOf part) s.text r.text amount.toInt
        (some (SUCCESS ++ ' ' ::
          print (Int64.ofInt (balance (rowsOf part) s.text) - amount).toInt))
        (some (doCheckWallet s.text (net.append pick
          (Row.written (nextSerial (rowsOf part)) s r amount))).2) ↔
      s.text ≠ r.text := by
  have hleft : Fits (balance (rowsOf part) s.text - amount.toInt) :=
    ⟨by omega, by have hhigh := hfits.2; omega⟩
  have hnext : Fits (balance (rowsOf part) s.text +
      ((if r.text = s.text then amount.toInt else 0) - amount.toInt)) := by
    split_ifs
    · rwa [sub_self, add_zero]
    · rwa [zero_sub, ← sub_eq_add_neg]
  have hreported : (Int64.ofInt (balance (rowsOf part) s.text) - amount).toInt =
      balance (rowsOf part) s.text - amount.toInt := by
    rw [← Int64.ofInt_toInt amount, ← Int64.ofInt_sub, Int64.ofInt_toInt, hleft.toInt]
  rw [doCheckWallet_append hstores _ _ _ _ _ hs, hnext.toInt, hreported]
  exact trueOutcome_recorded hs hr hamount hle

/-- The exact inputs on which a transfer reports what the rows say. -/
theorem doTxcoins_outcome_iff (hstores : net.Stores part) (s r : Name)
    (hamount : 0 < amount.toInt) (hfits : Fits (balance (rowsOf part) s.text)) (pick : Server) :
    TrueOutcome (rowsOf part) s.text r.text amount.toInt
        (some (doTxcoins pick s.text r.text amount net).2)
        (some (doCheckWallet s.text (doTxcoins pick s.text r.text amount net).1).2) ↔
      ¬(Knows (rowsOf part) r.text ∧ Hidden (rowsOf part) s.text r.text) ∧
        ¬(s.text = r.text ∧ Knows (rowsOf part) s.text ∧
          amount.toInt ≤ balance (rowsOf part) s.text) := by
  have hless : Int64.ofInt (balance (rowsOf part) s.text) < amount ↔
      balance (rowsOf part) s.text < amount.toInt := by
    rw [Int64.lt_iff_toInt_lt, hfits.toInt]
  rw [doTxcoins_names hstores]
  by_cases hr : Reaches (rowsOf part) s.text r.text
  · obtain ⟨hknows, hhidden⟩ := reaches_iff.mp hr
    have hseen : ¬(Knows (rowsOf part) r.text ∧ Hidden (rowsOf part) s.text r.text) :=
      fun h => hhidden h.2
    by_cases hs : Knows (rowsOf part) s.text
    · rw [if_neg (not_and_of_not_left _ (not_not.mpr hs)), if_neg (not_not.mpr hs),
        if_neg (not_not.mpr hr)]
      by_cases hfunds : Int64.ofInt (balance (rowsOf part) s.text) < amount
      · have hlt := hless.mp hfunds
        rw [if_pos hfunds, hfits.toInt]
        exact iff_of_true (trueOutcome_unfunded hs hknows hlt)
          ⟨hseen, fun h => absurd hlt (not_lt.mpr h.2.2)⟩
      · have hle := not_lt.mp (hless.not.mp hfunds)
        rw [if_neg hfunds]
        dsimp only
        rw [doTxcoins_recorded_iff hstores s r hamount hfits pick hs hknows hle]
        constructor
        · intro hne
          exact ⟨hseen, fun h => hne h.1⟩
        · rintro ⟨-, hother⟩ heq
          exact hother ⟨heq, hs, hle⟩
    · rw [if_neg (not_and_of_not_right _ (not_not.mpr hr)), if_pos hs]
      exact iff_of_true (trueOutcome_no_sender hs hknows) ⟨hseen, fun h => hs h.2.1⟩
  · have hself : ¬(s.text = r.text ∧ Knows (rowsOf part) s.text ∧
        amount.toInt ≤ balance (rowsOf part) s.text) := by
      rintro ⟨heq, hs, -⟩
      exact hr (reaches_iff.mpr ⟨heq ▸ hs, fun h => h.ne heq⟩)
    have hreply : (if ¬Knows (rowsOf part) s.text ∧ ¬Reaches (rowsOf part) s.text r.text then
        (net, MISSINGBOTH) else if ¬Knows (rowsOf part) s.text then (net, MISSINGSENDER) else
        (net, MISSINGRECEIVER)) = (net, if Knows (rowsOf part) s.text then MISSINGRECEIVER
          else MISSINGBOTH) := by
      by_cases hs : Knows (rowsOf part) s.text
      · simp [hs]
      · simp [hs, hr]
    rw [if_pos hr, hreply, and_iff_left hself]
    exact trueOutcome_unreached hr

theorem Hidden.perm (hsplit : rows.Perm rows') (h : Hidden rows s r) : Hidden rows' s r :=
  ⟨h.1, h.2.1, fun row hrow => h.2.2 row (hsplit.mem_iff.mpr hrow)⟩

theorem TrueOutcome.perm {a : ℤ} {reply next : Option Text} (hsplit : rows.Perm rows')
    (h : TrueOutcome rows s r a reply next) : TrueOutcome rows' s r a reply next := by
  have hknows : ∀ user, Knows rows user ↔ Knows rows' user := fun user => knows_perm hsplit
  have hbalance : balance rows' s = balance rows s := balance_perm hsplit.symm
  constructor
  · simpa only [hknows] using h.both
  · simpa only [hknows] using h.sender
  · simpa only [hknows] using h.receiver
  · simpa only [hknows, hbalance] using h.insufficient
  · simpa only [hknows, hbalance] using h.success

theorem handleClient_checkWallet (pick : Server) (user : Name) (net : Network) :
    (handleClient pick (CHECK_WALLET ++ ' ' :: user.text) net).2 =
      some (doCheckWallet user.text net).2 := by
  rw [handleClient, parseRequest_checkWallet]

theorem handleClient_txcoins (pick : Server) (s r amt : Name) (net : Network) :
    handleClient pick (txcoinsRequest s r amt) net =
      ((doTxcoins pick s.text r.text (strtol amt.text) net).1,
        some (doTxcoins pick s.text r.text (strtol amt.text) net).2) := by
  rw [handleClient, parseRequest_txcoins]

theorem txcoins_reports_true_outcome_iff (hsplit : (rowsOf part).Perm rows)
    (hstores : net.Stores part) (s r amt : Name) (hamount : 0 < (strtol amt.text).toInt)
    (hfits : Fits (balance rows s.text)) (pick pick' : Server) :
    TrueOutcome rows s.text r.text (strtol amt.text).toInt
        (handleClient pick (txcoinsRequest s r amt) net).2
        (handleClient pick' (CHECK_WALLET ++ ' ' :: s.text)
          (handleClient pick (txcoinsRequest s r amt) net).1).2 ↔
      ¬(Knows rows r.text ∧ Hidden rows s.text r.text) ∧
        ¬(s.text = r.text ∧ Knows rows s.text ∧
          (strtol amt.text).toInt ≤ balance rows s.text) := by
  rw [← balance_perm hsplit] at hfits ⊢
  have hhidden : Hidden rows s.text r.text ↔ Hidden (rowsOf part) s.text r.text :=
    ⟨Hidden.perm hsplit.symm, Hidden.perm hsplit⟩
  rw [handleClient_checkWallet, handleClient_txcoins, ← knows_perm hsplit, ← knows_perm hsplit,
    hhidden, ← doTxcoins_outcome_iff hstores s r hamount hfits pick]
  exact ⟨TrueOutcome.perm hsplit.symm, TrueOutcome.perm hsplit⟩

section Samples

def hundred : Name := ⟨['1', '0', '0'], ⟨by decide, by simp [isSpace]⟩, by decide⟩

/-- Somebody has the reserved name, but has dealt with Luke only. -/
def starPart : Server → List Row
  | .A => []
  | .B => [Row.written 1 ali luke 155]
  | .C => [Row.written 2 luke star 5]

end Samples

/-- Ali pays Luke. -/
theorem txcoins_ali_luke : TrueOutcome (rowsOf starPart) ali.text luke.text 100
    (handleClient .C (txcoinsRequest ali luke hundred) (Network.ofRows starPart)).2
    (handleClient .A (CHECK_WALLET ++ ' ' :: ali.text)
      (handleClient .C (txcoinsRequest ali luke hundred) (Network.ofRows starPart)).1).2 :=
  (txcoins_reports_true_outcome_iff (List.Perm.refl _) (stores_ofRows _) ali luke hundred
    (by decide +kernel) (by decide +kernel) .C .A).mpr ⟨by decide +kernel, by decide +kernel⟩

/-- Ali pays herself, and Ali pays the party of the reserved name. -/
theorem txcoins_misreports :
    ¬TrueOutcome (rowsOf starPart) ali.text ali.text 100
      (handleClient .C (txcoinsRequest ali ali hundred) (Network.ofRows starPart)).2
      (handleClient .A (CHECK_WALLET ++ ' ' :: ali.text)
        (handleClient .C (txcoinsRequest ali ali hundred) (Network.ofRows starPart)).1).2 ∧
    ¬TrueOutcome (rowsOf starPart) ali.text star.text 100
      (handleClient .C (txcoinsRequest ali star hundred) (Network.ofRows starPart)).2
      (handleClient .A (CHECK_WALLET ++ ' ' :: ali.text)
        (handleClient .C (txcoinsRequest ali star hundred) (Network.ofRows starPart)).1).2 := by
  have hamount : 0 < (strtol hundred.text).toInt := by decide +kernel
  have hfits : Fits (balance (rowsOf starPart) ali.text) := by decide +kernel
  constructor
  · rw [handleClient_checkWallet, handleClient_txcoins]
    intro h
    exact ((doTxcoins_outcome_iff (stores_ofRows _) ali ali hamount hfits .C).mp h).2
      (by decide +kernel)
  · rw [handleClient_checkWallet, handleClient_txcoins]
    intro h
    exact ((doTxcoins_outcome_iff (stores_ofRows _) ali star hamount hfits .C).mp h).1
      (by decide +kernel)

end TxChain.V1
