import TxChain.Library.Transfers
import TxChain.V1.Main

/-!
# The ledger behind the ciphertext

A row is plaintext; a backend holds it as a line whose names and amount are encrypted. The
main server recovers the row from the line, and a query on encrypted names selects exactly
the rows that the plaintext names select. So one round of requests to the backends is a
filter on the rows of all three, however these are split over the backends.
-/

namespace TxChain.V1

open Scan Numeral Transfers

/-- A word that fits into a C string. -/
structure Name where
  text : Text
  word : IsWord text
  plain : '\x00' ∉ text

/-- A transaction in plaintext, with its numbers as they are written. -/
structure Row where
  serial : Literal
  sender : Name
  receiver : Name
  amount : Literal
  serial_fits : Fits serial.value
  amount_fits : Fits amount.value

namespace Row

def fields (r : Row) : Fields where
  serial := Int64.ofInt r.serial.value
  s := encStr r.sender.text
  r := encStr r.receiver.text
  amt := encStr r.amount.text

/-- The row as a block file holds it. -/
def line (r : Row) : Text :=
  r.serial.text ++ ' ' :: (encStr r.sender.text ++ ' ' :: (encStr r.receiver.text ++ ' ' ::
    encStr r.amount.text))

def txn (r : Row) : Txn where
  serial := Int64.ofInt r.serial.value
  sender := r.sender.text
  receiver := r.receiver.text
  amount := Int64.ofInt r.amount.value

def transfer (r : Row) : Transfer Text := ⟨r.sender.text, r.receiver.text, r.amount.value⟩

/-- A row as the servers write it. -/
def written (serial : Int64) (sender receiver : Name) (amount : Int64) : Row where
  serial := Literal.ofInt serial.toInt
  sender := sender
  receiver := receiver
  amount := Literal.ofInt amount.toInt
  serial_fits := by
    rw [Literal.value_ofInt]
    exact fits_toInt serial
  amount_fits := by
    rw [Literal.value_ofInt]
    exact fits_toInt amount

end Row

def Txn.transfer (t : Txn) : Transfer Text := ⟨t.sender, t.receiver, t.amount.toInt⟩

/-- The rows of the backends in their order. -/
def rowsOf (part : Server → List Row) : List Row := part .A ++ part .B ++ part .C

/-- Each backend holds its part of the rows. -/
def Network.Stores (net : Network) (part : Server → List Row) : Prop :=
  ∀ i, (net.backend i).txns = (part i).map Row.line

/-- A network that has just read the block files of the rows. -/
def Network.ofRows (part : Server → List Row) : Network where
  backend i := Backend.boot (Lines.unlines '\n' ((part i).map Row.line))
  statement := none

/-- The initial balance, plus what the user received, less what the user sent. -/
def balance (rows : List Row) (user : Text) : ℤ :=
  holding INITIAL_BALANCE.toInt (rows.map Row.transfer) user

variable {r : Row} {rows : List Row} {part : Server → List Row} {net : Network} {c : Char}

/-! ### C strings -/

theorem cstr_append {s : Text} (h : '\x00' ∉ s) (t : Text) : cstr (s ++ t) = s ++ cstr t := by
  refine List.takeWhile_append_of_pos fun c hc => ?_
  have hne : c ≠ '\x00' := ne_of_mem_of_not_mem hc h
  simpa using hne

theorem cstr_eq_self {s : Text} (h : '\x00' ∉ s) : cstr s = s := by
  have hend : cstr [] = [] := rfl
  have hwhole := cstr_append h []
  rwa [hend, List.append_nil] at hwhole

/-- The first word of a message. -/
theorem readWord_cstr {op : Text} (hop : IsWord op) (hplain : '\x00' ∉ op) (t : Text) :
    readWord (cstr (op ++ ' ' :: t)) = some (op, ' ' :: cstr t) := by
  have hspace : cstr (' ' :: t) = ' ' :: cstr t := by
    rw [cstr, List.takeWhile_cons_of_pos (by decide)]
    rfl
  rw [cstr_append hplain, hspace, hop.read (endsWord_space _)]

theorem nul_not_mem_literal (l : Literal) : '\x00' ∉ l.text := by
  intro h
  rcases Literal.mem_text h with h | h | h <;> exact absurd h (by decide)

theorem nul_not_mem_print (i : ℤ) : '\x00' ∉ print i := nul_not_mem_literal _

/-! ### One row -/

theorem Row.mem_line (h : c ∈ r.line) : c = ' ' ∨ (isSpace c = false ∧ c ≠ '\x00') := by
  have hliteral : ∀ l : Literal, c ∈ l.text → isSpace c = false ∧ c ≠ '\x00' := by
    intro l hl
    refine ⟨(isWord_literal l).solid c hl, ?_⟩
    rintro rfl
    exact nul_not_mem_literal l hl
  have henc : ∀ s : Text, IsWord s → '\x00' ∉ s → c ∈ encStr s →
      isSpace c = false ∧ c ≠ '\x00' := by
    intro s hs hplain hc
    refine ⟨(isWord_encStr hs).solid c hc, ?_⟩
    rintro rfl
    exact hplain ((mem_encStr (by decide)).mp hc)
  simp only [line, List.mem_append, List.mem_cons] at h
  rcases h with h | h | h | h | h | h | h
  · exact .inr (hliteral r.serial h)
  · exact .inl h
  · exact .inr (henc _ r.sender.word r.sender.plain h)
  · exact .inl h
  · exact .inr (henc _ r.receiver.word r.receiver.plain h)
  · exact .inl h
  · exact .inr (henc _ (isWord_literal _) (nul_not_mem_literal _) h)

theorem Row.newline_not_mem (r : Row) : '\n' ∉ r.line := by
  intro h
  rcases Row.mem_line h with h | ⟨h, -⟩ <;> exact absurd h (by decide)

theorem Row.nul_not_mem (r : Row) : '\x00' ∉ r.line := by
  intro h
  rcases Row.mem_line h with h | ⟨-, h⟩
  · exact absurd h (by decide)
  · exact h rfl

theorem Row.line_ne_nil (r : Row) : r.line ≠ [] := by simp [line]

theorem stores_ofRows (part : Server → List Row) : (Network.ofRows part).Stores part := by
  intro i
  refine Lines.records_unlines fun line hline => ?_
  obtain ⟨r, -, rfl⟩ := List.mem_map.mp hline
  exact ⟨r.newline_not_mem, r.line_ne_nil⟩

/-- Four words, the first of them a `long`, are read as a row. -/
theorem parseRow_words {l : Literal} (hfits : Fits l.value) {s r amt : Text} (hs : IsWord s)
    (hr : IsWord r) (hamt : IsWord amt) :
    parseRow (l.text ++ ' ' :: (s ++ ' ' :: (r ++ ' ' :: amt))) =
      some ⟨Int64.ofInt l.value, s, r, amt⟩ := by
  have hsender := hs.read (endsWord_space (r ++ ' ' :: amt))
  have hreceiver := hr.read (endsWord_space amt)
  have hspace : isSpace ' ' = true := by decide
  rw [parseRow, readLong_literal hfits (endsNumeral_space _)]
  simp only [Option.bind_eq_bind, Option.bind_some, readWord_space hspace, hsender, hreceiver,
    hamt.read_last]
  rfl

@[simp] theorem Row.parseRow_line (r : Row) : parseRow r.line = some r.fields :=
  parseRow_words r.serial_fits (isWord_encStr r.sender.word) (isWord_encStr r.receiver.word)
    (isWord_encStr (isWord_literal r.amount))

/-- The main server recovers the plaintext of a row. -/
@[simp] theorem Row.readTxn_line (r : Row) : readTxn r.line = some r.txn := by
  simp only [readTxn, parseRow_line, fields, decStr_encStr, strtol_literal r.amount_fits]
  rfl

theorem Row.transfer_txn (r : Row) : r.txn.transfer = r.transfer := by
  simp only [txn, Txn.transfer, transfer, r.amount_fits.toInt]

/-! ### The greatest serial -/

def topSerial (ts : List Txn) : Int64 := (ts.map Txn.serial).foldl laterSerial 0

theorem toInt_laterSerial (m s : Int64) : (laterSerial m s).toInt = max m.toInt s.toInt := by
  rw [laterSerial]
  split_ifs with h
  · exact (max_eq_right (le_of_lt (Int64.lt_iff_toInt_lt.mp h))).symm
  · exact (max_eq_left (not_lt.mp (Int64.lt_iff_toInt_lt.not.mp h))).symm

theorem toInt_foldl_laterSerial (ss : List Int64) (m : Int64) :
    (ss.foldl laterSerial m).toInt = (ss.map Int64.toInt).foldl max m.toInt := by
  induction ss generalizing m with
  | nil => rfl
  | cons s ss ih =>
      rw [List.foldl_cons, ih, toInt_laterSerial, List.map_cons, List.foldl_cons]

theorem toInt_topSerial (ts : List Txn) :
    (topSerial ts).toInt = (ts.map (·.serial.toInt)).foldl max 0 := by
  rw [topSerial, toInt_foldl_laterSerial, List.map_map]
  rfl

theorem foldl_max {m : ℤ} (hm : 0 ≤ m) (ss : List ℤ) : ss.foldl max m = max m (ss.foldl max 0) := by
  have hassoc : ss.foldl max (max m 0) = max m (ss.foldl max 0) := List.foldl_assoc
  rwa [max_eq_left hm] at hassoc

theorem topSerial_nonneg (ts : List Txn) : 0 ≤ (topSerial ts).toInt := by
  rw [toInt_topSerial, foldl_max (Int.le_refl 0)]
  exact le_max_left _ _

theorem topSerial_append (ts us : List Txn) :
    topSerial (ts ++ us) = laterSerial (topSerial ts) (topSerial us) := by
  refine Int64.toInt_inj.mp ?_
  rw [toInt_laterSerial, toInt_topSerial (ts ++ us), List.map_append, List.foldl_append,
    ← toInt_topSerial ts, foldl_max (topSerial_nonneg ts), ← toInt_topSerial us]

theorem laterSerial_topSerial (ts : List Txn) : laterSerial 0 (topSerial ts) = topSerial ts :=
  (topSerial_append [] ts).symm

/-! ### One reply -/

theorem foldl_replyRow (select : Fields → Bool) (rows : List Row) (acc : Int64 × Text) :
    (rows.map Row.line).foldl (replyRow select) acc =
      ((rows.map (·.txn.serial)).foldl laterSerial acc.1,
        acc.2 ++ ((rows.filter (select ·.fields)).map Row.line).flatMap ('\n' :: ·)) := by
  induction rows generalizing acc with
  | nil => simp
  | cons r rows ih =>
      simp only [List.map_cons, List.foldl_cons]
      have hserial : r.fields.serial = r.txn.serial := rfl
      rw [ih, replyRow, Row.parseRow_line]
      cases hselect : select r.fields with
      | true => simp [hselect, hserial]
      | false => simp [hselect, hserial]

theorem replyText_rows (select : Fields → Bool) (rows : List Row) :
    replyText select (rows.map Row.line) = print (topSerial (rows.map Row.txn)).toInt ++
      ((rows.filter (select ·.fields)).map Row.line).flatMap ('\n' :: ·) := by
  rw [replyText, foldl_replyRow, topSerial, List.map_map]
  rfl

theorem newline_not_mem_print (i : ℤ) : '\n' ∉ print i := by
  intro h
  have hsolid := (isWord_literal (Literal.ofInt i)).solid '\n' h
  exact absurd hsolid (by decide)

/-- Reading a reply adds the selected rows, decrypted. -/
theorem parseQueryReply_rows (select : Fields → Bool) (rows : List Row) (acc : List Txn × Int64) :
    parseQueryReply (cstr (replyText select (rows.map Row.line))) acc =
      (acc.1 ++ (rows.filter (select ·.fields)).map Row.txn,
        laterSerial acc.2 (topSerial (rows.map Row.txn))) := by
  generalize hsel : rows.filter (select ·.fields) = sel
  have hlines : ∀ line ∈ sel.map Row.line, '\n' ∉ line ∧ line ≠ [] := by
    intro line hline
    obtain ⟨r, -, rfl⟩ := List.mem_map.mp hline
    exact ⟨r.newline_not_mem, r.line_ne_nil⟩
  have hplain : '\x00' ∉ (sel.map Row.line).flatMap ('\n' :: ·) := by
    intro h
    obtain ⟨line, hline, hmem⟩ := List.mem_flatMap.mp h
    obtain ⟨r, -, rfl⟩ := List.mem_map.mp hline
    rcases List.mem_cons.mp hmem with h | h
    · exact absurd h (by decide)
    · exact r.nul_not_mem h
  have hhead : ∀ c ∈ ((sel.map Row.line).flatMap ('\n' :: ·)).head?, c = '\n' := by
    cases sel <;> simp
  have hrecords : Lines.records '\n' (((sel.map Row.line).flatMap ('\n' :: ·)).drop 1) =
      sel.map Row.line := by
    have hled := Lines.records_led hlines
    cases sel with
    | nil => exact hled
    | cons r sel =>
        rw [List.map_cons, List.flatMap_cons, List.cons_append, Lines.records_cons_sep] at hled
        exact hled
  have hdecrypted : (sel.map Row.line).filterMap readTxn = sel.map Row.txn := by
    rw [List.filterMap_map, ← List.filterMap_eq_map]
    exact List.filterMap_congr fun r _ => r.readTxn_line
  rw [replyText_rows, hsel, cstr_append (nul_not_mem_print _), cstr_eq_self hplain, parseQueryReply,
    readLine_append (newline_not_mem_print _) (Literal.text_ne_nil _) hhead]
  dsimp only
  rw [hrecords, hdecrypted, strtol_print]

/-! ### One round of requests -/

variable {req : Text} {select : Fields → Bool}

/-- Backends that only reply leave the network as it is, and their replies together are a
filter on all rows. -/
theorem askAll_rows (hstores : net.Stores part)
    (hreq : ∀ b : Backend, b.receive req = (b, replyText select b.txns)) :
    askAll req net = (net, ((rowsOf part).filter (select ·.fields)).map Row.txn,
      topSerial ((rowsOf part).map Row.txn)) := by
  have hone : ∀ i, udpRequest i req net =
      (net, cstr (replyText select ((part i).map Row.line))) := by
    intro i
    rw [udpRequest, hreq, hstores i]
    dsimp only
    rw [Function.update_eq_self]
  simp only [askAll, List.foldl_cons, List.foldl_nil, hone, parseQueryReply_rows, rowsOf,
    List.filter_append, List.map_append, topSerial_append, laterSerial_topSerial, List.nil_append]

theorem isWord_QUERY : IsWord QUERY := ⟨by decide, by simp [QUERY, isSpace]⟩

theorem receive_query (t : Text) (b : Backend) :
    b.receive (QUERY ++ ' ' :: t) = (b, handleQuery (nextWord (' ' :: cstr t)).1
      (nextWord (nextWord (' ' :: cstr t)).2).1 b.txns) := by
  rw [Backend.receive, readWord_cstr isWord_QUERY (by decide)]
  dsimp only
  rw [if_pos rfl]

theorem isWord_ALL : IsWord ALL := ⟨by decide, by simp [ALL, isSpace]⟩

theorem receive_ALL (b : Backend) : b.receive ALL = (b, replyText (fun _ => true) b.txns) := by
  have hread : readWord (cstr ALL) = some (ALL, []) := by
    rw [cstr_eq_self (by decide), isWord_ALL.read_last]
  rw [Backend.receive, hread]
  dsimp only
  rw [if_neg (by decide), if_pos rfl]
  rfl

/-- Whatever is asked for, a query changes nothing and finds the greatest serial of all. -/
theorem queryAll_any (hstores : net.Stores part) (enc1 enc2 : Text) :
    ∃ select : Fields → Bool, queryAll enc1 enc2 net =
      (net, ((rowsOf part).filter (select ·.fields)).map Row.txn,
      topSerial ((rowsOf part).map Row.txn)) :=
  ⟨_, askAll_rows hstores fun b => receive_query _ b⟩

/-- What a query for two names is meant to select. -/
def visible (a b : Text) (r : Row) : Bool :=
  r.transfer.Names a ∨ (b ≠ ['*'] ∧ r.transfer.Names b)

theorem encStr_star {b : Text} : encStr b = ['*'] ↔ b = ['*'] := by
  have hstar : encStr ['*'] = ['*'] := by decide
  have hinj := encStr_inj (s := b) (t := ['*'])
  rwa [hstar] at hinj

/-- Matching ciphertext is matching plaintext. -/
theorem selected_fields (a b : Text) (r : Row) :
    selected (encStr a) (encStr b) r.fields = visible a b r := by
  simp only [selected, visible, Row.fields, Transfer.Names, Row.transfer, encStr_inj, ne_eq,
    encStr_star]
  grind

theorem queryAll_names (hstores : net.Stores part) (a b : Name) :
    queryAll (encStr a.text) (encStr b.text) net =
      (net, ((rowsOf part).filter (visible a.text b.text)).map Row.txn,
        topSerial ((rowsOf part).map Row.txn)) := by
  have hplain : '\x00' ∉ encStr a.text ++ ' ' :: encStr b.text := by
    simp only [List.mem_append, List.mem_cons]
    rintro (h | h | h)
    · exact a.plain ((mem_encStr (by decide)).mp h)
    · exact absurd h (by decide)
    · exact b.plain ((mem_encStr (by decide)).mp h)
  have hfirst := (isWord_encStr a.word).next (endsWord_space (encStr b.text))
  have hsecond := (isWord_encStr b.word).next_last
  have hreceive := fun b' : Backend => receive_query (encStr a.text ++ ' ' :: encStr b.text) b'
  simp only [cstr_eq_self hplain, hfirst, hsecond] at hreceive
  have hasked := askAll_rows hstores hreceive
  simp only [selected_fields] at hasked
  exact hasked

end TxChain.V1
