import TxChain.V1.Wallet

/-!
# The statement

TXLIST gathers the rows of all backends, sorts them by serial and writes them in plaintext,
one line a row. A row survives encryption, the reply that carries it, decryption and
formatting; a sort only reorders rows, and whichever order it leaves among equal serials,
the text is a statement of the ledger.
-/

namespace TxChain.V1

open Scan Numeral

/-- The row as the statement shows it. -/
def Row.plaintext (r : Row) : Text :=
  print r.serial.value ++ ' ' :: (r.sender.text ++ ' ' :: (r.receiver.text ++ ' ' ::
    print r.amount.value))

/-- A line of the statement, read back. -/
def readStatementRow (line : Text) : Option Txn :=
  (parseRow line).map fun f => ⟨f.serial, f.s, f.r, strtol f.amt⟩

/-- The text has one line for each of the rows, in some order of non-decreasing serials, and
each line reads back as its row. -/
def IsStatement (text : Text) (rows : List Row) : Prop :=
  ∃ written : List Row, written.Perm rows ∧
    written.Pairwise (fun r r' => r.serial.value ≤ r'.serial.value) ∧
    text = Lines.unlines '\n' (written.map Row.plaintext) ∧
    (Lines.records '\n' text).map readStatementRow = written.map fun r => some r.txn

variable {r : Row} {rows : List Row} {part : Server → List Row} {net : Network} {buf : Text}

/-! ### One line -/

theorem statementRow_txn (r : Row) : statementRow r.txn = r.plaintext ++ ['\n'] := by
  simp only [statementRow, Row.txn, Row.plaintext, r.serial_fits.toInt, r.amount_fits.toInt,
    List.append_assoc, List.cons_append]

theorem fits_print {i : ℤ} (h : Fits i) : Fits (Literal.ofInt i).value := by
  rwa [Literal.value_ofInt]

/-- Formatting a row loses nothing of it. -/
theorem Row.readStatementRow_plaintext (r : Row) : readStatementRow r.plaintext = some r.txn := by
  have hparse := parseRow_words (fits_print r.serial_fits) r.sender.word r.receiver.word
    (isWord_literal (Literal.ofInt r.amount.value))
  have hamount := strtol_literal (fits_print r.amount_fits)
  rw [Literal.value_ofInt] at hparse hamount
  rw [readStatementRow, plaintext, print, print, hparse, Option.map_some, hamount]
  rfl

theorem Row.newline_not_mem_plaintext (r : Row) : '\n' ∉ r.plaintext := by
  have hname : ∀ n : Name, '\n' ∉ n.text := by
    intro n h
    exact absurd (n.word.solid '\n' h) (by decide)
  simp [plaintext, newline_not_mem_print, hname]

theorem Row.plaintext_ne_nil (r : Row) : r.plaintext ≠ [] := by simp [plaintext]

/-! ### The whole text -/

theorem statementRows (written : List Row) :
    (written.map Row.txn).flatMap statementRow =
      Lines.unlines '\n' (written.map Row.plaintext) := by
  rw [Lines.unlines, List.flatMap_map, List.flatMap_map]
  exact congrArg (written.flatMap ·) (funext statementRow_txn)

theorem readStatement (written : List Row) :
    (Lines.records '\n' (Lines.unlines '\n' (written.map Row.plaintext))).map readStatementRow =
      written.map fun r => some r.txn := by
  have hlines : ∀ line ∈ written.map Row.plaintext, '\n' ∉ line ∧ line ≠ [] := by
    intro line hline
    obtain ⟨r, -, rfl⟩ := List.mem_map.mp hline
    exact ⟨r.newline_not_mem_plaintext, r.plaintext_ne_nil⟩
  rw [Lines.records_unlines hlines, List.map_map]
  exact List.map_congr_left fun r _ => r.readStatementRow_plaintext

theorem Row.serial_le_iff (r r' : Row) :
    r.txn.serial ≤ r'.txn.serial ↔ r.serial.value ≤ r'.serial.value := by
  rw [Int64.le_iff_toInt_le, txn, txn, r.serial_fits.toInt, r'.serial_fits.toInt]

/-- Every sort of the decrypted rows makes a statement, in whatever order it leaves rows of
one serial. -/
theorem isStatement_of_sorted {sorted : List Txn} (hperm : sorted.Perm (rows.map Row.txn))
    (hsorted : sorted.Pairwise fun t t' => t.serial ≤ t'.serial) :
    IsStatement (sorted.flatMap statementRow) rows := by
  have hlift : Relation.Comp (· = List.map Row.txn ·) List.Perm sorted rows := by
    rwa [List.eq_map_comp_perm]
  obtain ⟨written, rfl, hwritten⟩ := hlift
  refine ⟨written, hwritten, ?_, statementRows written, ?_⟩
  · exact (List.pairwise_map.mp hsorted).imp fun h => (Row.serial_le_iff _ _).mp h
  · rw [statementRows]
    exact readStatement written

theorem IsStatement.perm {rows' : List Row} {text : Text} (h : IsStatement text rows)
    (hperm : rows.Perm rows') : IsStatement text rows' := by
  obtain ⟨written, hwritten, hrest⟩ := h
  exact ⟨written, hwritten.trans hperm, hrest⟩

/-! ### The request -/

/-- The order in which the main server sorts. -/
theorem sorted_mergeSort (ts : List Txn) :
    (ts.mergeSort fun t t' => t.serial ≤ t'.serial).Pairwise fun t t' => t.serial ≤ t'.serial := by
  have htrans : ∀ t u v : Txn, decide (t.serial ≤ u.serial) = true →
      decide (u.serial ≤ v.serial) = true → decide (t.serial ≤ v.serial) = true := by
    intro t u v htu huv
    rw [decide_eq_true_eq] at htu huv ⊢
    exact Int64.le_trans htu huv
  have htotal : ∀ t u : Txn,
      (decide (t.serial ≤ u.serial) || decide (u.serial ≤ t.serial)) = true := by
    intro t u
    rw [Bool.or_eq_true, decide_eq_true_eq, decide_eq_true_eq]
    exact Int64.le_total _ _
  exact (List.pairwise_mergeSort htrans htotal ts).imp fun h => decide_eq_true_eq.mp h

theorem doTxlist_isStatement (hstores : net.Stores part) :
    ∃ text, doTxlist net = ({ net with statement := some text }, OK) ∧
      IsStatement text (rowsOf part) := by
  have hasked := askAll_rows hstores receive_ALL
  rw [List.filter_true] at hasked
  refine ⟨_, ?_, isStatement_of_sorted (List.mergeSort_perm _ _) (sorted_mergeSort _)⟩
  rw [doTxlist, hasked]

/-- TXLIST has the whole ledger written in plaintext, in the order of the serials. -/
theorem txlist_writes_sorted_ledger (hsplit : (rowsOf part).Perm rows) (hstores : net.Stores part)
    (hrequest : TXLIST <+: buf) :
    ∃ text, handleMonitor buf net = ({ net with statement := some text }, some OK) ∧
      IsStatement text rows := by
  obtain ⟨rest, rfl⟩ := hrequest
  have hprefix : TXLIST <+: cstr (TXLIST ++ rest) := by
    rw [cstr_append (by decide)]
    exact List.prefix_append _ _
  obtain ⟨text, hdone, hstatement⟩ := doTxlist_isStatement hstores
  refine ⟨text, ?_, hstatement.perm hsplit⟩
  rw [handleMonitor, if_pos hprefix, hdone]

section Samples

/-- Two rows, the later one held by the backend that is asked first. -/
def latePart : Server → List Row
  | .A => [Row.written 2 luke ali 5]
  | .B => [Row.written 1 ali luke 155]
  | .C => []

end Samples

/-- The later row comes last in the statement. -/
theorem txlist_sorts_late : (handleMonitor TXLIST (Network.ofRows latePart)).1.statement =
    some "1 Ali Luke 155\n2 Luke Ali 5\n".toList := by
  obtain ⟨text, hdone, written, hperm, hsorted, htext, -⟩ :=
    txlist_writes_sorted_ledger (List.Perm.refl _) (stores_ofRows latePart) (List.prefix_refl _)
  rw [hdone, htext]
  rcases List.perm_pair.mp hperm with rfl | rfl
  · have hfirst := List.rel_of_pairwise_cons hsorted (List.mem_singleton_self _)
    exact absurd hfirst (by decide +kernel)
  · exact congrArg some (by decide +kernel)

end TxChain.V1
