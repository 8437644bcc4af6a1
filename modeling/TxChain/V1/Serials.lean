import TxChain.Library.Run
import TxChain.V1.Steps

/-!
# Serial numbers over runs

Every backend reports the greatest serial of its whole block, whatever rows it returns, so the
next serial is one above the greatest of all. A recorded row is printed, read and printed
again unchanged, in memory and in a file that ends with a newline.
-/

namespace TxChain.V1

open Scan Numeral Transfers

/-- The connections of a run that are told of a recorded transfer, in order. -/
def successes (net : Network) (inputs : List Input) : List Input :=
  ((Run.moves step net inputs).filter fun m => Succeeds m.1 m.2).map Prod.snd

/-- The integers from 1 to `n`. -/
def serialsUpTo (n : ℕ) : List ℤ := (List.range n).map fun j : ℕ => (j : ℤ) + 1

/-- What a run leaves behind that starts with serials 1 to `n`, when `asked` are the connections
that succeeded. -/
structure Faithful (net final : Network) (n : ℕ) (asked : List Input) : Prop where
  serials : (final.ledger.map (·.serial.toInt)).Perm (serialsUpTo (n + asked.length))
  earlier : ∀ i, (net.backend i).txns <+: (final.backend i).txns
  added : ∃ added : List Txn, final.ledger.Perm (net.ledger ++ added) ∧
    List.Forall₂ (fun t i => i.transfer = some (t.sender, t.receiver, t.amount)) added asked ∧
    added.map (·.serial.toInt) = (List.range asked.length).map fun j : ℕ => (n : ℤ) + 1 + j
  files : ∀ i, loadBlock (final.backend i).file = (final.backend i).txns

variable {part : Server → List Row} {net : Network} {i : Input} {n : ℕ}

/-! ### The next serial -/

theorem serialsUpTo_succ (n : ℕ) : serialsUpTo (n + 1) = serialsUpTo n ++ [(n : ℤ) + 1] := by
  rw [serialsUpTo, List.range_succ, List.map_append, List.map_singleton, serialsUpTo]

theorem foldl_max_serialsUpTo (n : ℕ) : (serialsUpTo n).foldl max 0 = n := by
  induction n with
  | zero => rfl
  | succ n ih =>
      rw [serialsUpTo_succ, List.foldl_append, ih]
      exact max_eq_right (by omega)

theorem nextSerial_eq (hstores : net.Stores part)
    (hserials : (net.ledger.map (·.serial.toInt)).Perm (serialsUpTo n)) (hfits : n + 1 < 2 ^ 63) :
    (nextSerial (rowsOf part)).toInt = n + 1 := by
  have htop : (topSerial ((rowsOf part).map Row.txn)).toInt = n := by
    rw [← hstores.ledger, toInt_topSerial, hserials.foldl_eq, foldl_max_serialsUpTo]
  have hsum : Fits ((n : ℤ) + 1) := ⟨by omega, by omega⟩
  have hone : (1 : Int64) = Int64.ofInt 1 := rfl
  rw [nextSerial, ← Int64.ofInt_toInt (topSerial _), htop, hone, ← Int64.ofInt_add, hsum.toInt]

/-! ### One step -/

/-- The state a run keeps: serials 1 to `n`, and files that list the rows of the memory. -/
structure Contiguous (net : Network) (n : ℕ) : Prop where
  stored : ∃ part, net.Stores part
  serials : (net.ledger.map (·.serial.toInt)).Perm (serialsUpTo n)
  loaded : ∀ i, loadBlock (net.backend i).file = (net.backend i).txns
  ended : ∀ i, Lines.Ended '\n' (net.backend i).file

theorem ledger_append (hstores : net.Stores part) (pick : Server) (row : Row) :
    (net.append pick row).ledger.Perm (net.ledger ++ [row.txn]) := by
  rw [(hstores.append pick row).ledger, hstores.ledger, ← List.map_singleton, ← List.map_append]
  exact (rowsOf_appendRow part pick row).map _

theorem loadBlock_append {file : Text} (h : Lines.Ended '\n' file) (row : Row) :
    loadBlock (file ++ (row.line ++ ['\n'])) = loadBlock file ++ [row.line] := by
  have hrow := Lines.records_append '\n' row.line []
  rw [Lines.records_nil, List.append_nil,
    Lines.records_single row.newline_not_mem row.line_ne_nil] at hrow
  rw [loadBlock, h.records_append, hrow]
  rfl

theorem Contiguous.append (h : Contiguous net n) {row : Row} (pick : Server)
    (hrow : row.txn.serial.toInt = n + 1) : Contiguous (net.append pick row) (n + 1) := by
  obtain ⟨part, hstores⟩ := h.stored
  refine ⟨⟨_, hstores.append pick row⟩, ?_, fun i => ?_, fun i => ?_⟩
  · have hledger := (ledger_append hstores pick row).map (·.serial.toInt)
    rw [List.map_append, List.map_singleton, hrow] at hledger
    rw [serialsUpTo_succ]
    exact hledger.trans (h.serials.append_right _)
  · by_cases hi : i = pick
    · subst hi
      simp only [Network.append, Function.update_self, Backend.append]
      rw [loadBlock_append (h.ended i), h.loaded i]
    · simp only [Network.append, Function.update_of_ne hi]
      exact h.loaded i
  · by_cases hi : i = pick
    · subst hi
      simp only [Network.append, Function.update_self, Backend.append]
      exact Lines.ended_append '\n' _ _
    · simp only [Network.append, Function.update_of_ne hi]
      exact h.ended i

theorem Contiguous.of_backend {net' : Network} (h : Contiguous net n)
    (hbackend : net'.backend = net.backend) : Contiguous net' n := by
  obtain ⟨part, hstores⟩ := h.stored
  refine ⟨⟨part, fun i => ?_⟩, ?_, ?_, ?_⟩
  · rw [hbackend]
    exact hstores i
  · rw [ledger_of_backend hbackend]
    exact h.serials
  · rw [hbackend]
    exact h.loaded
  · rw [hbackend]
    exact h.ended

/-! ### Runs -/

theorem successes_cons (net : Network) (i : Input) (is : List Input) :
    successes net (i :: is) =
      if Succeeds net i then i :: successes (step net i) is else successes (step net i) is := by
  rw [successes, successes, Run.moves, List.filter_cons]
  simp only [decide_eq_true_eq]
  split_ifs <;> rfl

theorem Contiguous.faithful (h : Contiguous net n) : Faithful net net n [] where
  serials := h.serials
  earlier _ := List.prefix_rfl
  added := ⟨[], by rw [List.append_nil], .nil, rfl⟩
  files := h.loaded

/-- A run that goes on from a recorded row. -/
theorem Faithful.cons {final : Network} {asked : List Input} {pick : Server} {row : Row}
    (h : Faithful (net.append pick row) final (n + 1) asked) (hstores : net.Stores part)
    (hserial : row.txn.serial.toInt = n + 1)
    (hasked : i.transfer = some (row.txn.sender, row.txn.receiver, row.txn.amount)) :
    Faithful net final n (i :: asked) := by
  obtain ⟨added, hledger, hpaired, hnumbered⟩ := h.added
  refine ⟨?_, fun j => ?_, ⟨row.txn :: added, ?_, .cons hasked hpaired, ?_⟩, h.files⟩
  · rw [List.length_cons, Nat.add_comm asked.length, ← Nat.add_assoc]
    exact h.serials
  · refine List.IsPrefix.trans ?_ (h.earlier j)
    by_cases hj : j = pick
    · subst hj
      simp only [Network.append, Function.update_self, Backend.append]
      exact List.prefix_append _ _
    · simp only [Network.append, Function.update_of_ne hj]
      exact List.prefix_rfl
  · refine hledger.trans ?_
    rw [List.append_cons]
    exact (ledger_append hstores pick row).append_right _
  · rw [List.map_cons, hserial, hnumbered, List.length_cons, List.range_succ_eq_map, List.map_cons,
      List.map_map]
    refine congrArg₂ List.cons (by simp) (List.map_congr_left fun j _ => ?_)
    simp only [Function.comp, Nat.cast_add, Nat.cast_one, Nat.succ_eq_add_one]
    ring

/-- The same for a step that leaves the backends alone. -/
theorem Faithful.of_backend {net' final : Network} {asked : List Input}
    (h : Faithful net' final n asked) (hbackend : net'.backend = net.backend) :
    Faithful net final n asked where
  serials := h.serials
  earlier := hbackend ▸ h.earlier
  added := by
    rw [← ledger_of_backend hbackend]
    exact h.added
  files := h.files

theorem serials_contiguous_and_rows_faithful (hstores : net.Stores part)
    (hserials : (net.ledger.map (·.serial.toInt)).Perm (serialsUpTo n))
    (hloaded : ∀ i, loadBlock (net.backend i).file = (net.backend i).txns)
    (hended : ∀ i, Lines.Ended '\n' (net.backend i).file) (inputs : List Input)
    (hfits : n + (successes net inputs).length < 2 ^ 63) :
    Faithful net (inputs.foldl step net) n (successes net inputs) := by
  have h : Contiguous net n := ⟨⟨part, hstores⟩, hserials, hloaded, hended⟩
  clear hstores hserials hloaded hended
  induction inputs generalizing net n with
  | nil => exact h.faithful
  | cons i is ih =>
      obtain ⟨part, hstores⟩ := h.stored
      rw [successes_cons] at hfits ⊢
      rw [List.foldl_cons]
      rcases serve_cases hstores i with
        ⟨pick, a, b, amount, left, hasked, -, hserve⟩ | ⟨-, hbackend, hfails⟩
      · have hsuccess : Succeeds net i := ⟨_, congrArg Prod.snd hserve, List.prefix_append _ _⟩
        have hstep : step net i =
            net.append pick (Row.written (nextSerial (rowsOf part)) a b amount) :=
          congrArg Prod.fst hserve
        rw [if_pos hsuccess, List.length_cons] at hfits
        have hserial := nextSerial_eq hstores h.serials (by omega)
        have htxn : (Row.written (nextSerial (rowsOf part)) a b amount).txn =
            ⟨nextSerial (rowsOf part), a.text, b.text, amount⟩ := by
          simp [Row.txn, Row.written]
        have hnext : Contiguous (step net i) (n + 1) := by
          rw [hstep]
          refine h.append pick ?_
          rw [htxn, hserial]
        have hrest := ih (by omega) hnext
        rw [if_pos hsuccess]
        rw [hstep] at hrest ⊢
        refine hrest.cons hstores ?_ ?_
        · rw [htxn, hserial]
        · rw [htxn, hasked]
      · rw [if_neg hfails] at hfits ⊢
        exact (ih hfits (h.of_backend hbackend)).of_backend hbackend

section Samples

/-- Ali pays Luke, the monitor asks for the list, and Luke pays Ali at another backend. -/
def sampleRun : List Input :=
  [.client (txcoinsRequest ali luke hundred) .B, .monitor TXLIST,
    .client (txcoinsRequest luke ali hundred) .C]

end Samples

/-- Serials 3 and 4 are given out, and the list is written in between. -/
theorem faithful_sampleRun : (successes (Network.ofRows starPart) sampleRun).length = 2 ∧
    Faithful (Network.ofRows starPart) (sampleRun.foldl step (Network.ofRows starPart)) 2
      (successes (Network.ofRows starPart) sampleRun) := by
  have hended : ∀ i, Lines.Ended '\n' ((Network.ofRows starPart).backend i).file := by
    intro i
    cases i <;> decide +kernel
  refine ⟨by decide +kernel, ?_⟩
  exact serials_contiguous_and_rows_faithful (stores_ofRows starPart) (by decide +kernel)
    (fun _ => rfl) hended sampleRun (by decide +kernel)

end TxChain.V1
