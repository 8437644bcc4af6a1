import Mathlib

/-!
# Double-entry journals over bounded balances

A journal is a list of postings. Each posting moves an amount from an optional
debited account to a credited one; without a debited account it issues money.
Balances live below a fixed capacity and credits wrap there, as unsigned machine
words do. Nothing here mentions signatures, blocks or a particular program.

The closed form `settle_eq` reads a settled balance off the journal without
replaying it, and `sum_settle` accounts for the total: it can change only by
issued amounts and by credits that wrap.
-/

namespace Ledger

universe u

/-- One journal entry. An entry without a debited account issues its amount. -/
structure Posting (K : Type u) where
  debit : Option K
  credit : K
  amount : ℕ

variable {K : Type u} [DecidableEq K]

namespace Posting

/-- What the entry takes from an account. -/
def paid (p : Posting K) (a : K) : ℕ := if p.debit = some a then p.amount else 0

/-- What the entry brings to an account. -/
def received (p : Posting K) (a : K) : ℕ := if p.credit = a then p.amount else 0

/-- What the entry issues. -/
def issued (p : Posting K) : ℕ := if p.debit = none then p.amount else 0

theorem sum_received [Fintype K] (p : Posting K) : ∑ a, p.received a = p.amount := by
  simp [received]

theorem sum_paid [Fintype K] (p : Posting K) : ∑ a, p.paid a + p.issued = p.amount := by
  cases hd : p.debit with
  | none => simp [paid, issued, hd]
  | some b => simp [paid, issued, hd]

end Posting

/-! ### Totals of a journal -/

def paid (ps : List (Posting K)) (a : K) : ℕ := (ps.map (·.paid a)).sum
def received (ps : List (Posting K)) (a : K) : ℕ := (ps.map (·.received a)).sum
def issued (ps : List (Posting K)) : ℕ := (ps.map (·.issued)).sum

@[simp] theorem paid_nil (a : K) : paid [] a = 0 := rfl
@[simp] theorem received_nil (a : K) : received [] a = 0 := rfl
omit [DecidableEq K] in
@[simp] theorem issued_nil : issued ([] : List (Posting K)) = 0 := rfl

@[simp] theorem paid_cons (p : Posting K) (ps : List (Posting K)) (a : K) :
    paid (p :: ps) a = p.paid a + paid ps a := by
  simp [paid]

@[simp] theorem received_cons (p : Posting K) (ps : List (Posting K)) (a : K) :
    received (p :: ps) a = p.received a + received ps a := by
  simp [received]

omit [DecidableEq K] in
@[simp] theorem issued_cons (p : Posting K) (ps : List (Posting K)) :
    issued (p :: ps) = p.issued + issued ps := by
  simp [issued]

omit [DecidableEq K] in
@[simp] theorem issued_append (ps qs : List (Posting K)) :
    issued (ps ++ qs) = issued ps + issued qs := by
  simp [issued]

/-- The totals do not depend on the order of the entries. -/
theorem paid_perm {ps qs : List (Posting K)} (h : ps.Perm qs) (a : K) : paid ps a = paid qs a :=
  (h.map _).sum_eq

theorem received_perm {ps qs : List (Posting K)} (h : ps.Perm qs) (a : K) :
    received ps a = received qs a :=
  (h.map _).sum_eq

omit [DecidableEq K] in
theorem issued_le (ps : List (Posting K)) : issued ps ≤ (ps.map Posting.amount).sum := by
  induction ps with
  | nil => exact Nat.le_refl 0
  | cons p ps ih =>
      have hp : p.issued ≤ p.amount := by
        rw [Posting.issued]
        split <;> omega
      rw [issued_cons, List.map_cons, List.sum_cons]
      omega

/-- Everything received was either paid by another account or issued. -/
theorem sum_received_eq [Fintype K] (ps : List (Posting K)) :
    ∑ a, received ps a = ∑ a, paid ps a + issued ps := by
  induction ps with
  | nil => simp
  | cons p ps ih =>
      have hp : ∑ a, p.received a = ∑ a, p.paid a + p.issued :=
        p.sum_received.trans p.sum_paid.symm
      simp only [received_cons, paid_cons, issued_cons, Finset.sum_add_distrib, ih, hp]
      omega

/-! ### Settling a journal -/

variable (capacity : ℕ)

/-- Balances after one entry; the credited balance wraps at the capacity. -/
def post (w : K → ℕ) (p : Posting K) : K → ℕ :=
  fun a => (w a - p.paid a + p.received a) % capacity

/-- Balances after a whole journal. -/
def settle (w : K → ℕ) (ps : List (Posting K)) : K → ℕ := ps.foldl (post capacity) w

/-- No entry debits more than the account holds when the entry is posted. -/
def Covered : (K → ℕ) → List (Posting K) → Prop
  | _, [] => True
  | w, p :: ps => (∀ a, p.paid a ≤ w a) ∧ Covered (post capacity w p) ps

/-- No entry credits an account past the capacity. -/
def Fits : (K → ℕ) → List (Posting K) → Prop
  | _, [] => True
  | w, p :: ps => w p.credit + p.amount < capacity ∧ Fits (post capacity w p) ps

@[simp] theorem settle_nil (w : K → ℕ) : settle capacity w [] = w := rfl

@[simp] theorem settle_cons (w : K → ℕ) (p : Posting K) (ps : List (Posting K)) :
    settle capacity w (p :: ps) = settle capacity (post capacity w p) ps := rfl

variable {capacity}

theorem post_lt {w : K → ℕ} (hw : ∀ a, w a < capacity) (p : Posting K) (a : K) :
    post capacity w p a < capacity :=
  Nat.mod_lt _ (Nat.zero_lt_of_lt (hw a))

/-- The closed form of a covered journal: the balance is what the account held
and received less what it paid, reduced once at the capacity. -/
theorem settle_eq {w : K → ℕ} (hw : ∀ a, w a < capacity) {ps : List (Posting K)}
    (hc : Covered capacity w ps) (a : K) :
    paid ps a ≤ w a + received ps a ∧
      settle capacity w ps a = (w a + received ps a - paid ps a) % capacity := by
  induction ps generalizing w with
  | nil => simp [Nat.mod_eq_of_lt (hw a)]
  | cons p ps ih =>
      obtain ⟨hpaid, hrest⟩ := hc
      obtain ⟨hle, heq⟩ := ih (post_lt hw p) hrest
      have hp := hpaid a
      -- One posting drops a multiple of the capacity, which the final reduction absorbs.
      have hmod := Nat.mod_add_div (w a - p.paid a + p.received a) capacity
      have hpost : post capacity w p a = (w a - p.paid a + p.received a) % capacity := rfl
      refine ⟨?_, ?_⟩
      · simp only [paid_cons, received_cons]
        have := Nat.mod_le (w a - p.paid a + p.received a) capacity
        omega
      · rw [settle_cons, heq, paid_cons, received_cons]
        have hsplit : w a + (p.received a + received ps a) - (p.paid a + paid ps a) =
            (post capacity w p a + received ps a - paid ps a) +
              capacity * ((w a - p.paid a + p.received a) / capacity) := by
          omega
        rw [hsplit, Nat.add_mul_mod_self_left]

/-- How many times a capacity is lost by wrapping credits, over all accounts. -/
def overflowed [Fintype K] (capacity : ℕ) (w : K → ℕ) (ps : List (Posting K)) : ℕ :=
  ∑ a, (w a + received ps a - paid ps a) / capacity

/-- The total changes by what is issued and by whole capacities that wrap away. -/
theorem sum_settle [Fintype K] {w : K → ℕ} (hw : ∀ a, w a < capacity)
    {ps : List (Posting K)} (hc : Covered capacity w ps) :
    ∑ a, settle capacity w ps a + capacity * overflowed capacity w ps =
      ∑ a, w a + issued ps := by
  have hpoint : ∀ a, settle capacity w ps a +
      capacity * ((w a + received ps a - paid ps a) / capacity) + paid ps a =
        w a + received ps a := by
    intro a
    obtain ⟨hle, heq⟩ := settle_eq hw hc a
    have := Nat.mod_add_div (w a + received ps a - paid ps a) capacity
    omega
  have hsum := Finset.sum_congr (rfl : (Finset.univ : Finset K) = Finset.univ)
    (fun a _ => hpoint a)
  simp only [Finset.sum_add_distrib, ← Finset.mul_sum, sum_received_eq] at hsum
  unfold overflowed
  omega

/-- Nothing wraps while the money held and issued stays below the capacity. -/
theorem overflowed_eq_zero [Fintype K] {w : K → ℕ} (hw : ∀ a, w a < capacity)
    {ps : List (Posting K)} (hc : Covered capacity w ps)
    (hfit : ∑ a, w a + issued ps < capacity) : overflowed capacity w ps = 0 := by
  have htotal := sum_settle hw hc
  by_contra hne
  have : capacity ≤ capacity * overflowed capacity w ps :=
    Nat.le_mul_of_pos_right _ (Nat.pos_of_ne_zero hne)
  omega

/-- While the money held and issued fits, the books balance exactly at every account. -/
theorem settle_add_paid_of_total [Fintype K] {w : K → ℕ} (hw : ∀ a, w a < capacity)
    {ps : List (Posting K)} (hc : Covered capacity w ps)
    (hfit : ∑ a, w a + issued ps < capacity) (a : K) :
    settle capacity w ps a + paid ps a = w a + received ps a := by
  obtain ⟨hle, heq⟩ := settle_eq hw hc a
  have hnone := Finset.sum_eq_zero_iff.mp (overflowed_eq_zero hw hc hfit) a (Finset.mem_univ a)
  have hpos := Nat.zero_lt_of_lt (hw a)
  have hlt : w a + received ps a - paid ps a < capacity := Nat.lt_of_div_eq_zero hpos hnone
  rw [heq, Nat.mod_eq_of_lt hlt]
  omega

/-- Without wrapping credits the books balance exactly at every account. -/
theorem settle_add_paid_of_fits {w : K → ℕ} (hw : ∀ a, w a < capacity)
    {ps : List (Posting K)} (hc : Covered capacity w ps) (hf : Fits capacity w ps) (a : K) :
    settle capacity w ps a + paid ps a = w a + received ps a := by
  induction ps generalizing w with
  | nil => simp
  | cons p ps ih =>
      have hpost : post capacity w p a = w a - p.paid a + p.received a := by
        apply Nat.mod_eq_of_lt
        by_cases hcr : p.credit = a
        · have := hf.1
          simp only [Posting.received, if_pos hcr]
          subst hcr
          omega
        · have := hw a
          simp only [Posting.received, if_neg hcr]
          omega
      have hrest := ih (post_lt hw p) hc.2 hf.2
      have hp := hc.1 a
      simp only [settle_cons, paid_cons, received_cons]
      omega

end Ledger
