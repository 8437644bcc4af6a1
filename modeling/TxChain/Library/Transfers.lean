import Mathlib

/-!
# Holdings computed from a history of transfers

No holding is stored: each party starts with the same base, and what it holds is the base
plus what it received less what it sent. Transfers only move amounts, so the holdings of all
parties named in a history sum to the base times their number, whatever the signs of the
amounts; while nobody is below zero this bounds each single holding.
-/

namespace Transfers

universe u v

structure Transfer (K : Type u) where
  sender : K
  receiver : K
  amount : ℤ
  deriving DecidableEq

variable {K : Type u} [DecidableEq K]

namespace Transfer

def Names (t : Transfer K) (a : K) : Prop := t.sender = a ∨ t.receiver = a

instance (t : Transfer K) (a : K) : Decidable (t.Names a) := inferInstanceAs (Decidable (_ ∨ _))

def received (t : Transfer K) (a : K) : ℤ := if t.receiver = a then t.amount else 0

def sent (t : Transfer K) (a : K) : ℤ := if t.sender = a then t.amount else 0

end Transfer

def received (ts : List (Transfer K)) (a : K) : ℤ := (ts.map (·.received a)).sum

def sent (ts : List (Transfer K)) (a : K) : ℤ := (ts.map (·.sent a)).sum

/-- The holding of a party after a history. -/
def holding (base : ℤ) (ts : List (Transfer K)) (a : K) : ℤ := base + received ts a - sent ts a

/-- The party sent or received one of the transfers. -/
def Occurs (ts : List (Transfer K)) (a : K) : Prop := ∃ t ∈ ts, t.Names a

instance (ts : List (Transfer K)) (a : K) : Decidable (Occurs ts a) :=
  inferInstanceAs (Decidable (∃ t ∈ ts, t.Names a))

def parties (ts : List (Transfer K)) : Finset K :=
  (ts.map Transfer.sender ++ ts.map Transfer.receiver).toFinset

variable {base : ℤ} {t : Transfer K} {ts us : List (Transfer K)} {a : K}

@[simp] theorem holding_nil (base : ℤ) (a : K) : holding base [] a = base := by
  simp [holding, received, sent]

theorem holding_cons (base : ℤ) (t : Transfer K) (ts : List (Transfer K)) (a : K) :
    holding base (t :: ts) a = holding base ts a + (t.received a - t.sent a) := by
  simp only [holding, received, sent, List.map_cons, List.sum_cons]
  ring

theorem holding_concat (base : ℤ) (ts : List (Transfer K)) (t : Transfer K) (a : K) :
    holding base (ts ++ [t]) a = holding base ts a + (t.received a - t.sent a) := by
  simp only [holding, received, sent, List.map_append, List.sum_append, List.map_cons,
    List.map_nil, List.sum_cons, List.sum_nil]
  ring

/-- A transfer may also be settled into the base. -/
theorem holding_shift (base : ℤ) (t : Transfer K) (ts : List (Transfer K)) (a : K) :
    holding (base + t.received a - t.sent a) ts a = holding base (t :: ts) a := by
  rw [holding_cons]
  simp only [holding]
  ring

theorem holding_perm (h : ts.Perm us) (base : ℤ) (a : K) :
    holding base ts a = holding base us a := by
  rw [holding, holding, received, received, sent, sent, (h.map _).sum_eq, (h.map _).sum_eq]

/-- A transfer of a party to itself changes nothing. -/
theorem received_sub_sent_self (h : t.sender = t.receiver) (a : K) :
    t.received a - t.sent a = 0 := by
  rw [Transfer.received, Transfer.sent, h, sub_self]

/-- A transfer changes nothing for a party that it does not name. -/
theorem received_sub_sent_unnamed (h : ¬t.Names a) : t.received a - t.sent a = 0 := by
  rw [Transfer.received, Transfer.sent, if_neg (fun hr => h (.inr hr)),
    if_neg (fun hs => h (.inl hs)), sub_self]

theorem received_sub_sent_receiver (hr : t.receiver = a) (hs : t.sender ≠ a) :
    t.received a - t.sent a = t.amount := by
  rw [Transfer.received, Transfer.sent, if_pos hr, if_neg hs, sub_zero]

theorem received_sub_sent_sender (hs : t.sender = a) (hr : t.receiver ≠ a) :
    t.received a - t.sent a = -t.amount := by
  rw [Transfer.received, Transfer.sent, if_neg hr, if_pos hs, zero_sub]

/-- The holding of a party can be read off any part of the history that keeps the transfers
naming it. -/
theorem holding_filter {β : Type v} {f : β → Transfer K} {p : β → Bool} {bs : List β}
    (h : ∀ b ∈ bs, (f b).Names a → p b = true) :
    holding base ((bs.filter p).map f) a = holding base (bs.map f) a := by
  induction bs with
  | nil => rfl
  | cons b bs ih =>
      obtain ⟨hb, hbs⟩ := List.forall_mem_cons.mp h
      by_cases hp : p b = true
      · rw [List.filter_cons_of_pos hp, List.map_cons, List.map_cons, holding_cons, holding_cons,
          ih hbs]
      · have hunnamed : ¬(f b).Names a := fun hnames => hp (hb hnames)
        rw [List.filter_cons_of_neg hp, List.map_cons, holding_cons, ih hbs,
          received_sub_sent_unnamed hunnamed, add_zero]

omit [DecidableEq K] in
theorem occurs_perm (h : ts.Perm us) (a : K) : Occurs ts a ↔ Occurs us a := by
  simp only [Occurs, h.mem_iff]

omit [DecidableEq K] in
theorem occurs_cons : Occurs (t :: ts) a ↔ t.Names a ∨ Occurs ts a := by
  simp [Occurs]

theorem occurs_iff_mem_parties : Occurs ts a ↔ a ∈ parties ts := by
  simp only [Occurs, Transfer.Names, parties, List.mem_toFinset, List.mem_append, List.mem_map]
  constructor
  · rintro ⟨t, ht, hs | hr⟩
    · exact .inl ⟨t, ht, hs⟩
    · exact .inr ⟨t, ht, hr⟩
  · rintro (⟨t, ht, hs⟩ | ⟨t, ht, hr⟩)
    · exact ⟨t, ht, .inl hs⟩
    · exact ⟨t, ht, .inr hr⟩

/-- A transfer between known parties adds none. -/
theorem parties_concat (hs : Occurs ts t.sender) (hr : Occurs ts t.receiver) :
    parties (ts ++ [t]) = parties ts := by
  ext a
  rw [← occurs_iff_mem_parties, ← occurs_iff_mem_parties]
  constructor
  · rintro ⟨u, hu, hnames⟩
    rcases List.mem_append.mp hu with hu | hu
    · exact ⟨u, hu, hnames⟩
    · obtain rfl := List.mem_singleton.mp hu
      rcases hnames with rfl | rfl
      · exact hs
      · exact hr
  · rintro ⟨u, hu, hnames⟩
    exact ⟨u, List.mem_append_left _ hu, hnames⟩

theorem parties_perm (h : ts.Perm us) : parties ts = parties us := by
  ext a
  rw [← occurs_iff_mem_parties, ← occurs_iff_mem_parties, occurs_perm h]

theorem holding_of_not_occurs (h : ¬Occurs ts a) : holding base ts a = base := by
  induction ts with
  | nil => exact holding_nil base a
  | cons t ts ih =>
      rw [occurs_cons, not_or] at h
      rw [holding_cons, received_sub_sent_unnamed h.1, ih h.2, add_zero]

theorem sum_received_sub_sent {S : Finset K} (hs : t.sender ∈ S) (hr : t.receiver ∈ S) :
    ∑ a ∈ S, (t.received a - t.sent a) = 0 := by
  simp [Transfer.received, Transfer.sent, Finset.sum_sub_distrib, hs, hr]

/-- The holdings of all parties sum to the base times their number. -/
theorem sum_holding (base : ℤ) {S : Finset K} (h : parties ts ⊆ S) :
    ∑ a ∈ S, holding base ts a = base * S.card := by
  have hin : ∀ t ∈ ts, t.sender ∈ S ∧ t.receiver ∈ S := by
    intro t ht
    exact ⟨h (occurs_iff_mem_parties.mp ⟨t, ht, .inl rfl⟩),
      h (occurs_iff_mem_parties.mp ⟨t, ht, .inr rfl⟩)⟩
  clear h
  induction ts with
  | nil =>
      simp [mul_comm]
  | cons t ts ih =>
      obtain ⟨⟨hs, hr⟩, hts⟩ := List.forall_mem_cons.mp hin
      simp only [holding_cons]
      rw [Finset.sum_add_distrib, ih hts, sum_received_sub_sent hs hr, add_zero]

/-- While nobody is below zero, nobody holds more than all started with. -/
theorem holding_le (hnonneg : ∀ b, 0 ≤ holding base ts b) (ha : Occurs ts a) :
    holding base ts a ≤ base * (parties ts).card := by
  rw [← sum_holding base (Finset.Subset.refl _)]
  exact Finset.single_le_sum (fun b _ => hnonneg b) (occurs_iff_mem_parties.mp ha)

end Transfers
