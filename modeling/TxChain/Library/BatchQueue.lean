import TxChain.Library.Run

/-!
# Queues that are served in batches

The state of a system shows a queue. Some steps serve the first `k` items of it, all others
at most append to it. An item then waits for as many batches as the items in front of it
fill, and one more, whatever else happens. The same holds of batches that are copied from
the queue before they are served, if they were copied after the item had joined it.
-/

namespace BatchQueue

universe u v w

variable {σ : Type u} {ι : Type v} {α : Type w}

/-- What a step does to the queue and to the items that are done. -/
structure Served (queue : σ → List α) (done : σ → α → Prop) (k : ℕ) (serves : Bool) (s s' : σ) :
    Prop where
  /-- Nothing that is done is undone. -/
  stays : ∀ x, done s x → done s' x
  idle : serves = false → queue s <+: queue s'
  rest : serves = true → queue s' = (queue s).drop k
  batch : serves = true → ∀ x ∈ (queue s).take k, done s' x

variable {step : σ → ι → σ} {queue : σ → List α} {done : σ → α → Prop}
  {serves : σ → ι → Bool} {k : ℕ}

/-- How many steps of a run serve a batch. -/
def batches (step : σ → ι → σ) (serves : σ → ι → Bool) (s : σ) (is : List ι) : ℕ :=
  (Run.moves step s is).countP fun m => serves m.1 m.2

theorem batches_cons (s : σ) (i : ι) (is : List ι) :
    batches step serves s (i :: is) =
      batches step serves (step s i) is + if serves s i = true then 1 else 0 := by
  rw [batches, Run.moves, List.countP_cons]
  rfl

theorem done_stays {s : σ} {is : List ι}
    (h : ∀ m ∈ Run.moves step s is, ∀ x, done m.1 x → done (step m.1 m.2) x)
    {x : α} (hx : done s x) :
    done (is.foldl step s) x := by
  induction is generalizing s with
  | nil => exact hx
  | cons i is ih =>
      obtain ⟨hi, his⟩ := List.forall_mem_cons.mp h
      exact ih his (hi x hx)

/-- An item is done once the batches reach past the items that were in front of it. -/
theorem done_of_batches {s : σ} {is : List ι}
    (h : ∀ m ∈ Run.moves step s is, Served queue done k (serves m.1 m.2) m.1 (step m.1 m.2))
    {front back : List α} {x : α} (hwaits : queue s = front ++ x :: back)
    (hbatches : front.length < k * batches step serves s is) : done (is.foldl step s) x := by
  induction is generalizing s front back with
  | nil => exact absurd hbatches (Nat.not_lt_zero _)
  | cons i is ih =>
      obtain ⟨hi, his⟩ := List.forall_mem_cons.mp h
      rw [batches_cons] at hbatches
      cases hserves : serves s i with
      | false =>
          obtain ⟨joined, hjoined⟩ := hi.idle hserves
          rw [hserves, if_neg Bool.false_ne_true, Nat.add_zero] at hbatches
          have hnext : queue (step s i) = front ++ x :: (back ++ joined) := by
            rw [← hjoined, hwaits, List.append_assoc, List.cons_append]
          exact ih his hnext hbatches
      | true =>
          rw [hserves, if_pos rfl, Nat.mul_succ] at hbatches
          by_cases hreached : front.length < k
          · -- the item is in this batch
            refine done_stays (fun m hm => (his m hm).stays) (hi.batch hserves x ?_)
            rw [hwaits, List.take_append, List.mem_append]
            right
            obtain ⟨m, hm⟩ := Nat.exists_eq_add_of_lt hreached
            have hroom : k - front.length = m + 1 := by omega
            rw [hroom, List.take_succ_cons]
            exact List.mem_cons_self
          · have hnext : queue (step s i) = front.drop k ++ x :: back := by
              rw [hi.rest hserves, hwaits, List.drop_append_of_le_length (Nat.not_lt.mp hreached)]
            refine ih his hnext ?_
            rw [List.length_drop]
            omega

/-! ### Batches that are prepared ahead -/

/-- A batch is a copy of the front of the queue, made in one step and served in a later one. -/
structure Prepared (queue : σ → List α) (batch : σ → Option (List α)) (done : σ → α → Prop) (k : ℕ)
    (serves : Bool) (s s' : σ) : Prop where
  stays : ∀ x, done s x → done s' x
  idle : serves = false → queue s <+: queue s' ∧
    (batch s' = batch s ∨ batch s' = none ∨ batch s' = some ((queue s').take k))
  served : serves = true → ∃ b, batch s = some b ∧ batch s' = none ∧
    queue s' = (queue s).drop b.length ∧ ∀ x ∈ b, done s' x

/-- A batch that was made since the item at `j` has joined the queue. -/
def Covers (queue : List α) (batch : Option (List α)) (k j : ℕ) : Prop :=
  ∀ b, batch = some b → b <+: queue ∧ (j < b.length ∨ k ≤ b.length)

theorem covers_none (queue : List α) (k j : ℕ) : Covers queue none k j := nofun

theorem covers_take {queue : List α} {j : ℕ} (h : j < queue.length) (k : ℕ) :
    Covers queue (some (queue.take k)) k j := by
  intro b hb
  obtain rfl := Option.some.inj hb
  refine ⟨List.take_prefix _ _, ?_⟩
  rw [List.length_take]
  omega

variable {batch : σ → Option (List α)}

/-- What a batch that covers an item does not reach stands in front of the item afterwards. -/
theorem Covers.mem_or_behind {front back : List α} {x : α} {b : List α}
    (hb : b <+: front ++ x :: back) (hcovers : front.length < b.length ∨ k ≤ b.length) :
    x ∈ b ∨ (k ≤ b.length ∧ b.length ≤ front.length ∧
      (front ++ x :: back).drop b.length = front.drop b.length ++ x :: back) := by
  by_cases hreached : front.length < b.length
  · left
    have hget : (front ++ x :: back)[front.length]? = some x := by simp
    rw [List.prefix_iff_getElem?.mp hb front.length hreached] at hget
    rw [← Option.some.inj hget]
    exact List.getElem_mem hreached
  · right
    have hshort := Nat.not_lt.mp hreached
    exact ⟨hcovers.resolve_left hreached, hshort, List.drop_append_of_le_length hshort⟩

/-- An item that waits is done or waits at most as far behind after any run. -/
theorem waits_or_done {s : σ} {is : List ι}
    (h : ∀ m ∈ Run.moves step s is, Prepared queue batch done k (serves m.1 m.2) m.1 (step m.1 m.2))
    {front back : List α} {x : α} (hwaits : queue s = front ++ x :: back)
    (hfront : ∀ b, batch s = some b → b <+: queue s) :
    done (is.foldl step s) x ∨ ∃ front' back', queue (is.foldl step s) = front' ++ x :: back' ∧
      front'.length ≤ front.length := by
  induction is generalizing s front back with
  | nil => exact .inr ⟨front, back, hwaits, Nat.le_refl _⟩
  | cons i is ih =>
      obtain ⟨hi, his⟩ := List.forall_mem_cons.mp h
      cases hserves : serves s i with
      | false =>
          obtain ⟨⟨joined, hjoined⟩, hbatch⟩ := hi.idle hserves
          have hnext : queue (step s i) = front ++ x :: (back ++ joined) := by
            rw [← hjoined, hwaits, List.append_assoc, List.cons_append]
          refine ih his hnext fun b hb => ?_
          obtain hsame | hnone | hmade := hbatch
          · rw [hsame] at hb
            exact (hfront b hb).trans ⟨joined, hjoined⟩
          · rw [hnone] at hb
            cases hb
          · rw [hmade] at hb
            obtain rfl := Option.some.inj hb
            exact List.take_prefix _ _
      | true =>
          obtain ⟨b, hb, hnone, hrest, hdone⟩ := hi.served hserves
          have hprefix := hfront b hb
          rw [hwaits] at hprefix hrest
          obtain hmem | ⟨-, hshort, hbehind⟩ := Covers.mem_or_behind hprefix (.inr (Nat.zero_le _))
          · exact .inl (done_stays (fun m hm => (his m hm).stays) (hdone x hmem))
          · rw [hbehind] at hrest
            obtain hdone | ⟨front', back', hwaits', hle⟩ := ih his hrest
              (by rw [hnone]; exact nofun)
            · exact .inl hdone
            · rw [List.length_drop] at hle
              exact .inr ⟨front', back', hwaits', by omega⟩

/-- An item is done once the batches that were made since it joined the queue reach past it. -/
theorem done_of_prepared {s : σ} {is : List ι}
    (h : ∀ m ∈ Run.moves step s is, Prepared queue batch done k (serves m.1 m.2) m.1 (step m.1 m.2))
    {front back : List α} {x : α} (hwaits : queue s = front ++ x :: back)
    (hcovers : Covers (queue s) (batch s) k front.length)
    (hbatches : front.length < k * batches step serves s is) : done (is.foldl step s) x := by
  induction is generalizing s front back with
  | nil => exact absurd hbatches (Nat.not_lt_zero _)
  | cons i is ih =>
      obtain ⟨hi, his⟩ := List.forall_mem_cons.mp h
      rw [batches_cons] at hbatches
      cases hserves : serves s i with
      | false =>
          obtain ⟨⟨joined, hjoined⟩, hbatch⟩ := hi.idle hserves
          rw [hserves, if_neg Bool.false_ne_true, Nat.add_zero] at hbatches
          have hnext : queue (step s i) = front ++ x :: (back ++ joined) := by
            rw [← hjoined, hwaits, List.append_assoc, List.cons_append]
          refine ih his hnext ?_ hbatches
          obtain hsame | hnone | hmade := hbatch
          · rw [hsame]
            intro b hb
            obtain ⟨hfront, hreach⟩ := hcovers b hb
            exact ⟨hfront.trans ⟨joined, hjoined⟩, hreach⟩
          · rw [hnone]
            exact covers_none _ _ _
          · rw [hmade]
            exact covers_take (by rw [hnext]; simp) k
      | true =>
          obtain ⟨b, hb, hnone, hrest, hdone⟩ := hi.served hserves
          rw [hserves, if_pos rfl, Nat.mul_succ] at hbatches
          obtain ⟨hfront, hreach⟩ := hcovers b hb
          rw [hwaits] at hfront hrest
          obtain hmem | ⟨hlong, hshort, hbehind⟩ := Covers.mem_or_behind hfront hreach
          · exact done_stays (fun m hm => (his m hm).stays) (hdone x hmem)
          · rw [hbehind] at hrest
            refine ih his hrest (by rw [hnone]; exact covers_none _ _ _) ?_
            rw [List.length_drop]
            omega

end BatchQueue
