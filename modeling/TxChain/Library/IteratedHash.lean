import TxChain.Library.Run

/-!
# Iterated hashing

A long message is hashed block by block: each block is compressed into the state that the
blocks before it have led to. Two messages that end in one state meet in it at some block,
where the compression collides, unless the blocks of one end the blocks of the other.
-/

namespace IteratedHash

universe u v

/-! ### Blocks -/

section Blocks

variable {α : Type u} {n : ℕ}

/-- The first `k` blocks of `n` symbols. -/
def take (n : ℕ) : ℕ → List α → List (List α)
  | 0, _ => []
  | k + 1, s => s.take n :: take n k (s.drop n)

/-- The whole blocks of a text. -/
def cut (n : ℕ) (s : List α) : List (List α) := take n (s.length / n) s

theorem take_flatten {blocks : List (List α)} (h : ∀ b ∈ blocks, b.length = n) (rest : List α) :
    take n blocks.length (blocks.flatten ++ rest) = blocks := by
  induction blocks with
  | nil => rfl
  | cons b blocks ih =>
      obtain ⟨hb, hothers⟩ := List.forall_mem_cons.mp h
      rw [List.length_cons, take, List.flatten_cons, List.append_assoc, List.take_left' hb,
        List.drop_left' hb, ih hothers]

theorem length_flatten {blocks : List (List α)} (h : ∀ b ∈ blocks, b.length = n) :
    blocks.flatten.length = blocks.length * n := by
  induction blocks with
  | nil => rw [List.flatten_nil, List.length_nil, List.length_nil, Nat.zero_mul]
  | cons b blocks ih =>
      obtain ⟨hb, hothers⟩ := List.forall_mem_cons.mp h
      rw [List.flatten_cons, List.length_append, hb, ih hothers, List.length_cons, Nat.succ_mul,
        Nat.add_comm]

/-- Blocks of the right size are the blocks of what they make up. -/
theorem cut_flatten (hn : 0 < n) {blocks : List (List α)} (h : ∀ b ∈ blocks, b.length = n) :
    cut n blocks.flatten = blocks := by
  have htake := take_flatten h []
  rw [List.append_nil] at htake
  rw [cut, length_flatten h, Nat.mul_div_cancel _ hn, htake]

theorem flatten_take {k : ℕ} {s : List α} (hs : s.length = k * n) : (take n k s).flatten = s := by
  induction k generalizing s with
  | zero =>
      rw [Nat.zero_mul] at hs
      rw [List.eq_nil_of_length_eq_zero hs]
      rfl
  | succ k ih =>
      rw [Nat.succ_mul] at hs
      rw [take, List.flatten_cons, ih (by rw [List.length_drop]; omega), List.take_append_drop]

/-- A text of whole blocks is made up of them. -/
theorem flatten_cut {s : List α} (h : n ∣ s.length) : (cut n s).flatten = s :=
  flatten_take (Nat.div_mul_cancel h).symm

end Blocks

/-! ### Collisions -/

section Collisions

variable {σ : Type u} {β : Type v} {compress : σ → β → σ}

/-- Two different inputs of the compression with the same output. -/
def Collision (compress : σ → β → σ) (p q : σ × β) : Prop :=
  p ≠ q ∧ compress p.1 p.2 = compress q.1 q.2

/-- Block lists of which neither ends the other lead to one state only through a collision. -/
theorem collision_of_foldl {s : σ} {xs ys : List β} (h : xs.foldl compress s = ys.foldl compress s)
    (hxy : ¬xs <:+ ys) (hyx : ¬ys <:+ xs) :
    ∃ p ∈ Run.moves compress s xs, ∃ q ∈ Run.moves compress s ys, Collision compress p q := by
  induction xs using List.reverseRecOn generalizing ys with
  | nil => exact absurd (List.nil_suffix) hxy
  | append_singleton xs x ih =>
      obtain rfl | ⟨ys, y, rfl⟩ := List.eq_nil_or_concat' ys
      · exact absurd (List.nil_suffix) hyx
      · rw [List.foldl_append, List.foldl_append, List.foldl_cons, List.foldl_nil, List.foldl_cons,
          List.foldl_nil] at h
        rw [Run.moves_concat, Run.moves_concat]
        by_cases heq : (xs.foldl compress s, x) = (ys.foldl compress s, y)
        · -- the collision is further in front
          obtain ⟨hstate, rfl⟩ := Prod.mk.inj heq
          obtain ⟨p, hp, q, hq, hcollision⟩ := ih hstate (mt List.suffix_append_self_iff.mpr hxy)
            (mt List.suffix_append_self_iff.mpr hyx)
          exact ⟨p, List.mem_append_left _ hp, q, List.mem_append_left _ hq, hcollision⟩
        · exact ⟨_, List.mem_concat_self, _, List.mem_concat_self, heq, h⟩

end Collisions

end IteratedHash
