import TxChain.Chain.Ownership
import TxChain.Library.Run
import TxChain.Library.Undo

/-!
# The undo log

Committing a block records the account of every sender and receiver before the
block is applied, with repetitions and with `{0, 0}` for absent addresses. Nothing
reads the log yet; it is kept for rolling a chain back. Writing the newest entries
back takes the accounts to where they were that many blocks ago.
-/

namespace TxChain

namespace Chain

/-- The undo log as plain lists of pre-images, one for each block after genesis. -/
def undoEntries (c : Chain) : List (List (Address × AccountState)) :=
  c.undoLog.map CommitDelta.touched

/-- The committed accounts with the last `k` blocks taken back, newest first. -/
def rollback (c : Chain) (k : ℕ) : Address → AccountState :=
  Undo.rollback c.account (c.undoEntries.reverse.take k)

variable [Crypto] {c c' : Chain} {b : Block} {now_s : UInt64}

/-- Every address the gate writes is recorded with its value before the block. -/
theorem Commits.inverse (h : Commits c b now_s c') :
    Undo.Inverse c.account c'.account (preImages c.state b.txns) where
  exact := by
    intro p hp
    obtain ⟨t, -, hp⟩ := List.mem_flatMap.mp hp
    rcases List.mem_pair.mp hp with rfl | rfl
    · rfl
    · rfl
  covers := by
    intro a ha
    rw [account, account, h.state]
    refine (history_of_applyBlockTxns h.applied).frame fun t ht => ?_
    have hfrom : (t.from, c.state.lookup t.from) ∈ preImages c.state b.txns :=
      List.mem_flatMap.mpr ⟨t, ht, by simp⟩
    have hto : (t.to, c.state.lookup t.to) ∈ preImages c.state b.txns :=
      List.mem_flatMap.mpr ⟨t, ht, by simp⟩
    exact ⟨ha _ hfrom, ha _ hto⟩

theorem connect_logs (c : Chain) (input : Block × UInt64) :
    Undo.Logs account undoEntries c (c.connect input) := by
  rcases connect_cases c input with ⟨-, hc⟩ | ⟨-, hc⟩
  · exact .inr ⟨preImages c.state input.1.txns, by simp [undoEntries, hc.undoLog], hc.inverse⟩
  · exact .inl ⟨by rw [hc], by rw [hc]⟩

/-- One undo entry for each block after genesis, and no height that wraps. -/
structure Recorded (c : Chain) : Prop where
  bounded : c.Bounded
  entries : c.undoLog.length + 1 = c.blocks.length

theorem new_recorded (D : UInt32) (reward : UInt64) : (new D reward).Recorded :=
  ⟨new_bounded D reward, rfl⟩

theorem Recorded.connect (h : c.Recorded) (input : Block × UInt64) :
    (c.connect input).Recorded := by
  refine ⟨h.bounded.connect input, ?_⟩
  rcases connect_cases c input with ⟨-, hc⟩ | ⟨-, hc⟩
  · rw [hc.undoLog, hc.length, ← h.entries, List.length_append, List.length_singleton]
  · rw [hc, h.entries]

omit [Crypto] in
theorem Recorded.height (h : c.Recorded) : c.height.toNat = c.undoEntries.length := by
  rw [h.bounded.height_toNat, ← h.entries, undoEntries, List.length_map, Nat.add_sub_cancel]

end Chain

variable [Crypto]

/-- A reachable chain passed through every height up to its own, and taking back its last
`k` blocks gives, at every address, the accounts it had `k` blocks ago. -/
theorem undo_log_inverts_commits (D : UInt32) (reward : UInt64) (inputs : List (Block × UInt64))
    (k : ℕ) :
    let visited := inputs.scanl Chain.connect (Chain.new D reward)
    let c := inputs.foldl Chain.connect (Chain.new D reward)
    (∃ past ∈ visited, past.height.toNat = c.height.toNat - k) ∧
      ∀ past ∈ visited, past.height.toNat = c.height.toNat - k →
        ∀ a, c.rollback k a = past.account a := by
  intro visited c
  have hvisited : ∀ past ∈ visited, Chain.Recorded past :=
    Run.invariant_mem (fun _ i _ hs => hs.connect i) (Chain.new_recorded D reward)
  have hc : c.Recorded :=
    Run.invariant (fun _ i hs => hs.connect i) (Chain.new_recorded D reward) inputs
  have hstart : (Chain.new D reward).undoEntries = [] := rfl
  rw [hc.height]
  constructor
  · obtain ⟨past, hmem, hlen⟩ :=
      Undo.exists_length Chain.connect_logs hstart (Nat.sub_le c.undoEntries.length k)
    exact ⟨past, hmem, by rw [(hvisited past hmem).height, hlen]⟩
  · intro past hmem hheight a
    rw [(hvisited past hmem).height] at hheight
    exact congrFun (Undo.rollback_eq Chain.connect_logs hmem hheight) a

end TxChain
