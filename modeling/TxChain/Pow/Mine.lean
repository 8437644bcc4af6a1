import TxChain.Library.Polling
import TxChain.Pow.Candidate
import TxChain.Pow.Target

/-!
# The nonce search

`mine` tries the nonces from zero on, starts over with the next timestamp when they are
exhausted, and reads the stop flag at every nonce whose low fourteen bits are zero. The
turns of the loop count through nonces and timestamps together, so the loop is a search
over the natural numbers.
-/

namespace TxChain

open Polling

/-- What the search returns, the headers it hashed in order and the values it read from the flag. -/
structure Mined where
  block : Option Block
  hashed : List BlockHeader
  reads : List Bool

section Mine

variable [Crypto]

/-- The loop, from a candidate and a nonce on; `stop i` is what a read after `i` hashes gives. -/
def mineFrom (difficulty : UInt32) (stop : ℕ → Bool) :
    ℕ → Candidate → UInt64 → List BlockHeader → List Bool → Option Mined
  | 0, _, _, _, _ => none
  | fuel + 1, cand, nonce, hashed, reads =>
      let polls : Bool := nonce &&& 0x3FFF = 0
      let flag := stop hashed.length
      let reads := if polls then reads ++ [flag] else reads
      if polls && flag then some ⟨none, hashed, reads⟩
      else
        let hdr := { cand.hdr with nonce }
        let hashed := hashed ++ [hdr]
        if meetsDifficulty hdr.hash difficulty then
          some ⟨some { header := hdr, txns := cand.txns }, hashed, reads⟩
        else if nonce = 0xFFFFFFFFFFFFFFFF then
          mineFrom difficulty stop fuel
            { cand with hdr := { hdr with timestamp := hdr.timestamp + 1 } } 0 hashed reads
        else mineFrom difficulty stop fuel { cand with hdr } (nonce + 1) hashed reads

def mine (fuel : ℕ) (cand : Candidate) (difficulty : UInt32) (stop : ℕ → Bool) : Option Mined :=
  mineFrom difficulty stop fuel cand 0 [] []

/-- The search ends, after however many turns, and returns this. -/
def Mines (cand : Candidate) (difficulty : UInt32) (stop : ℕ → Bool) (r : Mined) : Prop :=
  ∃ fuel, mine fuel cand difficulty stop = some r

end Mine

section Turns

/-- The candidate's header at a later timestamp and with some nonce. -/
def Candidate.header (cand : Candidate) (k : ℕ) (nonce : UInt64) : BlockHeader :=
  { cand.hdr with timestamp := cand.hdr.timestamp + UInt64.ofNat k, nonce }

/-- The header that turn `i` hashes. -/
def Candidate.attempt (cand : Candidate) (i : ℕ) : BlockHeader :=
  cand.header (i / 2 ^ 64) (UInt64.ofNat i)

/-! ### Turns and nonces -/

theorem toNat_ofNat_turn (i : ℕ) : (UInt64.ofNat i).toNat = i % 2 ^ 64 := UInt64.toNat_ofNat'

theorem polls_iff (i : ℕ) : UInt64.ofNat i &&& 0x3FFF = 0 ↔ i % 2 ^ 14 = 0 := by
  have hmask : (UInt64.ofNat i &&& 0x3FFF).toNat = i % 2 ^ 14 := by
    rw [UInt64.toNat_and, toNat_ofNat_turn]
    have hlow := Nat.and_two_pow_sub_one_eq_mod (i % 2 ^ 64) 14
    rw [Nat.mod_mod_of_dvd i (Nat.pow_dvd_pow 2 (by omega))] at hlow
    exact hlow
  rw [← UInt64.toNat_inj, hmask]
  rfl

/-- The flag is read again within `2 ^ 14` turns, past the last nonce as well. -/
theorem polls_within (i : ℕ) :
    ∃ j, i < j ∧ j ≤ i + 2 ^ 14 ∧ decide (UInt64.ofNat j &&& 0x3FFF = 0) = true := by
  refine ⟨(i / 2 ^ 14 + 1) * 2 ^ 14, ?_, ?_, ?_⟩
  · omega
  · omega
  · rw [decide_eq_true_eq, polls_iff, Nat.mul_mod_left]

/-- The last nonce is followed by the first one of the next timestamp. -/
theorem turn_wraps {i : ℕ} (h : UInt64.ofNat i = 0xFFFFFFFFFFFFFFFF) :
    UInt64.ofNat (i + 1) = 0 ∧ (i + 1) / 2 ^ 64 = i / 2 ^ 64 + 1 := by
  have hlast := congrArg UInt64.toNat h
  rw [toNat_ofNat_turn] at hlast
  have hvalue : (0xFFFFFFFFFFFFFFFF : UInt64).toNat = 2 ^ 64 - 1 := rfl
  rw [hvalue] at hlast
  refine ⟨?_, by omega⟩
  rw [← UInt64.toNat_inj, toNat_ofNat_turn, UInt64.toNat_zero]
  omega

theorem turn_steps {i : ℕ} (h : UInt64.ofNat i ≠ 0xFFFFFFFFFFFFFFFF) :
    UInt64.ofNat (i + 1) = UInt64.ofNat i + 1 ∧ (i + 1) / 2 ^ 64 = i / 2 ^ 64 := by
  have hnext : UInt64.ofNat (i + 1) = UInt64.ofNat i + 1 := UInt64.ofNat_add i 1
  refine ⟨hnext, ?_⟩
  have hlast : i % 2 ^ 64 ≠ 2 ^ 64 - 1 := by
    intro hlast
    refine h (UInt64.toNat_inj.mp ?_)
    rw [toNat_ofNat_turn, hlast]
    rfl
  omega

/-- Nonces and timestamps in the order in which the loop goes through them. -/
theorem attempt_of_pair (cand : Candidate) (k : ℕ) (n : UInt64) :
    cand.attempt (k * 2 ^ 64 + n.toNat) = cand.header k n := by
  have hbound := n.toNat_lt
  have hk : (k * 2 ^ 64 + n.toNat) / 2 ^ 64 = k := by omega
  have hn : UInt64.ofNat (k * 2 ^ 64 + n.toNat) = n := by
    rw [← UInt64.toNat_inj, toNat_ofNat_turn]
    omega
  rw [Candidate.attempt, hk, hn]

/-- The loop has come to turn `i`. -/
structure Candidate.At (cand : Candidate) (i : ℕ) (cur : Candidate) (nonce : UInt64) : Prop where
  hdr : { cur.hdr with nonce } = cand.attempt i
  nonce_eq : nonce = UInt64.ofNat i
  txns : cur.txns = cand.txns

variable {cand cur : Candidate} {i : ℕ} {nonce : UInt64}

theorem Candidate.At.start (cand : Candidate) : cand.At 0 cand 0 where
  hdr := by
    rw [Candidate.attempt, Candidate.header, Nat.zero_div]
    simp
  nonce_eq := rfl
  txns := rfl

theorem Candidate.At.wrap (h : cand.At i cur nonce) (hlast : nonce = 0xFFFFFFFFFFFFFFFF) :
    cand.At (i + 1)
      { cur with hdr := { cur.hdr with nonce, timestamp := cur.hdr.timestamp + 1 } } 0 := by
  obtain ⟨hnonce, htime⟩ := turn_wraps (h.nonce_eq.symm.trans hlast)
  refine ⟨?_, hnonce.symm, h.txns⟩
  have hstamp := congrArg BlockHeader.timestamp h.hdr
  have hindex := congrArg BlockHeader.index h.hdr
  have hprev := congrArg BlockHeader.prevHash h.hdr
  have htxns := congrArg BlockHeader.txnsHash h.hdr
  simp only [Candidate.attempt, Candidate.header] at hstamp hindex hprev htxns ⊢
  rw [htime, hnonce, hstamp, hindex, hprev, htxns, UInt64.ofNat_add, UInt64.add_assoc]
  rfl

theorem Candidate.At.step (h : cand.At i cur nonce) (hmore : nonce ≠ 0xFFFFFFFFFFFFFFFF) :
    cand.At (i + 1) { cur with hdr := { cur.hdr with nonce } } (nonce + 1) := by
  obtain ⟨hnonce, htime⟩ := turn_steps (fun hlast => hmore (h.nonce_eq.trans hlast))
  refine ⟨?_, ?_, h.txns⟩
  · have hheader := congrArg (fun hdr : BlockHeader => { hdr with nonce := nonce + 1 }) h.hdr
    simp only [Candidate.attempt, Candidate.header] at hheader ⊢
    rw [htime, hnonce, ← h.nonce_eq]
    exact hheader
  · rw [hnonce, h.nonce_eq]

end Turns

/-! ### The loop is a search over its turns -/

section Search

variable [Crypto] {cand cur : Candidate} {difficulty : UInt32} {stop : ℕ → Bool} {i : ℕ}
  {nonce : UInt64}

/-- The turns that read the flag. -/
def pollTurn (i : ℕ) : Bool := UInt64.ofNat i &&& 0x3FFF = 0

/-- The turns that find a block. -/
def Candidate.solves (cand : Candidate) (difficulty : UInt32) (i : ℕ) : Bool :=
  meetsDifficulty (cand.attempt i).hash difficulty

/-- The end of the search over turns, as the loop's result. -/
def Candidate.outcome (cand : Candidate) (r : Outcome) : Mined :=
  ⟨r.found.map fun i => { header := cand.attempt i, txns := cand.txns },
    r.tried.map cand.attempt, r.reads⟩

theorem mineFrom_eq (h : cand.At i cur nonce) (fuel : ℕ) {tried : List ℕ}
    (hlength : tried.length = i) (reads : List Bool) :
    mineFrom difficulty stop fuel cur nonce (tried.map cand.attempt) reads =
      (search pollTurn stop (cand.solves difficulty) fuel i tried reads).map cand.outcome := by
  induction fuel generalizing i cur nonce tried reads with
  | zero => rfl
  | succ fuel ih =>
      have hpoll : decide (nonce &&& 0x3FFF = 0) = pollTurn i := by rw [pollTurn, h.nonce_eq]
      have hflag : (tried.map cand.attempt).length = i := by rw [List.length_map, hlength]
      have hhashed : tried.map cand.attempt ++ [{ cur.hdr with nonce }] =
          (tried ++ [i]).map cand.attempt := by
        rw [List.map_append, h.hdr]
        rfl
      have hnext : (tried ++ [i]).length = i + 1 := by rw [List.length_append, hlength]; rfl
      have hsolves : meetsDifficulty { cur.hdr with nonce }.hash difficulty =
          cand.solves difficulty i := by rw [Candidate.solves, h.hdr]
      rw [mineFrom, search, hpoll, hflag]
      dsimp only
      rw [hsolves, hhashed]
      by_cases hstop : (pollTurn i && stop i) = true
      · rw [if_pos hstop, if_pos hstop]
        rfl
      · rw [if_neg hstop, if_neg hstop]
        by_cases hfound : cand.solves difficulty i = true
        · rw [if_pos hfound, if_pos hfound, h.hdr, h.txns]
          rfl
        · rw [if_neg hfound, if_neg hfound]
          by_cases hlast : nonce = 0xFFFFFFFFFFFFFFFF
          · rw [if_pos hlast]
            exact ih (h.wrap hlast) hnext _
          · rw [if_neg hlast]
            exact ih (h.step hlast) hnext _

theorem mine_eq (fuel : ℕ) (cand : Candidate) (difficulty : UInt32) (stop : ℕ → Bool) :
    mine fuel cand difficulty stop =
      (search pollTurn stop (cand.solves difficulty) fuel 0 [] []).map cand.outcome :=
  mineFrom_eq (Candidate.At.start cand) fuel (rfl : ([] : List ℕ).length = 0) []

/-- How a search went that has ended. Turn `i` reads the flag if the mask says so, and hashes the
`i`-th header in the order of timestamps and nonces. -/
structure Mined.Sound (cand : Candidate) (difficulty : UInt32) (stop : ℕ → Bool) (r : Mined) :
    Prop where
  hashed : r.hashed = (List.range r.hashed.length).map cand.attempt
  unset : ∀ i < r.hashed.length, pollTurn i = true → stop i = false
  found : ∀ b, r.block = some b →
    b.txns = cand.txns ∧ r.reads = readings pollTurn stop r.hashed.length ∧
      ∃ (k : ℕ) (n : UInt64), r.hashed.length = k * 2 ^ 64 + n.toNat + 1 ∧
        b.header = cand.header k n ∧ meetsDifficulty b.header.hash difficulty = true ∧
          ∀ (k' : ℕ) (n' : UInt64), k' < k ∨ (k' = k ∧ n' < n) →
            meetsDifficulty (cand.header k' n').hash difficulty = false
  stopped : r.block = none →
    pollTurn r.hashed.length = true ∧ stop r.hashed.length = true ∧
      r.reads = readings pollTurn stop (r.hashed.length + 1) ∧
        ∀ hdr ∈ r.hashed, meetsDifficulty hdr.hash difficulty = false

omit [Crypto] in
/-- Earlier pairs are earlier turns. -/
theorem turn_lt {i k' : ℕ} {n' : UInt64}
    (h : k' < i / 2 ^ 64 ∨ (k' = i / 2 ^ 64 ∧ n' < UInt64.ofNat i)) :
    k' * 2 ^ 64 + n'.toNat < i := by
  have hbound := n'.toNat_lt
  rcases h with hk | ⟨rfl, hn⟩
  · omega
  · rw [UInt64.lt_iff_toNat_lt, toNat_ofNat_turn] at hn
    omega

theorem Candidate.outcome_sound {o : Outcome}
    (h : o.Sound pollTurn stop (cand.solves difficulty)) :
    (cand.outcome o).Sound cand difficulty stop := by
  have hlength : (cand.outcome o).hashed.length = o.tried.length := List.length_map ..
  refine ⟨?_, ?_, ?_, ?_⟩
  · rw [hlength, ← h.tried]
    rfl
  · rw [hlength]
    exact h.unset
  · intro b hb
    obtain ⟨i, hfound, rfl⟩ := Option.map_eq_some_iff.mp hb
    obtain ⟨htried, hreads, hsolves, hfails⟩ := h.found i hfound
    refine ⟨rfl, ?_, i / 2 ^ 64, UInt64.ofNat i, ?_, rfl, hsolves, ?_⟩
    · rw [hlength, htried]
      exact hreads
    · rw [hlength, htried, toNat_ofNat_turn]
      omega
    · intro k' n' hearlier
      have hfail := hfails _ (turn_lt hearlier)
      rwa [Candidate.solves, attempt_of_pair] at hfail
  · intro hnone
    rw [hlength]
    obtain ⟨hpoll, hstop, hreads, hfails⟩ := h.stopped (Option.map_eq_none_iff.mp hnone)
    refine ⟨hpoll, hstop, hreads, ?_⟩
    intro hdr hhdr
    obtain ⟨i, hi, rfl⟩ := List.mem_map.mp hhdr
    rw [h.tried, List.mem_range] at hi
    exact hfails i hi

/-- A returned block is the candidate's with the first timestamp and nonce that meet the
difficulty; nothing is returned only in a turn that reads the flag as set; and once the flag stays
set, from within any turn `m` on, the search ends within `2 ^ 14` further hashes. -/
theorem nonce_search_correct (cand : Candidate) (difficulty : UInt32) (stop : ℕ → Bool) :
    (∀ r, Mines cand difficulty stop r → r.Sound cand difficulty stop) ∧
    ∀ m, (∀ i, m < i → stop i = true) →
      ∃ r, Mines cand difficulty stop r ∧ r.hashed.length ≤ m + 2 ^ 14 := by
  constructor
  · rintro r ⟨fuel, hrun⟩
    rw [mine_eq] at hrun
    obtain ⟨o, hsearch, rfl⟩ := Option.map_eq_some_iff.mp hrun
    exact Candidate.outcome_sound (search_sound hsearch)
  · intro m hstop
    obtain ⟨fuel, o, hsearch, htried⟩ :=
      search_stops (cand.solves difficulty) polls_within hstop
    refine ⟨cand.outcome o, ⟨fuel, ?_⟩, ?_⟩
    · rw [mine_eq]
      exact congrArg (Option.map cand.outcome) hsearch
    · rwa [Candidate.outcome, List.length_map]

/-- A flag that is set from the start is seen before the first hash. -/
example (cand : Candidate) : mine 1 cand 240 (fun _ => true) = some ⟨none, [], [true]⟩ := rfl

end Search

section Samples

attribute [local instance] sampleKeys

/-- The coinbase alone, on genesis. -/
def emptyCandidate : Candidate where
  hdr := ((Chain.new 0 coinbaseReward).nextBlock 0 [coinbaseTxn oliver 1]).header
  txns := [coinbaseTxn oliver 1]

/-- No hash has three hundred leading zeros, so a flag that is set after the first hash ends the
search at the next turn that reads it. -/
theorem hopeless_search_stops :
    ∃ r, Mines emptyCandidate 300 (fun i => 0 < i) r ∧ r.block = none ∧
      r.hashed.length = 2 ^ 14 ∧ r.reads.getLast? = some true := by
  obtain ⟨hsound, hstops⟩ := nonce_search_correct emptyCandidate 300 fun i => 0 < i
  obtain ⟨r, hrun, hfew⟩ := hstops 0 fun i hi => decide_eq_true hi
  have hturns := hsound r hrun
  have hnone : r.block = none := by
    rw [Option.eq_none_iff_forall_ne_some]
    intro b hb
    obtain ⟨-, -, k, n, -, -, hmeets, -⟩ := hturns.found b hb
    exact absurd ((meetsDifficulty_iff _ _).mp hmeets).1 (by decide)
  obtain ⟨hpoll, hstop, hreads, -⟩ := hturns.stopped hnone
  have hmask := (polls_iff r.hashed.length).mp (of_decide_eq_true hpoll)
  have hlater : 0 < r.hashed.length := of_decide_eq_true hstop
  have hlength : r.hashed.length = 2 ^ 14 := by omega
  refine ⟨r, hrun, hnone, hlength, ?_⟩
  rw [hreads, readings_succ, if_pos hpoll, hstop, List.getLast?_concat]

end Samples

end TxChain
