import TxChain.Library.Run
import TxChain.Serialize.Lossless
import TxChain.Chain.Store

/-!
# The store as a list

Appends and rewrites that succeed act on the file as on a list of blocks: an append
adds one at the end and a rewrite puts another list in its place. A missing file
counts as the empty list until it is opened for reading, which creates nothing.
-/

namespace TxChain

inductive StoreOp where
  | append (b : Block)
  | rewrite (blocks : List Block)

/-- An operation, and how its system calls go. -/
structure StoreCall where
  op : StoreOp
  io : AppendOutcome

namespace StoreCall

/-- The blocks that the call hands to the store. -/
def blocks (call : StoreCall) : List Block :=
  match call.op with
  | .append b => [b]
  | .rewrite blocks => blocks

/-- What the call makes of the logical list. -/
def logical (list : List Block) (call : StoreCall) : List Block :=
  match call.op with
  | .append b => list ++ [b]
  | .rewrite blocks => blocks

section Calls

variable [Crypto]

def run (store : ChainStore) (fs : FileSystem) (call : StoreCall) : Bool × FileSystem :=
  match call.op with
  | .append b => store.appendBlock fs call.io b
  | .rewrite blocks => store.rewrite fs call.io blocks

/-- The files after the call. -/
def apply (store : ChainStore) (fs : FileSystem) (call : StoreCall) : FileSystem :=
  (call.run store fs).2

end Calls

end StoreCall

section StoreRuns

variable [Crypto] {store : ChainStore} {fs : FileSystem} {call : StoreCall} {list : List Block}
  {calls : List StoreCall}

/-- The file holds the lines of the list; a missing file holds none. -/
def ChainStore.Represents (store : ChainStore) (fs : FileSystem) (list : List Block) : Prop :=
  (fs store.path).getD [] = Lines.unlines '\n' (list.map toJsonLine)

/-- A call that succeeds leaves a file that is there. -/
theorem StoreCall.apply_holds (hrep : store.Represents fs list)
    (hok : (call.run store fs).1 = true) :
    store.Holds (call.apply store fs) (StoreCall.logical list call) := by
  obtain ⟨op, io⟩ := call
  cases op with
  | append b => exact ChainStore.holds_appendBlock hrep hok
  | rewrite blocks => exact ChainStore.holds_rewrite hok

theorem ChainStore.Holds.represents (h : store.Holds fs list) : store.Represents fs list := by
  rw [ChainStore.Represents, h]
  rfl

/-- The file keeps to the logical list through every run of calls that succeed. -/
theorem run_represents (hfresh : (fs store.path).getD [] = [])
    (hok : ∀ m ∈ Run.moves (StoreCall.apply store) fs calls, (m.2.run store m.1).1 = true) :
    store.Represents (calls.foldl (StoreCall.apply store) fs)
      (calls.foldl StoreCall.logical []) := by
  have hstart : store.Represents fs [] := hfresh
  refine Run.simulation (R := store.Represents)
    (C := fun fs (call : StoreCall) => (call.run store fs).1 = true) ?_ hstart hok
  exact fun _ _ _ hcall hrep => (StoreCall.apply_holds hrep hcall).represents

/-- After a call the file is there. -/
theorem run_exists (hopened : fs store.path ≠ none ∨ calls ≠ [])
    (hfresh : (fs store.path).getD [] = [])
    (hok : ∀ m ∈ Run.moves (StoreCall.apply store) fs calls, (m.2.run store m.1).1 = true) :
    calls.foldl (StoreCall.apply store) fs store.path ≠ none := by
  induction calls using List.reverseRecOn with
  | nil => exact hopened.resolve_right fun h => h rfl
  | append_singleton calls call _ =>
      rw [Run.moves_concat, List.forall_mem_append, List.forall_mem_singleton] at hok
      rw [List.foldl_append, List.foldl_cons, List.foldl_nil,
        StoreCall.apply_holds (run_represents hfresh hok.1) hok.2]
      exact Option.some_ne_none _

omit [Crypto] in
/-- The list holds only blocks that some call brought. -/
theorem logical_mem (calls : List StoreCall) :
    ∀ b ∈ calls.foldl StoreCall.logical [], ∃ call ∈ calls, b ∈ call.blocks := by
  induction calls using List.reverseRecOn with
  | nil => simp
  | append_singleton calls call ih =>
      intro b hb
      rw [List.foldl_append, List.foldl_cons, List.foldl_nil] at hb
      obtain ⟨op, io⟩ := call
      cases op with
      | append b' =>
          rcases List.mem_append.mp hb with hold | hnew
          · obtain ⟨call, hcall, hmem⟩ := ih b hold
            exact ⟨call, List.mem_append_left _ hcall, hmem⟩
          · exact ⟨_, List.mem_append_right _ (List.mem_singleton_self _), hnew⟩
      | rewrite blocks => exact ⟨_, List.mem_append_right _ (List.mem_singleton_self _), hb⟩

variable [Picojson]

/-- Operations that succeed, starting from an empty file or leaving a file where there was none,
make it load as the last rewrite's blocks followed by the later appends. -/
theorem chain_store_is_list (store : ChainStore) (fs : FileSystem) (calls : List StoreCall)
    (hfresh : (fs store.path).getD [] = []) (hopened : fs store.path ≠ none ∨ calls ≠ [])
    (hok : ∀ m ∈ Run.moves (StoreCall.apply store) fs calls, (m.2.run store m.1).1 = true)
    (hver : ∀ call ∈ calls, ∀ b ∈ call.blocks, ∀ t ∈ b.txns, t.ver = kTxnVersion)
    (hrange : ∀ call ∈ calls, ∀ b ∈ call.blocks, ∀ n ∈ b.literals, n < 2 ^ 63)
    (hparse : ∀ call ∈ calls, ∀ b ∈ call.blocks, ParsesLiterally b) :
    store.load (calls.foldl (StoreCall.apply store) fs) =
      ⟨{ ok := true }, calls.foldl StoreCall.logical []⟩ := by
  have hread : ∀ b ∈ calls.foldl StoreCall.logical [], fromJsonLine (toJsonLine b) = some b := by
    intro b hb
    obtain ⟨call, hcall, hmem⟩ := logical_mem calls b hb
    exact (hparse call hcall b hmem).readable (hver call hcall b hmem)
      fun n hn => .inl (hrange call hcall b hmem n hn)
  obtain ⟨text, htext⟩ := Option.ne_none_iff_exists'.mp (run_exists hopened hfresh hok)
  have hrep := run_represents hfresh hok
  rw [ChainStore.Represents, htext, Option.getD_some] at hrep
  exact ChainStore.Holds.load (htext.trans (congrArg some hrep)) hread

end StoreRuns

section Samples

attribute [local instance] sampleKeys

/-- Where no call has created the file there is nothing to load. -/
theorem missing_file_does_not_load :
    letI := parserOf []
    let store := ChainStore.mk "chain.jsonl"
    let fs : FileSystem := fun _ => none
    let calls : List StoreCall := []
    (fs store.path).getD [] = [] ∧
      (∀ m ∈ Run.moves (StoreCall.apply store) fs calls, (m.2.run store m.1).1 = true) ∧
      (store.load (calls.foldl (StoreCall.apply store) fs)).status =
        ⟨false, 0, .badLink, "cannot open chain.jsonl"⟩ :=
  ⟨rfl, fun _ h => absurd h List.not_mem_nil, rfl⟩

/-- Two appends, a rewrite to the genesis block and one more append. -/
def sampleCalls : List StoreCall :=
  [⟨.append genesisBlock, .complete⟩, ⟨.append (nonceBlock 7), .complete⟩,
   ⟨.rewrite [genesisBlock], .complete⟩, ⟨.append (nonceBlock 7), .complete⟩]

/-- On a missing file they leave the genesis block and the block appended last. -/
theorem sampleCalls_load :
    letI := parserOf [genesisBlock, nonceBlock 7]
    (ChainStore.mk "chain.jsonl").load
        (sampleCalls.foldl (StoreCall.apply (ChainStore.mk "chain.jsonl")) fun _ => none) =
      ⟨{ ok := true }, [genesisBlock, nonceBlock 7]⟩ := by
  let := parserOf [genesisBlock, nonceBlock 7]
  have hparse : ∀ b ∈ [genesisBlock, nonceBlock 7], ParsesFaithfully b :=
    parserOf_pair (toJsonLine_ne_of_index rfl rfl)
  have hblocks : ∀ call ∈ sampleCalls, ∀ b ∈ call.blocks, b ∈ [genesisBlock, nonceBlock 7] := by
    simp [sampleCalls, StoreCall.blocks]
  have hrange : ∀ b ∈ [genesisBlock, nonceBlock 7], ∀ n ∈ b.literals, n < 2 ^ 63 := by
    intro b hb
    rcases List.mem_pair.mp hb with rfl | rfl
    · exact genesisBlock_literals
    · have hliterals : (nonceBlock 7).literals = [1, (genesisTimestamp + 1).toNat, 7] := rfl
      rw [hliterals]
      decide
  have hempty : ∀ b ∈ [genesisBlock, nonceBlock 7], b.txns = [] := by
    intro b hb
    rcases List.mem_pair.mp hb with rfl | rfl <;> rfl
  refine chain_store_is_list ⟨"chain.jsonl"⟩ (fun _ => none) sampleCalls rfl
    (.inr (List.cons_ne_nil _ _)) ?_ ?_ ?_ ?_
  · intro m hm
    simp only [sampleCalls, Run.moves, List.mem_cons, List.not_mem_nil, or_false] at hm
    rcases hm with rfl | rfl | rfl | rfl <;> rfl
  · intro call hcall b hb t ht
    rw [hempty b (hblocks call hcall b hb)] at ht
    exact absurd ht List.not_mem_nil
  · exact fun call hcall b hb => hrange b (hblocks call hcall b hb)
  · exact fun call hcall b hb =>
      (hparse b (hblocks call hcall b hb)).literally (hrange b (hblocks call hcall b hb))

end Samples

end TxChain
