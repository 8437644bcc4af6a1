import TxChain.Chain.StoreRuns
import TxChain.Json.Glued
import TxChain.Node.Durability
import TxChain.Node.Swap

/-!
# The store when calls fail

An append may stop anywhere in its line, and the next one goes on behind it. What the file
loads as depends on little of this: what the lines are read as that were written in full from
where a line may begin, and how the text ends. A whole line without its newline hides what is
written behind it up to the next newline. A torn one, and one that is no block to the reader,
keep the file from loading until it is rewritten.
-/

namespace TxChain

open Json

attribute [local instance] picojson

/-! ### The record -/

/-- How the text of the file ends; behind a broken line nothing counts. -/
inductive Tail where
  | ended
  | unended
  | broken
  deriving DecidableEq

/-- What a file of lines amounts to. -/
structure Record where
  blocks : List Block := []
  tail : Tail := .ended

section Record

variable [Crypto]

/-- What the line of a block is read back as. -/
def Block.reread (b : Block) : Option Block := fromJsonLine (toJsonLine b)

/-- After `n` characters of the line of a block and its newline. -/
def Record.write (r : Record) (b : Block) (n : ℕ) : Record :=
  if n = 0 then r
  else
    match r.tail with
    | .broken => r
    | .unended => if (toJsonLine b).length < n then { r with tail := .ended } else r
    | .ended =>
        if n < (toJsonLine b).length then { r with tail := .broken }
        else
          match b.reread with
          | none => { r with tail := .broken }
          | some b' =>
              { blocks := r.blocks ++ [b']
                tail := if (toJsonLine b).length < n then .ended else .unended }

/-- After the lines of some blocks, of which `n` characters were written. -/
def Record.writeAll (r : Record) : List Block → ℕ → Record
  | [], _ => r
  | b :: blocks, n =>
      let size := (toJsonLine b).length + 1
      (r.write b (min n size)).writeAll blocks (n - size)

def Record.load (r : Record) : LoadResult :=
  match r.tail with
  | .broken =>
      ⟨⟨false, UInt64.ofNat r.blocks.length, .badTxnsHash, "malformed chain.jsonl line"⟩, r.blocks⟩
  | _ => ⟨{ ok := true }, r.blocks⟩

/-- What a call makes of the record; there is none as long as no call has opened the file. -/
def StoreCall.record (r : Option Record) (call : StoreCall) : Option Record :=
  if ¬call.io.opens then r
  else
    match call.op with
    | .append b => some ((r.getD {}).write b (call.io.written b))
    | .rewrite blocks =>
        some (Record.writeAll {} blocks
          (call.io.reaches (Lines.unlines '\n' (blocks.map toJsonLine)).length))

/-- What loading the file gives. -/
def loadRecord (r : Option Record) : LoadResult :=
  match r with
  | none => ⟨⟨false, 0, .badLink, "cannot open chain.jsonl"⟩, []⟩
  | some r => r.load

end Record

/-! ### The text behind it -/

section Denotes

variable [Crypto]

/-- A line is read so, whatever pieces of other lines stand behind it. -/
structure LineReads (line : Text) (result : Option Block) : Prop where
  separate : '\n' ∉ line
  ne_nil : line ≠ []
  reads : ∀ pieces, fromJsonLine (line ++ glue pieces) = result

/-- The texts that a record stands for. Behind a whole or a broken line there may be pieces of
others, and behind a broken one and a newline anything. -/
inductive Record.Denotes : Text → Record → Prop where
  | ended {text : Text} {blocks : List Block} (hend : Lines.Ended '\n' text)
      (hread : (Lines.records '\n' text).mapM fromJsonLine = some blocks) :
      Denotes text ⟨blocks, .ended⟩
  | unended {text line : Text} {blocks : List Block} {b : Block} {pieces : List Piece}
      (hend : Lines.Ended '\n' text)
      (hread : (Lines.records '\n' text).mapM fromJsonLine = some blocks)
      (hline : LineReads line (some b)) :
      Denotes (text ++ (line ++ glue pieces)) ⟨blocks ++ [b], .unended⟩
  | broken {text line rest : Text} {blocks : List Block} {pieces : List Piece}
      (hend : Lines.Ended '\n' text)
      (hread : (Lines.records '\n' text).mapM fromJsonLine = some blocks)
      (hline : LineReads line none) (hrest : ∀ c ∈ rest.head?, c = '\n') :
      Denotes (text ++ (line ++ glue pieces ++ rest)) ⟨blocks, .broken⟩

variable {text line rest : Text} {blocks : List Block} {b : Block} {r : Record} {n m : ℕ}
  {pieces : List Piece} {result : Option Block}

/-! ### Lines -/

/-- A whole line hides what is behind it. -/
theorem lineReads_whole (b : Block) : LineReads (toJsonLine b) b.reread where
  separate := newline_not_mem_toJsonLine b
  ne_nil := toJsonLine_ne_nil b
  reads pieces := by
    have hline := parse_toJsonLine b []
    rw [List.append_nil] at hline
    rw [Block.reread, fromJsonLine, fromJsonLine, parse_picojson, parse_picojson, hline,
      parse_toJsonLine b (glue pieces)]
    rfl

/-- A torn line is not mended by what is behind it. -/
theorem lineReads_torn (hpos : 0 < m) (hm : m < (toJsonLine b).length) :
    LineReads ((toJsonLine b).take m) none where
  separate h := newline_not_mem_toJsonLine b (List.mem_of_mem_take h)
  ne_nil := by
    refine List.ne_nil_of_length_pos ?_
    rw [List.length_take]
    omega
  reads pieces := torn_line_malformed pieces hpos hm

theorem LineReads.separate_glue (h : LineReads line result) (pieces : List Piece) :
    '\n' ∉ line ++ glue pieces := by
  rw [List.mem_append, not_or]
  exact ⟨h.separate, newline_not_mem_glue pieces⟩

theorem LineReads.glue_ne_nil (h : LineReads line result) (pieces : List Piece) :
    line ++ glue pieces ≠ [] := List.append_ne_nil_of_left_ne_nil h.ne_nil _

/-! ### Loading -/

omit [Crypto] in
/-- Loading goes on behind lines that are readable. -/
theorem loadLines_append {front : List Text} (hread : front.mapM fromJsonLine = some blocks)
    (rest : List Text) (idx : UInt64) (acc : List Block) :
    loadLines (front ++ rest) idx acc =
      loadLines rest (idx + UInt64.ofNat blocks.length) (acc ++ blocks) := by
  induction front generalizing idx acc blocks with
  | nil =>
      obtain rfl := Option.some.inj hread
      simp
  | cons line front ih =>
      rw [List.mapM_cons] at hread
      obtain ⟨b, hb, hrest⟩ := Option.bind_eq_some_iff.mp hread
      obtain ⟨later, hlater, hblocks⟩ := Option.bind_eq_some_iff.mp hrest
      obtain rfl := Option.some.inj hblocks
      rw [List.cons_append, loadLines, hb]
      dsimp only
      rw [ih hlater, List.append_assoc, List.singleton_append, List.length_cons, add_assoc,
        Nat.add_comm later.length 1, UInt64.ofNat_add]
      rfl

omit [Crypto] in
/-- One more line behind an ended text. -/
theorem mapM_records_line (hend : Lines.Ended '\n' text) (hsep : '\n' ∉ line) (hne : line ≠ [])
    (hread : (Lines.records '\n' text).mapM fromJsonLine = some blocks)
    (hline : fromJsonLine line = some b) :
    (Lines.records '\n' (text ++ line)).mapM fromJsonLine = some (blocks ++ [b]) := by
  rw [hend.records_append, Lines.records_single hsep hne, List.mapM_append, hread, List.mapM_cons,
    hline]
  rfl

/-- A text loads as the record it stands for. -/
theorem Record.Denotes.load (h : Record.Denotes text r) :
    loadLines (Lines.records '\n' text) 0 [] = r.load := by
  cases h with
  | ended hend hread =>
      exact loadLines_ok_iff.mpr ⟨_, hread, rfl⟩
  | unended hend hread hline =>
      refine loadLines_ok_iff.mpr ⟨_, ?_, rfl⟩
      exact mapM_records_line hend (hline.separate_glue _) (hline.glue_ne_nil _) hread
        (hline.reads _)
  | @broken text line rest blocks pieces hend hread hline hrest =>
      obtain ⟨others, hrecords⟩ : ∃ others,
          Lines.records '\n' (line ++ glue pieces ++ rest) = (line ++ glue pieces) :: others := by
        have hfirst := Lines.records_single (hline.separate_glue pieces) (hline.glue_ne_nil pieces)
        cases rest with
        | nil => exact ⟨[], by rw [List.append_nil, hfirst]⟩
        | cons c rest =>
            obtain rfl := hrest c rfl
            refine ⟨Lines.records '\n' rest, ?_⟩
            rw [Lines.records_append, hfirst]
            rfl
      rw [hend.records_append, hrecords, loadLines_append hread, loadLines, hline.reads]
      simp [Record.load]

/-! ### Writing -/

theorem length_line (b : Block) : (toJsonLine b ++ ['\n']).length = (toJsonLine b).length + 1 := by
  rw [List.length_append, List.length_singleton]

/-- Some characters of a line, without its newline, are a piece. -/
theorem take_piece (hpos : n ≠ 0) (hn : n ≤ (toJsonLine b).length) :
    (toJsonLine b ++ ['\n']).take n = glue [(b, n - 1)] := by
  rw [List.take_append_of_le_length hn, glue, List.flatMap_singleton,
    Nat.sub_add_cancel (Nat.pos_of_ne_zero hpos)]

/-- And with it they are a piece and the newline. -/
theorem take_whole (hn : (toJsonLine b).length < n) :
    (toJsonLine b ++ ['\n']).take n = glue [(b, (toJsonLine b).length)] ++ ['\n'] := by
  rw [List.take_of_length_le (by rw [length_line]; omega), glue, List.flatMap_singleton,
    List.take_of_length_le (Nat.le_succ _)]

/-- A line goes to the end of a text of whole lines. -/
theorem Record.Denotes.write_ended (hend : Lines.Ended '\n' text)
    (hread : (Lines.records '\n' text).mapM fromJsonLine = some blocks) (b : Block)
    (hpos : n ≠ 0) :
    Record.Denotes (text ++ (toJsonLine b ++ ['\n']).take n)
      (Record.write ⟨blocks, .ended⟩ b n) := by
  rw [Record.write, if_neg hpos]
  dsimp only
  split
  next hshort =>
    have htake : (toJsonLine b ++ ['\n']).take n = (toJsonLine b).take n ++ glue [] ++ [] := by
      rw [List.take_append_of_le_length hshort.le]
      simp [glue]
    rw [htake]
    exact .broken hend hread (lineReads_torn (Nat.pos_of_ne_zero hpos) hshort) nofun
  next hwhole =>
    -- the newline is all that may be missing
    have htake : (toJsonLine b ++ ['\n']).take n =
        toJsonLine b ++ glue [] ++ if (toJsonLine b).length < n then ['\n'] else [] := by
      split
      next hnewline =>
        rw [List.take_of_length_le (by rw [length_line]; omega)]
        simp [glue]
      next hbare =>
        rw [show n = (toJsonLine b).length by omega, List.take_left]
        simp [glue]
    have hline := lineReads_whole b
    rw [htake]
    cases hreread : b.reread with
    | none =>
        rw [hreread] at hline
        exact .broken hend hread hline (by split <;> simp)
    | some b' =>
        rw [hreread] at hline
        dsimp only
        split
        next hnewline =>
          refine .ended (Lines.ended_append '\n' _ _) ?_
          rw [← List.append_assoc, Lines.records_append, Lines.records_nil, List.append_nil]
          exact mapM_records_line hend (hline.separate_glue []) (hline.glue_ne_nil []) hread
            (hline.reads [])
        next hbare =>
          rw [List.append_nil]
          exact .unended hend hread hline

/-- What is written of a line acts on the record. -/
theorem Record.Denotes.write (h : Record.Denotes text r) (b : Block) (n : ℕ) :
    Record.Denotes (text ++ (toJsonLine b ++ ['\n']).take n) (r.write b n) := by
  by_cases hzero : n = 0
  · rw [Record.write, if_pos hzero, hzero, List.take_zero, List.append_nil]
    exact h
  · cases h with
    | ended hend hread => exact .write_ended hend hread b hzero
    | @unended text line blocks b' pieces hend hread hline =>
        rw [Record.write, if_neg hzero]
        dsimp only
        split
        next hnewline =>
          rw [take_whole hnewline, List.append_assoc, List.append_assoc,
            ← List.append_assoc (glue _), ← glue_append, ← List.append_assoc line]
          refine .ended (Lines.ended_append '\n' _ _) ?_
          rw [← List.append_assoc, Lines.records_append, Lines.records_nil, List.append_nil]
          exact mapM_records_line hend (hline.separate_glue _) (hline.glue_ne_nil _) hread
            (hline.reads _)
        next hmore =>
          rw [take_piece hzero (Nat.not_lt.mp hmore), List.append_assoc, List.append_assoc,
            ← glue_append]
          exact .unended hend hread hline
    | @broken text line rest blocks pieces hend hread hline hrest =>
        rw [Record.write, if_neg hzero, List.append_assoc, List.append_assoc _ rest]
        dsimp only
        cases rest with
        | cons c rest => exact .broken hend hread hline hrest
        | nil =>
            rw [List.nil_append, List.append_assoc]
            by_cases hnewline : (toJsonLine b).length < n
            · rw [take_whole hnewline, ← List.append_assoc (glue _), ← glue_append,
                ← List.append_assoc line]
              exact .broken hend hread hline (by simp)
            · have hpiece := take_piece hzero (Nat.not_lt.mp hnewline)
              rw [hpiece, ← glue_append, ← List.append_nil (_ ++ glue _)]
              exact .broken hend hread hline nofun

theorem Record.Denotes.writeAll (h : Record.Denotes text r) (blocks : List Block) (n : ℕ) :
    Record.Denotes (text ++ (Lines.unlines '\n' (blocks.map toJsonLine)).take n)
      (r.writeAll blocks n) := by
  induction blocks generalizing text r n with
  | nil =>
      rw [List.map_nil, Lines.unlines, List.flatMap_nil, List.take_nil, List.append_nil]
      exact h
  | cons b blocks ih =>
      have hline : Lines.unlines '\n' ((b :: blocks).map toJsonLine) =
          (toJsonLine b ++ ['\n']) ++ Lines.unlines '\n' (blocks.map toJsonLine) := by
        rw [List.map_cons, Lines.unlines_cons, List.append_assoc, List.singleton_append]
      have hfirst := h.write b (min n ((toJsonLine b).length + 1))
      rw [← length_line b, ← List.take_eq_take_min] at hfirst
      rw [hline, List.take_append, ← List.append_assoc, Record.writeAll, ← length_line b]
      exact ih hfirst _

/-! ### Runs -/

variable {store : ChainStore} {fs : FileSystem} {call : StoreCall}

/-- The file is what the record stands for. -/
def ChainStore.Denotes (store : ChainStore) (fs : FileSystem) : Option Record → Prop
  | none => fs store.path = none
  | some r => ∃ text, fs store.path = some text ∧ Record.Denotes text r

theorem ChainStore.Denotes.load {r : Option Record} (h : store.Denotes fs r) :
    store.load fs = loadRecord r := by
  cases r with
  | none =>
      have hmissing : fs store.path = none := h
      rw [ChainStore.load, hmissing]
      rfl
  | some r =>
      obtain ⟨text, hfile, hdenotes⟩ := h
      rw [ChainStore.load, hfile]
      exact hdenotes.load

/-- What the file is before an append that opens it. -/
theorem ChainStore.Denotes.getD {r : Option Record} (h : store.Denotes fs r) :
    Record.Denotes ((fs store.path).getD []) (r.getD {}) := by
  cases r with
  | none =>
      have hmissing : fs store.path = none := h
      rw [hmissing]
      exact .ended (.inl rfl) rfl
  | some r =>
      obtain ⟨text, hfile, hdenotes⟩ := h
      rw [hfile]
      exact hdenotes

theorem StoreCall.apply_closed (hclosed : ¬call.io.opens = true) : call.apply store fs = fs := by
  obtain ⟨op, io⟩ := call
  cases op with
  | append b => exact congrArg Prod.snd (if_pos hclosed)
  | rewrite blocks => exact ChainStore.rewrite_closed (Bool.eq_false_iff.mpr hclosed)

/-- One call, however it goes. -/
theorem ChainStore.Denotes.apply {r : Option Record} (h : store.Denotes fs r)
    (call : StoreCall) :
    store.Denotes (call.apply store fs) (StoreCall.record r call) := by
  by_cases hopens : call.io.opens = true
  · rw [StoreCall.record, if_neg (not_not.mpr hopens)]
    obtain ⟨op, io⟩ := call
    cases op with
    | append b =>
        exact ⟨_, ChainStore.appendBlock_file (.inl hopens), h.getD.write b _⟩
    | rewrite blocks =>
        have hempty : Record.Denotes [] {} := .ended (.inl rfl) rfl
        exact ⟨_, ChainStore.rewrite_file hopens, hempty.writeAll blocks _⟩
  · rw [StoreCall.apply_closed hopens, StoreCall.record, if_pos hopens]
    exact h

/-- Whatever becomes of each call, the file loads as the record of the calls. -/
theorem ChainStore.Denotes.run {r : Option Record} (h : store.Denotes fs r)
    (calls : List StoreCall) :
    store.Denotes (calls.foldl (StoreCall.apply store) fs) (calls.foldl StoreCall.record r) := by
  induction calls generalizing fs r with
  | nil => exact h
  | cons call calls ih => exact ih (h.apply call)

/-- A block that the file format can carry is read back. -/
theorem Block.reread_eq (hver : ∀ t ∈ b.txns, t.ver = kTxnVersion)
    (hlossless : ∀ n ∈ b.literals, LosslessLiteral n) : b.reread = some b := by
  have hline := chain_line_loads_iff hver []
  rw [List.append_nil] at hline
  exact hline.mpr hlossless

/-- Whatever the outcome of each append and rewrite, a store that begins without a file loads
as the record of the calls. -/
theorem faulty_store_loads_record (store : ChainStore) (fs : FileSystem) (calls : List StoreCall)
    (hfresh : fs store.path = none) :
    store.load (calls.foldl (StoreCall.apply store) fs) =
      loadRecord (calls.foldl StoreCall.record none) := by
  have hstart : store.Denotes fs none := hfresh
  exact (hstart.run calls).load

/-! ### Broken files -/

omit [Crypto] in
/-- Only a broken record is malformed. -/
theorem loadRecord_malformed {r : Option Record} (h : (loadRecord r).status.reason = .badTxnsHash) :
    ∃ blocks, r = some ⟨blocks, .broken⟩ := by
  cases r with
  | none => cases h
  | some r =>
      obtain ⟨blocks, tail⟩ := r
      cases tail with
      | ended => cases h
      | unended => cases h
      | broken => exact ⟨blocks, rfl⟩

theorem record_broken (blocks : List Block) (b : Block) (io : AppendOutcome) :
    StoreCall.record (some ⟨blocks, .broken⟩) ⟨.append b, io⟩ = some ⟨blocks, .broken⟩ := by
  rw [StoreCall.record]
  split
  next => rfl
  next =>
    refine congrArg some ?_
    simp only [Record.write, Option.getD_some, ite_self]

/-- An append and how it goes. -/
def StoreCall.ofAppend (p : Block × AppendOutcome) : StoreCall := ⟨.append p.1, p.2⟩

/-- Appends do not mend a file that does not load. -/
theorem malformed_file_stays (store : ChainStore) (fs : FileSystem) (calls : List StoreCall)
    (later : List (Block × AppendOutcome)) (hfresh : fs store.path = none)
    (hmalformed :
      (store.load (calls.foldl (StoreCall.apply store) fs)).status.reason = .badTxnsHash) :
    store.load ((calls ++ later.map StoreCall.ofAppend).foldl (StoreCall.apply store) fs) =
      store.load (calls.foldl (StoreCall.apply store) fs) := by
  have hstart : store.Denotes fs none := hfresh
  have hfirst := (hstart.run calls).load
  rw [(hstart.run _).load, hfirst, List.foldl_append]
  rw [hfirst] at hmalformed
  obtain ⟨blocks, hbroken⟩ := loadRecord_malformed hmalformed
  rw [hbroken]
  have hstays : (later.map StoreCall.ofAppend).foldl StoreCall.record
      (some ⟨blocks, .broken⟩) = some ⟨blocks, .broken⟩ := by
    refine List.foldlRecOn (motive := fun r : Option Record => r = some ⟨blocks, .broken⟩) _ _ rfl
      fun r hr call hcall => ?_
    obtain ⟨p, -, rfl⟩ := List.mem_map.mp hcall
    rw [hr]
    exact record_broken blocks p.1 p.2
  rw [hstays]

end Denotes

section Samples

attribute [local instance] sampleKeys

/-- The disk is full after the first character. -/
def oneCharacter : AppendOutcome := ⟨true, some 1, true⟩

theorem genesis_broken_record :
    [⟨.append genesisBlock, oneCharacter⟩].foldl StoreCall.record none = some ⟨[], .broken⟩ := by
  obtain ⟨s, hhead⟩ := toJsonLine_head genesisBlock
  have hshort : 1 < (toJsonLine genesisBlock).length := by
    rw [hhead]
    simp
  have hwritten : oneCharacter.written genesisBlock = 1 :=
    Nat.min_eq_left (Nat.le_add_left 1 (toJsonLine genesisBlock).length)
  have hcall : StoreCall.record none ⟨.append genesisBlock, oneCharacter⟩ =
      some (Record.write {} genesisBlock (oneCharacter.written genesisBlock)) :=
    if_neg (not_not.mpr rfl)
  have hwrite : Record.write {} genesisBlock 1 = ⟨[], .broken⟩ := by
    rw [Record.write, if_neg Nat.one_ne_zero]
    exact if_pos hshort
  rw [List.foldl_cons, List.foldl_nil, hcall, hwritten, hwrite]

/-- A genesis line of which one character was written. -/
theorem genesis_torn :
    (ChainStore.mk "chain.jsonl").load
        ([⟨.append genesisBlock, oneCharacter⟩].foldl
          (StoreCall.apply (ChainStore.mk "chain.jsonl")) fun _ => none) =
      ⟨⟨false, 0, .badTxnsHash, "malformed chain.jsonl line"⟩, []⟩ := by
  rw [faulty_store_loads_record _ _ _ rfl, genesis_broken_record]
  rfl

/-- Writing the line again and in full does not help. -/
theorem genesis_torn_stays :
    (ChainStore.mk "chain.jsonl").load
        (([StoreCall.ofAppend (genesisBlock, oneCharacter)] ++
            [(genesisBlock, AppendOutcome.complete)].map StoreCall.ofAppend).foldl
          (StoreCall.apply (ChainStore.mk "chain.jsonl")) fun _ => none) =
      (ChainStore.mk "chain.jsonl").load
        ([StoreCall.ofAppend (genesisBlock, oneCharacter)].foldl
          (StoreCall.apply (ChainStore.mk "chain.jsonl")) fun _ => none) := by
  refine malformed_file_stays ⟨"chain.jsonl"⟩ (fun _ => none) _ _ rfl ?_
  have hstart : (ChainStore.mk "chain.jsonl").Denotes (fun _ => none) none := rfl
  have hrun := hstart.run [StoreCall.ofAppend (genesisBlock, oneCharacter)]
  have hrecord : [StoreCall.ofAppend (genesisBlock, oneCharacter)].foldl StoreCall.record none =
      some ⟨[], .broken⟩ := genesis_broken_record
  rw [hrun.load, hrecord]
  rfl

end Samples

end TxChain
