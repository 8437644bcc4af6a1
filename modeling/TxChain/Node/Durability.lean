import TxChain.Node.Restart
import TxChain.Serialize.Lossless

/-!
# Appends that fail

The node reports a block as committed without looking at what became of its append,
and goes on appending to the same file. So the record stays readable exactly as long
as every line reaches the file: a line that is missing or torn is neither noticed nor
repaired. Only the last line of a run may lack its newline, and the process may stop
before a line is begun.
-/

namespace TxChain

/-- A call on a running node, how the append behind it goes, and whether the process
survives that append. -/
structure SessionOp where
  call : NodeOp
  io : AppendOutcome
  returns : Bool

/-- A process with its files and the blocks it reported as committed. `intact` records
that every append so far has written its whole line. -/
structure Session where
  node : Node
  fs : FileSystem
  acked : List Block
  alive : Bool
  intact : Bool

section Session

variable [Crypto]

/-- How many characters of the line of a block reach the file. -/
def AppendOutcome.written (io : AppendOutcome) (b : Block) : ℕ :=
  if ¬io.opens then 0
  else
    match io.failsAfter with
    | some n => min n ((toJsonLine b).length + 1)
    | none => (toJsonLine b).length + 1

/-- One call on a node. -/
def NodeOp.perform (n : Node) (fs : FileSystem) (io : AppendOutcome) :
    NodeOp → Reason × Node × FileSystem
  | .sealNext now_s txns => n.sealNextBlock fs now_s txns io
  | .commit b now_s => n.commitBlock fs b now_s io

/-- A stopped process does nothing. A refused block is not appended. -/
def SessionOp.apply (s : Session) (op : SessionOp) : Session :=
  if ¬s.alive then s
  else
    let b := op.call.block s.node.chain
    let done := op.call.perform s.node s.fs op.io
    if done.1 ≠ .ok then { s with node := done.2.1, fs := done.2.2 }
    else
      { node := done.2.1
        fs := done.2.2
        acked := if op.returns then s.acked ++ [b] else s.acked
        alive := op.returns
        intact := s.intact && decide ((toJsonLine b).length < op.io.written b) }

/-- The process after booting, which itself appends on a fresh datadir. -/
def Session.start [Picojson] (cfg : NodeConfig) (now_s : UInt64) (fs : FileSystem)
    (io : AppendOutcome) (returns : Bool) : Session :=
  let booted := Node.boot cfg now_s fs io
  { node := booted.2.1
    fs := booted.2.2
    acked := []
    alive := returns
    intact := decide ((toJsonLine genesisBlock).length < io.written genesisBlock) }

/-- The file loads as a prefix of the chain, with every block reported as committed. -/
structure Session.Recorded [Picojson] (s : Session) : Prop where
  ok : (s.node.store.load s.fs).status.ok = true
  ahead : (s.node.store.load s.fs).blocks <+: s.node.chain.blocks
  acked : ∀ b ∈ s.acked, b ∈ (s.node.store.load s.fs).blocks

/-! ### One append -/

variable {store : ChainStore} {fs : FileSystem} {io : AppendOutcome} {b : Block}

/-- An append leaves the file as it was, followed by what it wrote of the line. -/
theorem ChainStore.appendBlock_file (hexists : io.opens = true ∨ fs store.path ≠ none) :
    (store.appendBlock fs io b).2 store.path =
      some ((fs store.path).getD [] ++ (toJsonLine b ++ ['\n']).take (io.written b)) := by
  rw [ChainStore.appendBlock, AppendOutcome.written]
  by_cases hopens : io.opens = true
  · rw [if_neg (not_not.mpr hopens), if_neg (not_not.mpr hopens)]
    cases io.failsAfter with
    | none =>
        have hall : (toJsonLine b ++ ['\n']).take ((toJsonLine b).length + 1) =
            toJsonLine b ++ ['\n'] := List.take_of_length_le (by simp)
        rw [hall]
        exact FileSystem.write_self _ _ _
    | some n =>
        have hlength : (toJsonLine b ++ ['\n']).length = (toJsonLine b).length + 1 := by simp
        rw [← hlength, List.take_eq_take_min.symm]
        exact FileSystem.write_self _ _ _
  · obtain ⟨text, htext⟩ := Option.ne_none_iff_exists'.mp (hexists.resolve_left hopens)
    rw [if_pos hopens, if_pos hopens, htext]
    simpa using htext

theorem lt_written_complete (b : Block) :
    (toJsonLine b).length < AppendOutcome.complete.written b :=
  Nat.lt_succ_self _

/-- What an append wrote of a line is the line, with or without its newline. -/
theorem take_line (hwritten : (toJsonLine b).length ≤ io.written b) :
    (toJsonLine b ++ ['\n']).take (io.written b) = toJsonLine b ∨
      (toJsonLine b).length < io.written b ∧
        (toJsonLine b ++ ['\n']).take (io.written b) = toJsonLine b ++ ['\n'] := by
  rcases hwritten.eq_or_lt with heq | hlt
  · left
    rw [← heq, List.take_left]
  · exact .inr ⟨hlt, List.take_of_length_le (by simpa using hlt)⟩

/-! ### The invariant -/

/-- The file holds the lines of `kept`, possibly without the last newline. -/
structure Session.Tracks [Picojson] (s : Session) (kept : List Block) (text : Text) : Prop where
  file : s.fs s.node.store.path = some text
  records : Lines.records '\n' text = kept.map toJsonLine
  readable : ∀ b ∈ kept, fromJsonLine (toJsonLine b) = some b
  ahead : kept <+: s.node.chain.blocks
  acked : ∀ b ∈ s.acked, b ∈ kept
  whole : s.intact = true →
    kept = s.node.chain.blocks ∧ text = Lines.unlines '\n' (kept.map toJsonLine)

variable [Picojson] {s : Session} {kept : List Block} {text : Text} {op : SessionOp}

theorem Session.Tracks.recorded (h : s.Tracks kept text) : s.Recorded := by
  have hload := ChainStore.load_records h.file h.records h.readable
  constructor <;> rw [hload]
  · exact h.ahead
  · exact h.acked

omit [Picojson] in
/-- The lines of a list of blocks and one more line, whole or without its newline. -/
theorem records_next (kept : List Block) {io : AppendOutcome} {b : Block}
    (hwritten : (toJsonLine b).length ≤ io.written b) :
    Lines.records '\n' (Lines.unlines '\n' (kept.map toJsonLine) ++
      (toJsonLine b ++ ['\n']).take (io.written b)) = (kept ++ [b]).map toJsonLine := by
  have hline : Lines.records '\n' (toJsonLine b) = [toJsonLine b] :=
    Lines.records_single (newline_not_mem_toJsonLine b) (toJsonLine_ne_nil b)
  have hnext : Lines.records '\n' ((toJsonLine b ++ ['\n']).take (io.written b)) =
      [toJsonLine b] := by
    rcases take_line hwritten with htake | ⟨-, htake⟩
    · rw [htake, hline]
    · rw [htake, Lines.records_append, hline]
      rfl
  rw [Lines.records_unlines_append (lines_separate kept), hnext, List.map_append,
    List.map_singleton]

omit [Picojson] in
/-- If the newline is written too, the file is the lines of all the blocks. -/
theorem unlines_next (kept : List Block) {io : AppendOutcome} {b : Block}
    (hwritten : (toJsonLine b).length < io.written b) :
    Lines.unlines '\n' (kept.map toJsonLine) ++ (toJsonLine b ++ ['\n']).take (io.written b) =
      Lines.unlines '\n' ((kept ++ [b]).map toJsonLine) := by
  rw [List.take_of_length_le (by simpa using hwritten), List.map_append, Lines.unlines_append]
  simp [Lines.unlines]

/-! ### One call -/

/-- The block the call offers, at the state it meets. -/
def SessionOp.block (op : SessionOp) (s : Session) : Block := op.call.block s.node.chain

/-- The call appends a block: the process runs and the gate takes the block. -/
structure SessionOp.Appends (op : SessionOp) (s : Session) : Prop where
  alive : s.alive = true
  admits : s.node.chain.Admits (op.block s) op.call.clock

/-- What an append must do for the record to stay readable: write its line behind whole
lines, for a block the file format can carry; or stop the process before it begins. -/
def SessionOp.Lands (op : SessionOp) (s : Session) : Prop :=
  (s.intact = true ∧ (toJsonLine (op.block s)).length ≤ op.io.written (op.block s) ∧
      (∀ t ∈ (op.block s).txns, t.ver = kTxnVersion) ∧
      ∀ n ∈ (op.block s).literals, LosslessLiteral n) ∨
    (op.returns = false ∧ op.io.written (op.block s) = 0)

omit [Picojson] in
theorem NodeOp.perform_eq (n : Node) (fs : FileSystem) (io : AppendOutcome) (call : NodeOp) :
    call.perform n fs io = n.commitBlock fs (call.block n.chain) call.clock io := by
  cases call <;> rfl

omit [Picojson] in
/-- A call changes nothing, or it commits its block and appends it. -/
theorem SessionOp.apply_cases (op : SessionOp) (s : Session) :
    (¬op.Appends s ∧ op.apply s = s) ∨
      ∃ c, op.Appends s ∧ c.blocks = s.node.chain.blocks ++ [op.block s] ∧
        op.apply s =
          { node := { s.node with chain := c }
            fs := (s.node.store.appendBlock s.fs op.io (op.block s)).2
            acked := if op.returns then s.acked ++ [op.block s] else s.acked
            alive := op.returns
            intact := s.intact &&
              decide ((toJsonLine (op.block s)).length < op.io.written (op.block s)) } := by
  have hperform : op.call.perform s.node s.fs op.io =
      s.node.commitBlock s.fs (op.block s) op.call.clock op.io := NodeOp.perform_eq _ _ _ _
  by_cases halive : s.alive = true
  · rcases s.node.commitBlock_cases s.fs (op.block s) op.call.clock op.io with
      ⟨hrefused, hsame⟩ | ⟨hok, hcommit⟩
    · left
      refine ⟨fun happends => hrefused (Chain.connectBlock_ok_iff.mpr happends.admits), ?_⟩
      rw [hsame] at hperform
      rw [SessionOp.apply, if_neg (not_not.mpr halive)]
      simp only [hperform, hrefused, ne_eq, not_false_eq_true, if_true]
    · right
      refine ⟨_, ⟨halive, Chain.connectBlock_ok_iff.mp hok⟩, (Chain.connectBlock_ok hok).blocks, ?_⟩
      rw [hcommit] at hperform
      rw [SessionOp.apply, if_neg (not_not.mpr halive)]
      simp only [hperform, ne_eq, not_true_eq_false, if_false]
      rfl
  · exact .inl ⟨fun happends => halive happends.alive, if_pos halive⟩

theorem Session.Tracks.apply (h : s.Tracks kept text)
    (hlands : op.Appends s → op.Lands s) (hparse : op.Appends s → ParsesLiterally (op.block s)) :
    ∃ kept' text', (op.apply s).Tracks kept' text' := by
  rcases op.apply_cases s with ⟨-, hsame⟩ | ⟨c, happends, hblocks, hnext⟩
  · rw [hsame]
    exact ⟨kept, text, h⟩
  · rw [hnext]
    have hexists : s.fs s.node.store.path ≠ none := by
      rw [h.file]
      exact Option.some_ne_none text
    have hfile : (s.node.store.appendBlock s.fs op.io (op.block s)).2 s.node.store.path = _ :=
      ChainStore.appendBlock_file (.inr hexists)
    rw [h.file, Option.getD_some] at hfile
    rcases hlands happends with ⟨hintact, hwritten, hver, hlossless⟩ | ⟨hstops, hnothing⟩
    · obtain ⟨rfl, rfl⟩ := h.whole hintact
      have hread := (hparse happends).readable hver hlossless
      refine ⟨s.node.chain.blocks ++ [op.block s], _, hfile, records_next _ hwritten,
        ?_, ?_, ?_, ?_⟩
      · rw [List.forall_mem_append, List.forall_mem_singleton]
        exact ⟨h.readable, hread⟩
      · rw [hblocks]
      · intro b hb
        by_cases hreturns : op.returns = true
        · rw [if_pos hreturns] at hb
          rcases List.mem_append.mp hb with hold | hnew
          · exact List.mem_append_left _ (h.acked b hold)
          · exact List.mem_append_right _ hnew
        · rw [if_neg hreturns] at hb
          exact List.mem_append_left _ (h.acked b hb)
      · intro hwhole
        obtain ⟨-, hline⟩ := Bool.and_eq_true_iff.mp hwhole
        exact ⟨hblocks.symm, unlines_next _ (of_decide_eq_true hline)⟩
    · -- the process stopped and the file is as it was
      rw [hnothing, List.take_zero, List.append_nil] at hfile
      refine ⟨kept, text, hfile, h.records, h.readable, ?_, ?_, ?_⟩
      · rw [hblocks]
        exact h.ahead.trans (List.prefix_append _ _)
      · simpa only [hstops, Bool.false_eq_true, if_false] using h.acked
      · intro hwhole
        rw [hnothing] at hwhole
        simp at hwhole

/-! ### Runs -/

variable {cfg : NodeConfig}

/-- What booting must do on a fresh datadir: write the genesis line, or leave an empty
file. -/
def BootLands (cfg : NodeConfig) (fs : FileSystem) (io : AppendOutcome) : Prop :=
  (toJsonLine genesisBlock).length ≤ io.written genesisBlock ∨
    (io.written genesisBlock = 0 ∧
      (io.opens = true ∨ fs (ChainStore.forDatadir cfg.datadir).path ≠ none))

theorem genesisBlock_readable (hparse : ParsesLiterally genesisBlock) :
    fromJsonLine (toJsonLine genesisBlock) = some genesisBlock :=
  hparse.readable (by simp [genesisBlock]) fun n hn => .inl (genesisBlock_literals n hn)

theorem Session.start_tracks (hfresh : Fresh cfg fs) (hboot : BootLands cfg fs io)
    (hparse : ParsesLiterally genesisBlock) (now_s : UInt64) (returns : Bool) :
    ∃ kept text, (Session.start cfg now_s fs io returns).Tracks kept text := by
  have hexists : io.opens = true ∨ fs (Node.new cfg).store.path ≠ none := by
    rcases hboot with hline | ⟨-, hexists⟩
    · left
      by_contra hclosed
      rw [AppendOutcome.written, if_pos hclosed, Nat.le_zero, List.length_eq_zero_iff] at hline
      exact toJsonLine_ne_nil genesisBlock hline
    · exact hexists
  have hfile := ChainStore.appendBlock_file (b := genesisBlock) hexists
  have hempty : (fs (Node.new cfg).store.path).getD [] = Lines.unlines '\n' [] := hfresh
  rw [hempty] at hfile
  rw [Session.start, boot_fresh hfresh]
  rcases hboot with hline | ⟨hnothing, -⟩
  · refine ⟨[genesisBlock], _, hfile, records_next [] hline, ?_, ?_, ?_, ?_⟩
    · exact List.forall_mem_singleton.mpr (genesisBlock_readable hparse)
    · exact List.prefix_rfl
    · exact fun b hb => absurd hb List.not_mem_nil
    · exact fun hwhole => ⟨rfl, unlines_next [] (of_decide_eq_true hwhole)⟩
  · rw [hnothing, List.take_zero] at hfile
    refine ⟨[], _, hfile, rfl, ?_, List.nil_prefix, ?_, ?_⟩
    · exact fun b hb => absurd hb List.not_mem_nil
    · exact fun b hb => absurd hb List.not_mem_nil
    · intro hwhole
      have hsome := of_decide_eq_true hwhole
      rw [hnothing] at hsome
      exact absurd hsome (Nat.not_lt_zero _)

/-- In every run on a fresh datadir whose appends all land, the file loads in every state
as a prefix of the chain that contains every block reported as committed. -/
theorem committed_means_durable (hfresh : Fresh cfg fs) (hboot : BootLands cfg fs io)
    (now_s : UInt64) (returns : Bool) (ops : List SessionOp)
    (hlands : ∀ m ∈ Run.moves SessionOp.apply (Session.start cfg now_s fs io returns) ops,
      m.2.Appends m.1 → m.2.Lands m.1)
    (hgenesis : ParsesLiterally genesisBlock)
    (hparse : ∀ m ∈ Run.moves SessionOp.apply (Session.start cfg now_s fs io returns) ops,
      m.2.Appends m.1 → ParsesLiterally (m.2.block m.1)) :
    ∀ s ∈ ops.scanl SessionOp.apply (Session.start cfg now_s fs io returns), s.Recorded := by
  have hrun : ∀ s ∈ ops.scanl SessionOp.apply (Session.start cfg now_s fs io returns),
      ∃ kept text, s.Tracks kept text := by
    refine Run.invariant_of_moves (J := fun s : Session => ∃ kept text, s.Tracks kept text)
      (C := fun s op => op.Appends s → op.Lands s ∧ ParsesLiterally (op.block s)) ?_
      (Session.start_tracks hfresh hboot hgenesis now_s returns)
      fun m hm happends => ⟨hlands m hm happends, hparse m hm happends⟩
    rintro s op hmet ⟨kept, text, h⟩
    exact h.apply (fun happends => (hmet happends).1) fun happends => (hmet happends).2
  intro s hs
  obtain ⟨kept, text, h⟩ := hrun s hs
  exact h.recorded

end Session

section Samples

attribute [local instance] sampleKeys

/-- Seal an empty block on a fresh datadir; the append goes as given. -/
def sealEmpty (io : AppendOutcome) : SessionOp := ⟨.sealNext genesisTimestamp [], io, true⟩

/-- The file cannot be opened. -/
def closedFile : AppendOutcome := ⟨false, none, true⟩

def freshSession [Picojson] : Session :=
  Session.start {} genesisTimestamp (fun _ => none) .complete true

theorem sealEmpty_block [Picojson] (io : AppendOutcome) :
    (sealEmpty io).block freshSession = (Chain.new 0 0).nextBlock 0 [] := by
  rw [freshSession, Session.start, boot_fresh fresh_empty]
  exact nextBlock_genesis []

theorem sealEmpty_appends [Picojson] (io : AppendOutcome) :
    (sealEmpty io).Appends freshSession := by
  have hchain : freshSession.node.chain = Chain.new 0 0 := by
    rw [freshSession, Session.start, boot_fresh fresh_empty]
    rfl
  have htime : (Chain.new 0 0).tip.header.timestamp = genesisTimestamp := rfl
  refine ⟨rfl, ?_⟩
  rw [sealEmpty_block, hchain]
  constructor
  · apply (Chain.nextBlock_links 0 genesisTimestamp [] rfl).mpr
    rw [Chain.nextBlock, htime]
    decide
  · rfl

/-- After booting the file holds the genesis line. -/
theorem freshSession_holds [Picojson] :
    freshSession.node.store.Holds freshSession.fs [genesisBlock] := by
  rw [freshSession, Session.start, boot_fresh fresh_empty]
  exact ChainStore.holds_first rfl genesisBlock

/-- A block is reported as committed although the file could not be opened, and the
file does not have it. -/
theorem failed_append_acknowledged :
    letI := sealedParser []
    (∀ b ∈ [genesisBlock, (Chain.new 0 0).nextBlock 0 []], ParsesFaithfully b) ∧
      ¬((sealEmpty closedFile).apply freshSession).Recorded := by
  have hrun : ∀ [Picojson], ParsesFaithfully genesisBlock →
      ¬((sealEmpty closedFile).apply freshSession).Recorded := by
    intro parser hparse hrecorded
    have hread : ∀ b ∈ [genesisBlock], fromJsonLine (toJsonLine b) = some b := by
      rw [List.forall_mem_singleton]
      exact fromJsonLine_toJsonLine hparse (by simp [genesisBlock])
    have hload := freshSession_holds.load hread
    rcases (sealEmpty closedFile).apply_cases freshSession with ⟨hrefused, -⟩ | ⟨c, -, -, hnext⟩
    · exact hrefused (sealEmpty_appends closedFile)
    · rw [hnext] at hrecorded
      have hlisted : (sealEmpty closedFile).block freshSession ∈
          (freshSession.node.store.load freshSession.fs).blocks :=
        hrecorded.acked _ (List.mem_append_right _ (List.mem_singleton_self _))
      rw [hload, sealEmpty_block] at hlisted
      have hindex := congrArg (fun b : Block => b.header.index) (List.mem_singleton.mp hlisted)
      exact absurd hindex (by decide)
  have hfaithful := sealedParser_faithful []
  exact ⟨hfaithful, @hrun (sealedParser []) (hfaithful genesisBlock List.mem_cons_self)⟩

/-- When the line is written the same block is on record. -/
theorem sealed_block_recorded :
    letI := sealedParser []
    ((sealEmpty .complete).apply freshSession).Recorded := by
  have hrun : ∀ [Picojson],
      (∀ b ∈ [genesisBlock, (Chain.new 0 0).nextBlock 0 []], ParsesFaithfully b) →
      ((sealEmpty .complete).apply freshSession).Recorded := by
    intro parser hparse
    have hsmall : ∀ b ∈ [genesisBlock, (Chain.new 0 0).nextBlock 0 []], ∀ n ∈ b.literals,
        n < 2 ^ 63 := by
      have hnext : ((Chain.new 0 0).nextBlock 0 []).literals =
          [1, (genesisTimestamp + 1).toNat, 0] := rfl
      intro b hb
      rcases List.mem_pair.mp hb with rfl | rfl
      · exact genesisBlock_literals
      · rw [hnext]
        decide
    have hliterally : ∀ b ∈ [genesisBlock, (Chain.new 0 0).nextBlock 0 []], ParsesLiterally b :=
      fun b hb => (hparse b hb).literally (hsmall b hb)
    have hboot : BootLands {} (fun _ => none) .complete := .inl (lt_written_complete _).le
    have hmoves : ∀ m ∈ Run.moves SessionOp.apply freshSession [sealEmpty .complete],
        m = (freshSession, sealEmpty .complete) := fun m hm => List.mem_singleton.mp hm
    refine committed_means_durable fresh_empty hboot genesisTimestamp true [sealEmpty .complete]
      ?_ (hliterally _ List.mem_cons_self) ?_ _ (by simp [freshSession])
    · intro m hm _
      rw [hmoves m hm]
      have hintact : freshSession.intact = true := by
        rw [freshSession, Session.start, decide_eq_true_eq]
        exact lt_written_complete genesisBlock
      refine .inl ⟨hintact, (lt_written_complete _).le, ?_, ?_⟩
      · exact fun t ht => absurd ht List.not_mem_nil
      · rw [sealEmpty_block]
        exact fun n hn => .inl (hsmall _ (List.mem_cons_of_mem _ List.mem_cons_self) n hn)
    · intro m hm _
      rw [hmoves m hm]
      show ParsesLiterally ((sealEmpty .complete).block freshSession)
      rw [sealEmpty_block]
      exact hliterally _ (List.mem_cons_of_mem _ List.mem_cons_self)
  exact @hrun (sealedParser []) (sealedParser_faithful [])

end Samples

end TxChain
