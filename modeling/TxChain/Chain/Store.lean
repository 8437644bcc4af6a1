import TxChain.Chain.Agreement
import TxChain.Library.Lines
import TxChain.Serialize.Json

/-!
# The chain.jsonl store

One rendered block a line, appended and never rewritten in place. The outcome of
the system calls behind an append is a parameter, so a short write or a failed
`fsync` is an ordinary case. A file that holds the lines of a list of blocks loads
as that list.
-/

namespace TxChain

/-- File contents by path; a missing file is `none`. -/
abbrev FileSystem := String → Option Text

def FileSystem.write (fs : FileSystem) (path : String) (content : Text) : FileSystem :=
  fun p => if p = path then some content else fs p

@[simp] theorem FileSystem.write_self (fs : FileSystem) (path : String) (content : Text) :
    fs.write path content path = some content := if_pos rfl

/-- How the system calls of one append go: whether `open` succeeds, after how many
bytes `write` fails, if it does, and whether `fsync` succeeds. -/
structure AppendOutcome where
  opens : Bool
  failsAfter : Option ℕ
  syncs : Bool

/-- Every call succeeds in full. -/
def AppendOutcome.complete : AppendOutcome := ⟨true, none, true⟩

structure ChainStore where
  path : String
  deriving DecidableEq

def ChainStore.forDatadir (datadir : String) : ChainStore :=
  ⟨(if datadir ≠ "" ∧ datadir.toList.getLast? ≠ some '/' then datadir ++ "/" else datadir) ++
    "chain.jsonl"⟩

structure LoadResult where
  status : VerifyResult := {}
  blocks : List Block := []

section Store

variable [Crypto]

def ChainStore.appendBlock (store : ChainStore) (fs : FileSystem) (io : AppendOutcome) (b : Block) :
    Bool × FileSystem :=
  let line := toJsonLine b ++ ['\n']
  if ¬io.opens then (false, fs)
  else
    let content := (fs store.path).getD []
    match io.failsAfter with
    | some n => (false, fs.write store.path (content ++ line.take n))
    | none => (io.syncs, fs.write store.path (content ++ line))

/-- `O_TRUNC` empties the file before the lines of all blocks are written to it. -/
def ChainStore.rewrite (store : ChainStore) (fs : FileSystem) (io : AppendOutcome)
    (blocks : List Block) : Bool × FileSystem :=
  let out := blocks.flatMap fun b => toJsonLine b ++ ['\n']
  if ¬io.opens then (false, fs)
  else
    match io.failsAfter with
    | some n => (false, fs.write store.path (out.take n))
    | none => (io.syncs, fs.write store.path out)

variable [Picojson]

omit [Crypto] in
/-- The reading loop; it stops at the first malformed line. -/
def loadLines : List Text → UInt64 → List Block → LoadResult
  | [], _, blocks => ⟨{ ok := true }, blocks⟩
  | line :: rest, idx, blocks =>
      match fromJsonLine line with
      | none => ⟨⟨false, idx, .badTxnsHash, "malformed chain.jsonl line"⟩, blocks⟩
      | some b => loadLines rest (idx + 1) (blocks ++ [b])

omit [Crypto] in
def ChainStore.load (store : ChainStore) (fs : FileSystem) : LoadResult :=
  match fs store.path with
  | none => ⟨⟨false, 0, .badLink, "cannot open chain.jsonl"⟩, []⟩
  | some text => loadLines (Lines.records '\n' text) 0 []

/-- The file holds the lines of exactly these blocks. -/
def ChainStore.Holds (store : ChainStore) (fs : FileSystem) (blocks : List Block) : Prop :=
  fs store.path = some (Lines.unlines '\n' (blocks.map toJsonLine))

variable {store : ChainStore} {fs : FileSystem} {blocks : List Block}

omit [Picojson] in
/-- An append that reports success adds the line of the block to what was in the file. -/
theorem ChainStore.holds_appendBlock {io : AppendOutcome} {b : Block}
    (hfile : (fs store.path).getD [] = Lines.unlines '\n' (blocks.map toJsonLine))
    (hok : (store.appendBlock fs io b).1 = true) :
    store.Holds (store.appendBlock fs io b).2 (blocks ++ [b]) := by
  have hlines : Lines.unlines '\n' ((blocks ++ [b]).map toJsonLine) =
      Lines.unlines '\n' (blocks.map toJsonLine) ++ (toJsonLine b ++ ['\n']) := by
    rw [List.map_append, Lines.unlines_append]
    simp [Lines.unlines]
  rw [ChainStore.appendBlock] at hok ⊢
  split at hok
  next => cases hok
  next hopens =>
    rw [if_neg hopens]
    split at hok
    next => cases hok
    next =>
      show (fs.write store.path _) store.path = _
      rw [FileSystem.write_self, hfile, hlines]

omit [Picojson] in
/-- A complete append adds the block at the end. -/
theorem ChainStore.Holds.append (h : store.Holds fs blocks) (b : Block) :
    store.Holds (store.appendBlock fs .complete b).2 (blocks ++ [b]) := by
  have hfile : (fs store.path).getD [] = Lines.unlines '\n' (blocks.map toJsonLine) := by
    rw [h]
    rfl
  exact ChainStore.holds_appendBlock hfile rfl

omit [Picojson] in
/-- Appending to a missing or empty file starts the chain. -/
theorem ChainStore.holds_first (hfresh : (fs store.path).getD [] = []) (b : Block) :
    store.Holds (store.appendBlock fs .complete b).2 [b] := by
  have hempty : (fs store.path).getD [] = Lines.unlines '\n' (([] : List Block).map toJsonLine) :=
    hfresh
  exact ChainStore.holds_appendBlock hempty rfl

omit [Picojson] in
/-- A rewrite that reports success leaves the lines of the given blocks. -/
theorem ChainStore.holds_rewrite {io : AppendOutcome} (h : (store.rewrite fs io blocks).1 = true) :
    store.Holds (store.rewrite fs io blocks).2 blocks := by
  have hlines : (blocks.flatMap fun b => toJsonLine b ++ ['\n']) =
      Lines.unlines '\n' (blocks.map toJsonLine) := by
    rw [Lines.unlines, List.flatMap_map]
  rw [ChainStore.rewrite, hlines] at h ⊢
  split at h
  next => cases h
  next hopens =>
    rw [if_neg hopens]
    split at h
    next => cases h
    next => exact FileSystem.write_self _ _ _

omit [Crypto] in
/-- Reading succeeds exactly if every line is readable. -/
theorem loadLines_ok_iff {lines : List Text} {idx : UInt64} {front : List Block} :
    loadLines lines idx front = ⟨{ ok := true }, blocks⟩ ↔
      ∃ new, lines.mapM fromJsonLine = some new ∧ blocks = front ++ new := by
  induction lines generalizing idx front with
  | nil => simp [loadLines, eq_comm]
  | cons line rest ih =>
      rw [loadLines, List.mapM_cons]
      cases fromJsonLine line with
      | none => simp
      | some b =>
          dsimp only
          rw [ih]
          cases rest.mapM fromJsonLine with
          | none => simp
          | some new => simp

omit [Crypto] in
theorem loadLines_status (lines : List Text) (idx : UInt64) (front : List Block) :
    (loadLines lines idx front).status = { ok := true } ∨
      (loadLines lines idx front).status.ok = false := by
  induction lines generalizing idx front with
  | nil => exact .inl rfl
  | cons line rest ih =>
      rw [loadLines]
      cases fromJsonLine line with
      | none => exact .inr rfl
      | some b => exact ih _ _

omit [Crypto] in
/-- A clean load carries nothing but its blocks. -/
theorem ChainStore.load_of_ok (h : (store.load fs).status.ok = true) :
    store.load fs = ⟨{ ok := true }, (store.load fs).blocks⟩ := by
  have hstatus : (store.load fs).status = { ok := true } := by
    rw [ChainStore.load] at h ⊢
    split at h
    next => cases h
    next text _ =>
      rcases loadLines_status (Lines.records '\n' text) 0 [] with hok | hfail
      · exact hok
      · rw [hfail] at h
        cases h
  rw [← hstatus]

omit [Crypto] in
/-- A file loads as the blocks its lines stand for, one by one. -/
theorem ChainStore.load_eq_iff {text : Text} (hfile : fs store.path = some text) :
    store.load fs = ⟨{ ok := true }, blocks⟩ ↔
      (Lines.records '\n' text).mapM fromJsonLine = some blocks := by
  rw [ChainStore.load, hfile]
  dsimp only
  rw [loadLines_ok_iff]
  simp

theorem mapM_readable (h : ∀ b ∈ blocks, fromJsonLine (toJsonLine b) = some b) :
    (blocks.map toJsonLine).mapM fromJsonLine = some blocks := by
  induction blocks with
  | nil => rfl
  | cons b rest ih =>
      obtain ⟨hb, hrest⟩ := List.forall_mem_cons.mp h
      rw [List.map_cons, List.mapM_cons, hb, ih hrest]
      rfl

/-- A file whose records are readable lines loads as the blocks it holds. -/
theorem ChainStore.load_records {text : Text} (hfile : fs store.path = some text)
    (hrecords : Lines.records '\n' text = blocks.map toJsonLine)
    (hread : ∀ b ∈ blocks, fromJsonLine (toJsonLine b) = some b) :
    store.load fs = ⟨{ ok := true }, blocks⟩ := by
  rw [ChainStore.load_eq_iff hfile, hrecords]
  exact mapM_readable hread

omit [Picojson] in
/-- No rendered line holds a separator. -/
theorem lines_separate (blocks : List Block) :
    ∀ line ∈ blocks.map toJsonLine, '\n' ∉ line ∧ line ≠ [] := by
  intro line hline
  obtain ⟨b, -, rfl⟩ := List.mem_map.mp hline
  exact ⟨newline_not_mem_toJsonLine b, toJsonLine_ne_nil b⟩

theorem ChainStore.Holds.load (h : store.Holds fs blocks)
    (hread : ∀ b ∈ blocks, fromJsonLine (toJsonLine b) = some b) :
    store.load fs = ⟨{ ok := true }, blocks⟩ :=
  ChainStore.load_records h (Lines.records_unlines (lines_separate blocks)) hread

end Store

end TxChain
