import TxChain.Library.Scan
import TxChain.Node.Import

/-!
# The whole-chain swap

A won import truncates the incumbent's file and writes the candidate over it, so a
write or `fsync` that fails leaves a cut text in place of the incumbent. The command
then exits with an error and has lost the chain it did not replace, unless the cut
happens to fall where the first blocks of the candidate are the incumbent's.
-/

namespace TxChain

/-! ### The command -/

/-- The value that follows a flag, empty if there is none. -/
def opt : List String → String → String
  | a :: v :: rest, flag => if a = flag then v else opt (v :: rest) flag
  | _, _ => ""

def difficultyBits : UInt32 := 22

/-- What the options of `import` choose. -/
def importConfig (options : List String) : NodeConfig :=
  let datadir := opt options "--datadir"
  let dstr := opt options "--difficulty"
  { datadir := if datadir = "" then "./txchain-data" else datadir
    difficulty := if dstr = "" then difficultyBits else (Scan.strtoull dstr.toList).toUInt32 }

/-- How the command ends, with what it prints. -/
inductive ImportExit where
  | usage
  | cannotLoad (file : String) (reason : Reason)
  | rejected (status : VerifyResult) (blocks : ℕ)
  | retained (activeWork candidateWork : Work)
  | cannotRewrite (path : String)
  | imported (activeWork candidateWork : Work) (tip : Option Hash256) (height : ℕ)

def ImportExit.code : ImportExit → ℕ
  | .usage => 2
  | .cannotLoad _ _ => 1
  | .rejected _ _ => 1
  | .retained _ _ => 0
  | .cannotRewrite _ => 1
  | .imported _ _ _ _ => 0

/-- The exits that do not announce a new chain. -/
def ImportExit.Keeps (e : ImportExit) : Prop :=
  e.code ≠ 0 ∨ ∃ active candidate, e = .retained active candidate

section Swap

variable [Crypto] [Picojson]

/-- `txchain import <file> [--datadir D] [--difficulty D]`, the program and the verb included. -/
def importCommand (argv : List String) (now_s : UInt64) (fs : FileSystem) (io : AppendOutcome) :
    ImportExit × FileSystem :=
  match argv with
  | _ :: _ :: file :: options =>
      let cfg := importConfig options
      let active_store := ChainStore.forDatadir cfg.datadir
      let imported := (ChainStore.mk file).load fs
      if ¬imported.status.ok then (.cannotLoad file imported.status.reason, fs)
      else
        let active := active_store.load fs
        let result := evaluateImport active.blocks imported.blocks now_s cfg.difficulty cfg.reward
        if ¬result.valid then (.rejected result.status imported.blocks.length, fs)
        else if ¬result.won then (.retained result.active_work result.candidate_work, fs)
        else
          let rewritten := active_store.rewrite fs io imported.blocks
          if ¬rewritten.1 then (.cannotRewrite active_store.path, rewritten.2)
          else
            (.imported result.active_work result.candidate_work
              (imported.blocks.getLast?.map fun b => b.header.hash) (imported.blocks.length - 1),
              rewritten.2)
  | _ => (.usage, fs)

/-- The exit code and the files are those of the import itself. -/
theorem importCommand_eq (program verb file : String) (options : List String) (now_s : UInt64)
    (fs : FileSystem) (io : AppendOutcome) :
    let done := importCommand (program :: verb :: file :: options) now_s fs io
    (done.1.code, done.2) = runImport (importConfig options) file now_s fs io := by
  simp only [importCommand, runImport]
  split_ifs <;> rfl

/-- The store of the incumbent. -/
def importStore (argv : List String) : ChainStore :=
  .forDatadir (importConfig (argv.drop 3)).datadir

/-- Whoever is not told of a new chain still finds the old one. -/
def LeavesIncumbent (argv : List String) (now_s : UInt64) (fs : FileSystem) (io : AppendOutcome) :
    Prop :=
  (importCommand argv now_s fs io).1.Keeps →
    (importStore argv).load (importCommand argv now_s fs io).2 = (importStore argv).load fs

/-- The candidate wins, the incumbent's file is truncated, and a later call fails. -/
structure SwapFails (argv : List String) (now_s : UInt64) (fs : FileSystem) (io : AppendOutcome)
    (candidate : List Block) : Prop where
  loads : ∃ file, argv[2]? = some file ∧
    (ChainStore.mk file).load fs = ⟨{ ok := true }, candidate⟩
  wins : (evaluateImport ((importStore argv).load fs).blocks candidate now_s
    (importConfig (argv.drop 3)).difficulty (importConfig (argv.drop 3)).reward).won = true
  opens : io.opens = true
  fails : io.failsAfter ≠ none ∨ io.syncs = false

/-- How many of `total` characters reach the file. -/
def AppendOutcome.reaches (io : AppendOutcome) (total : ℕ) : ℕ :=
  match io.failsAfter with
  | some n => min n total
  | none => total

/-- The write stops where a line of the candidate ends, and the lines so far read back as the
incumbent. -/
def StopsOn (io : AppendOutcome) (candidate incumbent : List Block) : Prop :=
  let lines := candidate.map toJsonLine
  ∃ k ≤ candidate.length,
    Lines.CutsAfter '\n' lines k (io.reaches (Lines.unlines '\n' lines).length) ∧
      (lines.take k).mapM fromJsonLine = some incumbent

/-! ### A failed rewrite -/

variable {store : ChainStore} {fs : FileSystem} {io : AppendOutcome}
  {candidate incumbent : List Block}

omit [Picojson] in
/-- A rewrite that gets past `open` leaves what it wrote and nothing else. -/
theorem ChainStore.rewrite_file (hopens : io.opens = true) :
    (store.rewrite fs io candidate).2 store.path =
      some ((Lines.unlines '\n' (candidate.map toJsonLine)).take
        (io.reaches (Lines.unlines '\n' (candidate.map toJsonLine)).length)) := by
  have hlines : (candidate.flatMap fun b => toJsonLine b ++ ['\n']) =
      Lines.unlines '\n' (candidate.map toJsonLine) := by
    rw [Lines.unlines, List.flatMap_map]
  rw [ChainStore.rewrite, hlines, AppendOutcome.reaches]
  simp only [hopens, not_true_eq_false, if_false]
  cases io.failsAfter with
  | none => exact (FileSystem.write_self _ _ _).trans (by rw [List.take_length])
  | some n => exact (FileSystem.write_self _ _ _).trans (by rw [← List.take_eq_take_min])

/-- What is left of a rewrite loads as the incumbent exactly if it stopped on it. -/
theorem ChainStore.rewrite_load_iff (hopens : io.opens = true)
    (htorn : ∀ b ∈ candidate, TearsShow b) :
    store.load (store.rewrite fs io candidate).2 = ⟨{ ok := true }, incumbent⟩ ↔
      StopsOn io candidate incumbent := by
  rw [ChainStore.load_eq_iff (ChainStore.rewrite_file hopens), StopsOn]
  generalize hn : io.reaches (Lines.unlines '\n' (candidate.map toJsonLine)).length = n
  have hle : n ≤ (Lines.unlines '\n' (candidate.map toJsonLine)).length := by
    rw [← hn, AppendOutcome.reaches]
    split <;> omega
  constructor
  · intro hload
    rcases Lines.cut_or_torn '\n' (candidate.map toJsonLine) hle with
      ⟨k, hk, hcut⟩ | ⟨k, line, m, hline, hpos, hlt, htake⟩
    · rw [Lines.records_take_of_cut (lines_separate candidate) hcut] at hload
      exact ⟨k, by simpa using hk, hcut, hload⟩
    · obtain ⟨b, hb, rfl⟩ := List.mem_map.mp (List.mem_of_getElem? hline)
      rw [htake, Lines.records_torn (lines_separate candidate) hline hpos hlt, List.mapM_append]
        at hload
      obtain ⟨front, -, hrest⟩ := Option.bind_eq_some_iff.mp hload
      obtain ⟨last, hlast, -⟩ := Option.bind_eq_some_iff.mp hrest
      rw [List.mapM_cons, fromJsonLine, htorn b hb m hpos hlt] at hlast
      cases hlast
  · rintro ⟨k, -, hcut, hread⟩
    rw [Lines.records_take_of_cut (lines_separate candidate) hcut]
    exact hread

omit [Picojson] in
theorem ChainStore.rewrite_closed (hclosed : io.opens = false) :
    (store.rewrite fs io candidate).2 = fs := by
  rw [ChainStore.rewrite]
  simp [hclosed]

omit [Picojson] in
/-- A rewrite reports success exactly if no call fails. -/
theorem ChainStore.rewrite_ok_iff (hopens : io.opens = true) :
    (store.rewrite fs io candidate).1 = true ↔ io.failsAfter = none ∧ io.syncs = true := by
  rw [ChainStore.rewrite]
  simp only [hopens, not_true_eq_false, if_false]
  cases io.failsAfter with
  | none => simp
  | some n => simp

/-! ### Every exit -/

variable {argv : List String} {now_s : UInt64} {file : String}

/-- Short of a winning candidate the command leaves every file alone. -/
theorem importCommand_kept
    (hlost : ∀ file candidate, argv[2]? = some file →
      (ChainStore.mk file).load fs = ⟨{ ok := true }, candidate⟩ →
      (evaluateImport ((importStore argv).load fs).blocks candidate now_s
        (importConfig (argv.drop 3)).difficulty (importConfig (argv.drop 3)).reward).won ≠ true) :
    (importCommand argv now_s fs io).2 = fs := by
  rcases argv with _ | ⟨program, _ | ⟨verb, _ | ⟨file, options⟩⟩⟩
  · rfl
  · rfl
  · rfl
  · rw [importCommand]
    by_cases hloaded : ((ChainStore.mk file).load fs).status.ok = true
    · have hwon := hlost file _ rfl (ChainStore.load_of_ok hloaded)
      simp only [hloaded, not_true_eq_false, if_false]
      split
      next => rfl
      next => exact congrArg Prod.snd (if_pos hwon)
    · exact congrArg Prod.snd (if_pos hloaded)

/-- With one it rewrites the incumbent's file, and reports what became of that. -/
theorem importCommand_won (io : AppendOutcome) (hfile : argv[2]? = some file)
    (hload : (ChainStore.mk file).load fs = ⟨{ ok := true }, candidate⟩)
    (hwon : (evaluateImport ((importStore argv).load fs).blocks candidate now_s
      (importConfig (argv.drop 3)).difficulty (importConfig (argv.drop 3)).reward).won = true) :
    (importCommand argv now_s fs io).2 = ((importStore argv).rewrite fs io candidate).2 ∧
      ((importCommand argv now_s fs io).1.Keeps ↔
        ((importStore argv).rewrite fs io candidate).1 ≠ true) := by
  rcases argv with _ | ⟨program, _ | ⟨verb, _ | ⟨f, options⟩⟩⟩
  · cases hfile
  · cases hfile
  · cases hfile
  · obtain rfl : f = file := Option.some.inj hfile
    have hstore : importStore (program :: verb :: f :: options) =
        .forDatadir (importConfig options).datadir := rfl
    have hdrop : (program :: verb :: f :: options).drop 3 = options := rfl
    rw [hdrop, hstore] at hwon
    have hvalid : (evaluateImport ((ChainStore.forDatadir (importConfig options).datadir).load
        fs).blocks candidate now_s (importConfig options).difficulty
        (importConfig options).reward).valid = true := (Bool.and_eq_true_iff.mp hwon).1
    rw [hstore, importCommand]
    simp only [hload, hvalid, hwon, not_true_eq_false, if_false]
    split
    next hfailed => exact ⟨rfl, fun _ => hfailed, fun _ => .inl Nat.one_ne_zero⟩
    next hwritten =>
      refine ⟨rfl, fun hkeeps => ?_, fun h => absurd h hwritten⟩
      rcases hkeeps with hcode | ⟨_, _, hretained⟩
      · exact absurd rfl hcode
      · cases hretained

/-- Whoever is not told of a new chain still finds the old one, exactly unless the swap fails
after the file was truncated, at a point other than the end of the old chain. -/
theorem failed_import_keeps_incumbent_iff (argv : List String) (now_s : UInt64) (fs : FileSystem)
    (io : AppendOutcome) (hclean : ((importStore argv).load fs).status.ok = true)
    (htorn : ∀ file ∈ argv[2]?, ∀ b ∈ ((ChainStore.mk file).load fs).blocks, TearsShow b) :
    LeavesIncumbent argv now_s fs io ↔
      ∀ candidate, SwapFails argv now_s fs io candidate →
        StopsOn io candidate ((importStore argv).load fs).blocks := by
  by_cases hwinner : ∃ file candidate, argv[2]? = some file ∧
      (ChainStore.mk file).load fs = ⟨{ ok := true }, candidate⟩ ∧
      (evaluateImport ((importStore argv).load fs).blocks candidate now_s
        (importConfig (argv.drop 3)).difficulty (importConfig (argv.drop 3)).reward).won = true
  · obtain ⟨file, candidate, hfile, hload, hwon⟩ := hwinner
    obtain ⟨hfiles, hkeeps⟩ := importCommand_won io hfile hload hwon
    have hblocks : ∀ b ∈ candidate, TearsShow b := by
      have hall := htorn file hfile
      rwa [hload] at hall
    have hunique : ∀ candidate', SwapFails argv now_s fs io candidate' →
        candidate' = candidate := by
      intro candidate' h
      obtain ⟨file', hfile', hload'⟩ := h.loads
      obtain rfl : file = file' := Option.some.inj (hfile.symm.trans hfile')
      exact congrArg LoadResult.blocks (hload'.symm.trans hload)
    rw [LeavesIncumbent, hfiles, hkeeps]
    by_cases hopens : io.opens = true
    · rw [ChainStore.load_of_ok hclean, ChainStore.rewrite_load_iff hopens hblocks,
        ne_eq, ChainStore.rewrite_ok_iff hopens]
      constructor
      · intro h candidate' hfails
        obtain rfl := hunique candidate' hfails
        apply h
        rintro ⟨hwritten, hsynced⟩
        rcases hfails.fails with hcut | hunsynced
        · exact hcut hwritten
        · exact absurd (hsynced.symm.trans hunsynced) (by decide)
      · intro h hfails
        refine h candidate ⟨⟨file, hfile, hload⟩, hwon, hopens, ?_⟩
        rw [← Bool.not_eq_true]
        exact not_and_or.mp hfails
    · have hclosed := Bool.eq_false_iff.mpr hopens
      rw [ChainStore.rewrite_closed hclosed]
      exact ⟨fun _ _ hfails => absurd hfails.opens hopens, fun _ _ => rfl⟩
  · have hlost : ∀ file candidate, argv[2]? = some file → _ → _ ≠ true :=
      fun file candidate hfile hload hwon => hwinner ⟨file, candidate, hfile, hload, hwon⟩
    rw [LeavesIncumbent, importCommand_kept hlost]
    refine ⟨fun _ candidate hfails => ?_, fun _ _ => rfl⟩
    obtain ⟨file, hfile, hload⟩ := hfails.loads
    exact absurd hfails.wins (hlost file candidate hfile hload)

omit [Picojson] in
/-- A parser that knows the lines of block zero and block one knows no part of them. -/
theorem parserOf_pair_torn {b₀ b₁ : Block} (h₀ : b₀.header.index = 0) (h₁ : b₁.header.index = 1) :
    letI := parserOf [b₀, b₁]
    ∀ b ∈ [b₀, b₁], TearsShow b := by
  intro b hb m hpos hlt
  have hnone : ∀ b' ∈ [b₀, b₁], ¬toJsonLine b' = (toJsonLine b).take m := by
    intro b' hb' hline
    have hlength := congrArg List.length hline
    rw [List.length_take, Nat.min_eq_left hlt.le] at hlength
    have hfront : toJsonLine b' <+: toJsonLine b := hline ▸ List.take_prefix _ _
    rcases List.mem_pair.mp hb with rfl | rfl <;> rcases List.mem_pair.mp hb' with rfl | rfl
    · omega
    · exact toJsonLine_apart h₀ h₁ List.prefix_rfl hfront
    · exact toJsonLine_apart h₀ h₁ hfront List.prefix_rfl
    · omega
  refine (Picojson.parse_ofOption _ _).trans ?_
  rw [Option.map_eq_none_iff, List.find?_eq_none]
  intro b' hb'
  simpa using hnone b' hb'

end Swap

section Samples

attribute [local instance] sampleKeys

def importArgs : List String := ["txchain", "import", "other.jsonl", "--difficulty", "0"]

/-- A file with one block more than the datadir. -/
def rivalFiles : FileSystem := fun p =>
  if p = "other.jsonl" then
    some (Lines.unlines '\n' ([genesisBlock, successor genesisBlock].map toJsonLine))
  else if p = "./txchain-data/chain.jsonl" then
    some (Lines.unlines '\n' ([genesisBlock].map toJsonLine))
  else none

/-- The disk is full right after the file was truncated. -/
def fullDisk : AppendOutcome := ⟨true, some 0, true⟩

theorem importArgs_config : importConfig (importArgs.drop 3) = {} := by
  have hdatadir : opt (importArgs.drop 3) "--datadir" = "" := by decide
  have hdifficulty : opt (importArgs.drop 3) "--difficulty" = "0" := by decide
  have hnumber : (Scan.strtoull "0".toList).toUInt32 = 0 := by decide
  simp only [importConfig, hdatadir, hdifficulty, hnumber, if_true]
  rfl

theorem importArgs_store : importStore importArgs = ⟨"./txchain-data/chain.jsonl"⟩ := by decide

variable [Picojson]

theorem rivalFiles_load
    (hread : ∀ b ∈ [genesisBlock, successor genesisBlock], fromJsonLine (toJsonLine b) = some b) :
    (importStore importArgs).load rivalFiles = ⟨{ ok := true }, [genesisBlock]⟩ ∧
      (ChainStore.mk "other.jsonl").load rivalFiles =
        ⟨{ ok := true }, [genesisBlock, successor genesisBlock]⟩ := by
  have hincumbent : (importStore importArgs).Holds rivalFiles [genesisBlock] := by
    rw [importArgs_store]
    exact (if_neg (by decide)).trans (if_pos rfl)
  refine ⟨hincumbent.load fun b hb => hread b ?_, ChainStore.Holds.load (if_pos rfl) hread⟩
  rw [List.mem_singleton.mp hb]
  exact List.mem_cons_self

theorem rival_wins
    (hread : ∀ b ∈ [genesisBlock, successor genesisBlock], fromJsonLine (toJsonLine b) = some b) :
    (evaluateImport ((importStore importArgs).load rivalFiles).blocks
      [genesisBlock, successor genesisBlock] genesisTimestamp
      (importConfig (importArgs.drop 3)).difficulty
      (importConfig (importArgs.drop 3)).reward).won = true := by
  have hwork : cumulativeWork [genesisBlock] 0 <
      cumulativeWork [genesisBlock, successor genesisBlock] 0 := by
    have hone : [genesisBlock].length - 1 = 0 := rfl
    have htwo : [genesisBlock, successor genesisBlock].length - 1 = 1 := rfl
    rw [cumulativeWork_eq, cumulativeWork_eq, hone, htwo]
    decide
  rw [(rivalFiles_load hread).1, importArgs_config]
  exact evaluateImport_won_iff.mpr ⟨pair_replays genesisBlock_ok rfl, hwork⟩

omit [Picojson] in
/-- The disk fills up, the import fails, and the datadir that held a chain holds none. -/
theorem full_disk_loses_incumbent :
    letI := parserOf [genesisBlock, successor genesisBlock]
    (∀ b ∈ [genesisBlock, successor genesisBlock], ParsesFaithfully b ∧ TearsShow b) ∧
      (importStore importArgs).load rivalFiles = ⟨{ ok := true }, [genesisBlock]⟩ ∧
      (importCommand importArgs genesisTimestamp rivalFiles fullDisk).1.Keeps ∧
      (importStore importArgs).load
          (importCommand importArgs genesisTimestamp rivalFiles fullDisk).2 =
        ⟨{ ok := true }, []⟩ ∧
      ¬LeavesIncumbent importArgs genesisTimestamp rivalFiles fullDisk := by
  let := parserOf [genesisBlock, successor genesisBlock]
  have hparse : ∀ b ∈ [genesisBlock, successor genesisBlock], ParsesFaithfully b :=
    pair_faithful rfl
  have hread := pair_readable rfl hparse
  obtain ⟨hincumbent, hcandidate⟩ := rivalFiles_load hread
  have hfile : importArgs[2]? = some "other.jsonl" := rfl
  obtain ⟨hfiles, hkeeps⟩ := importCommand_won fullDisk hfile hcandidate (rival_wins hread)
  have hfailed : (importCommand importArgs genesisTimestamp rivalFiles fullDisk).1.Keeps :=
    hkeeps.mpr Bool.false_ne_true
  have hempty : (importStore importArgs).load
      (importCommand importArgs genesisTimestamp rivalFiles fullDisk).2 = ⟨{ ok := true }, []⟩ := by
    have hnothing : ∀ total, fullDisk.reaches total = 0 := fun total => Nat.zero_min total
    rw [hfiles, ChainStore.load_eq_iff (ChainStore.rewrite_file rfl), hnothing, List.take_zero,
      Lines.records_nil]
    rfl
  refine ⟨fun b hb => ⟨hparse b hb, parserOf_pair_torn rfl rfl b hb⟩, hincumbent, hfailed, hempty,
    fun hleaves => ?_⟩
  have hsame := hleaves hfailed
  rw [hempty, hincumbent] at hsame
  cases hsame

omit [Picojson] in
/-- A disk that fills up behind the first line does no harm here. -/
theorem stop_on_incumbent_keeps_it :
    letI := parserOf [genesisBlock, successor genesisBlock]
    LeavesIncumbent importArgs genesisTimestamp rivalFiles
      ⟨true, some (toJsonLine genesisBlock).length, true⟩ := by
  let := parserOf [genesisBlock, successor genesisBlock]
  have hparse : ∀ b ∈ [genesisBlock, successor genesisBlock], ParsesFaithfully b :=
    pair_faithful rfl
  have hread := pair_readable rfl hparse
  obtain ⟨hincumbent, hcandidate⟩ := rivalFiles_load hread
  refine (failed_import_keeps_incumbent_iff importArgs genesisTimestamp rivalFiles _ ?_ ?_).mpr ?_
  · rw [hincumbent]
  · intro file hfile
    obtain rfl : "other.jsonl" = file := Option.some.inj hfile
    rw [hcandidate]
    exact parserOf_pair_torn rfl rfl
  · intro candidate hfails
    obtain ⟨file, hfile, hload⟩ := hfails.loads
    obtain rfl : "other.jsonl" = file := Option.some.inj hfile
    obtain rfl : [genesisBlock, successor genesisBlock] = candidate :=
      congrArg LoadResult.blocks (hcandidate.symm.trans hload)
    rw [hincumbent]
    refine ⟨1, Nat.le_succ 1, .inr ?_, ?_⟩
    · simp [AppendOutcome.reaches, Lines.unlines]
    · simp [hread genesisBlock]

end Samples

end TxChain
