import TxChain.Json.Parser
import TxChain.Library.Options
import TxChain.Library.Scan
import TxChain.Library.Wrapping
import TxChain.Node.Node

/-!
# The effective configuration

Built-in defaults, then the configuration file, then the flags of the command line. Which
file is read is decided by a first scan of the command line, which takes every argument for
a flag that another one follows; the flags themselves are read by a parse in which a flag
consumes its value. A number of the file is dropped if it is negative, and else truncated and
wrapped into its field.
-/

namespace TxChain

open Options Wrapping

/-- The fully resolved configuration; the chain reads the part it extends. -/
structure EffectiveConfig extends NodeConfig where
  mine : Bool := false
  sealCadenceMs : UInt64 := 5000
  sealEmpty : Bool := true
  maxTxnsPerBlock : UInt64 := 8
  nodeIndex : Int32 := 0
  portBase : Int32 := 29000
  rpcPort : Int32 := 0
  noRpc : Bool := false
  noP2p : Bool := false
  maxSkewS : UInt64 := 7200
  logFormat : String := "json"

/-! ### The configuration file -/

def getBool (o : Fields) (key : String) : Option Bool :=
  match o.lookup key with
  | some (.bool b) => some b
  | _ => none

def getStr (o : Fields) (key : String) : Option String :=
  match o.lookup key with
  | some (.string s) => some (String.ofList s)
  | _ => none

/-- `static_cast<std::uint64_t>` of an `int`. -/
def widen (i : Int32) : UInt64 := i.toInt64.toUInt64

/-- `static_cast<int>` of a 64-bit word. -/
def narrow (v : UInt64) : Int32 := v.toInt64.toInt32

/-- How the program can end before it has a configuration. -/
inductive ConfigFault where
  /-- the parser throws, and nothing catches it -/
  | exception
  /-- a double is cast to 64 bits that do not hold it, which has no defined result -/
  | undefinedCast
  deriving DecidableEq

/-- `get_u64` of the configuration file, with what `out` holds so far. -/
def configU64 (o : Fields) (key : String) (out : UInt64) : Except ConfigFault UInt64 :=
  match o.lookup key with
  | some (.int64 x) => .ok (if 0 ≤ x then UInt64.ofNat x.toNat else out)
  | some (.double d) =>
      if 0 ≤ d then
        if d < 2 ^ 64 then .ok (UInt64.ofNat ⌊d⌋₊) else .error .undefinedCast
      else .ok out
  | _ => .ok out

/-- A recognised key of the right type replaces the value so far. -/
def overlay (o : Fields) (cfg : EffectiveConfig) : Except ConfigFault EffectiveConfig := do
  let sealCadenceMs ← configU64 o "seal_cadence_ms" cfg.sealCadenceMs
  let maxSkewS ← configU64 o "max_skew_s" cfg.maxSkewS
  let maxTxnsPerBlock ← configU64 o "max_txns_per_block" cfg.maxTxnsPerBlock
  let difficulty ← configU64 o "difficulty" cfg.difficulty.toUInt64
  let nodeIndex ← configU64 o "node_index" (widen cfg.nodeIndex)
  let portBase ← configU64 o "port_base" (widen cfg.portBase)
  return {
    datadir := (getStr o "datadir").getD cfg.datadir
    mine := (getBool o "mine").getD cfg.mine
    sealEmpty := (getBool o "seal_empty").getD cfg.sealEmpty
    noRpc := (getBool o "no_rpc").getD cfg.noRpc
    noP2p := (getBool o "no_p2p").getD cfg.noP2p
    sealCadenceMs
    maxSkewS
    maxTxnsPerBlock
    difficulty := difficulty.toUInt32
    nodeIndex := narrow nodeIndex
    portBase := narrow portBase
    rpcPort := cfg.rpcPort
    logFormat := (getStr o "log_format").getD cfg.logFormat }

def applyConfigFile [Picojson] (fs : FileSystem) (path : String) (cfg : EffectiveConfig) :
    Except ConfigFault EffectiveConfig :=
  match fs path with
  | none => .ok cfg
  | some content =>
      match Picojson.outcome content with
      | .ok (.object o) => overlay o cfg
      | .error .threw => .error .exception
      | _ => .ok cfg

/-! ### The command line -/

/-- The flags, in the order in which the parse compares an argument with them. -/
inductive Flag where
  | datadir
  | config
  | mine
  | noRpc
  | noP2p
  | sealCadence
  | sealEmpty
  | maxTxnsPerBlock
  | difficulty
  | nodeIndex
  | portBase
  | rpcPort
  | maxSkew
  | logFormat
  deriving DecidableEq

def Flag.name : Flag → String
  | .datadir => "--datadir"
  | .config => "--config"
  | .mine => "--mine"
  | .noRpc => "--no-rpc"
  | .noP2p => "--no-p2p"
  | .sealCadence => "--seal-cadence"
  | .sealEmpty => "--seal-empty"
  | .maxTxnsPerBlock => "--max-txns-per-block"
  | .difficulty => "--difficulty"
  | .nodeIndex => "--node-index"
  | .portBase => "--port-base"
  | .rpcPort => "--rpc-port"
  | .maxSkew => "--max-skew"
  | .logFormat => "--log-format"

def Flag.all : List Flag :=
  [.datadir, .config, .mine, .noRpc, .noP2p, .sealCadence, .sealEmpty, .maxTxnsPerBlock,
   .difficulty, .nodeIndex, .portBase, .rpcPort, .maxSkew, .logFormat]

/-- The flag an argument is; other arguments are ignored. -/
def Flag.read (arg : String) : Option Flag := Flag.all.find? fun f => arg = f.name

/-- The switches take no value. -/
def Flag.takesValue : Flag → Bool
  | .mine => false
  | .noRpc => false
  | .noP2p => false
  | _ => true

def truthy (v : String) : Bool := v = "true" ∨ v = "1"

def toU64 (v : String) : UInt64 := Scan.strtoull v.toList

/-- `static_cast<int>` of `std::strtol`. -/
def toInt (v : String) : Int32 := (Scan.strtol v.toList).toInt32

/-- What a flag with its value sets. -/
def Flag.set : Flag → String → EffectiveConfig → EffectiveConfig
  | .datadir, v, cfg => { cfg with datadir := v }
  | .config, _, cfg => cfg
  | .mine, _, cfg => { cfg with mine := true }
  | .noRpc, _, cfg => { cfg with noRpc := true }
  | .noP2p, _, cfg => { cfg with noP2p := true }
  | .sealCadence, v, cfg => { cfg with sealCadenceMs := toU64 v }
  | .sealEmpty, v, cfg => { cfg with sealEmpty := truthy v }
  | .maxTxnsPerBlock, v, cfg => { cfg with maxTxnsPerBlock := toU64 v }
  | .difficulty, v, cfg => { cfg with difficulty := (toU64 v).toUInt32 }
  | .nodeIndex, v, cfg => { cfg with nodeIndex := toInt v }
  | .portBase, v, cfg => { cfg with portBase := toInt v }
  | .rpcPort, v, cfg => { cfg with rpcPort := toInt v }
  | .maxSkew, v, cfg => { cfg with maxSkewS := toU64 v }
  | .logFormat, v, cfg => { cfg with logFormat := v }

/-- The first scan: the datadir and the configuration file that decide which file is read. -/
def preScan : List String → String × String → String × String
  | a :: v :: rest, (datadir, config_file) =>
      preScan (v :: rest)
        (if a = "--datadir" then (v, config_file)
        else if a = "--config" then (datadir, v)
        else (datadir, config_file))
  | _, found => found

/-- The last pass: every flag consumes its value, which is empty at the end of the line. -/
def applyFlags : List String → EffectiveConfig → EffectiveConfig
  | [], cfg => cfg
  | [a], cfg =>
      match Flag.read a with
      | none => cfg
      | some f => f.set "" cfg
  | a :: v :: rest, cfg =>
      match Flag.read a with
      | none => applyFlags (v :: rest) cfg
      | some f =>
          if f.takesValue then applyFlags rest (f.set v cfg)
          else applyFlags (v :: rest) (f.set "" cfg)

/-- The file that the first scan decides on. -/
def configPath (found : String × String) : String :=
  if found.2 = "" then found.1 ++ "/node.json" else found.2

def resolveConfig [Picojson] (argv : List String) (fs : FileSystem) :
    Except ConfigFault EffectiveConfig := do
  let cfg : EffectiveConfig := {}
  let found := preScan (argv.drop 1) (cfg.datadir, "")
  let cfg ← applyConfigFile fs (configPath found) { cfg with datadir := found.1 }
  return applyFlags (argv.drop 1) cfg

/-! ### What the parse assigns -/

/-- The grammar of the command line. -/
def flagGrammar : Grammar String Flag := ⟨Flag.read, Flag.takesValue⟩

/-- The value of the last occurrence of a flag in the parse. -/
def assigned (f : Flag) (args : List String) : Option String := last f (parse flagGrammar "" args)

theorem Flag.read_name (f : Flag) : Flag.read f.name = some f := by cases f <;> decide +kernel

theorem Flag.read_iff {arg : String} {f : Flag} : Flag.read arg = some f ↔ arg = f.name := by
  constructor
  · intro h
    have hfound := List.find?_some h
    exact of_decide_eq_true hfound
  · rintro rfl
    exact f.read_name

/-- The last pass sets what the parse finds, one after another. -/
theorem applyFlags_eq (args : List String) (cfg : EffectiveConfig) :
    applyFlags args cfg =
      (parse flagGrammar "" args).foldl (fun cfg o => o.1.set o.2 cfg) cfg := by
  induction args using parse.induct flagGrammar generalizing cfg with
  | case1 => rfl
  | case2 a =>
      have hgrammar : flagGrammar.read a = Flag.read a := rfl
      rw [applyFlags, parse, hgrammar]
      cases Flag.read a <;> rfl
  | case3 a v rest hread ih =>
      have hflag : Flag.read a = none := hread
      rw [applyFlags, parse, hflag, hread]
      exact ih cfg
  | case4 a v rest f hread htakes ih =>
      have hflag : Flag.read a = some f := hread
      rw [applyFlags, parse, hflag, hread]
      dsimp only
      rw [if_pos htakes]
      exact (if_pos htakes).trans (ih (f.set v cfg))
  | case5 a v rest f hread hswitch ih =>
      have hflag : Flag.read a = some f := hread
      rw [applyFlags, parse, hflag, hread]
      dsimp only
      rw [if_neg hswitch]
      exact (if_neg hswitch).trans (ih (f.set "" cfg))

theorem applyFlags_field {α : Type} {π : EffectiveConfig → α} {f : Flag} {g : String → α}
    (hset : ∀ cfg k v, π (Flag.set k v cfg) = if k = f then g v else π cfg) (args : List String)
    (cfg : EffectiveConfig) :
    π (applyFlags args cfg) = ((assigned f args).map g).getD (π cfg) := by
  rw [applyFlags_eq]
  exact foldl_set hset _ cfg

/-- The first scan finds the last one of each in front of another argument. -/
theorem preScan_eq (args : List String) (found : String × String) :
    preScan args found =
      ((last .datadir (pairs flagGrammar args)).getD found.1,
        (last .config (pairs flagGrammar args)).getD found.2) := by
  induction args generalizing found with
  | nil => rfl
  | cons a args ih =>
      cases args with
      | nil => rfl
      | cons v rest =>
          obtain ⟨datadir, config_file⟩ := found
          have hreadDatadir : flagGrammar.read a = some .datadir ↔ a = "--datadir" := Flag.read_iff
          have hreadConfig : flagGrammar.read a = some .config ↔ a = "--config" := Flag.read_iff
          rw [preScan, ih, last_pairs_cons, last_pairs_cons, Option.getD_or, Option.getD_or,
            if_congr hreadDatadir rfl rfl, if_congr hreadConfig rfl rfl]
          by_cases hdatadir : a = "--datadir"
          · have hother : a ≠ "--config" := by
              rw [hdatadir]
              decide
            rw [if_pos hdatadir, if_pos hdatadir, if_neg hother]
            rfl
          · rw [if_neg hdatadir, if_neg hdatadir]
            by_cases hconfig : a = "--config"
            · rw [if_pos hconfig, if_pos hconfig]
              rfl
            · rw [if_neg hconfig, if_neg hconfig]
              rfl

/-! ### What the file says -/

/-- The object in a file; a file that is missing or holds no object has no keys. -/
def fileFields [Picojson] (fs : FileSystem) (path : String) : Fields :=
  match (fs path).bind Picojson.parse with
  | some (.object o) => o
  | _ => []

/-- The number at a key. -/
def fileNumber (o : Fields) (key : String) : Option ℚ :=
  match o.lookup key with
  | some (.int64 x) => some x
  | some (.double d) => some d
  | _ => none

/-- The value at a key of an integer field, which has the right type if the field can hold it. -/
def fileInteger (lo hi : ℤ) (o : Fields) (key : String) : Option ℤ :=
  (fileNumber o key).bind (within lo hi)

/-! ### Precedence -/

/-- The flag wins over the file, the file over the built-in default. -/
def layered {α : Type} (flag file : Option α) (builtin : α) : α := (flag.or file).getD builtin

/-- Every field is layered: its flag in the parse, its key in the file, its default. -/
structure Layered (args : List String) (o : Fields) (cfg : EffectiveConfig) : Prop where
  datadir : cfg.datadir =
    layered (assigned .datadir args) (getStr o "datadir") "./txchain-data"
  mine : cfg.mine = layered ((assigned .mine args).map fun _ => true) (getBool o "mine") false
  noRpc : cfg.noRpc =
    layered ((assigned .noRpc args).map fun _ => true) (getBool o "no_rpc") false
  noP2p : cfg.noP2p =
    layered ((assigned .noP2p args).map fun _ => true) (getBool o "no_p2p") false
  sealEmpty : cfg.sealEmpty =
    layered ((assigned .sealEmpty args).map truthy) (getBool o "seal_empty") true
  logFormat : cfg.logFormat = layered (assigned .logFormat args) (getStr o "log_format") "json"
  sealCadenceMs : (cfg.sealCadenceMs.toNat : ℤ) =
    layered ((assigned .sealCadence args).map fun v => ((toU64 v).toNat : ℤ))
      (fileInteger 0 (2 ^ 64) o "seal_cadence_ms") 5000
  maxTxnsPerBlock : (cfg.maxTxnsPerBlock.toNat : ℤ) =
    layered ((assigned .maxTxnsPerBlock args).map fun v => ((toU64 v).toNat : ℤ))
      (fileInteger 0 (2 ^ 64) o "max_txns_per_block") 8
  maxSkewS : (cfg.maxSkewS.toNat : ℤ) =
    layered ((assigned .maxSkew args).map fun v => ((toU64 v).toNat : ℤ))
      (fileInteger 0 (2 ^ 64) o "max_skew_s") 7200
  difficulty : (cfg.difficulty.toNat : ℤ) =
    layered ((assigned .difficulty args).map fun v => ((toU64 v).toUInt32.toNat : ℤ))
      (fileInteger 0 (2 ^ 32) o "difficulty") 0
  nodeIndex : cfg.nodeIndex.toInt =
    layered ((assigned .nodeIndex args).map fun v => (toInt v).toInt)
      (fileInteger (-2 ^ 31) (2 ^ 31) o "node_index") 0
  portBase : cfg.portBase.toInt =
    layered ((assigned .portBase args).map fun v => (toInt v).toInt)
      (fileInteger (-2 ^ 31) (2 ^ 31) o "port_base") 29000
  rpcPort : cfg.rpcPort.toInt =
    layered ((assigned .rpcPort args).map fun v => (toInt v).toInt)
      (fileInteger (-2 ^ 31) (2 ^ 31) o "rpc_port") 0

theorem layered_getD {α : Type} (flag file : Option α) (builtin : α) :
    layered flag file builtin = flag.getD (file.getD builtin) := by cases flag <;> rfl

/-! ### What the program makes of the file -/

def numericKeys : List String :=
  ["seal_cadence_ms", "max_skew_s", "max_txns_per_block", "difficulty", "node_index", "port_base"]

/-- A double at the key fits the cast. -/
def Castable (o : Fields) (key : String) : Prop :=
  ∀ d, o.lookup key = some (.double d) → d < 2 ^ 64

/-- A number that is not negative, truncated and wrapped, in place of the value so far. -/
def taken (out : UInt64) : Option ℚ → UInt64
  | none => out
  | some q => if 0 ≤ q then UInt64.ofNat ⌊q⌋₊ else out

theorem configU64_ok_iff {o : Fields} {key : String} {out v : UInt64} :
    configU64 o key out = .ok v ↔ Castable o key ∧ v = taken out (fileNumber o key) := by
  rw [configU64, Castable, fileNumber]
  cases o.lookup key with
  | none => simp [taken, eq_comm]
  | some value =>
      cases value with
      | int64 x =>
          have hfloor : ⌊(x : ℚ)⌋₊ = x.toNat := by rw [← Int.floor_toNat, Int.floor_intCast]
          simp [taken, hfloor, eq_comm]
      | double d =>
          by_cases hneg : 0 ≤ d
          · by_cases hfits : d < 2 ^ 64
            · simp [taken, hneg, hfits, eq_comm]
            · simp [hneg, hfits]
          · have hfits : d < 2 ^ 64 := (not_le.mp hneg).trans (by norm_num)
            simp [taken, hneg, hfits, eq_comm]
      | _ => simp [taken, eq_comm]

/-- The configuration that the file leaves. -/
def overlaid (o : Fields) (cfg : EffectiveConfig) : EffectiveConfig where
  datadir := (getStr o "datadir").getD cfg.datadir
  mine := (getBool o "mine").getD cfg.mine
  sealEmpty := (getBool o "seal_empty").getD cfg.sealEmpty
  noRpc := (getBool o "no_rpc").getD cfg.noRpc
  noP2p := (getBool o "no_p2p").getD cfg.noP2p
  sealCadenceMs := taken cfg.sealCadenceMs (fileNumber o "seal_cadence_ms")
  maxSkewS := taken cfg.maxSkewS (fileNumber o "max_skew_s")
  maxTxnsPerBlock := taken cfg.maxTxnsPerBlock (fileNumber o "max_txns_per_block")
  difficulty := (taken cfg.difficulty.toUInt64 (fileNumber o "difficulty")).toUInt32
  nodeIndex := narrow (taken (widen cfg.nodeIndex) (fileNumber o "node_index"))
  portBase := narrow (taken (widen cfg.portBase) (fileNumber o "port_base"))
  rpcPort := cfg.rpcPort
  logFormat := (getStr o "log_format").getD cfg.logFormat

theorem except_bind_ok_iff {ε α β : Type} {x : Except ε α} {f : α → Except ε β} {b : β} :
    (x >>= f) = .ok b ↔ ∃ a, x = .ok a ∧ f a = .ok b := by
  cases x <;> simp [bind, Except.bind]

theorem overlay_ok_iff {o : Fields} {cfg cfg' : EffectiveConfig} :
    overlay o cfg = .ok cfg' ↔ (∀ key ∈ numericKeys, Castable o key) ∧ cfg' = overlaid o cfg := by
  have hpure : ∀ c : EffectiveConfig, (pure c : Except ConfigFault EffectiveConfig) = .ok cfg' ↔
      cfg' = c := fun c => ⟨fun h => (Except.ok.inj h).symm, fun h => congrArg Except.ok h.symm⟩
  simp only [overlay, except_bind_ok_iff, configU64_ok_iff, numericKeys, List.forall_mem_cons,
    hpure]
  constructor
  · rintro ⟨_, ⟨h₁, rfl⟩, _, ⟨h₂, rfl⟩, _, ⟨h₃, rfl⟩, _, ⟨h₄, rfl⟩, _, ⟨h₅, rfl⟩, _, ⟨h₆, rfl⟩, rfl⟩
    exact ⟨⟨h₁, h₂, h₃, h₄, h₅, h₆, nofun⟩, rfl⟩
  · rintro ⟨⟨h₁, h₂, h₃, h₄, h₅, h₆, -⟩, rfl⟩
    exact ⟨_, ⟨h₁, rfl⟩, _, ⟨h₂, rfl⟩, _, ⟨h₃, rfl⟩, _, ⟨h₄, rfl⟩, _, ⟨h₅, rfl⟩, _, ⟨h₆, rfl⟩, rfl⟩

/-- What stands at a key is taken carelessly, whatever the width of its field. -/
theorem taken_careless (π : UInt64 → ℤ) (out : UInt64) {lo hi builtin : ℤ} (hout : π out = builtin)
    (hwraps : ∀ n : ℕ, Wraps lo hi n (π (UInt64.ofNat n))) (number : Option ℚ) :
    Careless lo hi builtin number (π (taken out number)) where
  missing := by
    rintro rfl
    exact hout
  negative := by
    rintro q rfl hneg
    rw [taken, if_neg (not_le.mpr hneg), hout]
  other := by
    rintro q rfl hpos
    rw [taken, if_pos hpos, ← Int.natCast_floor_eq_floor hpos]
    exact hwraps _

/-- An `int` survives the detour through a 64-bit word. -/
theorem narrow_widen (i : Int32) : narrow (widen i) = i := by
  rw [narrow, widen, Int64.toInt64_toUInt64, Int32.toInt32_toInt64]

/-- A file without keys changes nothing. -/
theorem overlaid_nil (cfg : EffectiveConfig) : overlaid [] cfg = cfg := by
  have hdifficulty : cfg.difficulty.toUInt64.toUInt32 = cfg.difficulty :=
    UInt32.toUInt32_toUInt64 cfg.difficulty
  have hnode := narrow_widen cfg.nodeIndex
  have hport := narrow_widen cfg.portBase
  show { cfg with
    difficulty := cfg.difficulty.toUInt64.toUInt32
    nodeIndex := narrow (widen cfg.nodeIndex)
    portBase := narrow (widen cfg.portBase) } = cfg
  rw [hdifficulty, hnode, hport]

section Reads

variable [Picojson] {fs : FileSystem} {path : String}

/-- The file is read to the end: the parser returns, and every double is cast into its range. -/
structure ReadsFile (fs : FileSystem) (path : String) : Prop where
  returns : ∀ content, fs path = some content → Picojson.outcome content ≠ .error .threw
  casts : ∀ key ∈ numericKeys, Castable (fileFields fs path) key

theorem ReadsFile.of_nil (hfields : fileFields fs path = [])
    (hreturns : ∀ content, fs path = some content → Picojson.outcome content ≠ .error .threw) :
    ReadsFile fs path := by
  refine ⟨hreturns, fun key _ => ?_⟩
  rw [hfields]
  exact nofun

/-- A file that is read as no object leaves the configuration as it was. -/
theorem ok_iff_of_nil {cfg cfg' : EffectiveConfig} (hfields : fileFields fs path = [])
    (hreturns : ∀ content, fs path = some content → Picojson.outcome content ≠ .error .threw) :
    (Except.ok cfg : Except ConfigFault EffectiveConfig) = .ok cfg' ↔
      ReadsFile fs path ∧ cfg' = overlaid (fileFields fs path) cfg := by
  rw [hfields, overlaid_nil]
  exact ⟨fun h => ⟨.of_nil hfields hreturns, (Except.ok.inj h).symm⟩,
    fun h => congrArg Except.ok h.2.symm⟩

theorem applyConfigFile_ok_iff {cfg cfg' : EffectiveConfig} :
    applyConfigFile fs path cfg = .ok cfg' ↔
      ReadsFile fs path ∧ cfg' = overlaid (fileFields fs path) cfg := by
  rw [applyConfigFile]
  cases hfile : fs path with
  | none =>
      refine ok_iff_of_nil (by rw [fileFields, hfile]; rfl) ?_
      rw [hfile]
      exact nofun
  | some content =>
      have hparse : (fs path).bind Picojson.parse = (Picojson.outcome content).toOption := by
        rw [hfile]
        rfl
      have hreturns : Picojson.outcome content ≠ .error .threw →
          ∀ c, fs path = some c → Picojson.outcome c ≠ .error .threw := by
        intro h c hc
        rwa [Option.some.inj (hc.symm.trans hfile)]
      dsimp only
      split
      next o houtcome =>
        have hfields : fileFields fs path = o := by
          rw [fileFields, hparse, houtcome]
          rfl
        rw [overlay_ok_iff, hfields]
        refine and_congr_left fun _ => ⟨fun hcasts => ⟨hreturns ?_, ?_⟩, fun h => ?_⟩
        · rw [houtcome]
          exact nofun
        · rwa [hfields]
        · have hcasts := h.casts
          rwa [hfields] at hcasts
      next houtcome =>
        exact ⟨nofun, fun h => absurd houtcome (h.1.returns content hfile)⟩
      next hobject hthrew =>
        refine ok_iff_of_nil ?_ (hreturns hthrew)
        rw [fileFields, hparse]
        cases houtcome : Picojson.outcome content with
        | error fault => rfl
        | ok v =>
            cases v with
            | object o => exact absurd houtcome (hobject o)
            | _ => rfl

end Reads

section Resolve

variable [Picojson] {argv args : List String} {fs : FileSystem}

/-- What the first scan of a command line finds. -/
def scanned (args : List String) : String × String := preScan args ("./txchain-data", "")

/-- The file that the parse assigns. -/
def assignedPath (args : List String) : String :=
  configPath ((assigned .datadir args).getD "./txchain-data", (assigned .config args).getD "")

theorem resolveConfig_ok_iff {cfg : EffectiveConfig} :
    resolveConfig argv fs = .ok cfg ↔
      ReadsFile fs (configPath (scanned (argv.drop 1))) ∧
        cfg = applyFlags (argv.drop 1)
          (overlaid (fileFields fs (configPath (scanned (argv.drop 1))))
            { datadir := (scanned (argv.drop 1)).1 }) := by
  have hrun : resolveConfig argv fs =
      (applyConfigFile fs (configPath (scanned (argv.drop 1)))
        { datadir := (scanned (argv.drop 1)).1 }) >>= fun cfg =>
          .ok (applyFlags (argv.drop 1) cfg) := rfl
  rw [hrun, except_bind_ok_iff]
  simp only [applyConfigFile_ok_iff, Except.ok.injEq]
  constructor
  · rintro ⟨_, ⟨hreads, rfl⟩, rfl⟩
    exact ⟨hreads, rfl⟩
  · rintro ⟨hreads, rfl⟩
    exact ⟨_, ⟨hreads, rfl⟩, rfl⟩

omit [Picojson] in
/-- A field is layered exactly if it is where no flag sets it. -/
theorem applyFlags_layered_iff {α : Type} (π : EffectiveConfig → α) (f : Flag) {g : String → α}
    {cfg : EffectiveConfig} {file : Option α} {builtin : α}
    (hset : ∀ cfg k v, π (Flag.set k v cfg) = if k = f then g v else π cfg) (args : List String) :
    π (applyFlags args cfg) = layered ((assigned f args).map g) file builtin ↔
      (assigned f args = none → π cfg = file.getD builtin) := by
  rw [applyFlags_field hset, layered_getD]
  cases assigned f args with
  | none => simp
  | some v => simp

omit [Picojson] in
/-- A number of the file that is taken carelessly is layered exactly if it fits. -/
theorem number_layered_iff (args : List String) (cfg : EffectiveConfig) (π : EffectiveConfig → ℤ)
    (f : Flag) (g : String → ℤ) {o : Fields} {key : String} {lo hi builtin : ℤ}
    (hset : ∀ cfg k v, π (Flag.set k v cfg) = if k = f then g v else π cfg)
    (htaken : Careless lo hi builtin (fileNumber o key) (π cfg))
    (hrange : lo ≤ 0 ∧ 0 ≤ builtin ∧ builtin < hi) :
    π (applyFlags args cfg) = layered ((assigned f args).map g) (fileInteger lo hi o key) builtin ↔
      (assigned f args = none → Kept lo hi builtin (fileNumber o key)) := by
  rw [applyFlags_layered_iff π f hset]
  exact imp_congr_right fun _ => htaken.eq_iff hrange.1 hrange.2.1 hrange.2.2

/-- The numbers of the file come out as they stand there, wherever no flag stands in for them. -/
structure FollowsFile (args : List String) (o : Fields) : Prop where
  sealCadenceMs : assigned .sealCadence args = none →
    Kept 0 (2 ^ 64) 5000 (fileNumber o "seal_cadence_ms")
  maxTxnsPerBlock : assigned .maxTxnsPerBlock args = none →
    Kept 0 (2 ^ 64) 8 (fileNumber o "max_txns_per_block")
  maxSkewS : assigned .maxSkew args = none → Kept 0 (2 ^ 64) 7200 (fileNumber o "max_skew_s")
  difficulty : assigned .difficulty args = none → Kept 0 (2 ^ 32) 0 (fileNumber o "difficulty")
  nodeIndex : assigned .nodeIndex args = none →
    Kept (-2 ^ 31) (2 ^ 31) 0 (fileNumber o "node_index")
  portBase : assigned .portBase args = none →
    Kept (-2 ^ 31) (2 ^ 31) 29000 (fileNumber o "port_base")
  rpcPort : assigned .rpcPort args = none →
    ∀ x, fileInteger (-2 ^ 31) (2 ^ 31) o "rpc_port" = some x → x = 0

omit [Picojson] in
/-- The passes over the file and the command line, from the datadir the parse assigns. -/
theorem layered_iff (o : Fields) {datadir : String}
    (h : datadir = (assigned .datadir args).getD "./txchain-data") :
    Layered args o (applyFlags args (overlaid o { datadir })) ↔ FollowsFile args o := by
  have hcadence := number_layered_iff args (overlaid o { datadir })
    (fun cfg => cfg.sealCadenceMs.toNat) .sealCadence (fun v => (toU64 v).toNat)
    (fun cfg k v => by cases k <;> rfl)
    (taken_careless (fun v => v.toNat) 5000 rfl wraps_uint64 (fileNumber o "seal_cadence_ms"))
    (by decide)
  have htxns := number_layered_iff args (overlaid o { datadir })
    (fun cfg => cfg.maxTxnsPerBlock.toNat) .maxTxnsPerBlock (fun v => (toU64 v).toNat)
    (fun cfg k v => by cases k <;> rfl)
    (taken_careless (fun v => v.toNat) 8 rfl wraps_uint64 (fileNumber o "max_txns_per_block"))
    (by decide)
  have hskew := number_layered_iff args (overlaid o { datadir })
    (fun cfg => cfg.maxSkewS.toNat) .maxSkew (fun v => (toU64 v).toNat)
    (fun cfg k v => by cases k <;> rfl)
    (taken_careless (fun v => v.toNat) 7200 rfl wraps_uint64 (fileNumber o "max_skew_s"))
    (by decide)
  have hdifficulty := number_layered_iff args (overlaid o { datadir })
    (fun cfg => cfg.difficulty.toNat) .difficulty (fun v => (toU64 v).toUInt32.toNat)
    (fun cfg k v => by cases k <;> rfl)
    (taken_careless (fun v => v.toUInt32.toNat) 0 rfl wraps_uint32 (fileNumber o "difficulty"))
    (by decide)
  have hnode := number_layered_iff args (overlaid o { datadir })
    (fun cfg => cfg.nodeIndex.toInt) .nodeIndex (fun v => (toInt v).toInt)
    (fun cfg k v => by cases k <;> rfl)
    (taken_careless (fun v => (narrow v).toInt) (widen 0) rfl wraps_int32
      (fileNumber o "node_index"))
    (by decide)
  have hport := number_layered_iff args (overlaid o { datadir })
    (fun cfg => cfg.portBase.toInt) .portBase (fun v => (toInt v).toInt)
    (fun cfg k v => by cases k <;> rfl)
    (taken_careless (fun v => (narrow v).toInt) (widen 29000) rfl wraps_int32
      (fileNumber o "port_base"))
    (by decide)
  have hrpc : (applyFlags args (overlaid o { datadir })).rpcPort.toInt =
      layered ((assigned .rpcPort args).map fun v => (toInt v).toInt)
        (fileInteger (-2 ^ 31) (2 ^ 31) o "rpc_port") 0 ↔
      (assigned .rpcPort args = none →
        0 = (fileInteger (-2 ^ 31) (2 ^ 31) o "rpc_port").getD 0) :=
    applyFlags_layered_iff (fun cfg => cfg.rpcPort.toInt) .rpcPort
      (fun cfg k v => by cases k <;> rfl) args
  have hzero : (0 = (fileInteger (-2 ^ 31) (2 ^ 31) o "rpc_port").getD 0) ↔
      ∀ x, fileInteger (-2 ^ 31) (2 ^ 31) o "rpc_port" = some x → x = 0 := by
    cases fileInteger (-2 ^ 31) (2 ^ 31) o "rpc_port" <;> simp [eq_comm]
  constructor
  · intro hl
    exact {
      sealCadenceMs := hcadence.mp hl.sealCadenceMs
      maxTxnsPerBlock := htxns.mp hl.maxTxnsPerBlock
      maxSkewS := hskew.mp hl.maxSkewS
      difficulty := hdifficulty.mp hl.difficulty
      nodeIndex := hnode.mp hl.nodeIndex
      portBase := hport.mp hl.portBase
      rpcPort := fun hnone => hzero.mp (hrpc.mp hl.rpcPort hnone) }
  · intro hf
    exact {
      datadir := by
        have hfield : (applyFlags args (overlaid o { datadir })).datadir =
            layered ((assigned .datadir args).map fun v => v) (getStr o "datadir")
              "./txchain-data" :=
          (applyFlags_layered_iff (·.datadir) .datadir (fun cfg k v => by cases k <;> rfl)
            args).mpr ?_
        · rwa [Option.map_id'] at hfield
        · intro hnone
          rw [hnone] at h
          rw [h]
          rfl
      mine := (applyFlags_layered_iff (·.mine) .mine (g := fun _ => true)
        (fun cfg k v => by cases k <;> rfl) args).mpr fun _ => rfl
      noRpc := (applyFlags_layered_iff (·.noRpc) .noRpc (g := fun _ => true)
        (fun cfg k v => by cases k <;> rfl) args).mpr fun _ => rfl
      noP2p := (applyFlags_layered_iff (·.noP2p) .noP2p (g := fun _ => true)
        (fun cfg k v => by cases k <;> rfl) args).mpr fun _ => rfl
      sealEmpty := (applyFlags_layered_iff (·.sealEmpty) .sealEmpty
        (fun cfg k v => by cases k <;> rfl) args).mpr fun _ => rfl
      logFormat := by
        have hfield : (applyFlags args (overlaid o { datadir })).logFormat =
            layered ((assigned .logFormat args).map fun v => v) (getStr o "log_format") "json" :=
          (applyFlags_layered_iff (·.logFormat) .logFormat (fun cfg k v => by cases k <;> rfl)
            args).mpr fun _ => rfl
        rwa [Option.map_id'] at hfield
      sealCadenceMs := hcadence.mpr hf.sealCadenceMs
      maxTxnsPerBlock := htxns.mpr hf.maxTxnsPerBlock
      maxSkewS := hskew.mpr hf.maxSkewS
      difficulty := hdifficulty.mpr hf.difficulty
      nodeIndex := hnode.mpr hf.nodeIndex
      portBase := hport.mpr hf.portBase
      rpcPort := hrpc.mpr fun hnone => hzero.mpr (hf.rpcPort hnone) }

/-- The first scan finds the datadir and the file that the parse assigns, and every field is the
last flag, else the key of the file that was read, else the default. -/
structure ScansAgree (argv : List String) (fs : FileSystem) : Prop where
  datadir : (scanned (argv.drop 1)).1 = (assigned .datadir (argv.drop 1)).getD "./txchain-data"
  config : (scanned (argv.drop 1)).2 = (assigned .config (argv.drop 1)).getD ""
  layered : ∃ cfg, resolveConfig argv fs = .ok cfg ∧
    Layered (argv.drop 1) (fileFields fs (assignedPath (argv.drop 1))) cfg

/-- The scans agree exactly if neither flag stands last, or in the place of a value behind its last
occurrence as a flag, up to strings that coincide; and if the file is read to the end and every
number that counts fits its field. -/
theorem resolve_config_scans_iff (argv : List String) (fs : FileSystem) :
    ScansAgree argv fs ↔
      Agrees flagGrammar "" .datadir "./txchain-data" (argv.drop 1) ∧
        Agrees flagGrammar "" .config "" (argv.drop 1) ∧
          ReadsFile fs (assignedPath (argv.drop 1)) ∧
            FollowsFile (argv.drop 1) (fileFields fs (assignedPath (argv.drop 1))) := by
  have hdatadir :=
    agrees_iff (g := flagGrammar) (f := .datadir) rfl "" "./txchain-data" (argv.drop 1)
  have hconfig := agrees_iff (g := flagGrammar) (f := .config) rfl "" "" (argv.drop 1)
  have hscan : scanned (argv.drop 1) = _ := preScan_eq (argv.drop 1) ("./txchain-data", "")
  have hpath : ∀ (h₁ : (scanned (argv.drop 1)).1 =
      (assigned .datadir (argv.drop 1)).getD "./txchain-data")
      (h₂ : (scanned (argv.drop 1)).2 = (assigned .config (argv.drop 1)).getD ""),
      configPath (scanned (argv.drop 1)) = assignedPath (argv.drop 1) := by
    intro h₁ h₂
    rw [assignedPath, ← h₁, ← h₂]
  constructor
  · rintro ⟨hfirst, hsecond, cfg, hrun, hlayered⟩
    obtain ⟨hreads, rfl⟩ := resolveConfig_ok_iff.mp hrun
    rw [hpath hfirst hsecond] at hreads hlayered
    have hfollows := (layered_iff _ hfirst).mp hlayered
    rw [hscan] at hfirst hsecond
    exact ⟨hdatadir.mp hfirst, hconfig.mp hsecond, hreads, hfollows⟩
  · rintro ⟨hfirst, hsecond, hreads, hfollows⟩
    have hsame : (scanned (argv.drop 1)).1 =
        (assigned .datadir (argv.drop 1)).getD "./txchain-data" := by
      rw [hscan]
      exact hdatadir.mpr hfirst
    have hsame' : (scanned (argv.drop 1)).2 = (assigned .config (argv.drop 1)).getD "" := by
      rw [hscan]
      exact hconfig.mpr hsecond
    rw [← hpath hsame hsame'] at hreads hfollows
    refine ⟨hsame, hsame', _, resolveConfig_ok_iff.mpr ⟨hreads, rfl⟩, ?_⟩
    rw [← hpath hsame hsame']
    exact (layered_iff _ hsame).mpr hfollows

end Resolve

section Samples

/-- A flag in the place of a value. -/
def flagAsValue : List String := ["txnode", "--log-format", "--datadir", "x"]

/-- The default configuration file with this content, and no other. -/
def nodeJson (content : String) : FileSystem := fun path =>
  if path = "./txchain-data/node.json" then some content.toList else none

/-- A field that the program and the layers give different values. -/
theorem not_scansAgree [Picojson] {argv : List String} {fs : FileSystem} {π : EffectiveConfig → ℤ}
    {x y : ℤ} (hcode : (resolveConfig argv fs).toOption.map π = some x)
    (hlayers : ∀ cfg,
      Layered (argv.drop 1) (fileFields fs (assignedPath (argv.drop 1))) cfg → π cfg = y)
    (hne : x ≠ y) : ¬ScansAgree argv fs := by
  rintro ⟨-, -, cfg, hrun, hlayered⟩
  rw [hrun] at hcode
  exact hne ((Option.some.inj hcode).symm.trans (hlayers cfg hlayered))

/-- The parse assigns no datadir, the first scan takes the one behind the value. Without any flag,
a key is ignored, a negative number is dropped and large ones are wrapped; and a number too large
for a double ends the program. -/
theorem flagAsValue_scans_differ :
    letI := Json.picojson
    (assigned .datadir (flagAsValue.drop 1) = none ∧
      (resolveConfig flagAsValue fun _ => none).toOption.map (·.datadir) = some "x" ∧
      ¬ScansAgree flagAsValue fun _ => none) ∧
    ¬ScansAgree ["txnode"] (nodeJson "\x7b\"rpc_port\":31000\x7d") ∧
    ¬ScansAgree ["txnode"] (nodeJson "\x7b\"node_index\":-3\x7d") ∧
    ¬ScansAgree ["txnode"] (nodeJson "\x7b\"port_base\":4294967295\x7d") ∧
    ¬ScansAgree ["txnode"] (nodeJson "\x7b\"difficulty\":4294967297\x7d") ∧
    ¬ScansAgree ["txnode"] (nodeJson "\x7b\"difficulty\":1e400\x7d") := by
  let parser : Picojson := Json.picojson
  refine ⟨⟨by decide +kernel, by decide +kernel, fun hagree => ?_⟩, ?_, ?_, ?_, ?_, ?_⟩
  · have hassigned : assigned .datadir (flagAsValue.drop 1) = none := by decide +kernel
    have hscanned : (scanned (flagAsValue.drop 1)).1 = "x" := by decide +kernel
    have hsame := hagree.datadir
    rw [hassigned, hscanned] at hsame
    exact absurd hsame (by decide)
  · exact not_scansAgree (π := fun cfg => cfg.rpcPort.toInt) (x := 0) (y := 31000)
      (by decide +kernel) (fun cfg h => h.rpcPort.trans (by decide +kernel)) (by decide)
  · exact not_scansAgree (π := fun cfg => cfg.nodeIndex.toInt) (x := 0) (y := -3)
      (by decide +kernel) (fun cfg h => h.nodeIndex.trans (by decide +kernel)) (by decide)
  · exact not_scansAgree (π := fun cfg => cfg.portBase.toInt) (x := -1) (y := 29000)
      (by decide +kernel) (fun cfg h => h.portBase.trans (by decide +kernel)) (by decide)
  · exact not_scansAgree (π := fun cfg => cfg.difficulty.toNat) (x := 1) (y := 0)
      (by decide +kernel) (fun cfg h => h.difficulty.trans (by decide +kernel)) (by decide)
  · rintro ⟨-, -, cfg, hrun, -⟩
    have hthrown : (resolveConfig ["txnode"]
        (nodeJson "\x7b\"difficulty\":1e400\x7d")).toOption.isNone = true := by decide +kernel
    rw [hrun] at hthrown
    cases hthrown

end Samples

end TxChain
