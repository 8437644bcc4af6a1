import TxChain.Json.RoundTrip
import TxChain.Wallet.KeyFile

/-!
# Loading or creating the wallet

A start loads `wallet.key` if it exists, and creates a wallet and saves it if it does not. A
save that gets past `open` leaves a file, also when it fails behind that, and no later start
writes it again. So the first file is the one that every later start has to do with.
-/

namespace TxChain

open Json

def walletPathForDatadir (datadir : String) : String :=
  (if datadir ≠ "" ∧ datadir.toList.getLast? ≠ some '/' then datadir ++ "/" else datadir) ++
    "wallet.key"

/-- What a start meets: the key it would draw, whether an existing file can be opened, and how
the calls of a save go. -/
structure Start where
  seed : Seed32
  readable : Bool
  io : SaveOutcome

/-! ### The text -/

def walletWritten (w : Wallet) : WrittenFields :=
  [("version", .number (.ofNat kWalletVersion)), ("priv", .string (toHex w.seed.toList)),
   ("pub", .string (toHex w.pubkey.toList)), ("address", .string (toHex w.address.toList))]

theorem walletJson_eq (w : Wallet) :
    walletJson w = (Written.object (walletWritten w)).render ++ ['\n'] := by
  rw [walletWritten, Written.render_object]
  simp only [List.map_cons, List.map_nil, fieldText, memberText, Written.render,
    NumberLiteral.text_ofNat]
  unfold walletJson
  simp only [String.reduceToList, List.cons_append, List.nil_append, List.append_assoc,
    List.intercalate_cons_cons, List.intercalate_singleton]

theorem walletWritten_within (w : Wallet) :
    Written.Within NumberLiteral.Short defaultMaxDepths (.object (walletWritten w)) := by
  have hkeys : KeysFit ["version", "priv", "pub", "address"] := by simp [KeysFit, Bare]
  have hversion : kWalletVersion < 2 ^ 64 := by decide
  refine .object hkeys ?_
  simp only [walletWritten, List.forall_mem_cons]
  exact ⟨number_within hversion, hex_within _, hex_within _, hex_within _, by simp⟩

theorem toValue_walletWritten (w : Wallet) :
    (Written.object (walletWritten w)).toValue = .object (walletFields w) := by
  have hversion : (NumberLiteral.ofNat kWalletVersion).toValue = .int64 kWalletVersion := by
    have hint : (NumberLiteral.ofNat kWalletVersion).IsInt64 := by
      refine ⟨⟨rfl, rfl⟩, ?_⟩
      rw [NumberLiteral.ofNat, Numeral.Literal.value_ofInt]
      decide
    rw [NumberLiteral.toValue, if_pos hint, NumberLiteral.ofNat, Numeral.Literal.value_ofInt]
  rw [Written.toValue, fieldValues_eq, walletWritten]
  simp only [List.map_cons, List.map_nil, Written.toValue, hversion]
  rfl

attribute [local instance] picojson

/-- A saved text that is cut short is no document, unless only its newline is missing. -/
theorem parse_walletJson_take (w : Wallet) (n : ℕ) :
    Picojson.parse ((walletJson w).take n) =
      if (walletJson w).length ≤ n + 1 then some (.object (walletFields w)) else none := by
  have hshort := walletWritten_within w
  have hreadable := hshort.mono fun _ hl => NumberLiteral.Short.readable hl
  have hlength : (walletJson w).length = (Written.object (walletWritten w)).render.length + 1 := by
    rw [walletJson_eq, List.length_append, List.length_singleton]
  rw [hlength, walletJson_eq]
  split
  next hwhole =>
    obtain ⟨rest, htake⟩ : ∃ rest, ((Written.object (walletWritten w)).render ++ ['\n']).take n =
        (Written.object (walletWritten w)).render ++ rest := by
      rw [List.take_append, List.take_of_length_le (by omega)]
      exact ⟨_, rfl⟩
    have hread := parse_render hreadable rest fun _ h => by cases h
    rw [htake, parse_picojson, hread, toValue_walletWritten]
    rfl
  next hcut =>
    rw [List.take_append_of_le_length (by omega), parse_picojson]
    obtain rfl | hpos := Nat.eq_zero_or_pos n
    · rfl
    · have htorn := parse_torn hshort apart_nil
        (List.take_prefix n (Written.object (walletWritten w)).render) (by
          refine List.ne_nil_of_length_pos ?_
          rw [List.length_take]
          omega) (by
          intro hwhole
          have hlen := congrArg List.length hwhole
          rw [List.length_take] at hlen
          omega)
      rw [List.append_nil] at htorn
      rw [htorn]
      rfl

/-! ### The file of a save -/

/-- How many characters of the text a save that gets past `open` writes. -/
def SaveOutcome.wrote (io : SaveOutcome) (total : ℕ) : ℕ :=
  if ¬io.chmods then 0
  else
    match io.failsAfter with
    | some n => n
    | none => total

variable {files : KeyFiles} {path datadir : String} {io : SaveOutcome} {w : Wallet} {seed : Seed32}
  {start : Start}

theorem walletSave_file (hnone : files path = none) (hopens : io.opens = true) :
    (walletSave files path io w).2 path =
      some ⟨(walletJson w).take (io.wrote (walletJson w).length), 0o600⟩ := by
  rw [walletSave, if_neg (not_not.mpr hopens), SaveOutcome.wrote]
  split
  next =>
    rw [hnone, List.take_zero]
    exact KeyFiles.write_self files path _
  next =>
    cases io.failsAfter with
    | some n => exact KeyFiles.write_self files path _
    | none =>
        rw [List.take_length]
        exact KeyFiles.write_self files path _

section Startup

variable [Crypto] [Signer]

/-- What is left of a save loads as the wallet, or is malformed. -/
theorem walletLoad_take {n : ℕ}
    (hfile : files path = some ⟨(walletJson (.ofSeed seed)).take n, 0o600⟩) :
    walletLoad files path true =
      if (walletJson (.ofSeed seed)).length ≤ n + 1 then { ok := true, wallet := .ofSeed seed }
      else { error := "wallet.key: malformed JSON" } := by
  have hprivate : decide ((0o600 : UInt32) &&& 0o077 ≠ 0) = false := by decide
  have hparse := parse_walletJson_take (.ofSeed seed) n
  split
  next hwhole =>
    rw [if_pos hwhole] at hparse
    rw [walletLoad_of_object hfile hparse, loadFields_of_compared compared_walletFields]
    dsimp only
    rw [hprivate]
  next hcut =>
    rw [if_neg hcut] at hparse
    rw [walletLoad, hfile]
    dsimp only
    rw [if_neg (not_not.mpr rfl), hparse, hprivate]

/-! ### Starts -/

def walletCreate (seed : Seed32) : Wallet := .ofSeed seed

/-- The result, and the files after it. -/
def loadOrCreateWallet (files : KeyFiles) (datadir : String) (start : Start) :
    WalletLoad × KeyFiles :=
  let path := walletPathForDatadir datadir
  match files path with
  | some _ => (walletLoad files path start.readable, files)
  | none =>
      let w := walletCreate start.seed
      let saved := walletSave files path start.io w
      if ¬saved.1 then ({ error := "wallet.key: cannot write " ++ path }, saved.2)
      else ({ ok := true, wallet := w }, saved.2)

/-- The files after a start. -/
def Start.apply (datadir : String) (files : KeyFiles) (start : Start) : KeyFiles :=
  (loadOrCreateWallet files datadir start).2

/-- A file that is there is not written again. -/
theorem Start.apply_exists {file : KeyFile} (h : files (walletPathForDatadir datadir) = some file) :
    start.apply datadir files = files := by
  rw [Start.apply, loadOrCreateWallet]
  dsimp only
  rw [h]

theorem loadOrCreateWallet_none (hnone : files (walletPathForDatadir datadir) = none) :
    start.apply datadir files =
      (walletSave files (walletPathForDatadir datadir) start.io (.ofSeed start.seed)).2 := by
  rw [Start.apply, loadOrCreateWallet]
  dsimp only
  rw [hnone]
  dsimp only
  split <;> rfl

/-- Without a file, and if none can be opened, nothing changes. -/
theorem Start.apply_closed (hnone : files (walletPathForDatadir datadir) = none)
    (hclosed : start.io.opens = false) : start.apply datadir files = files := by
  rw [loadOrCreateWallet_none hnone, walletSave, hclosed]
  rfl

/-- On an empty datadir the first start whose `open` succeeds decides what every later one finds:
its wallet, also if the save was reported as failed, or a file that is malformed for good if
it was cut in front of the closing brace. -/
theorem first_save_decides (files : KeyFiles) (datadir : String)
    (hnone : files (walletPathForDatadir datadir) = none) (closed later : List Start)
    (first start : Start) (hclosed : ∀ s ∈ closed, s.io.opens = false)
    (hopens : first.io.opens = true) (hreadable : start.readable = true) :
    (loadOrCreateWallet ((closed ++ first :: later).foldl (Start.apply datadir) files) datadir
        start).1 =
      if (walletJson (.ofSeed first.seed)).length ≤
          first.io.wrote (walletJson (.ofSeed first.seed)).length + 1 then
        { ok := true, wallet := .ofSeed first.seed }
      else { error := "wallet.key: malformed JSON" } := by
  have hbefore : closed.foldl (Start.apply datadir) files = files :=
    List.foldlRecOn (motive := fun f => f = files) closed _ rfl fun f hf s hs => by
      rw [hf, Start.apply_closed hnone (hclosed s hs)]
  have hfirst : (first.apply datadir files) (walletPathForDatadir datadir) =
      some ⟨(walletJson (.ofSeed first.seed)).take
        (first.io.wrote (walletJson (.ofSeed first.seed)).length), 0o600⟩ := by
    rw [loadOrCreateWallet_none hnone]
    exact walletSave_file hnone hopens
  have hafter : later.foldl (Start.apply datadir) (first.apply datadir files) =
      first.apply datadir files :=
    List.foldlRecOn (motive := fun f => f = first.apply datadir files) later _ rfl
      fun f hf s _ => by
      rw [hf, Start.apply_exists hfirst]
  rw [List.foldl_append, List.foldl_cons, hbefore, hafter, loadOrCreateWallet]
  dsimp only
  rw [hfirst]
  dsimp only
  rw [hreadable]
  exact walletLoad_take hfirst

end Startup

section Samples

attribute [local instance] walletKeys walletSigner picojson

/-- The first start cannot create the file, the second one writes it and cannot sync it. -/
theorem unsynced_wallet_returns :
    (loadOrCreateWallet
        (([Start.mk rachealSeed true ⟨false, true, none, true⟩] ++
          [Start.mk rachealSeed true ⟨true, true, none, false⟩]).foldl (Start.apply "data")
            fun _ => none) "data" ⟨rachealSeed, true, ⟨true, true, none, true⟩⟩).1 =
      { ok := true, wallet := .ofSeed rachealSeed } := by
  have hdecides := first_save_decides (fun _ => none) "data" rfl
    [⟨rachealSeed, true, ⟨false, true, none, true⟩⟩] []
    ⟨rachealSeed, true, ⟨true, true, none, false⟩⟩
    ⟨rachealSeed, true, ⟨true, true, none, true⟩⟩ (by simp) rfl rfl
  have hwrote : ∀ total, SaveOutcome.wrote ⟨true, true, none, false⟩ total = total := fun _ => rfl
  rw [hdecides]
  dsimp only
  rw [hwrote, if_pos (Nat.le_succ _)]

end Samples

end TxChain
