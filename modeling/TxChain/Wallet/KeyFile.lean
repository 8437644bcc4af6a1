import TxChain.Rpc.Submission

/-!
# The wallet file

`wallet.key` holds the seed, and the public key and the address as display copies. The
loader derives both from the seed and compares the copies with them. A version, a copy
of the key or of the address that has another JSON type than the format's is not
compared: the loader skips it as if it were absent.
-/

namespace TxChain

structure Wallet where
  seed : Seed32
  pubkey : PubKey32
  address : Address20

/-- A file on disk: its bytes and its permission bits. -/
structure KeyFile where
  content : Text
  mode : UInt32

abbrev KeyFiles := String → Option KeyFile

def KeyFiles.write (files : KeyFiles) (path : String) (file : KeyFile) : KeyFiles :=
  fun p => if p = path then some file else files p

@[simp] theorem KeyFiles.write_self (files : KeyFiles) (path : String) (file : KeyFile) :
    files.write path file path = some file := if_pos rfl

/-- How the system calls of one save go; `failsAfter` is where `write` fails. -/
structure SaveOutcome where
  opens : Bool
  chmods : Bool
  failsAfter : Option ℕ
  syncs : Bool

/-- What loading a wallet file gives. -/
structure WalletLoad where
  ok : Bool := false
  wallet : Wallet := ⟨Vector.replicate 32 0, Vector.replicate 32 0, Vector.replicate 20 0⟩
  error : String := ""
  worldReadable : Bool := false

/-- The schema version that is written and accepted. -/
def kWalletVersion : ℕ := 1

/-! ### Writing -/

def walletJson (w : Wallet) : Text :=
  "\x7b\"version\":".toList ++ decimal kWalletVersion ++
  (",\"priv\":\"".toList ++ toHex w.seed.toList ++ "\"".toList) ++
  (",\"pub\":\"".toList ++ toHex w.pubkey.toList ++ "\"".toList) ++
  (",\"address\":\"".toList ++ toHex w.address.toList ++ "\"\x7d\n".toList)

/-- `O_TRUNC` empties the file before its mode is forced and the text is written. -/
def walletSave (files : KeyFiles) (path : String) (io : SaveOutcome) (w : Wallet) :
    Bool × KeyFiles :=
  if ¬io.opens then (false, files)
  else if ¬io.chmods then
    (false, files.write path ⟨[], ((files path).map KeyFile.mode).getD 0o600⟩)
  else
    match io.failsAfter with
    | some n => (false, files.write path ⟨(walletJson w).take n, 0o600⟩)
    | none => (io.syncs, files.write path ⟨walletJson w, 0o600⟩)

/-- The object that a saved wallet stands for. -/
def walletFields (w : Wallet) : Fields :=
  [("version", .int64 kWalletVersion), ("priv", .string (toHex w.seed.toList)),
   ("pub", .string (toHex w.pubkey.toList)), ("address", .string (toHex w.address.toList))]

/-! ### Loading -/

section Load

variable [Crypto] [Signer]

/-- The wallet of a seed. -/
def Wallet.ofSeed (seed : Seed32) : Wallet :=
  ⟨seed, Signer.derivePubkey seed, TxChain.address (Signer.derivePubkey seed)⟩

/-- An integer version other than the supported one. -/
def unsupportedVersion (o : Fields) : Bool :=
  match o.lookup "version" with
  | some (.int64 x) => x ≠ kWalletVersion
  | _ => false

/-- A stored copy, as far as it is a string, that is not the derived value. -/
def storedDiffers {n : ℕ} (o : Fields) (key : String) (derived : Vector Byte n) : Bool :=
  match o.lookup key with
  | some (.string s) => fromHex n s ≠ some derived
  | _ => false

/-- The checks on the parsed object. -/
def loadFields (o : Fields) (worldReadable : Bool) : WalletLoad :=
  if unsupportedVersion o then { error := "wallet.key: unsupported version", worldReadable }
  else
    match o.lookup "priv" with
    | some (.string s) =>
        match fromHex 32 s with
        | none => { error := "wallet.key: priv is not a 32-byte seed", worldReadable }
        | some seed =>
            let w := Wallet.ofSeed seed
            if storedDiffers o "pub" w.pubkey then
              { error := "wallet.key: stored pub does not match derive_pubkey(seed)"
                worldReadable }
            else if storedDiffers o "address" w.address then
              { error := "wallet.key: stored address does not match SHA-256(pub)[:20]",
                worldReadable }
            else { ok := true, wallet := w, worldReadable }
    | _ => { error := "wallet.key: missing priv", worldReadable }

/-- `readable` is whether the file can be opened once it is known to exist. -/
def walletLoad [Picojson] (files : KeyFiles) (path : String) (readable : Bool) : WalletLoad :=
  match files path with
  | none => { error := "wallet.key: cannot open " ++ path }
  | some file =>
      let worldReadable : Bool := file.mode &&& 0o077 ≠ 0
      if ¬readable then { error := "wallet.key: cannot read " ++ path, worldReadable }
      else
        match Picojson.parse file.content with
        | some (.object o) => loadFields o worldReadable
        | _ => { error := "wallet.key: malformed JSON", worldReadable }

/-! ### The format -/

/-- A stored copy that is absent or spells the derived value. -/
def CopyOf {n : ℕ} (o : Fields) (key : String) (derived : Vector Byte n) : Prop :=
  o.lookup key = none ∨ ∃ s, o.lookup key = some (.string s) ∧ fromHex n s = some derived

/-- The format of the file, for the seed it holds. -/
structure KeyFormat (o : Fields) (seed : Seed32) : Prop where
  version : o.lookup "version" = none ∨ o.lookup "version" = some (.int64 1) ∨
    o.lookup "version" = some (.double 1)
  priv : ∃ s, o.lookup "priv" = some (.string s) ∧ s.length = 64 ∧ (∀ c ∈ s, IsHexDigit c) ∧
    fromHex 32 s = some seed
  pub : CopyOf o "pub" (Signer.derivePubkey seed)
  address : CopyOf o "address" (TxChain.address (Signer.derivePubkey seed))

/-- What the loader compares: an integer version and the copies that are strings. -/
structure Compared (o : Fields) (seed : Seed32) : Prop where
  version : ∀ x, o.lookup "version" = some (.int64 x) → x = 1
  priv : ∃ s, o.lookup "priv" = some (.string s) ∧ fromHex 32 s = some seed
  pub : ∀ s, o.lookup "pub" = some (.string s) → fromHex 32 s = some (Signer.derivePubkey seed)
  address : ∀ s, o.lookup "address" = some (.string s) →
    fromHex 20 s = some (TxChain.address (Signer.derivePubkey seed))

/-- The types of the format: a version is an integer or the number 1, a copy is a string. -/
structure WellTyped (o : Fields) : Prop where
  version : ∀ v, o.lookup "version" = some v → (∃ x, v = .int64 x) ∨ v = .double 1
  pub : ∀ v, o.lookup "pub" = some v → ∃ s, v = .string s
  address : ∀ v, o.lookup "address" = some v → ∃ s, v = .string s

variable {o : Fields} {seed : Seed32}

omit [Crypto] [Signer] in
theorem unsupportedVersion_iff :
    unsupportedVersion o = false ↔ ∀ x, o.lookup "version" = some (.int64 x) → x = 1 := by
  rw [unsupportedVersion]
  split
  next x hx =>
    rw [decide_eq_false_iff_not, not_not, hx]
    exact ⟨fun h y hy => (Value.int64.inj (Option.some.inj hy)).symm.trans h, fun h => h x rfl⟩
  next hother => exact ⟨fun _ x hx => absurd hx (hother x), fun _ => rfl⟩

omit [Crypto] [Signer] in
theorem storedDiffers_iff {n : ℕ} {key : String} {derived : Vector Byte n} :
    storedDiffers o key derived = false ↔
      ∀ s, o.lookup key = some (.string s) → fromHex n s = some derived := by
  rw [storedDiffers]
  split
  next s hs =>
    rw [decide_eq_false_iff_not, not_not, hs]
    constructor
    · intro h s' hs'
      rwa [← Value.string.inj (Option.some.inj hs')]
    · intro h
      exact h s rfl
  next hother => exact ⟨fun _ s hs => absurd hs (hother s), fun _ => rfl⟩

/-- Fields whose comparisons hold load as the wallet of the seed. -/
theorem loadFields_of_compared (h : Compared o seed) (worldReadable : Bool) :
    loadFields o worldReadable = { ok := true, wallet := .ofSeed seed, worldReadable } := by
  obtain ⟨s, hpriv, hseed⟩ := h.priv
  have hversion := unsupportedVersion_iff.mpr h.version
  have hpub : storedDiffers o "pub" (Wallet.ofSeed seed).pubkey = false :=
    storedDiffers_iff.mpr h.pub
  have haddress : storedDiffers o "address" (Wallet.ofSeed seed).address = false :=
    storedDiffers_iff.mpr h.address
  rw [loadFields, hversion, hpriv]
  dsimp only
  rw [hseed]
  dsimp only
  rw [hpub, haddress]
  rfl

/-- And only those load. -/
theorem compared_of_ok {worldReadable : Bool} (hok : (loadFields o worldReadable).ok = true) :
    ∃ seed, Compared o seed := by
  rw [loadFields] at hok
  split at hok
  next => cases hok
  next hversion =>
    split at hok
    next s hpriv =>
      split at hok
      next => cases hok
      next seed hseed =>
        dsimp only at hok
        split at hok
        next => cases hok
        next hpub =>
          split at hok
          next => cases hok
          next haddress =>
            exact ⟨seed, unsupportedVersion_iff.mp (Bool.eq_false_iff.mpr hversion),
              ⟨s, hpriv, hseed⟩, storedDiffers_iff.mp (Bool.eq_false_iff.mpr hpub),
              storedDiffers_iff.mp (Bool.eq_false_iff.mpr haddress)⟩
    next => cases hok

omit [Crypto] [Signer] in
/-- A copy of the right type is compared. -/
theorem copyOf_iff {n : ℕ} {key : String} {derived : Vector Byte n} :
    CopyOf o key derived ↔
      (∀ s, o.lookup key = some (.string s) → fromHex n s = some derived) ∧
        ∀ v, o.lookup key = some v → ∃ s, v = .string s := by
  constructor
  · rintro (hnone | ⟨s, hs, hderived⟩)
    · refine ⟨fun s hs => ?_, fun v hv => ?_⟩
      · rw [hnone] at hs
        cases hs
      · rw [hnone] at hv
        cases hv
    · refine ⟨fun s' hs' => ?_, fun v hv => ?_⟩
      · rw [hs] at hs'
        rwa [← Value.string.inj (Option.some.inj hs')]
      · rw [hs] at hv
        exact ⟨s, (Option.some.inj hv).symm⟩
  · rintro ⟨hcompared, htyped⟩
    cases hv : o.lookup key with
    | none => exact .inl hv
    | some v =>
        obtain ⟨s, rfl⟩ := htyped v hv
        exact .inr ⟨s, hv, hcompared s hv⟩

/-- The format is what the loader compares, and the types. -/
theorem keyFormat_iff : KeyFormat o seed ↔ Compared o seed ∧ WellTyped o := by
  constructor
  · intro h
    obtain ⟨s, hpriv, -, -, hseed⟩ := h.priv
    obtain ⟨hpub, hpubType⟩ := copyOf_iff.mp h.pub
    obtain ⟨haddress, haddressType⟩ := copyOf_iff.mp h.address
    refine ⟨⟨?_, ⟨s, hpriv, hseed⟩, hpub, haddress⟩, ?_, hpubType, haddressType⟩
    · intro x hx
      rcases h.version with hv | hv | hv
      · rw [hv] at hx
        cases hx
      · rw [hv] at hx
        exact (Value.int64.inj (Option.some.inj hx)).symm
      · rw [hv] at hx
        cases hx
    · intro v hv
      rcases h.version with hv' | hv' | hv'
      · rw [hv'] at hv
        cases hv
      · rw [hv'] at hv
        exact .inl ⟨1, (Option.some.inj hv).symm⟩
      · rw [hv'] at hv
        exact .inr (Option.some.inj hv).symm
  · rintro ⟨hcompared, htyped⟩
    obtain ⟨s, hpriv, hseed⟩ := hcompared.priv
    obtain ⟨hlength, hdigits⟩ := (fromHex_isSome_iff 32 s).mp ⟨seed, hseed⟩
    refine ⟨?_, ⟨s, hpriv, hlength, hdigits, hseed⟩, copyOf_iff.mpr ⟨hcompared.pub, htyped.pub⟩,
      copyOf_iff.mpr ⟨hcompared.address, htyped.address⟩⟩
    cases hv : o.lookup "version" with
    | none => exact .inl rfl
    | some v =>
        rcases htyped.version v hv with ⟨x, rfl⟩ | rfl
        · rw [hcompared.version x hv]
          exact .inr (.inl rfl)
        · exact .inr (.inr rfl)

/-- The fields of a saved wallet hold together. -/
theorem compared_walletFields : Compared (walletFields (.ofSeed seed)) seed := by
  have hversion : (walletFields (.ofSeed seed)).lookup "version" = some (.int64 1) := rfl
  have hpub : (walletFields (.ofSeed seed)).lookup "pub" =
      some (.string (toHex (Signer.derivePubkey seed).toList)) := rfl
  have haddress : (walletFields (.ofSeed seed)).lookup "address" =
      some (.string (toHex (TxChain.address (Signer.derivePubkey seed)).toList)) := rfl
  refine ⟨?_, ⟨_, rfl, fromHex_toHex seed⟩, ?_, ?_⟩
  · intro x hx
    rw [hversion] at hx
    exact (Value.int64.inj (Option.some.inj hx)).symm
  · intro s hs
    rw [hpub] at hs
    rw [← Value.string.inj (Option.some.inj hs)]
    exact fromHex_toHex _
  · intro s hs
    rw [haddress] at hs
    rw [← Value.string.inj (Option.some.inj hs)]
    exact fromHex_toHex _

/-! ### The file -/

variable [Picojson]

/-- The result is the one of the format: the file is accepted exactly if it has it, and then the
wallet is the one of the seed. -/
def MeetsFormat (content : Text) (r : WalletLoad) : Prop :=
  (r.ok = true ↔ ∃ o seed, Picojson.parse content = some (.object o) ∧ KeyFormat o seed) ∧
    (r.ok = true → ∃ o s seed, Picojson.parse content = some (.object o) ∧
      o.lookup "priv" = some (.string s) ∧ fromHex 32 s = some seed ∧ r.wallet = .ofSeed seed)

/-- Nothing is skipped in a file whose comparisons hold. -/
def SkipsNothing (content : Text) : Prop :=
  ∀ o seed, Picojson.parse content = some (.object o) → Compared o seed → WellTyped o

theorem walletLoad_of_object {files : KeyFiles} {path : String} {file : KeyFile}
    (hfile : files path = some file) (hparse : Picojson.parse file.content = some (.object o)) :
    walletLoad files path true = loadFields o (file.mode &&& 0o077 ≠ 0) := by
  rw [walletLoad, hfile]
  dsimp only
  rw [if_neg (not_not.mpr rfl), hparse]

theorem walletLoad_ok_iff {files : KeyFiles} {path : String} {file : KeyFile}
    (hfile : files path = some file) :
    (walletLoad files path true).ok = true ↔
      ∃ o seed, Picojson.parse file.content = some (.object o) ∧ Compared o seed := by
  constructor
  · intro hok
    have hload := hok
    rw [walletLoad, hfile] at hload
    dsimp only at hload
    rw [if_neg (not_not.mpr rfl)] at hload
    split at hload
    next o hparse =>
      obtain ⟨seed, h⟩ := compared_of_ok hload
      exact ⟨o, seed, hparse, h⟩
    next => cases hload
  · rintro ⟨o, seed, hparse, h⟩
    rw [walletLoad_of_object hfile hparse, loadFields_of_compared h]

/-- A wallet that was saved loads again. -/
theorem walletLoad_walletSave {files : KeyFiles} {path : String} {io : SaveOutcome}
    (hparse : Picojson.parse (walletJson (.ofSeed seed)) =
      some (.object (walletFields (.ofSeed seed))))
    (hsaved : (walletSave files path io (.ofSeed seed)).1 = true) :
    walletLoad (walletSave files path io (.ofSeed seed)).2 path true =
      { ok := true, wallet := .ofSeed seed } := by
  have hwritten : (walletSave files path io (.ofSeed seed)).2 path =
      some ⟨walletJson (.ofSeed seed), 0o600⟩ := by
    rw [walletSave] at hsaved ⊢
    split at hsaved
    next => cases hsaved
    next hopens =>
      rw [if_neg hopens]
      split at hsaved
      next => cases hsaved
      next hchmods =>
        rw [if_neg hchmods]
        cases hfails : io.failsAfter with
        | none => exact KeyFiles.write_self files path _
        | some n =>
            rw [hfails] at hsaved
            cases hsaved
  have hprivate : decide ((0o600 : UInt32) &&& 0o077 ≠ 0) = false := by decide
  rw [walletLoad_of_object hwritten hparse, loadFields_of_compared compared_walletFields]
  dsimp only
  rw [hprivate]

/-- The loader keeps to the format exactly on the files of which it skips nothing, and what was
saved loads as the same wallet. -/
theorem wallet_load_by_format_iff (files : KeyFiles) (path : String) (file : KeyFile) :
    (MeetsFormat file.content (walletLoad (files.write path file) path true) ↔
        SkipsNothing file.content) ∧
      ∀ (seed : Seed32) (io : SaveOutcome),
        Picojson.parse (walletJson (.ofSeed seed)) = some (.object (walletFields (.ofSeed seed))) →
        (walletSave files path io (.ofSeed seed)).1 = true →
        walletLoad (walletSave files path io (.ofSeed seed)).2 path true =
          { ok := true, wallet := .ofSeed seed } := by
  have hfile := files.write_self path file
  refine ⟨?_, fun seed io => walletLoad_walletSave⟩
  constructor
  · rintro ⟨hformat, -⟩ o seed hparse hcompared
    obtain ⟨o', seed', hparse', hmeets⟩ :=
      hformat.mp ((walletLoad_ok_iff hfile).mpr ⟨o, seed, hparse, hcompared⟩)
    rw [hparse] at hparse'
    obtain rfl := Value.object.inj (Option.some.inj hparse')
    exact (keyFormat_iff.mp hmeets).2
  · intro hskips
    constructor
    · rw [walletLoad_ok_iff hfile]
      constructor
      · rintro ⟨o, seed, hparse, hcompared⟩
        exact ⟨o, seed, hparse, keyFormat_iff.mpr ⟨hcompared, hskips o seed hparse hcompared⟩⟩
      · rintro ⟨o, seed, hparse, hmeets⟩
        exact ⟨o, seed, hparse, (keyFormat_iff.mp hmeets).1⟩
    · intro hok
      obtain ⟨o, seed, hparse, hcompared⟩ := (walletLoad_ok_iff hfile).mp hok
      obtain ⟨s, hpriv, hseed⟩ := hcompared.priv
      refine ⟨o, s, seed, hparse, hpriv, hseed, ?_⟩
      rw [walletLoad_of_object hfile hparse, loadFields_of_compared hcompared]

end Load

section Samples

attribute [local instance] walletKeys walletSigner

/-- A parser that knows one text. -/
abbrev parserFor (content : Text) (o : Fields) : Picojson :=
  .ofOption fun text => if text = content then some (.object o) else none

/-- A wallet file of a later schema version. -/
def laterWallet : Text :=
  "\x7b\"version\":2.0,\"priv\":\"".toList ++ toHex rachealSeed.toList ++ "\"\x7d".toList

def laterFields : Fields :=
  [("version", .double 2), ("priv", .string (toHex rachealSeed.toList))]

/-- It is accepted, because the parser makes no integer of its version. -/
theorem later_version_accepted :
    letI := parserFor laterWallet laterFields
    (walletLoad (KeyFiles.write (fun _ => none) "wallet.key" ⟨laterWallet, 0o600⟩) "wallet.key"
        true).ok = true ∧
      ¬MeetsFormat laterWallet
        (walletLoad (KeyFiles.write (fun _ => none) "wallet.key" ⟨laterWallet, 0o600⟩) "wallet.key"
          true) := by
  let parser := parserFor laterWallet laterFields
  have hparse : Picojson.parse laterWallet = some (.object laterFields) :=
    (Picojson.parse_ofOption _ _).trans (if_pos rfl)
  have hcompared : Compared laterFields rachealSeed := by
    refine ⟨?_, ⟨_, rfl, fromHex_toHex rachealSeed⟩, ?_, ?_⟩
    · rintro x ⟨⟩
    · rintro s ⟨⟩
    · rintro s ⟨⟩
  have hok := (walletLoad_ok_iff (KeyFiles.write_self (fun _ => none) "wallet.key"
    ⟨laterWallet, 0o600⟩)).mpr ⟨laterFields, rachealSeed, hparse, hcompared⟩
  refine ⟨hok, fun hmeets => ?_⟩
  obtain ⟨o, seed, hparse', hformat⟩ := hmeets.1.mp hok
  rw [hparse] at hparse'
  obtain rfl := Value.object.inj (Option.some.inj hparse')
  rcases hformat.version with hversion | hversion | hversion
  · cases hversion
  · cases hversion
  · exact absurd (Value.double.inj (Option.some.inj hversion)) (by decide)

/-- The file that is saved for the demo account loads as its wallet. -/
theorem racheal_wallet_returns :
    letI := parserFor (walletJson (.ofSeed rachealSeed)) (walletFields (.ofSeed rachealSeed))
    walletLoad (walletSave (fun _ => none) "wallet.key" ⟨true, true, none, true⟩
        (.ofSeed rachealSeed)).2 "wallet.key" true =
      { ok := true, wallet := .ofSeed rachealSeed } := by
  let parser := parserFor (walletJson (.ofSeed rachealSeed)) (walletFields (.ofSeed rachealSeed))
  exact (wallet_load_by_format_iff (fun _ => none) "wallet.key" ⟨[], 0o600⟩).2 rachealSeed
    ⟨true, true, none, true⟩ ((Picojson.parse_ofOption _ _).trans (if_pos rfl)) rfl

end Samples

end TxChain
