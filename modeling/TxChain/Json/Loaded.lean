import TxChain.Chain.Store
import TxChain.Json.ChainLine

/-!
# What is loaded can be written again

The parser makes two kinds of numbers, integers of `int64_t` and doubles. A block is read
off such numbers, so its integers are among those that a line keeps, and its transactions
have the one version. Written to another file, it is loaded from there as the same block.
-/

namespace TxChain

open Json Parsing

/-! ### Numbers in a parsed value -/

/-- Every number of the value is one that the parser makes. -/
inductive Value.Parsed : Value → Prop where
  | null : Value.Parsed .null
  | bool (b : Bool) : Value.Parsed (.bool b)
  | int64 {x : ℤ} (h : x < 2 ^ 63) : Value.Parsed (.int64 x)
  | double {d : ℚ} (h : Binary64.IsDouble d) : Value.Parsed (.double d)
  | string (s : Text) : Value.Parsed (.string s)
  | array {xs : List Value} (h : ∀ v ∈ xs, v.Parsed) : Value.Parsed (.array xs)
  | object {o : Fields} (h : ∀ f ∈ o, f.2.Parsed) : Value.Parsed (.object o)

namespace Json

theorem strtod_isDouble {s t : Text} {d : ℚ} (h : Scan.strtod s = (some d, t)) :
    Binary64.IsDouble d := by
  rw [Scan.strtod] at h
  split at h
  next =>
    obtain ⟨hzero, -⟩ := Prod.mk.inj h
    rw [← Option.some.inj hzero]
    exact_mod_cast Binary64.isDouble_natCast (k := 0) (by norm_num)
  next =>
    obtain ⟨hrounded, -⟩ := Prod.mk.inj h
    exact (Binary64.toDouble_nearest hrounded).isDouble

theorem strtoimax_lt {s t : Text} {x : ℤ} (h : Scan.strtoimax s = (some x, t)) : x < 2 ^ 63 := by
  rw [Scan.strtoimax] at h
  split at h
  next =>
    obtain ⟨hzero, -⟩ := Prod.mk.inj h
    rw [← Option.some.inj hzero]
    norm_num
  next =>
    obtain ⟨hfits, -⟩ := Prod.mk.inj h
    split at hfits
    next hin =>
      rw [← Option.some.inj hfits]
      exact hin.2
    next => cases hfits

theorem numberValue_parsed {s : Text} {v : Value} (h : numberValue s = .ok v) : v.Parsed := by
  rw [numberValue] at h
  split at h
  next x hint =>
    split at h
    next => cases h
    next =>
      rw [← Except.ok.inj h]
      exact .int64 (strtoimax_lt hint)
  next =>
    split at h
    next d hdouble =>
      rw [← Except.ok.inj h]
      exact .double (strtod_isDouble hdouble)
    next => cases h
    next => cases h

theorem yields_parseNumber : Yields parseNumber Value.Parsed := by
  intro s v r h
  rw [parseNumber] at h
  cases hv : numberValue (s.takeWhile isNumberChar) with
  | error e =>
      rw [hv] at h
      cases h
  | ok w =>
      rw [hv] at h
      obtain ⟨rfl, -⟩ := Prod.mk.inj (Except.ok.inj h)
      exact numberValue_parsed hv

/-! ### Nesting -/

theorem setField_parsed {o : Fields} {key : String} {v : Value} (ho : ∀ f ∈ o, f.2.Parsed)
    (hv : v.Parsed) : ∀ f ∈ setField o key v, f.2.Parsed := by
  induction o with
  | nil =>
      intro f hf
      rw [List.mem_singleton.mp hf]
      exact hv
  | cons g o ih =>
      obtain ⟨hg, ho⟩ := List.forall_mem_cons.mp ho
      rw [setField]
      split
      next => exact List.forall_mem_cons.mpr ⟨hv, ho⟩
      next => exact List.forall_mem_cons.mpr ⟨hg, ih ho⟩

theorem yields_bracketed {α : Type} {P : α → Prop} {close : Char} {empty : α}
    {loop : Parser Char α} (hempty : P empty) (hloop : Yields loop P) :
    Yields (bracketed close empty loop) P :=
  Yields.ite (yields_pure hempty) (hloop.bind fun _ hx => Yields.ite (yields_pure hx) yields_refuse)

section Items

variable {item : Parser Char Value} {n : ℕ}

theorem yields_parseArray (hitem : Yields item Value.Parsed) :
    Yields (parseArray item n) fun xs => ∀ v ∈ xs, v.Parsed := by
  refine yields_bracketed nofun (yields_doWhile (fun xs hxs => ?_) n nofun)
  refine hitem.bind fun v hv => yields_pure fun w hw => ?_
  rcases List.mem_append.mp hw with hold | hnew
  · exact hxs w hold
  · rwa [List.mem_singleton.mp hnew]

theorem yields_parseObject (hitem : Yields item Value.Parsed) :
    Yields (parseObject item n) fun o => ∀ f ∈ o, f.2.Parsed := by
  refine yields_bracketed nofun (yields_doWhile (fun o ho => ?_) n nofun)
  refine Yields.ite (yields_true.bind fun key _ => Yields.ite ?_ yields_refuse) yields_refuse
  exact hitem.bind fun v hv => yields_pure (setField_parsed ho hv)

end Items

theorem yields_parseBehind {item : ℕ → Parser Char Value} (n : ℕ)
    (hitem : ∀ depths, Yields (item depths) Value.Parsed) (depths : ℕ) (c : Char) :
    Yields (parseBehind item n depths c) Value.Parsed := by
  unfold parseBehind
  split
  · exact yields_true.bind fun _ _ => yields_pure .null
  · exact yields_true.bind fun _ _ => yields_pure (.bool false)
  · exact yields_true.bind fun _ _ => yields_pure (.bool true)
  · exact yields_true.bind fun s _ => yields_pure (.string s)
  · split
    next => exact yields_refuse
    next => exact (yields_parseArray (hitem _)).bind fun _ hxs => yields_pure (.array hxs)
  · split
    next => exact yields_refuse
    next => exact (yields_parseObject (hitem _)).bind fun _ ho => yields_pure (.object ho)
  · exact yields_refuse

theorem yields_parseValue (n depths : ℕ) : Yields (parseValue n depths) Value.Parsed := by
  induction n generalizing depths with
  | zero => rintro s v r ⟨⟩
  | succ n ih =>
      intro s v r h
      rw [parseValue] at h
      cases htext : skipWs s with
      | nil =>
          rw [htext] at h
          cases h
      | cons c t =>
          rw [htext, parseToken] at h
          split at h
          next => exact yields_parseNumber h
          next => exact yields_parseBehind n ih depths c h

end Json

/-! ### Blocks read off such values -/

/-- A number that the parser makes is read as a word that a line keeps. -/
theorem Value.Parsed.lossless {v : Value} {w : UInt64} (hv : v.Parsed)
    (h : readNumber v = some w) : LosslessLiteral w.toNat := by
  cases hv with
  | @int64 x hx =>
      rw [readNumber] at h
      split at h
      next => cases h
      next =>
        rw [← Option.some.inj h, UInt64.toNat_ofNat']
        exact .inl (by omega)
  | @double d hd =>
      rw [readNumber] at h
      split at h
      next => cases h
      next hpos =>
        rw [← Option.some.inj h, UInt64.toNat_ofNat']
        by_cases hlarge : 2 ^ 63 ≤ d
        · obtain ⟨k, rfl⟩ := hd.multiple hlarge
          have hfloor : ⌊(k : ℚ) * 2 ^ 11⌋₊ = k * 2 ^ 11 := by exact_mod_cast Nat.floor_natCast _
          rw [hfloor]
          exact .inr (by omega)
        · have hsmall : ⌊d⌋₊ < 2 ^ 63 := (Nat.floor_lt (not_lt.mp hpos)).mpr (by
            push_cast
            exact not_le.mp hlarge)
          exact .inl (by omega)
  | _ => cases h

theorem parsed_of_lookup {o : Fields} {key : String} {v : Value} (ho : ∀ f ∈ o, f.2.Parsed)
    (h : o.lookup key = some v) : v.Parsed := by
  obtain ⟨front, back, rfl, -⟩ := List.lookup_eq_some_iff.mp h
  exact ho (key, v) (by simp)

theorem getU64_lossless {o : Fields} {key : String} {w : UInt64} (ho : ∀ f ∈ o, f.2.Parsed)
    (h : getU64 o key = some w) : LosslessLiteral w.toNat := by
  rw [getU64_eq] at h
  obtain ⟨v, hv, hread⟩ := Option.bind_eq_some_iff.mp h
  exact (parsed_of_lookup ho hv).lossless hread

theorem readHeader_lossless {o : Fields} {hdr : BlockHeader} (ho : ∀ f ∈ o, f.2.Parsed)
    (h : readHeader o = some hdr) :
    LosslessLiteral hdr.index.toNat ∧ LosslessLiteral hdr.timestamp.toNat ∧
      LosslessLiteral hdr.nonce.toNat := by
  simp only [readHeader, Option.bind_eq_bind, Option.bind_eq_some_iff] at h
  obtain ⟨index, hindex, timestamp, htime, prevHash, -, txnsHash, -, nonce, hnonce, hrest⟩ := h
  obtain rfl := Option.some.inj hrest
  exact ⟨getU64_lossless ho hindex, getU64_lossless ho htime, getU64_lossless ho hnonce⟩

theorem asObject_parsed {v : Value} {o : Fields} (hv : v.Parsed) (h : v.asObject = some o) :
    ∀ f ∈ o, f.2.Parsed := by
  cases hv with
  | object ho => rwa [← Option.some.inj h]
  | _ => cases h

theorem asArray_parsed {v : Value} {xs : List Value} (hv : v.Parsed) (h : v.asArray = some xs) :
    ∀ x ∈ xs, x.Parsed := by
  cases hv with
  | array hxs => rwa [← Option.some.inj h]
  | _ => cases h

theorem readTxn_lossless {v : Value} {t : Txn} (hv : v.Parsed) (h : readTxn v = some t) :
    t.ver = kTxnVersion ∧ LosslessLiteral t.amount.toNat ∧ LosslessLiteral t.nonce.toNat := by
  simp only [readTxn, Option.bind_eq_bind, Option.bind_eq_some_iff] at h
  obtain ⟨o, hobject, ver, -, _, hver, sender, -, receiver, -, amount, hamount, nonce, hnonce,
    pubkey, -, sig, -, hrest⟩ := h
  have ho := asObject_parsed hv hobject
  have hone : ver = kTxnVersion.toUInt64 := by
    by_contra hne
    simp [guard, hne] at hver
  rw [← Option.some.inj hrest, hone]
  exact ⟨rfl, getU64_lossless ho hamount, getU64_lossless ho hnonce⟩

theorem mapM_readTxn_lossless {xs : List Value} {txns : List Txn} (hxs : ∀ x ∈ xs, x.Parsed)
    (h : xs.mapM readTxn = some txns) :
    ∀ t ∈ txns, t.ver = kTxnVersion ∧ LosslessLiteral t.amount.toNat ∧
      LosslessLiteral t.nonce.toNat := by
  intro t ht
  obtain ⟨x, hx, hread⟩ := exists_of_mapM h t ht
  exact readTxn_lossless (hxs x hx) hread

/-- A block that is read off a parsed value is one that a line keeps. -/
theorem readBlock_lossless {v : Value} {b : Block} (hv : v.Parsed) (h : readBlock v = some b) :
    (∀ t ∈ b.txns, t.ver = kTxnVersion) ∧ ∀ n ∈ b.literals, LosslessLiteral n := by
  simp only [readBlock, Option.bind_eq_bind, Option.bind_eq_some_iff] at h
  obtain ⟨root, hroot, hv', hlookup, hobj, hobject, header, hheader, tv, htv, xs, hxs, txns,
    htxns, hrest⟩ := h
  obtain rfl := Option.some.inj hrest
  have hfields := asObject_parsed hv hroot
  have hhead := readHeader_lossless (asObject_parsed (parsed_of_lookup hfields hlookup) hobject)
    hheader
  have hall := mapM_readTxn_lossless (asArray_parsed (parsed_of_lookup hfields htv) hxs) htxns
  refine ⟨fun t ht => (hall t ht).1, fun n hn => ?_⟩
  rw [Block.literals, List.mem_append, List.mem_flatMap] at hn
  obtain hhdr | ⟨t, ht, htxn⟩ := hn
  · simp only [List.mem_cons, List.not_mem_nil, or_false] at hhdr
    obtain rfl | rfl | rfl := hhdr
    · exact hhead.1
    · exact hhead.2.1
    · exact hhead.2.2
  · obtain ⟨hver, hamount, hnonce⟩ := hall t ht
    simp only [List.mem_cons, List.not_mem_nil, or_false] at htxn
    obtain rfl | rfl | rfl := htxn
    · rw [hver]
      exact .inl (by decide)
    · exact hamount
    · exact hnonce

/-! ### Loaded blocks -/

section Loaded

variable [Crypto]

attribute [local instance] picojson

/-- The line of a loaded block loads as that block. -/
theorem fromJsonLine_loaded {line : Text} {b : Block} (h : fromJsonLine line = some b) :
    fromJsonLine (toJsonLine b) = some b := by
  obtain ⟨v, hparse, hread⟩ := Option.bind_eq_some_iff.mp h
  rw [parse_picojson] at hparse
  have hparsed : v.Parsed := by
    cases hrun : parse line with
    | error e =>
        rw [hrun] at hparse
        cases hparse
    | ok read =>
        rw [hrun] at hparse
        rw [← Option.some.inj hparse]
        exact yields_parseValue _ _ hrun
  obtain ⟨hver, hlossless⟩ := readBlock_lossless hparsed hread
  have hline := chain_line_loads_iff hver []
  rw [List.append_nil] at hline
  exact hline.mpr hlossless

/-- So do the lines of all blocks of a file that loads. -/
theorem ChainStore.load_readable {store : ChainStore} {fs : FileSystem} {blocks : List Block}
    (hload : store.load fs = ⟨{ ok := true }, blocks⟩) :
    ∀ b ∈ blocks, fromJsonLine (toJsonLine b) = some b := by
  intro b hb
  cases hfile : fs store.path with
  | none =>
      rw [ChainStore.load, hfile] at hload
      cases hload
  | some text =>
      obtain ⟨line, -, hread⟩ := exists_of_mapM ((ChainStore.load_eq_iff hfile).mp hload) b hb
      exact fromJsonLine_loaded hread

end Loaded

end TxChain
