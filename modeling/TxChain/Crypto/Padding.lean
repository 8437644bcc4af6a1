import TxChain.Crypto.Sha256
import TxChain.Library.BigEndian
import TxChain.Library.IteratedHash

/-!
# Padding

The context absorbs bytes one at a time and pads at the end. What it computes is the
iterated compression of the padded message: the message, a byte `0x80`, zeros up to the
block and the number of bits. Below `2 ^ 61` bytes the padded messages tell the messages
apart even from behind, so a collision of digests is one of the compression.
-/

namespace TxChain.Sha256

open IteratedHash

/-- The message as it is compressed. -/
def padded (m : List Byte) : List Byte :=
  m ++ 0x80 :: List.replicate ((119 - m.length % 64) % 64) 0 ++
    emitLength (UInt64.ofNat (8 * m.length))

/-- The chaining words as bytes. -/
def emit (s : Words) : List Byte := [s.a, s.b, s.c, s.d, s.e, s.f, s.g, s.h].flatMap emitWord

/-- The states that the compression of a message passes through, each with its block. -/
def compressions (m : List Byte) : List (Words × List Byte) :=
  Run.moves transform init.state (cut 64 (padded m))

theorem length_emitLength (x : UInt64) : (emitLength x).length = 8 := rfl

theorem length_padded (m : List Byte) : 64 ∣ (padded m).length := by
  simp only [padded, List.length_append, List.length_cons, List.length_replicate, length_emitLength]
  omega

/-! ### The context -/

/-- What the context holds once it has absorbed `m`: whole blocks are compressed. -/
structure Context.Holds (c : Context) (m : List Byte) : Prop where
  short : c.data.length < 64
  split : ∃ blocks : List (List Byte),
    (∀ b ∈ blocks, b.length = 64) ∧ m = blocks.flatten ++ c.data ∧
    c.state = blocks.foldl transform init.state ∧ c.bitlen = UInt64.ofNat (512 * blocks.length)

variable {c : Context} {m m' : List Byte}

theorem holds_init : init.Holds [] where
  short := by decide
  split := ⟨[], by simp, rfl, rfl, rfl⟩

theorem Context.Holds.absorb (h : c.Holds m) (byte : Byte) :
    (absorb c byte).Holds (m ++ [byte]) := by
  obtain ⟨blocks, hsizes, hm, hstate, hbits⟩ := h.split
  have hshort := h.short
  rw [Sha256.absorb]
  split
  next hfull =>
    refine ⟨by simp, blocks ++ [c.data ++ [byte]], ?_, ?_, ?_, ?_⟩
    · intro b hb
      obtain hb | hb := List.mem_append.mp hb
      · exact hsizes b hb
      · rw [List.mem_singleton.mp hb, hfull]
    · simp [hm]
    · rw [List.foldl_append, ← hstate]
      rfl
    · rw [hbits, List.length_append, List.length_singleton, Nat.mul_succ, UInt64.ofNat_add]
      rfl
  next hfree =>
    refine ⟨?_, blocks, hsizes, by rw [hm, List.append_assoc], hstate, hbits⟩
    dsimp only
    rw [List.length_append, List.length_singleton] at hfree ⊢
    omega

theorem holds_update (m : List Byte) : (update init m).Holds m := by
  induction m using List.reverseRecOn with
  | nil => exact holds_init
  | append_singleton m byte ih =>
      rw [update, List.foldl_append]
      exact ih.absorb byte

/-! ### The digest -/

theorem final_toList (c : Context) :
    (final c).toList = emit
      (if c.data.length < 56 then
        transform c.state (c.data ++ 0x80 :: List.replicate (55 - c.data.length) 0 ++
          emitLength (c.bitlen + c.data.length.toUInt64 * 8))
      else
        transform (transform c.state (c.data ++ 0x80 :: List.replicate (63 - c.data.length) 0))
          (List.replicate 56 0 ++ emitLength (c.bitlen + c.data.length.toUInt64 * 8))) := by
  rw [final]
  exact List.toList_toArray

/-- The padded end of a message is one block or two. -/
theorem Context.Holds.final (h : c.Holds m) :
    (final c).toList = emit ((cut 64 (padded m)).foldl transform init.state) := by
  obtain ⟨blocks, hsizes, hm, hstate, hbits⟩ := h.split
  have hshort := h.short
  have hlength : m.length = blocks.length * 64 + c.data.length := by
    rw [hm, List.length_append, length_flatten hsizes]
  have hrest : m.length % 64 = c.data.length := by omega
  have hword : c.bitlen + c.data.length.toUInt64 * 8 = UInt64.ofNat (8 * m.length) := by
    have hsum : 8 * m.length = 512 * blocks.length + c.data.length * 8 := by omega
    rw [hsum, UInt64.ofNat_add, UInt64.ofNat_mul c.data.length, hbits]
    rfl
  have hpadded : ∀ last : List (List Byte), (∀ b ∈ last, b.length = 64) →
      padded m = blocks.flatten ++ last.flatten →
        (cut 64 (padded m)).foldl transform init.state = last.foldl transform c.state := by
    intro last hlast heq
    have hall : ∀ b ∈ blocks ++ last, b.length = 64 := fun b hb =>
      (List.mem_append.mp hb).elim (hsizes b) (hlast b)
    rw [heq, ← List.flatten_append, cut_flatten (by decide) hall, List.foldl_append, hstate]
  rw [final_toList, hword]
  split
  next hsmall =>
    have hzeros : (119 - m.length % 64) % 64 = 55 - c.data.length := by omega
    rw [hpadded [c.data ++ 0x80 :: List.replicate (55 - c.data.length) 0 ++
      emitLength (UInt64.ofNat (8 * m.length))] ?_ ?_, List.foldl_cons, List.foldl_nil]
    · intro b hb
      rw [List.mem_singleton.mp hb]
      simp only [List.length_append, List.length_cons, List.length_replicate, length_emitLength]
      omega
    · rw [padded, hzeros, List.flatten_singleton]
      nth_rewrite 1 [hm]
      simp only [List.append_assoc, List.cons_append]
  next hlarge =>
    have hzeros : (119 - m.length % 64) % 64 = (63 - c.data.length) + 56 := by omega
    rw [hpadded [c.data ++ 0x80 :: List.replicate (63 - c.data.length) 0,
      List.replicate 56 0 ++ emitLength (UInt64.ofNat (8 * m.length))] ?_ ?_, List.foldl_cons,
      List.foldl_cons, List.foldl_nil]
    · intro b hb
      obtain rfl | rfl := List.mem_pair.mp hb
      · simp only [List.length_append, List.length_cons, List.length_replicate]
        omega
      · rfl
    · rw [padded, hzeros, List.replicate_add]
      nth_rewrite 1 [hm]
      simp only [List.flatten_cons, List.flatten_nil, List.append_nil, List.append_assoc,
        List.cons_append]

/-- However a message is handed over, its digest is the iterated compression of the padded
message. -/
theorem streamed_digest_iterated (chunks : List (List Byte)) :
    (final (chunks.foldl update init)).toList =
        emit ((cut 64 (padded chunks.flatten)).foldl transform init.state) ∧
      64 ∣ (padded chunks.flatten).length := by
  rw [final_update_chunks]
  exact ⟨(holds_update _).final, length_padded _⟩

/-! ### Telling messages apart -/

/-- A word by its bytes. -/
theorem emitLength_eq (x : UInt64) : emitLength x = BigEndian.digits 8 x.toNat := by
  have hbyte : ∀ i : UInt64, (x >>> i).toUInt8 = UInt8.ofNat (x.toNat / 2 ^ (i.toNat % 64)) := by
    intro i
    apply UInt8.toNat_inj.mp
    rw [UInt64.toNat_toUInt8, UInt64.toNat_shiftRight, Nat.shiftRight_eq_div_pow,
      UInt8.toNat_ofNat']
  simp only [emitLength, List.map_cons, List.map_nil, hbyte]
  simp [BigEndian.digits, Nat.div_div_eq_div_mul]

theorem emitWord_eq (x : UInt32) : emitWord x = BigEndian.digits 4 x.toNat := by
  have hbyte : ∀ i : UInt32, (x >>> i).toUInt8 = UInt8.ofNat (x.toNat / 2 ^ (i.toNat % 32)) := by
    intro i
    apply UInt8.toNat_inj.mp
    rw [UInt32.toNat_toUInt8, UInt32.toNat_shiftRight, Nat.shiftRight_eq_div_pow,
      UInt8.toNat_ofNat']
  have hlast : x.toUInt8 = UInt8.ofNat x.toNat := rfl
  simp only [emitWord, hbyte, hlast]
  simp [BigEndian.digits, Nat.div_div_eq_div_mul]

theorem emitWord_injective : Function.Injective emitWord := by
  intro x y h
  have hvalue := congrArg BigEndian.value h
  have hx := x.toNat_lt
  have hy := y.toNat_lt
  rw [emitWord_eq, emitWord_eq, BigEndian.value_digits, BigEndian.value_digits] at hvalue
  apply UInt32.toNat_inj.mp
  omega

theorem emit_injective : Function.Injective emit := by
  have hwords : ∀ (x y : UInt32) (s t : List Byte), emitWord x ++ s = emitWord y ++ t →
      x = y ∧ s = t := by
    intro x y s t h
    obtain ⟨hword, hrest⟩ := List.append_inj h rfl
    exact ⟨emitWord_injective hword, hrest⟩
  intro s t h
  simp only [emit, List.flatMap_cons, List.flatMap_nil] at h
  obtain ⟨ha, h⟩ := hwords _ _ _ _ h
  obtain ⟨hb, h⟩ := hwords _ _ _ _ h
  obtain ⟨hc, h⟩ := hwords _ _ _ _ h
  obtain ⟨hd, h⟩ := hwords _ _ _ _ h
  obtain ⟨he, h⟩ := hwords _ _ _ _ h
  obtain ⟨hf, h⟩ := hwords _ _ _ _ h
  obtain ⟨hg, h⟩ := hwords _ _ _ _ h
  obtain ⟨hh, -⟩ := hwords _ _ _ _ h
  cases s
  cases t
  simp only at ha hb hc hd he hf hg hh
  subst ha hb hc hd he hf hg hh
  rfl

/-- No padded message ends another one. -/
theorem eq_of_padded_suffix (hm : m.length < 2 ^ 61) (hm' : m'.length < 2 ^ 61)
    (h : padded m <:+ padded m') : m = m' := by
  obtain ⟨front, hfront⟩ := h
  -- the last eight bytes are the number of bits
  rw [padded, padded, ← List.append_assoc] at hfront
  obtain ⟨hinside, hbits⟩ := List.append_inj' hfront rfl
  have hlength : m.length = m'.length := by
    have hvalue := congrArg BigEndian.value hbits
    rw [emitLength_eq, emitLength_eq, BigEndian.value_digits, BigEndian.value_digits] at hvalue
    simp only [UInt64.toNat_ofNat'] at hvalue
    omega
  -- so the two are equally long, and nothing is in front
  have hsize := congrArg List.length hinside
  rw [List.length_append, List.length_append, List.length_append, hlength] at hsize
  have hnil : front = [] := by
    apply List.eq_nil_of_length_eq_zero
    simp only [List.length_cons, List.length_replicate] at hsize
    omega
  rw [hnil, List.nil_append] at hinside
  exact (List.append_inj hinside hlength).1

/-- A digest stands for one message, or the compression collides at two of the inputs it had. -/
theorem digest_binds_message (hm : m.length < 2 ^ 61) (hm' : m'.length < 2 ^ 61)
    (h : sha256 m = sha256 m') :
    m = m' ∨ ∃ p ∈ compressions m, ∃ q ∈ compressions m', IteratedHash.Collision transform p q := by
  rw [or_iff_not_imp_left]
  intro hne
  have hstates : (cut 64 (padded m)).foldl transform init.state =
      (cut 64 (padded m')).foldl transform init.state := by
    apply emit_injective
    rw [← (holds_update m).final, ← (holds_update m').final]
    exact congrArg Vector.toList h
  have hpadded : ∀ {u v : List Byte}, cut 64 (padded u) <:+ cut 64 (padded v) →
      padded u <:+ padded v := by
    rintro u v ⟨front, hfront⟩
    refine ⟨front.flatten, ?_⟩
    rw [← flatten_cut (length_padded u), ← flatten_cut (length_padded v), ← hfront,
      List.flatten_append]
  exact collision_of_foldl hstates (fun hs => hne (eq_of_padded_suffix hm hm' (hpadded hs)))
    (fun hs => hne (eq_of_padded_suffix hm' hm (hpadded hs)).symm)

/-- The message `abc`. -/
def abc : List Byte := [0x61, 0x62, 0x63]

/-- Its digest is that of the three characters, and it is hashed by one compression, which does
not collide with itself: the two messages are the same. -/
theorem digest_binds_abc : abc = "abc".toList.map fun c => UInt8.ofNat c.toNat := by
  have hdigest : sha256 abc = sha256 ("abc".toList.map fun c => UInt8.ofNat c.toNat) := by
    decide +kernel
  have honce : ∃ p, compressions abc = [p] ∧
      compressions ("abc".toList.map fun c => UInt8.ofNat c.toNat) = [p] := ⟨_, rfl, rfl⟩
  refine (digest_binds_message (by decide) (by decide) hdigest).resolve_right ?_
  rintro ⟨p, hp, q, hq, hcollision⟩
  obtain ⟨_, habc, hchars⟩ := honce
  rw [habc] at hp
  rw [hchars] at hq
  exact hcollision.1 ((List.mem_singleton.mp hp).trans (List.mem_singleton.mp hq).symm)

end TxChain.Sha256
