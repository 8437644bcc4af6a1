import TxChain.Crypto.Bytes
import TxChain.Library.BigEndian
import TxChain.Library.Stream

/-!
# The frame codec

A frame is a 9-byte header, magic, type and big-endian payload length, and the payload.
`readExact` and `writeAll` loop over calls that transfer what they like; everything
above them is stated on the bytes of the stream, whatever its segmentation.
-/

namespace TxChain

open Stream

def frameMagic : List Byte := [0x54, 0x58, 0x43, 0x31]
def maxFrameLen : UInt32 := 2 * 1024 * 1024
def frameHeaderLen : ℕ := 9

/-- The enumeration names ten values; a frame carries any byte. -/
abbrev MsgType := Byte

inductive FrameError where
  | badMagic
  | oversize
  | shortRead
  | ioError
  deriving DecidableEq

structure Frame where
  type : MsgType
  payload : List Byte
  deriving DecidableEq

/-- The receiving end of a connection. -/
abbrev Inbound := List (Arrival Byte)

/-- The loop of `read_exact`, with the bytes read so far. -/
def readExact (n : ℕ) (got : List Byte) (fd : Inbound) : Except FrameError (List Byte) × Inbound :=
  if n ≤ got.length then (.ok got, fd)
  else
    match _hrecv : recv (n - got.length) fd with
    | (.exhausted, rest) => (.error .shortRead, rest)
    | (.failed, rest) => (.error .ioError, rest)
    | (.interrupted, rest) => readExact n got rest
    | (.data symbols, rest) => readExact n (got ++ symbols) rest
termination_by size fd
decreasing_by
  all_goals
    have hmore : 0 < n - got.length := by omega
    have hsize := size_recv hmore fd
    rw [_hrecv] at hsize
    exact hsize nofun

/-- The loop of `write_all`; what is left to write shrinks. -/
def writeAll (symbols : List Byte) (out : Outbound Byte) : Except FrameError Unit × Outbound Byte :=
  if symbols = [] then (.ok (), out)
  else
    match _hsend : send symbols out with
    | (.failed, next) => (.error .ioError, next)
    | (.interrupted, next) => writeAll symbols next
    | (.count k, next) => writeAll (symbols.drop k) next
termination_by out.plan.length + symbols.length
decreasing_by
  all_goals
    have hpos : 0 < symbols.length := List.length_pos_iff.mpr ‹_›
    rw [send] at _hsend
    split at _hsend <;> cases _hsend <;> simp_all <;> omega

/-- The declared payload length. -/
def frameLength (hdr : List Byte) : UInt32 :=
  ((hdr.getD 5 0).toUInt32 <<< 24) ||| ((hdr.getD 6 0).toUInt32 <<< 16) |||
    ((hdr.getD 7 0).toUInt32 <<< 8) ||| (hdr.getD 8 0).toUInt32

/-- What follows the header in `read_frame`. The declared size is checked before
anything of the payload is read. -/
def readBody (hdr : List Byte) (fd : Inbound) : Except FrameError Frame × Inbound :=
  let type := hdr.getD 4 0
  let length := frameLength hdr
  if hdr.take 4 ≠ frameMagic then (.error .badMagic, fd)
  else if maxFrameLen < length then (.error .oversize, fd)
  else if 0 < length then
    match readExact length.toNat [] fd with
    | (.error err, rest) => (.error err, rest)
    | (.ok payload, rest) => (.ok ⟨type, payload⟩, rest)
  else (.ok ⟨type, []⟩, fd)

def readFrame (fd : Inbound) : Except FrameError Frame × Inbound :=
  match readExact frameHeaderLen [] fd with
  | (.error err, rest) => (.error err, rest)
  | (.ok hdr, rest) => readBody hdr rest

/-- The header of a frame with a payload of the given length. -/
def frameHeader (type : MsgType) (length : UInt32) : List Byte :=
  frameMagic ++ [type, ((length >>> 24) &&& 0xFF).toUInt8, ((length >>> 16) &&& 0xFF).toUInt8,
    ((length >>> 8) &&& 0xFF).toUInt8, (length &&& 0xFF).toUInt8]

def writeFrame (out : Outbound Byte) (type : MsgType) (payload : List Byte) :
    Except FrameError Unit × Outbound Byte :=
  if maxFrameLen.toNat < payload.length then (.error .oversize, out)
  else
    match writeAll (frameHeader type (UInt32.ofNat payload.length)) out with
    | (.error err, out) => (.error err, out)
    | (.ok (), out) => if payload ≠ [] then writeAll payload out else (.ok (), out)

/-! ### The header -/

private theorem shifted (b : Byte) {i : UInt32} {k : ℕ} (hi : i.toNat = k) (hk : k ≤ 24) :
    (b.toUInt32 <<< i).toNat = 2 ^ k * b.toNat := by
  have hb := b.toNat_lt
  have hfits : 2 ^ k * b.toNat < 2 ^ 32 := by
    have hpow : 2 ^ k ≤ 2 ^ 24 := Nat.pow_le_pow_right (by decide) hk
    nlinarith
  have hplace : k % 32 = k := Nat.mod_eq_of_lt (by omega)
  rw [UInt32.toNat_shiftLeft, UInt8.toNat_toUInt32, hi, hplace, Nat.shiftLeft_eq, Nat.mul_comm,
    Nat.mod_eq_of_lt hfits]

/-- Four shifted bytes are a big-endian word. -/
theorem word_toNat (a b c d : Byte) :
    ((a.toUInt32 <<< 24) ||| (b.toUInt32 <<< 16) ||| (c.toUInt32 <<< 8) ||| d.toUInt32).toNat =
      BigEndian.value [a, b, c, d] := by
  have hb := b.toNat_lt
  have hc := c.toNat_lt
  have hd := d.toNat_lt
  have h₂ := Nat.two_pow_add_eq_or_of_lt (i := 24) (b := 2 ^ 16 * b.toNat) (by omega) a.toNat
  have hfront : 2 ^ 24 * a.toNat + 2 ^ 16 * b.toNat = 2 ^ 16 * (2 ^ 8 * a.toNat + b.toNat) := by
    omega
  have h₁ := Nat.two_pow_add_eq_or_of_lt (i := 16) (b := 2 ^ 8 * c.toNat) (by omega)
    (2 ^ 8 * a.toNat + b.toNat)
  have hmid : 2 ^ 16 * (2 ^ 8 * a.toNat + b.toNat) + 2 ^ 8 * c.toNat =
    2 ^ 8 * (2 ^ 16 * a.toNat + 2 ^ 8 * b.toNat + c.toNat) := by omega
  have h₀ := Nat.two_pow_add_eq_or_of_lt (i := 8) (b := d.toNat) (by omega)
    (2 ^ 16 * a.toNat + 2 ^ 8 * b.toNat + c.toNat)
  rw [UInt32.toNat_or, UInt32.toNat_or, UInt32.toNat_or, shifted a (k := 24) rfl (by decide),
    shifted b (k := 16) rfl (by decide), shifted c (k := 8) rfl (by decide), UInt8.toNat_toUInt32,
    ← h₂, hfront, ← h₁, hmid, ← h₀]
  simp only [BigEndian.value, List.foldl_cons, List.foldl_nil]
  omega

private theorem header_byte (length i : UInt32) {k : ℕ} (hi : i.toNat = 8 * k) (hk : k < 4) :
    ((length >>> i) &&& 0xFF).toUInt8 = UInt8.ofNat (length.toNat / 256 ^ k) := by
  have hbase : 2 ^ (8 * k) = 256 ^ k := Nat.pow_mul 2 8 k
  have hmask := Nat.and_two_pow_sub_one_eq_mod (length.toNat / 256 ^ k) 8
  simp only [Nat.reducePow, Nat.add_one_sub_one] at hmask
  apply UInt8.toNat_inj.mp
  have hplace : 8 * k % 32 = 8 * k := Nat.mod_eq_of_lt (by omega)
  rw [UInt32.toNat_toUInt8, UInt32.toNat_and, UInt32.toNat_shiftRight, hi, hplace,
    Nat.shiftRight_eq_div_pow, hbase, UInt8.toNat_ofNat']
  simp only [UInt32.reduceToNat, hmask, Nat.reducePow, Nat.mod_mod]

theorem frameHeader_eq (type : MsgType) (length : UInt32) :
    frameHeader type length = frameMagic ++ type :: BigEndian.digits 4 length.toNat := by
  have hlast : length &&& 0xFF = (length >>> (0 : UInt32)) &&& 0xFF := by simp
  rw [frameHeader, header_byte length 24 (k := 3) rfl (by decide),
    header_byte length 16 (k := 2) rfl (by decide), header_byte length 8 (k := 1) rfl (by decide),
    hlast, header_byte length 0 (k := 0) rfl (by decide)]
  simp [BigEndian.digits, Nat.div_div_eq_div_mul]

/-- The declared length of a frame whose bytes are in front. -/
def declaredLength (bytes : List Byte) : ℕ := BigEndian.value ((bytes.drop 5).take 4)

theorem frameLength_toNat {hdr : List Byte} (hlen : hdr.length = frameHeaderLen)
    (rest : List Byte) : (frameLength hdr).toNat = declaredLength (hdr ++ rest) := by
  match hdr, hlen with
  | [_, _, _, _, _, a, b, c, d], _ => exact word_toNat a b c d

/-- A header with the right magic is the one that is written for its type and length. -/
theorem frameHeader_of_magic {hdr : List Byte} (hlen : hdr.length = frameHeaderLen)
    (hmagic : hdr.take 4 = frameMagic) : frameHeader (hdr.getD 4 0) (frameLength hdr) = hdr := by
  match hdr, hlen with
  | [m₀, m₁, m₂, m₃, type, a, b, c, d], _ =>
      have hword : (frameLength [m₀, m₁, m₂, m₃, type, a, b, c, d]).toNat =
          BigEndian.value [a, b, c, d] := word_toNat a b c d
      rw [frameHeader_eq, hword, ← hmagic]
      exact congrArg (fun tail => [m₀, m₁, m₂, m₃] ++ type :: tail)
        (BigEndian.digits_value [a, b, c, d])

@[simp] theorem length_frameHeader (type : MsgType) (length : UInt32) :
    (frameHeader type length).length = frameHeaderLen := rfl

theorem frameLength_frameHeader (type : MsgType) (length : UInt32) :
    frameLength (frameHeader type length) = length := by
  apply UInt32.toNat_inj.mp
  have hlen := length_frameHeader type length
  rw [frameLength_toNat hlen [], frameHeader_eq]
  exact (BigEndian.value_digits 4 length.toNat).trans (Nat.mod_eq_of_lt length.toNat_lt)

/-- The bytes of a frame on the wire. -/
def frameBytes (f : Frame) : List Byte :=
  frameHeader f.type (UInt32.ofNat f.payload.length) ++ f.payload

/-- The payload is within the cap. -/
def Frame.Fits (f : Frame) : Prop := f.payload.length ≤ maxFrameLen.toNat

theorem Frame.Fits.length_toNat {f : Frame} (h : f.Fits) :
    (UInt32.ofNat f.payload.length).toNat = f.payload.length := by
  have hcap : maxFrameLen.toNat < 2 ^ 32 := maxFrameLen.toNat_lt
  exact UInt32.toNat_ofNat_of_lt' (h.trans_lt hcap)

/-! ### The read loop -/

section ReadExact

variable {n : ℕ} {got : List Byte} {fd : Inbound}

theorem readExact_done (h : n ≤ got.length) : readExact n got fd = (.ok got, fd) := by
  rw [readExact, if_pos h]

theorem readExact_call (h : ¬n ≤ got.length) :
    readExact n got fd =
      match recv (n - got.length) fd with
      | (.exhausted, rest) => (.error .shortRead, rest)
      | (.failed, rest) => (.error .ioError, rest)
      | (.interrupted, rest) => readExact n got rest
      | (.data symbols, rest) => readExact n (got ++ symbols) rest := by
  rw [readExact, if_neg h]
  split <;> rename_i hrecv <;> rw [hrecv]

/-- One call of the loop: it goes on with what arrived, which is nothing after an interrupted
call, or it stops. -/
theorem readExact_step (hmore : got.length < n) (fd : Inbound) :
    (∃ symbols mid, readExact n got fd = readExact n (got ++ symbols) mid ∧
        (got ++ symbols).length ≤ n ∧ content fd = symbols ++ content mid ∧ size mid < size fd ∧
        (Steady fd → Steady mid)) ∨
      (readExact n got fd = (.error .shortRead, []) ∧ content fd = []) ∨
      ∃ rest, readExact n got fd = (.error .ioError, rest) ∧ .failed ∈ fd := by
  have hcall : readExact n got fd = _ := readExact_call (Nat.not_le.mpr hmore)
  have hleft : 0 < n - got.length := Nat.sub_pos_of_lt hmore
  rcases recv_cases hleft fd with ⟨symbols, mid, hrecv, hd⟩ | ⟨hrecv, hnone⟩ |
    ⟨mid, hrecv, -, hs⟩ | ⟨mid, hrecv, hfailed, -⟩
  · left
    rw [hrecv] at hcall
    refine ⟨symbols, mid, hcall, ?_, hd.content, hd.size, hd.steady⟩
    have hbounded := hd.bounded
    rw [List.length_append]
    omega
  · right; left
    rw [hrecv] at hcall
    exact ⟨hcall, hnone⟩
  · left
    rw [hrecv] at hcall
    refine ⟨[], mid, ?_, ?_, hs.content, hs.size, hs.steady⟩
    · rw [List.append_nil]
      exact hcall
    · rw [List.append_nil]
      exact hmore.le
  · right; right
    rw [hrecv] at hcall
    exact ⟨mid, hcall, hfailed⟩

/-- The loop ends with the bytes it was asked for, at the end of the stream, or at a
call that failed. -/
theorem readExact_cases (hgot : got.length ≤ n) (fd : Inbound) :
    (∃ bytes rest, readExact n got fd = (.ok (got ++ bytes), rest) ∧ (got ++ bytes).length = n ∧
        content fd = bytes ++ content rest ∧ (Steady fd → Steady rest)) ∨
      (readExact n got fd = (.error .shortRead, []) ∧ got.length + (content fd).length < n) ∨
      ∃ rest, readExact n got fd = (.error .ioError, rest) ∧ .failed ∈ fd := by
  -- every call that goes on leaves less of the stream
  induction hsize : size fd using Nat.strong_induction_on generalizing got fd with
  | _ k ih =>
      by_cases hdone : n ≤ got.length
      · left
        refine ⟨[], fd, ?_, ?_, rfl, id⟩
        · rw [readExact_done hdone, List.append_nil]
        · rw [List.append_nil]
          omega
      · have hmore : got.length < n := Nat.not_le.mp hdone
        rcases readExact_step hmore fd with ⟨symbols, mid, hstep, hgot', hcontent, hless, hsteady⟩ |
          ⟨hstop, hnone⟩ | hfailed
        · rw [hstep]
          rcases ih (size mid) (hsize ▸ hless) hgot' mid rfl with
            ⟨bytes, rest, hread, hlen, hrest, hcalm⟩ | ⟨hread, hshort⟩ | ⟨rest, hread, hfailed⟩
          · left
            rw [List.append_assoc] at hread hlen
            refine ⟨symbols ++ bytes, rest, hread, hlen, ?_, fun h => hcalm (hsteady h)⟩
            rw [hcontent, hrest, List.append_assoc]
          · right; left
            refine ⟨hread, ?_⟩
            rw [List.length_append] at hshort
            rw [hcontent, List.length_append]
            omega
          · right; right
            refine ⟨rest, hread, ?_⟩
            by_contra hcalm
            exact hsteady hcalm hfailed
        · right; left
          refine ⟨hstop, ?_⟩
          rw [hnone, List.length_nil]
          omega
        · exact .inr (.inr hfailed)

/-- The same for a loop that starts with nothing. -/
theorem readExact_start (n : ℕ) (fd : Inbound) :
    (∃ bytes rest, readExact n [] fd = (.ok bytes, rest) ∧ bytes.length = n ∧
        content fd = bytes ++ content rest ∧ (Steady fd → Steady rest)) ∨
      (readExact n [] fd = (.error .shortRead, []) ∧ (content fd).length < n) ∨
      ∃ rest, readExact n [] fd = (.error .ioError, rest) ∧ .failed ∈ fd := by
  have hstart : ([] : List Byte).length ≤ n := Nat.zero_le n
  have hcases := readExact_cases hstart fd
  simpa only [List.nil_append, List.length_nil, Nat.zero_add] using hcases

/-- On a stream without failing calls the loop takes the bytes in front, if there are
enough of them. -/
theorem readExact_steady {bytes tail : List Byte} (hsteady : Steady fd)
    (hcontent : content fd = bytes ++ tail) :
    ∃ rest, readExact bytes.length [] fd = (.ok bytes, rest) ∧ content rest = tail ∧
      Steady rest := by
  rcases readExact_start bytes.length fd with
    ⟨read, rest, hread, hlen, hsplit, hrest⟩ | ⟨-, hshort⟩ | ⟨rest, -, hfailed⟩
  · rw [hcontent] at hsplit
    obtain ⟨rfl, rfl⟩ := List.append_inj hsplit hlen.symm
    exact ⟨rest, hread, rfl, hrest hsteady⟩
  · rw [hcontent, List.length_append] at hshort
    omega
  · exact absurd hfailed hsteady

end ReadExact

/-! ### The write loop -/

section WriteAll

variable {symbols : List Byte} {out : Outbound Byte}

theorem writeAll_call (h : symbols ≠ []) :
    writeAll symbols out =
      match send symbols out with
      | (.failed, next) => (.error .ioError, next)
      | (.interrupted, next) => writeAll symbols next
      | (.count k, next) => writeAll (symbols.drop k) next := by
  rw [writeAll, if_neg h]
  split <;> rename_i hsend <;> rw [hsend]

/-- Unless a call fails, everything is written, in order. -/
theorem writeAll_steady (symbols : List Byte) (out : Outbound Byte) (h : .failed ∉ out.plan) :
    ∃ plan, writeAll symbols out = (.ok (), ⟨out.sent ++ symbols, plan⟩) ∧ .failed ∉ plan := by
  obtain ⟨sent, plan⟩ := out
  induction plan generalizing symbols sent with
  | nil =>
      by_cases hdone : symbols = []
      · subst hdone
        refine ⟨[], ?_, List.not_mem_nil⟩
        rw [writeAll, if_pos rfl, List.append_nil]
      · refine ⟨[], ?_, List.not_mem_nil⟩
        rw [writeAll_call hdone, send]
        simp only [List.drop_length]
        rw [writeAll, if_pos rfl]
  | cons call plan ih =>
      have hplan : Acceptance.failed ∉ plan := fun hmem => h (List.mem_cons_of_mem call hmem)
      by_cases hdone : symbols = []
      · subst hdone
        refine ⟨call :: plan, ?_, h⟩
        rw [writeAll, if_pos rfl, List.append_nil]
      · rw [writeAll_call hdone, send]
        cases call with
        | failed => exact absurd List.mem_cons_self h
        | interrupted => exact ih symbols sent hplan
        | accepts n =>
            have hrest := ih (symbols.drop (min n symbols.length)) (sent ++ symbols.take n) hplan
            have hsplit : symbols.take n ++ symbols.drop (min n symbols.length) = symbols := by
              rcases Nat.le_total n symbols.length with hle | hle
              · rw [Nat.min_eq_left hle, List.take_append_drop]
              · rw [Nat.min_eq_right hle, List.take_of_length_le hle, List.drop_length,
                  List.append_nil]
            rw [List.append_assoc, hsplit] at hrest
            exact hrest

end WriteAll

/-! ### One frame -/

/-- Unless a call fails, a frame within the cap is written in full. -/
theorem writeFrame_steady {f : Frame} (hfits : f.Fits) (out : Outbound Byte)
    (h : .failed ∉ out.plan) :
    ∃ plan, writeFrame out f.type f.payload = (.ok (), ⟨out.sent ++ frameBytes f, plan⟩) ∧
      .failed ∉ plan := by
  obtain ⟨plan₁, hheader, hplan₁⟩ :=
    writeAll_steady (frameHeader f.type (UInt32.ofNat f.payload.length)) out h
  rw [writeFrame, if_neg (Nat.not_lt.mpr hfits), hheader, frameBytes]
  by_cases hempty : f.payload = []
  · refine ⟨plan₁, ?_, hplan₁⟩
    rw [hempty, List.append_nil]
    rfl
  · obtain ⟨plan₂, hpayload, hplan₂⟩ :=
      writeAll_steady f.payload ⟨out.sent ++ frameHeader f.type _, plan₁⟩ hplan₁
    refine ⟨plan₂, ?_, hplan₂⟩
    rw [← List.append_assoc]
    show (if f.payload ≠ [] then _ else _) = _
    rw [if_pos hempty]
    exact hpayload

/-- What a call of `read_frame` took from the stream and why it stopped. -/
def ReadsFrame (fd : Inbound) : Except FrameError Frame × Inbound → Prop
  | (.ok f, rest) => f.Fits ∧ content fd = frameBytes f ++ content rest
  | (.error .badMagic, rest) => ∃ hdr, hdr.length = frameHeaderLen ∧ hdr.take 4 ≠ frameMagic ∧
      content fd = hdr ++ content rest
  | (.error .oversize, rest) => ∃ hdr, hdr.length = frameHeaderLen ∧
      maxFrameLen.toNat < declaredLength (content fd) ∧ content fd = hdr ++ content rest
  | (.error .shortRead, rest) => rest = [] ∧ ((content fd).length < frameHeaderLen ∨
      (content fd).take 4 = frameMagic ∧ declaredLength (content fd) ≤ maxFrameLen.toNat ∧
        (content fd).length < frameHeaderLen + declaredLength (content fd))
  | (.error .ioError, _) => .failed ∈ fd

/-- A header that was accepted is the header of every frame with the payload it declares. -/
theorem frame_of_header {hdr payload : List Byte} (hlen : hdr.length = frameHeaderLen)
    (hmagic : hdr.take 4 = frameMagic) (hcap : (frameLength hdr).toNat ≤ maxFrameLen.toNat)
    (hpayload : payload.length = (frameLength hdr).toNat) :
    (Frame.mk (hdr.getD 4 0) payload).Fits ∧
      frameBytes ⟨hdr.getD 4 0, payload⟩ = hdr ++ payload := by
  refine ⟨hpayload.trans_le hcap, ?_⟩
  rw [frameBytes, hpayload, UInt32.ofNat_toNat, frameHeader_of_magic hlen hmagic]

/-- What follows once the header has been read. -/
theorem readBody_reads {fd mid : Inbound} {hdr : List Byte} (hlen : hdr.length = frameHeaderLen)
    (hcontent : content fd = hdr ++ content mid) (hcalm : Steady fd → Steady mid) :
    ReadsFrame fd (readBody hdr mid) := by
  have hlength : (frameLength hdr).toNat = declaredLength (content fd) := by
    rw [hcontent]
    exact frameLength_toNat hlen _
  rw [readBody]
  by_cases hmagic : hdr.take 4 ≠ frameMagic
  · rw [if_pos hmagic]
    exact ⟨hdr, hlen, hmagic, hcontent⟩
  by_cases hcap : maxFrameLen < frameLength hdr
  · rw [if_neg hmagic, if_pos hcap]
    exact ⟨hdr, hlen, hlength ▸ UInt32.lt_iff_toNat_lt.mp hcap, hcontent⟩
  have hmagic' : hdr.take 4 = frameMagic := not_not.mp hmagic
  have hcap' : (frameLength hdr).toNat ≤ maxFrameLen.toNat :=
    UInt32.le_iff_toNat_le.mp (UInt32.not_lt.mp hcap)
  rw [if_neg hmagic, if_neg hcap]
  by_cases hpos : 0 < frameLength hdr
  · rw [if_pos hpos]
    rcases readExact_start (frameLength hdr).toNat mid with
      ⟨payload, rest, hread, hpayload, hrest, -⟩ | ⟨hread, hshort⟩ | ⟨rest, hread, hfailed⟩
    · obtain ⟨hfits, hbytes⟩ := frame_of_header hlen hmagic' hcap' hpayload
      rw [hread]
      refine ⟨hfits, ?_⟩
      rw [hbytes, hcontent, hrest, List.append_assoc]
    · have htotal : (content fd).length = frameHeaderLen + (content mid).length := by
        rw [hcontent, List.length_append, hlen]
      rw [hread]
      rw [hlength] at hshort hcap'
      refine ⟨rfl, .inr ⟨?_, hcap', by omega⟩⟩
      rw [hcontent, List.take_append_of_le_length (by rw [hlen]; decide)]
      exact hmagic'
    · rw [hread]
      by_contra hsteady
      exact hcalm hsteady hfailed
  · have hzero : frameLength hdr = 0 := by
      simpa using UInt32.not_lt.mp hpos
    have hnone : ([] : List Byte).length = (frameLength hdr).toNat := by
      rw [hzero]
      rfl
    obtain ⟨hfits, hbytes⟩ := frame_of_header hlen hmagic' hcap' hnone
    rw [if_neg hpos]
    refine ⟨hfits, ?_⟩
    rw [hbytes, List.append_nil, hcontent]

theorem readFrame_reads (fd : Inbound) : ReadsFrame fd (readFrame fd) := by
  rw [readFrame]
  rcases readExact_start frameHeaderLen fd with
    ⟨hdr, mid, hread, hlen, hcontent, hcalm⟩ | ⟨hread, hshort⟩ | ⟨mid, hread, hfailed⟩
  · rw [hread]
    exact readBody_reads hlen hcontent hcalm
  · rw [hread]
    exact ⟨rfl, .inl hshort⟩
  · rw [hread]
    exact hfailed

/-- A frame in front of a steady stream is read, and nothing behind it. -/
theorem readFrame_steady {f : Frame} (hfits : f.Fits) {fd : Inbound} {tail : List Byte}
    (hsteady : Steady fd) (hcontent : content fd = frameBytes f ++ tail) :
    ∃ rest, readFrame fd = (.ok f, rest) ∧ content rest = tail ∧ Steady rest := by
  rw [frameBytes, List.append_assoc] at hcontent
  obtain ⟨mid, hheader, hmid, hsteady'⟩ := readExact_steady hsteady hcontent
  have hlength : (UInt32.ofNat f.payload.length).toNat = f.payload.length := hfits.length_toNat
  have hmagic : (frameHeader f.type (UInt32.ofNat f.payload.length)).take 4 = frameMagic := rfl
  have htype : (frameHeader f.type (UInt32.ofNat f.payload.length)).getD 4 0 = f.type := rfl
  have hcap : ¬maxFrameLen < UInt32.ofNat f.payload.length := by
    rw [UInt32.not_lt, UInt32.le_iff_toNat_le, hlength]
    exact hfits
  rw [length_frameHeader] at hheader
  rw [readFrame, hheader]
  show ∃ rest, readBody (frameHeader f.type (UInt32.ofNat f.payload.length)) mid = _ ∧ _
  rw [readBody, hmagic, htype, frameLength_frameHeader, if_neg (not_not.mpr rfl), if_neg hcap]
  by_cases hpos : 0 < UInt32.ofNat f.payload.length
  · obtain ⟨rest, hpayload, hrest, hsteady''⟩ := readExact_steady hsteady' hmid
    refine ⟨rest, ?_, hrest, hsteady''⟩
    rw [if_pos hpos, hlength, hpayload]
  · have hzero : UInt32.ofNat f.payload.length = 0 := by
      simpa using UInt32.not_lt.mp hpos
    have hempty : f.payload = [] := by
      rw [hzero] at hlength
      exact List.eq_nil_of_length_eq_zero hlength.symm
    refine ⟨mid, ?_, ?_, hsteady'⟩
    · rw [if_neg hpos, ← hempty]
    · rw [hmid, hempty, List.nil_append]

/-- At the end of a steady stream every further call comes up short. -/
theorem readFrame_end {fd : Inbound} (hsteady : Steady fd) (hcontent : content fd = []) :
    readFrame fd = (.error .shortRead, []) := by
  rcases readExact_start frameHeaderLen fd with
    ⟨hdr, mid, -, hlen, hsplit, -⟩ | ⟨hread, -⟩ | ⟨mid, -, hfailed⟩
  · rw [hcontent] at hsplit
    obtain ⟨rfl, -⟩ := List.nil_eq_append_iff.mp hsplit
    exact absurd hlen (by decide)
  · rw [readFrame, hread]
  · exact absurd hfailed hsteady

/-! ### A connection -/

/-- `read_frame` called again and again. -/
def readFrames : ℕ → Inbound → List (Except FrameError Frame)
  | 0, _ => []
  | k + 1, fd => (readFrame fd).1 :: readFrames k (readFrame fd).2

/-- `write_frame` called on one frame after the other. -/
def writeFrames : List Frame → Outbound Byte → List (Except FrameError Unit) × Outbound Byte
  | [], out => ([], out)
  | f :: rest, out =>
      let written := writeFrame out f.type f.payload
      let later := writeFrames rest written.2
      (written.1 :: later.1, later.2)

theorem writeFrames_steady {frames : List Frame} (hfits : ∀ f ∈ frames, f.Fits)
    (out : Outbound Byte) (h : .failed ∉ out.plan) :
    (writeFrames frames out).1 = frames.map (fun _ => .ok ()) ∧
      (writeFrames frames out).2.sent = out.sent ++ frames.flatMap frameBytes := by
  induction frames generalizing out with
  | nil => exact ⟨rfl, (List.append_nil _).symm⟩
  | cons f frames ih =>
      obtain ⟨hf, hrest⟩ := List.forall_mem_cons.mp hfits
      obtain ⟨plan, hwrite, hplan⟩ := writeFrame_steady hf out h
      obtain ⟨hresults, hsent⟩ := ih hrest ⟨out.sent ++ frameBytes f, plan⟩ hplan
      rw [writeFrames, hwrite]
      refine ⟨congrArg (Except.ok () :: ·) hresults, ?_⟩
      rw [List.flatMap_cons, ← List.append_assoc]
      exact hsent

theorem readFrames_end {fd : Inbound} (hsteady : Steady fd) (hcontent : content fd = []) (k : ℕ) :
    readFrames k fd = List.replicate k (.error .shortRead) := by
  induction k generalizing fd with
  | zero => rfl
  | succ k ih =>
      have hrest : content ([] : Inbound) = [] := rfl
      rw [readFrames, readFrame_end hsteady hcontent, ih List.not_mem_nil hrest]
      rfl

theorem readFrames_steady {frames : List Frame} (hfits : ∀ f ∈ frames, f.Fits) {fd : Inbound}
    (hsteady : Steady fd) (hcontent : content fd = frames.flatMap frameBytes) (k : ℕ) :
    readFrames (frames.length + k) fd =
      frames.map .ok ++ List.replicate k (.error .shortRead) := by
  induction frames generalizing fd with
  | nil =>
      rw [List.length_nil, Nat.zero_add]
      exact readFrames_end hsteady hcontent k
  | cons f frames ih =>
      obtain ⟨hf, hrest⟩ := List.forall_mem_cons.mp hfits
      obtain ⟨rest, hread, htail, hsteady'⟩ := readFrame_steady hf hsteady hcontent
      rw [List.length_cons, Nat.add_right_comm, readFrames, hread, ih hrest hsteady' htail]
      rfl

/-- The codec restores message boundaries over every segmentation: what was written frame
by frame is read frame by frame, and a call that returns took from the stream exactly a
written frame, exactly a header it refused, or all there was. -/
theorem frames_cross_any_segmentation :
    (∀ (frames : List Frame) (plan : List Acceptance),
      (∀ f ∈ frames, f.payload.length ≤ maxFrameLen.toNat) → .failed ∉ plan →
        let written := writeFrames frames ⟨[], plan⟩
        written.1 = frames.map (fun _ => .ok ()) ∧
          ∀ (fd : Inbound) (k : ℕ), .failed ∉ fd → content fd = written.2.sent →
            readFrames (frames.length + k) fd =
              frames.map .ok ++ List.replicate k (.error .shortRead)) ∧
      ∀ fd : Inbound,
        match readFrame fd with
        | (.ok f, rest) => ∃ consumed, content fd = consumed ++ content rest ∧
            ∀ plan, .failed ∉ plan → ∃ plan',
              writeFrame ⟨[], plan⟩ f.type f.payload = (.ok (), ⟨consumed, plan'⟩)
        | (.error .badMagic, rest) => ∃ hdr, hdr.length = 9 ∧ content fd = hdr ++ content rest
        | (.error .oversize, rest) => ∃ hdr, hdr.length = 9 ∧ content fd = hdr ++ content rest
        | (.error .shortRead, _) => (content fd).length < 9 ∨
            (content fd).take 4 = frameMagic ∧ declaredLength (content fd) ≤ maxFrameLen.toNat ∧
              (content fd).length < 9 + declaredLength (content fd)
        | (.error .ioError, _) => .failed ∈ fd := by
  constructor
  · intro frames plan hfits hplan
    obtain ⟨hresults, hsent⟩ := writeFrames_steady hfits ⟨[], plan⟩ hplan
    refine ⟨hresults, ?_⟩
    intro fd k hsteady hcontent
    rw [hsent, List.nil_append] at hcontent
    exact readFrames_steady hfits hsteady hcontent k
  · intro fd
    have hreads := readFrame_reads fd
    split <;> rename_i hread <;> rw [hread] at hreads
    · obtain ⟨hfits, hcontent⟩ := hreads
      refine ⟨_, hcontent, ?_⟩
      intro plan hplan
      obtain ⟨plan', hwrite, -⟩ := writeFrame_steady hfits ⟨[], plan⟩ hplan
      exact ⟨plan', hwrite⟩
    · obtain ⟨hdr, hlen, -, hcontent⟩ := hreads
      exact ⟨hdr, hlen, hcontent⟩
    · obtain ⟨hdr, hlen, -, hcontent⟩ := hreads
      exact ⟨hdr, hlen, hcontent⟩
    · exact hreads.2
    · exact hreads

end TxChain
