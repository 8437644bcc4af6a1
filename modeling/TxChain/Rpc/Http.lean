import TxChain.Library.Numeral
import TxChain.Library.Search
import TxChain.Library.Stream
import TxChain.Rpc.Rpc

/-!
# HTTP between the bundled client and server

The client sends one request and keeps the connection open until the server has closed it.
The server reads up to the first blank line, takes the length of the body from the first
`content-length:` in front of it and reads that much more. Texts hold one character a
byte. The client writes its length last, so the server finds it only if method, path and
host do not contain that field name themselves.
-/

namespace TxChain

open Stream Search

abbrev Socket := List (Arrival Char)

abbrev Handler := Text → Text → Text → RpcResponse

def crlf : Text := ['\r', '\n']

/-- The end of a header. -/
def blankLine : Text := ['\r', '\n', '\r', '\n']

/-! ### The server -/

def kMaxRequestBytes : ℕ := 1 <<< 20

/-- What one `read` asks for. -/
def kReadSize : ℕ := 4096

theorem kReadSize_pos : 0 < kReadSize := by decide

/-- The reading of a header: the peer sends no more, it is refused, or it has been read. -/
inductive HeaderRead where
  | blocks
  | refused
  | found (req : Text) (headerEnd : ℕ) (fd : Socket)

/-- Read until the text holds a blank line. -/
def readHeaders (req : Text) (fd : Socket) : HeaderRead :=
  match _hrecv : recv kReadSize fd with
  | (.exhausted, _) => .blocks
  | (.interrupted, _) => .refused
  | (.failed, _) => .refused
  | (.data symbols, rest) =>
      let req := req ++ symbols
      if kMaxRequestBytes < req.length then .refused
      else
        match find blankLine req with
        | some headerEnd => .found req headerEnd rest
        | none => readHeaders req rest
termination_by size fd
decreasing_by
  have hsize := size_recv kReadSize_pos fd
  rw [_hrecv] at hsize
  exact hsize nofun

def isLinearSpace (c : Char) : Bool := c = ' ' || c = '\t'

def lengthField : Text := "content-length:".toList

/-- The declared length, of the first field of that name in any case, modulo the word. -/
def contentLength (header : Text) : UInt64 :=
  let lower := header.map Char.toLower
  match find lengthField lower with
  | none => 0
  | some cl =>
      (((lower.drop (cl + lengthField.length)).dropWhile isLinearSpace).takeWhile
        Char.isDigit).foldl (fun n c => n * 10 + UInt64.ofNat (c.toNat - '0'.toNat)) 0

inductive RequestRead where
  | blocks
  | refused
  | complete (req : Text)
  deriving DecidableEq

/-- Read the `need` symbols of the body that are missing; a short body is handed on. -/
def readRest (req : Text) (need : ℕ) (fd : Socket) : RequestRead :=
  if need = 0 then .complete req
  else
    match _hrecv : recv kReadSize fd with
    | (.exhausted, _) => .blocks
    | (.interrupted, _) => .complete req
    | (.failed, _) => .complete req
    | (.data symbols, rest) =>
        let req := req ++ symbols
        if kMaxRequestBytes < req.length then .refused
        else readRest req (need - min need symbols.length) rest
termination_by size fd
decreasing_by
  have hsize := size_recv kReadSize_pos fd
  rw [_hrecv] at hsize
  exact hsize nofun

def readRequest (fd : Socket) : RequestRead :=
  match readHeaders [] fd with
  | .blocks => .blocks
  | .refused => .refused
  | .found req headerEnd rest =>
      let bodyHave := req.length - (headerEnd + 4)
      readRest req ((contentLength (req.take headerEnd)).toNat - bodyHave) rest

def reasonPhrase (status : Int32) : Text :=
  if status = 200 then "OK".toList
  else if status = 400 then "Bad Request".toList
  else if status = 404 then "Not Found".toList
  else if status = 409 then "Conflict".toList
  else if status = 503 then "Service Unavailable".toList
  else "Error".toList

/-- `std::to_string` of an `int`. -/
def intToString (i : ℤ) : Text := if i < 0 then '-' :: decimal i.natAbs else decimal i.toNat

def responseText (resp : RpcResponse) : Text :=
  "HTTP/1.1 ".toList ++ intToString resp.status.toInt ++ " ".toList ++ reasonPhrase resp.status ++
  "\r\nContent-Type: application/json\r\nContent-Length: ".toList ++ decimal resp.body.length ++
  "\r\nConnection: close\r\n\r\n".toList ++ resp.body

/-- The text behind the first blank line, if there is one. -/
def bodyOf (text : Text) : Text :=
  match find blankLine text with
  | none => []
  | some headerEnd => text.drop (headerEnd + 4)

/-- The calls of the handler and its answer, or the answer to a malformed request line. -/
def answer (handler : Handler) (req : Text) : List (Text × Text × Text) × RpcResponse :=
  let line := req.take ((find crlf req).getD req.length)
  let malformed : RpcResponse := ⟨400, jsonError "BAD_REQUEST" "malformed request line"⟩
  match find [' '] line with
  | none => ([], malformed)
  | some sp1 =>
      match find [' '] (line.drop (sp1 + 1)) with
      | none => ([], malformed)
      | some width =>
          let method := line.take sp1
          let target := (line.drop (sp1 + 1)).take width
          ([(method, target, bodyOf req)], handler method target (bodyOf req))

/-- How a connection ends: the server waits for more, or it closes after these calls and
this output. -/
inductive Served where
  | blocks
  | closed (calls : List (Text × Text × Text)) (out : Text)

def serveConnection (handler : Handler) (fd : Socket) : Served :=
  match readRequest fd with
  | .blocks => .blocks
  | .refused => .closed [] []
  | .complete req => .closed (answer handler req).1 (responseText (answer handler req).2)

/-! ### The client -/

def requestText (method host path body : Text) : Text :=
  method ++ " ".toList ++ path ++ " HTTP/1.1\r\nHost: ".toList ++ host ++
  "\r\nConnection: close\r\nContent-Type: application/json\r\nContent-Length: ".toList ++
  decimal body.length ++ "\r\n\r\n".toList ++ body

structure HttpResult where
  ok : Bool := false
  status : Int32 := 0
  body : Text := []
  deriving DecidableEq

/-- Read until the server closes. -/
def readAll (resp : Text) (fd : Socket) : Text :=
  match _hrecv : recv kReadSize fd with
  | (.data symbols, rest) => readAll (resp ++ symbols) rest
  | (.exhausted, _) => resp
  | (.interrupted, _) => resp
  | (.failed, _) => resp
termination_by size fd
decreasing_by
  have hsize := size_recv kReadSize_pos fd
  rw [_hrecv] at hsize
  exact hsize nofun

def parseResponse (resp : Text) : HttpResult :=
  match find [' '] resp with
  | none => {}
  | some sp1 =>
      let status := ((resp.drop (sp1 + 1)).takeWhile Char.isDigit).foldl
        (fun status c => status * 10 + Int32.ofNat (c.toNat - '0'.toNat)) 0
      ⟨true, status, bodyOf resp⟩

/-! ### The loops -/

section Loops

variable {req whole : Text} {fd : Socket} {headerEnd need : ℕ}

theorem readHeaders_call :
    readHeaders req fd =
      match recv kReadSize fd with
      | (.exhausted, _) => .blocks
      | (.interrupted, _) => .refused
      | (.failed, _) => .refused
      | (.data symbols, rest) =>
          if kMaxRequestBytes < (req ++ symbols).length then .refused
          else
            match find blankLine (req ++ symbols) with
            | some headerEnd => .found (req ++ symbols) headerEnd rest
            | none => readHeaders (req ++ symbols) rest := by
  rw [readHeaders]
  split <;> rename_i hrecv <;> rw [hrecv]

theorem readRest_call (hneed : need ≠ 0) :
    readRest req need fd =
      match recv kReadSize fd with
      | (.exhausted, _) => .blocks
      | (.interrupted, _) => .complete req
      | (.failed, _) => .complete req
      | (.data symbols, rest) =>
          if kMaxRequestBytes < (req ++ symbols).length then .refused
          else readRest (req ++ symbols) (need - min need symbols.length) rest := by
  rw [readRest, if_neg hneed]
  split <;> rename_i hrecv <;> rw [hrecv]

/-- The blank line of the whole text is found as soon as it has been read. -/
theorem find_blankLine_of_part {symbols rest : Text}
    (hfind : find blankLine (symbols ++ rest) = some headerEnd) :
    (find blankLine symbols = some headerEnd ∧ headerEnd + 4 ≤ symbols.length) ∨
      (find blankLine symbols = none ∧ symbols.length < headerEnd + 4) := by
  cases hpart : find blankLine symbols with
  | some i =>
      rw [find_append hpart rest] at hfind
      obtain rfl := Option.some.inj hfind
      exact .inl ⟨rfl, add_length_le hpart⟩
  | none =>
      right
      refine ⟨rfl, ?_⟩
      by_contra hfits
      have hfound := find_of_append hfind (Nat.le_of_not_lt hfits)
      rw [hpart] at hfound
      cases hfound

/-- Whatever the pieces, the header loop ends with the blank line of the whole text. -/
theorem readHeaders_found (hfd : Pieces fd) (hwhole : req ++ content fd = whole)
    (hsize : whole.length ≤ kMaxRequestBytes) (hfind : find blankLine whole = some headerEnd)
    (hshort : req.length < headerEnd + 4) :
    ∃ got rest, readHeaders req fd = .found got headerEnd rest ∧ got ++ content rest = whole ∧
      Pieces rest ∧ headerEnd + 4 ≤ got.length := by
  induction hn : size fd using Nat.strong_induction_on generalizing req fd with
  | _ n ih =>
      rw [readHeaders_call]
      rcases recv_pieces kReadSize_pos hfd with ⟨symbols, rest, hrecv, hd, hrest⟩ | ⟨-, hnone⟩
      · rw [hrecv]
        rw [hd.content, ← List.append_assoc] at hwhole
        have hfits : ¬kMaxRequestBytes < (req ++ symbols).length := by
          rw [← hwhole, List.length_append] at hsize
          omega
        dsimp only
        rw [if_neg hfits]
        rw [← hwhole] at hfind
        rcases find_blankLine_of_part hfind with ⟨hpart, hend⟩ | ⟨hpart, hend⟩
        · rw [hpart]
          exact ⟨_, rest, rfl, hwhole, hrest, hend⟩
        · rw [hpart]
          exact ih (size rest) (hn ▸ hd.size) hrest hwhole hend rfl
      · rw [hnone, List.append_nil] at hwhole
        subst hwhole
        exact absurd hshort (Nat.not_lt.mpr (add_length_le hfind))

/-- With the right length the body loop ends with the whole text. -/
theorem readRest_complete (hfd : Pieces fd) (hsize : (req ++ content fd).length ≤ kMaxRequestBytes)
    (hneed : need = (content fd).length) :
    readRest req need fd = .complete (req ++ content fd) := by
  induction hn : size fd using Nat.strong_induction_on generalizing req need fd with
  | _ n ih =>
      by_cases hzero : need = 0
      · have hnil : content fd = [] := List.eq_nil_of_length_eq_zero (hneed.symm.trans hzero)
        rw [readRest, if_pos hzero, hnil, List.append_nil]
      · rw [readRest_call hzero]
        rcases recv_pieces kReadSize_pos hfd with ⟨symbols, rest, hrecv, hd, hrest⟩ | ⟨-, hnone⟩
        · rw [hrecv]
          rw [hd.content, ← List.append_assoc] at hsize
          rw [hd.content, List.length_append] at hneed
          have hfits : ¬kMaxRequestBytes < (req ++ symbols).length := by
            rw [List.length_append] at hsize
            omega
          dsimp only
          rw [if_neg hfits, hd.content, ← List.append_assoc]
          exact ih (size rest) (hn ▸ hd.size) hrest hsize (by omega) rfl
        · rw [hnone] at hneed
          exact absurd hneed hzero

/-- With too large a length the body loop waits for what the client never sends. -/
theorem readRest_blocks (hfd : Pieces fd) (hsize : (req ++ content fd).length ≤ kMaxRequestBytes)
    (hneed : (content fd).length < need) : readRest req need fd = .blocks := by
  induction hn : size fd using Nat.strong_induction_on generalizing req need fd with
  | _ n ih =>
      rw [readRest_call (Nat.ne_zero_of_lt hneed)]
      rcases recv_pieces kReadSize_pos hfd with ⟨symbols, rest, hrecv, hd, hrest⟩ | ⟨hrecv, -⟩
      · rw [hrecv]
        rw [hd.content, ← List.append_assoc] at hsize
        rw [hd.content, List.length_append] at hneed
        have hfits : ¬kMaxRequestBytes < (req ++ symbols).length := by
          rw [List.length_append] at hsize
          omega
        dsimp only
        rw [if_neg hfits]
        exact ih (size rest) (hn ▸ hd.size) hrest hsize (by omega) rfl
      · rw [hrecv]

/-- Symbol by symbol, the header loop stops right behind the blank line. -/
theorem readHeaders_singles {symbols : Text} (hwhole : req ++ symbols = whole)
    (hsize : whole.length ≤ kMaxRequestBytes) (hfind : find blankLine whole = some headerEnd)
    (hshort : req.length < headerEnd + 4) :
    readHeaders req (singles symbols) =
      .found (whole.take (headerEnd + 4)) headerEnd (singles (whole.drop (headerEnd + 4))) := by
  induction symbols generalizing req with
  | nil =>
      rw [List.append_nil] at hwhole
      subst hwhole
      exact absurd hshort (Nat.not_lt.mpr (add_length_le hfind))
  | cons c symbols ih =>
      have hsplit : (req ++ [c]) ++ symbols = whole := by
        rw [← hwhole, List.append_assoc]
        rfl
      have hfits : ¬kMaxRequestBytes < (req ++ [c]).length := by
        rw [← hsplit, List.length_append] at hsize
        omega
      rw [readHeaders_call, recv_singles_cons kReadSize_pos]
      dsimp only
      rw [if_neg hfits]
      rw [← hsplit] at hfind
      rcases find_blankLine_of_part hfind with ⟨hpart, hend⟩ | ⟨hpart, hend⟩
      · have hlength : (req ++ [c]).length = headerEnd + 4 := by
          rw [List.length_append, List.length_singleton] at hend ⊢
          omega
        rw [hpart, ← hsplit, List.take_left' hlength, List.drop_left' hlength]
      · rw [hpart]
        exact ih hsplit hend

/-- Symbol by symbol, the body loop takes exactly what it needs. -/
theorem readRest_singles {symbols : Text} (hsize : (req ++ symbols).length ≤ kMaxRequestBytes)
    (hneed : need ≤ symbols.length) :
    readRest req need (singles symbols) = .complete (req ++ symbols.take need) := by
  induction symbols generalizing req need with
  | nil =>
      obtain rfl : need = 0 := Nat.le_zero.mp hneed
      rw [readRest, if_pos rfl, List.take_zero, List.append_nil]
  | cons c symbols ih =>
      cases need with
      | zero =>
          rw [readRest, if_pos rfl, List.take_zero, List.append_nil]
      | succ need =>
          have hsplit : (req ++ [c]) ++ symbols = req ++ c :: symbols := by
            rw [List.append_assoc]
            rfl
          rw [← hsplit] at hsize
          have hfits : ¬kMaxRequestBytes < (req ++ [c]).length := by
            rw [List.length_append] at hsize
            omega
          have hless : need + 1 - min (need + 1) [c].length = need := by
            rw [List.length_singleton]
            omega
          rw [readRest_call (Nat.succ_ne_zero need), recv_singles_cons kReadSize_pos]
          dsimp only
          rw [if_neg hfits, hless, ih hsize (Nat.le_of_succ_le_succ hneed), List.take_succ_cons,
            List.append_assoc]
          rfl

/-- The client reads everything, whatever the pieces. -/
theorem readAll_eq (hfd : Pieces fd) : readAll req fd = req ++ content fd := by
  induction hn : size fd using Nat.strong_induction_on generalizing req fd with
  | _ n ih =>
      have hcall : readAll req fd =
          match recv kReadSize fd with
          | (.data symbols, rest) => readAll (req ++ symbols) rest
          | (.exhausted, _) => req
          | (.interrupted, _) => req
          | (.failed, _) => req := by
        rw [readAll]
        split <;> rename_i hrecv <;> rw [hrecv]
      rcases recv_pieces kReadSize_pos hfd with ⟨symbols, rest, hrecv, hd, hrest⟩ | ⟨hrecv, hnone⟩
      · rw [hcall, hrecv, hd.content, ← List.append_assoc]
        exact ih (size rest) (hn ▸ hd.size) hrest rfl
      · rw [hcall, hrecv, hnone, List.append_nil]

end Loops

/-! ### Headers -/

/-- Header lines, one behind the other. -/
def headerText (line : Text) : List Text → Text
  | [] => line
  | next :: rest => line ++ (crlf ++ headerText next rest)

theorem headerText_cons (c : Char) (line : Text) (lines : List Text) :
    headerText (c :: line) lines = c :: headerText line lines := by
  cases lines <;> rfl

theorem find_line {line : Text} (hline : '\r' ∉ line) (rest : Text) :
    find crlf (line ++ (crlf ++ rest)) = some line.length := by
  rw [crlf, find_skip hline, find_start (List.prefix_append _ _), Option.map_some, Nat.zero_add]

/-- No blank line starts in front of another line. -/
theorem find_blankLine_skip {c : Char} (hc : c ≠ '\r') (rest : Text) :
    find blankLine (crlf ++ c :: rest) = (find blankLine (c :: rest)).map (· + 2) := by
  have hfirst : ¬blankLine <+: '\r' :: '\n' :: c :: rest := by
    intro h
    simp only [blankLine, List.cons_prefix_cons, true_and] at h
    exact hc h.1.symm
  have hsecond : ¬blankLine <+: '\n' :: c :: rest := by
    intro h
    exact absurd (List.cons_prefix_cons.mp h).1 (by decide)
  rw [crlf, List.cons_append, List.cons_append, List.nil_append, find_cons _ hfirst,
    find_cons _ hsecond, Option.map_map]
  rfl

/-- The first blank line is the one behind the last header line. -/
theorem find_headerText {line : Text} {lines : List Text} (hline : '\r' ∉ line)
    (hlines : ∀ l ∈ lines, l ≠ [] ∧ '\r' ∉ l) (body : Text) :
    find blankLine (headerText line lines ++ (blankLine ++ body)) =
      some (headerText line lines).length := by
  induction lines generalizing line with
  | nil =>
      rw [headerText, blankLine, find_skip hline, find_start (List.prefix_append _ _),
        Option.map_some, Nat.zero_add]
  | cons next rest ih =>
      obtain ⟨⟨hne, hnext⟩, hrest⟩ := List.forall_mem_cons.mp hlines
      have hfound := ih hnext hrest
      obtain ⟨c, next, rfl⟩ := List.exists_cons_of_ne_nil hne
      have hc : c ≠ '\r' := fun hc => hnext (by rw [hc]; exact List.mem_cons_self)
      rw [headerText_cons, List.cons_append] at hfound
      rw [headerText, List.append_assoc, List.append_assoc, blankLine, find_skip hline, ← blankLine,
        headerText_cons, List.cons_append, find_blankLine_skip hc, hfound]
      simp only [Option.map_some, List.length_append, List.length_cons, crlf, List.length_nil]
      congr 1
      omega

theorem bodyOf_headerText {line : Text} {lines : List Text} (hline : '\r' ∉ line)
    (hlines : ∀ l ∈ lines, l ≠ [] ∧ '\r' ∉ l) (body : Text) :
    bodyOf (headerText line lines ++ (blankLine ++ body)) = body := by
  rw [bodyOf, find_headerText hline hlines, ← List.append_assoc]
  exact List.drop_left' (by rw [List.length_append]; rfl)

/-! ### What the two sides write -/

theorem not_mem_decimal {c : Char} (hc : c.isDigit = false) (n : ℕ) : c ∉ decimal n := by
  intro h
  rw [Numeral.isDigit_toDigits h] at hc
  cases hc

theorem not_mem_intToString (i : ℤ) : '\r' ∉ intToString i := by
  rw [intToString]
  split_ifs
  · exact fun h => not_mem_decimal rfl _ ((List.mem_cons.mp h).resolve_left (by decide))
  · exact not_mem_decimal rfl _

section Request

variable {method host path : Text} {n : ℕ}

/-- The part of a request that the caller chooses. -/
def requestFront (method host path : Text) : Text :=
  method ++ ' ' :: (path ++ (" HTTP/1.1\r\nHost: ".toList ++ host))

def requestLine (method path : Text) : Text := method ++ ' ' :: (path ++ " HTTP/1.1".toList)

def requestFields (host : Text) (n : ℕ) : List Text :=
  ["Host: ".toList ++ host, "Connection: close".toList, "Content-Type: application/json".toList,
    "Content-Length: ".toList ++ decimal n]

theorem requestText_eq (method host path body : Text) :
    requestText method host path body =
      headerText (requestLine method path) (requestFields host body.length) ++
        (blankLine ++ body) := by
  unfold requestText
  simp [headerText, requestLine, requestFields, crlf, blankLine]

/-- The fields behind the caller's part, up to the number. -/
def fixedFields : Text :=
  "Connection: close\r\nContent-Type: application/json\r\nContent-Length: ".toList

theorem headerText_request (method host path : Text) (n : ℕ) :
    headerText (requestLine method path) (requestFields host n) =
      requestFront method host path ++ '\r' :: ('\n' :: (fixedFields ++ decimal n)) := by
  unfold fixedFields requestFront
  simp [headerText, requestLine, requestFields, crlf]

theorem requestLine_plain (hmethod : '\r' ∉ method) (hpath : '\r' ∉ path) :
    '\r' ∉ requestLine method path := by
  simp [requestLine, hmethod, hpath]

theorem requestFields_plain (hhost : '\r' ∉ host) (n : ℕ) :
    ∀ l ∈ requestFields host n, l ≠ [] ∧ '\r' ∉ l := by
  have hlength := not_mem_decimal (c := '\r') rfl n
  simp [requestFields, hhost, hlength]

/-! ### The declared length -/

/-- What the text behind a field name declares: the leading number behind blanks. -/
def declaredNumber (after : Text) : ℕ :=
  Numeral.value ((after.dropWhile isLinearSpace).takeWhile Char.isDigit)

/-- A line end closes the number. -/
theorem declaredNumber_stop (after rest : Text) :
    declaredNumber (after ++ '\r' :: rest) = declaredNumber after := by
  rw [declaredNumber, Numeral.takeWhile_dropWhile_stop (by decide) (by decide), declaredNumber]

theorem declaredNumber_decimal (n : ℕ) : declaredNumber (' ' :: decimal n) = n := by
  have hdigits : (decimal n).dropWhile isLinearSpace = decimal n := by
    cases hn : decimal n with
    | nil => rfl
    | cons c rest =>
        have hc := Numeral.isDigit_toDigits (n := n) (c := c) (by
          show c ∈ decimal n
          rw [hn]
          exact List.mem_cons_self)
        apply List.dropWhile_cons_of_neg
        simp only [isLinearSpace, Bool.or_eq_true, decide_eq_true_eq]
        rintro (rfl | rfl) <;> cases hc
  rw [declaredNumber, List.dropWhile_cons_of_pos (by decide), hdigits, decimal,
    Numeral.takeWhile_toDigits, Numeral.value_toDigits]

theorem contentLength_some {header : Text} {cl : ℕ}
    (h : find lengthField (header.map Char.toLower) = some cl) :
    contentLength header =
      UInt64.ofNat (declaredNumber ((header.map Char.toLower).drop (cl + lengthField.length))) := by
  have hstep : ∀ (v : ℕ) (c : Char), UInt64.ofNat v * 10 + UInt64.ofNat (c.toNat - '0'.toNat) =
      UInt64.ofNat (10 * v + (c.toNat - '0'.toNat)) := by
    intro v c
    rw [UInt64.ofNat_add, UInt64.ofNat_mul, UInt64.mul_comm]
    rfl
  simp only [contentLength, h]
  exact Numeral.foldl_value UInt64.ofNat _ hstep _

/-- The number that the server reads as the length is the one intended: the first
`content-length:` within the caller's part, if there is one, declares it. -/
def LengthReadable (front : Text) (n : ℕ) : Prop :=
  ∀ before after, FirstAt lengthField (front.map Char.toLower) before after →
    declaredNumber after % 2 ^ 64 = n

theorem find_fixedFields :
    find lengthField ('\n' :: fixedFields.map Char.toLower) = some 52 ∧
      ('\n' :: fixedFields.map Char.toLower).drop (52 + lengthField.length) = [' '] := by
  decide +kernel

theorem map_toLower_decimal (n : ℕ) : (decimal n).map Char.toLower = decimal n := by
  have hsame : ∀ c ∈ decimal n, c.toLower = id c := by
    intro c hc
    have hdigit := Numeral.isDigit_toDigits hc
    simp only [Char.isDigit, Bool.and_eq_true, decide_eq_true_eq] at hdigit
    have hlow : ¬(c.val ≥ 'A'.val ∧ c.val ≤ 'Z'.val) := by
      intro hupper
      exact absurd (UInt32.le_trans hupper.1 hdigit.2) (by decide)
    rw [Char.toLower, dif_neg hlow, id]
  rw [List.map_congr_left hsame, List.map_id]

theorem contentLength_request (hn : n < 2 ^ 64) :
    (contentLength (headerText (requestLine method path) (requestFields host n))).toNat = n ↔
      LengthReadable (requestFront method host path) n := by
  have hlower : (headerText (requestLine method path) (requestFields host n)).map Char.toLower =
      (requestFront method host path).map Char.toLower ++
        '\r' :: (('\n' :: fixedFields.map Char.toLower) ++ decimal n) := by
    rw [headerText_request, List.map_append, List.map_cons, List.map_cons, List.map_append,
      map_toLower_decimal]
    rfl
  cases hfront : find lengthField ((requestFront method host path).map Char.toLower) with
  | none =>
      -- the field that the client wrote is the first one
      have hpart := find_append find_fixedFields.1 (decimal n)
      have hfield : find lengthField ((headerText (requestLine method path)
          (requestFields host n)).map Char.toLower) =
            some (52 + (((requestFront method host path).map Char.toLower).length + 1)) := by
        rw [hlower, find_barrier (by decide +kernel) hfront, hpart, Option.map_some]
      have hafter : ((requestFront method host path).map Char.toLower ++
          '\r' :: (('\n' :: fixedFields.map Char.toLower) ++ decimal n)).drop
            (52 + (((requestFront method host path).map Char.toLower).length + 1) +
              lengthField.length) = ' ' :: decimal n := by
        have hindex : 52 + (((requestFront method host path).map Char.toLower).length + 1) +
            lengthField.length = ((requestFront method host path).map Char.toLower).length +
              ((52 + lengthField.length) + 1) := by omega
        rw [hindex, List.drop_length_add_append, List.drop_succ_cons,
          List.drop_append_of_le_length (by decide +kernel), find_fixedFields.2]
        rfl
      have hdeclared : declaredNumber (' ' :: decimal n) = n := declaredNumber_decimal n
      rw [contentLength_some hfield, hlower, hafter, hdeclared, UInt64.toNat_ofNat_of_lt' hn]
      have hnone := find_eq_none_iff.mp hfront
      exact ⟨fun _ before after hfirst => absurd hfirst (hnone before after), fun _ => rfl⟩
  | some cl =>
      obtain ⟨before, after, hfirst, rfl⟩ := firstAt_of_find hfront
      have hfield := find_append hfront
        ('\r' :: (('\n' :: fixedFields.map Char.toLower) ++ decimal n))
      rw [← hlower] at hfield
      have hafter : ((headerText (requestLine method path) (requestFields host n)).map
          Char.toLower).drop (before.length + lengthField.length) =
            after ++ '\r' :: (('\n' :: fixedFields.map Char.toLower) ++ decimal n) := by
        rw [hlower, hfirst.split, ← List.append_assoc, List.append_assoc (before ++ lengthField)]
        exact List.drop_left' (List.length_append ..)
      rw [contentLength_some hfield, hafter, declaredNumber_stop, UInt64.toNat_ofNat']
      constructor
      · intro hread before' after' hfirst'
        rw [hfirst'.after_unique hfirst]
        exact hread
      · intro hreadable
        exact hreadable before after hfirst

/-! ### One request -/

variable {body : Text} {fd : Socket} {handler : Handler}

/-- What the server reads on a request whose header it has recognised. -/
structure Readable (header body : Text) : Prop where
  headerEnd : find blankLine (header ++ (blankLine ++ body)) = some header.length
  size : (header ++ (blankLine ++ body)).length ≤ kMaxRequestBytes

theorem Readable.found {header : Text} (h : Readable header body) (hfd : Pieces fd)
    (hcontent : content fd = header ++ (blankLine ++ body)) :
    ∃ got rest, readRequest fd = readRest got
        ((contentLength header).toNat - (got.length - (header.length + 4))) rest ∧
      got ++ content rest = header ++ (blankLine ++ body) ∧ Pieces rest ∧
        header.length + 4 ≤ got.length := by
  have hshort : ([] : Text).length < header.length + 4 := by simp
  have hstart : ([] : Text) ++ content fd = header ++ (blankLine ++ body) := hcontent
  obtain ⟨got, rest, hread, hwhole, hrest, hend⟩ := readHeaders_found hfd hstart h.size
    h.headerEnd hshort
  have hheader : got.take header.length = header := by
    have htake := congrArg (List.take header.length) hwhole
    rw [List.take_append_of_le_length (by omega), List.take_left' rfl] at htake
    exact htake
  refine ⟨got, rest, ?_, hwhole, hrest, hend⟩
  rw [readRequest, hread]
  simp only [hheader]

theorem Readable.complete {header : Text} (h : Readable header body) (hfd : Pieces fd)
    (hcontent : content fd = header ++ (blankLine ++ body))
    (hlength : (contentLength header).toNat = body.length) :
    readRequest fd = .complete (header ++ (blankLine ++ body)) := by
  obtain ⟨got, rest, hread, hwhole, hrest, hend⟩ := h.found hfd hcontent
  have hsizes := congrArg List.length hwhole
  have hblank : blankLine.length = 4 := rfl
  simp only [List.length_append, hblank] at hsizes
  have hsize := h.size
  rw [← hwhole] at hsize ⊢
  rw [hread]
  exact readRest_complete hrest hsize (by omega)

theorem Readable.blocks {header : Text} (h : Readable header body) (hfd : Pieces fd)
    (hcontent : content fd = header ++ (blankLine ++ body))
    (hlength : body.length < (contentLength header).toNat) : readRequest fd = .blocks := by
  obtain ⟨got, rest, hread, hwhole, hrest, hend⟩ := h.found hfd hcontent
  have hsizes := congrArg List.length hwhole
  have hblank : blankLine.length = 4 := rfl
  simp only [List.length_append, hblank] at hsizes
  have hsize := h.size
  rw [← hwhole] at hsize
  rw [hread]
  exact readRest_blocks hrest hsize (by omega)

/-- Symbol by symbol the server takes no more of the body than it has been told. -/
theorem Readable.short {header : Text} (h : Readable header body)
    (hlength : (contentLength header).toNat ≤ body.length) :
    readRequest (singles (header ++ (blankLine ++ body))) =
      .complete (header ++ (blankLine ++ body.take (contentLength header).toNat)) := by
  have hfront : (header ++ blankLine).length = header.length + 4 := List.length_append ..
  have hread := readHeaders_singles (List.nil_append _) h.size h.headerEnd (by simp)
  rw [← List.append_assoc, List.take_left' hfront, List.drop_left' hfront] at hread
  have hheader : (header ++ blankLine).take header.length = header := List.take_left' rfl
  have hsize := h.size
  rw [← List.append_assoc] at hsize
  rw [readRequest, ← List.append_assoc, hread]
  simp only [hheader, hfront, Nat.sub_self, Nat.sub_zero]
  rw [readRest_singles hsize hlength, List.append_assoc]

/-- The server splits a request at the places where the client joined it. -/
theorem answer_request (handler : Handler) (hmethod : ' ' ∉ method ∧ '\r' ∉ method)
    (hpath : ' ' ∉ path ∧ '\r' ∉ path) (hhost : '\r' ∉ host) (n : ℕ) (body : Text) :
    answer handler (headerText (requestLine method path) (requestFields host n) ++
        (blankLine ++ body)) = ([(method, path, body)], handler method path body) := by
  have hline := requestLine_plain hmethod.2 hpath.2
  have hbody := bodyOf_headerText hline (requestFields_plain hhost n) body
  have hend : find crlf (headerText (requestLine method path) (requestFields host n) ++
      (blankLine ++ body)) = some (requestLine method path).length := by
    rw [requestFields, headerText, List.append_assoc, List.append_assoc]
    exact find_line hline _
  have htake : (headerText (requestLine method path) (requestFields host n) ++
      (blankLine ++ body)).take (requestLine method path).length = requestLine method path := by
    rw [requestFields, headerText, List.append_assoc]
    exact List.take_left' rfl
  have hsp1 : find [' '] (requestLine method path) = some method.length := find_symbol hmethod.1 _
  have hdrop : (requestLine method path).drop (method.length + 1) = path ++ " HTTP/1.1".toList := by
    rw [requestLine, List.drop_length_add_append]
    rfl
  have hsp2 : find [' '] (path ++ " HTTP/1.1".toList) = some path.length := by
    have hversion : " HTTP/1.1".toList = ' ' :: "HTTP/1.1".toList := by simp
    rw [hversion]
    exact find_symbol hpath.1 _
  have hmethod' : (requestLine method path).take method.length = method := List.take_left' rfl
  have hpath' : (path ++ " HTTP/1.1".toList).take path.length = path := List.take_left' rfl
  simp only [answer, hend, Option.getD_some, htake, hsp1, hdrop, hsp2, hmethod', hpath', hbody]

end Request

/-! ### One response -/

theorem responseText_eq (resp : RpcResponse) :
    responseText resp =
      headerText ("HTTP/1.1 ".toList ++ (intToString resp.status.toInt ++ ' ' ::
          reasonPhrase resp.status))
        ["Content-Type: application/json".toList,
          "Content-Length: ".toList ++ decimal resp.body.length, "Connection: close".toList] ++
        (blankLine ++ resp.body) := by
  unfold responseText
  simp [headerText, crlf, blankLine]

theorem not_mem_reasonPhrase (status : Int32) : '\r' ∉ reasonPhrase status := by
  unfold reasonPhrase
  split_ifs <;> simp

/-- The client reads back what the server answered. -/
theorem parseResponse_responseText (resp : RpcResponse) (hstatus : 0 ≤ resp.status) :
    parseResponse (responseText resp) = ⟨true, resp.status, resp.body⟩ := by
  have hsign : ¬resp.status.toInt < 0 := by
    have hle := Int32.le_iff_toInt_le.mp hstatus
    rw [Int32.toInt_zero] at hle
    omega
  have hline : '\r' ∉ "HTTP/1.1 ".toList ++ (intToString resp.status.toInt ++ ' ' ::
      reasonPhrase resp.status) := by
    have hnumber := not_mem_intToString resp.status.toInt
    have hphrase := not_mem_reasonPhrase resp.status
    simp [hnumber, hphrase]
  have hfields : ∀ l ∈ ["Content-Type: application/json".toList,
      "Content-Length: ".toList ++ decimal resp.body.length, "Connection: close".toList],
      l ≠ [] ∧ '\r' ∉ l := by
    have hlength := not_mem_decimal (c := '\r') rfl resp.body.length
    simp [hlength]
  have hbody := bodyOf_headerText hline hfields resp.body
  rw [← responseText_eq] at hbody
  have hstart : ∃ rest, responseText resp = "HTTP/1.1".toList ++ ' ' ::
      (decimal resp.status.toInt.toNat ++ ' ' :: rest) := by
    have hversion : "HTTP/1.1 ".toList = "HTTP/1.1".toList ++ [' '] := by simp
    rw [responseText_eq, headerText, hversion, intToString, if_neg hsign]
    simp only [List.append_assoc, List.cons_append, List.nil_append]
    exact ⟨_, rfl⟩
  obtain ⟨rest, hrest⟩ := hstart
  have hsp1 : find [' '] (responseText resp) = some 8 := by
    rw [hrest]
    exact find_symbol (by simp) _
  have hdigits : ((responseText resp).drop (8 + 1)).takeWhile Char.isDigit =
      decimal resp.status.toInt.toNat := by
    have hlength : "HTTP/1.1".toList.length = 8 := by simp
    rw [hrest, ← hlength, List.drop_length_add_append, List.drop_succ_cons, List.drop_zero,
      Numeral.takeWhile_stop (by decide), decimal, Numeral.takeWhile_toDigits]
  have hstep : ∀ (v : ℕ) (c : Char), Int32.ofNat v * 10 + Int32.ofNat (c.toNat - '0'.toNat) =
      Int32.ofNat (10 * v + (c.toNat - '0'.toNat)) := by
    intro v c
    rw [Int32.ofNat_add, Int32.ofNat_mul, Int32.mul_comm]
    rfl
  have hvalue := Numeral.foldl_value Int32.ofNat
    (fun status c => status * 10 + Int32.ofNat (c.toNat - '0'.toNat)) hstep
    (Nat.toDigits 10 resp.status.toInt.toNat)
  have hnumber : Int32.ofNat resp.status.toInt.toNat = resp.status := by
    rw [← Int32.ofInt_eq_ofNat, Int.toNat_of_nonneg (Int.not_lt.mp hsign), Int32.ofInt_toInt]
  rw [Numeral.value_toDigits, hnumber] at hvalue
  simp only [parseResponse, hsp1, hdigits, hbody]
  exact congrArg (HttpResult.mk true · resp.body) hvalue

/-! ### Client and server -/

/-- However the two streams are cut into pieces, the handler is called once with what was
asked, and the client gets what it answered. -/
def Understands (handler : Handler) (method host path body : Text) : Prop :=
  ∀ sent : List Text, (∀ piece ∈ sent, piece ≠ []) →
    sent.flatten = requestText method host path body →
      ∃ out, serveConnection handler (arrivals sent) = .closed [(method, path, body)] out ∧
        ∀ received : List Text, (∀ piece ∈ received, piece ≠ []) → received.flatten = out →
          parseResponse (readAll [] (arrivals received)) =
            ⟨true, (handler method path body).status, (handler method path body).body⟩

section Exchange

variable {handler : Handler} {method host path body : Text}

/-- The exchange hangs on the length that the server reads in the header. -/
theorem understands_iff_contentLength
    (hmethod : ∀ c ∈ method, c ≠ ' ' ∧ c ≠ '\r' ∧ c ≠ '\n')
    (hpath : ∀ c ∈ path, c ≠ ' ' ∧ c ≠ '\r' ∧ c ≠ '\n')
    (hhost : ∀ c ∈ host, c ≠ '\r' ∧ c ≠ '\n')
    (hsize : (requestText method host path body).length ≤ 1048576)
    (hstatus : 0 ≤ (handler method path body).status) :
    Understands handler method host path body ↔
      (contentLength (headerText (requestLine method path)
        (requestFields host body.length))).toNat = body.length := by
  have hmethod' : ' ' ∉ method ∧ '\r' ∉ method :=
    ⟨fun h => (hmethod _ h).1 rfl, fun h => (hmethod _ h).2.1 rfl⟩
  have hpath' : ' ' ∉ path ∧ '\r' ∉ path :=
    ⟨fun h => (hpath _ h).1 rfl, fun h => (hpath _ h).2.1 rfl⟩
  have hhost' : '\r' ∉ host := fun h => (hhost _ h).1 rfl
  have hreadable : Readable (headerText (requestLine method path)
      (requestFields host body.length)) body := by
    refine ⟨find_headerText (requestLine_plain hmethod'.2 hpath'.2)
      (requestFields_plain hhost' _) body, ?_⟩
    rw [← requestText_eq]
    exact hsize
  have hanswer := answer_request handler hmethod' hpath' hhost' body.length
  constructor
  · intro hunderstands
    rcases Nat.lt_trichotomy (contentLength (headerText (requestLine method path)
      (requestFields host body.length))).toNat body.length with hless | heq | hmore
    · -- symbol by symbol the handler gets a body that is too short
      exfalso
      have hsent : ((requestText method host path body).map fun c => [c]).flatten =
          requestText method host path body := by
        rw [← List.flatMap_def, List.flatMap_singleton']
      obtain ⟨out, hserved, -⟩ := hunderstands _ (by simp) hsent
      have hread := hreadable.short (Nat.le_of_lt hless)
      rw [← requestText_eq] at hread
      have hcalls : serveConnection handler (singles (requestText method host path body)) =
          .closed [(method, path, body)] out := hserved
      rw [serveConnection, hread] at hcalls
      simp only [hanswer, Served.closed.injEq, List.cons.injEq, Prod.mk.injEq, true_and] at hcalls
      have htaken := congrArg List.length hcalls.1.1
      rw [List.length_take] at htaken
      omega
    · exact heq
    · -- the server waits for what never comes
      exfalso
      have hwhole : [requestText method host path body].flatten =
          requestText method host path body := List.flatten_singleton
      have hpiece : ∀ piece ∈ [requestText method host path body], piece ≠ [] := by
        rw [requestText_eq]
        simp [blankLine]
      obtain ⟨out, hserved, -⟩ := hunderstands _ hpiece hwhole
      have hread := hreadable.blocks (pieces_arrivals [requestText method host path body])
        (by rw [content_arrivals, hwhole, requestText_eq]) hmore
      rw [serveConnection, hread] at hserved
      cases hserved
  · intro hlength sent hsent hflatten
    have hread := hreadable.complete (pieces_arrivals sent)
      (by rw [content_arrivals, hflatten, requestText_eq]) hlength
    refine ⟨_, by rw [serveConnection, hread]; simp only [hanswer]; rfl, ?_⟩
    intro received hreceived hout
    rw [readAll_eq (pieces_arrivals received), content_arrivals, hout, List.nil_append]
    exact parseResponse_responseText _ hstatus

/-- Client and server understand each other exactly if the first field named
`content-length:` within method, path and host, should there be one, declares the length
of the body. -/
theorem http_understands_iff
    (hmethod : ∀ c ∈ method, c ≠ ' ' ∧ c ≠ '\r' ∧ c ≠ '\n')
    (hpath : ∀ c ∈ path, c ≠ ' ' ∧ c ≠ '\r' ∧ c ≠ '\n')
    (hhost : ∀ c ∈ host, c ≠ '\r' ∧ c ≠ '\n')
    (hsize : (requestText method host path body).length ≤ 1048576)
    (hstatus : 0 ≤ (handler method path body).status) :
    Understands handler method host path body ↔
      LengthReadable (requestFront method host path) body.length := by
  have hbody : body.length < 2 ^ 64 := by
    rw [requestText_eq, List.length_append, List.length_append] at hsize
    omega
  rw [← contentLength_request hbody]
  exact understands_iff_contentLength hmethod hpath hhost hsize hstatus

end Exchange

/-! ### A path that names the field -/

/-- Answers every request with 200 and its own path. -/
def echoPath : Handler := fun _ path _ => ⟨200, path⟩

def plainPath : Text := ['/', 't', 'x']

/-- The path of a request whose path reads like a length. -/
def lengthPath : Text := '/' :: (lengthField ++ ['9'])

def localHost : Text := ['h']

theorem plain_path_understood : Understands echoPath ['P'] localHost plainPath ['a', 'b'] := by
  have hfield : find lengthField ((requestFront ['P'] localHost plainPath).map Char.toLower) =
      none := by decide +kernel
  refine (http_understands_iff (by simp) (by simp [plainPath]) (by simp [localHost]) ?_
    (by decide)).mpr ?_
  · rw [requestText_eq]
    decide +kernel
  · intro before after hfirst
    exact absurd hfirst (find_eq_none_iff.mp hfield before after)

/-- The server waits for nine bytes of a body that is empty. -/
theorem length_path_not_understood : ¬Understands echoPath ['G'] localHost lengthPath [] := by
  have hplain : ∀ c ∈ lengthPath, c ≠ ' ' ∧ c ≠ '\r' ∧ c ≠ '\n' := by
    unfold lengthPath lengthField
    simp
  have hsize : (requestText ['G'] localHost lengthPath []).length ≤ 1048576 := by
    rw [requestText_eq]
    decide +kernel
  rw [understands_iff_contentLength (by simp) hplain (by simp [localHost]) hsize (by decide)]
  decide +kernel

end TxChain
