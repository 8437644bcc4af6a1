import TxChain.Library.Decimal
import TxChain.Library.Parsing
import TxChain.Serialize.Json

/-!
# The vendored JSON parser

A recursive descent over the bytes of a text. White space is skipped in front of every
token. The depth bound counts the arrays around a value and not the objects. A number in
the range of `int64_t` stays an integer, any other becomes a double, and one too large for
a double throws. The nesting of calls and each loop are bounded by the length of the text.
-/

namespace TxChain.Json

open Parsing

/-! ### Input -/

def isWs (c : Char) : Bool := c = ' ' || c = '\t' || c = '\n' || c = '\r'

/-- Where the end of the input is as good as a wrong character. -/
def getc : Parser Char Char
  | [] => .error .refused
  | c :: s => .ok (c, s)

def skipWs (s : Text) : Text := s.dropWhile isWs

/-- A character other than the expected one stays in the input. -/
def expect (expected : Char) : Parser Char Bool := fun s =>
  match skipWs s with
  | [] => .ok (false, [])
  | c :: s => if c = expected then .ok (true, s) else .ok (false, c :: s)

def matchText : Text → Parser Char Unit
  | [] => pure ()
  | c :: pattern => do if (← getc) = c then matchText pattern else refuse

/-! ### Strings -/

def parseHex (hex : Char) : Option ℕ :=
  if '0' ≤ hex ∧ hex ≤ '9' then some (hex.toNat - '0'.toNat)
  else if 'A' ≤ hex ∧ hex ≤ 'F' then some (hex.toNat - ('A'.toNat - 0xa))
  else if 'a' ≤ hex ∧ hex ≤ 'f' then some (hex.toNat - ('a'.toNat - 0xa))
  else none

def parseHexes : ℕ → ℕ → Parser Char ℕ
  | 0, uniCh => pure uniCh
  | i + 1, uniCh => do
      match parseHex (← getc) with
      | some hex => parseHexes i (uniCh * 16 + hex)
      | none => refuse

def parseQuadhex : Parser Char ℕ := parseHexes 4 0

/-- The bytes of a code point in UTF-8. -/
def utf8 (uniCh : ℕ) : Text :=
  if uniCh < 0x80 then [Char.ofNat uniCh]
  else if uniCh < 0x800 then
    [Char.ofNat (0xc0 ||| (uniCh >>> 6)), Char.ofNat (0x80 ||| (uniCh &&& 0x3f))]
  else if uniCh < 0x10000 then
    [Char.ofNat (0xe0 ||| (uniCh >>> 12)), Char.ofNat (0x80 ||| ((uniCh >>> 6) &&& 0x3f)),
      Char.ofNat (0x80 ||| (uniCh &&& 0x3f))]
  else
    [Char.ofNat (0xf0 ||| (uniCh >>> 18)), Char.ofNat (0x80 ||| ((uniCh >>> 12) &&& 0x3f)),
      Char.ofNat (0x80 ||| ((uniCh >>> 6) &&& 0x3f)), Char.ofNat (0x80 ||| (uniCh &&& 0x3f))]

/-- The second half of a surrogate pair. -/
def parseSurrogate (first : ℕ) : Parser Char Text := do
  matchText "\\u".toList
  let second ← parseQuadhex
  if 0xdc00 ≤ second ∧ second ≤ 0xdfff then
    return utf8 ((((first - 0xd800) <<< 10) ||| ((second - 0xdc00) &&& 0x3ff)) + 0x10000)
  else refuse

def parseCodepoint : Parser Char Text := do
  let uniCh ← parseQuadhex
  if 0xd800 ≤ uniCh ∧ uniCh ≤ 0xdfff then
    if 0xdc00 ≤ uniCh then refuse else parseSurrogate uniCh
  else return utf8 uniCh

/-- What a character behind a backslash stands for. -/
def escaped : Char → Parser Char Text
  | '"' => pure ['"']
  | '\\' => pure ['\\']
  | '/' => pure ['/']
  | 'b' => pure [Char.ofNat 8]
  | 'f' => pure [Char.ofNat 12]
  | 'n' => pure ['\n']
  | 'r' => pure ['\r']
  | 't' => pure ['\t']
  | 'u' => parseCodepoint
  | _ => refuse

/-- The rest of a string, up to its closing quote. -/
def parseString : ℕ → Parser Char Text
  | 0 => fun _ => .error .spent
  | n + 1 => do
      let ch ← getc
      if ch < ' ' then refuse
      else if ch = '"' then return []
      else if ch = '\\' then do
        let piece ← escaped (← getc)
        return piece ++ (← parseString n)
      else return ch :: (← parseString n)

/-! ### Numbers -/

def isNumberChar (c : Char) : Bool :=
  c.isDigit || c = '+' || c = '-' || c = 'e' || c = 'E' || c = '.'

/-- The value of the longest run of number characters. -/
def numberValue (numStr : Text) : Except Fault Value :=
  match Scan.strtoimax numStr with
  | (some ival, []) => if numStr = [] then .error .refused else .ok (.int64 ival)
  | _ =>
      match Scan.strtod numStr with
      | (some f, []) => .ok (.double f)
      | (none, []) => .error .threw
      | _ => .error .refused

def parseNumber : Parser Char Value := fun s => do
  let v ← numberValue (s.takeWhile isNumberChar)
  return (v, s.dropWhile isNumberChar)

/-! ### Values -/

/-- `o[key] = v` on a map; the order of its entries is never read. -/
def setField : Fields → String → Value → Fields
  | [], key, v => [(key, v)]
  | f :: o, key, v => if f.1 = key then (key, v) :: o else f :: setField o key v

/-- Behind an opening bracket: the closing one, or what `loop` reads in front of it. -/
def bracketed {α : Type} (close : Char) (empty : α) (loop : Parser Char α) : Parser Char α := do
  if ← expect close then return empty
  else
    let x ← loop
    if ← expect close then return x else refuse

section Nesting

-- how a value inside the current one is parsed, and a bound on loops
variable (item : Parser Char Value) (n : ℕ)

def parseArray : Parser Char (List Value) :=
  bracketed ']' [] (doWhile (fun xs => do return xs ++ [← item]) (expect ',') n [])

def parseMember (o : Fields) : Parser Char Fields := do
  if ← expect '"' then
    let key ← parseString n
    if ← expect ':' then return setField o (String.ofList key) (← item) else refuse
  else refuse

def parseObject : Parser Char Fields :=
  bracketed '\x7d' [] (doWhile (parseMember item n) (expect ',') n [])

end Nesting

/-- What is read behind the first character of a value that is not a number. `item` parses a
value inside it, with the number of arrays that may still be opened there. -/
def parseBehind (item : ℕ → Parser Char Value) (n depths : ℕ) : Char → Parser Char Value
  | 'n' => do matchText "ull".toList; return .null
  | 'f' => do matchText "alse".toList; return .bool false
  | 't' => do matchText "rue".toList; return .bool true
  | '"' => do return .string (← parseString n)
  | '[' => if depths = 0 then refuse else do return .array (← parseArray (item (depths - 1)) n)
  | '\x7b' => if depths = 0 then refuse else do return .object (← parseObject (item depths) n)
  | _ => refuse

/-- The choice by the first character. -/
def parseToken (item : ℕ → Parser Char Value) (n depths : ℕ) : Parser Char Value
  | [] => .error .refused
  | c :: s =>
      if c.isDigit ∨ c = '-' then parseNumber (c :: s) else parseBehind item n depths c s

/-- `_parse`. -/
def parseValue : ℕ → ℕ → Parser Char Value
  | 0, _, _ => .error .spent
  | n + 1, depths, s => parseToken (parseValue n) n depths (skipWs s)

/-- `DEFAULT_MAX_DEPTHS`. -/
def defaultMaxDepths : ℕ := 100

/-- `picojson::parse`. What is behind the value is left unread. -/
def parse (s : Text) : Except Fault (Value × Text) := parseValue (s.length + 1) defaultMaxDepths s

/-- The parser that the program is linked with. -/
abbrev picojson : Picojson where
  outcome s :=
    match parse s with
    | .ok read => .ok read.1
    | .error .threw => .error .threw
    | .error _ => .error .refused

theorem parse_picojson (s : Text) :
    letI := picojson
    Picojson.parse s = ((parse s).toOption).map Prod.fst := by
  change (match parse s with
    | .ok read => .ok read.1
    | .error .threw => .error .threw
    | .error _ => .error .refused : Except ParseFault Value).toOption = _
  cases parse s with
  | ok read => rfl
  | error e => cases e <;> rfl

end TxChain.Json
