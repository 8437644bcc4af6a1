import TxChain.Library.Lines
import TxChain.V1.Cipher

/-!
# A backend server

Each of the three backends owns one block file and keeps its rows in memory, in the order of
the file. It matches and stores ciphertext and never decrypts. Requests and replies pass
through C strings, so they end at the first NUL.
-/

namespace TxChain.V1

open Scan Numeral

def QUERY : Text := ['Q', 'U', 'E', 'R', 'Y']
def ALL : Text := ['A', 'L', 'L']
def NEW : Text := ['N', 'E', 'W']
def OK : Text := ['O', 'K']
def ERR : Text := ['E', 'R', 'R']

/-- What a C string keeps of a text. -/
def cstr (s : Text) : Text := s.takeWhile (· ≠ '\x00')

structure Backend where
  txns : List Text
  file : Text
  deriving DecidableEq

/-- The rows of a block file, without blank lines. -/
def loadBlock (file : Text) : List Text := Lines.records '\n' file

def Backend.boot (file : Text) : Backend := ⟨loadBlock file, file⟩

/-- The four fields of a row. -/
structure Fields where
  serial : Int64
  s : Text
  r : Text
  amt : Text

def parseRow (line : Text) : Option Fields := do
  let (serial, rest) ← readLong line
  let (s, rest) ← readWord rest
  let (r, rest) ← readWord rest
  let (amt, _) ← readWord rest
  return ⟨serial, s, r, amt⟩

/-- The greater of two serials. -/
def laterSerial (m serial : Int64) : Int64 := if m < serial then serial else m

/-- One row of a reply's loop: the greatest serial so far and the rows selected so far. -/
def replyRow (select : Fields → Bool) (acc : Int64 × Text) (line : Text) : Int64 × Text :=
  match parseRow line with
  | none => acc
  | some f =>
      (laterSerial acc.1 f.serial,
        if select f then acc.2 ++ '\n' :: line else acc.2)

/-- The greatest serial of the block, then the selected rows. -/
def replyText (select : Fields → Bool) (txns : List Text) : Text :=
  let acc := txns.foldl (replyRow select) (0, [])
  print acc.1.toInt ++ acc.2

/-- Rows that name one of the two; `*` stands for no second name. -/
def selected (name1 name2 : Text) (f : Fields) : Bool :=
  (f.s = name1 || f.r = name1) || (name2 ≠ ['*'] && (f.s = name2 || f.r = name2))

def handleQuery (name1 name2 : Text) (txns : List Text) : Text :=
  replyText (selected name1 name2) txns

def handleAll (txns : List Text) : Text := replyText (fun _ => true) txns

def rowLine (f : Fields) : Text :=
  print f.serial.toInt ++ ' ' :: (f.s ++ ' ' :: (f.r ++ ' ' :: f.amt))

/-- Append an encrypted row to the memory and to the block file. -/
def handleNew (rest : Text) (b : Backend) : Backend × Text :=
  match parseRow rest with
  | none => (b, ERR)
  | some f => (⟨b.txns ++ [rowLine f], b.file ++ (rowLine f ++ ['\n'])⟩, OK)

/-- One datagram: dispatch on the first token. -/
def Backend.receive (buf : Text) (b : Backend) : Backend × Text :=
  match readWord (cstr buf) with
  | none => (b, ERR)
  | some (op, iss) =>
      if op = QUERY then
        let n1 := nextWord iss
        let n2 := nextWord n1.2
        (b, handleQuery n1.1 n2.1 b.txns)
      else if op = ALL then (b, handleAll b.txns)
      else if op = NEW then
        let rest := ((readLine iss).getD ([], [])).1
        handleNew (if rest.head? = some ' ' then rest.drop 1 else rest) b
      else (b, ERR)

end TxChain.V1
