import TxChain.V1.Backend

/-!
# The main server

A request of a client is answered by asking all three backends and computing on the rows they
return, which the main server decrypts. Requests to the backends are answered whole and in
order. A `long` wraps. The backend that records a transfer is drawn at random, so the draw
comes with the request.
-/

namespace TxChain.V1

open Scan Numeral

def INITIAL_BALANCE : Int64 := 1000

def CHECK_WALLET : Text := ['C', 'H', 'E', 'C', 'K', '_', 'W', 'A', 'L', 'L', 'E', 'T']
def TXCOINS : Text := ['T', 'X', 'C', 'O', 'I', 'N', 'S']
def TXLIST : Text := ['T', 'X', 'L', 'I', 'S', 'T']

def NOTFOUND : Text := ['N', 'O', 'T', 'F', 'O', 'U', 'N', 'D']
def FOUND : Text := ['F', 'O', 'U', 'N', 'D']
def MISSINGBOTH : Text := ['M', 'I', 'S', 'S', 'I', 'N', 'G', 'B', 'O', 'T', 'H']
def MISSINGSENDER : Text := ['M', 'I', 'S', 'S', 'I', 'N', 'G', 'S', 'E', 'N', 'D', 'E', 'R']
def MISSINGRECEIVER : Text :=
  ['M', 'I', 'S', 'S', 'I', 'N', 'G', 'R', 'E', 'C', 'E', 'I', 'V', 'E', 'R']
def INSUFFICIENT : Text := ['I', 'N', 'S', 'U', 'F', 'F', 'I', 'C', 'I', 'E', 'N', 'T']
def SUCCESS : Text := ['S', 'U', 'C', 'C', 'E', 'S', 'S']

/-- A single decrypted transaction. -/
structure Txn where
  serial : Int64
  sender : Text
  receiver : Text
  amount : Int64
  deriving DecidableEq

/-- The backend servers. -/
inductive Server where
  | A
  | B
  | C
  deriving DecidableEq

/-- The backends and the file the main server writes. -/
structure Network where
  backend : Server → Backend
  statement : Option Text

/-- Send one request to backend `i` and return its reply. -/
def udpRequest (i : Server) (req : Text) (net : Network) : Network × Text :=
  let answered := (net.backend i).receive req
  ({ net with backend := Function.update net.backend i answered.1 }, cstr answered.2)

/-- A row of a reply, decrypted. -/
def readTxn (line : Text) : Option Txn :=
  match parseRow line with
  | none => none
  | some f => some ⟨f.serial, decStr f.s, decStr f.r, strtol (decStr f.amt)⟩

/-- The transactions and the greatest serial read so far, after one more reply. -/
def parseQueryReply (reply : Text) (acc : List Txn × Int64) : List Txn × Int64 :=
  match readLine reply with
  | none => acc
  | some (line, rest) =>
      (acc.1 ++ (Lines.records '\n' rest).filterMap readTxn,
        laterSerial acc.2 (strtol line))

/-- Send `req` to every backend in turn and gather the replies. -/
def askAll (req : Text) (net : Network) : Network × List Txn × Int64 :=
  [Server.A, .B, .C].foldl (fun acc i =>
    let answered := udpRequest i req acc.1
    (answered.1, parseQueryReply answered.2 acc.2)) (net, [], 0)

def queryAll (enc1 enc2 : Text) (net : Network) : Network × List Txn × Int64 :=
  askAll (QUERY ++ ' ' :: (enc1 ++ ' ' :: enc2)) net

/-- One transaction of the loop that computes a balance. -/
def settle (user : Text) (balance : Int64) (t : Txn) : Int64 :=
  let balance := if t.receiver = user then balance + t.amount else balance
  if t.sender = user then balance - t.amount else balance

def doCheckWallet (user : Text) (net : Network) : Network × Text :=
  let answered := queryAll (encStr user) ['*'] net
  let txns := answered.2.1
  if txns = [] then (answered.1, NOTFOUND)
  else (answered.1, FOUND ++ ' ' :: print (txns.foldl (settle user) INITIAL_BALANCE).toInt)

/-- The party appears in one of the transactions. -/
def found (txns : List Txn) (party : Text) : Bool :=
  txns.any fun t => t.sender = party || t.receiver = party

/-- The row of a feasible transfer, encrypted. -/
def newEntry (serial : Int64) (encS encR : Text) (amount : Int64) : Text :=
  NEW ++ ' ' :: (print serial.toInt ++ ' ' ::
    (encS ++ ' ' :: (encR ++ ' ' :: encStr (print amount.toInt))))

def doTxcoins (pick : Server) (sender receiver : Text) (amount : Int64) (net : Network) :
    Network × Text :=
  let encS := encStr sender
  let encR := encStr receiver
  let answered := queryAll encS encR net
  let txns := answered.2.1
  let senderBalance := txns.foldl (settle sender) INITIAL_BALANCE
  if !found txns sender && !found txns receiver then (answered.1, MISSINGBOTH)
  else if !found txns sender then (answered.1, MISSINGSENDER)
  else if !found txns receiver then (answered.1, MISSINGRECEIVER)
  else if senderBalance < amount then
    (answered.1, INSUFFICIENT ++ ' ' :: print senderBalance.toInt)
  else
    let serial := answered.2.2 + 1
    let recorded := udpRequest pick (newEntry serial encS encR amount) answered.1
    (recorded.1, SUCCESS ++ ' ' :: print (senderBalance - amount).toInt)

/-- What a client asks for. -/
inductive Request where
  | checkWallet (user : Text)
  | txcoins (sender receiver : Text) (amount : Int64)
  | unknown

/-- The words of a request. -/
def parseRequest (buf : Text) : Request :=
  match readWord (cstr buf) with
  | none => .unknown
  | some (op, iss) =>
      if op = CHECK_WALLET then .checkWallet (nextWord iss).1
      else if op = TXCOINS then
        let sender := nextWord iss
        let receiver := nextWord sender.2
        let amt := nextWord receiver.2
        .txcoins sender.1 receiver.1 (strtol amt.1)
      else .unknown

/-- Run the operation a client asks for; an unknown one gets no reply. -/
def handleClient (pick : Server) (buf : Text) (net : Network) : Network × Option Text :=
  match parseRequest buf with
  | .checkWallet user =>
      let done := doCheckWallet user net
      (done.1, some done.2)
  | .txcoins sender receiver amount =>
      let done := doTxcoins pick sender receiver amount net
      (done.1, some done.2)
  | .unknown => (net, none)

/-- One row of the decrypted statement. -/
def statementRow (t : Txn) : Text :=
  print t.serial.toInt ++ ' ' :: (t.sender ++ ' ' :: (t.receiver ++ ' ' ::
    (print t.amount.toInt ++ ['\n'])))

/-- Write the decrypted rows of all backends in the order of their serials. Among equal serials
any order is one a sort may leave. -/
def doTxlist (net : Network) : Network × Text :=
  let answered := askAll ALL net
  let sorted := answered.2.1.mergeSort fun t t' => t.serial ≤ t'.serial
  ({ answered.1 with statement := some (sorted.flatMap statementRow) }, OK)

def handleMonitor (buf : Text) (net : Network) : Network × Option Text :=
  if TXLIST <+: cstr buf then
    let done := doTxlist net
    (done.1, some done.2)
  else (net, none)

/-- One connection to the main server. -/
inductive Input where
  | client (buf : Text) (pick : Server)
  | monitor (buf : Text)

def serve (net : Network) : Input → Network × Option Text
  | .client buf pick => handleClient pick buf net
  | .monitor buf => handleMonitor buf net

def step (net : Network) (i : Input) : Network := (serve net i).1

end TxChain.V1
