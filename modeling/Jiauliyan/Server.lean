import Jiauliyan.Execution
import Jiauliyan.Framing

namespace Jiauliyan.Server

open Jiauliyan.Execution Jiauliyan.Framing

/-- What `json.loads` returns; `number` keeps the text only. -/
inductive Value
  | null
  | bool (b : Bool)
  | number (text : String)
  | string (s : String)
  | array (items : List Value)
  | object (members : List (String × Value))

inductive PyErr (ε : Type)
  | indexError
  | typeError
  | keyError (key : String)
  | valueError
  | unicodeEncodeError
  | external (e : ε)

/-- The libraries: JSON, HTTP, the encoding of the standard output and which of
their exceptions `str` can show. -/
structure Externals (ε : Type) where
  loads : Bytes → Except ε Value
  dumps : Value → Except ε Bytes
  request (url method body headers : Value) : Except ε (Value × Bytes)
  encodes : String → Bool
  printable : ε → Bool

inductive Out (ε : Type)
  | text (s : String)
  | data (s : String) (b : Bytes)
  | error (e : PyErr ε)

/-- `written` are the writes to the pty, one entry each. -/
structure Console (ε : Type) where
  written : List Bytes
  stdout : List (Out ε)

/-- A Python computation: it may raise, and what it has put out stays. -/
def Py (ε α : Type) := Console ε → Except (PyErr ε) α × Console ε

variable {ε α β : Type}

instance : Monad (Py ε) where
  pure a c := (.ok a, c)
  bind x f c :=
    match x c with
    | (.ok a, c') => f a c'
    | (.error e, c') => (.error e, c')

def raise (e : PyErr ε) : Py ε α := fun c => (.error e, c)

def external : Except ε α → Py ε α
  | .ok a => pure a
  | .error e => raise (.external e)

def print (out : Out ε) : Py ε Unit := fun c => (.ok (), { c with stdout := c.stdout ++ [out] })

def printText (E : Externals ε) (s : String) : Py ε Unit :=
  if E.encodes s then print (.text s) else raise .unicodeEncodeError

def write (b : Bytes) : Py ε Unit := fun c => (.ok (), { c with written := c.written ++ [b] })

def lookup (v : Value) (key : String) : Option Value :=
  match v with
  | .object members => members.lookup key
  | _ => none

def getItem (v : Value) (key : String) : Py ε Value :=
  match v with
  | .object _ =>
    match lookup v key with
    | some x => pure x
    | none => raise (.keyError key)
  | _ => raise .typeError

def asText : Value → Py ε String
  | .string s => pure s
  | _ => raise .typeError

def isText (v : Value) (s : String) : Bool :=
  match v with
  | .string s' => s' == s
  | _ => false

def chr (n : ℕ) : Py ε UInt8 := if n < 256 then pure (UInt8.ofNat n) else raise .valueError

def markLen (msg : Bytes) : Py ε Bytes := do
  let high ← chr (msg.length / 256)
  let low ← chr (msg.length % 256)
  pure (high :: low :: msg)

def sendMessage (id : ℕ) (msg : Bytes) : Py ε Unit := do
  let high ← chr (id / 256)
  let low ← chr (id % 256)
  write (← markLen (high :: low :: msg))

def onReceive (E : Externals ε) (id : ℕ) (act : Value) : Py ε Unit := do
  let action ← getItem act "action"
  if isText action "httpreq" then
    let method ← asText (← getItem act "method")
    let url ← asText (← getItem act "url")
    printText E ("HTTP " ++ method ++ " " ++ url ++ ": ")
    let (resp, content) ← external (E.request (.string url)
      ((lookup act "method").getD (.string "GET")) ((lookup act "body").getD .null)
      ((lookup act "headers").getD .null))
    print (.data "" content)
    let header ← external (E.dumps (.object [("action", .string "httpreq"),
      ("code", ← getItem resp "status")]))
    sendMessage id ((← markLen header) ++ (← markLen content))
    print (.text "Data sent.")
  else
    printText E ("Unrecognized action \"" ++ (← asText action) ++ "\"")

def printError (E : Externals ε) (e : PyErr ε) : Py ε Unit :=
  match e with
  | .external x => if E.printable x then print (.error e) else raise .unicodeEncodeError
  | _ => print (.error e)

def tryReceive (E : Externals ε) (id : ℕ) (jd : Value) : Py ε Unit := fun c =>
  match onReceive E id jd c with
  | (.ok _, c') => (.ok (), c')
  | (.error e, c') => (do sendMessage id [123, 125]; printError E e) c'

/-- The pty: `avail n` bytes can be read at once when `n` have been read. -/
structure Pty where
  rest : Bytes
  avail : ℕ → ℕ
  consumed : ℕ

/-- A raw read blocks while there is nothing, and otherwise returns a non-empty
prefix of what is pending. -/
def Pty.read (n : ℕ) (p : Pty) : Option (Bytes × Pty) :=
  if p.rest = [] then none
  else
    let k := min n (max 1 (p.avail p.consumed))
    some (p.rest.take k,
      { p with rest := p.rest.drop k, consumed := p.consumed + (p.rest.take k).length })

def readBody (l : ℕ) : Bytes × Pty → (Bytes × Pty) ⊕ Option (Bytes × Pty)
  | (data, p) =>
    if data.length < l + 2 then
      match p.read (l + 2 - data.length) with
      | none => .inr none
      | some (d, p') => .inl (data ++ d, p')
    else .inr (some (data, p))

/-- `recovered` records the ids and messages that the loop has read. -/
structure Host (ε : Type) where
  pty : Pty
  console : Console ε
  recovered : List (ℕ × Bytes)

inductive Result (ε : Type)
  | next (s : Host ε)
  | raised (e : PyErr ε) (s : Host ε)
  | blocked

def process (E : Externals ε) (id : ℕ) (payload : Bytes) : Py ε Unit := do
  let jd ← external (E.loads payload)
  tryReceive E id jd

/-- One iteration of the main loop. Each read yields a byte at least, so `l + 3`
rounds read the body. -/
def iteration (E : Externals ε) (s : Host ε) : Result ε :=
  match s.pty.read 2 with
  | none => .blocked
  | some (a :: b :: _, p) =>
    let l := word16 a b
    let out := s.console.stdout ++ [.text ("Receiving command of length " ++ toString l)]
    match loop (readBody l) (l + 3) ([], p) with
    | some (some (x :: y :: payload, p')) =>
      let id := word16 x y
      let t : Host ε :=
        { pty := p'
          console := { s.console with
            stdout :=
              out ++ [.data ("Command (length " ++ toString payload.length ++ "): ") payload] }
          recovered := s.recovered ++ [(id, payload)] }
      match process E id payload t.console with
      | (.ok _, c) => .next { t with console := c }
      | (.error e, c) => .raised e { t with console := c }
    | some (some (_, p')) => .raised .indexError { s with pty := p' }
    | _ => .blocked
  | some (_, p) => .raised .indexError { s with pty := p }

def serve (E : Externals ε) : ℕ → Host ε → Result ε
  | 0, s => .next s
  | n + 1, s =>
    match iteration E s with
    | .next t => serve E n t
    | r => r

end Jiauliyan.Server
