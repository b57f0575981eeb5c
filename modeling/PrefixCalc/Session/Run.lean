import PrefixCalc.Session.Basic
import PrefixCalc.Session.Sink
import PrefixCalc.Text.Lines

/-! A session over a whole input of bytes, writing to a sink that may take only so much. The run
stops at the line that ends the session, at a line that is not text or is aborted, and at the first
write that does not fit. -/
namespace PrefixCalc

structure Outcome where
  output : List UInt8
  failure : Option Interruption
  deriving DecidableEq, Repr

/-- What is seen of a delivery from outside. -/
def Delivery.outcome (delivery : Delivery Unit) : Outcome where
  output := delivery.taken
  failure :=
    match delivery.result with
    | .ok _ => none
    | .error cause => some cause

namespace Session

def bytesOf (text : String) : List UInt8 := text.toUTF8.data.toList

/-- The text of a line goes out before its line feed. -/
def writeLine (text : String) : Writing Unit := do
  Writing.writeAll (bytesOf text)
  Writing.writeAll (bytesOf "\n")

def writeLines : List String → Writing Unit
  | [] => return ()
  | text :: texts => do
    writeLine text
    writeLines texts

def defineOn (s : Session) (text : String) : Writing Session := do
  let fed ← s.reducer.clear.acceptAll (Text.words text).reverse
  let taken := fed.2.takeRoot
  match taken.1, fed.1 with
  | some e, true =>
    Logged.emit (.replaced e.prefixText)
    return ⟨some e, taken.2⟩
  | _, _ =>
    Logged.emit (.kept (Text.trim text))
    writeLine Fault.format.message
    return { s with reducer := taken.2 }

variable {β : Type}

/-- The faults of an evaluation are written before its text. -/
def printOn (kit : Assembly.Kit β) (s : Session) (mode : PrintMode) : Writing Unit := do
  let printout ← Expr.printCurrent kit s.current mode []
  writeLines (printout.reports.map Fault.message)
  match printout.text with
  | .ok (some text) => writeLine text
  | .ok none => return ()
  | .error failure =>
    match failure.fault? with
    | some fault => writeLine fault.message
    | none => Writing.interrupt (.aborted failure)

/-- Executes a line piece by piece; `execute` tells what comes of it when every piece is taken. -/
def executeOn (kit : Assembly.Kit β) (s : Session) (line : String) : Writing (Control × Session) :=
  match Command.ofLine line with
  | .blank => return (.goOn, s)
  | .finish => return (.finish, s)
  | .define text => do
    let s ← s.defineOn text
    return (.goOn, s)
  | .print mode => do
    s.printOn kit mode
    return (.goOn, s)
  | .unknown => do
    writeLine Fault.format.message
    return (.goOn, s)

/-- Executes lines of bytes up to the one that ends the session. The value is the session to go on
with, if none of them did. -/
def advance (kit : Assembly.Kit β) (s : Session) : List (List UInt8) → Writing (Option Session)
  | [] => return some s
  | line :: lines =>
    match Text.decode? line with
    | none => Writing.interrupt .notText
    | some text => do
      let (control, s) ← s.executeOn kit text
      match control with
      | .finish => return none
      | .goOn => s.advance kit lines

def follow (kit : Assembly.Kit β) (s : Session) (lines : List (List UInt8)) : Writing Unit := do
  let _ ← s.advance kit lines
  Writing.flush

def run (kit : Assembly.Kit β) (sink : Sink) (input : List UInt8) : Logged Outcome :=
  Delivery.outcome <$> (empty.follow kit (Text.lines input)).run sink

end Session
end PrefixCalc
