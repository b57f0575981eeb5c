import PrefixCalc.Expr.Printing
import PrefixCalc.Expr.Reading

/-! A session keeps one expression, and the reducer that every definition is read with. A command
line defines the expression, prints it or ends the session. A fault is told in the output and the
session goes on; a failure that does not come from a fault aborts the line. -/
namespace PrefixCalc

inductive Command where
  | blank
  | finish
  /-- The text after the equals sign, which begins with a blank. -/
  | define (text : String)
  | print (mode : PrintMode)
  | unknown
  deriving DecidableEq, Repr

namespace Command

def ofTrimmed (text : String) : Command :=
  if text = "" then blank
  else if text = "end" then finish
  else
    match text.toList with
    | '=' :: rest =>
      match rest with
      | c :: _ => if Text.isBlank c then define (String.ofList rest) else unknown
      | [] => unknown
    | _ =>
      match PrintMode.ofLetter text with
      | .ok mode => print mode
      | .error _ => unknown

def ofLine (line : String) : Command := ofTrimmed (Text.trim line)

end Command

inductive Control where
  | goOn
  | finish
  deriving DecidableEq, Repr

structure Session where
  current : Option Expr
  reducer : Reducer
  deriving DecidableEq, Repr

/-- What a line leads to: whether to go on or why the line was aborted, the text written up to then,
and the session after it. -/
structure Reply where
  control : Except Failure Control
  output : String
  session : Session

namespace Session

def empty : Session := ⟨none, Reducer.empty⟩

/-- Each line with a line feed after it. -/
def written (lines : List String) : String := String.join (lines.map (· ++ "\n"))

/-- The lines that end a print: its text or the fault that left it without one, if there is either.
Any other failure aborts it. -/
def lastLines (printout : Printout) : Except Failure (List String) :=
  match printout.text with
  | .ok (some text) => .ok [text]
  | .ok none => .ok []
  | .error failure =>
    match failure.fault? with
    | some fault => .ok [fault.message]
    | none => .error failure

/-- Tells of a print: first the faults that it reported. -/
def tell (s : Session) (printout : Printout) : Reply :=
  let reported := printout.reports.map Fault.message
  match lastLines printout with
  | .ok lines => ⟨.ok .goOn, written (reported ++ lines), s⟩
  | .error failure => ⟨.error failure, written reported, s⟩

/-- A malformed definition leaves the expression as it was. The reducer is emptied before and after,
whatever was left on it. -/
def define (s : Session) (text : String) : Logged Reply := do
  let fed ← s.reducer.clear.acceptAll (Text.words text).reverse
  let taken := fed.2.takeRoot
  match taken.1, fed.1 with
  | some e, true =>
    Logged.emit (.replaced e.prefixText)
    return ⟨.ok .goOn, "", ⟨some e, taken.2⟩⟩
  | _, _ =>
    Logged.emit (.kept (Text.trim text))
    return ⟨.ok .goOn, written [Fault.format.message], { s with reducer := taken.2 }⟩

variable {β : Type}

def print (kit : Assembly.Kit β) (s : Session) (mode : PrintMode) : Logged Reply :=
  s.tell <$> Expr.printCurrent kit s.current mode []

def perform (kit : Assembly.Kit β) (s : Session) : Command → Logged Reply
  | .blank => return ⟨.ok .goOn, "", s⟩
  | .finish => return ⟨.ok .finish, "", s⟩
  | .define text => s.define text
  | .print mode => s.print kit mode
  | .unknown => return ⟨.ok .goOn, written [Fault.format.message], s⟩

def execute (kit : Assembly.Kit β) (s : Session) (line : String) : Logged Reply :=
  s.perform kit (Command.ofLine line)

/-- Executes all lines, also those after the end of the session was asked for or a line was
aborted. -/
def executeAll (kit : Assembly.Kit β) (s : Session) : List String → Logged (List Reply)
  | [] => return []
  | line :: lines => do
    let reply ← s.execute kit line
    let rest ← reply.session.executeAll kit lines
    return reply :: rest

end Session
end PrefixCalc
