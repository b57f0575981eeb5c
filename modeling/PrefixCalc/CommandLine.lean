import PrefixCalc.Session.Run

/-! What the program does once its arguments are read: it runs a session over the input that they
name, and tells in its exit code and in a chain of messages how that went. -/
namespace PrefixCalc

/-- What was found under the name of an input. -/
inductive Source where
  | bytes (content : List UInt8)
  | unreadable (cause : String)
  | absent (cause : String)
  deriving DecidableEq, Repr

structure Report where
  exit : Nat
  output : List UInt8
  /-- The messages of a failure, outermost first. -/
  failure : List String
  deriving DecidableEq, Repr

namespace Report

def ofOutcome (outcome : Outcome) : Report :=
  match outcome.failure with
  | none => ⟨0, outcome.output, []⟩
  | some interruption => ⟨1, outcome.output, interruption.chain⟩

def couldNotOpen (path cause : String) : Report := ⟨1, [], [s!"could not open '{path}'", cause]⟩

/-- The report on the input with this path, or on the standard input without one, where this was
found. -/
def ofSource {β : Type} (kit : Assembly.Kit β) (path : Option String) :
    Source → Logged Report
  | .absent cause => return couldNotOpen (path.getD "") cause
  | .unreadable cause => return ofOutcome ⟨[], some (.unreadable cause)⟩
  | .bytes content => ofOutcome <$> Session.run kit Sink.unlimited content

end Report
end PrefixCalc
