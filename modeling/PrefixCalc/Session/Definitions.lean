import PrefixCalc.Session.Basic
import PrefixCalc.Text.Lines

/-! Sessions told by the words of their lines: what a line does, which lines define an expression,
and where a run stops. -/
namespace PrefixCalc

/-- What is seen of a reply from outside. -/
def Reply.seen (reply : Reply) : Except Failure Control × String := (reply.control, reply.output)

namespace Session

def defined? (line : String) : Option Expr :=
  match Text.words line with
  | "=" :: tokens => Expr.parse? tokens
  | _ => none

/-- The expression of the last line that defines one. -/
def lastDefined (lines : List String) : Option Expr := (lines.filterMap defined?).getLast?

variable {β : Type}

/-- The session after lines that a new session was given. -/
def after (kit : Assembly.Kit β) (lines : List String) : Session :=
  lines.foldl (fun s line => (s.execute kit line).value.session) empty

theorem lastDefined_append (a b : List String) :
    lastDefined (a ++ b) = (lastDefined b).or (lastDefined a) := by
  simp [lastDefined, List.filterMap_append, List.getLast?_append]

/-- The words are an equals sign and the tokens of an expression. -/
def IsDefinition (line : String) : Prop :=
  ∃ tokens e, Text.words line = "=" :: tokens ∧ (Expr.ofTokens tokens).value = .ok e

/-- The words are an equals sign and at least one more, but those behind it are not the tokens of an
expression. -/
def IsMalformed (line : String) : Prop :=
  ∃ token tokens, Text.words line = "=" :: token :: tokens ∧
    ∀ e, (Expr.ofTokens (token :: tokens)).value ≠ .ok e

/-- The text after the first equals sign. -/
def definiens (line : String) : String :=
  String.ofList ((line.toList.dropWhile (· ≠ '=')).drop 1)

/-- The reply to a print. -/
def shown (kit : Assembly.Kit β) (s : Session) (mode : PrintMode) : Reply :=
  s.tell (Expr.printCurrent kit s.current mode []).value

/-- The reply to a line that consists of these words. -/
def replyTo (kit : Assembly.Kit β) (s : Session) : List String → Reply
  | [] => ⟨.ok .goOn, "", s⟩
  | ["end"] => ⟨.ok .finish, "", s⟩
  | ["="] => ⟨.ok .goOn, "Format Error\n", s⟩
  | "=" :: tokens =>
    match Expr.parse? tokens with
    | some e => ⟨.ok .goOn, "", ⟨some e, Reducer.empty⟩⟩
    | none => ⟨.ok .goOn, "Format Error\n", ⟨s.current, Reducer.empty⟩⟩
  | ["i"] => s.shown kit .integer
  | ["d"] => s.shown kit .double
  | ["p"] => s.shown kit .full
  | ["P"] => s.shown kit .minimal
  | _ => ⟨.ok .goOn, "Format Error\n", s⟩

/-- A run goes no further than a line that is not text, or whose only word is `end`. -/
def stops (line : List UInt8) : Bool :=
  match Text.decode? line with
  | none => true
  | some text => Text.words text = ["end"]

/-- What a run executes of these lines: the texts in front of the line it stops at. -/
def commands (lines : List (List UInt8)) : List String :=
  (lines.takeWhile fun line => !stops line).filterMap Text.decode?

end Session
end PrefixCalc
