import PrefixCalc.CommandLine

/-! The outer layer of the program: the arguments, the streams and the screen. -/
namespace PrefixCalc

structure Options where
  input : Option String
  verbose : Nat
  quiet : Nat
  deriving DecidableEq, Repr

inductive Request where
  | run (options : Options)
  | help
  | version
  | misuse
  deriving DecidableEq, Repr

namespace Request

inductive Flag where
  | verbose | quiet | help | version
  deriving DecidableEq, Repr

def Flag.ofLetter? : Char → Option Flag
  | 'v' => some .verbose
  | 'q' => some .quiet
  | 'h' => some .help
  | 'V' => some .version
  | _ => none

def Flag.ofName? : String → Option Flag
  | "verbose" => some .verbose
  | "quiet" => some .quiet
  | "help" => some .help
  | "version" => some .version
  | _ => none

/-- What one argument is: flags, the end of all flags, or a file name. A lone dash is a file
name. -/
inductive Argument where
  | flags (flags : List (Option Flag))
  | endOfFlags
  | file (name : String)
  deriving DecidableEq, Repr

def Argument.ofText (text : String) : Argument :=
  match text.toList with
  | ['-', '-'] => endOfFlags
  | '-' :: '-' :: name => flags [Flag.ofName? (String.ofList name)]
  | '-' :: c :: letters => flags ((c :: letters).map Flag.ofLetter?)
  | _ => file text

/-- Help, version and mistakes end the reading at once, whatever comes after them. -/
def readFlags (o : Options) : List (Option Flag) → Except Request Options
  | [] => .ok o
  | none :: _ => .error misuse
  | some .help :: _ => .error help
  | some .version :: _ => .error version
  | some .verbose :: rest => readFlags { o with verbose := o.verbose + 1 } rest
  | some .quiet :: rest => readFlags { o with quiet := o.quiet + 1 } rest

def readFile (o : Options) (name : String) : Except Request Options :=
  match o.input with
  | none => .ok { o with input := some name }
  | some _ => .error misuse

def readFiles (o : Options) : List String → Except Request Options
  | [] => .ok o
  | name :: names => do readFiles (← readFile o name) names

def readAll (o : Options) : List String → Except Request Options
  | [] => .ok o
  | text :: texts =>
    match Argument.ofText text with
    | .flags flags => do readAll (← readFlags o flags) texts
    | .endOfFlags => readFiles o texts
    | .file name => do readAll (← readFile o name) texts

/-- The two kinds of flags for the log exclude each other. -/
def ofArguments (arguments : List String) : Request :=
  match readAll ⟨none, 0, 0⟩ arguments with
  | .error request => request
  | .ok o => if 0 < o.verbose ∧ 0 < o.quiet then misuse else run o

end Request

/-- Errors are shown unless asked otherwise, and each step on shows one level more. No event of the
calculator is an error or a warning. -/
def Options.shows (o : Options) : Level → Bool
  | .info => 2 ≤ o.verbose
  | .debug => 3 ≤ o.verbose
  | .trace => 4 ≤ o.verbose

/-- Answers a request when the input it names leads to this source. -/
def Request.serve (source : Option String → Source) : Request → Logged Report
  | help | version => return ⟨0, [], []⟩
  | misuse => return ⟨2, [], []⟩
  | run o => Report.ofSource Assembly.inBytes o.input (source o.input)

namespace Program

def usage : String :=
  "usage: prefixcalc [-v | -q]... [FILE]\n" ++
  "Builds expression trees from prefix expressions and prints them in several forms.\n"

def levelName : Level → String
  | .info => "INFO"
  | .debug => "DEBUG"
  | .trace => "TRACE"

def showEvents (o : Options) (events : List Event) : IO Unit := do
  let err ← IO.getStderr
  for event in events do
    if o.shows event.level then
      err.putStrLn s!"[{levelName event.level}] {event.message}"

def complain (chain : List String) : IO UInt32 := do
  let err ← IO.getStderr
  match chain with
  | [] => return 0
  | [message] =>
    err.putStrLn s!"Error: {message}"
    return 1
  | message :: causes =>
    err.putStrLn s!"Error: {message}\n\nCaused by:"
    for cause in causes do
      err.putStrLn s!"    {cause}"
    return 1

/-- The bytes up to and with the next line feed; none at the end of the input. -/
partial def readPiece (input : IO.FS.Stream) (piece : List UInt8) : IO (List UInt8) := do
  let chunk ← input.read 1
  match chunk.data.toList with
  | [] => return piece.reverse
  | b :: _ =>
    if b = Text.lineFeed then return (b :: piece).reverse
    else readPiece input (b :: piece)

/-- Advances line by line, so that each is answered before the next is read. The session and the
sink that one line leaves are those that the next one finds. -/
partial def converse (o : Options) (input output : IO.FS.Stream) (session : Session) (sink : Sink) :
    IO (Option Interruption) := do
  let piece? ← (Except.ok <$> readPiece input []) <|> pure (Except.error ())
  match piece? with
  | .error _ => return some (.unreadable "the input cannot be read")
  | .ok [] => return none
  | .ok piece =>
    let answer := (session.advance Assembly.inBytes [Text.chomp piece]).run sink
    showEvents o answer.events
    output.write ⟨answer.value.taken.toArray⟩
    output.flush
    match answer.value.result with
    | .error cause => return some cause
    | .ok (none, _) => return none
    | .ok (some session, sink) => converse o input output session sink

def start (o : Options) (input : IO.FS.Stream) : IO UInt32 := do
  let output ← IO.getStdout
  match ← converse o input output Session.empty Sink.unlimited with
  | none => return 0
  | some interruption => complain interruption.chain

end Program
end PrefixCalc
