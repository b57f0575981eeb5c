import PrefixCalc.Program

/-! The program: reads commands from a file or from standard input and answers them line by line. -/

open PrefixCalc PrefixCalc.Program in
def main (arguments : List String) : IO UInt32 := do
  match Request.ofArguments arguments with
  | .help =>
    (← IO.getStdout).putStr usage
    return 0
  | .version =>
    (← IO.getStdout).putStr "prefixcalc 0.1.0\n"
    return 0
  | .misuse =>
    (← IO.getStderr).putStr usage
    return 2
  | .run o =>
    match o.input with
    | none => start o (← IO.getStdin)
    | some path =>
      let opened ← (some <$> IO.FS.Handle.mk path .read) <|> pure none
      match opened with
      | none => complain (Report.couldNotOpen path "the file cannot be opened").failure
      | some handle => start o (IO.FS.Stream.ofHandle handle)
