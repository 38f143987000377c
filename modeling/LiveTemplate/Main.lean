import LiveTemplate.Console.Report

/-!
The program: prints what a command line gives rise to, and complaints on the error output.
-/

/-- Carries out a command line. -/
def main (args : List String) : IO UInt32 := do
  match LiveTemplate.Console.run args with
  | .ok outcome =>
    for notice in outcome.notices do
      if let some message := notice.message? then IO.eprintln message
    for line in outcome.lines do
      IO.println line
    return 0
  | .error complaint =>
    IO.eprintln ("Error: " ++ complaint.message)
    return 1
