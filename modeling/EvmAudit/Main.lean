import EvmAudit.CommandLine

/-! The program. Its arguments are the options; standard input holds a document with the
surroundings of the run: files, programs and their output, tools, and replies of sites. -/

namespace EvmAudit.Main

partial def readAll (input : IO.FS.Stream) (before : String) : IO String := do
  let line ← input.getLine
  if line.isEmpty then return before else readAll input (before ++ line)

def ending : Except Fault Unit → UInt32 × Option String
  | .ok _ => (0, none)
  | .error (.exit code) => (UInt32.ofNat (code.getD 0).toNat, none)
  | .error cause => (1, some (cause.message?.getD "the run failed"))

end EvmAudit.Main

open EvmAudit in
def main (words : List String) : IO UInt32 := do
  let input ← Main.readAll (← IO.getStdin) ""
  let surroundings := (Document.read? input).getD (.object [])
  let (answer, s) :=
    (CommandLine.run words).perform { workspace := Workspace.ofDocument surroundings }
  IO.print s.workspace.printed
  for line in s.workspace.log.reverse do
    IO.eprintln line.render
  let (code, complaint) := Main.ending answer
  if let some text := complaint then IO.eprintln text
  return code
