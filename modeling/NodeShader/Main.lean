import NodeShader.CommandLine

namespace NodeShader

def readFile? (path : String) : IO (Option String) := do
  try
    return some (← IO.FS.readFile path)
  catch _ =>
    return none

def fail (f : CommandLine.Failure) : IO UInt32 := do
  IO.eprintln ("Error: " ++ f.message)
  return 1

end NodeShader

open NodeShader in
def main (args : List String) : IO UInt32 := do
  match ← (CommandLine.run readFile? args).run with
  | .error f => fail f
  | .ok product =>
    match product.destination with
    | none =>
      IO.print product.source
      return 0
    | some path =>
      try
        IO.FS.writeFile path product.source
        return 0
      catch _ =>
        fail (.unwritable path)
