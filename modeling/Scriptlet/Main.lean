import Scriptlet.Console

namespace Scriptlet.CommandLine

/-- Shows what was written since the first `shown` bytes. -/
def showOutput (sink : Sink) (shown : Nat) : IO Nat := do
  let out ← IO.getStdout
  out.write (sink.written.extract shown sink.written.size)
  out.flush
  return sink.written.size

/-- Carries a machine to its end and shows output on the way. -/
partial def carryOut {goal : Form} (m : Machine goal) (shown : Nat) :
    IO (Answer goal × Nat) := do
  match m.advance 65536 with
  | .done answer => return (answer, shown)
  | .running m => carryOut m (← showOutput m.session.sink shown)

/-- The next line of the input, with the line feed that ends it, or nothing at the end. -/
partial def readLine (line : ByteArray) : IO ByteArray := do
  let byte ← (← IO.getStdin).read 1
  if byte.isEmpty || byte = ⟨#[Text.lineFeed]⟩ then return line ++ byte
  else readLine (line ++ byte)

def finish (t : Transcript) (shown told : Nat) : IO UInt32 := do
  discard (showOutput ⟨t.output, 0, none, none⟩ shown)
  IO.eprint (t.errors.drop told)
  return t.code

def readFile (path : String) : IO Console.File := do
  try
    return .contents (← IO.FS.readBinFile path)
  catch
    | .inappropriateType .. => return .directory
    | _ => return .missing

def runPath (path : String) : IO UInt32 := do
  match Console.load path (← readFile path) with
  | .error transcript => finish transcript 0 0
  | .ok body =>
    let (answer, shown) ← carryOut (.start (.program body) {}) 0
    finish (Console.report answer) shown 0

partial def converse (c : Console) (shown told : Nat) : IO UInt32 := do
  IO.eprint (c.errors.drop told)
  let told := c.errors.length
  let c := c.say Console.prompt
  let shown ← showOutput c.session.sink shown
  match Text.lines (← readLine .empty) with
  | [] => finish ((c.say Console.farewell).close 0) shown told
  | line :: _ =>
    match c.respond line with
    | .stop transcript => finish transcript shown told
    | .again c => converse c shown told
    | .evaluate body c =>
      let (answer, shown) ← carryOut (.start (.line body) c.session) shown
      converse (c.conclude answer) shown told

end Scriptlet.CommandLine

open Scriptlet in
def main (args : List String) : IO UInt32 := do
  match args with
  | [] => CommandLine.converse Console.greet 0 0
  | path :: _ => CommandLine.runPath path
