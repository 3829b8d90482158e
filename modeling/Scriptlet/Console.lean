import Scriptlet.Interpreter
import Scriptlet.Text.Blank
import Scriptlet.Text.Lines

namespace Scriptlet

/-- All that was written, and the exit code. -/
structure Transcript where
  output : ByteArray
  errors : String
  code : UInt32

/-- A session and the error messages so far. -/
structure Console where
  session : Session := {}
  errors : String := ""

namespace Console

def say : Console → String → Console
  | ⟨⟨scopes, functions, sink⟩, errors⟩, text =>
    ⟨⟨scopes, functions, (sink.write text.toUTF8).2⟩, errors⟩

def complain (c : Console) (message : String) : Console :=
  ⟨c.session, c.errors ++ "Error: " ++ message ++ "\n"⟩

def close (c : Console) (code : UInt32) : Transcript :=
  ⟨c.session.sink.written, c.errors, code⟩

def encodingError : String :=
  "stream did not contain valid UTF-8"

inductive File where
  | missing
  | directory
  | contents (bytes : ByteArray)

def File.text : File → Except String String
  | .missing => .error "No such file or directory (os error 2)"
  | .directory => .error "Is a directory (os error 21)"
  | .contents bytes =>
    match String.fromUTF8? bytes with
    | some text => .ok text
    | none => .error encodingError

/-- The program in a file, or else the transcript of the refusal. -/
def load (path : String) (file : File) : Except Transcript (List Stmt) :=
  match file.text with
  | .error reason =>
    .error ((({} : Console).complain ("could not read '" ++ path ++ "': " ++ reason)).close 1)
  | .ok text =>
    match Stmt.ofText text with
    | .error e => .error ((({} : Console).complain e.message).close 1)
    | .ok body => .ok body

/-- The transcript of a program that has run. -/
def report (answer : Answer .program) : Transcript :=
  match answer with
  | ⟨.ok (), s⟩ => (⟨s, ""⟩ : Console).close 0
  | ⟨.error e, s⟩ => ((⟨s, ""⟩ : Console).complain e.message).close 1

def runFile (fuel : Nat) (path : String) (file : File) : Option Transcript :=
  match load path file with
  | .error transcript => some transcript
  | .ok body => (({} : Session).execute fuel body).map report

def greeting : String :=
  "pyrust 0.1.0 interactive mode\nType 'exit' to quit\n"

def prompt : String :=
  ">>> "

def farewell : String :=
  "\nGoodbye!\n"

/-- The start of a dialogue. -/
def greet : Console :=
  ({} : Console).say greeting

/-- What a line of input asks for. -/
inductive Reply where
  | stop (transcript : Transcript)
  | again (console : Console)
  | evaluate (body : List Stmt) (console : Console)

def respond (c : Console) (line : ByteArray) : Reply :=
  match String.fromUTF8? line with
  | none => .stop ((c.complain encodingError).close 1)
  | some text =>
    let text := Text.trim text
    if text = "" then .again c
    else if text = "exit" then .stop (c.close 0)
    else
      match Stmt.ofText text with
      | .error e => .again (c.complain e.message)
      | .ok body => .evaluate body c

/-- Shows what came of a line. -/
def conclude (c : Console) (answer : Answer .line) : Console :=
  match answer with
  | ⟨.ok values, s⟩ => values.foldl (fun c v => c.say (v.text ++ "\n")) ⟨s, c.errors⟩
  | ⟨.error e, s⟩ => (⟨s, c.errors⟩ : Console).complain e.message

/-- The rest of a dialogue. -/
def converse (fuel : Nat) (c : Console) (lines : List ByteArray) : Option Transcript :=
  let c := c.say prompt
  match lines with
  | [] => some ((c.say farewell).close 0)
  | line :: rest =>
    match c.respond line with
    | .stop transcript => some transcript
    | .again c => c.converse fuel rest
    | .evaluate body c =>
      match c.session.complete fuel (.line body) with
      | none => none
      | some answer => (c.conclude answer).converse fuel rest

def interact (fuel : Nat) (input : ByteArray) : Option Transcript :=
  greet.converse fuel (Text.lines input)

end Console

end Scriptlet
