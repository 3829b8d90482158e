namespace Scriptlet

structure Sink where
  written : ByteArray := .empty
  flushes : Nat := 0
  /-- How many bytes it takes in all. -/
  byteLimit : Option Nat := none
  /-- How many times it confirms. -/
  flushLimit : Option Nat := none

namespace Sink

/-- Takes as many of the bytes as there is room for, and tells whether that was all of them. -/
def write : Sink → ByteArray → Bool × Sink
  | ⟨written, flushes, none, flushLimit⟩, bytes =>
    (true, ⟨written ++ bytes, flushes, none, flushLimit⟩)
  | ⟨written, flushes, some limit, flushLimit⟩, bytes =>
    let left := limit - written.size
    (bytes.size ≤ left, ⟨written ++ bytes.extract 0 left, flushes, some limit, flushLimit⟩)

/-- Asks for a confirmation of what has been written. -/
def flush : Sink → Bool × Sink
  | ⟨written, flushes, byteLimit, flushLimit⟩ =>
    match flushLimit with
    | none => (true, ⟨written, flushes + 1, byteLimit, none⟩)
    | some limit => (flushes < limit, ⟨written, flushes + 1, byteLimit, some limit⟩)

/-- Writes a line and has it confirmed. -/
def print (s : Sink) (text : String) : Bool × Sink :=
  match s.write (text ++ "\n").toUTF8 with
  | (true, s) => s.flush
  | (false, s) => (false, s)

end Sink

end Scriptlet
