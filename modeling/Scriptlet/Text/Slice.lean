namespace Scriptlet.Text

/-- The number of bytes of a text in UTF-8. -/
def size (text : List Char) : Nat :=
  text.foldl (fun bytes c => bytes + c.utf8Size) 0

/-- The text between two bytes, if both of them stand between characters and in this order. -/
def slice? (text : String) (start stop : Nat) : Option String :=
  if start ≤ stop ∧ String.Pos.Raw.isValid text ⟨start⟩ ∧ String.Pos.Raw.isValid text ⟨stop⟩ then
    some (String.Pos.Raw.extract text ⟨start⟩ ⟨stop⟩)
  else none

/-- The byte of the last line feed in a text that begins at `offset`, or else `found`. -/
def lastLineFeedFrom (offset : Nat) (found : Option Nat) : List Char → Option Nat
  | [] => found
  | c :: rest =>
    lastLineFeedFrom (offset + c.utf8Size) (if c = '\n' then some offset else found) rest

def lastLineFeed? (text : List Char) : Option Nat :=
  lastLineFeedFrom 0 none text

end Scriptlet.Text
