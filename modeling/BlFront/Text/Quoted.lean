import BlFront.Text.Hidden

/-!
# Quoted texts

Two ways to write a text between double quotes: for a reader, with hidden characters as code
points, and for data exchange, with only control characters as code points.
-/

namespace BlFront.Text

/-- Characters that have an escape of their own in a quoted text. -/
def shortEscape? : Char → Option String
  | '\x00' => some "\\0"
  | '\t' => some "\\t"
  | '\n' => some "\\n"
  | '\r' => some "\\r"
  | '"' => some "\\\""
  | '\\' => some "\\\\"
  | _ => none

def hexDigits (n : Nat) : String := String.ofList (Nat.toDigits 16 n)

def quoteChar (c : Char) : String :=
  match shortEscape? c with
  | some text => text
  | none => if isHidden c then "\\u\x7b" ++ hexDigits c.toNat ++ "\x7d" else c.toString

def quote (text : String) : String := "\"" ++ String.join (text.toList.map quoteChar) ++ "\""

def jsonEscape? : Char → Option String
  | '\x08' => some "\\b"
  | '\t' => some "\\t"
  | '\n' => some "\\n"
  | '\x0c' => some "\\f"
  | '\r' => some "\\r"
  | '"' => some "\\\""
  | '\\' => some "\\\\"
  | _ => none

def jsonChar (c : Char) : String :=
  match jsonEscape? c with
  | some text => text
  | none =>
    if c.toNat < 0x20 then "\\u00" ++ hexDigits (c.toNat / 16) ++ hexDigits (c.toNat % 16)
    else c.toString

def quoteJson (text : String) : String :=
  "\"" ++ String.join (text.toList.map jsonChar) ++ "\""

end BlFront.Text
