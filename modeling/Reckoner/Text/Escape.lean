/-!
Backslash escapes in quoted text. Control characters have letters of their own or are written
by number: up to two hexadecimal digits after `\x`, or up to three octal digits. An escape that
means nothing stands for itself, backslash included.
-/

namespace Reckoner.Text.Escape

def ofLetter : Char → Option Char
  | 'a' => some '\x07'
  | 'b' => some '\x08'
  | 'e' => some '\x1b'
  | 'f' => some '\x0c'
  | 'n' => some '\n'
  | 'r' => some '\r'
  | 't' => some '\t'
  | 'v' => some '\x0b'
  | '\\' => some '\\'
  | '\'' => some '\''
  | '"' => some '"'
  | _ => none

def letter : Char → Option Char
  | '\x07' => some 'a'
  | '\x08' => some 'b'
  | '\x1b' => some 'e'
  | '\x0c' => some 'f'
  | '\n' => some 'n'
  | '\r' => some 'r'
  | '\t' => some 't'
  | '\x0b' => some 'v'
  | '\\' => some '\\'
  | '"' => some '"'
  | _ => none

def isOctal (c : Char) : Bool := '0' ≤ c && c ≤ '7'

def isHex (c : Char) : Bool := c.isDigit || ('a' ≤ c && c ≤ 'f') || ('A' ≤ c && c ≤ 'F')

def digitValue (c : Char) : Nat :=
  if c.isDigit then c.toNat - '0'.toNat
  else if c.toNat < 'a'.toNat then c.toNat - 'A'.toNat + 10
  else c.toNat - 'a'.toNat + 10

def number (base : Nat) (digits : List Char) : Nat :=
  digits.foldl (fun n c => n * base + digitValue c) 0

def digits (isDigit : Char → Bool) (count : Nat) (cs : List Char) : List Char :=
  (cs.take count).takeWhile isDigit

/-- Numbers above 255 keep their low eight bits. -/
def decode : List Char → List Char
  | [] => []
  | c :: cs =>
    if c ≠ '\\' then c :: decode cs
    else
      match cs with
      | [] => ['\\']
      | e :: rest =>
        match ofLetter e with
        | some d => d :: decode rest
        | none =>
          if e = 'x' then
            match digits isHex 2 rest with
            | [] => '\\' :: 'x' :: decode rest
            | d :: ds => Char.ofNat (number 16 (d :: ds)) :: decode (rest.drop (d :: ds).length)
          else if isOctal e then
            let ds := digits isOctal 2 rest
            Char.ofNat (number 8 (e :: ds) % 256) :: decode (rest.drop ds.length)
          else '\\' :: e :: decode rest
termination_by cs => cs.length
decreasing_by all_goals simp only [List.length_cons, List.length_drop]; omega

def isControl (c : Char) : Bool := c.toNat < 0x20 || c.toNat == 0x7f

def octal (c : Char) : List Char :=
  [Nat.digitChar (c.toNat / 64), Nat.digitChar (c.toNat / 8 % 8), Nat.digitChar (c.toNat % 8)]

def encodeChar (c : Char) : List Char :=
  match letter c with
  | some e => ['\\', e]
  | none => if isControl c then '\\' :: octal c else [c]

def encode (cs : List Char) : List Char := cs.flatMap encodeChar

end Reckoner.Text.Escape
