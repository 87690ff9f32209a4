import Reckoner.Error
import Reckoner.Text.Offset

/-!
Faults that keep a text from splitting into tokens, and how they are shown to the user.
-/

namespace Reckoner.Token

inductive Fault.Cause where
  | missingClose
  | unmatchedClose
  | invalidNumber
  | invalidCharacter
  | unterminatedString
deriving DecidableEq, Repr

structure Fault where
  position : Nat
  cause : Fault.Cause
deriving DecidableEq, Repr

namespace Fault

def Cause.message : Cause → String
  | missingClose => "Missing close round bracket"
  | unmatchedClose => "Unmatched close round bracket"
  | invalidNumber => "Invalid Number"
  | invalidCharacter => "Invalid Character"
  | unterminatedString => "Unterminated string"

def toError (fault : Fault) : Error := .lexical fault.position fault.cause.message

def diagnostic (text : String) (position : Nat) (message : String) : String :=
  let cs := text.toList
  let p := min position (Text.byteLength cs)
  let head := Text.takeBytes p cs
  let rest := (Text.dropBytes p cs).getD []
  let indent := p + Text.byteLength message.toList + 2
  String.ofList <|
    message.toList ++ [' ', '"'] ++ head ++ ['#'] ++ rest.take 1 ++ ['#'] ++ rest.drop 1 ++
      ['"', '\n'] ++ List.replicate indent ' ' ++ ['^']

end Fault

end Reckoner.Token
