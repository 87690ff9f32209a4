import Reckoner.Text.Blank

/-!
Formula definitions such as `f(x, y) = x * y`.
-/

namespace Reckoner

structure Definition where
  name : String
  parameters : List String
  body : String
deriving DecidableEq, Repr

namespace Definition

/-- The first opening bracket ends the name, and the next closing bracket the parameters. The
sign behind it is a single `=`. -/
def read (text : String) : Option Definition :=
  let cs := text.toList
  match cs.dropWhile (· != '(') with
  | [] => none
  | _ :: inside =>
    match inside.dropWhile (· != ')') with
    | [] => none
    | _ :: tail =>
      match Text.trimStart tail with
      | '=' :: body =>
        if body.head? = some '=' then none
        else
          some
            { name := String.ofList (Text.trim (cs.takeWhile (· != '(')))
              parameters := (Text.entries (inside.takeWhile (· != ')'))).map String.ofList
              body := String.ofList (Text.trim body) }
      | _ => none

end Definition

end Reckoner
