import Reckoner.Function.Basic

/-!
Ready-made natives for hosts.
-/

namespace Reckoner.Stock

def echo : Native := fun _ args => .ok (args.head?.getD (.integer 0))

def count : Native := fun _ args => .ok (.integer (Int64.ofNat args.length))

def types : Native := fun _ args => .ok (.string (",".intercalate (args.map Value.typeName)))

def show_ : Native := fun _ args =>
  .ok (.string (String.ofList (List.intercalate ['|'] (args.map Value.text))))

def sum : Native := fun _ args => .ok (.real ((args.filterMap Value.toReal?).foldl (· + ·) 0.0))

def fail : Native := fun _ _ => .error (.invalidValue "native failure")

def degrees : Native := fun view _ => .ok (.boolean view.switches.degrees)

def variable_ : Native := fun view args =>
  .ok ((view.lookup ((args.head?.bind Value.toText?).getD "")).getD .null)

def constant (v : Value) : Native := fun _ _ => .ok v

def atLeast (limit : Int) (args : List Value) : Except Error Unit :=
  match args.head?.bind Value.toInteger? with
  | some i => if limit ≤ i.toInt then .ok () else .error (.invalidValue "below minimum")
  | none => .error (.invalidValue "below minimum")

end Reckoner.Stock
