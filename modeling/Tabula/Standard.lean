import Tabula.Binary64.Elementary
import Tabula.Machine

/-!
The standard library: the base functions, gathered in the module `_G`, and the module `math`.
-/

namespace Tabula

variable {Host : Type}

namespace StandardFunction

def name : StandardFunction → String
  | print => "print"
  | tostring => "tostring"
  | tonumber => "tonumber"
  | type => "type"
  | error => "error"
  | floor => "floor"
  | ceil => "ceil"
  | abs => "abs"
  | sqrt => "sqrt"
  | sin => "sin"
  | cos => "cos"
  | tan => "tan"
  | pow => "pow"
  | fmod => "fmod"
  | max => "max"
  | min => "min"

/-- The first number, replaced by each later one that is better than what is held. A NaN is never better. -/
def best (better : Binary64 → Binary64 → Bool) (numbers : Binary64 × List Binary64) : Binary64 :=
  numbers.2.foldl (fun held x => if better x held then x else held) numbers.1

def greatest (numbers : Binary64 × List Binary64) : Binary64 := best (fun x held => held.less x) numbers

def least (numbers : Binary64 × List Binary64) : Binary64 := best (fun x held => x.less held) numbers

/-- What a function returns, all but the printing. -/
def result (f : StandardFunction) (names : Naming) (args : List Value) : Except Error Value :=
  match f with
  | print => .ok .nil
  | tostring =>
    match args with
    | v :: _ => .ok (.string (v.display names))
    | [] => .error (.missing (.value "tostring"))
  | tonumber =>
    match args with
    | v :: _ => .ok (v.toNumber?.elim .nil .number)
    | [] => .ok .nil
  | type =>
    match args with
    | v :: _ => .ok (.string v.kind.name)
    | [] => .error (.missing (.value "type"))
  | error => .error (.raised (args.headD .nil))
  | floor => (Argument.one "floor" args).map fun x => .number x.floor
  | ceil => (Argument.one "ceil" args).map fun x => .number x.ceil
  | abs => (Argument.one "abs" args).map fun x => .number x.abs
  | sqrt => (Argument.one "sqrt" args).map fun x => .number x.sqrt
  | sin => (Argument.one "sin" args).map fun x => .number x.sin
  | cos => (Argument.one "cos" args).map fun x => .number x.cos
  | tan => (Argument.one "tan" args).map fun x => .number x.tan
  | pow => (Argument.two "pow" args).map fun p => .number (p.1.pow p.2)
  | fmod => (Argument.two "fmod" args).map fun p => .number (p.1.remainder p.2)
  | max => (Argument.several "max" args).map fun ns => .number (greatest ns)
  | min => (Argument.several "min" args).map fun ns => .number (least ns)

def printedLine (f : StandardFunction) (names : Naming) (args : List Value) : String :=
  match f with
  | print => displayAll names args ++ "\n"
  | _ => ""

def run (f : StandardFunction) (args : List Value) : Run Host Value := do
  let names := (← get).names
  modify fun m => { m with printed := m.printed ++ f.printedLine names args }
  Run.check (f.result names args)

def base : List StandardFunction := [print, tostring, tonumber, type, error]

def math : List StandardFunction := [floor, ceil, abs, sqrt, sin, cos, tan, pow, fmod, max, min]

end StandardFunction

namespace Machine

def defineAll (m : Machine Host) (fs : List StandardFunction) (content : Table) : Table × Machine Host :=
  fs.foldl (fun (state : Table × Machine Host) f =>
    let (ref, m) := state.2.define f.name false (.standard f)
    (state.1.putField f.name (.function ref), m)) (content, m)

def newBase (m : Machine Host) : TableId × Machine Host :=
  let (content, m) := m.defineAll StandardFunction.base {}
  m.newTable content

def piNumber : Binary64 := .finite false 0x1921fb54442d18 1023 (by decide)

def newMath (m : Machine Host) (seed : UInt64) : TableId × Machine Host :=
  let constants := (({} : Table).putField "pi" (.number piNumber)).putField "huge" (.number (.infinity false))
  let (content, m) := m.defineAll StandardFunction.math constants
  let (random, m) := m.define "random" true (.random (.ofSeed seed))
  m.newTable (content.putField "random" (.function random))

end Machine

end Tabula
