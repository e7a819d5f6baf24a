import Tabula.NumberText
import Tabula.Text.Quoted

/-!
The values of the language. Tables and functions are references: two of them are equal only if they are the same
object, and what stands behind them lives in the heap and in the machine.
-/

namespace Tabula

inductive Kind where
  | nil
  | boolean
  | number
  | string
  | table
  | function
deriving DecidableEq

def Kind.name : Kind → String
  | nil => "nil"
  | boolean => "boolean"
  | number => "number"
  | string => "string"
  | table => "table"
  | function => "function"

structure TableId where
  index : Nat
deriving DecidableEq

/-- The names of tables in text. The host draws the salt anew for each machine, so that no program can foresee the
name of a table and write it down before the table is there. -/
structure Naming where
  salt : UInt64 := 0
deriving DecidableEq

namespace Naming

def hexadecimal (digits n : Nat) : List Char :=
  let written := Nat.toDigits 16 n
  List.replicate (digits - written.length) '0' ++ written

/-- The name of a table: 36 characters in the five groups of a random identifier. The last group tells the tables of
a machine apart, and the salt fills the others but for the digits that the form prescribes. -/
def text (names : Naming) (t : TableId) : String :=
  let salt := hexadecimal 16 names.salt.toNat
  String.ofList (salt.take 8 ++ '-' :: (salt.drop 8).take 4 ++ '-' :: '4' :: (salt.drop 12).take 3 ++
    '-' :: '8' :: '0' :: '0' :: salt.drop 15 ++ '-' :: hexadecimal 12 t.index)

def diagnostic (names : Naming) (t : TableId) : String := "TableRef(" ++ names.text t ++ ")"

end Naming

/-- A reference to a function of the machine, with what a program can see of it without a call. -/
structure Callable where
  index : Nat
  name : String
  /-- A closure carries state of its own; a native function does not. -/
  isClosure : Bool
deriving DecidableEq

def Callable.diagnostic (f : Callable) : String :=
  "Function(" ++ f.name ++ ", " ++ (if f.isClosure then "closure" else "native") ++ ")"

inductive Value where
  | nil
  | boolean (b : Bool)
  | number (x : Binary64)
  | string (s : String)
  | table (t : TableId)
  | function (f : Callable)
deriving DecidableEq

namespace Value

instance : Inhabited Value := ⟨nil⟩

def kind : Value → Kind
  | nil => .nil
  | boolean _ => .boolean
  | number _ => .number
  | string _ => .string
  | table _ => .table
  | function _ => .function

def isNil : Value → Bool
  | nil => true
  | _ => false

def isTrue : Value → Bool
  | nil => false
  | boolean b => b
  | _ => true

/-- Equality as a program sees it: numbers by value, tables and functions by identity. -/
def equal : Value → Value → Bool
  | nil, nil => true
  | boolean a, boolean b => a == b
  | number x, number y => x.equal y
  | string s, string t => s == t
  | table t, table u => t == u
  | function f, function g => f.index == g.index
  | _, _ => false

def display (names : Naming) : Value → String
  | nil => "nil"
  | boolean true => "true"
  | boolean false => "false"
  | number x => x.display
  | string s => s
  | table t => "table: " ++ names.text t
  | function f => "function: " ++ f.name

def diagnostic (names : Naming) : Value → String
  | nil => "Value::Nil"
  | boolean b => "Value::Boolean(" ++ (if b then "true" else "false") ++ ")"
  | number x => "Value::Number(" ++ x.diagnostic ++ ")"
  | string s => "Value::String(" ++ Text.quote s ++ ")"
  | table t => "Value::Table(" ++ names.text t ++ ")"
  | function f => "Value::Function(" ++ f.name ++ ")"

end Value

def displayAll (names : Naming) (values : List Value) : String :=
  "\t".intercalate (values.map (Value.display names))

end Tabula
