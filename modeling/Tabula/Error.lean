import Tabula.Value

/-!
What can go wrong, as causes. The wording is in `detail` and `message` alone.
-/

namespace Tabula

/-- A value of the wrong type, or a number outside what an operation takes. -/
inductive Mismatch where
  | nilKey
  | nanKey
  | keyKind (kind : Kind)
  | call (kind : Kind)
  | methodCall (method : String) (receiver : Kind)
  | index (container : Kind) (key : Value)
  | length (kind : Kind)
  | arithmetic (operand : Value)
  | fallbackOwner (kind : Kind)
  | argument (position : Nat) (function : String) (kind : Kind)
  | notAnInteger (position : Nat) (function : String)
  | emptyInterval (position : Nat) (function : String)
  | argumentCount (function : String)
deriving DecidableEq

inductive Missing where
  | parameter (name : String)
  | argument (position : Nat) (function : String)
  /-- The same with an explicit `nil`. -/
  | nilArgument (position : Nat) (function : String)
  | value (function : String)
deriving DecidableEq

inductive FallbackFault where
  | notTable (kind : Kind)
  | fieldCount (count : Nat)
  | targetNotTable (kind : Kind)
  | field (key : Value)
  | cycle
deriving DecidableEq

inductive Lock where
  | register (name : String)
  | notSeeded
  | loadedBy (loader : String)
  | frozen
deriving DecidableEq

inductive Error where
  | mismatch (cause : Mismatch)
  | missing (cause : Missing)
  | moduleNotFound (name : String)
  | fallback (cause : FallbackFault)
  | methodNotFound (name : String)
  | divisionByZero
  | raised (value : Value)
  | locked (cause : Lock)
deriving DecidableEq

def badArgument (position : Nat) (function : String) : String :=
  s!"bad argument #{position} to '{function}' "

def Mismatch.detail (names : Naming) : Mismatch → String
  | nilKey => "table index is nil"
  | nanKey => "table index is NaN"
  | keyKind kind => s!"unsupported table key type '{kind.name}'"
  | call kind => s!"attempt to call a {kind.name} value"
  | methodCall method receiver => s!"attempt to call method '{method}' on a {receiver.name} value"
  | index container key => s!"attempt to index a {container.name} value (key '{key.display names}')"
  | length kind => s!"attempt to get length of a {kind.name} value"
  | arithmetic operand =>
    -- a string is quoted, since it may be blank or hold anything
    let shown := match operand with
      | .string s => Text.quote s
      | other => other.display names
    s!"attempt to perform arithmetic on a {operand.kind.name} value ({shown})"
  | fallbackOwner kind => badArgument 1 "setmetatable" ++ s!"(table expected, got {kind.name})"
  | argument position function kind =>
    badArgument position function ++ s!"(number expected, got {kind.name})"
  | notAnInteger position function =>
    badArgument position function ++ "(number has no integer representation)"
  | emptyInterval position function => badArgument position function ++ "(interval is empty)"
  | argumentCount function => s!"wrong number of arguments to '{function}'"

def Missing.detail : Missing → String
  | parameter name => s!"required argument '{name}' is nil"
  | argument position function => badArgument position function ++ "(number expected, got no value)"
  | nilArgument position function => badArgument position function ++ "(number expected, got nil)"
  | value function => badArgument 1 function ++ "(value expected)"

def FallbackFault.detail (names : Naming) : FallbackFault → String
  | notTable kind => s!"metatable must be a table, got {kind.name}"
  | fieldCount count => s!"only a single '__index' field is supported, found {count} fields"
  | targetNotTable kind => s!"'__index' must be a table, got {kind.name}"
  | field key => s!"unsupported metatable field '{key.display names}'"
  | cycle => "fallback chain would form a cycle"

def Lock.detail : Lock → String
  | register name => s!"cannot register module '{name}' after seeding"
  | notSeeded => "foreign bindings must be loaded after seeding"
  | loadedBy loader => s!"foreign bindings already loaded by '{loader}'"
  | frozen => "registry is frozen"

namespace Error

def label : Error → String
  | mismatch _ => "TypeMismatch"
  | missing _ => "UndefinedArgument"
  | moduleNotFound _ => "ModuleNotFound"
  | fallback _ => "MetatableUnsupported"
  | methodNotFound _ => "LookupError"
  | divisionByZero => "DivisionError"
  | raised _ => "Raised"
  | locked _ => "RegistryLocked"

def methodDetail (name : String) : String :=
  s!"method '{name}' not found on receiver or its fallback chain"

/-- The text of an error for the user. A raised value speaks for itself. -/
def message (names : Naming) : Error → String
  | mismatch cause => "type mismatch: " ++ cause.detail names
  | missing cause => "undefined argument: " ++ cause.detail
  | moduleNotFound name => s!"module '{name}' not found"
  | fallback cause => "unsupported metatable: " ++ cause.detail names
  | methodNotFound name => "lookup failed: " ++ methodDetail name
  | divisionByZero => "attempt to perform 'n%0'"
  | raised value => value.display names
  | locked cause => "module registry is locked: " ++ cause.detail

def payload? (names : Naming) : Error → Option String
  | mismatch cause => some (Text.quote (cause.detail names))
  | missing cause => some (Text.quote cause.detail)
  | moduleNotFound name => some (Text.quote name)
  | fallback cause => some (Text.quote (cause.detail names))
  | methodNotFound name => some (Text.quote (methodDetail name))
  | divisionByZero => none
  | raised value => some (value.diagnostic names)
  | locked cause => some (Text.quote cause.detail)

def diagnostic (names : Naming) (e : Error) : String :=
  match e.payload? names with
  | some text => e.label ++ "(" ++ text ++ ")"
  | none => e.label

end Error

end Tabula
