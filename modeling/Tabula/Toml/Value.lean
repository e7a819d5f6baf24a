import Tabula.Toml.Number

/-!
The values of TOML and their reader. A table knows how it came to be, since that decides what may still be added.
-/

namespace Tabula

inductive Toml.TableForm where
  /-- Under a header of its own. -/
  | header
  /-- As a part of another header. -/
  | implied
  /-- As a part of a dotted key. -/
  | dotted
  /-- In braces; it is complete. -/
  | inline
deriving DecidableEq

inductive Toml where
  | string (s : String)
  | integer (i : Int)
  | float (x : Binary64)
  | boolean (b : Bool)
  /-- A date, a time or both, as written. -/
  | moment (text : String)
  | array (items : List Toml)
  /-- The tables under headers in double brackets. -/
  | tables (items : List Toml)
  | table (form : Toml.TableForm) (entries : List (String × Toml))

namespace Toml

abbrev Entries := List (String × Toml)

/-- The entries with a key set, at its old place if it has one. -/
def put (entries : Entries) (key : String) (v : Toml) : Entries :=
  if entries.any (·.1 == key) then entries.map fun e => if e.1 == key then (key, v) else e
  else entries ++ [(key, v)]

/-- Adds a key that is not there yet. Before the last part of a dotted key only tables can stand that dotted keys or
other headers have brought about, and the last of them must come from a dotted key. -/
def assign (v : Toml) : List String → Entries → Option Entries
  | [], _ => none
  | [key], entries => if entries.any (·.1 == key) then none else some (entries ++ [(key, v)])
  | part :: parts, entries =>
    match entries.lookup part with
    | none => do
      let inner ← assign v parts []
      return entries ++ [(part, .table .dotted inner)]
    | some (.table form inner) =>
      if form = .dotted ∨ (form = .implied ∧ parts.length ≠ 1) then do
        let inner ← assign v parts inner
        return put entries part (.table form inner)
      else none
    | some _ => none

def momentValue? (cs : List Char) : Option (Toml × List Char) :=
  (moment? cs).map fun rest => (.moment (String.ofList (cs.take (cs.length - rest.length))), rest)

def numberValue? (cs : List Char) : Option (Toml × List Char) :=
  momentValue? cs <|> (float? cs).map (fun r => (.float r.1, r.2)) <|>
    (integer? cs).map (fun r => (.integer r.1, r.2))

mutual

/-- A value, with `nesting` levels left for arrays and tables in it. -/
def valueWithin? : (limit : Nat) → (nesting : Nat) → List Char → Option (Toml × List Char)
  | 0, _, _ => none
  | limit + 1, nesting, cs =>
    match cs with
    | '[' :: rest =>
      match nesting with
      | 0 => none
      | nesting + 1 => (itemsWithin? limit nesting rest).map fun r => (.array r.1, r.2)
    | '\x7b' :: rest =>
      match nesting with
      | 0 => none
      | nesting + 1 => (membersWithin? limit nesting [] rest).map fun r => (.table .inline r.1, r.2)
    | 't' :: 'r' :: 'u' :: 'e' :: rest => some (.boolean true, rest)
    | 'f' :: 'a' :: 'l' :: 's' :: 'e' :: rest => some (.boolean false, rest)
    | '"' :: _ => (string? cs).map fun r => (.string r.1, r.2)
    | '\'' :: _ => (string? cs).map fun r => (.string r.1, r.2)
    | _ => numberValue? cs

/-- The items of an array up to its bracket. A comma may follow the last one. -/
def itemsWithin? : (limit : Nat) → (nesting : Nat) → List Char → Option (List Toml × List Char)
  | 0, _, _ => none
  | limit + 1, nesting, cs =>
    match skipLines false cs with
    | ']' :: rest => some ([], rest)
    | start => do
      let (v, rest) ← valueWithin? limit nesting start
      match skipLines false rest with
      | ']' :: rest => return ([v], rest)
      | ',' :: rest =>
        let (vs, rest) ← itemsWithin? limit nesting rest
        return (v :: vs, rest)
      | _ => none

/-- The entries of an inline table up to its brace, after those in `entries`. No comma follows the last one. -/
def membersWithin? : (limit : Nat) → (nesting : Nat) → Entries → List Char → Option (Entries × List Char)
  | 0, _, _, _ => none
  | limit + 1, nesting, entries, cs =>
    match skipBlanks cs, entries with
    | '\x7d' :: rest, [] => some ([], rest)
    | start, _ => do
      let (key, rest) ← key? start
      let (v, rest) ← valueWithin? limit nesting (skipBlanks (← expect? '=' rest))
      let entries ← assign v key entries
      match skipBlanks rest with
      | '\x7d' :: rest => return (entries, rest)
      | ',' :: rest => membersWithin? limit nesting entries rest
      | _ => none

end

def value? (cs : List Char) : Option (Toml × List Char) :=
  valueWithin? (2 * cs.length + 2) depthLimit cs

end Toml

end Tabula
