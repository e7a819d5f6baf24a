import Tabula.Toml.Value

/-!
TOML documents: lines that open a table or add to the open one, gathered into one table of all entries.
-/

namespace Tabula.Toml

inductive Line where
  | blank
  | header (path : List String)
  | tablesHeader (path : List String)
  | entry (key : List String) (v : Toml)

def header? (closing : List Char) (cs : List Char) : Option (List String × List Char) := do
  let (path, rest) ← key? cs
  let rest ← closing.foldlM (fun rest c => expect? c rest) rest
  let rest ← lineEnd? rest
  return (path, rest)

def line? (cs : List Char) : Option (Line × List Char) :=
  match skipBlanks cs with
  | [] => some (.blank, [])
  | '[' :: '[' :: rest => (header? [']', ']'] rest).map fun r => (.tablesHeader r.1, r.2)
  | '[' :: rest => (header? [']'] rest).map fun r => (.header r.1, r.2)
  | '#' :: rest => (lineEnd? ('#' :: rest)).map fun rest => (.blank, rest)
  | start =>
    match newline? start with
    | some rest => some (.blank, rest)
    | none => do
      let (key, rest) ← key? start
      let (v, rest) ← value? (skipBlanks (← expect? '=' rest))
      let rest ← lineEnd? rest
      return (.entry key v, rest)

def linesWithin? : (limit : Nat) → List Char → Option (List Line)
  | _, [] => some []
  | 0, _ => none
  | limit + 1, cs => do
    let (l, rest) ← line? cs
    let others ← linesWithin? limit rest
    return l :: others

/-- The lines of a text. A byte order mark may stand before them. -/
def lines? (text : String) : Option (List Line) :=
  match text.toList with
  | '\ufeff' :: cs => linesWithin? cs.length cs
  | cs => linesWithin? cs.length cs

/-- Changes the table that a path leads to. Tables on the way that are not there yet are implied, and of several
tables under one name the last is meant. -/
def within (change : Entries → Option Entries) : List String → Entries → Option Entries
  | [], entries => change entries
  | part :: parts, entries =>
    match entries.lookup part with
    | none => do
      let inner ← within change parts []
      return put entries part (.table .implied inner)
    | some (.table form inner) =>
      if form = .inline then none
      else do
        let inner ← within change parts inner
        return put entries part (.table form inner)
    | some (.tables items) =>
      match items.getLast? with
      | some (.table form inner) => do
        let inner ← within change parts inner
        return put entries part (.tables (items.dropLast ++ [.table form inner]))
      | _ => none
    | some _ => none

/-- Opens a table. Each is opened once; only as a part of other headers can it have been there before. -/
def openTable (name : String) (entries : Entries) : Option Entries :=
  match entries.lookup name with
  | none => some (put entries name (.table .header []))
  | some (.table .implied inner) => some (put entries name (.table .header inner))
  | some _ => none

def openNext (name : String) (entries : Entries) : Option Entries :=
  match entries.lookup name with
  | none => some (put entries name (.tables [.table .header []]))
  | some (.tables items) => some (put entries name (.tables (items ++ [.table .header []])))
  | some _ => none

/-- A document as far as it is read: the path of the open table, and all entries. -/
structure Document where
  opened : List String := []
  entries : Entries := []

namespace Document

def add (d : Document) : Line → Option Document
  | .blank => some d
  | .header path =>
    match path.getLast? with
    | some name => (within (openTable name) path.dropLast d.entries).map (⟨path, ·⟩)
    | none => none
  | .tablesHeader path =>
    match path.getLast? with
    | some name => (within (openNext name) path.dropLast d.entries).map (⟨path, ·⟩)
    | none => none
  | .entry key v => (within (assign v key) d.opened d.entries).map (⟨d.opened, ·⟩)

def parse? (text : String) : Option Entries := do
  let ls ← lines? text
  let d ← ls.foldlM add {}
  return d.entries

end Document

end Tabula.Toml
