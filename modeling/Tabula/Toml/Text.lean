import Tabula.Numeral

/-!
The lexical level of TOML: blanks, comments, line ends, strings and keys. A reader takes what it knows off the front
of the text and gives the rest; `none` means that the text is not TOML.
-/

namespace Tabula.Toml

def isBlank (c : Char) : Bool := c == ' ' || c == '\t'

def skipBlanks (cs : List Char) : List Char := cs.dropWhile isBlank

def newline? : List Char → Option (List Char)
  | '\n' :: rest => some rest
  | '\r' :: '\n' :: rest => some rest
  | _ => none

/-- Tabs, printable ASCII and all beyond ASCII; no other control character stands in a text. -/
def isTextChar (c : Char) : Bool := c == '\t' || (' ' ≤ c && c ≤ '~') || '\x80' ≤ c

def skipComment : List Char → List Char
  | '#' :: rest => rest.dropWhile isTextChar
  | cs => cs

/-- The end of a line after blanks and a comment. The last line may end with the text. -/
def lineEnd? (cs : List Char) : Option (List Char) :=
  match skipComment (skipBlanks cs) with
  | [] => some []
  | rest => newline? rest

/-- Blanks, comments and line ends, as they may stand between the items of an array. `inComment` says whether the text
starts inside a comment. -/
def skipLines : (inComment : Bool) → List Char → List Char
  | _, [] => []
  | _, '\n' :: rest => skipLines false rest
  | _, '\r' :: '\n' :: rest => skipLines false rest
  | true, c :: rest => if isTextChar c then skipLines true rest else c :: rest
  | false, c :: rest =>
    if isBlank c then skipLines false rest
    else if c == '#' then skipLines true rest
    else c :: rest

def charOfHex? (digits : List Char) : Option Char := do
  let n ← digits.foldlM (fun n c => (Numeral.hexDigit? c).map (n * 16 + ·)) 0
  if h : n.isValidChar then some (Char.ofNatAux n h) else none

def shortEscape? : Char → Option Char
  | 'b' => some '\x08'
  | 't' => some '\t'
  | 'n' => some '\n'
  | 'f' => some '\x0c'
  | 'r' => some '\r'
  | '"' => some '"'
  | '\\' => some '\\'
  | _ => none

def basicString? : List Char → Option (List Char × List Char)
  | [] => none
  | '"' :: rest => some ([], rest)
  | '\\' :: 'u' :: a :: b :: c :: d :: rest => do
    let x ← charOfHex? [a, b, c, d]
    let (text, rest) ← basicString? rest
    return (x :: text, rest)
  | '\\' :: 'U' :: a :: b :: c :: d :: e :: f :: g :: h :: rest => do
    let x ← charOfHex? [a, b, c, d, e, f, g, h]
    let (text, rest) ← basicString? rest
    return (x :: text, rest)
  | '\\' :: c :: rest => do
    let x ← shortEscape? c
    let (text, rest) ← basicString? rest
    return (x :: text, rest)
  | c :: rest => do
    if isTextChar c then
      let (text, rest) ← basicString? rest
      return (c :: text, rest)
    else none

def literalString? : List Char → Option (List Char × List Char)
  | [] => none
  | '\'' :: rest => some ([], rest)
  | c :: rest => do
    if isTextChar c then
      let (text, rest) ← literalString? rest
      return (c :: text, rest)
    else none

/-- The end of a string of several lines: three quotes, with up to two more that belong to the text. -/
def closing? (quote : Char) (cs : List Char) : Option (List Char × List Char) :=
  let run := (cs.take 5).takeWhile (· == quote)
  if 3 ≤ run.length then some (run.drop 3, cs.drop run.length) else none

def endsLine (cs : List Char) : Bool := (newline? (skipBlanks cs)).isSome

/-- A string of several lines in double quotes. After a backslash at the end of a line all blanks and line ends are
passed over; `joining` says that this is going on. -/
def basicLines? : (joining : Bool) → List Char → Option (List Char × List Char)
  | _, [] => none
  | true, '\n' :: rest => basicLines? true rest
  | true, '\r' :: '\n' :: rest => basicLines? true rest
  | joining, c :: rest =>
    if joining && isBlank c then basicLines? true rest
    else
      match closing? '"' (c :: rest) with
      | some result => some result
      | none =>
        match c, rest with
        | '\n', rest => (basicLines? false rest).map fun r => ('\n' :: r.1, r.2)
        | '\r', '\n' :: rest => (basicLines? false rest).map fun r => ('\n' :: r.1, r.2)
        | '\\', 'u' :: a :: b :: c :: d :: rest => do
          let x ← charOfHex? [a, b, c, d]
          let (text, rest) ← basicLines? false rest
          return (x :: text, rest)
        | '\\', 'U' :: a :: b :: c :: d :: e :: f :: g :: h :: rest => do
          let x ← charOfHex? [a, b, c, d, e, f, g, h]
          let (text, rest) ← basicLines? false rest
          return (x :: text, rest)
        | '\\', x :: rest =>
          if endsLine (x :: rest) then basicLines? true (x :: rest)
          else do
            let y ← shortEscape? x
            let (text, rest) ← basicLines? false rest
            return (y :: text, rest)
        | c, rest =>
          if isTextChar c then (basicLines? false rest).map fun r => (c :: r.1, r.2) else none

def literalLines? : List Char → Option (List Char × List Char)
  | [] => none
  | c :: rest =>
    match closing? '\'' (c :: rest) with
    | some result => some result
    | none =>
      match c, rest with
      | '\n', rest => (literalLines? rest).map fun r => ('\n' :: r.1, r.2)
      | '\r', '\n' :: rest => (literalLines? rest).map fun r => ('\n' :: r.1, r.2)
      | c, rest =>
        if isTextChar c then (literalLines? rest).map fun r => (c :: r.1, r.2) else none

def skipFirstNewline (cs : List Char) : List Char := (newline? cs).getD cs

def string? (cs : List Char) : Option (String × List Char) :=
  let result := match cs with
    | '"' :: '"' :: '"' :: rest => basicLines? false (skipFirstNewline rest)
    | '"' :: rest => basicString? rest
    | '\'' :: '\'' :: '\'' :: rest => literalLines? (skipFirstNewline rest)
    | '\'' :: rest => literalString? rest
    | _ => none
  result.map fun r => (String.ofList r.1, r.2)

def isBareChar (c : Char) : Bool := c.isAlphanum || c == '-' || c == '_'

def keyPart? (cs : List Char) : Option (String × List Char) :=
  match cs with
  | '"' :: rest => (basicString? rest).map fun r => (String.ofList r.1, r.2)
  | '\'' :: rest => (literalString? rest).map fun r => (String.ofList r.1, r.2)
  | _ =>
    match cs.takeWhile isBareChar with
    | [] => none
    | part => some (String.ofList part, cs.dropWhile isBareChar)

def keyWithin? : (limit : Nat) → List Char → Option (List String × List Char)
  | 0, _ => none
  | limit + 1, cs => do
    let (part, rest) ← keyPart? (skipBlanks cs)
    match skipBlanks rest with
    | '.' :: rest =>
      let (parts, rest) ← keyWithin? limit rest
      return (part :: parts, rest)
    | rest => return ([part], rest)

/-- How many tables deep a key or a value may lead by itself. -/
def depthLimit : Nat := 79

def key? (cs : List Char) : Option (List String × List Char) := keyWithin? depthLimit cs

end Tabula.Toml
