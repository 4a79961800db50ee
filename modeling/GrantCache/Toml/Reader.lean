import GrantCache.Toml.Number
import GrantCache.Toml.Table
import GrantCache.Toml.Text

/-!
# Reading TOML text

`Toml.parse?` reads a document as a JSON object. Dates and times have no counterpart there and are
read as empty objects. Values may be nested less than `maxDepth` deep, and names have fewer parts
than that.
-/

namespace GrantCache.Toml

/-- Nesting and names are cut off here, so a hostile document cannot exhaust a reader. -/
def maxDepth : Nat := 80

/-! ### Names -/

def isBare (c : Char) : Bool :=
  Numeral.isDigit c || (97 ≤ c.toNat && c.toNat ≤ 122) || (65 ≤ c.toNat && c.toNat ≤ 90) ||
    c = '-' || c = '_'

def part? : List Char → Option (String × List Char)
  | '"' :: rest => (basic? rest).map fun (text, after) => (String.ofList text, after)
  | '\'' :: rest => (literal? rest).map fun (text, after) => (String.ofList text, after)
  | cs =>
    let name := cs.takeWhile isBare
    if name.isEmpty then none else some (String.ofList name, cs.dropWhile isBare)

/-- A name of at most so many parts with dots between them: all but its last part, and the last. -/
def name? : Nat → List Char → Option ((List String × String) × List Char)
  | 0, _ => none
  | limit + 1, cs => do
    let (part, rest) ← part? (skipBlanks cs)
    match skipBlanks rest with
    | '.' :: rest =>
      let ((path, last), rest) ← name? limit rest
      return ((part :: path, last), rest)
    | rest => return (([], part), rest)

/-! ### Values -/

def scalar? (cs : List Char) : Option (Json × List Char) :=
  match moment? cs with
  -- No setting is a date, so any other kind of value stands in for one.
  | some rest => some (.obj [], rest)
  | none => (float? cs).or (integer? cs)

/-- A value that holds no others. -/
def plain? : List Char → Option (Json × List Char)
  | 't' :: 'r' :: 'u' :: 'e' :: rest => some (.bool true, rest)
  | 'f' :: 'a' :: 'l' :: 's' :: 'e' :: rest => some (.bool false, rest)
  | '"' :: rest => (text? ('"' :: rest)).map fun (text, after) => (.str (String.ofList text), after)
  | '\'' :: rest =>
    (text? ('\'' :: rest)).map fun (text, after) => (.str (String.ofList text), after)
  | cs => scalar? cs

mutual

/-- A value. The fuel bounds the number of values and symbols to be read, `depth` how deep values
may still be nested. -/
def value? (fuel depth : Nat) (cs : List Char) : Option (Json × List Char) :=
  match fuel, cs with
  | 0, _ => none
  | fuel + 1, '[' :: rest =>
    match depth with
    | 0 => none
    | depth + 1 => do
      let (items, rest) ← items? fuel depth rest
      return (.arr items, rest)
  | fuel + 1, '\x7b' :: rest =>
    match depth with
    | 0 => none
    | depth + 1 =>
      match skipBlanks rest with
      | '\x7d' :: rest => some (.obj [], rest)
      | rest => do
        let (table, rest) ← fields? fuel depth .empty rest
        return (table.json, rest)
  | _ + 1, cs => plain? cs

def items? (fuel depth : Nat) (cs : List Char) : Option (List Json × List Char) :=
  match fuel with
  | 0 => none
  | fuel + 1 => do
    match ← skipLines false cs with
    | ']' :: rest => return ([], rest)
    | cs =>
      let (v, rest) ← value? fuel depth cs
      match ← skipLines false rest with
      | ']' :: rest => return ([v], rest)
      | ',' :: rest =>
        let (items, rest) ← items? fuel depth rest
        return (v :: items, rest)
      | _ => none

def fields? (fuel depth : Nat) (table : Node) (cs : List Char) : Option (Node × List Char) :=
  match fuel with
  | 0 => none
  | fuel + 1 => do
    let ((path, name), rest) ← name? (maxDepth - 1) cs
    let rest ← after? '=' rest
    let (v, rest) ← value? fuel depth (skipBlanks rest)
    let table ← table.assign path name v
    match skipBlanks rest with
    | '\x7d' :: rest => return (table, rest)
    | ',' :: rest => fields? fuel depth table rest
    | _ => none

end

/-! ### Documents -/

/-- A document, and the path to the table that is being filled. -/
structure Draft where
  root : Node := .empty
  current : List String := []

/-- A field of the current table, after its line's blanks. -/
def field? (d : Draft) (cs : List Char) : Option (Draft × List Char) := do
  let ((path, name), rest) ← name? (maxDepth - 1) cs
  let rest ← after? '=' rest
  -- Every value and every symbol takes a character, so this fuel is enough.
  let (v, rest) ← value? (2 * rest.length + 2) (maxDepth - 1) (skipBlanks rest)
  let root ← d.root.change false (·.assign path name v) d.current
  return ({ d with root }, ← lineEnd? rest)

def header? (d : Draft) : List Char → Option (Draft × List Char)
  | '[' :: cs => do
    let ((path, name), rest) ← name? (maxDepth - 1) cs
    let rest ← after? ']' (← after? ']' rest)
    return (⟨← d.root.openItem path name, path ++ [name]⟩, ← lineEnd? rest)
  | cs => do
    let ((path, name), rest) ← name? (maxDepth - 1) cs
    let rest ← after? ']' rest
    return (⟨← d.root.openTable path name, path ++ [name]⟩, ← lineEnd? rest)

/-- Read line after line, as many as the fuel allows. -/
def lines (fuel : Nat) (d : Draft) (cs : List Char) : Option Draft :=
  match fuel with
  | 0 => none
  | fuel + 1 =>
    match skipBlanks cs with
    | [] => some d
    | '[' :: rest => do
      let (d, rest) ← header? d rest
      lines fuel d rest
    | c :: rest =>
      -- A line without a field.
      if c = '#' || c = '\n' || c = '\r' then do lines fuel d (← lineEnd? (c :: rest))
      else do
        let (d, rest) ← field? d (c :: rest)
        lines fuel d rest

/-- The document that text stands for. A byte order mark before it is left out. -/
def parse? (s : String) : Option Json :=
  let cs := match s.toList with
    | '\ufeff' :: rest => rest
    | cs => cs
  (lines (cs.length + 1) {} cs).map fun d => d.root.json

end GrantCache.Toml
