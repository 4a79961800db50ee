import GrantCache.Json

/-!
# Tables of TOML

A document is built by filling in tables. A table knows where it came from, because that decides who
may still add to it: a header may complete a table that was only implied by the header of a table in
it, and a dotted name may add only to tables that no header has opened.
-/

namespace GrantCache.Toml

/-- Where a table came from. -/
inductive Origin where
  /-- It was opened by a header of its own, or is the document. -/
  | header
  /-- It was implied by the header of a table in it. -/
  | implied
  /-- It was made by a dotted name. -/
  | dotted
deriving DecidableEq, Inhabited

/-- A value, a table, or several tables under one name. -/
inductive Node where
  | value (v : Json)
  | table (origin : Origin) (fields : List (String × Node))
  /-- Tables under one name, the latest first. -/
  | tables (items : List Node)
deriving Inhabited

namespace Node

/-- The fields of a table, or of the latest of several. -/
def fields : Node → List (String × Node)
  | table _ fs => fs
  | tables (table _ fs :: _) => fs
  | _ => []

def find? (name : String) (n : Node) : Option Node := (n.fields.find? (·.1 = name)).map (·.2)

/-- Put a child into a table, or into the latest of several, in place of what was there. -/
def put (n : Node) (name : String) (child : Node) : Node :=
  match n with
  | table origin fs => table origin (fs.filter (·.1 ≠ name) ++ [(name, child)])
  | tables (table origin fs :: rest) =>
    tables (table origin (fs.filter (·.1 ≠ name) ++ [(name, child)]) :: rest)
  | n => n

mutual

/-- The document that a table stands for. How its tables came about does not matter any more. -/
def json : Node → Json
  | value v => v
  | table _ fs => .object (fieldJsons fs)
  | tables items => .arr (itemJsons items).reverse

def fieldJsons : List (String × Node) → List (String × Json)
  | [] => []
  | (name, n) :: rest => (name, json n) :: fieldJsons rest

def itemJsons : List Node → List Json
  | [] => []
  | n :: rest => json n :: itemJsons rest

end

def empty : Node := table .header []

/-! ### Filling in -/

/-- Change the table at the end of a path; tables that are missing on the way are made. A dotted
path may not lead through a table that a header has opened. -/
def change (dotted : Bool) (f : Node → Option Node) : List String → Node → Option Node
  | [], n => f n
  | name :: rest, n =>
    match n.find? name with
    | none =>
      -- How a table came about decides who may add to it later.
      let origin : Origin := if dotted then .dotted else .implied
      (change dotted f rest (table origin [])).map fun child => n.put name child
    | some (value _) => none
    | some (table origin fs) =>
      if dotted ∧ origin = .header then none
      else (change dotted f rest (table origin fs)).map fun child => n.put name child
    | some (tables items) =>
      (change dotted f rest (tables items)).map fun child => n.put name child

def isDotted : Node → Bool
  | table .dotted _ => true
  | _ => false

/-- Let a dotted name stand for a value in a table. The name must be new, and a dotted name may add
only to a table that was made by one. -/
def assign (path : List String) (name : String) (v : Json) : Node → Option Node :=
  change true (fun n =>
    -- A plain name adds to a table that no dotted name has made, a dotted one only to such a table.
    if n.isDotted = path.isEmpty then none
    else if (n.find? name).isSome then none
    else some (n.put name (value v))) path

/-- Open a table by its own header. A table that is there already can be opened only if it was
implied. -/
def openTable (path : List String) (name : String) : Node → Option Node :=
  change false (fun n =>
    match n.find? name with
    | none => some (n.put name (table .header []))
    -- An implied table may be opened once.
    | some (table .implied fs) => some (n.put name (table .header fs))
    | some _ => none) path

/-- Open one more table of a list by its header. -/
def openItem (path : List String) (name : String) : Node → Option Node :=
  change false (fun n =>
    match n.find? name with
    | none => some (n.put name (tables [table .header []]))
    | some (tables items) => some (n.put name (tables (table .header [] :: items)))
    | some _ => none) path

end Node

end GrantCache.Toml
