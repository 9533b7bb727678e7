import ComponentEdit.Toml.Reader

/-!
# Assembling a TOML document

The statements of a document fill a tree of tables. A table is opened once, by
its own header or by dotted keys. A table that only a longer header has named may
still be opened in either way. Tables and arrays written as values are closed.
-/

namespace ComponentEdit.Toml
set_option autoImplicit false

/-- How a table came to be. -/
inductive Opening where
  /-- Named by a longer header only. -/
  | implied
  /-- Opened by its own header. -/
  | header
  /-- Opened by dotted keys. -/
  | dotted
deriving DecidableEq

/-- A part of a document that is still being filled. -/
inductive Tree where
  | closed (v : Value)
  | table (opening : Opening) (fields : List (String × Tree))
  | tables (items : List (List (String × Tree)))

/-- The fields of a table that is being filled. -/
abbrev Fields := List (String × Tree)

namespace Fields

/-- Put a tree under a key, in its place if the key is present. -/
def put (fs : Fields) (key : String) (t : Tree) : Fields :=
  if fs.any (·.1 == key) then fs.map fun f => if f.1 == key then (key, t) else f
  else fs ++ [(key, t)]

/-- The tree under a key. -/
def get? (fs : Fields) (key : String) : Option Tree := (fs.find? (·.1 == key)).map (·.2)

/-- Go down to the table that a header names by all but its last key, and
change it there. Of tables in an array the last one counts. -/
def alongHeader (change : Fields → Option Fields) : (path : List String) → Fields → Option Fields
  | [], fs => change fs
  | k :: ks, fs =>
    match get? fs k with
    | none => do some (put fs k (.table .implied (← alongHeader change ks [])))
    | some (.table o inner) => do some (put fs k (.table o (← alongHeader change ks inner)))
    | some (.tables items) => do
      let last ← items.getLast?
      some (put fs k (.tables (items.dropLast ++ [← alongHeader change ks last])))
    | some (.closed _) => none

/-- Open the table that a header names. -/
def openTable (key : String) (fs : Fields) : Option Fields :=
  match get? fs key with
  | none => some (put fs key (.table .header []))
  | some (.table .implied inner) => some (put fs key (.table .header inner))
  | some _ => none

/-- Add a table to the array that a header names. -/
def addTable (key : String) (fs : Fields) : Option Fields :=
  match get? fs key with
  | none => some (put fs key (.tables [[]]))
  | some (.tables items) => some (put fs key (.tables (items ++ [[]])))
  | some _ => none

/-- Set a dotted key. The tables that it names are opened by it, unless a header
has opened them already. It may pass through the last table of an array, but
sets no key in that table itself. -/
def assign (v : Value) : (path : List String) → Fields → Option Fields
  | [], _ => none
  | [k], fs => if fs.any (·.1 == k) then none else some (fs ++ [(k, .closed v)])
  | k :: ks, fs =>
    match get? fs k with
    | none => do some (put fs k (.table .dotted (← assign v ks [])))
    | some (.table .header _) => none
    | some (.table _ inner) => do some (put fs k (.table .dotted (← assign v ks inner)))
    | some (.tables items) =>
      if ks.length ≤ 1 then none
      else do
        let last ← items.getLast?
        some (put fs k (.tables (items.dropLast ++ [← assign v ks last])))
    | some (.closed _) => none

end Fields

mutual

/-- The value of a finished tree. -/
def Tree.toValue : Tree → Value
  | .closed v => v
  | .table _ fields => .table (Tree.toFields fields)
  | .tables items => .array (Tree.toTables items)

/-- The values of finished fields. -/
def Tree.toFields : List (String × Tree) → List (String × Value)
  | [] => []
  | (k, t) :: fs => (k, t.toValue) :: Tree.toFields fs

/-- The values of finished tables. -/
def Tree.toTables : List (List (String × Tree)) → List Value
  | [] => []
  | fs :: rest => .table (Tree.toFields fs) :: Tree.toTables rest

end

/-- A document that is being filled, and the header of its current section. -/
structure Draft where
  fields : Fields := []
  current : List String := []

namespace Draft

/-- Carry out one statement. -/
def step (d : Draft) : Statement → Option Draft
  | .table path => do
    let key ← path.getLast?
    some ⟨← Fields.alongHeader (Fields.openTable key) path.dropLast d.fields, path⟩
  | .arrayTable path => do
    let key ← path.getLast?
    some ⟨← Fields.alongHeader (Fields.addTable key) path.dropLast d.fields, path⟩
  | .assign path v => do
    some { d with fields := ← Fields.alongHeader (Fields.assign v path) d.current d.fields }

end Draft

/-- The fields of the document that a text denotes. A byte order mark in front
is left out. -/
def parse? (text : List Char) : Option (List (String × Value)) := do
  let text := match text with
    | '\ufeff' :: cs => cs
    | cs => cs
  let ss ← statements? (text.length + 1) text
  let d ← ss.foldlM Draft.step {}
  some (Tree.toFields d.fields)

end ComponentEdit.Toml
