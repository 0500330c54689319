import JavaRecords.Toml.Value

set_option autoImplicit false

namespace JavaRecords.Toml

/-- How a table came about, which decides what may be added to it later. -/
inductive Origin where
  /-- By the header of a table inside it. -/
  | implied
  /-- By a key with dots. -/
  | dotted
  /-- By a header of its own. -/
  | declared
  deriving DecidableEq, Repr

/-- What a key stands for. -/
inductive Item where
  | value (value : Value)
  | table (origin : Origin) (entries : List (Text × Item))
  /-- An array of tables that have headers in double brackets. -/
  | tables (elements : List (List (Text × Item)))
  deriving Repr

/-- A table that is being read. -/
structure Table where
  origin : Origin
  entries : List (Text × Item)
  deriving Repr

namespace Table

def find? (table : Table) (key : Text) : Option Item :=
  (table.entries.find? fun entry => entry.1 == key).map Prod.snd

def set (table : Table) (key : Text) (item : Item) : Table :=
  if (table.find? key).isSome then
    { table with
      entries := table.entries.map fun entry => if entry.1 == key then (key, item) else entry }
  else { table with entries := table.entries ++ [(key, item)] }

/-- Takes the item of a key away. -/
def erase (table : Table) (key : Text) : Table :=
  { table with entries := table.entries.filter fun entry => entry.1 != key }

/-- Changes the table at a path. Missing tables get the given origin. An array of tables stands for
its last table; a value is no table, and a key with dots does not enter a table that has a header.
-/
def update (origin : Origin) (change : Table → Option Table) : List Text → Table → Option Table
  | [], table => change table
  | key :: path, table =>
      match table.find? key with
      | none =>
          (update origin change path ⟨origin, []⟩).map fun child =>
            table.set key (.table child.origin child.entries)
      | some (.value _) => none
      | some (.table childOrigin entries) =>
          if origin = .dotted && childOrigin = .declared then none
          else
            (update origin change path ⟨childOrigin, entries⟩).map fun child =>
              table.set key (.table child.origin child.entries)
      | some (.tables elements) =>
          match elements.getLast? with
          | none => none
          | some last =>
              (update origin change path ⟨.declared, last⟩).map fun child =>
                table.set key (.tables (elements.dropLast ++ [child.entries]))

/-- Gives a key with dots a value. The key must be new, and the tables of its dots must not have
come about in another way. -/
def insert (path : List Text) (value : Value) (table : Table) : Option Table := do
  let key ← path.getLast?
  let above := path.dropLast
  table.update .dotted (fun inner =>
    if (inner.origin == .dotted) == above.isEmpty || (inner.find? key).isSome then none
    else some (inner.set key (.value value))) above

/-- Declares the table of a header. A table that was only implied before comes last from then on. -/
def declare (path : List Text) (table : Table) : Option Table := do
  let key ← path.getLast?
  table.update .implied (fun parent =>
    match parent.find? key with
    | none => some (parent.set key (.table .declared []))
    | some (.table .implied entries) =>
        some ((parent.erase key).set key (.table .declared entries))
    | some _ => none) path.dropLast

/-- Adds a table to the array of a header in double brackets. -/
def append (path : List Text) (table : Table) : Option Table := do
  let key ← path.getLast?
  table.update .implied (fun parent =>
    match parent.find? key with
    | none => some (parent.set key (.tables [[]]))
    | some (.tables elements) => some (parent.set key (.tables (elements ++ [[]])))
    | some _ => none) path.dropLast

end Table

mutual

def Item.toValue : Item → Value
  | .value value => value
  | .table _ entries => .table (entryValues entries)
  | .tables elements => .array (elementValues elements)

def entryValues : List (Text × Item) → List (Text × Value)
  | [] => []
  | (key, item) :: rest => (key, item.toValue) :: entryValues rest

def elementValues : List (List (Text × Item)) → List Value
  | [] => []
  | entries :: rest => .table (entryValues entries) :: elementValues rest

end

end JavaRecords.Toml
