import JavaRecords.Text.Basic

set_option autoImplicit false

namespace JavaRecords

/-- Puts a value at a name into a list in the order of names, in place of the one that is there.
Names are ordered by their characters, which is also the order of their UTF-8 bytes. -/
def insertNamed {α : Type} (name : Text) (value : α) : List (Text × α) → List (Text × α)
  | [] => [(name, value)]
  | entry :: rest =>
      if name = entry.1 then (name, value) :: rest
      else if name < entry.1 then (name, value) :: entry :: rest
      else entry :: insertNamed name value rest

def lookupNamed {α : Type} (name : Text) (entries : List (Text × α)) : Option α :=
  (entries.find? fun entry => entry.1 == name).map Prod.snd

def sortNames (names : List Text) : List Text :=
  (names.foldl (fun sorted name => insertNamed name () sorted) []).map Prod.fst

end JavaRecords
