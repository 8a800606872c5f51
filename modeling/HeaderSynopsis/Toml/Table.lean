import HeaderSynopsis.Data.Datum

namespace HeaderSynopsis.Toml

open Data

/-- How a table came about: as part of a longer header, through its own header, or as part of a
dotted key. -/
inductive Origin where
  | implied
  | header
  | dotted
deriving DecidableEq, Repr

/-- What a name stands for. A value is complete, also if it is a table or a list. -/
inductive Entry where
  | value (datum : Datum)
  | table (origin : Origin) (entries : List (String × Entry))
  | tables (elements : List (List (String × Entry)))

abbrev Entries := List (String × Entry)

def Entries.replace (entries : Entries) (name : String) (entry : Entry) : Entries :=
  entries.map fun old => if old.1 = name then (name, entry) else old

def changeLast (change : Entries → Option Entries) : List Entries → Option (List Entries)
  | [] => none
  | [last] => (change last).map ([·])
  | first :: rest => (changeLast change rest).map (first :: ·)

/-- Changes the table that a header names. Missing tables are implied, and of a list of tables the
last one is meant. -/
def Entries.atPath (change : Entries → Option Entries) : List String → Entries → Option Entries
  | [], entries => change entries
  | name :: path, entries =>
      match entries.lookup name with
      | none => (atPath change path []).map fun inner =>
          entries ++ [(name, .table .implied inner)]
      | some (.table origin inner) =>
          (atPath change path inner).map fun inner => entries.replace name (.table origin inner)
      | some (.tables elements) =>
          (changeLast (atPath change path) elements).map fun elements =>
            entries.replace name (.tables elements)
      | some (.value _) => none

def Entries.openTable (name : String) (entries : Entries) : Option Entries :=
  match entries.lookup name with
  | none => some (entries ++ [(name, .table .header [])])
  | some (.table .implied inner) => some (entries.replace name (.table .header inner))
  | _ => none

def Entries.openElement (name : String) (entries : Entries) : Option Entries :=
  match entries.lookup name with
  | none => some (entries ++ [(name, .tables [[]])])
  | some (.tables elements) => some (entries.replace name (.tables (elements ++ [[]])))
  | _ => none

/-- Gives a dotted key its value. No name gets two. On its way down the key passes through tables
without a header of their own and, in lists of tables, through the last one, but it ends only where
`takesName` holds: in the table under whose header it stands or in one that dotted keys made. -/
def Entries.assign (datum : Datum) (takesName : Bool) :
    List String → Entries → Option Entries
  | [], _ => none
  | [name], entries =>
      match takesName, entries.lookup name with
      | true, none => some (entries ++ [(name, .value datum)])
      | _, _ => none
  | name :: path, entries =>
      match entries.lookup name with
      | none => (assign datum true path []).map fun inner =>
          entries ++ [(name, .table .dotted inner)]
      | some (.table origin inner) =>
          if origin = .header then none
          else (assign datum (origin = .dotted) path inner).map fun inner =>
            entries.replace name (.table origin inner)
      | some (.tables elements) =>
          (changeLast (assign datum false path) elements).map fun elements =>
            entries.replace name (.tables elements)
      | some (.value _) => none

mutual

def Entry.toDatum : Entry → Datum
  | .value datum => datum
  | .table _ entries => .table (fieldsOf entries)
  | .tables elements => .list (elementsOf elements)

def fieldsOf : List (String × Entry) → List (String × Datum)
  | [] => []
  | (name, entry) :: rest => (name, entry.toDatum) :: fieldsOf rest

def elementsOf : List (List (String × Entry)) → List Datum
  | [] => []
  | entries :: rest => .table (fieldsOf entries) :: elementsOf rest

end

end HeaderSynopsis.Toml
