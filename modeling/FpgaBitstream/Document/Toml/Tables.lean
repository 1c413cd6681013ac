import FpgaBitstream.Document

/-!
# TOML tables

The tree of tables that the lines of a TOML text build up. What a header or a dotted key may do to
a table depends on how the table came about, which is its `Origin`. `Builder` holds the tables that
are finished and the one that is being filled.
-/

namespace FpgaBitstream.Toml

/-- How a table came about: by its own header, as a parent in the header of another, or by a dotted
key. -/
inductive Origin where
  | header
  | parent
  | dotted
  deriving DecidableEq, Repr

/-- What a key stands for. The tables of an array are kept with the latest first. -/
inductive Item where
  | value (value : Document)
  | table (origin : Origin) (entries : List (String × Item))
  | tables (latestFirst : List (List (String × Item)))

/-- The entries of a table. -/
abbrev Entries := List (String × Item)

namespace Entries

/-- The item of a key. -/
def get? (entries : Entries) (key : String) : Option Item := entries.lookup key

/-- The entries with the item of a key added or replaced. -/
def set (entries : Entries) (key : String) (item : Item) : Entries :=
  match entries with
  | [] => [(key, item)]
  | (key', item') :: rest =>
    if key = key' then (key, item) :: rest else (key', item') :: set rest key item

/-- The entries with a value for a key that may be dotted. A dotted key may reach only into tables
that dotted keys made, and no key may be used twice. -/
def put? (key : String) (value : Document) : List String → Entries → Option Entries
  | [], entries =>
    match entries.get? key with
    | none => some (entries.set key (.value value))
    | some _ => none
  | part :: path, entries =>
    match entries.get? part with
    | none => do return entries.set part (.table .dotted (← put? key value path []))
    | some (.table origin inner) =>
      if origin = .header ∨ (path = [] ∧ origin ≠ .dotted) then none
      else do return entries.set part (.table origin (← put? key value path inner))
    | some (.tables (latest :: earlier)) =>
      if path = [] then none
      else do return entries.set part (.tables ((← put? key value path latest) :: earlier))
    | some (.tables []) => none
    | some (.value _) => none

/-- The entries with the table at the end of a path changed. Tables on the way are made where they
are missing, and the latest table of an array stands for the array. -/
def alter? (change : Entries → Option Entries) : List String → Entries → Option Entries
  | [], entries => change entries
  | part :: path, entries =>
    match entries.get? part with
    | none => do return entries.set part (.table .parent (← alter? change path []))
    | some (.table origin inner) => do
      return entries.set part (.table origin (← alter? change path inner))
    | some (.tables (latest :: earlier)) => do
      return entries.set part (.tables ((← alter? change path latest) :: earlier))
    | some (.tables []) => none
    | some (.value _) => none

/-- The entries of the table at the end of a path, none if it is missing. -/
def at? : List String → Entries → Option Entries
  | [], entries => some entries
  | part :: path, entries =>
    match entries.get? part with
    | none => some []
    | some (.table _ inner) => at? path inner
    | some (.tables (latest :: _)) => at? path latest
    | some (.tables []) => none
    | some (.value _) => none

end Entries

mutual

/-- The value of an item. -/
def Item.document : Item → Document
  | .value value => value
  | .table _ entries => .table (membersOf entries)
  | .tables latestFirst => .list (tablesOf latestFirst [])

/-- The members of a table. -/
def membersOf : List (String × Item) → List (Option String × Document)
  | [] => []
  | (key, item) :: rest => (some key, item.document) :: membersOf rest

/-- The tables of an array, the latest first, in front of those behind them. -/
def tablesOf : List (List (String × Item)) → List Document → List Document
  | [], behind => behind
  | entries :: earlier, behind => tablesOf earlier (.table (membersOf entries) :: behind)

end

/-- The tables that are finished, and the one that is being filled. -/
structure Builder where
  root : Entries := []
  /-- The header of the table that is being filled. -/
  path : List String := []
  /-- Whether it is an element of an array of tables. -/
  isElement : Bool := false
  current : Entries := []

namespace Builder

/-- Adds the table that is being filled to the finished ones. -/
def finish? (b : Builder) : Option Entries :=
  match b.path.getLast? with
  | none => some b.current
  | some key =>
    b.root.alter? (fun parent =>
      if b.isElement then
        match parent.get? key with
        | none => some (parent.set key (.tables [b.current]))
        | some (.tables tables) => some (parent.set key (.tables (b.current :: tables)))
        | some _ => none
      else some (parent.set key (.table .header b.current))) b.path.dropLast

/-- Begins the table of a header. A table that so far is only the parent of others may still get its
own header. -/
def beginTable? (b : Builder) (path : List String) : Option Builder := do
  let key ← path.getLast?
  let root ← (← b.finish?).alter? some path.dropLast
  match (← root.at? path.dropLast).get? key with
  | none => return { root, path, isElement := false, current := [] }
  | some (.table .parent inner) => return { root, path, isElement := false, current := inner }
  | some _ => none

/-- Begins the next table of an array of tables. -/
def beginElement? (b : Builder) (path : List String) : Option Builder := do
  let key ← path.getLast?
  let root ← (← b.finish?).alter? some path.dropLast
  match (← root.at? path.dropLast).get? key with
  | none => return { root, path, isElement := true, current := [] }
  | some (.tables _) => return { root, path, isElement := true, current := [] }
  | some _ => none

/-- Adds a value to the table that is being filled. -/
def put? (b : Builder) (path : List String) (value : Document) : Option Builder := do
  let key ← path.getLast?
  return { b with current := ← b.current.put? key value path.dropLast }

end Builder

end FpgaBitstream.Toml
