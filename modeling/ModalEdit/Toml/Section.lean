import ModalEdit.Toml.Value

/-!
# Sections

A configuration is a list of sections. The first one has no header and describes the whole table. A
header names a table, or in double brackets a new element of an array of tables, and the pairs
behind it are entries of that table. The keys of headers and pairs are paths: the tables on the way
are made when they are missing.

What is written once is closed. A key has one value, a table has one header, and a table made by the
path of a pair gets no header. The path of a pair enters no table that has a header of its own, and
no path enters an array or a table that was written as a value.
-/

namespace ModalEdit.Toml

/-- How a table came into being. -/
inductive Origin where
  /-- By a header of its own, or as an element of an array of tables. -/
  | header
  /-- On the path of a header. -/
  | headerPath
  /-- On the path of a pair. -/
  | pairPath
deriving DecidableEq, Repr

/-- What a key stands for while the configuration is being read. -/
inductive Item where
  /-- A closed value. -/
  | value (v : Value)
  /-- A table that may still grow. -/
  | table (origin : Origin) (entries : List (String × Item))
  /-- An array of tables: the earlier ones, the latest first, and the last one, which may still
  grow. -/
  | tables (earlier : List Value) (last : List (String × Item))

/-- The entries of a table that is being read. -/
abbrev Items := List (String × Item)

/-- A pair of a path and a value. The key is the last step of the path. -/
structure Pair where
  path : List String
  key : String
  value : Value

/-- The header of a section. -/
structure Header where
  path : List String
  key : String
  /-- The header adds an element to an array of tables. -/
  isElement : Bool

mutual

/-- The value of an item. -/
def Item.close : Item → Value
  | .value v => v
  | .table _ entries => .table (closeAll entries)
  | .tables earlier last => .array ((.table (closeAll last) :: earlier).reverse)

/-- The values of the entries of a table. -/
def closeAll : List (String × Item) → List (String × Value)
  | [] => []
  | (k, i) :: rest => (k, i.close) :: closeAll rest

end

namespace Items

/-- Follow a path down from a table of the given origin and change the table at its end. -/
def descend (ofPair : Bool) (change : Origin → Items → Option Items) :
    List String → Origin → Items → Option Items
  | [], origin, t => change origin t
  | key :: path, _, t =>
    match List.lookup key t with
    | none => do
      let origin := if ofPair then Origin.pairPath else .headerPath
      let inner ← descend ofPair change path origin []
      return putEntry key (.table origin inner) t
    | some (.table origin inner) =>
      if ofPair ∧ origin = .header then none
      else do
        let inner ← descend ofPair change path origin inner
        return putEntry key (.table origin inner) t
    | some (.tables earlier last) => do
      let last ← descend ofPair change path .header last
      return putEntry key (.tables earlier last) t
    | some (.value _) => none

/-- Add a pair to a section. A path ends in a table that paths of pairs have made, and a key without
a path belongs to the section itself. -/
def add (t : Items) (p : Pair) : Option Items :=
  let change (origin : Origin) (t : Items) : Option Items :=
    if (origin == .pairPath) == p.path.isEmpty || (List.lookup p.key t).isSome then none
    else some (putEntry p.key (.value p.value) t)
  descend (!p.path.isEmpty) change p.path .header t

/-- Add pairs to a section. -/
def addAll (t : Items) (ps : List Pair) : Option Items := ps.foldlM add t

/-- Add a section with a header to the whole table. -/
def addSection (t : Items) (h : Header) (ps : List Pair) : Option Items :=
  let change (_ : Origin) (t : Items) : Option Items :=
    if h.isElement then do
      let element ← addAll [] ps
      match List.lookup h.key t with
      | none => return putEntry h.key (.tables [] element) t
      | some (.tables earlier last) =>
        return putEntry h.key (.tables (.table (closeAll last) :: earlier) element) t
      | some _ => none
    else
      match List.lookup h.key t with
      | none => do return putEntry h.key (.table .header (← addAll [] ps)) t
      | some (.table .headerPath inner) => do
        return putEntry h.key (.table .header (← addAll inner ps)) t
      | some _ => none
  descend false change h.path .header t

end Items

/-- The table that pairs without a header describe. -/
def tableOfPairs? (ps : List Pair) : Option Table := (Items.addAll [] ps).map closeAll

/-- The table that a configuration describes: the pairs before the first header, and the sections.
-/
def tableOfSections? (ps : List Pair) (sections : List (Header × List Pair)) : Option Table := do
  let t ← Items.addAll [] ps
  let t ← sections.foldlM (fun t s => Items.addSection t s.1 s.2) t
  return closeAll t

end ModalEdit.Toml
