/-
TOML values, and the tables of a document while it is read.

A table remembers how it came about, since that decides what may still be added to it. A header opens a table that is
new or was only implied by a longer header, and a key with points reaches only into tables that such keys made. Every
rule here either extends a document or refuses it.
-/
import StubTemplate.Number.Binary64

namespace StubTemplate

inductive Toml where
  | str (text : String)
  | integer (number : Int)
  | float (number : Binary64)
  | bool (flag : Bool)
  /-- a date, a time of day, or both -/
  | moment
  | array (items : List Toml)
  | table (fields : List (String × Toml))
  deriving Inhabited

namespace Toml

/-- how a table came about -/
inductive Origin where
  /-- a header of its own -/
  | header
  /-- a header that goes through it -/
  | implied
  /-- a key with points that goes through it -/
  | dotted
  deriving DecidableEq

/-- what stands under a key of a table in the making -/
inductive Item where
  | value (value : Toml)
  | table (origin : Origin) (items : List (String × Item))
  /-- an array of tables that headers made: the earlier ones, the latest of them first, and the last -/
  | tables (earlier : List (List (String × Item))) (last : List (String × Item))

abbrev Items := List (String × Item)

/-- changes what stands under a key, `none` standing for nothing; a refusal refuses the whole -/
def update (key : String) (change : Option Item → Option Item) : Items → Option Items
  | [] => (change none).map fun item => [(key, item)]
  | (k, item) :: rest =>
    if k = key then (change (some item)).map fun new => (k, new) :: rest
    else (update key change rest).map fun rest => (k, item) :: rest

/-- changes the table that a header's path leads to; of an array of tables that is the last -/
def within (change : Items → Option Items) : List String → Items → Option Items
  | [], items => change items
  | key :: path, items =>
    update key (fun
      | none => (within change path []).map (.table .implied)
      | some (.table origin inner) => (within change path inner).map (.table origin)
      | some (.tables earlier last) => (within change path last).map (.tables earlier)
      | some (.value _) => none) items

/-- puts a value under a key that has none -/
def define (key : String) (value : Toml) : Items → Option Items :=
  update key fun
    | none => some (.value value)
    | some _ => none

/-- puts a value under a key of the table that a path of keys leads to, from a table that came about as given -/
def defineFrom (key : String) (value : Toml) : Origin → List String → Items → Option Items
  | origin, [], items => if origin = .dotted then define key value items else none
  | _, first :: path, items =>
    update first (fun
      | none => (defineFrom key value .dotted path []).map (.table .dotted)
      | some (.table .header _) => none
      | some (.table origin inner) => (defineFrom key value origin path inner).map (.table origin)
      | some (.tables earlier last) => (defineFrom key value .header path last).map (.tables earlier)
      | some (.value _) => none) items

/-- puts a value under a key with points, given in parts, of the current table -/
def defineAt (path : List String) (key : String) (value : Toml) (items : Items) : Option Items :=
  if path = [] then define key value items else defineFrom key value .header path items

def openTable (path : List String) (key : String) : Items → Option Items :=
  within (update key fun
    | none => some (.table .header [])
    | some (.table .implied inner) => some (.table .header inner)
    | some _ => none) path

/-- adds a table to the array of a header in double brackets -/
def openElement (path : List String) (key : String) : Items → Option Items :=
  within (update key fun
    | none => some (.tables [] [])
    | some (.tables earlier last) => some (.tables (last :: earlier) [])
    | some _ => none) path

mutual

def ofItem : Item → Toml
  | .value value => value
  | .table _ items => .table (ofItems items)
  | .tables earlier last => .array ((ofTables earlier).reverse ++ [.table (ofItems last)])

def ofItems : Items → List (String × Toml)
  | [] => []
  | (key, item) :: rest => (key, ofItem item) :: ofItems rest

def ofTables : List Items → List Toml
  | [] => []
  | items :: rest => .table (ofItems items) :: ofTables rest

end

def field? (fields : List (String × Toml)) (key : String) : Option Toml :=
  (fields.find? (·.1 == key)).map Prod.snd

end Toml

end StubTemplate
