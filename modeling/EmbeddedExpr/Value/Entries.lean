import EmbeddedExpr.Value.Basic

/-!
# Entries in the order of their keys

Maps, records and stores are lists of entries with strictly ascending keys.
Insertion keeps the order and replaces the entry of an equal key; looking up is
by equality of keys.
-/

namespace EmbeddedExpr

/-- Lists of keyed entries. -/
abbrev Entries (κ α : Type) := List (κ × α)

namespace Entries

variable {κ α : Type}

/-- Puts an entry before the first greater key, in place of an equal one. -/
def insert (cmp : κ → κ → Ordering) (key : κ) (value : α) : Entries κ α → Entries κ α
  | [] => [(key, value)]
  | (k, v) :: rest =>
    match cmp key k with
    | .lt => (key, value) :: (k, v) :: rest
    | .eq => (key, value) :: rest
    | .gt => (k, v) :: insert cmp key value rest

/-- The entries of a list inserted one after the other, so that the last of equal
keys stays. -/
def ofList (cmp : κ → κ → Ordering) (entries : List (κ × α)) : Entries κ α :=
  entries.foldl (fun acc (entry : κ × α) => acc.insert cmp entry.1 entry.2) []

/-- The value under a key. -/
def get? [DecidableEq κ] (entries : Entries κ α) (key : κ) : Option α :=
  match entries with
  | [] => none
  | (k, v) :: rest => if k = key then some v else get? rest key

/-- The entries without a key. -/
def erase [DecidableEq κ] (entries : Entries κ α) (key : κ) : Entries κ α :=
  List.filter (fun entry => decide (entry.1 ≠ key)) entries

def keys (entries : Entries κ α) : List κ := entries.map Prod.fst

end Entries

namespace Value

/-- The map that results from inserting entries one after the other. -/
def ofEntries (entries : List (MapKey × Value)) : Value :=
  .map (Entries.ofList MapKey.cmp entries)

end Value

end EmbeddedExpr
