import Std.Data.ExtTreeSet
import FieldAuthorization.Document.Basic

/-!
Pruning: removal of selections that select nothing.

A fragment whose selections are all gone selects nothing, so its spreads go, which may empty the
selections around them and further fragments. The names of emptied fragments are collected in
rounds until a round adds none. An operation stays even if it is emptied.
-/

set_option autoImplicit false
set_option relaxedAutoImplicit false

namespace FieldAuthorization.Prune

/-- Names of fragments that select nothing. -/
abbrev Emptied := Std.ExtTreeSet String

mutual

/-- A selection without spreads of emptied fragments, or nothing if it had selections below it and
all of them are gone. -/
def pruneSelection (emptied : Emptied) : Selection → Option Selection
  | .field head items =>
    if items.isEmpty then some (.field head items)
    else
      let kept := pruneSelections emptied items
      if kept.isEmpty then none else some (.field head kept)
  | .spread head => if emptied.contains head.name then none else some (.spread head)
  | .inline head items =>
    let kept := pruneSelections emptied items
    if kept.isEmpty then none else some (.inline head kept)

def pruneSelections (emptied : Emptied) : List Selection → List Selection
  | [] => []
  | item :: rest =>
    match pruneSelection emptied item with
    | some kept => kept :: pruneSelections emptied rest
    | none => pruneSelections emptied rest

end

/-- Goes once through the fragments and adds those that are emptied by what is known so far. -/
def round (fragments : List Fragment) (emptied : Emptied) : Emptied :=
  fragments.foldl
    (fun emptied f =>
      if (pruneSelections emptied f.items).isEmpty then emptied.insert f.name else emptied)
    emptied

/-- Repeats rounds until one adds nothing; every other round adds a fragment, so their number bounds
the rounds. -/
def settle (fragments : List Fragment) : (bound : Nat) → Emptied → Emptied
  | 0, emptied => emptied
  | bound + 1, emptied =>
    let next := round fragments emptied
    if next = emptied then emptied else settle fragments bound next

/-- The fragments of a document that select nothing. -/
def emptiedFragments (d : Document) : Emptied :=
  settle d.fragments d.fragments.length ∅

def pruneDefinition (emptied : Emptied) : Definition → Option Definition
  | .operation o => some (.operation { o with items := pruneSelections emptied o.items })
  | .fragment f =>
    if emptied.contains f.name then none
    else some (.fragment { f with items := pruneSelections emptied f.items })

/-- A document without what selects nothing. -/
def pruneDocument (d : Document) : Document :=
  ⟨d.definitions.filterMap (pruneDefinition (emptiedFragments d))⟩

end FieldAuthorization.Prune
