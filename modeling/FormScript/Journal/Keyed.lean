/-!
# Lists keyed by text

An association list with its keys in ascending order, each at most once.
-/

namespace FormScript

/-- Values under keys, the keys ascending. -/
abbrev Keyed (α : Type) := List (String × α)

namespace Keyed

/-- Changes the value under a key. A key that is not there yet is put in its place. -/
def change {α : Type} (key : String) (f : Option α → α) : Keyed α → Keyed α
  | [] => [(key, f none)]
  | (k, v) :: rest =>
    if key = k then (k, f (some v)) :: rest
    else if key < k then (key, f none) :: (k, v) :: rest
    else (k, v) :: change key f rest

/-- Puts a value under a key, in place of the one that is there. -/
def put {α : Type} (m : Keyed α) (key : String) (value : α) : Keyed α :=
  change key (fun _ => value) m

end Keyed

end FormScript
