import SiteTree.Number.Double

/-!
# JSON values

The values that templates are rendered with. An object is a list of named fields; the order
of the fields has no meaning, and whatever shows an order shows the fields sorted by name.

* `perm_sortFields` — sorting keeps the fields.
-/

namespace SiteTree

inductive Json where
  | null
  | bool (value : Bool)
  | int (value : Int)
  | double (value : Double)
  | string (value : String)
  | array (items : List Json)
  | object (fields : List (String × Json))
  deriving Inhabited

namespace Json

/-- Fields in the order of their names, by code points. -/
def sortFields {α : Type} (fields : List (String × α)) : List (String × α) :=
  fields.mergeSort fun a b => a.1 ≤ b.1

theorem perm_sortFields {α : Type} (fields : List (String × α)) :
    (sortFields fields).Perm fields :=
  List.mergeSort_perm _ _

/-- The field of a given name. -/
def field? (name : String) : Json → Option Json
  | .object fields => fields.lookup name
  | _ => none

end Json

end SiteTree
