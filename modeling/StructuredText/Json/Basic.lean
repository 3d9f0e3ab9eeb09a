/-!
# JSON values

A number is kept as it is written, since nothing here computes with it. The fields of an object
keep the order in which their names were first given; of two fields of one name the later value
holds.
-/

namespace StructuredText

inductive Json where
  | null
  | bool (value : Bool)
  | number (text : String)
  | string (value : String)
  | array (items : List Json)
  | object (fields : List (String × Json))
deriving Repr, BEq

namespace Json

/-- Gives the field `name` a value. -/
def setField (fields : List (String × Json)) (name : String) (value : Json) :
    List (String × Json) :=
  match fields with
  | [] => [(name, value)]
  | (other, old) :: rest =>
      if other = name then (name, value) :: rest
      else (other, old) :: setField rest name value

end Json

end StructuredText
