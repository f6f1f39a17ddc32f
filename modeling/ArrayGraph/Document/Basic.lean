/-!
# Documents

A `Document` is what a structured text says, whatever the notation: a tree of lists
and tables over texts, integers and the like. `Document.record?` reads a document as
a record of named fields.

An `Outline` is a document to be written: fields, and sections of fields.
-/

namespace ArrayGraph

inductive Document
  | null
  | boolean (b : Bool)
  | integer (n : Int)
  /-- A number that is not written as an integer. -/
  | number
  | text (s : String)
  | list (items : List Document)
  | table (members : List (String × Document))
  /-- A text, or a table with a key, whose escapes spell no characters. -/
  | unspelled

namespace Document

/-- What a document gives for each of these keys, in their order. A table must not
give one of them twice, and may have other keys. A list gives the fields in order as
far as it goes; a closed list must not go on after the last of them. -/
def record? (closed : Bool) (keys : List String) : Document → Option (List (Option Document))
  | table members =>
    if keys.all fun key => (members.filter (·.1 == key)).length ≤ 1 then
      some (keys.map fun key => members.lookup key)
    else none
  | list items =>
    if closed && keys.length < items.length then none
    else some ((List.range keys.length).map (items[·]?))
  | _ => none

/-- What is read of a field, or a default if the field is not given. -/
def orDefault {α : Type} (read : Document → Option α) (default : α) :
    Option Document → Option α
  | some d => read d
  | none => some default

/-- A count that fits 64 bits. -/
def toCount? : Document → Option UInt64
  | integer n => if 0 ≤ n ∧ n < UInt64.size then some (UInt64.ofNat n.toNat) else none
  | _ => none

def toText? : Document → Option String
  | text s => some s
  | _ => none

/-- A text, or nothing where the document says so. -/
def toOptionalText? : Document → Option (Option String)
  | null => some none
  | text s => some (some s)
  | _ => none

end Document

/-! ## Outlines -/

/-- What a field of an outline holds. -/
inductive OutlineField
  | count (n : Nat)
  | text (s : String)
  | absent
  deriving DecidableEq, Repr

structure Outline where
  fields : List (String × OutlineField)
  sections : List (String × List (String × OutlineField))
  deriving DecidableEq, Repr

end ArrayGraph
