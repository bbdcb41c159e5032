import ExactCompare.Json.Shape

/-!
# Codecs

A codec reads a value from a JSON tree and writes it as one. Codecs of records are
put together field by field.
-/

namespace ExactCompare.Json

structure Codec (α : Type) where
  read : Reader α
  write : α → Json

namespace Codec

variable {α β : Type}

/-- Reads a whole text. What follows the value is looked at last. -/
def decode (c : Codec α) (text : String) : Except Error α := do
  let document := parse text
  let a ← c.read document.value
  match document.trailing with
  | none => return a
  | some f => .error (.fault f)

def encode (c : Codec α) (a : α) : String := (c.write a).text

/-- Values that are written as their text. -/
def ofText {ε : Type} (parse : String → Except ε α) (message : ε → String) (text : α → String) :
    Codec α where
  read := readParsed parse message
  write a := .string (text a)

/-- Values that are written as their names. -/
def ofNames (all : List α) (name : α → String) : Codec α where
  read := readVariant (all.map fun a => .unit (name a) a)
  write a := .string (name a)

/-- The payload of a variant, as the whole value. -/
def variant (c : Codec α) (name : String) (wrap : α → β) : Variant β :=
  .payload name "newtype variant" fun j => wrap <$> c.read j

def writeVariant (c : Codec α) (name : String) (a : α) : Json := ofMembers [(name, c.write a)]

end Codec

/-! ## Records -/

/-- The fields of a record with values in `α`, read into drafts in `σ`. -/
structure Record (σ α : Type) where
  fields : List (Field σ)
  empty : σ
  finish : σ → Except Error α
  write : α → List (String × Json)

namespace Record

variable {σ α β : Type}

def nil : Record Unit Unit where
  fields := []
  empty := ()
  finish := .ok
  write _ := []

/-- A field of the rest of a record, in a draft of the whole. -/
def lift (f : Field σ) : Field (Option β × σ) where
  name := f.name
  isSet draft := f.isSet draft.2
  read draft j := (f.read draft.2 j).map fun rest => (draft.1, rest)

/-- Puts a field before the others. `finish` says what its absence means. -/
def fieldWith (name : String) (c : Codec β) (finish : Option β → Except Error β)
    (rest : Record σ α) : Record (Option β × σ) (β × α) where
  fields :=
    { name, isSet := fun draft => draft.1.isSome
      read := fun draft j => (c.read j).map fun b => (some b, draft.2) } :: rest.fields.map lift
  empty := (none, rest.empty)
  finish draft := do
    let b ← finish draft.1
    let a ← rest.finish draft.2
    return (b, a)
  write value := (name, c.write value.1) :: rest.write value.2

def field (name : String) (c : Codec β) (rest : Record σ α) : Record (Option β × σ) (β × α) :=
  fieldWith name c (required name) rest

def fieldOr (name : String) (c : Codec β) (absent : β) (rest : Record σ α) :
    Record (Option β × σ) (β × α) :=
  fieldWith name c (fun b => .ok (b.getD absent)) rest

/-- The codec of a record. A lenient one has defaults for all its fields, and no others. -/
def codec (r : Record σ α) (name : String) (lenient : Bool) (ofFields : α → β)
    (toFields : β → α) : Codec β where
  read j := do
    let shape : Shape σ := { name, fields := r.fields, strict := lenient, lenientEnd := lenient }
    let draft ← shape.read r.empty j
    let a ← r.finish draft
    return ofFields a
  write b := ofMembers (r.write (toFields b))

end Record

end ExactCompare.Json
