import ExactCompare.Json.Parser
import ExactCompare.Text.Quoted

/-!
# The shape of a document

Readers that take a JSON tree of a known shape apart. They go through the tree in
the order of the text, and the first fault or error ends them.
-/

namespace ExactCompare.Json

/-! ## Errors -/

/-- What stands where something else was expected. -/
inductive Found where
  | integer (n : Int)
  | float (b : Double)
  | boolean (b : Bool)
  | string (s : String)
  | null | sequence | map | unitVariant
  deriving DecidableEq

inductive Error where
  | fault (f : Fault)
  | invalidType (found : Found) (expected : String)
  | invalidValue (found : Found) (expected : String)
  | invalidLength (length : Nat) (expected : String)
  | unknownField (name : String) (known : List String)
  | unknownVariant (name : String) (known : List String)
  | missingField (name : String)
  | duplicateField (name : String)
  /-- The value has the right shape and is refused by a rule of its type. -/
  | refused (message : String)
  deriving DecidableEq

def Fault.message : Fault → String
  | malformed => "syntax"
  | truncated => "eof"

def inBackticks (s : String) : String := "`" ++ s ++ "`"

def Found.text : Found → String
  | integer n => "integer " ++ inBackticks (toString n)
  | float b =>
    "floating point " ++ inBackticks (String.ofList (b.chars?.getD ['N', 'a', 'N']))
  | boolean b => "boolean " ++ inBackticks (if b then "true" else "false")
  | string s => "string " ++ Text.quoted s
  | null => "null"
  | sequence => "sequence"
  | map => "map"
  | unitVariant => "unit variant"

/-- Two names are joined by "or". More are listed. -/
def oneOf : List String → String
  | [a] => inBackticks a
  | [a, b] => inBackticks a ++ " or " ++ inBackticks b
  | names => "one of " ++ ", ".intercalate (names.map inBackticks)

def Error.message : Error → String
  | fault f => f.message
  | invalidType found expected => "invalid type: " ++ found.text ++ ", expected " ++ expected
  | invalidValue found expected => "invalid value: " ++ found.text ++ ", expected " ++ expected
  | invalidLength length expected =>
    "invalid length " ++ toString length ++ ", expected " ++ expected
  | unknownField name known =>
    "unknown field " ++ inBackticks name ++ ", expected " ++ oneOf known
  | unknownVariant name known =>
    "unknown variant " ++ inBackticks name ++ ", expected " ++ oneOf known
  | missingField name => "missing field " ++ inBackticks name
  | duplicateField name => "duplicate field " ++ inBackticks name
  | refused message => message

abbrev Reader (α : Type) := Json → Except Error α

/-- The error for a value of another type than expected. -/
def unexpected {α : Type} (expected : String) (j : Json) : Except Error α :=
  let found (f : Found) : Except Error α := .error (.invalidType f expected)
  match j with
  | .null => found .null
  | .bool b => found (.boolean b)
  | .integer n => found (.integer n)
  | .float _ b => found (.float (b.convert .binary64))
  | .string s => found (.string s)
  | .array _ => found .sequence
  | .object _ => found .map
  | .broken b => .error (.fault b.reading)

/-! ## Scalars -/

def readBool : Reader Bool
  | .bool b => .ok b
  | j => unexpected "a boolean" j

def readText : Reader String
  | .string s => .ok s
  | j => unexpected "a string" j

/-- A string that a rule turns into a value. -/
def readParsed {ε α : Type} (parse : String → Except ε α) (message : ε → String) : Reader α :=
  fun j => do
    let s ← readText j
    (parse s).mapError fun e => .refused (message e)

def readInteger (low high : Int) (expected : String) : Reader Int
  | .integer n =>
    if low ≤ n ∧ n ≤ high then .ok n else .error (.invalidValue (.integer n) expected)
  | j => unexpected expected j

/-- The float nearest to a number. -/
def readFloat (f : BinaryFormat) (expected : String) : Reader (Binary f)
  | .integer n => .ok (.ofInt f n)
  | .float _ b => .ok (b.convert f)
  | j => unexpected expected j

def readUnit : Reader Unit
  | .null => .ok ()
  | j => unexpected "unit" j

/-! ## Enumerations -/

inductive Variant (α : Type) where
  | unit (name : String) (value : α)
  | payload (name : String) (kind : String) (read : Reader α)

namespace Variant

variable {α : Type}

def name : Variant α → String
  | unit name _ => name
  | payload name _ _ => name

/-- Reads a variant that is only named. -/
def readNamed : Variant α → Except Error α
  | unit _ value => .ok value
  | payload _ kind _ => .error (.invalidType .unitVariant kind)

/-- Reads a variant from the value under its name. -/
def readMember : Variant α → Reader α
  | unit _ value, j => (readUnit j).map fun _ => value
  | payload _ _ read, j => read j

def find (variants : List (Variant α)) (name : String) : Except Error (Variant α) :=
  match variants.find? (·.name = name) with
  | some v => .ok v
  | none => .error (.unknownVariant name (variants.map (·.name)))

end Variant

/-- An object that names a variant or wraps a number has no second member. -/
def onlyMember : Tree .members → Except Error Unit
  | .endMembers => .ok ()
  | .brokenMembers f => .error (.fault f)
  | .member _ _ _ _ => .error (.fault .malformed)

/-- A variant is a string, or an object with one member. Anything else is refused
without a look at it. -/
def readVariant {α : Type} (variants : List (Variant α)) : Reader α
  | .string name => do (← Variant.find variants name).readNamed
  | .object (.member (.string name) _ value rest) => do
    let a ← (← Variant.find variants name).readMember value
    onlyMember rest
    return a
  | .object (.member key _ _ _) => .error (.fault key.notString)
  | .object (.brokenMembers f) => .error (.fault f)
  | j => .error (.fault j.notString)

/-! ## Records -/

/-- A field of a record that is read into a draft. -/
structure Field (σ : Type) where
  name : String
  isSet : σ → Bool
  read : σ → Reader σ

/-- A record is an object, or an array with the fields in order. -/
structure Shape (σ : Type) where
  name : String
  fields : List (Field σ)
  /-- A strict record has no other fields. -/
  strict : Bool
  /-- The last items of an array may be missing. -/
  lenientEnd : Bool

namespace Shape

variable {σ : Type}

def expected (s : Shape σ) : String :=
  s.name ++ " with " ++ toString s.fields.length ++
    if s.fields.length = 1 then " element" else " elements"

/-- A name is looked at before the value that follows it. -/
def readMembers (s : Shape σ) (draft : σ) : Tree .members → Except Error σ
  | .endMembers => .ok draft
  | .brokenMembers f => .error (.fault f)
  | .member (.string name) _ value rest =>
    match s.fields.find? (·.name = name) with
    | some field =>
      if field.isSet draft then .error (.duplicateField name)
      else do
        let draft ← field.read draft value
        s.readMembers draft rest
    | none =>
      if s.strict then .error (.unknownField name (s.fields.map (·.name)))
      else
        match value.fault? with
        | some f => .error (.fault f)
        | none => s.readMembers draft rest
  | .member key _ _ _ => .error (.fault key.notString)

def readItems (s : Shape σ) (draft : σ) : List (Field σ) → Tree .items → Except Error σ
  | _, .brokenItems f => .error (.fault f)
  | [], .endItems => .ok draft
  | [], .item _ _ => .error (.fault .malformed)
  | missing, .endItems =>
    if s.lenientEnd then .ok draft
    else .error (.invalidLength (s.fields.length - missing.length) s.expected)
  | field :: fields, .item value rest => do
    let draft ← field.read draft value
    s.readItems draft fields rest

def read (s : Shape σ) (empty : σ) : Reader σ
  | .object members => s.readMembers empty members
  | .array items => s.readItems empty s.fields items
  | j => unexpected s.name j

end Shape

/-- A field that has to be there. -/
def required {α : Type} (name : String) : Option α → Except Error α
  | some a => .ok a
  | none => .error (.missingField name)

end ExactCompare.Json
