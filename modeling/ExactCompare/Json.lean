import ExactCompare.Binary.Text
import ExactCompare.Text

/-!
# JSON

A tree of JSON values. The items of an array and the members of an object are
trees, too, so one recursion covers all of them. Text that breaks off or makes no
sense gives a tree that is broken where the fault is. A reader that goes through
the tree in order meets either the fault or an error of its own first.
-/

namespace ExactCompare

namespace Json

inductive Fault where
  | malformed | truncated
  deriving DecidableEq

/-- What stops a reader at a broken value. A value that makes no sense may still be
skipped by a reader that does not look at it. -/
structure Break where
  /-- The value began as a number or a word, not as a string. -/
  inWord : Bool
  reading : Fault
  skipping : Option Fault
  deriving DecidableEq

inductive Kind where
  | value | items | members

inductive Tree : Kind → Type where
  | null : Tree .value
  | bool (b : Bool) : Tree .value
  | integer (n : Int) : Tree .value
  | float (f : BinaryFormat) (b : Binary f) : Tree .value
  | string (s : String) : Tree .value
  | array (items : Tree .items) : Tree .value
  | object (members : Tree .members) : Tree .value
  | broken (b : Break) : Tree .value
  | endItems : Tree .items
  | brokenItems (f : Fault) : Tree .items
  | item (value : Tree .value) (rest : Tree .items) : Tree .items
  | endMembers : Tree .members
  | brokenMembers (f : Fault) : Tree .members
  /-- A key that is not a string is broken, too: nothing after it is read. A verbatim
  key is spelled without escapes. -/
  | member (key : Tree .value) (verbatim : Bool) (value : Tree .value)
      (rest : Tree .members) : Tree .members

end Json

abbrev Json := Json.Tree .value

namespace Json

/-! ## Skipping -/

/-- The fault where a string is missing. Only a string that breaks off is truncated. -/
def Tree.notString : Json → Fault
  | .broken b => if b.inWord then .malformed else b.reading
  | _ => .malformed

/-- The fault in a key that nobody looks at. -/
def Tree.keyFault? : Json → Option Fault
  | .string _ => none
  | .broken b => if b.inWord then some .malformed else b.skipping
  | _ => some .malformed

/-- The first fault in a tree that nobody looks at. -/
def Tree.fault? : {k : Kind} → Tree k → Option Fault
  | _, .broken b => b.skipping
  | _, .array items => items.fault?
  | _, .object members => members.fault?
  | _, .brokenItems f | _, .brokenMembers f => some f
  | _, .item value rest => value.fault?.or rest.fault?
  | _, .member key _ value rest => key.keyFault?.or (value.fault?.or rest.fault?)
  | _, _ => none

/-! ## Writing -/

/-- A character below the blank has a short name or is written as its code. -/
def escaped (c : Char) : List Char :=
  match c with
  | '"' => ['\\', '"']
  | '\\' => ['\\', '\\']
  | '\n' => ['\\', 'n']
  | '\r' => ['\\', 'r']
  | '\t' => ['\\', 't']
  | '\x08' => ['\\', 'b']
  | '\x0c' => ['\\', 'f']
  | c =>
    if c.toNat < 32 then
      ['\\', 'u', '0', '0', Nat.digitChar (c.toNat / 16), Nat.digitChar (c.toNat % 16)]
    else [c]

def quoted (s : String) : List Char := '"' :: s.toList.flatMap escaped ++ ['"']

/-- Writes a tree without blanks. A tree that is not broken is valid JSON. -/
def Tree.chars : {k : Kind} → Tree k → List Char
  | _, .null => ['n', 'u', 'l', 'l']
  | _, .bool true => ['t', 'r', 'u', 'e']
  | _, .bool false => ['f', 'a', 'l', 's', 'e']
  | _, .integer n => Digits.decimalInt n
  | _, .float _ b => b.chars?.getD ['n', 'u', 'l', 'l']
  | _, .string s => quoted s
  | _, .array items => '[' :: items.chars ++ [']']
  | _, .object members => '\x7b' :: members.chars ++ ['\x7d']
  | _, .item value .endItems => value.chars
  | _, .item value rest => value.chars ++ ',' :: rest.chars
  | _, .member key _ value .endMembers => key.chars ++ ':' :: value.chars
  | _, .member key _ value rest => key.chars ++ ':' :: value.chars ++ ',' :: rest.chars
  | _, _ => []

def text (j : Json) : String := String.ofList (Tree.chars j)

/-! ## Building -/

/-- Whether a string is written without escapes. -/
def isVerbatim (s : String) : Bool := s.toList.all fun c => escaped c == [c]

def members : List (String × Json) → Tree .members
  | [] => .endMembers
  | (key, value) :: rest => .member (.string key) (isVerbatim key) value (members rest)

def ofMembers (ms : List (String × Json)) : Json := .object (members ms)

end Json

end ExactCompare
