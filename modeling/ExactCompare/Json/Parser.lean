import ExactCompare.Json.Numeral

/-!
# Reading JSON text

The reader gives a tree for every text. Where the text makes no sense, or ends too
early, the tree is broken and nothing after it is read.
-/

namespace ExactCompare.Json

def isBlank (c : Char) : Bool := c == ' ' || c == '\n' || c == '\t' || c == '\r'

def skipBlanks (cs : List Char) : List Char := cs.dropWhile isBlank

/-! ## Strings -/

def hexDigit? (c : Char) : Option Nat :=
  if c.isDigit then some (c.toNat - 48)
  else if 'a' ≤ c ∧ c ≤ 'f' then some (c.toNat - 87)
  else if 'A' ≤ c ∧ c ≤ 'F' then some (c.toNat - 55)
  else none

/-- Four hex digits. Fewer than four bytes are a text that ends too early. -/
def readHex (cs : List Char) : Except Fault (Nat × List Char) :=
  match (cs.take 4).mapM hexDigit? with
  | some [a, b, c, d] => .ok (Digits.value 16 [a, b, c, d], cs.drop 4)
  | _ => .error (if Text.byteLength (cs.take 4) < 4 then .truncated else .malformed)

def simpleEscape? : Char → Option Char
  | '"' => some '"'
  | '\\' => some '\\'
  | '/' => some '/'
  | 'b' => some '\x08'
  | 'f' => some '\x0c'
  | 'n' => some '\n'
  | 'r' => some '\r'
  | 't' => some '\t'
  | _ => none

def isLeading (n : Nat) : Bool := 0xD800 ≤ n && n ≤ 0xDBFF

def isTrailing (n : Nat) : Bool := 0xDC00 ≤ n && n ≤ 0xDFFF

/-- The character of an escaped code. A leading surrogate needs a trailing one after it. -/
def readCode (cs : List Char) : Except Fault (Char × List Char) := do
  let (code, rest) ← readHex cs
  if isTrailing code then .error .malformed
  else if isLeading code then
    match rest with
    | [] | ['\\'] => .error .truncated
    | '\\' :: 'u' :: rest =>
      let (second, rest) ← readHex rest
      if isTrailing second then
        return (Char.ofNat (0x10000 + (code - 0xD800) * 0x400 + (second - 0xDC00)), rest)
      else .error .malformed
    | _ => .error .malformed
  else return (Char.ofNat code, rest)

/-- Reads up to the closing quote. The first argument bounds the length. -/
def readString : Nat → List Char → Except Fault (List Char × List Char)
  | 0, _ | _, [] | _, ['\\'] => .error .truncated
  | _, '"' :: rest => .ok ([], rest)
  | fuel + 1, '\\' :: 'u' :: rest => do
    let (c, rest) ← readCode rest
    let (cs, rest) ← readString fuel rest
    return (c :: cs, rest)
  | fuel + 1, '\\' :: c :: rest =>
    match simpleEscape? c with
    | none => .error .malformed
    | some c => do
      let (cs, rest) ← readString fuel rest
      return (c :: cs, rest)
  | fuel + 1, c :: rest =>
    if c.toNat < 32 then .error .malformed
    else do
      let (cs, rest) ← readString fuel rest
      return (c :: cs, rest)

/-- Finds the closing quote of a string whose codes need not be characters. -/
def skipString : Nat → List Char → Except Fault (List Char)
  | 0, _ | _, [] | _, ['\\'] => .error .truncated
  | _, '"' :: rest => .ok rest
  | fuel + 1, '\\' :: 'u' :: rest => do
    let (_, rest) ← readHex rest
    skipString fuel rest
  | fuel + 1, '\\' :: c :: rest =>
    if (simpleEscape? c).isSome then skipString fuel rest else .error .malformed
  | fuel + 1, c :: rest => if c.toNat < 32 then .error .malformed else skipString fuel rest

/-! ## Values -/

/-- A tree, and the text after it unless the tree is broken off. -/
abbrev Parsed (k : Kind) := Tree k × Option (List Char)

def brokenOff (b : Break) : Parsed .value := (.broken b, none)

def readStringValue (cs : List Char) : Parsed .value :=
  match readString (cs.length + 1) cs with
  | .ok (s, rest) => (.string (String.ofList s), some rest)
  | .error reading =>
    match skipString (cs.length + 1) cs with
    | .ok rest => (.broken ⟨false, reading, none⟩, some rest)
    | .error skipping => brokenOff ⟨false, reading, some skipping⟩

def readNumber (negative : Bool) (cs : List Char) : Parsed .value :=
  match readNumeral negative cs with
  | .ok (n, rest) => (n.toJson, some rest)
  | .error b => brokenOff b

/-- Reads the rest of a word. -/
def readWord (value : Json) : List Char → List Char → Parsed .value
  | [], rest => (value, some rest)
  | _ :: _, [] => brokenOff ⟨true, .truncated, some .truncated⟩
  | w :: word, c :: rest =>
    if c = w then readWord value word rest
    else brokenOff ⟨true, .malformed, some .malformed⟩

/-- What follows an item or a member: a comma, the closing bracket, or a fault. -/
inductive After where
  | more (rest : List Char)
  | closed (rest : List Char)
  | fault (f : Fault)

def after (bracket : Char) (cs : List Char) : After :=
  match skipBlanks cs with
  | [] => .fault .truncated
  | c :: rest =>
    if c = ',' then .more rest
    else if c = bracket then .closed rest
    else .fault .malformed

/-- Whether a text begins with this key, spelled without escapes. -/
def isSpelled (key : Json) (cs : List Char) : Bool :=
  match key with
  | .string s => ('"' :: s.toList ++ ['"']).isPrefixOf cs
  | _ => false

/-- Reads a value, the items of an array up to its bracket, or the members of an
object up to its brace. The first argument bounds the number of steps. -/
def parseTree : Nat → (k : Kind) → List Char → Parsed k
  | 0, .value, _ => brokenOff ⟨true, .truncated, some .truncated⟩
  | 0, .items, _ => (.brokenItems .truncated, none)
  | 0, .members, _ => (.brokenMembers .truncated, none)
  | fuel + 1, .value, cs =>
    match skipBlanks cs with
    | [] => brokenOff ⟨false, .truncated, some .truncated⟩
    | 'n' :: rest => readWord .null ['u', 'l', 'l'] rest
    | 't' :: rest => readWord (.bool true) ['r', 'u', 'e'] rest
    | 'f' :: rest => readWord (.bool false) ['a', 'l', 's', 'e'] rest
    | '-' :: rest => readNumber true rest
    | '"' :: rest => readStringValue rest
    | '[' :: rest =>
      match skipBlanks rest with
      | [] => (.array (.brokenItems .truncated), none)
      | ']' :: rest => (.array .endItems, some rest)
      | rest =>
        let (items, rest) := parseTree fuel .items rest
        (.array items, rest)
    | '\x7b' :: rest =>
      match skipBlanks rest with
      | [] => (.object (.brokenMembers .truncated), none)
      | '\x7d' :: rest => (.object .endMembers, some rest)
      | rest =>
        let (members, rest) := parseTree fuel .members rest
        (.object members, rest)
    | c :: rest =>
      if c.isDigit then readNumber false (c :: rest)
      else brokenOff ⟨true, .malformed, some .malformed⟩
  | fuel + 1, .items, cs =>
    match parseTree fuel .value cs with
    | (value, none) => (.item value (.brokenItems .malformed), none)
    | (value, some rest) =>
      match after ']' rest with
      | .more rest =>
        let (items, rest) := parseTree fuel .items rest
        (.item value items, rest)
      | .closed rest => (.item value .endItems, some rest)
      | .fault f => (.item value (.brokenItems f), none)
  | fuel + 1, .members, cs =>
    let missing (f : Fault) : Json := .broken ⟨false, f, some f⟩
    let (key, afterKey) := parseTree fuel .value cs
    let member := Tree.member key (isSpelled key (skipBlanks cs))
    match afterKey.map skipBlanks with
    | none => (member (missing .malformed) (.brokenMembers .malformed), none)
    | some [] => (member (missing .truncated) (.brokenMembers .malformed), none)
    | some (':' :: rest) =>
      match parseTree fuel .value rest with
      | (value, none) => (member value (.brokenMembers .malformed), none)
      | (value, some rest) =>
        match after '\x7d' rest with
        | .more rest =>
          let (members, rest) := parseTree fuel .members rest
          (member value members, rest)
        | .closed rest => (member value .endMembers, some rest)
        | .fault f => (member value (.brokenMembers f), none)
    | some _ => (member (missing .malformed) (.brokenMembers .malformed), none)

/-! ## Documents -/

/-- A value and what is wrong after it. -/
structure Document where
  value : Json
  trailing : Option Fault

def parse (text : String) : Document :=
  let cs := text.toList
  match parseTree (2 * cs.length + 2) .value cs with
  | (value, none) => ⟨value, none⟩
  | (value, some rest) => ⟨value, if (skipBlanks rest).isEmpty then none else some .malformed⟩

end ExactCompare.Json
