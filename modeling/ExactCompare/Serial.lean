import ExactCompare.Config
import ExactCompare.Json.Codec
import ExactCompare.Numeric.Text
import ExactCompare.Planner.Clause

/-!
# JSON forms

How each type is written in JSON. Names, numerics and operators are strings, object
ids are numbers, records are objects, and a value with a payload is an object with
one member.
-/

namespace ExactCompare

-- Powers are those that `Nat` and `Int` come with.
attribute [local instance (2000)] instPowNat

open Json (Codec Record Reader)

/-! ## Names -/

def Identifier.codec : Codec Identifier := .ofText parse IdentifierError.message name

def ComparisonOp.codec : Codec ComparisonOp := .ofText parse UnknownOperator.message symbol

def ColumnType.all : List ColumnType :=
  IntegerType.all.map integer ++ InexactType.all.map inexact

def ColumnType.codec : Codec ColumnType := .ofNames all name

/-- The name of an integer type among the types of literals. -/
def IntegerType.literalName : IntegerType → String
  | int2 => "SmallInt"
  | int4 => "Int"
  | int8 => "BigInt"

def InexactType.literalName : InexactType → String
  | numeric => "Numeric"
  | float4 => "Real"
  | float8 => "Double"

def IntegerType.codec : Codec IntegerType := .ofNames all literalName

def InexactType.codec : Codec InexactType := .ofNames all literalName

def AccessMethod.codec : Codec AccessMethod := .ofNames [btree, hash] name

def FamilyName.codec : Codec FamilyName := .ofNames all name

def MemberKind.name : MemberKind → String
  | operator => "Operator"
  | support => "Support"

def MemberKind.codec : Codec MemberKind := .ofNames [operator, support] name

def OperandOrder.name : OperandOrder → String
  | integerFirst => "IntegerFirst"
  | inexactFirst => "InexactFirst"

def OperandOrder.codec : Codec OperandOrder := .ofNames all name

def EqualityRegistration.name : EqualityRegistration → String
  | allFamilies => "all_families"
  | integerFamilyOnly => "integer_family_only"

def EqualityRegistration.codec : Codec EqualityRegistration :=
  .ofNames [allFamilies, integerFamilyOnly] name

/-! ## Numbers -/

def boolCodec : Codec Bool := ⟨Json.readBool, .bool⟩

def integerCodec (low high : Int) (expected : String) : Codec Int :=
  ⟨Json.readInteger low high expected, .integer⟩

def Oid.codec : Codec Oid where
  read j := do
    let n ← Json.readInteger 0 4294967295 "u32" j
    return ⟨n.toNat⟩
  write o := .integer o.number

def Numeric.codec : Codec Numeric := .ofText parse NumericError.message text

def floatCodec (f : BinaryFormat) (expected : String) : Codec (Binary f) :=
  ⟨Json.readFloat f expected, .float f⟩

/-- The exact decimal of a finite float, with as many places as it needs. A subnormal
float has as many as the smallest one. -/
def Binary.toDecimal {f : BinaryFormat} (b : Binary f) : Decimal :=
  match b.view with
  | .finite _ 0 _ => ⟨0, 0⟩
  | .finite negative mantissa exponent =>
    let signed : Int := if negative then -mantissa else mantissa
    if 0 ≤ exponent then ⟨signed * 2 ^ exponent.toNat, 0⟩
    else
      -- Twos shared with the denominator are taken out first.
      let shared :=
        if b.exponentField = 0 then 0 else (mantissa.gcd (2 ^ (-exponent).toNat)).log2
      let places := (-exponent).toNat - shared
      ⟨signed.tdiv (2 ^ shared) * 5 ^ places, places⟩
  | _ => ⟨0, 0⟩

/-- The key of an object that wraps a number. It has to be verbatim. -/
def numberKey : String := "$serde_json::private::Number"

/-- A decimal is a string as it is spelled, or a number, or wraps one of these. The
first argument is the number of brackets that may still be opened. -/
def Decimal.readValue : Nat → Reader Decimal
  | _, .string s => (Decimal.read s.toList).mapError fun e => .refused e.message
  | _, .integer n => .ok (.ofInt n)
  | _, .float _ b => .ok b.toDecimal
  | 0, .array _ | 0, .object _ => .error (.fault .malformed)
  | depth + 1, .object (.member (.string key) true value rest) =>
    if key = numberKey then do
      let d ← readValue depth value
      Json.onlyMember rest
      return d
    else .error (.invalidType .map expected)
  | _, j => Json.unexpected expected j
where
  expected : String := "a number or formatted decimal string"

/-- How deep the value of a decimal may be nested in its record. -/
def Decimal.maxDepth : Nat := 126

def Decimal.valueCodec : Codec Decimal where
  read := readValue maxDepth
  write d := .string d.text

def Decimal.codec : Codec Decimal :=
  (Record.nil.field "value" valueCodec).codec "struct IntermediateDecimal" false
    (fun (d, ()) => d) fun d => (d, ())

/-! ## Literals -/

def IntegerType.machineName : IntegerType → String
  | int2 => "i16"
  | int4 => "i32"
  | int8 => "i64"

def Literal.readInteger (t : IntegerType) : Reader Literal
  | .integer n =>
    if h : t.contains n = true then .ok (.integer t n h)
    else .error (.invalidValue (.integer n) t.machineName)
  | j => Json.unexpected t.machineName j

def float4Codec : Codec Float4 := floatCodec .binary32 "f32"

def float8Codec : Codec Float8 := floatCodec .binary64 "f64"

def Literal.codec : Codec Literal where
  read := Json.readVariant
    (IntegerType.all.map (fun t => .payload t.literalName "newtype variant" (readInteger t)) ++
      [Numeric.codec.variant InexactType.numeric.literalName fun n => .inexact (.numeric n),
        float4Codec.variant InexactType.float4.literalName fun b => .inexact (.float4 b),
        float8Codec.variant InexactType.float8.literalName fun b => .inexact (.float8 b)])
  write
    | .integer t n _ => Json.ofMembers [(t.literalName, .integer n)]
    | .inexact (.numeric n) => Numeric.codec.writeVariant InexactType.numeric.literalName n
    | .inexact (.float4 b) => float4Codec.writeVariant InexactType.float4.literalName b
    | .inexact (.float8 b) => float8Codec.writeVariant InexactType.float8.literalName b

/-! ## Records -/

def ColumnRef.codec : Codec ColumnRef :=
  (Record.nil |>.field "column_type" ColumnType.codec |>.field "column_id" Identifier.codec).codec
    "struct ColumnRef" false (fun (name, type, ()) => ⟨name, type⟩) fun c => (c.name, c.type, ())

def Family.codec : Codec Family :=
  (Record.nil |>.field "name" FamilyName.codec |>.field "method" AccessMethod.codec).codec
    "struct FamilyKey" false (fun (method, name, ()) => ⟨method, name⟩)
    fun f => (f.method, f.name, ())

def Signature.codec : Codec Signature :=
  (Record.nil |>.field "right" ColumnType.codec |>.field "left" ColumnType.codec
    |>.field "operator" ComparisonOp.codec).codec
    "struct OperatorSignature" false (fun (op, left, right, ()) => ⟨op, left, right⟩)
    fun s => (s.op, s.left, s.right, ())

def CrossOperator.codec : Codec CrossOperator :=
  (Record.nil |>.field "order" OperandOrder.codec |>.field "inexact_type" InexactType.codec
    |>.field "integer_type" IntegerType.codec |>.field "operator" ComparisonOp.codec).codec
    "struct CrossTypeOperator" false
    (fun (op, integer, inexact, order, ()) => ⟨op, integer, inexact, order⟩)
    fun c => (c.op, c.integer, c.inexact, c.order, ())

def SortSupport.codec : Codec SortSupport :=
  (Record.nil |>.field "order" OperandOrder.codec |>.field "inexact_type" InexactType.codec
    |>.field "integer_type" IntegerType.codec).codec
    "struct CrossTypeSortSupport" false
    (fun (integer, inexact, order, ()) => ⟨integer, inexact, order⟩)
    fun s => (s.integer, s.inexact, s.order, ())

def HashSupport.codec : Codec HashSupport :=
  (Record.nil |>.field "extended" boolCodec |>.field "target" InexactType.codec
    |>.field "integer_type" IntegerType.codec).codec
    "struct IntegerHashRoutine" false
    (fun (integer, target, extended, ()) => ⟨integer, target, extended⟩)
    fun h => (h.integer, h.target, h.extended, ())

def Routine.codec : Codec Routine where
  read := Json.readVariant [
    CrossOperator.codec.variant "Operator" .operator,
    SortSupport.codec.variant "SortSupport" .sortSupport,
    HashSupport.codec.variant "Hash" .hash]
  write
    | .operator c => CrossOperator.codec.writeVariant "Operator" c
    | .sortSupport s => SortSupport.codec.writeVariant "SortSupport" s
    | .hash h => HashSupport.codec.writeVariant "Hash" h

def Reduction.nativeCodec : Codec (ComparisonOp × Int) :=
  (Record.nil |>.field "integer_constant" (integerCodec IntegerType.int8.min IntegerType.int8.max
      "i64") |>.field "operator" ComparisonOp.codec).codec
    "struct variant RewriteResult::NativeComparison" false
    (fun (op, bound, ()) => (op, bound)) fun (op, bound) => (op, bound, ())

def Reduction.codec : Codec Reduction where
  read := Json.readVariant [
    .unit "Unchanged" .unchanged,
    boolCodec.variant "ConstantBoolean" .constant,
    .payload "NativeComparison" "struct variant" fun j =>
      (nativeCodec.read j).map fun (op, bound) => .native op bound]
  write
    | .unchanged => .string "Unchanged"
    | .constant answer => boolCodec.writeVariant "ConstantBoolean" answer
    | .native op bound => nativeCodec.writeVariant "NativeComparison" (op, bound)

/-! ## Configuration -/

/-- A configuration has defaults for all its fields, and no others. -/
def Config.codec : Codec Config :=
  (Record.nil |>.fieldOr "equality_registration" EqualityRegistration.codec default.equality
    |>.fieldOr "enable_support_functions" boolCodec default.enableSupport
    |>.fieldOr "extension_name" Identifier.codec default.extension).codec
    "struct NumcmpConfig" true
    (fun (extension, enableSupport, equality, ()) => ⟨extension, enableSupport, equality⟩)
    fun c => (c.extension, c.enableSupport, c.equality, ())

def Config.ofJson (document : String) : Except Json.Error Config := codec.decode document

def Config.toJson (c : Config) : String := codec.encode c

end ExactCompare
