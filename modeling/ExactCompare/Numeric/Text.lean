import ExactCompare.Decimal.Printer
import ExactCompare.Numeric.Conversion

/-!
# Numerics as text

Text is a decimal, or one of the names of NaN and the infinities.
-/

namespace ExactCompare.Numeric

/-- Reads the name of a special value, in any case. -/
def special? (name : String) : Option Numeric :=
  match Text.lowered name with
  | "nan" => some nan
  | "infinity" | "+infinity" | "inf" | "+inf" => some infinity
  | "-infinity" | "-inf" => some negInfinity
  | _ => none

def parse (text : String) : Except NumericError Numeric :=
  match special? (Text.trimmed text) with
  | some n => .ok n
  | none =>
    match Decimal.parse text with
    | .ok d => ofDecimal d
    | .error cause => .error (.invalidText cause)

def text (n : Numeric) : String :=
  match n.sign, n.decimal? with
  | .nan, _ => "NaN"
  | .infinity, _ => "Infinity"
  | .negInfinity, _ => "-Infinity"
  | _, some d => d.text
  | _, none => ""

end ExactCompare.Numeric
