import LinearTrace.LaneType
import LinearTrace.Opcode.Traits

/-!
# Signatures of vector operations

Which operands of a vector operation are vectors, and what the lanes of operands
and result are.
-/

namespace LinearTrace

/-- The lanes of the operands and the result of a vector operation. -/
structure VectorSignature where
  /-- The lanes of each operand; none for an operand that stays scalar. -/
  operands : List (Option LaneType)
  result : Option LaneType
  /-- The lanes are those of the array descriptor. -/
  fromArray : Bool := false
  /-- The first lane to be read is passed as an operand. -/
  passesOffset : Bool := false
  /-- The operand that gives the size of the result's lanes. -/
  resultSizeOperand : Option Nat := none
  deriving DecidableEq, Inhabited, Repr

def VectorSignature.operandAt (signature : VectorSignature) (position : Nat) : Option LaneType :=
  (signature.operands[position]?).join

def Opcode.vectorSignature? : Opcode → Option VectorSignature
  | .vecIntAdd | .vecIntSub | .vecIntMul =>
    some { operands := [some .anyInt, some .anyInt], result := some .anyInt }
  | .vecIntSignExtend =>
    some { operands := [some .anyInt, none], result := some .anyInt, resultSizeOperand := some 1 }
  | .vecFloatAdd | .vecFloatSub | .vecFloatMul =>
    some { operands := [some .anyFloat, some .anyFloat], result := some .anyFloat }
  | .vecFloatEq =>
    some { operands := [some .anyFloat, some .anyFloat], result := some .anyInt }
  | .vecGetArrayItemRaw | .vecRawLoad =>
    some { operands := [none, none], result := some .unknown, fromArray := true }
  | .vecSetArrayItemRaw | .vecRawStore =>
    some { operands := [none, none, some .unknown], result := none, fromArray := true }
  | .vecCastFloatToSingle => some { operands := [some .double], result := some .single }
  | .vecCastSingleToFloat =>
    some { operands := [some .single], result := some .double, passesOffset := true }
  | .vecCastFloatToInt => some { operands := [some .double], result := some .word }
  | .vecCastIntToFloat => some { operands := [some .word], result := some .double }
  | _ => none

end LinearTrace
