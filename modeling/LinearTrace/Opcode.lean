/-!
# Operation codes

The operations that a trace can hold, with the names they are written by. What
an operation code means to the optimizer is in its traits.
-/

namespace LinearTrace

/-- An operation code. -/
inductive Opcode where
  | label
  | jump
  | finish
  | debugMergePoint
  | intAdd
  | intSub
  | intMul
  | intAnd
  | intOr
  | intXor
  | intLeftShift
  | intRightShift
  | uintRightShift
  | intFloorDiv
  | uintFloorDiv
  | intMod
  | intNeg
  | intInvert
  | intSignExtend
  | intIsTrue
  | intIsZero
  | intLt
  | intLe
  | intEq
  | intNe
  | intGt
  | intGe
  | uintLt
  | uintLe
  | uintGt
  | uintGe
  | floatAdd
  | floatSub
  | floatMul
  | floatTrueDiv
  | floatNeg
  | floatAbs
  | floatLt
  | floatLe
  | floatEq
  | floatNe
  | floatGt
  | floatGe
  | castFloatToInt
  | castIntToFloat
  | castFloatToSingle
  | castSingleToFloat
  | castPtrToInt
  | castIntToPtr
  | ptrEq
  | ptrNe
  | instancePtrEq
  | instancePtrNe
  | sameAs
  | getArrayItemGc
  | getArrayItemRaw
  | setArrayItemGc
  | setArrayItemRaw
  | rawLoad
  | rawStore
  | arrayLength
  | new
  | newWithVtable
  | call
  | callPure
  | callLoopInvariant
  | condCall
  | guardTrue
  | guardFalse
  | guardValue
  | guardClass
  | guardNonnull
  | guardIsNull
  | guardNonnullClass
  | guardIsObject
  | guardGcType
  | guardSubclass
  | guardNoException
  | guardNotInvalidated
  | guardFutureCondition
  | guardEarlyExit
  | recordExactClass
  | vecIntAdd
  | vecIntSub
  | vecIntMul
  | vecIntSignExtend
  | vecFloatAdd
  | vecFloatSub
  | vecFloatMul
  | vecFloatEq
  | vecGetArrayItemRaw
  | vecRawLoad
  | vecSetArrayItemRaw
  | vecRawStore
  | vecCastFloatToSingle
  | vecCastSingleToFloat
  | vecCastFloatToInt
  | vecCastIntToFloat
  | vecIntPack
  | vecIntUnpack
  | vecIntExpand
  | vecFloatPack
  | vecFloatUnpack
  | vecFloatExpand
  | vecBox
  deriving DecidableEq, Hashable, Inhabited, Repr

namespace Opcode

def all : List Opcode :=
  [.label, .jump, .finish, .debugMergePoint, .intAdd, .intSub, .intMul, .intAnd, .intOr, .intXor,
   .intLeftShift, .intRightShift, .uintRightShift, .intFloorDiv, .uintFloorDiv, .intMod, .intNeg,
   .intInvert, .intSignExtend, .intIsTrue, .intIsZero, .intLt, .intLe, .intEq, .intNe, .intGt,
   .intGe, .uintLt, .uintLe, .uintGt, .uintGe, .floatAdd, .floatSub, .floatMul, .floatTrueDiv,
   .floatNeg, .floatAbs, .floatLt, .floatLe, .floatEq, .floatNe, .floatGt, .floatGe,
   .castFloatToInt, .castIntToFloat, .castFloatToSingle, .castSingleToFloat, .castPtrToInt,
   .castIntToPtr, .ptrEq, .ptrNe, .instancePtrEq, .instancePtrNe, .sameAs, .getArrayItemGc,
   .getArrayItemRaw, .setArrayItemGc, .setArrayItemRaw, .rawLoad, .rawStore, .arrayLength, .new,
   .newWithVtable, .call, .callPure, .callLoopInvariant, .condCall, .guardTrue, .guardFalse,
   .guardValue, .guardClass, .guardNonnull, .guardIsNull, .guardNonnullClass, .guardIsObject,
   .guardGcType, .guardSubclass, .guardNoException, .guardNotInvalidated, .guardFutureCondition,
   .guardEarlyExit, .recordExactClass, .vecIntAdd, .vecIntSub, .vecIntMul, .vecIntSignExtend,
   .vecFloatAdd, .vecFloatSub, .vecFloatMul, .vecFloatEq, .vecGetArrayItemRaw, .vecRawLoad,
   .vecSetArrayItemRaw, .vecRawStore, .vecCastFloatToSingle, .vecCastSingleToFloat,
   .vecCastFloatToInt, .vecCastIntToFloat, .vecIntPack, .vecIntUnpack, .vecIntExpand,
   .vecFloatPack, .vecFloatUnpack, .vecFloatExpand, .vecBox]

def name : Opcode → String
  | .label => "label"
  | .jump => "jump"
  | .finish => "finish"
  | .debugMergePoint => "debug_merge_point"
  | .intAdd => "int_add"
  | .intSub => "int_sub"
  | .intMul => "int_mul"
  | .intAnd => "int_and"
  | .intOr => "int_or"
  | .intXor => "int_xor"
  | .intLeftShift => "int_lshift"
  | .intRightShift => "int_rshift"
  | .uintRightShift => "uint_rshift"
  | .intFloorDiv => "int_floordiv"
  | .uintFloorDiv => "uint_floordiv"
  | .intMod => "int_mod"
  | .intNeg => "int_neg"
  | .intInvert => "int_invert"
  | .intSignExtend => "int_signext"
  | .intIsTrue => "int_is_true"
  | .intIsZero => "int_is_zero"
  | .intLt => "int_lt"
  | .intLe => "int_le"
  | .intEq => "int_eq"
  | .intNe => "int_ne"
  | .intGt => "int_gt"
  | .intGe => "int_ge"
  | .uintLt => "uint_lt"
  | .uintLe => "uint_le"
  | .uintGt => "uint_gt"
  | .uintGe => "uint_ge"
  | .floatAdd => "float_add"
  | .floatSub => "float_sub"
  | .floatMul => "float_mul"
  | .floatTrueDiv => "float_truediv"
  | .floatNeg => "float_neg"
  | .floatAbs => "float_abs"
  | .floatLt => "float_lt"
  | .floatLe => "float_le"
  | .floatEq => "float_eq"
  | .floatNe => "float_ne"
  | .floatGt => "float_gt"
  | .floatGe => "float_ge"
  | .castFloatToInt => "cast_float_to_int"
  | .castIntToFloat => "cast_int_to_float"
  | .castFloatToSingle => "cast_float_to_singlefloat"
  | .castSingleToFloat => "cast_singlefloat_to_float"
  | .castPtrToInt => "cast_ptr_to_int"
  | .castIntToPtr => "cast_int_to_ptr"
  | .ptrEq => "ptr_eq"
  | .ptrNe => "ptr_ne"
  | .instancePtrEq => "instance_ptr_eq"
  | .instancePtrNe => "instance_ptr_ne"
  | .sameAs => "same_as"
  | .getArrayItemGc => "getarrayitem_gc"
  | .getArrayItemRaw => "getarrayitem_raw"
  | .setArrayItemGc => "setarrayitem_gc"
  | .setArrayItemRaw => "setarrayitem_raw"
  | .rawLoad => "raw_load"
  | .rawStore => "raw_store"
  | .arrayLength => "arraylen_gc"
  | .new => "new"
  | .newWithVtable => "new_with_vtable"
  | .call => "call"
  | .callPure => "call_pure"
  | .callLoopInvariant => "call_loopinvariant"
  | .condCall => "cond_call"
  | .guardTrue => "guard_true"
  | .guardFalse => "guard_false"
  | .guardValue => "guard_value"
  | .guardClass => "guard_class"
  | .guardNonnull => "guard_nonnull"
  | .guardIsNull => "guard_isnull"
  | .guardNonnullClass => "guard_nonnull_class"
  | .guardIsObject => "guard_is_object"
  | .guardGcType => "guard_gc_type"
  | .guardSubclass => "guard_subclass"
  | .guardNoException => "guard_no_exception"
  | .guardNotInvalidated => "guard_not_invalidated"
  | .guardFutureCondition => "guard_future_condition"
  | .guardEarlyExit => "guard_early_exit"
  | .recordExactClass => "record_exact_class"
  | .vecIntAdd => "vec_int_add"
  | .vecIntSub => "vec_int_sub"
  | .vecIntMul => "vec_int_mul"
  | .vecIntSignExtend => "vec_int_signext"
  | .vecFloatAdd => "vec_float_add"
  | .vecFloatSub => "vec_float_sub"
  | .vecFloatMul => "vec_float_mul"
  | .vecFloatEq => "vec_float_eq"
  | .vecGetArrayItemRaw => "vec_getarrayitem_raw"
  | .vecRawLoad => "vec_raw_load"
  | .vecSetArrayItemRaw => "vec_setarrayitem_raw"
  | .vecRawStore => "vec_raw_store"
  | .vecCastFloatToSingle => "vec_cast_float_to_singlefloat"
  | .vecCastSingleToFloat => "vec_cast_singlefloat_to_float"
  | .vecCastFloatToInt => "vec_cast_float_to_int"
  | .vecCastIntToFloat => "vec_cast_int_to_float"
  | .vecIntPack => "vec_int_pack"
  | .vecIntUnpack => "vec_int_unpack"
  | .vecIntExpand => "vec_int_expand"
  | .vecFloatPack => "vec_float_pack"
  | .vecFloatUnpack => "vec_float_unpack"
  | .vecFloatExpand => "vec_float_expand"
  | .vecBox => "vec_box"

def ofName? (name : String) : Option Opcode :=
  all.find? fun opcode => opcode.name == name

end Opcode

end LinearTrace
