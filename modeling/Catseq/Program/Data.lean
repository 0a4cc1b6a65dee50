import Mathlib.Algebra.Order.Ring.Nat
import Mathlib.Algebra.Order.Ring.Int
import Mathlib.Data.List.AList

/-!
The data of the program layer, `program/nodes.rs` and `program/values.rs`: the
operators with their parsers from strings, the symbolic values (literals,
variables, expressions) and the control-flow nodes. Handles are indices into the
arena's vectors. A float literal is kept as the bit pattern that `to_bits`
gives, read back as a signed 64-bit integer, so the model takes the bits.
-/

namespace Catseq.Program

/-- `CmpOp`. -/
inductive CmpOp where
  | eq | ne | lt | le | gt | ge
deriving DecidableEq, Repr

def CmpOp.fromStr : String → Option CmpOp
  | "==" => some .eq
  | "!=" => some .ne
  | "<" => some .lt
  | "<=" => some .le
  | ">" => some .gt
  | ">=" => some .ge
  | _ => none

/-- `AluOp`. -/
inductive AluOp where
  | add | sub | mul | div | mod | bitAnd | bitOr | bitXor | shl | shr
deriving DecidableEq, Repr

def AluOp.fromStr : String → Option AluOp
  | "+" => some .add
  | "-" => some .sub
  | "*" => some .mul
  | "/" => some .div
  | "%" => some .mod
  | "&" => some .bitAnd
  | "|" => some .bitOr
  | "^" => some .bitXor
  | "<<" => some .shl
  | ">>" => some .shr
  | _ => none

/-- `TypeHint`. -/
inductive TypeHint where
  | int32 | int64 | float32 | float64 | bool
deriving DecidableEq, Repr

def TypeHint.fromStr : String → Option TypeHint
  | "int32" | "i32" => some .int32
  | "int64" | "i64" => some .int64
  | "float32" | "f32" => some .float32
  | "float64" | "f64" => some .float64
  | "bool" => some .bool
  | _ => none

/-- `UnaryOp`. -/
inductive UnaryOp where
  | neg | not | bitNot
deriving DecidableEq, Repr

def UnaryOp.fromStr : String → Option UnaryOp
  | "-" => some .neg
  | "!" => some .not
  | "~" => some .bitNot
  | _ => none

/-- `LogicalOp`. -/
inductive LogicalOp where
  | and | or | not
deriving DecidableEq, Repr

def LogicalOp.fromStr : String → Option LogicalOp
  | "and" | "&&" => some .and
  | "or" | "||" => some .or
  | "not" | "!" => some .not
  | _ => none

/-- `ValueData`: a literal holds an `i64`, the bits of a float when `isFloat`. -/
inductive ValueData where
  | literal (value : Int) (isFloat : Bool)
  | variable (name : String) (typeHint : TypeHint)
  | binaryExpr (lhs : Nat) (op : AluOp) (rhs : Nat)
  | unaryExpr (op : UnaryOp) (operand : Nat)
  | condition (lhs : Nat) (op : CmpOp) (rhs : Nat)
  | logicalExpr (lhs : Nat) (op : LogicalOp) (rhs : Option Nat)
deriving DecidableEq, Repr

namespace ValueData

def int (value : Int) : ValueData := .literal value false

/-- `float`: the bits of the float as an `i64`. -/
def float (bits : UInt64) : ValueData :=
  .literal (if bits.toNat < 2 ^ 63 then bits.toNat else bits.toNat - 2 ^ 64) true

def asInt : ValueData → Option Int
  | .literal value false => some value
  | _ => none

/-- `as_float`, as the bits of the float. -/
def asFloat : ValueData → Option UInt64
  | .literal value true => some (UInt64.ofNat (value % 2 ^ 64).toNat)
  | _ => none

def isLiteral : ValueData → Bool
  | .literal .. => true
  | _ => false

def isVariable : ValueData → Bool
  | .variable .. => true
  | _ => false

@[simp] theorem isVariable_variable (name : String) (typeHint : TypeHint) :
    (ValueData.variable name typeHint).isVariable = true := rfl

/-- The float bits survive the round trip through the signed literal. -/
theorem asFloat_float (bits : UInt64) : (float bits).asFloat = some bits := by
  have lt : bits.toNat < 2 ^ 64 := bits.toNat_lt_size
  have back : ((if bits.toNat < 2 ^ 63 then (bits.toNat : Int) else bits.toNat - 2 ^ 64) % 2 ^ 64).toNat =
      bits.toNat := by
    split <;> omega
  simp only [float,asFloat,back]
  exact congrArg some (UInt64.toNat.inj (UInt64.toNat_ofNat_of_lt lt))

end ValueData

/-- `NodeData`: a dictionary argument is kept as its list of entries. -/
inductive NodeData where
  | lift (morphismRef : Nat) (params : List (String × Nat))
  | delay (duration : Nat) (maxHint : Option Nat)
  | set (target value : Nat)
  | chain (left right : Nat)
  | loop (count body : Nat)
  | «match» (subject : Nat) (cases : List (Int × Nat)) (default : Option Nat)
  | apply (func : Nat) (args : List Nat)
  | funcDef (name : String) (params : List Nat) (body : Nat)
  | measure (target source : Nat)
  | identity
deriving DecidableEq, Repr

end Catseq.Program
