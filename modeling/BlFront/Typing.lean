import BlFront.Syntax.Operator
import BlFront.Ty

/-!
# Typing rules

The rules for operators, conditions and arguments, each as a function of the types involved.
A violated rule is a value that says what is wrong.
-/

namespace BlFront

inductive TypeProblem where
  | noBinaryResult
  | noUnaryResult
  | noneOf (actual : Ty) (accepted : List Ty)
  | notAssignable (actual expected : Ty)
  | notComparable (left right : Ty)

def TypeProblem.message : TypeProblem → String
  | .noBinaryResult => "binary expression is not supported for given types"
  | .noUnaryResult => "unary expression is not supported"
  | .noneOf actual accepted =>
    "invalid type " ++ actual.text ++ ", expecting one of "
      ++ ", ".intercalate (accepted.map Ty.text)
  | .notAssignable actual expected =>
    "invalid type " ++ actual.text ++ ", expected " ++ expected.text
  | .notComparable left right => "can not compare " ++ left.text ++ " to " ++ right.text

/-! ### Operators -/

/-- Arithmetic keeps integers and widens a mix to floats; every other operator gives a Boolean. -/
def BinaryOp.result (op : BinaryOp) (left right : Ty) : Except TypeProblem Ty :=
  if op.isArithmetic then
    match left, right with
    | .int, .int => .ok .int
    | .float, .float | .int, .float | .float, .int => .ok .float
    | _, _ => .error .noBinaryResult
  else .ok .boolean

def UnaryOp.result : UnaryOp → Ty → Except TypeProblem Ty
  | .not, _ => .ok .boolean
  | .neg, .int => .ok .int
  | .neg, .float => .ok .float
  | .neg, _ => .error .noUnaryResult

/-- The types of operands that a binary operator accepts; an equality names none. -/
def BinaryOp.accepted (op : BinaryOp) : List Ty :=
  if op.isArithmetic then [.int, .float]
  else if op.isComparison then [.boolean, .int, .float, .string]
  else if op.isLogical then [.boolean]
  else []

def UnaryOp.accepted : UnaryOp → List Ty
  | .not => [.boolean]
  | .neg => [.int, .float]

/-! ### Checks -/

def Ty.expectOneOf (actual : Ty) (accepted : List Ty) : Except TypeProblem Unit :=
  if accepted.contains actual then .ok () else .error (.noneOf actual accepted)

def Ty.expectAssignable (actual expected : Ty) : Except TypeProblem Unit :=
  if actual.assignable expected then .ok () else .error (.notAssignable actual expected)

/-- Related types can be tested for equality; only one and the same type can be ordered. -/
def BinaryOp.expectComparable (op : BinaryOp) (left right : Ty) : Except TypeProblem Unit :=
  if (if op.isEquality then left.related right else left == right) then .ok ()
  else .error (.notComparable left right)

/-! ### Calls -/

/-- The parameters of a call: those of a function, or the fields of a struct or class, those of
ancestors first. -/
def Ty.parameters? : Ty → Option (List Member)
  | .function params _ => some params
  | .struct _ _ fields => some fields
  | .object own supers => some (ClassRow.allFields (own :: supers))
  | _ => none

inductive ArgumentProblem where
  | arity (expected got : Nat)
  /-- The argument at a position, counted from zero, does not fit. -/
  | incompatible (position : Nat) (expected got : Ty)

def ArgumentProblem.message : ArgumentProblem → String
  | .arity expected got =>
    "expected " ++ toString expected ++ (if expected = 1 then " argument" else " arguments")
      ++ " but got " ++ toString got
  | .incompatible position expected got =>
    "incompatible argument at position " ++ toString (position + 1) ++ ": expected "
      ++ expected.text ++ " but got " ++ got.text

def incompatibleFrom (position : Nat) : List Member → List Ty → List ArgumentProblem
  | param :: params, arg :: args =>
    let later := incompatibleFrom (position + 1) params args
    if arg.assignable param.type then later
    else .incompatible position param.type arg :: later
  | _, _ => []

/-- What is wrong with the arguments of a call: their number, then each that does not fit. -/
def argumentProblems (params : List Member) (args : List Ty) : List ArgumentProblem :=
  (if params.length = args.length then [] else [.arity params.length args.length])
    ++ incompatibleFrom 0 params args

end BlFront
