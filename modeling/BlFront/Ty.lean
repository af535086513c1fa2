import BlFront.Symbol.Id

/-!
# Types

The types of expressions and declarations.  Structs and classes are nominal: they are the
same type if the same symbol declares them, whatever members are recorded with them.  A
class type holds its superclasses as a chain, nearest first.
-/

namespace BlFront

mutual

inductive Ty where
  | any
  | boolean
  | int
  | float
  | string
  | unit
  | array (element : Ty)
  | function (params : List Member) (result : Ty)
  | struct (symbol : SymbolId) (name : String) (fields : List Member)
  | object (own : ClassRow) (supers : List ClassRow)

structure Member where
  name : String
  type : Ty

/-- What one class declares itself. -/
structure ClassRow where
  symbol : SymbolId
  name : String
  fields : List Member
  methods : List Member

end

/-- The type of the member with a name; of two the first. -/
def Member.lookup? (name : String) (members : List Member) : Option Ty :=
  (members.find? (·.name == name)).map (·.type)

namespace Ty

instance : Inhabited Ty := ⟨.any⟩

/-! ### Texts -/

def primitives : List (String × Ty) :=
  [("Any", .any), ("Boolean", .boolean), ("Int", .int), ("Float", .float), ("String", .string),
   ("Unit", .unit)]

def primitive? (name : String) : Option Ty := primitives.lookup name

mutual

def text : Ty → String
  | .any => "Any"
  | .boolean => "Boolean"
  | .int => "Int"
  | .float => "Float"
  | .string => "String"
  | .unit => "Unit"
  | .array element => "[" ++ element.text ++ "]"
  | .function params result => "(" ++ ", ".intercalate (memberTexts params) ++ ") -> " ++ result.text
  | .struct _ name _ => name
  | .object own _ => own.name

def memberTexts : List Member → List String
  | [] => []
  | ⟨name, type⟩ :: ms => (name ++ ": " ++ type.text) :: memberTexts ms

end

instance : ToString Ty := ⟨text⟩

/-! ### Equality -/

mutual

/-- Whether two types are the same.  Names of parameters do not count. -/
def same : Ty → Ty → Bool
  | .any, .any => true
  | .boolean, .boolean => true
  | .int, .int => true
  | .float, .float => true
  | .string, .string => true
  | .unit, .unit => true
  | .array a, .array b => a.same b
  | .function ps a, .function qs b => a.same b && sameParams ps qs
  | .struct s _ _, .struct t _ _ => s == t
  | .object c _, .object d _ => c.symbol == d.symbol
  | _, _ => false

def sameParams : List Member → List Member → Bool
  | [], [] => true
  | ⟨_, a⟩ :: ps, ⟨_, b⟩ :: qs => a.same b && sameParams ps qs
  | _, _ => false

end

instance : BEq Ty := ⟨same⟩

/-! ### Order -/

/-- Whether a value of the first type may stand where one of the second is expected: the types
are the same, or the second is `Any`, an array of a wider type, or a superclass. -/
def assignable : Ty → Ty → Bool
  | _, .any => true
  | .array a, .array b => a.assignable b
  | .object own supers, .object target _ =>
    (own :: supers).any fun row => row.symbol == target.symbol
  | a, b => a.same b

def join (a b : Ty) : Ty :=
  if a.assignable b then b else if b.assignable a then a else .any

/-- Values of related types can be tested for equality. -/
def related (a b : Ty) : Bool := a.assignable b || b.assignable a

def isNumeric : Ty → Bool
  | .int | .float => true
  | _ => false

def isOrderable : Ty → Bool
  | .int | .float | .string | .boolean => true
  | _ => false

end Ty

/-! ### Members of classes -/

namespace ClassRow

/-- The first of a chain of classes that has a member with a name decides its type. -/
def lookup? (members : ClassRow → List Member) (name : String) (chain : List ClassRow) : Option Ty :=
  chain.findSome? fun row => Member.lookup? name (members row)

/-- The fields along a chain, the outermost ancestor's first. -/
def allFields (chain : List ClassRow) : List Member := chain.reverse.flatMap (·.fields)

end ClassRow

end BlFront
