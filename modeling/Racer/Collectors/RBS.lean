import Racer.Library.OrderedHash
import Racer.Trace
import Mathlib.Data.List.DropRight

namespace Racer

/-! What the collector uses of the RBS library. -/

/-- An absolute `RBS::TypeName`. -/
structure TypeName where
  space : List String
  name : Option String
  deriving DecidableEq, Repr

/-- The `RBS::Types` that are generated. -/
inductive RbsType
  | bool | nil | void | any
  | classSingleton (name : TypeName)
  | classInstance (name : TypeName) (args : List RbsType)
  | union (types : List RbsType)
  deriving Repr

/-- `RBS::Types::Function::Param`. -/
structure FunctionParam where
  type : RbsType
  name : Option String

/-- The parameters of an `RBS::Types::Function`. -/
structure FunctionParameters where
  requiredPositionals : List FunctionParam := []
  optionalPositionals : List FunctionParam := []
  trailingPositionals : List FunctionParam := []
  restPositionals : Option FunctionParam := none
  requiredKeywords : OrderedHash (Option String) FunctionParam := .empty
  optionalKeywords : OrderedHash (Option String) FunctionParam := .empty
  restKeywords : Option FunctionParam := none

/-- The function type of a block: an `UntypedFunction` that returns untyped, or a `Function`. -/
inductive BlockFunction
  | untyped
  | function (parameters : FunctionParameters) (returnType : RbsType)

/-- `RBS::Types::Block`. -/
structure Block where
  type : BlockFunction
  selfType : Option RbsType
  required : Bool

/-- The method type of a `MethodDefinition::Overload`. -/
structure Overload where
  parameters : FunctionParameters
  returnType : RbsType
  block : Option Block

/-- `RBS::AST::Members::MethodDefinition`. -/
structure MethodDefinition where
  name : String
  kind : MethodKind
  overloads : List Overload
  overloading : Bool
  visibility : Option MethodVisibility

inductive MixinKind
  | extend | prepend | «include»
  deriving DecidableEq, Repr

inductive Member
  | mixin (kind : MixinKind) (name : TypeName) (args : List RbsType)
  | method (definition : MethodDefinition)

/-- An `RBS::AST::Declarations::Class` or `Module`. -/
structure Declaration where
  type : ClassType
  name : TypeName
  typeParams : List String
  superClass : Option (TypeName × List RbsType)
  selfTypes : List TypeName
  members : List Member

/-- The entry of a class or module in an `RBS::Environment`. -/
structure ClassDecl where
  typeParams : List String := []
  superClass : Option (TypeName × List RbsType) := none
  includes : List TypeName := []
  prepends : List TypeName := []
  extensions : List TypeName := []
  selfTypes : List TypeName := []

/-- What the libraries answer: the loaded signatures, and the case mapping of Ruby.
`methods` is `methods.key?` and `implementedIn` the `implemented_in` of a method in a
built definition. `interfaceMethods` are the methods of the interfaces among the
self types of a module, each with its first overload and all types untyped. -/
structure Environment where
  classDecls : TypeName → Option ClassDecl
  methods : MethodKind → TypeName → String → Bool
  implementedIn : MethodKind → TypeName → String → Bool
  interfaceMethods : TypeName → List (String × MethodDefinition)
  upcase : Char → String
  downcase : Char → String

/-- Signatures without methods and interfaces, where only ASCII letters have a case. -/
def Environment.ofDecls (classDecls : TypeName → Option ClassDecl) : Environment where
  classDecls := classDecls
  methods _ _ _ := false
  implementedIn _ _ _ := false
  interfaceMethods _ := []
  upcase c := c.toUpper.toString
  downcase c := c.toLower.toString

/-- `split("::")`, which drops empty fragments at the end. -/
def splitFragments (current : List Char) : List Char → List (List Char)
  | ':' :: ':' :: rest => current.reverse :: splitFragments [] rest
  | c :: rest => splitFragments (c :: current) rest
  | [] => [current.reverse]

def nameFragments (name : String) : List String :=
  ((splitFragments [] name.toList).rdropWhile (· = [])).map String.ofList

/-- `to_type_name`. -/
def toTypeName (name : String) : TypeName :=
  let path := nameFragments name
  { space := path.dropLast, name := path.getLast? }

end Racer
