import Racer.Collectors.RBS

namespace Racer

/-! `Racer::Collectors::RBSCollector`. -/

structure ExistingType where
  classDecl : ClassDecl
  typeName : TypeName

/-- An entry of `@results`. -/
structure Owner where
  constant : Constant
  instanceMethods : OrderedHash String (List Trace) := .empty
  singletonMethods : OrderedHash String (List Trace) := .empty

structure RBSCollector where
  results : OrderedHash String Owner := .empty
  existingTypes : OrderedHash String ExistingType := .empty
  modulesInObjectClass : List String := []

def Owner.methods (owner : Owner) : MethodKind → OrderedHash String (List Trace)
  | .INSTANCE => owner.instanceMethods
  | .SINGLETON => owner.singletonMethods

def Owner.storeMethod (owner : Owner) (kind : MethodKind) (name : String) (traces : List Trace) : Owner :=
  match kind with
  | .INSTANCE => { owner with instanceMethods := owner.instanceMethods.store name traces }
  | .SINGLETON => { owner with singletonMethods := owner.singletonMethods.store name traces }

section
variable (env : Environment)

/-- `EnsureValidConstantName.valid_name`. -/
def validName (name : String) : Except RubyError String := do
  let fragments ← (nameFragments name).mapM fun fragment =>
    match fragment.toList with
    | [] => throw .NoMethodError
    | c :: rest => pure (env.upcase c ++ String.ofList rest)
  pure ("::".intercalate fragments)

def ensureValidNames (constant : Constant) : Except RubyError Constant := do
  let name ← validName env constant.name
  let superclass ← constant.superclass.mapM (validName env)
  let includedModules ← constant.includedModules.mapM (validName env)
  let prependedModules ← constant.prependedModules.mapM (validName env)
  let extendedModules ← constant.extendedModules.mapM (validName env)
  pure { constant with name, superclass, includedModules, prependedModules, extendedModules }

/-- Drop the mixins that the existing signatures already have. -/
def rejectExisting (classDecl : ClassDecl) (constant : Constant) : Constant :=
  { constant with
    includedModules := constant.includedModules.filter (toTypeName · ∉ classDecl.includes)
    prependedModules := constant.prependedModules.filter (toTypeName · ∉ classDecl.prepends)
    extendedModules := constant.extendedModules.filter (toTypeName · ∉ classDecl.extensions) }

def pushConstantToResults (s : RBSCollector) (constant : Constant) : RBSCollector :=
  if (s.results.get? constant.name).isSome then s
  else if (s.existingTypes.get? constant.name).isSome then s
  else
    let typeName := toTypeName constant.name
    let (constant, existingTypes) :=
      match env.classDecls typeName with
      | some classDecl =>
        (rejectExisting classDecl constant, s.existingTypes.store constant.name { classDecl, typeName })
      | none => (constant, s.existingTypes)
    { results := s.results.store constant.name { constant }
      existingTypes
      modulesInObjectClass :=
        if constant.name = "Object" then
          s.modulesInObjectClass ++ constant.includedModules ++ constant.prependedModules
        else s.modulesInObjectClass }

def isWord (c : Char) : Bool :=
  c.isAlphanum || c = '_'

def validMethodRest : List Char → Bool
  | [] => true
  | [c] => isWord c || c = '!' || c = '?' || c = '='
  | c :: rest => isWord c && validMethodRest rest

def methodOperators : List String :=
  ["+", "-", "*", "/", "%", "**", "==", "!=", "===", "<=>", "<=", ">=", "<", ">", "<<", ">>", "&", "|", "^", "~",
    "!", "`", "=~", "!~", "[]", "[]="]

/-- The regular expression of `valid_method_name?`. -/
def validMethodName (name : String) : Bool :=
  match name.toList with
  | [] => false
  | c :: rest => ((c.isAlpha || c = '_') && validMethodRest rest) || name ∈ methodOperators

/-- What makes two traces of a method one and the same to the collector. -/
def Trace.signature (t : Trace) : List Trace.Param × ConstantInstance × Option (Trace.BlockParam Trace.BlockTrace) :=
  (t.params, t.returnType, t.blockParam)

/-- What `collect` does when the announcements of the trace are stored. -/
def RBSCollector.file (s : RBSCollector) (trace : Trace) : Except RubyError RBSCollector :=
  if validMethodName trace.methodName then
    match s.results.get? trace.owner.name with
    | none => throw .NoMethodError
    | some owner =>
      let traces := ((owner.methods trace.methodKind).get? trace.methodName).getD []
      if traces.any (·.signature = trace.signature) then pure s
      else pure { s with
        results := s.results.store trace.owner.name
          (owner.storeMethod trace.methodKind trace.methodName (traces ++ [trace])) }
  else pure s

def RBSCollector.collect (s : RBSCollector) (trace : Trace) : Except RubyError RBSCollector := do
  let s ← trace.constantUpdates.foldlM (fun s constant => do
    let constant ← ensureValidNames env constant
    pure (pushConstantToResults env s constant)) s
  s.file trace

/-- The worker thread before it calls `stop`. -/
def collectAll (traces : List Trace) : Except RubyError RBSCollector :=
  traces.foldlM (RBSCollector.collect env) {}

/-- `uniq!`. -/
def uniq : List ConstantInstance → List ConstantInstance
  | [] => []
  | constant :: constants => constant :: (uniq constants).filter (· ≠ constant)

def isBoolean (constant : ConstantInstance) : Bool :=
  constant.name = "TrueClass" || constant.name = "FalseClass"

/-- Replace booleans by `bool`. -/
def mergeBooleans (constants : List ConstantInstance) : List ConstantInstance :=
  if constants.any isBoolean then constants.filter (!isBoolean ·) ++ [{ name := "bool" }] else constants

def ConstantInstance.bare (constant : ConstantInstance) : Bool :=
  constant.genericArguments.isEmpty

/-- The turn of the loop at index `i`, which deletes from the array it runs over. -/
def deleteBareAt (constants : List ConstantInstance) (i : Nat) : List ConstantInstance :=
  match constants[i]? with
  | none => constants
  | some constant =>
    if constant.bare then constants
    else constants.filter fun other => !(other.name = constant.name && other.bare)

def deleteBare (constants : List ConstantInstance) : List ConstantInstance :=
  (List.range constants.length).foldl deleteBareAt constants

/-- `to_rbs_type`, for what it makes of a single constant. -/
def unionType (typeOf : ConstantInstance → Except RubyError RbsType) (constants : List ConstantInstance) :
    Except RubyError RbsType :=
  match mergeBooleans (uniq constants) with
  | [] => throw .NoMethodError
  | [constant] => typeOf constant
  | constants => do
    let types ← (deleteBare constants).mapM typeOf
    pure (.union types)

/-- Look up a constant among those converted; only the added `bool` is not there. -/
def convertedType (converted : List (ConstantInstance × Except RubyError RbsType)) (constant : ConstantInstance) :
    Except RubyError RbsType :=
  ((converted.find? (·.1 = constant)).map Prod.snd).getD (.ok .bool)

section
variable (existingTypes : OrderedHash String ExistingType)

/-- `generic_arguments_of_class`, for the types of the existing generic arguments. -/
def genericArgumentsOfClass (name : String) (existingGenericArguments : List (Except RubyError RbsType)) :
    Except RubyError (List RbsType) :=
  match existingTypes.get? name with
  | none => pure []
  | some existing =>
    if existingGenericArguments.length = existing.classDecl.typeParams.length then existingGenericArguments.mapM id
    else pure (existing.classDecl.typeParams.map fun _ => .any)

mutual

/-- The last part of `to_rbs_type`, for a single constant. -/
def constantType : ConstantInstance → Except RubyError RbsType
  | ⟨name, singleton, genericArguments⟩ =>
    if name = "bool" then pure .bool
    else if name = "NilClass" then pure .nil
    else do
      let name ← validName env name
      let typeName := toTypeName name
      if singleton then pure (.classSingleton typeName)
      else do
        let args ← genericArgumentsOfClass existingTypes name (unionTypes genericArguments)
        pure (.classInstance typeName args)

def unionTypes : List (List ConstantInstance) → List (Except RubyError RbsType)
  | [] => []
  | union :: unions => unionType (convertedType (convertAll union)) union :: unionTypes unions

def convertAll : List ConstantInstance → List (ConstantInstance × Except RubyError RbsType)
  | [] => []
  | constant :: constants => (constant, constantType constant) :: convertAll constants

end

def toRbsType (constants : List ConstantInstance) : Except RubyError RbsType :=
  unionType (constantType env existingTypes) constants

/-- The type in one turn of the loop of `method_parameters`. -/
def parameterType (type : ParamType) (types : List ConstantInstance) : Except RubyError RbsType :=
  let genericArguments := (types.head?.map (·.genericArguments)).getD []
  match type with
  | .REST =>
    match genericArguments with
    | [union] => toRbsType env existingTypes union
    | _ => pure .any
  | .KEYWORD_REST =>
    match genericArguments with
    | [_, union] => toRbsType env existingTypes union
    | _ => pure .any
  | _ => toRbsType env existingTypes types

/-- Where that turn puts the parameter. -/
def FunctionParameters.add (parameters : FunctionParameters) (param : Trace.Param) (type : RbsType) :
    FunctionParameters :=
  match param.type with
  | .REQUIRED =>
    if parameters.restPositionals.isSome then
      { parameters with trailingPositionals := parameters.trailingPositionals ++ [{ type, name := param.name }] }
    else { parameters with requiredPositionals := parameters.requiredPositionals ++ [{ type, name := param.name }] }
  | .OPTIONAL =>
    { parameters with optionalPositionals := parameters.optionalPositionals ++ [{ type, name := param.name }] }
  | .REST =>
    { parameters with
      restPositionals := some { type, name := if param.name = some "*" then none else param.name } }
  | .KEYWORD_REQUIRED =>
    { parameters with requiredKeywords := parameters.requiredKeywords.store param.name { type, name := none } }
  | .KEYWORD_OPTIONAL =>
    { parameters with optionalKeywords := parameters.optionalKeywords.store param.name { type, name := none } }
  | .KEYWORD_REST =>
    { parameters with
      restKeywords := some { type, name := if param.name = some "**" then none else param.name } }

/-- `method_parameters`: the first set names the parameters, all sets give their types. -/
def methodParameters (paramSets : List (List Trace.Param)) : Except RubyError FunctionParameters :=
  match paramSets with
  | [] => throw .NoMethodError
  | first :: _ =>
    -- "Received param sets with different sizes"
    if paramSets.any (·.length ≠ first.length) then pure {}
    else first.zipIdx.foldlM (fun parameters (param, n) =>
      parameters.add param <$> parameterType env existingTypes param.type
        (paramSets.filterMap fun set => set[n]?.map (·.typeName))) {}

/-- The function of `to_block`. -/
def blockFunction (traces : List Trace.BlockTrace) : Except RubyError BlockFunction :=
  if traces.isEmpty then pure .untyped
  else do
    let parameters ← methodParameters env existingTypes (traces.map (·.params))
    let returnType ← toRbsType env existingTypes (traces.map (·.returnType))
    pure (.function parameters returnType)

def toBlock (blockParams : List (Trace.BlockParam Trace.BlockTrace)) : Except RubyError Block := do
  let traces := blockParams.flatMap (·.traces)
  let type ← blockFunction env existingTypes traces
  let selfTypes := traces.filterMap (·.selfType)
  let selfType ← (if selfTypes.isEmpty then pure none else some <$> toRbsType env existingTypes selfTypes)
  pure { type, selfType, required := blockParams.any (!·.traces.isEmpty) }

def methodDefined (methodName : String) (methodKind : MethodKind) (ownerName : String) : Bool :=
  match existingTypes.get? ownerName with
  | some existing => env.methods methodKind existing.typeName methodName
  | none => false

/-- The key of `overloads`: the parameters, and the shape of those of the block. -/
def Trace.overloadKey (trace : Trace) : List Trace.Param × Option (List (Option String × ParamType)) :=
  (trace.params, trace.blockParam.map fun block =>
    ((block.traces.head?.map (·.params)).getD []).map fun param => (param.name, param.type))

def toOverload (name : String) (params : List Trace.Param) (traces : List Trace) : Except RubyError Overload := do
  let blockParams := traces.filterMap (·.blockParam)
  let parameters ← methodParameters env existingTypes [params]
  let returnType ←
    (if name = "initialize" then pure .void else toRbsType env existingTypes (traces.map (·.returnType)))
  let block ← (if blockParams.isEmpty then pure none else some <$> toBlock env existingTypes blockParams)
  pure { parameters, returnType, block }

def toMethodDefinition (name : String) (kind : MethodKind) (traces : List Trace) :
    Except RubyError (Option MethodDefinition) :=
  match traces with
  | [] => throw .NoMethodError
  | firstTrace :: _ =>
    if methodDefined env existingTypes name kind firstTrace.methodOwner.name then pure none
    else do
      let overloading :=
        firstTrace.methodCallee.any fun callee => methodDefined env existingTypes name kind callee.name
      let visibility := (traces.getLast?.map (·.methodVisibility)).getD MethodVisibility.PUBLIC
      let overloads ← (OrderedHash.groupBy Trace.overloadKey traces).entries.mapM fun ((params, _), overloadTraces) =>
        toOverload env existingTypes name params overloadTraces
      pure (some
        { name, kind, overloads, overloading
          visibility := if visibility = .PRIVATE then some .PRIVATE else none })

def toMethodDefinitions (kind : MethodKind) (methods : OrderedHash String (List Trace)) :
    Except RubyError (List MethodDefinition) := do
  let definitions ← methods.entries.mapM fun (name, traces) => toMethodDefinition env existingTypes name kind traces
  pure (definitions.filterMap id)

def toMixinDefinitions (modules : List String) (kind : MixinKind) : Except RubyError (List Member) :=
  modules.mapM fun moduleName => do
    let args ← genericArgumentsOfClass existingTypes moduleName []
    pure (.mixin kind (toTypeName moduleName) args)

/-- The methods that the interfaces of the mixed in modules need and the owner lacks. -/
def requiredInterfaceMembers (ownerName : String) (modules : List String)
    (existingMethods : OrderedHash String (List Trace)) (kind : MethodKind) : List MethodDefinition :=
  let neededMethods : OrderedHash String MethodDefinition :=
    (modules.flatMap fun moduleName =>
      match existingTypes.get? moduleName with
      | some existing => env.interfaceMethods existing.typeName
      | none => []).foldl (fun needed (name, definition) => needed.store name definition) .empty
  neededMethods.entries.filterMap fun (name, definition) =>
    if (existingMethods.get? name).isSome then none
    else
      match existingTypes.get? ownerName with
      | some existing => if env.implementedIn kind existing.typeName name then none else some { definition with kind }
      | none => some { definition with kind }

def toModuleMembers (owner : Owner) : Except RubyError (List Member) := do
  let constant := owner.constant
  let extensions ← toMixinDefinitions existingTypes constant.extendedModules .extend
  let prepends ← toMixinDefinitions existingTypes constant.prependedModules .prepend
  let includes ← toMixinDefinitions existingTypes constant.includedModules .include
  let instanceMethods ← toMethodDefinitions env existingTypes .INSTANCE owner.instanceMethods
  let singletonMethods ← toMethodDefinitions env existingTypes .SINGLETON owner.singletonMethods
  let required :=
    requiredInterfaceMembers env existingTypes constant.name (constant.prependedModules ++ constant.includedModules)
      owner.instanceMethods .INSTANCE ++
    requiredInterfaceMembers env existingTypes constant.name constant.extendedModules owner.singletonMethods .SINGLETON
  pure (extensions ++ prepends ++ includes ++
    (instanceMethods ++ singletonMethods ++ required).map Member.method)

end

/-- `find_self_types`; an existing module with self types raises, since the code
misspells `existing_type` there. Deeper than the number of results it recurses forever. -/
def findSelfTypes (s : RBSCollector) : Nat → Constant → Except RubyError (List TypeName)
  | 0, _ => throw .SystemStackError
  | fuel + 1, owner =>
    owner.includedModules.foldlM (fun selfTypes moduleName =>
      match s.results.get? moduleName with
      | none => throw .NoMethodError
      | some included =>
        match s.existingTypes.get? moduleName with
        | some existing =>
          if existing.classDecl.selfTypes.isEmpty then (selfTypes ++ ·) <$> findSelfTypes s fuel included.constant
          else throw .NameError
        | none => (selfTypes ++ ·) <$> findSelfTypes s fuel included.constant)
      (if owner.name ∈ s.modulesInObjectClass then [toTypeName "BasicObject"] else [])

def typeParamsOfExistingClass (s : RBSCollector) (owner : String) : List String :=
  ((s.existingTypes.get? owner).map (·.classDecl.typeParams)).getD []

def toModuleDeclaration (s : RBSCollector) (owner : Owner) : Except RubyError Declaration := do
  let selfTypes ← findSelfTypes s (s.results.entries.length + 1) owner.constant
  let members ← toModuleMembers env s.existingTypes owner
  pure
    { type := .MODULE, name := toTypeName owner.constant.name
      typeParams := typeParamsOfExistingClass s owner.constant.name, superClass := none, selfTypes, members }

/-- The superclass in `to_class_declaration`. -/
def superClassOf (s : RBSCollector) (owner : Constant) : Except RubyError (Option (TypeName × List RbsType)) :=
  match owner.superclass with
  | none => pure none
  | some superclass =>
    match s.existingTypes.get? owner.name with
    | some existing => pure existing.classDecl.superClass
    | none => do
      let args ← genericArgumentsOfClass s.existingTypes superclass []
      pure (some (toTypeName superclass, args))

def toClassDeclaration (s : RBSCollector) (owner : Owner) : Except RubyError Declaration := do
  let superClass ← superClassOf s owner.constant
  let members ← toModuleMembers env s.existingTypes owner
  pure
    { type := .CLASS, name := toTypeName owner.constant.name
      typeParams := typeParamsOfExistingClass s owner.constant.name, superClass, selfTypes := [], members }

def toDeclaration (s : RBSCollector) (owner : Owner) : Except RubyError Declaration :=
  match owner.constant.type with
  | .CLASS => toClassDeclaration env s owner
  | .MODULE => toModuleDeclaration env s owner

/-- The words of a fragment, in lower case and with underscores between them. -/
def underscoreWords (previous : Option Char) : List Char → String
  | [] => ""
  | c :: rest =>
    let acronymEnds := previous.any Char.isUpper && c.isUpper && rest.head?.any Char.isLower
    let wordEnds := previous.any (fun p => p.isLower || p.isDigit) && c.isUpper
    (if acronymEnds || wordEnds then "_" else "") ++ (if c = '-' then "_" else env.downcase c) ++
      underscoreWords (some c) rest

def underscore (camelCasedWord : String) : String :=
  if camelCasedWord.toList.any fun c => c.isUpper || c = '-' then underscoreWords env none camelCasedWord.toList
  else camelCasedWord

def fileName (ownerName : String) : String :=
  "/".intercalate ((nameFragments ownerName).map (underscore env)) ++ ".rbs"

/-- The loop of `stop` over the results: the files it writes, and what it raises. -/
def writeOwners (s : RBSCollector) : List (String × Owner) → List (String × Declaration) × Option RubyError
  | [] => ([], none)
  | (ownerName, owner) :: rest =>
    match toDeclaration env s owner with
    | .error raised => ([], some raised)
    | .ok declaration =>
      let (files, raised) := writeOwners s rest
      -- the owner has no members and already exists as RBS
      if declaration.members.isEmpty && (s.existingTypes.get? ownerName).isSome then (files, raised)
      else ((fileName env ownerName, declaration) :: files, raised)

def RBSCollector.stop (s : RBSCollector) : List (String × Declaration) × Option RubyError :=
  writeOwners env s s.results.entries

end

end Racer
