import FormCompiler.Location

/-! What can be wrong with a program, as causes, and how each cause is worded. -/

namespace FormCompiler

inductive LexFault where
  | unterminatedString
  | numberSuffix (suffix : String)
  deriving DecidableEq

namespace LexFault

def text : LexFault → String
  | unterminatedString => "unterminated string literal"
  | numberSuffix suffix => s!"invalid numeric literal suffix `{suffix}`"

end LexFault

inductive ReadFault where
  | unexpectedClose
  | unterminatedList
  /-- The number does not fit 64 bits. -/
  | integerRange
  /-- The number fits 64 bits and is meant to fit 32. -/
  | integerRange32
  | malformedFloat
  deriving DecidableEq

namespace ReadFault

def text : ReadFault → String
  | unexpectedClose => "unexpected ')'"
  | unterminatedList => "unterminated list"
  | integerRange => "integer literal out of range"
  | integerRange32 => "integer literal out of range for i32"
  | malformedFloat => "malformed float literal"

end ReadFault

inductive PatternFault where
  | noOperand
  | elseNotLast
  | incompleteCase
  | stringPattern
  | notAnArm
  | mixedPatterns
  | noArms
  | objectNeeded
  | typeAmongLiterals
  deriving DecidableEq

namespace PatternFault

def text : PatternFault → String
  | noOperand => "match requires an operand"
  | elseNotLast => "`else` must be the last arm of a match"
  | incompleteCase => "a case needs a pattern and a body"
  | stringPattern => "string patterns are not supported"
  | notAnArm => "expected (=> pattern body) or (else body)"
  | mixedPatterns => "a match cannot mix literal and type patterns"
  | noArms => "match has no arms"
  | objectNeeded => "type patterns need an object scrutinee"
  | typeAmongLiterals => "type pattern in a literal match"

end PatternFault

/-- Rules of the language that have no kind of their own. -/
inductive SemanticFault where
  -- shape of declarations
  | pubArity
  | notExportable
  | namespaceMissing
  | notADeclaration
  | nameMissing (keyword : String)
  | returnTypeArity
  | parametersMissing (fn : String)
  | implTargetMissing
  | implItem
  | declareItem
  | declaredBody (fn : String)
  | extendsArity
  | aliasArity
  | useAlias
  | useArity
  | usePath
  | usePathEmpty
  -- shape of expressions and types
  | strayString
  | emptyForm
  | headNotIdentifier
  | assignArity
  | assignTarget
  | ifArity
  | whileArity
  | objectField
  | nestedDeclaration
  | defineArity
  | typeNameExpected
  | malformedType
  | nameExpected
  | typedNameExpected
  | identifierExpected
  -- meaning of names and types
  | notAnAlias (name : String)
  | notAnObject (name : String)
  | notAFunction (name : String)
  | fieldType (field type : String)
  | parameterType (parameter type : String)
  | variableType (name type : String)
  | strayObjectLiteral
  | notAValue (name : String)
  | notConstructible (type : String)
  -- what code generation cannot represent
  | fieldRepresentation (field : String)
  | structMissing (object : String)
  | chainMissing (object : String)
  | chainsUnavailable
  | arrayElement
  | calleeNotAFunction
  | parameterValue
  | bindingNotAVariable
  | variableValue
  | variableStorage
  | unboundVariable
  | constructorLiteral
  | fieldAccessArity
  | callUnresolved
  | intrinsicArity
  | arrayIntrinsicElement
  | scrutineeValue
  | literalMatchType
  | literalMatchNumber
  | patternUnresolved
  | bodyTooDeep
  -- what the binary format cannot represent
  | unknownLabel (label : Nat)
  | undefinedOperator (operator type : String)
  | undefinedEqz (type : String)
  | undeclaredFunction (function : Nat)
  deriving DecidableEq

namespace SemanticFault

def text : SemanticFault → String
  | pubArity => "pub takes exactly one declaration"
  | notExportable => "only fn, obj, type and mod declarations can be exported"
  | namespaceMissing => "declare requires a quoted namespace"
  | notADeclaration => "expected a declaration (fn, obj, type, mod, impl, declare, use or pub)"
  | nameMissing keyword => s!"{keyword} requires a name"
  | returnTypeArity => "return_type takes exactly one type"
  | parametersMissing fn => s!"fn `{fn}` requires a (parameters ...) form"
  | implTargetMissing => "impl requires a target type"
  | implItem => "impl blocks only contain fn declarations"
  | declareItem => "declare blocks only contain fn signatures"
  | declaredBody fn => s!"declared fn `{fn}` cannot have type parameters or a body"
  | extendsArity => "extends takes exactly one type"
  | aliasArity => "type takes a name and a type"
  | useAlias => "use alias must be an identifier"
  | useArity => "use takes a path and an optional alias"
  | usePath => "use path must be an identifier or a (:: ...) form"
  | usePathEmpty => "use path is empty"
  | strayString => "string literals are only valid as declare namespaces"
  | emptyForm => "empty form"
  | headNotIdentifier => "expected an identifier at the head of a form"
  | assignArity => "= takes a variable and a value"
  | assignTarget => "only variables can be assigned"
  | ifArity => "if takes a condition, a branch and an optional else branch"
  | whileArity => "while requires a condition"
  | objectField => "object fields are written (: name value)"
  | nestedDeclaration => "declarations are only allowed at module level"
  | defineArity => "define takes a name and an initializer"
  | typeNameExpected => "expected a type name"
  | malformedType => "malformed type"
  | nameExpected => "expected a name"
  | typedNameExpected => "expected (: name Type)"
  | identifierExpected => "expected an identifier"
  | notAnAlias name => s!"`{name}` is not a type alias"
  | notAnObject name => s!"`{name}` is not an object type"
  | notAFunction name => s!"`{name}` is not a function"
  | fieldType field type => s!"field `{field}` cannot have type {type}"
  | parameterType parameter type => s!"parameter `{parameter}` cannot have type {type}"
  | variableType name type => s!"`{name}` cannot hold a value of type {type}"
  | strayObjectLiteral => "object literals are only valid as constructor arguments"
  | notAValue name => s!"`{name}` is not a value"
  | notConstructible type => s!"values of type {type} cannot be constructed"
  | fieldRepresentation field => s!"field `{field}` has no runtime representation"
  | structMissing object => s!"`{object}` has no struct type"
  | chainMissing object => s!"`{object}` has no ancestor chain"
  | chainsUnavailable => "ancestor arrays are only available with object types"
  | arrayElement => "arrays need an element type with values"
  | calleeNotAFunction => "call target is not a function"
  | parameterValue => "parameters need a value type"
  | bindingNotAVariable => "binding is not a variable"
  | variableValue => "variables need a value type"
  | variableStorage => "variable has no storage"
  | unboundVariable => "unbound variable"
  | constructorLiteral => "constructor needs an object literal"
  | fieldAccessArity => "field access takes one value"
  | callUnresolved => "call was not resolved"
  | intrinsicArity => "intrinsic called with the wrong arity"
  | arrayIntrinsicElement => "array intrinsic without element type"
  | scrutineeValue => "match scrutinee has no value"
  | literalMatchType => "literal match on a non-primitive"
  | literalMatchNumber => "literal match on a non-numeric value"
  | patternUnresolved => "type pattern was not resolved"
  | bodyTooDeep => "expression is its own part"
  | unknownLabel label => s!"branch to unknown label {label}"
  | undefinedOperator operator type => s!"`{operator}` is not defined for {type}"
  | undefinedEqz type => s!"eqz is not defined for {type}"
  | undeclaredFunction function => s!"call to undeclared function {function}"

end SemanticFault

inductive Cause where
  | unreadableSource (reason : String)
  | missingLibrary (path : String)
  | lexical (fault : LexFault)
  | syntactic (fault : ReadFault)
  | unresolvedIdentifier (name : String)
  | unresolvedType (name : String)
  | arityMismatch (name : String) (found : Nat)
  | ambiguousOverload (name : String) (candidates : List String)
  | typeMismatch (expected found : String)
  | invalidGenericArgs (name : String) (expected found : Nat)
  | cyclicInstantiation (name : String)
  | nonExhaustiveMatch (scrutinee : String) (missing : List String)
  | invalidPattern (fault : PatternFault)
  | duplicateBinding (name : String)
  | cyclicInheritance (name : String)
  | invalidAssignment (name : String)
  | semantic (fault : SemanticFault)
  /-- The budget of nested questions ran out before an answer. -/
  | unfinished
  deriving DecidableEq

namespace Cause

def text : Cause → String
  | unreadableSource reason => s!"failed to read source: {reason}"
  | missingLibrary path => s!"standard library directory was not found at {path}"
  | lexical fault => s!"lex error: {fault.text}"
  | syntactic fault => s!"parse error: {fault.text}"
  | unresolvedIdentifier name => s!"unresolved identifier `{name}`"
  | unresolvedType name => s!"unresolved type `{name}`"
  | arityMismatch name found => s!"no overload of `{name}` takes {found} argument(s)"
  | ambiguousOverload name candidates =>
    s!"call to `{name}` is ambiguous between " ++ ", ".intercalate candidates
  | typeMismatch expected found => s!"type mismatch: expected {expected}, found {found}"
  | invalidGenericArgs name expected found =>
    s!"`{name}` expects {expected} type argument(s) but {found} were given"
  | cyclicInstantiation name => s!"cyclic instantiation of `{name}`"
  | nonExhaustiveMatch scrutinee missing =>
    s!"match on `{scrutinee}` does not handle " ++ ", ".intercalate missing
  | invalidPattern fault => s!"invalid pattern: {fault.text}"
  | duplicateBinding name => s!"`{name}` is already defined in this scope"
  | cyclicInheritance name => s!"`{name}` inherits from itself"
  | invalidAssignment name => s!"cannot assign to `{name}`"
  | semantic fault => s!"semantic error: {fault.text}"
  | unfinished => "resolution did not finish"

end Cause

/-- A refusal: the cause, and the place it refers to when it refers to source text. -/
structure Diagnostic where
  cause : Cause
  location : Option Location
  deriving DecidableEq

namespace Diagnostic

/-- A refusal of the source text at `loc`. -/
def here (loc : Location) (cause : Cause) : Diagnostic := ⟨cause, some loc⟩

def rule (loc : Location) (fault : SemanticFault) : Diagnostic := ⟨.semantic fault, some loc⟩

def message (d : Diagnostic) : String :=
  match d.location with
  | some loc => s!"{loc.text}: {d.cause.text}"
  | none => d.cause.text

end Diagnostic

end FormCompiler
