/-! The kinds of syntax nodes. Those that the checker treats in a way of their own have a
constructor; the others are known by name only. -/

namespace ExtensibleCheck

/-- The kinds of node that are a type and can be nothing else. -/
inductive TypeForm where
  | voidKeyword
  | anyKeyword
  | booleanKeyword
  | intrinsicKeyword
  | neverKeyword
  | numberKeyword
  | objectKeyword
  | stringKeyword
  | symbolKeyword
  | undefinedKeyword
  | unknownKeyword
  | bigIntKeyword
  | typePredicate
  | typeReference
  | functionType
  | constructorType
  | typeQuery
  | typeLiteral
  | arrayType
  | tupleType
  | optionalType
  | restType
  | unionType
  | intersectionType
  | conditionalType
  | inferType
  | parenthesizedType
  | thisType
  | typeOperator
  | indexedAccessType
  | mappedType
  | literalType
  | namedTupleMember
  | templateLiteralType
  | templateLiteralTypeSpan
  | importType
  | jsDocAllType
  | jsDocUnknownType
  | jsDocNullableType
  | jsDocNonNullableType
  | jsDocOptionalType
  | jsDocFunctionType
  | jsDocVariadicType
  deriving DecidableEq

namespace TypeForm

def name : TypeForm → String
  | voidKeyword => "VoidKeyword"
  | anyKeyword => "AnyKeyword"
  | booleanKeyword => "BooleanKeyword"
  | intrinsicKeyword => "IntrinsicKeyword"
  | neverKeyword => "NeverKeyword"
  | numberKeyword => "NumberKeyword"
  | objectKeyword => "ObjectKeyword"
  | stringKeyword => "StringKeyword"
  | symbolKeyword => "SymbolKeyword"
  | undefinedKeyword => "UndefinedKeyword"
  | unknownKeyword => "UnknownKeyword"
  | bigIntKeyword => "BigIntKeyword"
  | typePredicate => "TypePredicate"
  | typeReference => "TypeReference"
  | functionType => "FunctionType"
  | constructorType => "ConstructorType"
  | typeQuery => "TypeQuery"
  | typeLiteral => "TypeLiteral"
  | arrayType => "ArrayType"
  | tupleType => "TupleType"
  | optionalType => "OptionalType"
  | restType => "RestType"
  | unionType => "UnionType"
  | intersectionType => "IntersectionType"
  | conditionalType => "ConditionalType"
  | inferType => "InferType"
  | parenthesizedType => "ParenthesizedType"
  | thisType => "ThisType"
  | typeOperator => "TypeOperator"
  | indexedAccessType => "IndexedAccessType"
  | mappedType => "MappedType"
  | literalType => "LiteralType"
  | namedTupleMember => "NamedTupleMember"
  | templateLiteralType => "TemplateLiteralType"
  | templateLiteralTypeSpan => "TemplateLiteralTypeSpan"
  | importType => "ImportType"
  | jsDocAllType => "JSDocAllType"
  | jsDocUnknownType => "JSDocUnknownType"
  | jsDocNullableType => "JSDocNullableType"
  | jsDocNonNullableType => "JSDocNonNullableType"
  | jsDocOptionalType => "JSDocOptionalType"
  | jsDocFunctionType => "JSDocFunctionType"
  | jsDocVariadicType => "JSDocVariadicType"

def all : List TypeForm :=
  [voidKeyword, anyKeyword, booleanKeyword, intrinsicKeyword, neverKeyword, numberKeyword,
    objectKeyword, stringKeyword, symbolKeyword, undefinedKeyword, unknownKeyword, bigIntKeyword,
    typePredicate, typeReference, functionType, constructorType, typeQuery, typeLiteral,
    arrayType, tupleType, optionalType, restType, unionType, intersectionType, conditionalType,
    inferType, parenthesizedType, thisType, typeOperator, indexedAccessType, mappedType,
    literalType, namedTupleMember, templateLiteralType, templateLiteralTypeSpan, importType,
    jsDocAllType, jsDocUnknownType, jsDocNullableType, jsDocNonNullableType, jsDocOptionalType,
    jsDocFunctionType, jsDocVariadicType]

end TypeForm

/-- What an assignment does to its target before storing: nothing, or an operation together with the
old value. -/
inductive AssignmentOperator where
  | plain
  | add
  | subtract
  | multiply
  | power
  | divide
  | remainder
  | shiftLeft
  | shiftRight
  | shiftRightUnsigned
  | bitAnd
  | bitOr
  | logicalOr
  | logicalAnd
  | coalesce
  | bitXor
  deriving DecidableEq

namespace AssignmentOperator

/-- The name of the operator's token. -/
def name : AssignmentOperator → String
  | plain => "EqualsToken"
  | add => "PlusEqualsToken"
  | subtract => "MinusEqualsToken"
  | multiply => "AsteriskEqualsToken"
  | power => "AsteriskAsteriskEqualsToken"
  | divide => "SlashEqualsToken"
  | remainder => "PercentEqualsToken"
  | shiftLeft => "LessThanLessThanEqualsToken"
  | shiftRight => "GreaterThanGreaterThanEqualsToken"
  | shiftRightUnsigned => "GreaterThanGreaterThanGreaterThanEqualsToken"
  | bitAnd => "AmpersandEqualsToken"
  | bitOr => "BarEqualsToken"
  | logicalOr => "BarBarEqualsToken"
  | logicalAnd => "AmpersandAmpersandEqualsToken"
  | coalesce => "QuestionQuestionEqualsToken"
  | bitXor => "CaretEqualsToken"

def all : List AssignmentOperator :=
  [plain, add, subtract, multiply, power, divide, remainder, shiftLeft, shiftRight,
    shiftRightUnsigned, bitAnd, bitOr, logicalOr, logicalAnd, coalesce, bitXor]

/-- A compound assignment stores the result of the whole operation. -/
def isCompound (operator : AssignmentOperator) : Bool := operator ≠ plain

end AssignmentOperator

inductive Kind where
  | sourceFile
  | classDeclaration
  | classExpression
  | methodDeclaration
  | constructorDeclaration
  | functionDeclaration
  | getAccessor
  | setAccessor
  | arrowFunction
  | functionExpression
  | methodSignature
  | callSignature
  | constructSignature
  | indexSignature
  | jsDocSignature
  | callExpression
  | newExpression
  | propertyAccess
  | elementAccess
  | identifier
  | privateIdentifier
  | stringLiteral
  | plainTemplate
  | numericLiteral
  | qualifiedName
  | shorthandProperty
  | variableDeclaration
  | propertyDeclaration
  | parameter
  | binaryExpression
  | returnStatement
  | block
  | heritageClause
  | expressionWithTypeArguments
  | importDeclaration
  | exportDeclaration
  | interfaceDeclaration
  | typeAliasDeclaration
  | assignment (operator : AssignmentOperator)
  | typeForm (form : TypeForm)
  | other (name : String)
  deriving DecidableEq

namespace Kind

def name : Kind → String
  | sourceFile => "SourceFile"
  | classDeclaration => "ClassDeclaration"
  | classExpression => "ClassExpression"
  | methodDeclaration => "MethodDeclaration"
  | constructorDeclaration => "Constructor"
  | functionDeclaration => "FunctionDeclaration"
  | getAccessor => "GetAccessor"
  | setAccessor => "SetAccessor"
  | arrowFunction => "ArrowFunction"
  | functionExpression => "FunctionExpression"
  | methodSignature => "MethodSignature"
  | callSignature => "CallSignature"
  | constructSignature => "ConstructSignature"
  | indexSignature => "IndexSignature"
  | jsDocSignature => "JSDocSignature"
  | callExpression => "CallExpression"
  | newExpression => "NewExpression"
  | propertyAccess => "PropertyAccessExpression"
  | elementAccess => "ElementAccessExpression"
  | identifier => "Identifier"
  | privateIdentifier => "PrivateIdentifier"
  | stringLiteral => "StringLiteral"
  | plainTemplate => "NoSubstitutionTemplateLiteral"
  | numericLiteral => "NumericLiteral"
  | qualifiedName => "QualifiedName"
  | shorthandProperty => "ShorthandPropertyAssignment"
  | variableDeclaration => "VariableDeclaration"
  | propertyDeclaration => "PropertyDeclaration"
  | parameter => "Parameter"
  | binaryExpression => "BinaryExpression"
  | returnStatement => "ReturnStatement"
  | block => "Block"
  | heritageClause => "HeritageClause"
  | expressionWithTypeArguments => "ExpressionWithTypeArguments"
  | importDeclaration => "ImportDeclaration"
  | exportDeclaration => "ExportDeclaration"
  | interfaceDeclaration => "InterfaceDeclaration"
  | typeAliasDeclaration => "TypeAliasDeclaration"
  | assignment operator => operator.name
  | typeForm form => form.name
  | other name => name

/-- The kinds that have a constructor of their own. -/
def known : List Kind :=
  [sourceFile, classDeclaration, classExpression, methodDeclaration, constructorDeclaration,
    functionDeclaration, getAccessor, setAccessor, arrowFunction, functionExpression,
    methodSignature, callSignature, constructSignature, indexSignature, jsDocSignature,
    callExpression, newExpression, propertyAccess, elementAccess, identifier, privateIdentifier,
    stringLiteral, plainTemplate, numericLiteral, qualifiedName, shorthandProperty,
    variableDeclaration, propertyDeclaration, parameter, binaryExpression, returnStatement, block,
    heritageClause, expressionWithTypeArguments, importDeclaration, exportDeclaration,
    interfaceDeclaration, typeAliasDeclaration]
    ++ AssignmentOperator.all.map assignment ++ TypeForm.all.map typeForm

def ofName (name : String) : Kind := (known.find? (·.name == name)).getD (other name)

/-- Type nodes. An expression with type arguments counts among them wherever it stands. -/
def isTypeNode : Kind → Bool
  | typeForm _ | expressionWithTypeArguments => true
  | _ => false

def isClassLike : Kind → Bool
  | classDeclaration | classExpression => true
  | _ => false

def isFunctionLike : Kind → Bool
  | methodSignature | methodDeclaration | constructorDeclaration | getAccessor | setAccessor
  | callSignature | constructSignature | indexSignature | typeForm .functionType
  | typeForm .constructorType | functionExpression | arrowFunction | functionDeclaration
  | typeForm .jsDocFunctionType | jsDocSignature => true
  | _ => false

/-- The declarations that extensions are told about as methods. -/
def isMethodLike : Kind → Bool
  | methodDeclaration | constructorDeclaration | functionDeclaration | getAccessor
  | setAccessor => true
  | _ => false

/-- Function expressions and arrow functions, which may bring extensions of their own. -/
def isClosure : Kind → Bool
  | arrowFunction | functionExpression => true
  | _ => false

/-- Functions and classes own what is reported inside them. -/
def isOwner (kind : Kind) : Bool := kind.isFunctionLike || kind.isClassLike

end Kind

end ExtensibleCheck
