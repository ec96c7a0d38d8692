import CustomElement.Script.Grammar.Recognizer

/-!
# The grammar of types and bindings

Types, the names and patterns that are bound, and the parameters of functions, which hold both.
-/

namespace CustomElement.Script.Grammar

def openAngle : Recognizer := fun cs =>
  match atToken cs with
  | '<' :: rest => some ⟨rest, .other⟩
  | _ => none

variable (inner : Inner) (σ : Scope)

def wholeType : Recognizer := inner .type σ.inside

def typeClause : Recognizer := seq [mark ":", wholeType inner σ]

def typedResult : Recognizer :=
  seq [mark ":", inner .resultType σ.inside]

def typeArguments : Recognizer :=
  seq [openAngle, commas (wholeType inner σ), closeAngle]

def typeArguments? : Recognizer :=
  let opening := seq [sameLine, mark "<"]
  alt [seq [ahead opening, typeArguments inner σ], notAhead opening]

def typeParameter : Recognizer :=
  seq [many (seq [wordThat ["const", "in", "out"].contains, ahead anyWord]), name,
    opt (seq [word "extends", wholeType inner σ]), opt (seq [mark "=", wholeType inner σ])]

def typeParameters : Recognizer :=
  seq [openAngle, commas (typeParameter inner σ), closeAngle]

/-- The name of a property: a word, a literal, or an expression in brackets. -/
def propertyName : Recognizer :=
  alt [anyWord, string, number, privateName,
    seq [mark "[", inner .assignment σ.inside, mark "]"]]

def initializer : Recognizer :=
  seq [mark "=", inner .assignment { σ with noConditionalType := false }]

/-- Items with commas in between, then maybe one that stands for the rest and nothing after it. -/
def itemsThenRest (item rest : Recognizer) : Recognizer :=
  alt [rest,
    seq [sepBy item (mark ","), alt [seq [mark ",", rest], opt (mark ",")]],
    nothing]

def objectPattern : Recognizer :=
  let item := alt [
    seq [propertyName inner σ, mark ":", inner .binding σ, opt (initializer inner σ.inside)],
    seq [name, opt (initializer inner σ.inside)]]
  seq [mark openBrace, itemsThenRest item (seq [mark "...", name]), mark closeBrace]

def arrayPattern : Recognizer :=
  let item := alt [seq [inner .binding σ, opt (initializer inner σ.inside)], ahead (mark ",")]
  seq [mark "[", itemsThenRest item (seq [mark "...", inner .binding σ]), mark "]"]

def bindingRule : Recognizer :=
  alt [name, objectPattern inner σ, arrayPattern inner σ]

def arguments : Recognizer :=
  bracketed "(" (seq [opt (mark "..."), inner .assignment σ.inside]) ")"

def decorator : Recognizer :=
  seq [mark "@",
    alt [seq [mark "(", inner .expression σ.inside, mark ")"],
      seq [name, many (seq [mark ".", alt [anyWord, privateName]]),
        opt (only σ.typed (seq [typeArguments inner σ, ahead (mark "(")])),
        opt (arguments inner σ)]]]

def decorators : Recognizer := many (decorator inner σ)

def propertyModifiers : List String := ["public", "private", "protected", "readonly", "override"]

/-- A parameter after its decorators. One that may be left out has no initial value. -/
def plainParameter : Recognizer :=
  let type := opt (only σ.typed (typeClause inner σ))
  alt [only σ.typed (seq [word "this", type]),
    seq [inner .binding σ,
      alt [only σ.typed (seq [mark "?", type, notAhead (mark "=")]),
        seq [type, opt (initializer inner σ.inside)]]]]

def propertyParameter : Recognizer :=
  let modifier := seq [wordThat propertyModifiers.contains, ahead name]
  seq [modifier, many modifier, ahead name, plainParameter inner σ]

/-- The parameters of a function; `properties` says that they can be properties. -/
def parametersOf (properties : Bool) : Recognizer :=
  let item := seq [decorators inner σ,
    alt [only (σ.typed && properties) (propertyParameter inner σ), plainParameter inner σ]]
  let rest := seq [decorators inner σ, mark "...", inner .binding σ,
    opt (only σ.typed (typeClause inner σ))]
  seq [mark "(", itemsThenRest item rest, mark ")"]

def parameters : Recognizer := parametersOf inner σ false

def typedResult? : Recognizer :=
  opt (only σ.typed (typedResult inner σ))

/-- The type parameters, the parameters and the type of the result of a function. -/
def signature : Recognizer :=
  seq [opt (only σ.typed (typeParameters inner σ)), parameters inner σ, typedResult? inner σ]

def typeMemberEnd : Recognizer := alt [mark ",", statementEnd]

def indexSignature : Recognizer :=
  seq [mark "[", name, typeClause inner σ, mark "]", opt (typeClause inner σ)]

def typeMember : Recognizer :=
  let key := propertyName inner σ
  let readonly := opt (seq [word "readonly", ahead (alt [key, mark "["])])
  alt [seq [signature inner σ, typeMemberEnd],
    seq [word "new", signature inner σ, typeMemberEnd],
    seq [wordThat ["get", "set"].contains, key, signature inner σ, typeMemberEnd],
    seq [readonly, indexSignature inner σ, typeMemberEnd],
    seq [readonly, key, opt (mark "?"), signature inner σ, typeMemberEnd],
    seq [readonly, key, opt (mark "?"), opt (typeClause inner σ), typeMemberEnd]]

def typeMembers : Recognizer :=
  seq [mark openBrace, many (typeMember inner σ), mark closeBrace]

def mappedType : Recognizer :=
  let sign := opt (oneOf ["+", "-"])
  seq [mark openBrace, opt (seq [sign, word "readonly", ahead (mark "[")]), mark "[", name,
    word "in", wholeType inner σ, opt (seq [word "as", wholeType inner σ]), mark "]",
    opt (seq [sign, mark "?"]), opt (typeClause inner σ), opt (oneOf [";", ","]), mark closeBrace]

def tupleElement : Recognizer :=
  alt [seq [opt (mark "..."), anyWord, opt (mark "?"), typeClause inner σ],
    seq [opt (mark "..."), wholeType inner σ, opt (mark "?")]]

def importType : Recognizer :=
  seq [word "import", mark "(", string,
    opt (seq [mark ",", opt (inner .assignment σ.inside), opt (mark ",")]), mark ")",
    many (seq [mark ".", anyWord]), typeArguments? inner σ]

def entityName : Recognizer :=
  seq [alt [name, word "this"], many (seq [mark ".", alt [anyWord, privateName]])]

def namedType : Recognizer := seq [entityName, typeArguments? inner σ]

def typeWords : List String := ["void", "null", "true", "false"]

def primaryType : Recognizer :=
  alt [seq [mark "(", wholeType inner σ, mark ")"],
    bracketed "[" (tupleElement inner σ) "]",
    mappedType inner σ,
    typeMembers inner σ,
    string,
    number,
    seq [mark "-", number],
    templateOf (inner .typeTemplateTail σ),
    seq [word "typeof", alt [importType inner σ, namedType inner σ]],
    importType inner σ,
    wordThat typeWords.contains,
    seq [word "this", opt (seq [sameLine, word "is", inner .type σ])],
    namedType inner σ]

def functionType : Recognizer :=
  seq [opt (seq [opt (word "abstract"), word "new"]), opt (typeParameters inner σ),
    parameters inner σ, mark "=>", inner .resultType σ]

/-- An operand of a union: operators in front, and brackets behind on the same line. -/
def typeOperandRule : Recognizer :=
  let constraint := seq [word "extends", inner .type { σ with noConditionalType := true },
    only (!σ.noConditionalType) (notAhead (mark "?"))]
  let looseConstraint := seq [word "extends", inner .type { σ with noConditionalType := true }]
  let operator := wordThat ["keyof", "unique", "readonly"].contains
  alt [seq [operator, inner .typeOperand σ],
    seq [word "infer", name, opt (if σ.noConditionalType then looseConstraint else constraint)],
    functionType inner σ,
    seq [notAhead operator, primaryType inner σ,
      many (seq [sameLine, mark "[", opt (wholeType inner σ), mark "]"])]]

def unionType : Recognizer :=
  let operator := oneOf ["|", "&"]
  seq [opt operator, sepBy (inner .typeOperand σ) operator]

def typeRule : Recognizer :=
  let test := { σ with noConditionalType := true }
  seq [unionType inner σ,
    opt (only (!σ.noConditionalType)
      (seq [sameLine, word "extends", unionType inner test, mark "?", wholeType inner σ, mark ":",
        wholeType inner σ]))]

def resultTypeRule : Recognizer :=
  let predicate := seq [word "is", inner .type σ]
  alt [seq [word "asserts", sameLine, alt [name, word "this"], opt predicate],
    seq [name, sameLine, predicate],
    inner .type σ]

end CustomElement.Script.Grammar
