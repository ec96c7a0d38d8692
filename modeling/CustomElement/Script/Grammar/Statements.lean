import CustomElement.Script.Grammar.Expressions

/-!
# The grammar of statements and modules
-/

namespace CustomElement.Script.Grammar

variable (inner : Inner) (σ : Scope)

/-- A variable with its value. A pattern needs one, and so does a constant unless `bare` is allowed. -/
def declarator (bare : Bool) : Recognizer :=
  let typing := seq [opt (only σ.typed (mark "!")), opt (only σ.typed (typeClause inner σ))]
  alt [seq [inner .binding σ, typing, initializer inner σ], only bare (seq [name, typing])]

/-- Variables with commas in between, after the word that declares them. -/
def declarators : Recognizer :=
  alt [seq [wordThat ["var", "let"].contains, sepBy (declarator inner σ true) (mark ",")],
    seq [word "const", sepBy (declarator inner σ σ.ambient) (mark ",")]]

def functionDeclaration : Recognizer :=
  functionOf inner σ name true

def classDeclaration : Recognizer := classOf inner σ (className σ)

def interfaceDeclaration : Recognizer :=
  seq [word "interface", typeName, opt (typeParameters inner σ),
    opt (seq [word "extends", commas (namedType inner σ)]), typeMembers inner σ]

def typeAlias : Recognizer :=
  seq [word "type", sameLine, name, opt (typeParameters inner σ), mark "=", wholeType inner σ,
    statementEnd]

def enumeration : Recognizer :=
  let member := seq [notAhead number, propertyName inner σ, opt (initializer inner σ.inside)]
  seq [opt (word "const"), word "enum", name, bracketed openBrace member closeBrace]

def moduleBlock : Recognizer :=
  seq [mark openBrace, many (inner .moduleItem σ), mark closeBrace]

def namespaceDeclaration : Recognizer :=
  alt [seq [wordThat ["namespace", "module"].contains, sameLine, entityName, moduleBlock inner σ],
    seq [word "module", sameLine, string, alt [moduleBlock inner σ, statementEnd]],
    seq [word "global", moduleBlock inner σ]]

def ambientDeclaration : Recognizer :=
  seq [word "declare", sameLine, inner .declaration { σ with ambient := true }]

def typedDeclaration : Recognizer :=
  alt [interfaceDeclaration inner σ, typeAlias inner σ, enumeration inner σ,
    namespaceDeclaration inner σ, ambientDeclaration inner σ]

def declarationRule : Recognizer :=
  alt [only σ.typed (typedDeclaration inner σ), functionDeclaration inner σ,
    classDeclaration inner σ, seq [declarators inner σ, statementEnd]]

def test : Recognizer :=
  seq [mark "(", inner .expression σ.inside, mark ")"]

def forHead : Recognizer :=
  let σ := σ.inside
  let noIn := { σ with noIn := true }
  let source := alt [seq [word "of", inner .assignment σ], seq [word "in", inner .expression σ]]
  let clauses := seq [mark ";", opt (inner .expression σ), mark ";", opt (inner .expression σ)]
  alt [seq [wordThat ["var", "let", "const"].contains, inner .binding σ, source],
    seq [declarators inner noIn, clauses],
    seq [ofShape (fun s => s.isReference || s == .pattern) (inner .operand noIn),
      opt (assertedType inner σ), source],
    seq [opt (inner .expression noIn), clauses]]

def forStatement : Recognizer :=
  seq [word "for", opt (word "await"), mark "(", forHead inner σ, mark ")",
    inner .statement σ.loop]

def switchStatement : Recognizer :=
  let inside := { σ with breaks := true }
  let items := seq [mark ":", many (inner .item inside)]
  let case := seq [word "case", inner .expression σ.inside, items]
  seq [word "switch", test inner σ, mark openBrace, many case,
    opt (seq [word "default", items, many case]), mark closeBrace]

def tryStatement : Recognizer :=
  let parameter := seq [mark "(", inner .binding σ, opt (only σ.typed (typeClause inner σ)), mark ")"]
  let handler := seq [word "catch", opt parameter, block inner σ]
  let finalizer := seq [word "finally", block inner σ]
  seq [word "try", block inner σ, alt [seq [handler, opt finalizer], finalizer]]

/-- A `break` or `continue`, alone where `bare` holds, or with a label that is around it. -/
def jump (σ : Scope) (w : String) (bare : Bool) : Recognizer :=
  seq [word w, alt [seq [sameLine, wordThat σ.labels.contains], only bare nothing], statementEnd]

def labelled : Recognizer := fun cs => do
  let (label, _) ← wordAt? cs
  guard !σ.labels.contains label
  let inside := { σ with labels := label :: σ.labels }
  seq [name, mark ":", alt [functionDeclaration inner inside, inner .statement inside]] cs

def expressionStatement : Recognizer :=
  seq [notAhead (alt [mark openBrace, word "function", word "class",
      seq [word "async", sameLine, word "function"]]),
    inner .expression σ.inside, statementEnd]

def statementRule : Recognizer :=
  let body := inner .statement σ
  alt [block inner σ,
    mark ";",
    seq [word "var", sepBy (declarator inner σ true) (mark ","), statementEnd],
    seq [word "if", test inner σ, body, opt (seq [word "else", body])],
    forStatement inner σ,
    seq [word "while", test inner σ, inner .statement σ.loop],
    seq [word "do", inner .statement σ.loop, word "while", test inner σ, opt (mark ";")],
    only σ.inFunction (seq [word "return", opt (seq [sameLine, inner .expression σ.inside]),
      statementEnd]),
    jump σ "break" σ.breaks,
    jump σ "continue" σ.continues,
    seq [word "throw", sameLine, inner .expression σ.inside, statementEnd],
    tryStatement inner σ,
    switchStatement inner σ,
    seq [word "debugger", statementEnd],
    labelled inner σ,
    expressionStatement inner σ]

def itemRule : Recognizer :=
  alt [inner .declaration σ, inner .statement σ]

def importAttributes : Recognizer :=
  opt (seq [alt [word "with", seq [sameLine, word "assert"]], objectLiteral inner σ])

def fromModule : Recognizer :=
  seq [word "from", string, importAttributes inner σ]

def specifiers (σ : Scope) (plain there here : Recognizer) : Recognizer :=
  let entry := alt [seq [there, word "as", here], seq [plain, notAhead (word "as")]]
  bracketed openBrace
    (alt [seq [entry, ahead (oneOf [",", closeBrace])],
      only σ.typed (seq [word "type", entry, ahead (oneOf [",", closeBrace])])])
    closeBrace

def moduleName : Recognizer := alt [anyWord, string]

def importClause (σ : Scope) : Recognizer :=
  let all := seq [mark "*", word "as", name]
  let named := alt [all, specifiers σ name moduleName name]
  alt [seq [name, mark ",", named], named, seq [name, ahead (word "from")]]

def importAlias : Recognizer :=
  seq [opt (seq [word "type", ahead (seq [name, mark "="])]), name, mark "=",
    alt [seq [word "require", mark "(", string, mark ")"], entityName],
    statementEnd]

def importDeclaration : Recognizer :=
  let clause := seq [importClause σ, fromModule inner σ, statementEnd]
  seq [word "import",
    alt [seq [string, importAttributes inner σ, opt (mark ";")],
      clause,
      only σ.typed (seq [word "type", clause]),
      only σ.typed (importAlias)]]

def exportDefault : Recognizer :=
  alt [functionOf inner σ (opt name) true,
    classOf inner σ (opt (seq [notAhead (word "implements"), className σ])),
    only σ.typed (interfaceDeclaration inner σ),
    seq [notAhead (alt [word "function", word "class"]), inner .assignment σ.inside, statementEnd]]

def exportDeclaration : Recognizer :=
  let names := alt [
    seq [mark "*", opt (seq [word "as", moduleName]), fromModule inner σ, statementEnd],
    seq [specifiers σ moduleName moduleName moduleName, fromModule inner σ, statementEnd],
    seq [specifiers σ reference reference moduleName, statementEnd]]
  seq [if σ.typed then decorators inner σ else nothing, word "export",
    alt [names,
      seq [word "default", exportDefault inner σ],
      only σ.typed (seq [word "type", names]),
      only σ.typed (seq [mark "=", inner .expression σ.inside, statementEnd]),
      only σ.typed (seq [word "as", word "namespace", name, statementEnd]),
      only σ.typed (seq [word "import", importAlias]),
      inner .declaration σ]]

def moduleItemRule : Recognizer :=
  alt [importDeclaration inner σ, exportDeclaration inner σ, inner .item σ]

end CustomElement.Script.Grammar
