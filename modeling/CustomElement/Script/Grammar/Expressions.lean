import CustomElement.Script.Grammar.Classes

/-!
# The grammar of expressions

Literals, members and calls, operators and assignments. Where a parenthesis may start the parameters
of an arrow function, that is tried first.
-/

namespace CustomElement.Script.Grammar

/-- Up to `n` items with commas in between, then the closing mark. As long as all items are targets,
the whole has the given shape. -/
def itemsUpTo (item : Recognizer) (closer : String) : Nat → Shape → Recognizer
  | 0, _, _ => none
  | n + 1, shape, cs =>
    let closed (shape : Shape) : Recognizer := shaped shape (mark closer)
    let more : Recognizer := fun cs => do
      let o ← item cs
      let shape := if o.shape.isTarget then shape else .other
      alt [closed shape, before (mark ",") (itemsUpTo item closer n shape)] o.rest
    alt [closed shape, more] cs

/-- A literal of items in brackets. It can be read as a pattern if its items are targets. -/
def literalOf (opener : String) (item : Recognizer) (closer : String) : Recognizer :=
  before (mark opener) fun cs => itemsUpTo item closer (cs.length + 1) .pattern cs

variable (inner : Inner) (σ : Scope)

def objectMember : Recognizer :=
  let key := propertyName inner σ
  let rest (inside : Scope) (list : ParameterList) : Recognizer :=
    seq [methodSignature inner inside list, block inner inside]
  alt [before (mark "...") (inner .assignment σ),
    accessorOf inner σ key rest,
    methodOf inner σ key rest,
    before (seq [key, mark ":"]) (inner .assignment σ),
    shaped .assigned (seq [name, initializer inner σ]),
    shaped .name anyWord]

def objectLiteral : Recognizer :=
  literalOf openBrace (objectMember inner σ.inside) closeBrace

def arrayLiteral : Recognizer :=
  let element := inner .assignment σ.inside
  literalOf "[" (alt [shaped .name (ahead (mark ",")), before (mark "...") element, element]) "]"

/-- An expression in parentheses. It can be assigned to if what it holds can be. -/
def parenthesized : Recognizer := fun cs => do
  let opened ← mark "(" cs
  let held ← inner .expression σ.inside opened.rest
  let closed ← mark ")" held.rest
  return { closed with shape := if held.shape.isReference then held.shape else .other }

def functionExpression : Recognizer :=
  functionOf inner σ (opt name) false

def classExpression : Recognizer :=
  classOf inner σ (opt (seq [notAhead (word "implements"), className σ]))

def primary : Recognizer :=
  alt [functionExpression inner σ,
    shaped .name name,
    reference,
    wordThat ["this", "null", "true", "false"].contains,
    classExpression inner σ,
    only σ.knowsSuper (seq [word "super", ahead (oneOf ["(", ".", "["])]),
    seq [word "import", alt [ahead (mark "("), seq [mark ".", word "meta"]]],
    number,
    string,
    templateOf (inner .templateTail σ),
    regex,
    parenthesized inner σ,
    arrayLiteral inner σ,
    objectLiteral inner σ,
    seq [privateName, ahead (word "in")]]

def binaryMarks : List String :=
  ["||", "&&", "??", "|", "^", "&", "==", "!=", "===", "!==", "<", ">", "<=", ">=", "<<", ">>",
   ">>>", "+", "-", "*", "/", "%", "**"]

/-- What can follow type arguments: a call, a line end, an operator, or something that starts no expression. -/
def afterTypeArguments : Recognizer :=
  let startsExpression := alt [anyWord, number, string, privateName,
    oneOf ["[", openBrace, "!", "~", "++", "--", "@"]]
  let operator := alt [oneOf (binaryMarks.filter fun m => !(["<", ">", "+", "-"].contains m)),
    wordThat ["in", "instanceof", "as", "satisfies"].contains]
  alt [ahead (mark "("), ahead (templateOf nothing),
    seq [notAhead (oneOf ["<", ">", "+", "-"]),
      alt [fun cs => if startsLine cs then some ⟨cs, .other⟩ else none, ahead operator,
        notAhead startsExpression]]]

/-- A member, a call, or what else can follow an operand of the given shape. -/
def suffixOf (calls : Bool) (shape : Shape) : Recognizer :=
  let index := seq [mark "[", inner .expression σ.inside, mark "]"]
  let member := alt [anyWord, privateName]
  let call := seq [opt (only σ.typed (typeArguments inner σ)), arguments inner σ]
  let ifThere (s : Shape) : Shape := if shape == .optional then .optional else s
  alt [shaped (ifThere .member) (seq [mark ".", member]),
    shaped (ifThere .member) index,
    only calls (shaped .optional (seq [mark "?.", alt [call, index, member]])),
    only calls (shaped (ifThere .other) (arguments inner σ)),
    only (shape != .optional) (templateOf (inner .templateTail σ)),
    only σ.typed (shaped shape (seq [sameLine, mark "!"])),
    only σ.typed (shaped (ifThere .other) (seq [typeArguments inner σ, afterTypeArguments]))]

def suffixes (inner : Inner) (σ : Scope) (calls : Bool) : Nat → Outcome → Outcome
  | 0, o => o
  | n + 1, o =>
    match suffixOf inner σ calls o.shape o.rest with
    | some next => suffixes inner σ calls n next
    | none => o

def withSuffixes (calls : Bool) (operand : Recognizer) : Recognizer :=
  fun cs => (operand cs).map fun o => suffixes inner σ calls o.rest.length o

def newExpression : Recognizer :=
  seq [word "new",
    alt [only σ.knowsTarget (seq [mark ".", word "target"]),
      seq [withSuffixes inner σ false (inner .head σ),
        alt [arguments inner σ, notAhead (mark "?.")]]]]

def headRule : Recognizer :=
  alt [newExpression inner σ, primary inner σ]

def operandRule : Recognizer :=
  withSuffixes inner σ true (inner .head σ)

/-- An operand with the operators around it that apply to it alone. A name cannot be deleted. -/
def unaryRule : Recognizer :=
  let step := oneOf ["++", "--"]
  let operand : Recognizer := fun cs => do
    let o ← inner .operand σ cs
    if o.shape.isReference then (seq [sameLine, step] o.rest).or (some o) else some o
  alt [shaped .signed (seq [word "delete", ofShape (· != .name) (inner .unary σ)]),
    shaped .signed (seq [wordThat ["void", "typeof"].contains, inner .unary σ]),
    shaped .signed (seq [oneOf ["+", "-", "~", "!"], inner .unary σ]),
    seq [step, ofShape Shape.isReference (inner .unary σ)],
    only σ.awaits (seq [word "await", inner .unary σ]),
    operand,
    only σ.typed (before (seq [openAngle, alt [word "const", wholeType inner σ], closeAngle])
      (inner .unary σ))]

/-- Which of the operators that choose between two values a chain of operators has. They do not mix. -/
inductive Choice where
  | none
  | byAbsence
  | byTruth
deriving DecidableEq, Repr

/-- The choice of a chain with one more operator, whose left operand has the given shape. The base of a power has no sign.
-/
def Choice.with? (choice : Choice) (shape : Shape) : String → Option Choice
  | "??" => if choice == .byTruth then Option.none else some .byAbsence
  | "||" | "&&" => if choice == .byAbsence then Option.none else some .byTruth
  | "**" => if shape == .signed then Option.none else some choice
  | _ => some choice

def operatorAt? (σ : Scope) (cs : List Char) : Option (String × List Char) :=
  let cs := atToken cs
  match markAt? cs with
  | some m => if binaryMarks.contains m then some (m, cs.drop m.length) else none
  | none => (wordAt? cs).filter fun (w, _) => w == "instanceof" || (w == "in" && !σ.noIn)

def assertedType : Recognizer :=
  only σ.typed (seq [sameLine, wordThat ["as", "satisfies"].contains,
    alt [word "const", inner .type { σ.inside with noConditionalType := false }]])

def binarySteps (inner : Inner) (σ : Scope) : Nat → Choice → Outcome → Outcome
  | 0, _, o => o
  | n + 1, choice, o =>
    match assertedType inner σ o.rest with
    | some next => binarySteps inner σ n choice { next with shape := o.shape }
    | none =>
      let step := do
        let (operator, rest) ← operatorAt? σ o.rest
        let choice ← choice.with? o.shape operator
        let next ← inner .unary σ rest
        return (choice, { next with shape := if next.shape == .signed then .signed else .other })
      match step with
      | some (choice, next) => binarySteps inner σ n choice next
      | none => o

def binary : Recognizer := fun cs =>
  (inner .unary σ cs).map fun o => binarySteps inner σ o.rest.length .none o

/-- The two branches of a conditional expression. In the first one a colon after parameters may belong to an arrow
function; otherwise it ends the branch. -/
def branches : Recognizer :=
  let branch (noResultType : Bool) : Recognizer :=
    seq [mark "?", inner .assignment { σ with noIn := false, noResultType }, mark ":",
      inner .assignment σ]
  alt [branch false, branch true]

def conditional : Recognizer := fun cs => do
  let test ← binary inner σ cs
  (branches inner σ test.rest).or (some test)

def updateMarks : List String :=
  ["+=", "-=", "*=", "/=", "%=", "**=", "<<=", ">>=", ">>>=", "&=", "|=", "^=", "&&=", "||=", "??="]

/-- An expression, and what is assigned to it if it can be assigned to. -/
def assignable : Recognizer := fun cs => do
  let target ← conditional inner σ cs
  let refers := target.shape.isReference
  alt [only (refers || target.shape == .pattern)
      (shaped .assigned (seq [mark "=", inner .assignment σ])),
    only refers (seq [oneOf updateMarks, inner .assignment σ]),
    fun _ => some target] target.rest

def yieldExpression : Recognizer :=
  seq [word "yield", opt (seq [sameLine, opt (mark "*"), inner .assignment σ])]

def assignmentRule : Recognizer :=
  alt [arrowFunction inner σ, only σ.yields (yieldExpression inner σ), assignable inner σ]

def expressionRule : Recognizer := fun cs => do
  let first ← inner .assignment σ cs
  let more ← many (seq [mark ",", inner .assignment σ]) first.rest
  return if more.rest.length < first.rest.length then more else first

end CustomElement.Script.Grammar
