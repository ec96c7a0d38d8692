import CustomElement.Script.Grammar.Types

/-!
# The grammar of functions and classes

Functions, arrow functions and methods, and the classes that hold methods and fields.
-/

namespace CustomElement.Script.Grammar

variable (inner : Inner) (σ : Scope)

def block : Recognizer :=
  seq [mark openBrace, many (inner .item σ), mark closeBrace]

/-- The word `function` and what comes with it, up to the name; `rest` gets what they say. -/
def functionHead (rest : (async generator : Bool) → Recognizer) : Recognizer :=
  let async := seq [word "async", sameLine, word "function"]
  alt [seq [async, mark "*", rest true true], seq [async, rest true false],
    seq [word "function", mark "*", rest false true], seq [word "function", rest false false]]

/-- A function whose name `named` reads. Where it is declared, the body may be missing. -/
def functionOf (named : Recognizer) (declared : Bool) : Recognizer :=
  functionHead fun async generator =>
    let inside := σ.function async generator
    seq [named, signature inner inside,
      alt [only (!(declared && σ.ambient)) (block inner inside),
        only (declared && σ.typed) statementEnd]]

abbrev ParameterList := Scope → Recognizer

def noParameters : ParameterList := fun _ => seq [mark "(", mark ")"]

def oneParameter (inner : Inner) : ParameterList := fun σ =>
  seq [mark "(", decorators inner σ, plainParameter inner σ, opt (mark ","), mark ")"]

def methodOf (key : Recognizer)
    (rest : (inside : Scope) → ParameterList → Recognizer) : Recognizer :=
  let plain (async generator : Bool) : Recognizer :=
    seq [key, rest (σ.method async generator) (parameters inner)]
  alt [seq [word "async", sameLine, mark "*", plain true true],
    seq [word "async", sameLine, plain true false],
    seq [mark "*", plain false true],
    plain false false]

/-- A getter or setter with its name; `rest` reads the part after the name. -/
def accessorOf (key : Recognizer)
    (rest : (inside : Scope) → ParameterList → Recognizer) : Recognizer :=
  let inside := σ.method false false
  alt [seq [word "get", key, rest inside noParameters],
    seq [word "set", key, rest inside (oneParameter inner)]]

def methodSignature (inner : Inner) (inside : Scope) (list : ParameterList) : Recognizer :=
  seq [opt (only inside.typed (typeParameters inner inside)), list inside, typedResult? inner inside]

def arrowBody (async : Bool) : Recognizer :=
  let inside := σ.arrow async
  alt [seq [ahead (mark openBrace), block inner inside],
    seq [notAhead (mark openBrace),
      inner .assignment { inside with noIn := σ.noIn, noResultType := σ.noResultType }]]

def arrowRest (async : Bool) : Recognizer :=
  let inside := σ.arrow async
  let body := seq [mark "=>", arrowBody inner σ async]
  alt [seq [name, if async then nothing else sameLine, body],
    seq [opt (only σ.typed (typeParameters inner inside)), parameters inner inside,
      opt (only (σ.typed && !σ.noResultType) (typedResult inner inside)), sameLine, body]]

def arrowFunction : Recognizer :=
  alt [seq [word "async", sameLine, arrowRest inner σ true], arrowRest inner σ false]

inductive Modifier where
  | declared
  /-- Who can use the member. -/
  | access
  | static
  | abstract
  | override
  | readonly
  | accessor
deriving DecidableEq, Repr

def Modifier.ofWord? : String → Option Modifier
  | "declare" => some .declared
  | "public" | "private" | "protected" => some .access
  | "static" => some .static
  | "abstract" => some .abstract
  | "override" => some .override
  | "readonly" => some .readonly
  | "accessor" => some .accessor
  | _ => none

def Modifier.precedes : Modifier → Modifier → Bool
  | .declared, m => m != .declared && m != .override
  | .access, m => m != .access
  | .static, m | .abstract, m | .accessor, m => m != .declared && m != .access
  | .readonly, m => m == .static || m == .abstract
  | .override, m => m == .readonly || m == .accessor

def inOrder : List Modifier → Bool
  | [] => true
  | m :: ms => ms.all m.precedes && inOrder ms

structure ClassHead where
  abstract : Bool
  derived : Bool

def ClassHead.admits (head : ClassHead) (ms : List Modifier) : Bool :=
  inOrder ms && (head.derived || !ms.contains .override) &&
    (head.abstract || ms.contains .accessor || !ms.contains .abstract)

/-- Up to `n` modifiers, and the text after them. A word is one if the name of a member follows. -/
def modifiersAt (inner : Inner) (σ : Scope) : Nat → List Char → List Modifier × List Char
  | 0, cs => ([], cs)
  | n + 1, cs =>
    let follows := ahead (alt [propertyName inner σ, oneOf ["[", "*"]])
    let found := do
      let (w, rest) ← wordAt? cs
      let m ← Modifier.ofWord? w
      guard (σ.typed || m == .static)
      let _ ← (if m == .static then follows else seq [sameLine, follows]) rest
      return (m, rest)
    match found with
    | some (m, rest) =>
      let (ms, rest) := modifiersAt inner σ n rest
      (m :: ms, rest)
    | none => ([], cs)

def constructorName : Recognizer := word "constructor"

def constructorOf : Recognizer :=
  let inside := σ.method false false
  seq [constructorName, parametersOf inner inside true, typedResult? inner inside,
    only (!σ.ambient) (block inner inside)]

def admitsConstructor (ms : List Modifier) : Bool :=
  ms.all fun m => m == .access || m == .accessor

/-- A member of a class after its modifiers, other than a constructor with its body. -/
def memberOf (ms : List Modifier) : Recognizer :=
  let key :=
    if ms.contains .static then propertyName inner σ
    else seq [notAhead constructorName, propertyName inner σ]
  let rest (inside : Scope) (list : ParameterList) : Recognizer :=
    seq [opt (only σ.typed (mark "?")), methodSignature inner inside list,
      alt [only (!ms.contains .abstract && !σ.ambient) (block inner inside),
        only σ.typed statementEnd]]
  let bare := σ.method false false
  alt [only (σ.typed && admitsConstructor ms)
      (seq [constructorName, parameters inner bare, typedResult? inner bare, statementEnd]),
    only (!ms.contains .readonly) (accessorOf inner σ key rest),
    only (ms.all fun m => m != .readonly && m != .declared) (methodOf inner σ key rest),
    only (σ.typed && !ms.contains .access) (seq [indexSignature inner σ, statementEnd]),
    seq [key, opt (only σ.typed (oneOf ["?", "!"])), opt (only σ.typed (typeClause inner σ)),
      opt (only (!ms.contains .abstract || ms.contains .accessor) (initializer inner σ.field)),
      statementEnd]]

/-- A member of a class with its decorators and modifiers; `rest` reads what follows them. -/
def modified (head : ClassHead) (rest : List Modifier → Recognizer) :
    Recognizer :=
  let afterDecorators : Recognizer := fun cs =>
    let (ms, cs) := modifiersAt inner σ cs.length cs
    if head.admits ms then rest ms cs else none
  seq [decorators inner σ, afterDecorators]

/-- The members of a class, among which there is at most one constructor with a body. -/
def classMembers (head : ClassHead) : Recognizer :=
  let member := alt [mark ";", seq [word "static", block inner σ.setup],
    modified inner σ head (memberOf inner σ)]
  let implementation := modified inner σ head fun ms =>
    only (admitsConstructor ms) (constructorOf inner σ)
  seq [mark openBrace, many member, opt (seq [implementation, many member]), mark closeBrace]

def typeNames : List String :=
  ["any", "unknown", "never", "number", "bigint", "boolean", "string", "symbol", "object"]

def typeName : Recognizer := seq [notAhead (wordThat typeNames.contains), name]

def classTail (abstract : Bool) : Recognizer :=
  let body (derived : Bool) : Recognizer :=
    seq [opt (only σ.typed (seq [word "implements", commas (namedType inner σ)])),
      classMembers inner σ.inside ⟨abstract, derived⟩]
  seq [opt (only σ.typed (typeParameters inner σ)),
    alt [seq [word "extends", inner .operand σ.inside, opt (only σ.typed (typeArguments inner σ)),
        body true],
      body false]]

def classOf (named : Recognizer) : Recognizer :=
  seq [decorators inner σ,
    alt [only σ.typed (seq [word "abstract", sameLine, word "class", named, classTail inner σ true]),
      seq [word "class", named, classTail inner σ false]]]

def className (σ : Scope) : Recognizer := if σ.typed then typeName else name

end CustomElement.Script.Grammar
