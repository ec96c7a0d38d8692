import CustomElement.Script.Module

/-!
# Wiring a class

The class of a component is completed so that it renders: its `connectedCallback` calls `render`, its constructor
attaches the shadow root, and its `render` method gets the statements of the template.
-/

namespace CustomElement.Component

open Script

def renderCall : String := "this.render(this);"

def attachShadow : String :=
  "this.attachShadow(" ++ openBrace ++ " mode: 'open' " ++ closeBrace ++ ");"

def plainStatement (text : String) : Statement := ⟨text, false⟩

/-- The class whose `connectedCallback`, a method or a field that holds a function, starts by rendering. Without either a
method is added after the constructor. -/
def injectRenderCall (c : ClassDecl) : ClassDecl :=
  let added := c.insertMethod (c.constructorIndex.elim 0 (· + 1))
    (Method.plain "connectedCallback" "" [plainStatement renderCall])
  match c.findMethod "connectedCallback" with
  | some i =>
    c.modifyMethod i fun m => { m with body := insertStatement m.body 0 (plainStatement renderCall) }
  | none =>
    match c.findFieldFunction "connectedCallback" with
    | some i => (c.prependToFieldFunction? i "connectedCallback" renderCall).getD added
    | none => added

def constructor? (c : ClassDecl) : Option (Nat × Method) := do
  let i ← c.constructorIndex
  return (i, ← c.methodAt? i)

def lacksSuper (c : ClassDecl) : Bool :=
  (constructor? c).any fun (_, m) => (callPosition m.body "super").isNone

/-- The class whose constructor attaches a shadow root: right after the call of `super`, or else first. -/
def injectShadow (c : ClassDecl) : ClassDecl :=
  match constructor? c with
  | none =>
    c.insertMethod 0
      (Method.plain "constructor" "" [plainStatement "super();", plainStatement attachShadow])
  | some (i, m) =>
    let position := (callPosition m.body "super").elim 0 (· + 1)
    c.modifyMethod i fun m =>
      { m with body := insertStatement m.body position (plainStatement attachShadow) }

/-- The class whose `render` method has these statements: one with one parameter gets them for its body, otherwise one is
added in front. -/
def spliceRender (body : List String) (c : ClassDecl) : ClassDecl :=
  let statements := body.map plainStatement
  let existing := (c.findMethod "render").filter fun i =>
    (c.methodAt? i).any fun m => m.paramCount == 1
  match existing with
  | some i => c.modifyMethod i fun m => { m with params := "data", body := statements }
  | none => c.insertMethod 0 (Method.plain "render" "data" statements)

def wire (shadow : Bool) (body : List String) (c : ClassDecl) : ClassDecl :=
  let c := injectRenderCall c
  spliceRender body (if shadow then injectShadow c else c)

end CustomElement.Component
