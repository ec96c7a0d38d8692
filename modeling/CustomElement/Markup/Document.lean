import CustomElement.Markup.Cursor

/-!
# Component documents

A section is an element of a component document: a template, a script or a style. The template is the first element of
that name, the script and the style are the last of theirs: what stands inside the template's markup is not taken for a
section as long as the sections come after it.
-/

namespace CustomElement.Markup

open Text

inductive SectionKind where
  | template
  | script
  | style
deriving DecidableEq, Repr

def SectionKind.tagName : SectionKind → String
  | .template => "template"
  | .script => "script"
  | .style => "style"

structure AttributeValue where
  text : String
  span : Span
deriving DecidableEq, Repr

structure Attribute where
  name : String
  /-- Absent if the name stands alone. -/
  value : Option AttributeValue
  span : Span
deriving DecidableEq, Repr

structure Block where
  /-- From the opening tag to the end of the closing one. -/
  span : Span
  contentSpan : Span
  content : String
  attributes : List Attribute
deriving DecidableEq, Repr

structure Reference where
  path : String
  span : Span
  valueSpan : Span
deriving DecidableEq, Repr

inductive Problem where
  | missing (kind : SectionKind)
  | unclosed (kind : SectionKind)
  | empty (kind : SectionKind)
  | noSelector
deriving DecidableEq, Repr

def Problem.code : Problem → String
  | .missing .script => "missing-script"
  | .missing .template => "missing-template"
  | .missing .style => "invalid-content"
  | .unclosed _ => "unclosed-section"
  | .empty _ => "empty-section"
  | .noSelector => "missing-selector"

def Problem.message : Problem → String
  | .missing kind => "no " ++ kind.tagName ++ " section found"
  | .unclosed kind => "unclosed <" ++ kind.tagName ++ "> section"
  | .empty kind => "the " ++ kind.tagName ++ " section is empty"
  | .noSelector => "selector not found; add a `selector` attribute to the script tag"

structure Malformed where
  problem : Problem
  span : Span
deriving DecidableEq, Repr

namespace Block

def attribute? (b : Block) (name : String) : Option Attribute :=
  b.attributes.find? fun a => equalIgnoringCase a.name.toList name.toList

def inlineText (b : Block) : String := trim b.content

def reference? (b : Block) : Option Reference := do
  let a ← b.attribute? "src"
  let value ← a.value
  let path := trim value.text
  guard (!path.isEmpty)
  return ⟨path, a.span, value.span⟩

def lang? (b : Block) : Option String := do
  let a ← b.attribute? "lang"
  let value ← a.value
  let lang := trim value.text
  guard (!lang.isEmpty)
  return lang

/-- The component renders into a shadow root, unless the attribute `no-shadow` is there with a value
other than `false`. -/
def usesShadow (b : Block) : Bool :=
  match b.attribute? "no-shadow" with
  | none => true
  | some a => a.value.any fun v => equalIgnoringCase (trimList v.text.toList) "false".toList

end Block

def readValue (c : Cursor) : AttributeValue × Cursor :=
  match c.readQuoted? with
  | some ((text, _), after) =>
    (⟨String.ofList text, ⟨c.pos + 1, c.pos + 1 + byteLength text⟩⟩, after)
  | none =>
    let (text, after) := c.readUnquoted
    (⟨String.ofList text, after.spanFrom c.pos⟩, after)

theorem length_rest_readValue_le (c : Cursor) : (readValue c).2.rest.length ≤ c.rest.length := by
  unfold readValue
  split
  · rename_i h
    exact Cursor.length_rest_readQuoted?_le h
  · exact c.length_rest_readUnquoted_le

/-- The attributes of an opening tag, and the cursor at its end. A stray quote, slash or equals sign
is passed over. -/
def readAttributes (c : Cursor) : List Attribute × Cursor :=
  let start := c.skipBlanks
  if _h : start.startsWith ">" || start.startsWith "/>" || start.atEnd then ([], start)
  else
    match _hn : start.readAttributeName? with
    | none => readAttributes start.next
    | some (name, after) =>
      match _he : after.skipBlanks.consume? "=" with
      | none =>
        let (rest, stop) := readAttributes after.skipBlanks
        (⟨String.ofList name, none, after.skipBlanks.spanFrom start.pos⟩ :: rest, stop)
      | some assigned =>
        let value := readValue assigned.skipBlanks
        let (rest, stop) := readAttributes value.2
        (⟨String.ofList name, some value.1, value.2.spanFrom start.pos⟩ :: rest, stop)
termination_by c.rest.length
decreasing_by
  · have h1 := c.length_rest_skipBlanks_le
    have h2 := c.skipBlanks.length_rest_next_lt (by grind)
    exact Nat.lt_of_lt_of_le h2 h1
  · have h1 := c.length_rest_skipBlanks_le
    have h2 := Cursor.length_rest_readAttributeName?_lt _hn
    have h3 := after.length_rest_skipBlanks_le
    exact Nat.lt_of_le_of_lt h3 (Nat.lt_of_lt_of_le h2 h1)
  · have h1 := c.length_rest_skipBlanks_le
    have h2 := Cursor.length_rest_readAttributeName?_lt _hn
    have h3 := after.length_rest_skipBlanks_le
    have h4 := Cursor.length_rest_consume?_le _he
    have h5 := assigned.length_rest_skipBlanks_le
    have h6 := length_rest_readValue_le assigned.skipBlanks
    exact Nat.lt_of_le_of_lt (Nat.le_trans h6 (Nat.le_trans h5 (Nat.le_trans h4 h3)))
      (Nat.lt_of_lt_of_le h2 h1)

/-- The section whose opening tag starts at the byte `start` of a document. A tag that closes itself has an empty content.
Templates nest; scripts and styles do not. -/
def readSection (source : String) (kind : SectionKind) (start : Nat) : Except Malformed Block :=
  let opening := (Cursor.start source start).skip 1
  let afterName := (opening.readTagName?.map Prod.snd).getD opening
  let (attributes, stop) := readAttributes afterName
  let stop := stop.skipBlanks
  match stop.consume? "/>" with
  | some after => .ok ⟨after.spanFrom start, Span.empty after.pos, "", attributes⟩
  | none =>
    match stop.consume? ">" with
    | none => .error ⟨.unclosed kind, stop.spanFrom start⟩
    | some inside =>
      let (content?, after) := match kind with
        | .template => inside.readNestedContent kind.tagName
        | .script | .style => inside.readContent kind.tagName
      match content? with
      | none => .error ⟨.unclosed kind, inside.spanFrom start⟩
      | some content =>
        let closed := (after.consumeClosingTag? kind.tagName).getD after
        .ok ⟨closed.spanFrom start, after.spanFrom inside.pos, String.ofList content, attributes⟩

structure Section where
  block : Block
  lang : Option String
  reference : Option Reference
deriving DecidableEq, Repr

/-- A script: it names the custom element and says where that renders. -/
structure ScriptSection where
  block : Block
  lang : Option String
  reference : Option Reference
  selector : String
  selectorSpan : Span
  shadow : Bool
deriving DecidableEq, Repr

structure Document where
  template : Section
  script : ScriptSection
  style : Option Section
deriving DecidableEq, Repr

def anchor? (source : String) (kind : SectionKind) : Option Nat :=
  let tags := openingTags kind.tagName source
  match kind with
  | .template => tags.head?
  | .script | .style => tags.getLast?

def requireAnchor (source : String) (kind : SectionKind) : Except Malformed Nat :=
  match anchor? source kind with
  | some start => .ok start
  | none => .error ⟨.missing kind, Span.empty (byteLength source.toList)⟩

def requireContent (kind : SectionKind) (b : Block) : Except Malformed Unit :=
  if b.reference?.isNone && b.inlineText.isEmpty then .error ⟨.empty kind, b.span⟩ else .ok ()

def requireSelector (b : Block) : Except Malformed AttributeValue :=
  match b.attribute? "selector" with
  | none => .error ⟨.noSelector, b.span⟩
  | some a =>
    match a.value with
    | none => .error ⟨.noSelector, a.span⟩
    | some value =>
      if (trim value.text).isEmpty then .error ⟨.noSelector, a.span⟩ else .ok value

def Block.toSection (b : Block) : Section := ⟨b, b.lang?, b.reference?⟩

def parseDocument (source : String) : Except Malformed Document := do
  let scriptStart ← requireAnchor source .script
  let templateStart ← requireAnchor source .template
  let script ← readSection source .script scriptStart
  let template ← readSection source .template templateStart
  let style ← match anchor? source .style with
    | some start => some <$> readSection source .style start
    | none => pure none
  requireContent .script script
  requireContent .template template
  let selector ← requireSelector script
  return {
    template := template.toSection
    script := {
      block := script
      lang := script.lang?
      reference := script.reference?
      selector := trim selector.text
      selectorSpan := selector.span
      shadow := script.usesShadow }
    style := style.map Block.toSection }

end CustomElement.Markup
