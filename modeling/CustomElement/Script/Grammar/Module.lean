import CustomElement.Script.Grammar.Statements
import CustomElement.Script.Erasure.Scan

/-!
# Recognizing modules

The rules of all goals together. A goal that lies deeper than the text is long does not arise, so the
depth to which goals are followed is computed from the text.
-/

namespace CustomElement.Script.Grammar

def rule (inner : Inner) : Inner
  | .type => typeRule inner
  | .typeOperand => typeOperandRule inner
  | .resultType => resultTypeRule inner
  | .typeTemplateTail => fun σ => templateTail (wholeType inner σ) (inner .typeTemplateTail σ)
  | .expression => expressionRule inner
  | .assignment => assignmentRule inner
  | .unary => unaryRule inner
  | .operand => operandRule inner
  | .head => headRule inner
  | .binding => bindingRule inner
  | .templateTail => fun σ => templateTail (inner .expression σ.inside) (inner .templateTail σ)
  | .declaration => declarationRule inner
  | .item => itemRule inner
  | .statement => statementRule inner
  | .moduleItem => moduleItemRule inner

/-- The recognizers of the goals, which follow inner goals to a depth of `n`. -/
def recognizer : (n : Nat) → Inner
  | 0 => fun _ _ _ => none
  | n + 1 => rule (recognizer n)

def withoutShebang : List Char → List Char
  | '#' :: '!' :: cs => cs.dropWhile fun c => !isLineEnd c
  | cs => cs

def isModule (typed : Bool) (source : String) : Bool :=
  let cs := withoutShebang source.toList
  let inner := recognizer (16 * (cs.length + 4))
  (seq [many (inner .moduleItem { typed, knowsSuper := typed }), atEnd] cs).isSome

def standard : Grammar := ⟨isModule true, isModule false⟩

end CustomElement.Script.Grammar
