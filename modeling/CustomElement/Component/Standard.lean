import CustomElement.Component.Compile
import CustomElement.Script.Grammar.Module
import CustomElement.Sheet.Flatten

/-!
# The standard languages

The languages that components are compiled with: the grammar of modules, and the nested style sheets.
-/

namespace CustomElement.Component

def Toolchain.standard : Toolchain := ⟨Script.Grammar.standard, Sheet.flatten⟩

end CustomElement.Component
