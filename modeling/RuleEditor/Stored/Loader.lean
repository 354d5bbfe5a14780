import RuleEditor.Stored.Reader
import RuleEditor.WellFormed

/-!
# Loading stored definitions

A definition that is loaded is read and has to be well formed. A catalogue supplies the operators that the chains
may lack; what it says about operators is not checked.
-/
namespace RuleEditor.Stored

def loadDefinition (catalogue : Option Catalogue) (form data : Value) : Except Fault Node := do
  let tree ← readDefinition (catalogue.map (·.defaultJoining)) form data
  tree.ensureWellFormed none
  return tree

end RuleEditor.Stored
