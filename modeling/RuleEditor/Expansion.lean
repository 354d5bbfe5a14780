import RuleEditor.Tree.Address
import RuleEditor.Tree.Form

/-!
# Expansion of nodes

Which nodes of a tree are shown expanded, by path. A node without a flag of its own follows the
default: expanded in a new rule, collapsed in a loaded one, where only the root of a condition is open.
-/
namespace RuleEditor

structure Expansion where
  form : Option Form
  flags : Members Bool
  default : Bool
deriving Repr

namespace Expansion

/-- The flags of a rule of which only the root of a condition is open. -/
def rootOnly (form : Option Form) : Members Bool := if form = some .condition then [("root", true)] else []

def start (form : Option Form) (isNew : Bool) : Expansion :=
  ⟨form, if isNew then [] else rootOnly form, isNew⟩

def isExpanded (path : String) (e : Expansion) : Bool := (e.flags.get? path).getD e.default

def set (path : String) (expanded : Bool) (e : Expansion) : Expansion :=
  { e with flags := e.flags.set path expanded }

def toggle (path : String) (e : Expansion) : Expansion := e.set path (!e.isExpanded path)

def expandAll (e : Expansion) : Expansion := ⟨e.form, [], true⟩

def collapseAll (e : Expansion) : Expansion := ⟨e.form, rootOnly e.form, false⟩

/-- Drops the flags of a path and of everything below it. -/
def forget (path : String) (e : Expansion) : Expansion :=
  { e with flags := e.flags.filter fun m => !Address.covers path m.1 }

end Expansion

end RuleEditor
