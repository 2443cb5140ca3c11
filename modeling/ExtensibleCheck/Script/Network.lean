import ExtensibleCheck.Network.Basic
import ExtensibleCheck.Script.Basic

/-! Scripted extensions in a network of dispatchers, where nodes are labels and types are texts. What
a script does without a node at hand concerns the node without a label. -/

namespace ExtensibleCheck

namespace Script

/-- A script for networks, which may also take steps in the network. -/
abbrev ForNetwork := Script (Member String) String (NetworkStep String (Option String) String)

def networkWorld : World (Option String) String where
  subject _ label := label.getD ""
  mark _ := ""
  showType := id
  locate primary
    | .labelled label => some (some label)
    | _ => some (primary.getD none)

/-- A network whose extensions are all scripted. -/
def network (dispatchers : OrderedMap String DispatcherSpec) (scripts : String → ForNetwork)
    (registrar : String → RegistryId) (nodeTypes : OrderedMap String String) (limit : Nat) :
    Network String (Option String) String Firings where
  dispatchers := dispatchers
  behaviour extension call := (scripts extension).respond networkWorld extension call
  label extension := (scripts extension).label
  registrar := registrar
  typeOf node := (node.bind nodeTypes.get?).getD "any"
  limit := limit

end Script

end ExtensibleCheck
