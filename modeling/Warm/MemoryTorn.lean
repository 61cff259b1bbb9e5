import Warm.MemoryForgetChains

/-! A chain that a crash during a forget loses. One survivor is rewritten in the first transaction and drops the hint that
ends a chain of removed facts; the survivor the chain begins at is rewritten in the second. -/
namespace Warm.Memory

open List hiding after below count length tail toString

open Interleaving World
open Prod (fst)

section Sorted

end Sorted

section Torn

def Sample.link (supersedes supersededBy : List String) : DocumentParts :=
  ⟨some "fact", none, .object ∅, none, some ⟨100, none, none, none, some "city", supersedes, supersededBy, [], none⟩⟩

/-- As many facts as leave one survivor for a second transaction. -/
def Sample.fillers : List String :=
  (List.range 4095).map fun i => "f" ++ toString i

def Sample.ends : Documents :=
  (((∅ : Documents).insert "a" (link ["d"] ["e"])).insert "d" (link [] [])).insert "e" (link [] []) |>.insert
    "z" (link ["e"] [])

/-- `z` supersedes `e`, and `a` says by its hint that `e` supersedes it; `a` and every filler supersede `d`. -/
@[irreducible] def Sample.torn : Documents :=
  fillers.foldl (fun documents id => documents.insert id (link ["d"] [])) ends

/-- The links of each fact that is stored. -/
inductive Sample.Row : String → List String → List String → Prop where
  | a : Row "a" ["d"] ["e"]
  | d : Row "d" [] []
  | e : Row "e" [] []
  | z : Row "z" ["e"] []
  | filler {id : String} : id ∈ fillers → Row id ["d"] []

variable {dead : List String}

section

variable (both : ∀ id, id ∈ dead ↔ id = "d" ∨ id = "e")
include both

end

end Torn

end Warm.Memory
