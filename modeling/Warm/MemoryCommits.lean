import Warm.MemoryScope

/-! The transactions calls commit: what each is planned from, when the stamps it stores show all it does to the index, and
what a property of the store needs to be kept by all of them. -/
namespace Warm.Memory

open Interleaving World

def ownCommit : Event Command Command.Reply World → Option (Transaction × World)
  | ⟨.change transaction _, found, world⟩ =>
    if transaction.inputs.isEmpty && transaction.deleted.isEmpty then none
    else match found with
      | .ok true => some (transaction, world)
      | .error (.committed _) => some (transaction, world)
      | _ => none
  | _ => none

def ownCommits (trace : List (Event Command Command.Reply World)) : List (Transaction × World) :=
  trace.filterMap ownCommit

theorem ownCommits_append (first second : List (Event Command Command.Reply World)) :
    ownCommits (first ++ second) = ownCommits first ++ ownCommits second :=
  List.filterMap_append

def storedStamps (entries : List (String × DocumentParts)) : List (String × Stamp) :=
  entries.filterMap fun entry => entry.2.stamp.map fun stamp => (entry.1, stamp)

/-- A transaction whose effect on the index shows in the stamps it stores: it takes no fact up into the index that another
stored fact already names in its hints, and none of its hints names a fact it leaves without memory fields. -/
structure ShowsInStamps (documents : Documents) (entries : List (String × DocumentParts)) : Prop where
  unhinted : ∀ entry ∈ storedStamps entries, entry.2.tracked = true → trackedStamp documents entry.1 = none →
    ∀ id stamp, trackedStamp documents id = some stamp → id ∉ entries.map Prod.fst → entry.1 ∉ stamp.supersededBy
  tracked : ∀ entry ∈ storedStamps entries, ∀ by_ ∈ entry.2.supersededBy, ∀ other ∈ storedStamps entries,
    other.1 = by_ → other.2.tracked = true

theorem showsInStamps_iff (documents : Documents) (entries : List (String × DocumentParts)) :
    ShowsInStamps documents entries ↔
      (∀ entry ∈ storedStamps entries, entry.2.tracked = true → trackedStamp documents entry.1 = none →
        ∀ other ∈ Index.stamps documents, other.1 ∉ entries.map Prod.fst → entry.1 ∉ other.2.supersededBy) ∧
      ∀ entry ∈ storedStamps entries, ∀ by_ ∈ entry.2.supersededBy, ∀ other ∈ storedStamps entries,
        other.1 = by_ → other.2.tracked = true := by
  constructor
  · rintro ⟨unhinted, tracked⟩
    refine ⟨fun entry member some none' other listed => ?_, tracked⟩
    exact unhinted entry member some none' other.1 other.2 ((Index.mem_stamps documents other.1 other.2).mp listed)
  · rintro ⟨unhinted, tracked⟩
    refine ⟨fun entry member some none' id stamp known => ?_, tracked⟩
    exact unhinted entry member some none' (id, stamp) ((Index.mem_stamps documents id stamp).mpr known)

instance (documents : Documents) (entries : List (String × DocumentParts)) : Decidable (ShowsInStamps documents entries) :=
  decidable_of_iff _ (showsInStamps_iff documents entries).symm

/-- The states in which a command of a remember may run: its transaction shows in the stamps it stores. -/
def ShowingOnly (command : Command) (world : World) : Prop :=
  match command with
  | .change (.remember entries) revision => revision = world.revision → ShowsInStamps world.documents entries
  | _ => True

instance (command : Command) (world : World) : Decidable (ShowingOnly command world) := by
  unfold ShowingOnly
  split <;> infer_instance

/-- The answers a plan gets when it is made against documents with a fresh index. -/
def freshView (documents : Documents) (revision : Nat) : (query : Query) → query.Reply :=
  answer documents (Index.rebuild documents revision)

/-- The facts of a call planned against the documents of a world. -/
def PlannedIn (settings : WriteSettings) (inputs : List RememberInput) (now : Millis) (state : World)
    (planned : List Planned) : Prop :=
  (planAll settings now inputs []).eval (freshView state.documents state.revision) = .ok planned

/-- The transactions of a forget: documents planned at an earlier revision are either still there or were rewritten as
planned, and the transaction writes only what was planned. -/
def ForgetStep (world : World) (transaction : Transaction) : Prop :=
  ∃ before dead rewrites, before ≤ world.revision ∧ Rewrites (world.history before) dead rewrites ∧
    (∀ id parts, world.documents[id]? = some parts → (world.history before)[id]? = some parts ∨ (id, parts) ∈ rewrites) ∧
    ∀ entry ∈ transaction.inputs, entry ∈ rewrites

/-- A property of worlds that the calls' transactions keep where they are admitted. -/
structure Kept (admits : Command → World → Prop) (property : World → Prop) : Prop where
  shows : ∀ entries world, admits (.change (.remember entries) world.revision) world → ShowsInStamps world.documents entries
  index : ∀ world memory index, property world → property (world.setIndex memory index)
  remember : ∀ {settings inputs now world planned} (installed : String → Bool), property world →
    PlannedIn settings inputs now world planned →
    admits (.change (.remember (planned.filterMap Planned.entry)) world.revision) world →
    property (world.commit (.remember (planned.filterMap Planned.entry)) installed)
  forget : ∀ {world transaction} (installed : String → Bool), property world → ForgetStep world transaction →
    property (world.commit transaction installed)

/-- The indexes are sound, and a property of the store holds. -/
def Keeping (property : World → Prop) (world : World) : Prop :=
  world.Sound ∧ property world

theorem Kept.refreshed (kept : Kept admits property) (memory : Nat) (holds : property world) :
    property (refreshed world memory) := by
  unfold Memory.refreshed
  split
  · exact holds
  · exact kept.index _ _ _ holds

end Warm.Memory
