import Warm.Interleaving

/-! Programs that may stop at any command. An assertion about a program says what holds wherever it stops, and of its
value when it ends, while others move the state between its commands. -/
namespace Warm.CrashLogic

open Interleaving

section Safe

variable {Command : Type} {Answer : Command → Type} {α σ χ : Type}
  (exec : (command : Command) → χ → σ → Answer command × σ) (others : σ → σ → Prop)

/-- After every command of the program the state is one it may stop in, and its value is as promised. -/
def Safe (crash : σ → Prop) (post : α → σ → Prop) : Program Command Answer α → σ → Prop
  | .done value, s => post value s
  | .act command next, s => ∀ s', others s s' → ∀ choice, crash (exec command choice s').2 ∧
      Safe crash post (next (exec command choice s').1) (exec command choice s').2

variable {exec others} {crash : σ → Prop}

theorem Safe.mono (safe : Safe exec others crash post program s) (stops : ∀ s, crash s → crash' s)
    (ends : ∀ value s, post value s → post' value s) : Safe exec others crash' post' program s := by
  induction program generalizing s with
  | done value => exact ends value s safe
  | act command next ih =>
    intro s' moved choice
    obtain ⟨stop, rest⟩ := safe s' moved choice
    exact ⟨stops _ stop, ih _ rest⟩

theorem Safe.imp (safe : Safe exec others crash post program s) (ends : ∀ value s, post value s → post' value s) :
    Safe exec others crash post' program s :=
  safe.mono (fun _ stop => stop) ends

theorem Safe.bind (safe : Safe exec others crash (fun value s => Safe exec others crash post (rest value) s) program s) :
    Safe exec others crash post (program >>= rest) s := by
  induction program generalizing s with
  | done value => exact safe
  | act command next ih =>
    intro s' moved choice
    obtain ⟨stop, more⟩ := safe s' moved choice
    exact ⟨stop, ih _ more⟩

theorem Safe.alone (safe : Safe exec others crash post program s) (less : ∀ s s', others' s s' → others s s') :
    Safe exec others' crash post program s := by
  induction program generalizing s with
  | done value => exact safe
  | act command next ih =>
    intro s' moved choice
    obtain ⟨stop, rest⟩ := safe s' (less s s' moved) choice
    exact ⟨stop, ih _ rest⟩

theorem Safe.alone_eq [Std.Refl others] (safe : Safe exec others crash post program s) : Safe exec Eq crash post program s :=
  safe.alone fun s _ same => same ▸ Std.Refl.refl s

theorem Safe.moved [IsTrans σ others] (safe : Safe exec others crash post program s) (moved : others s s')
    (lasting : ∀ value s s', post value s → others s s' → post value s') : Safe exec others crash post program s' := by
  cases program with
  | done value => exact lasting value s s' safe moved
  | act command next => exact fun s'' more => safe s'' (IsTrans.trans _ _ _ moved more)

end Safe

section Attempts

variable {Command : Type} {Answer : Command → Type} {α ε σ χ : Type}
  {exec : (command : Command) → χ → σ → Answer command × σ} {others : σ → σ → Prop} {crash : σ → Prop}

/-- Programs that may fail. -/
abbrev Attempt (Command : Type) (Answer : Command → Type) (ε α : Type) : Type :=
  ExceptT ε (Program Command Answer) α

namespace Attempt

def call {Command : Type} {Answer : Command → Type} (command : Command) (worked : Answer command → Bool) (failure : ε) :
    Attempt Command Answer ε Unit :=
  ExceptT.mk (.act command fun answer => .done (if worked answer then .ok () else .error failure))

/-- A command that may not answer. -/
def ask {Command : Type} {Answer : Command → Type} (command : Command) (read : Answer command → Option α) (failure : ε) :
    Attempt Command Answer ε α :=
  ExceptT.mk (.act command fun answer => .done ((read answer).elim (.error failure) .ok))

/-- A command that always works. -/
def act {Command : Type} {Answer : Command → Type} (command : Command) : Attempt Command Answer ε Unit :=
  ExceptT.mk (.act command fun _ => .done (.ok ()))

def ensure (holds : Bool) (failure : ε) : Attempt Command Answer ε Unit :=
  ExceptT.mk (.done (if holds then .ok () else .error failure))

def outcome (program : Attempt Command Answer ε α) : Attempt Command Answer ε (Except ε α) :=
  ExceptT.mk (program.run >>= fun result => .done (.ok result))

def mapError (change : ε → ε) (program : Attempt Command Answer ε α) : Attempt Command Answer ε α :=
  ExceptT.mk (program.run >>= fun result => .done (result.mapError change))

end Attempt

/-- What an attempt promises when it works, and when it fails. -/
def Safely (exec : (command : Command) → χ → σ → Answer command × σ) (others : σ → σ → Prop) (crash : σ → Prop)
    (works : α → σ → Prop) (fails : ε → σ → Prop) (program : Attempt Command Answer ε α) (s : σ) : Prop :=
  Safe exec others crash (fun result s => match result with | .ok value => works value s | .error failure => fails failure s)
    program.run s

variable {works : α → σ → Prop} {fails : ε → σ → Prop} {s : σ}

theorem Safely.pure (ends : works value s) :
    Safely exec others crash works fails (pure value : Attempt Command Answer ε α) s :=
  ends

theorem Safely.throw {failure : ε} (ends : fails failure s) :
    Safely exec others crash works fails (throw failure : Attempt Command Answer ε α) s :=
  ends

theorem Safely.bind
    (safe : Safely exec others crash (fun value s => Safely exec others crash works' fails (rest value) s) fails program s) :
    Safely exec others crash works' fails (program >>= rest) s := by
  refine Safe.bind (Safe.imp safe fun result s ends => ?_)
  cases result with
  | ok value => exact ends
  | error failure => exact ends

theorem Safely.mono (safe : Safely exec others crash works fails program s)
    (ends : ∀ value s, works value s → works' value s) (breaks : ∀ failure s, fails failure s → fails' failure s) :
    Safely exec others crash works' fails' program s := by
  refine Safe.imp safe fun result s promised => ?_
  cases result with
  | ok value => exact ends value s promised
  | error failure => exact breaks failure s promised

theorem Safely.call {worked : Answer command → Bool} {failure : ε} {works : Unit → σ → Prop}
    (each : ∀ s', others s s' → ∀ choice, crash (exec command choice s').2 ∧ if worked (exec command choice s').1 then works () (exec command choice s').2 else fails failure (exec command choice s').2) :
    Safely exec others crash works fails (.call command worked failure) s := by
  intro s' moved choice
  obtain ⟨stop, ends⟩ := each s' moved choice
  refine ⟨stop, ?_⟩
  simp only [Safe]
  split at ends
  next yes => simpa [yes] using ends
  next no => simpa [no] using ends

theorem Safely.ask {read : Answer command → Option α} {failure : ε}
    (each : ∀ s', others s s' → ∀ choice, crash (exec command choice s').2 ∧ match read (exec command choice s').1 with | some value => works value (exec command choice s').2 | none => fails failure (exec command choice s').2) :
    Safely exec others crash works fails (.ask command read failure) s := by
  intro s' moved choice
  obtain ⟨stop, ends⟩ := each s' moved choice
  refine ⟨stop, ?_⟩
  simp only [Safe]
  split at ends
  next value found => simpa [found] using ends
  next missing => simpa [missing] using ends

theorem Safely.act {works : Unit → σ → Prop}
    (each : ∀ s', others s s' → ∀ choice, crash (exec command choice s').2 ∧ works () (exec command choice s').2) :
    Safely exec others crash works fails (.act command) s :=
  each

theorem Safely.ensure {failure : ε} {works : Unit → σ → Prop} (yes : holds = true → works () s)
    (no : holds = false → fails failure s) : Safely exec others crash works fails (.ensure holds failure) s := by
  cases holds with
  | true => exact yes rfl
  | false => exact no rfl

theorem Safely.outcome {works : Except ε α → σ → Prop}
    (safe : Safely exec others crash (fun value s => works (.ok value) s) (fun failure s => works (.error failure) s) program s) :
    Safely exec others crash works fails program.outcome s := by
  refine Safe.bind (Safe.imp safe fun result s ends => ?_)
  cases result with
  | ok value => exact ends
  | error failure => exact ends

theorem Safely.mapError (safe : Safely exec others crash works (fun failure s => fails (change failure) s) program s) :
    Safely exec others crash works fails (program.mapError change) s := by
  refine Safe.bind (Safe.imp safe fun result s ends => ?_)
  cases result with
  | ok value => exact ends
  | error failure => exact ends

end Attempts

section Runs

variable {Command : Type} {Answer : Command → Type} {α σ χ : Type}
  (exec : (command : Command) → χ → σ → Answer command × σ) (others : σ → σ → Prop)

/-- One command of a program, or a move of the others. -/
inductive Step : Program Command Answer α × σ → Program Command Answer α × σ → Prop where
  | acts (command : Command) (next : Answer command → Program Command Answer α) (choice : χ) (s : σ) :
    Step (.act command next, s) (next (exec command choice s).1, (exec command choice s).2)
  | moves (program : Program Command Answer α) (s s' : σ) : others s s' → Step (program, s) (program, s')

/-- What may be left of a program, and the state, when it is stopped. -/
def Reaches : Program Command Answer α × σ → Program Command Answer α × σ → Prop :=
  Relation.ReflTransGen (Step exec others)

variable {exec others} {crash : σ → Prop} {post : α → σ → Prop}

theorem Reaches.safe [IsTrans σ others] [Std.Refl others] (reached : Reaches exec others run run')
    (safe : Safe exec others crash post run.1 run.2) (start : crash run.2)
    (stable : ∀ s s', crash s → others s s' → crash s')
    (lasting : ∀ value s s', post value s → others s s' → post value s') :
    crash run'.2 ∧ Safe exec others crash post run'.1 run'.2 := by
  induction reached with
  | refl => exact ⟨start, safe⟩
  | tail _ step ih =>
    obtain ⟨stop, rest⟩ := ih
    cases step with
    | acts command next choice s => exact rest s (Std.Refl.refl s) choice
    | moves program s s' moved => exact ⟨stable s s' stop moved, rest.moved moved lasting⟩

def advance (exec : (command : Command) → χ → σ → Answer command × σ) :
    List χ → Program Command Answer α × σ → Program Command Answer α × σ
  | choice :: choices, (.act command next, s) =>
    advance exec choices (next (exec command choice s).1, (exec command choice s).2)
  | _, run => run

theorem Reaches.advance (choices : List χ) (run : Program Command Answer α × σ) :
    Reaches exec others run (advance exec choices run) := by
  induction choices generalizing run with
  | nil => exact .refl
  | cons choice choices ih =>
    obtain ⟨program, s⟩ := run
    cases program with
    | done value => exact .refl
    | act command next => exact .head (.acts command next choice s) (ih _)

end Runs

section Failures

variable {Command : Type} {Answer : Command → Type} {α β ε σ χ : Type}
  (exec : (command : Command) → χ → σ → Answer command × σ) (refused : (command : Command) → Answer command → Bool)

def noted (command : Command) (choice : χ) (s : σ × Bool) : Answer command × σ × Bool :=
  ((exec command choice s.1).1, (exec command choice s.1).2, s.2 || refused command (exec command choice s.1).1)

variable {exec refused}

theorem Safe.noted (safe : Safe exec Eq crash post program s) (failed : Bool) :
    Safe (noted exec refused) Eq (fun s => crash s.1) (fun value s => post value s.1) program (s, failed) := by
  induction program generalizing s failed with
  | done value => exact safe
  | act command next ih =>
    rintro _ rfl choice
    obtain ⟨stop, rest⟩ := safe s rfl choice
    exact ⟨stop, ih _ rest _⟩

variable (exec refused)

/-- An attempt that works only if none of its commands failed. -/
def Strict (program : Attempt Command Answer ε α) : Prop :=
  ∀ s : σ × Bool, s.2 = false →
    Safely (noted exec refused) Eq (fun _ => True) (fun _ s => s.2 = false) (fun _ _ => True) program s

/-- An attempt that never works. -/
def Hopeless (program : Attempt Command Answer ε α) : Prop :=
  ∀ s : σ × Bool, Safely (noted exec refused) Eq (fun _ => True) (fun _ _ => False) (fun _ _ => True) program s

variable {exec refused}

theorem Strict.pure : Strict exec refused (pure value : Attempt Command Answer ε α) :=
  fun _ clear => clear

theorem Hopeless.throw {failure : ε} : Hopeless exec refused (throw failure : Attempt Command Answer ε α) :=
  fun _ => trivial

theorem Strict.bind (first : Strict exec refused program) (second : ∀ value, Strict exec refused (rest value)) :
    Strict exec refused (program >>= rest) :=
  fun s clear => Safely.bind ((first s clear).mono (fun value s clear => second value s clear) fun _ _ _ => trivial)

theorem safely_any (program : Attempt Command Answer ε α) (s : σ × Bool) :
    Safely (CrashLogic.noted exec refused) Eq (fun _ => True) (fun _ _ => True) (fun _ _ => True) program s := by
  have all (program : Program Command Answer (Except ε α)) (s : σ × Bool) :
      Safe (CrashLogic.noted exec refused) Eq (fun _ => True) (fun _ _ => True) program s := by
    induction program generalizing s with
    | done value => trivial
    | act command next ih => exact fun s' _ choice => ⟨trivial, ih _ _⟩
  exact (all program.run s).imp fun result _ _ => by cases result <;> trivial

theorem Hopeless.bind (second : ∀ value, Hopeless exec refused (rest value)) : Hopeless exec refused (program >>= rest) :=
  fun s => Safely.bind ((safely_any program s).mono (fun value s _ => second value s) fun _ _ _ => trivial)

theorem Strict.call {worked : Answer command → Bool} {failure : ε}
    (works : ∀ answer, worked answer = true → refused command answer = false) :
    Strict exec refused (.call command worked failure) := by
  refine fun s clear => Safely.call fun s' moved choice => ⟨trivial, ?_⟩
  subst moved
  split
  next yes =>
    have accepted : refused command (exec command choice s.1).1 = false := works _ yes
    simp [CrashLogic.noted, clear, accepted]
  next => trivial

theorem Strict.ask {read : Answer command → Option α} {failure : ε}
    (works : ∀ answer, (read answer).isSome → refused command answer = false) :
    Strict exec refused (.ask command read failure) := by
  refine fun s clear => Safely.ask fun s' moved choice => ⟨trivial, ?_⟩
  subst moved
  split
  next value found =>
    have accepted : refused command (exec command choice s.1).1 = false := works _ (Option.isSome_of_eq_some found)
    simp [CrashLogic.noted, clear, accepted]
  next => trivial

theorem Strict.act {command : Command} (works : ∀ answer, refused command answer = false) :
    Strict exec refused (.act command : Attempt Command Answer ε Unit) := by
  refine fun s clear => Safely.act fun s' moved choice => ⟨trivial, ?_⟩
  subst moved
  simp [CrashLogic.noted, clear, works]

theorem Strict.ensure {failure : ε} : Strict exec refused (.ensure holds failure : Attempt Command Answer ε Unit) :=
  fun _ clear => Safely.ensure (fun _ => clear) fun _ => trivial

theorem Strict.mapError (strict : Strict exec refused program) : Strict exec refused (program.mapError change) :=
  fun s clear => Safely.mapError ((strict s clear).mono (fun _ _ clear => clear) fun _ _ _ => trivial)

theorem Strict.outcome {rest : Except ε α → Attempt Command Answer ε β} (strict : Strict exec refused program)
    (works : ∀ value, Strict exec refused (rest (.ok value)))
    (fails : ∀ failure, Hopeless exec refused (rest (.error failure))) :
    Strict exec refused (program.outcome >>= rest) := by
  refine fun s clear => Safely.bind (Safely.outcome ((strict s clear).mono (fun value s clear => works value s clear)
    fun failure s _ => ?_))
  exact (fails failure s).mono (fun _ _ never => never.elim) fun _ _ _ => trivial

end Failures

end Warm.CrashLogic
