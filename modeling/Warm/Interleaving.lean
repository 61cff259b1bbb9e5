import Mathlib.Logic.Relation
import Mathlib.Order.Defs.Unbundled

/-! Programs that act on shared state one atomic command at a time, run side by side in any order. A program's
assertion says what each of its commands keeps whatever the others did before; it is all that a run of any number of
programs needs. -/
namespace Warm.Interleaving

open List

/-- A program over commands, each with its type of answers. -/
inductive Program (Command : Type) (Answer : Command → Type) (α : Type) : Type where
  | done (value : α)
  | act (command : Command) (next : Answer command → Program Command Answer α)

namespace Program

variable {Command : Type} {Answer : Command → Type} {α β : Type}

def bind (program : Program Command Answer α) (rest : α → Program Command Answer β) : Program Command Answer β :=
  match program with
  | .done value => rest value
  | .act command next => .act command fun answer => (next answer).bind rest

instance : Monad (Program Command Answer) where
  pure := .done
  bind := bind

def perform (command : Command) : Program Command Answer (Answer command) :=
  .act command .done

def eval (view : (command : Command) → Answer command) : Program Command Answer α → α
  | .done value => value
  | .act command next => (next (view command)).eval view

section

variable (view : (command : Command) → Answer command)
include view

@[simp] theorem eval_bind (program : Program Command Answer α)
    (rest : α → Program Command Answer β) : (program >>= rest).eval view = (rest (program.eval view)).eval view := by
  induction program with
  | done value => rfl
  | act command next ih => exact ih (view command)

end

section Lift

variable {Query : Type} {Reply : Query → Type}

def lift (embed : Query → Command) (reply : (query : Query) → Answer (embed query) → Reply query) :
    Program Query Reply α → Program Command Answer α
  | .done value => .done value
  | .act query next => .act (embed query) fun answer => (next (reply query answer)).lift embed reply

end Lift

end Program

/-- A command that ran: its answer, and the state it ran in. -/
structure Event (Command : Type) (Answer : Command → Type) (σ : Type) where
  command : Command
  answer : Answer command
  state : σ

section Follows

variable {Command : Type} {Answer : Command → Type} {α σ χ : Type}
  (exec : (command : Command) → χ → σ → Answer command × σ)
  (later : σ → σ → Prop) (inv : σ → Prop) (admits : Command → σ → Prop)

/-- From a state, and after any later states at its commands, a program's commands keep the invariant, only move to
later states, and it ends as promised of its value, of the commands it ran and of the state. Commands run only in states
that admit them. -/
def Follows (post : α → List (Event Command Answer σ) → σ → Prop) :
    Program Command Answer α → List (Event Command Answer σ) → σ → Prop
  | .done value, trace, s => post value trace s
  | .act command next, trace, s => ∀ s', later s s' → inv s' → admits command s' → ∀ choice,
      inv (exec command choice s').2 ∧ later s' (exec command choice s').2 ∧
        Follows post (next (exec command choice s').1) (trace ++ [⟨command, (exec command choice s').1, s'⟩])
          (exec command choice s').2

variable {exec later inv admits}

theorem Follows.mono (follows : Follows exec later inv admits post program trace s)
    (weaker : ∀ value trace s, post value trace s → post' value trace s) :
    Follows exec later inv admits post' program trace s := by
  induction program generalizing s trace with
  | done value => exact weaker value trace s follows
  | act command next ih =>
    intro s' after holds admitted choice
    obtain ⟨kept, moved, rest⟩ := follows s' after holds admitted choice
    exact ⟨kept, moved, ih _ rest⟩

theorem Follows.bind
    (follows : Follows exec later inv admits (fun value trace s => Follows exec later inv admits post (rest value) trace s) program trace s) :
    Follows exec later inv admits post (program >>= rest) trace s := by
  induction program generalizing s trace with
  | done value => exact follows
  | act command next ih =>
    intro s' after holds admitted choice
    obtain ⟨kept, moved, more⟩ := follows s' after holds admitted choice
    exact ⟨kept, moved, ih _ more⟩

theorem Follows.after [IsTrans σ later] (follows : Follows exec later inv admits post program trace s)
    (moved : later s s') (lasting : ∀ value trace s s', post value trace s → later s s' → post value trace s') :
    Follows exec later inv admits post program trace s' := by
  cases program with
  | done value => exact lasting value trace s s' follows moved
  | act command next =>
    intro s'' more
    exact follows s'' (IsTrans.trans _ _ _ moved more)

theorem Follows.moved [IsTrans σ later] [Std.Refl later] (follows : Follows exec later inv admits post program trace s) :
    Follows exec later inv admits (fun value trace s' => post value trace s' ∧ later s s') program trace s := by
  suffices claim : ∀ s', later s s' → Follows exec later inv admits post program trace s' →
      Follows exec later inv admits (fun value trace s' => post value trace s' ∧ later s s') program trace s' by
    exact claim s (Std.Refl.refl s) follows
  clear follows
  induction program generalizing trace with
  | done value => exact fun s' moved ends => ⟨ends, moved⟩
  | act command next ih =>
    intro s' moved follows s'' more holds admitted choice
    obtain ⟨kept, after, rest⟩ := follows s'' more holds admitted choice
    exact ⟨kept, after, ih _ _ (IsTrans.trans _ _ _ (IsTrans.trans _ _ _ moved more) after) rest⟩

theorem Follows.reads {next} [Std.Refl later] (unchanged : ∀ choice s, (exec command choice s).2 = s)
    (rest : ∀ s', later s s' → inv s' → ∀ choice, Follows exec later inv admits post (next (exec command choice s').1) (trace ++ [⟨command, (exec command choice s').1, s'⟩]) s') :
    Follows exec later inv admits post (.act command next) trace s := by
  intro s' moved holds _ choice
  rw [unchanged]
  exact ⟨holds, Std.Refl.refl s', rest s' moved holds choice⟩

theorem Follows.lift [IsTrans σ later] [Std.Refl later] {Query : Type} {Reply : Query → Type}
    (embed : Query → Command) (reply : (query : Query) → Answer (embed query) → Reply query)
    (reads : ∀ query choice s, (exec (embed query) choice s).2 = s) (valid : σ → Prop)
    (lost : ∀ s s', later s s' → valid s' → valid s) (view : (query : Query) → Reply query) {s : σ}
    (agree : ∀ s', later s s' → inv s' → valid s' → ∀ query choice,
      reply query (exec (embed query) choice s').1 = view query)
    (program : Program Query Reply α) (trace : List (Event Command Answer σ)) :
    Follows exec later inv admits (fun value trace' s' => later s s' ∧ (valid s' → value = program.eval view) ∧
        ∃ asked, trace' = trace ++ asked ∧ ∀ event ∈ asked, ∃ query, event.command = embed query)
      (program.lift embed reply) trace s := by
  -- what is left of the program still evaluates to the same value
  suffices claim : ∀ s', later s s' → ∀ rest : Program Query Reply α,
      (valid s' → rest.eval view = program.eval view) → ∀ asked : List (Event Command Answer σ),
      (∀ event ∈ asked, ∃ query, event.command = embed query) →
      Follows exec later inv admits (fun value trace' s' => later s s' ∧ (valid s' → value = program.eval view) ∧
          ∃ asked, trace' = trace ++ asked ∧ ∀ event ∈ asked, ∃ query, event.command = embed query)
        (rest.lift embed reply) (trace ++ asked) s' by
    have whole := claim s (Std.Refl.refl s) program (fun _ => rfl) [] (forall_mem_nil _)
    rwa [append_nil] at whole
  intro s' moved rest
  induction rest generalizing s' with
  | done value =>
    intro same asked queries
    exact ⟨moved, same, asked, rfl, queries⟩
  | act query next ih =>
    intro same asked queries
    refine Follows.reads (reads query) fun s'' more holds choice => ?_
    have reached : later s s'' := IsTrans.trans _ _ _ moved more
    rw [append_assoc]
    apply ih _ s'' reached
    · intro still
      rw [agree s'' reached holds still query choice]
      exact same (lost s' s'' more still)
    · exact forall_mem_append.mpr ⟨queries, forall_mem_singleton.mpr ⟨query, rfl⟩⟩

end Follows

section Pool

variable {Command : Type} {Answer : Command → Type} {κ α σ χ : Type}

/-- A call that is under way: the state it began in, the commands it ran and what is left of it. -/
structure Thread (Command : Type) (Answer : Command → Type) (κ α σ : Type) where
  call : κ
  began : σ
  trace : List (Event Command Answer σ)
  program : Program Command Answer α

/-- Shared state and the calls under way or finished. -/
structure Pool (Command : Type) (Answer : Command → Type) (κ α σ : Type) where
  shared : σ
  threads : List (Thread Command Answer κ α σ)

variable (exec : (command : Command) → χ → σ → Answer command × σ) (admits : Command → σ → Prop)
  (code : κ → Program Command Answer α) (outside : σ → σ → Prop)

/-- One step of a pool: a call begins, one of the calls runs its next command, or something outside acts. -/
inductive Pool.Step : Pool Command Answer κ α σ → Pool Command Answer κ α σ → Prop where
  | begins (pool : Pool Command Answer κ α σ) (call : κ) :
    Step pool { pool with threads := pool.threads ++ [⟨call, pool.shared, [], code call⟩] }
  | acts (pool : Pool Command Answer κ α σ) (before after : List (Thread Command Answer κ α σ))
    (call : κ) (began : σ) (trace : List (Event Command Answer σ)) (command : Command)
    (next : Answer command → Program Command Answer α) (choice : χ) :
    pool.threads = before ++ ⟨call, began, trace, .act command next⟩ :: after → admits command pool.shared →
    Step pool ⟨(exec command choice pool.shared).2,
      before ++ ⟨call, began, trace ++ [⟨command, (exec command choice pool.shared).1, pool.shared⟩],
        next (exec command choice pool.shared).1⟩ :: after⟩
  | moves (pool : Pool Command Answer κ α σ) (shared : σ) : outside pool.shared shared →
    Step pool { pool with shared := shared }

/-- The pools that runs from a state without calls reach. -/
def Pool.Reaches (start : σ) : Pool Command Answer κ α σ → Prop :=
  Relation.ReflTransGen (Step exec admits code outside) ⟨start, []⟩

variable {exec admits code outside} {later : σ → σ → Prop} {inv : σ → Prop}
  {post : κ → σ → α → List (Event Command Answer σ) → σ → Prop}

def Program.run (exec : (command : Command) → χ → σ → Answer command × σ) (choice : χ) :
    Program Command Answer α → σ → α × σ
  | .done value, s => (value, s)
  | .act command next, s => (next (exec command choice s).1).run exec choice (exec command choice s).2

@[simp] theorem Program.run_pure (choice : χ) (value : α) (s : σ) :
    (pure value : Program Command Answer α).run exec choice s = (value, s) :=
  rfl

theorem Program.run_bind (choice : χ) (program : Program Command Answer α) (rest : α → Program Command Answer β) (s : σ) :
    (program >>= rest).run exec choice s =
      (rest (program.run exec choice s).1).run exec choice (program.run exec choice s).2 := by
  induction program generalizing s with
  | done value => rfl
  | act command next ih => exact ih _ _

theorem Program.run_lift {Reply : Query → Type} (embed : Query → Command)
    (reply : (query : Query) → Answer (embed query) → Reply query) (choice : χ)
    (reads : ∀ query s, (exec (embed query) choice s).2 = s) (program : Program Query Reply α) (s : σ) :
    (program.lift embed reply).run exec choice s =
      (program.eval fun query => reply query (exec (embed query) choice s).1, s) := by
  induction program with
  | done value => rfl
  | act query next ih =>
    rw [lift, Program.run, reads]
    exact ih _

/-- Every command of a program run alone runs in a state that admits it. -/
def Program.Admitted (exec : (command : Command) → χ → σ → Answer command × σ) (admits : Command → σ → Prop) (choice : χ) :
    Program Command Answer α → σ → Prop
  | .done _, _ => True
  | .act command next, s => admits command s ∧
      (next (exec command choice s).1).Admitted exec admits choice (exec command choice s).2

instance Program.decidableAdmitted (exec : (command : Command) → χ → σ → Answer command × σ) (admits : Command → σ → Prop)
    [decide : ∀ command s, Decidable (admits command s)] (choice : χ) :
    (program : Program Command Answer α) → (s : σ) → Decidable (program.Admitted exec admits choice s)
  | .done _, _ => .isTrue trivial
  | .act command next, s =>
    have := decidableAdmitted exec admits choice (next (exec command choice s).1) (exec command choice s).2
    inferInstanceAs (Decidable (_ ∧ _))

theorem Pool.Reaches.resume {threads : List (Thread Command Answer κ α σ)} {call : κ} {began : σ}
    {trace : List (Event Command Answer σ)} {program : Program Command Answer α} (choice : χ)
    (reached : Pool.Reaches exec admits code outside start ⟨s, threads ++ [⟨call, began, trace, program⟩]⟩)
    (admitted : program.Admitted exec admits choice s) :
    ∃ trace', Pool.Reaches exec admits code outside start ⟨(program.run exec choice s).2,
      threads ++ [⟨call, began, trace', .done (program.run exec choice s).1⟩]⟩ := by
  induction program generalizing trace s with
  | done value => exact ⟨trace, reached⟩
  | act command next ih =>
    exact ih _ (reached.tail (Pool.Step.acts _ threads [] call began trace command next choice rfl admitted.1)) admitted.2

theorem Pool.Reaches.run {pool : Pool Command Answer κ α σ} (reached : Pool.Reaches exec admits code outside start pool)
    (call : κ) (choice : χ) (admitted : (code call).Admitted exec admits choice pool.shared) :
    ∃ trace, Pool.Reaches exec admits code outside start
      ⟨((code call).run exec choice pool.shared).2, pool.threads ++
        [⟨call, pool.shared, trace, .done ((code call).run exec choice pool.shared).1⟩]⟩ :=
  resume choice (reached.tail (Pool.Step.begins pool call)) admitted

theorem Pool.Reaches.follows [IsTrans σ later] [Std.Refl later]
    (reached : Pool.Reaches exec admits code outside start pool) (initial : inv start)
    (calls : ∀ call s, inv s → Follows exec later inv admits (post call s) (code call) [] s)
    (others : ∀ s s', inv s → outside s s' → inv s' ∧ later s s')
    (lasting : ∀ call began value trace s s', post call began value trace s → later s s' → post call began value trace s') :
    inv pool.shared ∧ ∀ thread ∈ pool.threads,
      Follows exec later inv admits (post thread.call thread.began) thread.program thread.trace pool.shared := by
  induction reached with
  | refl => exact ⟨initial, forall_mem_nil _⟩
  | @tail middle _ _ step ih =>
    obtain ⟨holds, follow⟩ := ih
    cases step with
    | begins call =>
      exact ⟨holds, forall_mem_append.mpr ⟨follow, forall_mem_singleton.mpr (calls call _ holds)⟩⟩
    | acts before after call began trace command next choice split admitted =>
      have own := follow ⟨call, began, trace, .act command next⟩ (by rw [split]; simp)
      obtain ⟨kept, moved, rest⟩ := own _ (Std.Refl.refl _) holds admitted choice
      refine ⟨kept, fun thread member => ?_⟩
      have others' : ∀ thread ∈ before ++ after, Follows exec later inv admits (post thread.call thread.began)
          thread.program thread.trace (exec command choice middle.shared).2 := by
        intro thread inside
        apply (follow thread _).after moved (lasting thread.call thread.began)
        rw [split]
        rcases mem_append.mp inside with first | second
        · exact mem_append_left _ first
        · exact mem_append_right _ (mem_cons_of_mem _ second)
      rcases mem_append.mp member with first | second
      · exact others' thread (mem_append_left _ first)
      · rcases mem_cons.mp second with rfl | second
        · exact rest
        · exact others' thread (mem_append_right _ second)
    | moves shared moved =>
      obtain ⟨kept, after⟩ := others _ _ holds moved
      refine ⟨kept, fun thread member => ?_⟩
      exact (follow thread member).after after (lasting thread.call thread.began)

end Pool

end Warm.Interleaving
