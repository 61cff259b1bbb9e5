import Warm.Bytes
import Mathlib.Data.List.TakeWhile

/-! A file of newline-terminated lines, and how a reader splits it. -/
namespace Warm.Lines

open Bytes List

def NEWLINE : UInt8 := 10
def RETURN : UInt8 := 13

/-- A finished line from its bytes in reverse, without a final carriage return. -/
def chomp : Bytes → Bytes
  | 13 :: line => line.reverse
  | line => line.reverse

def linesFrom (line : Bytes) : Bytes → List Bytes
  | [] => if line = [] then [] else [line.reverse]
  | byte :: data => if byte = NEWLINE then chomp line :: linesFrom [] data else linesFrom (byte :: line) data

/-- `BufRead::lines`: an unterminated rest is a line too. -/
def lines (data : Bytes) : List Bytes := linesFrom [] data

/-- Lines as they are appended. -/
def terminated (texts : List Bytes) : Bytes := texts.flatMap (· ++ [NEWLINE])

def lastComplete (data : Bytes) : Option Bytes :=
  match data.reverse.dropWhile (· ≠ NEWLINE) with
  | [] => none
  | _ :: before => some (before.takeWhile (· ≠ NEWLINE)).reverse

structure Plain (text : Bytes) : Prop where
  single : NEWLINE ∉ text
  last : text.getLast? ≠ some RETURN

@[simp] theorem terminated_nil : terminated [] = [] := rfl

@[simp] theorem terminated_cons (text : Bytes) (texts : List Bytes) :
    terminated (text :: texts) = text ++ NEWLINE :: terminated texts := by
  simp [terminated]

theorem terminated_append (first second : List Bytes) :
    terminated (first ++ second) = terminated first ++ terminated second := by
  simp [terminated]

theorem chomp_of_plain (plain : Plain text) : chomp text.reverse = text := by
  unfold chomp
  split
  · rename_i line reversed
    have last := plain.last
    rw [← head?_reverse, reversed] at last
    exact absurd rfl last
  · exact reverse_reverse text

theorem linesFrom_append (single : NEWLINE ∉ text) (line data : Bytes) :
    linesFrom line (text ++ NEWLINE :: data) = chomp (text.reverse ++ line) :: linesFrom [] data := by
  induction text generalizing line with
  | nil => simp [linesFrom]
  | cons byte text ih =>
    rw [mem_cons, not_or] at single
    simp [linesFrom, Ne.symm single.1, ih single.2]

theorem lines_terminated_append (plain : ∀ text ∈ texts, Plain text) (data : Bytes) :
    lines (terminated texts ++ data) = texts ++ lines data := by
  induction texts with
  | nil => rfl
  | cons text texts ih =>
    rw [forall_mem_cons] at plain
    have rest := ih plain.2
    unfold lines at rest ⊢
    rw [terminated_cons, append_assoc, cons_append, linesFrom_append plain.1.single, append_nil,
      chomp_of_plain plain.1, rest, cons_append]

theorem lines_terminated (plain : ∀ text ∈ texts, Plain text) : lines (terminated texts) = texts := by
  have all := lines_terminated_append plain []
  simpa [lines, linesFrom] using all

theorem take_terminated (plain : ∀ text ∈ texts, Plain text)
    (whole : (terminated texts).take kept = [] ∨ ((terminated texts).take kept).getLast? = some NEWLINE) :
    (terminated texts).take kept = terminated (texts.take (((terminated texts).take kept).count NEWLINE)) := by
  induction texts generalizing kept with
  | nil => simp
  | cons text texts ih =>
    rw [forall_mem_cons] at plain
    rw [terminated_cons] at whole ⊢
    by_cases inside : kept ≤ text.length
    · rw [take_append_of_le_length inside] at whole ⊢
      rcases whole with none | last
      · simp [none]
      · have member := mem_of_getLast? last
        exact absurd (mem_of_mem_take member) plain.1.single
    · obtain ⟨more, rfl⟩ : ∃ more, kept = text.length + (more + 1) := ⟨kept - text.length - 1, by omega⟩
      rw [take_length_add_append, take_succ_cons] at whole ⊢
      have later : (terminated texts).take more = [] ∨ ((terminated texts).take more).getLast? = some NEWLINE := by
        rcases whole with none | last
        · simp at none
        · by_cases empty : (terminated texts).take more = []
          · exact .inl empty
          · rw [getLast?_append_of_ne_nil _ (by simp), getLast?_cons_of_ne_nil empty] at last
            exact .inr last
      have before : text.count NEWLINE = 0 := count_eq_zero.mpr plain.1.single
      rw [count_append, before, count_cons_self, Nat.zero_add, take_succ_cons, terminated_cons,
        ← ih plain.2 later]

theorem lastComplete_terminated (plain : ∀ text ∈ texts, Plain text) :
    lastComplete (terminated texts) = texts.getLast? := by
  rcases eq_nil_or_concat texts with rfl | ⟨before, text, rfl⟩
  · rfl
  · have own : Plain text := plain text (by simp)
    have others : ∀ byte ∈ text.reverse, decide (byte ≠ NEWLINE) = true := by
      intro byte member
      rw [mem_reverse] at member
      exact decide_eq_true fun same => own.single (same ▸ member)
    have stop : List.takeWhile (fun byte => decide (byte ≠ NEWLINE)) (terminated before).reverse = [] := by
      rcases eq_nil_or_concat before with rfl | ⟨earlier, last, rfl⟩
      · rfl
      · simp [terminated_append]
    unfold lastComplete
    simp only [concat_eq_append, terminated_append, terminated_cons, terminated_nil, reverse_append,
      reverse_cons, reverse_nil, nil_append, cons_append]
    rw [dropWhile_cons_of_neg (by simp)]
    dsimp only
    rw [takeWhile_append_of_pos others, stop]
    simp

end Warm.Lines
