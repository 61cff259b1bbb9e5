import Mathlib.Data.List.Induction
import Mathlib.Tactic.Common

/-! Chains of items that each name the digest of the one before. When digests tell the items apart, the
last digest determines the whole chain. -/
namespace Warm.HashChain

open List

variable {α δ : Type} {digest : α → δ} {previous : α → Option δ} {start middle last : δ} {items others : List α} {item : α}

/-- Each item names the digest of the one before it, the first names `start`, and `last` is where it ends. -/
def Chained (digest : α → δ) (previous : α → Option δ) (start : δ) : List α → δ → Prop
  | [], last => start = last
  | item :: items, last => previous item = some start ∧ Chained digest previous (digest item) items last

/-- The digests tell the items apart, and none of them is the start of a chain. -/
structure Distinct (digest : α → δ) (start : δ) (items : List α) : Prop where
  injective : ∀ a ∈ items, ∀ b ∈ items, digest a = digest b → a = b
  fresh : ∀ a ∈ items, digest a ≠ start

theorem Distinct.subset (distinct : Distinct digest start items) (fewer : others ⊆ items) : Distinct digest start others where
  injective a memberA b memberB := distinct.injective a (fewer memberA) b (fewer memberB)
  fresh a member := distinct.fresh a (fewer member)

theorem chained_nil : Chained digest previous start [] last ↔ start = last := Iff.rfl

theorem chained_append :
    Chained digest previous start (items ++ others) last ↔
      ∃ middle, Chained digest previous start items middle ∧ Chained digest previous middle others last := by
  induction items generalizing start with
  | nil =>
    constructor
    · intro rest
      exact ⟨start, rfl, rest⟩
    · rintro ⟨middle, same, rest⟩
      cases same
      exact rest
  | cons first items ih =>
    constructor
    · rintro ⟨linked, rest⟩
      obtain ⟨middle, before, after⟩ := ih.mp rest
      exact ⟨middle, ⟨linked, before⟩, after⟩
    · rintro ⟨middle, ⟨linked, before⟩, after⟩
      exact ⟨linked, ih.mpr ⟨middle, before, after⟩⟩

theorem chained_concat :
    Chained digest previous start (items ++ [item]) last ↔
      ∃ middle, Chained digest previous start items middle ∧ previous item = some middle ∧ digest item = last :=
  chained_append

theorem Chained.append (before : Chained digest previous start items middle)
    (after : Chained digest previous middle others last) : Chained digest previous start (items ++ others) last :=
  chained_append.mpr ⟨middle, before, after⟩

theorem Chained.last_eq (chained : Chained digest previous start items last) :
    last = (items.getLast?.map digest).getD start := by
  rcases eq_nil_or_concat items with rfl | ⟨before, item, rfl⟩
  · exact (chained_nil.mp chained).symm
  · rw [concat_eq_append] at chained ⊢
    obtain ⟨middle, -, -, ends⟩ := chained_concat.mp chained
    simp [ends]

theorem Chained.unique (first : Chained digest previous start items last) (second : Chained digest previous start others last)
    (distinct : Distinct digest start (items ++ others)) : items = others := by
  induction items using List.reverseRecOn generalizing others last with
  | nil =>
    rcases eq_nil_or_concat others with rfl | ⟨before, item, rfl⟩
    · rfl
    · rw [concat_eq_append] at second distinct
      obtain ⟨middle, -, -, ends⟩ := chained_concat.mp second
      rw [← chained_nil.mp first] at ends
      exact absurd ends (distinct.fresh item (by simp))
  | append_singleton before item ih =>
    obtain ⟨middle, earlier, linked, ends⟩ := chained_concat.mp first
    rcases eq_nil_or_concat others with rfl | ⟨before', item', rfl⟩
    · rw [← chained_nil.mp second] at ends
      exact absurd ends (distinct.fresh item (by simp))
    · rw [concat_eq_append] at second distinct ⊢
      obtain ⟨middle', earlier', linked', ends'⟩ := chained_concat.mp second
      have same : item = item' := distinct.injective item (by simp) item' (by simp) (ends.trans ends'.symm)
      subst same
      rw [linked] at linked'
      cases linked'
      have fewer : before ++ before' ⊆ before ++ [item] ++ (before' ++ [item]) := by
        intro other member
        simp only [mem_append] at member ⊢
        exact member.imp .inl .inl
      rw [ih earlier earlier' (distinct.subset fewer)]

end Warm.HashChain
