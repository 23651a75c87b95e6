import Mathlib.Data.Finset.Basic

/-!
# Owners

Resources such as descriptors, of which some are in use. `Owned` says that each of those has exactly
one owner, and the lemmas say how that is kept when a resource is taken, given up or handed on.
-/

namespace CacheX

variable {α β : Type} [DecidableEq β] {own own' : α → β → Prop} {used : Finset β} {r : β}

/-- Everything in use has one owner, and nothing else has any. -/
structure Owned (own : α → β → Prop) (used : Finset β) : Prop where
  unique : ∀ x y r, own x r → own y r → x = y
  mem_iff : ∀ r, r ∈ used ↔ ∃ x, own x r

namespace Owned

omit [DecidableEq β] in
theorem congr (h : Owned own used) (hown : ∀ x r, own' x r ↔ own x r) : Owned own' used := by
  have hsame : own' = own := funext fun x => funext fun r => propext (hown x r)
  rw [hsame]
  exact h

theorem release (h : Owned own used) (hown : ∀ x r', own' x r' ↔ own x r' ∧ r' ≠ r) :
    Owned own' (used.erase r) := by
  refine ⟨fun x y r' hx hy => ?_, fun r' => ?_⟩
  · exact h.unique x y r' ((hown x r').mp hx).1 ((hown y r').mp hy).1
  · rw [Finset.mem_erase, h.mem_iff]
    constructor
    · rintro ⟨hne, x, hx⟩
      exact ⟨x, (hown x r').mpr ⟨hx, hne⟩⟩
    · rintro ⟨x, hx⟩
      obtain ⟨hx, hne⟩ := (hown x r').mp hx
      exact ⟨hne, x, hx⟩

theorem acquire (h : Owned own used) {x : α} (hr : r ∉ used)
    (hown : ∀ y r', own' y r' ↔ own y r' ∨ y = x ∧ r' = r) : Owned own' (insert r used) := by
  have hfree : ∀ y, ¬ own y r := fun y hy => hr ((h.mem_iff r).mpr ⟨y, hy⟩)
  refine ⟨fun y z r' hy hz => ?_, fun r' => ?_⟩
  · rcases (hown y r').mp hy with hy | ⟨rfl, rfl⟩ <;> rcases (hown z r').mp hz with hz | ⟨rfl, hz⟩
    · exact h.unique y z r' hy hz
    · exact absurd (hz ▸ hy) (hfree y)
    · exact absurd hz (hfree z)
    · rfl
  · rw [Finset.mem_insert, h.mem_iff]
    constructor
    · rintro (rfl | ⟨y, hy⟩)
      · exact ⟨x, (hown x r').mpr (.inr ⟨rfl, rfl⟩)⟩
      · exact ⟨y, (hown y r').mpr (.inl hy)⟩
    · rintro ⟨y, hy⟩
      rcases (hown y r').mp hy with hy | ⟨-, rfl⟩
      · exact .inr ⟨y, hy⟩
      · exact .inl rfl

/-- A resource changes its owner. -/
theorem move (h : Owned own used) {x : α} (hr : r ∈ used)
    (hown : ∀ y r', own' y r' ↔ own y r' ∧ r' ≠ r ∨ y = x ∧ r' = r) : Owned own' used := by
  have hfree : Owned (fun y r' => own y r' ∧ r' ≠ r) (used.erase r) := h.release fun _ _ => Iff.rfl
  have hgiven : Owned own' (insert r (used.erase r)) :=
    hfree.acquire (Finset.notMem_erase r used) hown
  rwa [Finset.insert_erase hr] at hgiven

end Owned

end CacheX
