import Mathlib.Logic.Function.Basic
import Mathlib.Data.List.Basic

/-!
# A directory of files

Names, and the files they stand for. A descriptor is the number of a file: it stays good when the
name of the file changes, so a write goes to the file that was opened, wherever that is by then.

Every operation has a lemma for the name it is about and one for all other names, in terms of
`lookup`. `names_create`, `names_rename` and `names_of_remove` say which entries can be new.
-/

namespace CacheX

/-- A directory and its files, numbered from 0 up to `next`. A file has at most one name. -/
structure FileSystem (ν α : Type) where
  names : ν → Option Nat
  data : Nat → List α
  next : Nat
  bounded : ∀ {a : ν} {f : Nat}, names a = some f → f < next
  unique : ∀ {a b : ν} {f : Nat}, names a = some f → names b = some f → a = b

namespace FileSystem

variable {ν α : Type}

def empty : FileSystem ν α where
  names _ := none
  data _ := []
  next := 0
  bounded h := nomatch h
  unique h := nomatch h

/-- The file that a name stands for, with its contents. -/
def lookup (fs : FileSystem ν α) (a : ν) : Option (Nat × List α) :=
  (fs.names a).map fun f => (f, fs.data f)

def read (fs : FileSystem ν α) (a : ν) : Option (List α) := (fs.lookup a).map Prod.snd

/-- The contents after a write at an offset. A gap before the offset is filled with `zero`. -/
def writeAt (zero : α) (old : List α) (offset : Nat) (piece : List α) : List α :=
  old.take offset ++ List.replicate (offset - old.length) zero ++ piece
    ++ old.drop (offset + piece.length)

/-- A write through a descriptor. -/
def write (zero : α) (fs : FileSystem ν α) (f offset : Nat) (piece : List α) : FileSystem ν α :=
  { fs with data := Function.update fs.data f (writeAt zero (fs.data f) offset piece) }

/-- A new empty file without a name. -/
def newFile (fs : FileSystem ν α) : FileSystem ν α :=
  { fs with
    data := Function.update fs.data fs.next []
    next := fs.next + 1
    bounded := fun h => Nat.lt_succ_of_lt (fs.bounded h) }

theorem names_ne_next (fs : FileSystem ν α) (a : ν) : fs.names a ≠ some fs.next :=
  fun h => Nat.lt_irrefl _ (fs.bounded h)

/-! ## Reading and writing -/

variable {fs : FileSystem ν α} {a b c : ν} {f : Nat} {d : List α}

theorem lookup_eq_some : fs.lookup a = some (f, d) ↔ fs.names a = some f ∧ fs.data f = d := by
  simp only [lookup, Option.map_eq_some_iff, Prod.mk.injEq]
  constructor
  · rintro ⟨g, hg, rfl, rfl⟩
    exact ⟨hg, rfl⟩
  · rintro ⟨hf, rfl⟩
    exact ⟨f, hf, rfl, rfl⟩

theorem lookup_congr {fs fs' : FileSystem ν α} (hn : fs'.names a = fs.names a)
    (hd : ∀ f, fs.names a = some f → fs'.data f = fs.data f) : fs'.lookup a = fs.lookup a := by
  rw [lookup, lookup, hn]
  cases h : fs.names a with
  | none => rfl
  | some f => rw [Option.map_some, Option.map_some, hd f h]

theorem lookup_write (zero : α) (h : fs.lookup a = some (f, d)) (offset : Nat) (piece : List α) :
    (fs.write zero f offset piece).lookup a = some (f, writeAt zero d offset piece) := by
  obtain ⟨hf, rfl⟩ := lookup_eq_some.mp h
  exact lookup_eq_some.mpr ⟨hf, Function.update_self ..⟩

theorem lookup_write_ne (zero : α) (h : fs.lookup a = some (f, d)) (hb : b ≠ a) (offset : Nat)
    (piece : List α) : (fs.write zero f offset piece).lookup b = fs.lookup b := by
  refine lookup_congr rfl fun g hg => Function.update_of_ne ?_ _ _
  rintro rfl
  exact hb (fs.unique hg (lookup_eq_some.mp h).1)

/-- A write at the end of a file appends. -/
theorem writeAt_end (zero : α) (d piece : List α) : writeAt zero d d.length piece = d ++ piece := by
  simp [writeAt]

/-! ## The directory -/

section

variable [DecidableEq ν]

/-- Takes a name out of the directory. -/
def remove (fs : FileSystem ν α) (a : ν) : FileSystem ν α where
  names := Function.update fs.names a none
  data := fs.data
  next := fs.next
  bounded {b f} h := by
    rcases eq_or_ne b a with rfl | hb
    · rw [Function.update_self] at h
      cases h
    · rw [Function.update_of_ne hb] at h
      exact fs.bounded h
  unique {b c f} h h' := by
    rcases eq_or_ne b a with rfl | hb
    · rw [Function.update_self] at h
      cases h
    · rcases eq_or_ne c a with rfl | hc
      · rw [Function.update_self] at h'
        cases h'
      · rw [Function.update_of_ne hb] at h
        rw [Function.update_of_ne hc] at h'
        exact fs.unique h h'

theorem names_remove (fs : FileSystem ν α) (a : ν) :
    (fs.remove a).names = Function.update fs.names a none := rfl

/-- Enters a name for a file that has none. -/
def link (fs : FileSystem ν α) (a : ν) (f : Nat) (hf : f < fs.next)
    (hnew : ∀ b, fs.names b ≠ some f) : FileSystem ν α where
  names := Function.update fs.names a (some f)
  data := fs.data
  next := fs.next
  bounded {b g} h := by
    rcases eq_or_ne b a with rfl | hb
    · rw [Function.update_self] at h
      cases h
      exact hf
    · rw [Function.update_of_ne hb] at h
      exact fs.bounded h
  unique {b c g} h h' := by
    rcases eq_or_ne b a with rfl | hb
    · rcases eq_or_ne c b with rfl | hc
      · rfl
      · rw [Function.update_self] at h
        rw [Function.update_of_ne hc] at h'
        cases h
        exact absurd h' (hnew c)
    · rw [Function.update_of_ne hb] at h
      rcases eq_or_ne c a with rfl | hc
      · rw [Function.update_self] at h'
        cases h'
        exact absurd h (hnew b)
      · rw [Function.update_of_ne hc] at h'
        exact fs.unique h h'

/-- Opens a name for writing: an existing file is cut to nothing, and otherwise there is a new one.
Gives the descriptor as well. -/
def create (fs : FileSystem ν α) (a : ν) : FileSystem ν α × Nat :=
  match fs.names a with
  | some f => ({ fs with data := Function.update fs.data f [] }, f)
  | none => (fs.newFile.link a fs.next (Nat.lt_succ_self _) fs.names_ne_next, fs.next)

theorem names_remove_ne {fs : FileSystem ν α} {a : ν} {f : Nat} (h : fs.names a = some f) (b : ν) :
    (fs.remove a).names b ≠ some f := by
  intro hb
  rcases eq_or_ne b a with rfl | hne
  · rw [names_remove, Function.update_self] at hb
    cases hb
  · rw [names_remove, Function.update_of_ne hne] at hb
    exact hne (fs.unique hb h)

/-- Moves a file to another name, in one step. What had that name before has none afterwards. -/
def rename (fs : FileSystem ν α) (a b : ν) : FileSystem ν α :=
  match h : fs.names a with
  | some f => (fs.remove a).link b f (fs.bounded h) (names_remove_ne h)
  | none => fs

/-! ## What the operations do to a name -/

theorem lookup_remove_ne (h : b ≠ a) : (fs.remove a).lookup b = fs.lookup b :=
  lookup_congr (Function.update_of_ne h _ _) fun _ _ => rfl

theorem lookup_create : (fs.create a).1.lookup a = some ((fs.create a).2, []) := by
  unfold create
  split
  · next f hf => exact lookup_eq_some.mpr ⟨hf, Function.update_self ..⟩
  · exact lookup_eq_some.mpr ⟨Function.update_self .., Function.update_self ..⟩

theorem lookup_create_ne (h : b ≠ a) : (fs.create a).1.lookup b = fs.lookup b := by
  unfold create
  split
  · next f hf =>
    refine lookup_congr rfl fun g hg => Function.update_of_ne ?_ _ _
    rintro rfl
    exact h (fs.unique hg hf)
  · refine lookup_congr (Function.update_of_ne h _ _) fun g hg => Function.update_of_ne ?_ _ _
    exact Nat.ne_of_lt (fs.bounded hg)

theorem rename_eq (h : fs.names a = some f) :
    fs.rename a b = (fs.remove a).link b f (fs.bounded h) (names_remove_ne h) := by
  unfold rename
  split
  · next g hg =>
    rw [h] at hg
    cases hg
    rfl
  · next hn =>
    rw [h] at hn
    cases hn

theorem lookup_rename (h : fs.lookup a = some (f, d)) : (fs.rename a b).lookup b = some (f, d) := by
  obtain ⟨hf, hd⟩ := lookup_eq_some.mp h
  rw [rename_eq hf]
  exact lookup_eq_some.mpr ⟨Function.update_self .., hd⟩

theorem lookup_rename_ne (h : fs.lookup a = some (f, d)) (ha : c ≠ a) (hb : c ≠ b) :
    (fs.rename a b).lookup c = fs.lookup c := by
  rw [rename_eq (lookup_eq_some.mp h).1]
  refine lookup_congr ?_ fun _ _ => rfl
  exact (Function.update_of_ne hb _ _).trans (Function.update_of_ne ha _ _)

/-! ## Where a file can be found afterwards -/

theorem next_le_create : fs.next ≤ (fs.create a).1.next := by
  unfold create
  split
  · exact Nat.le_refl _
  · exact Nat.le_succ _

theorem lt_next_create : (fs.create a).2 < (fs.create a).1.next :=
  (fs.create a).1.bounded (lookup_eq_some.mp lookup_create).1

theorem names_create (h : (fs.create a).1.names b = some f) :
    fs.names b = some f ∨ f = fs.next := by
  unfold create at h
  split at h
  · exact Or.inl h
  · rcases eq_or_ne b a with rfl | hb
    · refine Or.inr ?_
      have h' : some fs.next = some f := (Function.update_self b _ fs.names).symm.trans h
      exact (Option.some.inj h').symm
    · exact Or.inl ((Function.update_of_ne hb _ _).symm.trans h)

theorem names_of_remove (h : (fs.remove a).names b = some f) : fs.names b = some f := by
  rcases eq_or_ne b a with rfl | hb
  · rw [names_remove, Function.update_self] at h
    cases h
  · exact (Function.update_of_ne hb _ _).symm.trans h

theorem names_rename (h : (fs.rename a b).names c = some f) : fs.names c = some f ∨ c = b := by
  rcases eq_or_ne c b with rfl | hb
  · exact Or.inr rfl
  · unfold rename at h
    split at h
    · exact Or.inl (names_of_remove ((Function.update_of_ne hb _ _).symm.trans h))
    · exact Or.inl h

theorem next_rename : (fs.rename a b).next = fs.next := by
  unfold rename
  split <;> rfl

end

end FileSystem

end CacheX
