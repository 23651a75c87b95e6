import Mathlib.Data.List.Basic
import Mathlib.Data.List.Nodup

/-!
# Lists of keyed items

A list of items with pairwise distinct keys is a map with an order. This file has the operations
on such a list that a recency order needs, over any item type and any key function.

* `find k`, `without k`: look up and delete by key.
* `atMost cap`: the first `cap` items, or all of them when there is no cap.
* `put cap a`: the item `a` in front of the others, cut back to the cap.
* `firsts`: the first item of each key.

The result the others serve is `put_atMost`: cutting a list back before a `put` does not change
what the `put` gives. So a sequence of `put`s is the uncapped sequence, cut back once at the end
(`foldr_put`), and the uncapped sequence has a closed form (`foldr_front`).
-/

namespace CacheX.Keyed

variable {α κ : Type}

/-- The keys of the items are pairwise distinct. -/
def NodupBy (key : α → κ) (l : List α) : Prop := (l.map key).Nodup

theorem NodupBy.sublist {key : α → κ} {l l' : List α} (h : l.Sublist l') (hl : NodupBy key l') :
    NodupBy key l :=
  List.Nodup.sublist (h.map key) hl

theorem nodupBy_cons {key : α → κ} {a : α} {l : List α} :
    NodupBy key (a :: l) ↔ (∀ b ∈ l, key b ≠ key a) ∧ NodupBy key l := by
  unfold NodupBy
  simp only [List.map_cons, List.nodup_cons, List.mem_map, not_exists, not_and]

/-- A partial map that keeps the key of what it maps keeps the order of the keys. -/
theorem keys_filterMap {β : Type} {f : α → Option β} {key : α → κ} {key' : β → κ}
    (hf : ∀ a b, f a = some b → key' b = key a) (l : List α) :
    ((l.filterMap f).map key').Sublist (l.map key) := by
  induction l with
  | nil => exact List.Sublist.refl _
  | cons a l ih =>
    cases ha : f a with
    | none =>
      rw [List.filterMap_cons_none ha]
      exact ih.cons _
    | some b =>
      rw [List.filterMap_cons_some ha, List.map_cons, List.map_cons, hf a b ha]
      exact ih.cons_cons _

/-- Lists that each own their keys, one after another. -/
theorem nodupBy_flatMap {ι γ : Type} {key : α → κ} {l : List ι} {f : ι → List α} {index : ι → γ}
    (owner : κ → γ) (hl : NodupBy index l) (hf : ∀ i ∈ l, NodupBy key (f i))
    (howned : ∀ i ∈ l, ∀ a ∈ f i, owner (key a) = index i) : NodupBy key (l.flatMap f) := by
  induction l with
  | nil => exact List.nodup_nil
  | cons i l ih =>
    obtain ⟨hi, hl⟩ := nodupBy_cons.mp hl
    have htail := ih hl (fun j hj => hf j (List.mem_cons_of_mem _ hj))
      fun j hj => howned j (List.mem_cons_of_mem _ hj)
    rw [NodupBy, List.flatMap_cons, List.map_append]
    refine List.Nodup.append (hf i List.mem_cons_self) htail fun k hk hk' => ?_
    obtain ⟨a, ha, rfl⟩ := List.mem_map.mp hk
    obtain ⟨b, hb, hab⟩ := List.mem_map.mp hk'
    obtain ⟨j, hj, hbj⟩ := List.mem_flatMap.mp hb
    have howner := howned j (List.mem_cons_of_mem _ hj) b hbj
    rw [hab, howned i List.mem_cons_self a ha] at howner
    exact hi j hj howner.symm

variable [DecidableEq κ] (key : α → κ)

def find (k : κ) (l : List α) : Option α := l.find? fun a => decide (key a = k)

def without (k : κ) (l : List α) : List α := l.filter fun a => decide (key a ≠ k)

def atMost : Option Nat → List α → List α
  | none, l => l
  | some n, l => l.take n

/-- `a` in front of the items with another key. -/
def front (a : α) (l : List α) : List α := a :: without key (key a) l

def put (cap : Option Nat) (a : α) (l : List α) : List α := atMost cap (front key a l)

/-- The first item of each key, in order. -/
def firsts : List α → List α
  | [] => []
  | a :: l => front key a (firsts l)

variable {key}

/-! ## Lookup -/

theorem find_some {k : κ} {l : List α} {a : α} (h : find key k l = some a) : a ∈ l ∧ key a = k :=
  ⟨List.mem_of_find?_eq_some h, by simpa using List.find?_some h⟩

theorem find_none {k : κ} {l : List α} : find key k l = none ↔ ∀ a ∈ l, key a ≠ k := by
  simp [find]

theorem find_of_mem {l : List α} (hl : NodupBy key l) {a : α} (h : a ∈ l) :
    find key (key a) l = some a := by
  induction l with
  | nil => cases h
  | cons b l ih =>
    have hl' := List.nodup_cons.mp hl
    by_cases hb : key b = key a
    · rcases List.mem_cons.mp h with rfl | h
      · simp [find]
      · exact absurd (hb ▸ List.mem_map_of_mem h) hl'.1
    · rcases List.mem_cons.mp h with rfl | h
      · exact absurd rfl hb
      · simpa [find, hb] using ih hl'.2 h

theorem find_iff {l : List α} (hl : NodupBy key l) {k : κ} {a : α} :
    find key k l = some a ↔ a ∈ l ∧ key a = k := by
  constructor
  · exact find_some
  · rintro ⟨h, rfl⟩
    exact find_of_mem hl h

theorem find_sublist {l l' : List α} (hl : NodupBy key l) (h : l'.Sublist l) {k : κ} {a : α}
    (hf : find key k l' = some a) : find key k l = some a := by
  obtain ⟨hmem, hk⟩ := find_some hf
  exact (find_iff hl).mpr ⟨h.subset hmem, hk⟩

/-! ## Deletion -/

theorem mem_without {k : κ} {l : List α} {a : α} : a ∈ without key k l ↔ a ∈ l ∧ key a ≠ k := by
  simp [without]

theorem without_eq_self {k : κ} {l : List α} (h : ∀ a ∈ l, key a ≠ k) : without key k l = l := by
  unfold without
  exact List.filter_eq_self.mpr fun a ha => decide_eq_true (h a ha)

theorem without_sublist (k : κ) (l : List α) : (without key k l).Sublist l :=
  List.filter_sublist

theorem find_without_self (k : κ) (l : List α) : find key k (without key k l) = none :=
  find_none.mpr fun _ ha => (mem_without.mp ha).2

theorem find_without_ne {k k' : κ} (h : k ≠ k') (l : List α) :
    find key k (without key k' l) = find key k l := by
  unfold find without
  rw [List.find?_filter]
  congr 1
  funext a
  by_cases ha : key a = k
  · simp [ha, h]
  · simp [ha]

theorem find_cons_self (a : α) (l : List α) : find key (key a) (a :: l) = some a := by
  simp [find]

theorem find_cons_ne {a : α} {k : κ} (h : key a ≠ k) (l : List α) :
    find key k (a :: l) = find key k l := by
  simp [find, h]

theorem nodupBy_front {a : α} {l : List α} (hl : NodupBy key l) : NodupBy key (front key a l) :=
  nodupBy_cons.mpr ⟨fun _ hb => (mem_without.mp hb).2, hl.sublist (without_sublist _ _)⟩

/-- A present item and the items with another key are all items. -/
theorem perm_without {k : κ} {l : List α} (hl : NodupBy key l) {a : α}
    (h : find key k l = some a) : l.Perm (a :: without key k l) := by
  induction l with
  | nil => cases h
  | cons b l ih =>
    obtain ⟨hb, hl'⟩ := nodupBy_cons.mp hl
    by_cases hk : key b = k
    · subst hk
      have hab : b = a := Option.some.inj ((find_cons_self b l).symm.trans h)
      subst hab
      have : without key (key b) (b :: l) = l := by
        have := without_eq_self hb
        unfold without at this ⊢
        rw [List.filter_cons_of_neg (by simp), this]
      rw [this]
    · rw [find_cons_ne hk] at h
      have : without key k (b :: l) = b :: without key k l := by simp [without, hk]
      rw [this]
      exact ((ih hl' h).cons b).trans (List.Perm.swap a b _)

/-- Deleting the key of a present item shortens the list by one. -/
theorem length_without {k : κ} {l : List α} (hl : NodupBy key l) {a : α}
    (h : find key k l = some a) : (without key k l).length + 1 = l.length :=
  (perm_without hl h).length_eq.symm

/-- A key of the list occurs in it once. -/
theorem filter_key {l : List α} (hl : NodupBy key l) {a : α} (h : a ∈ l) :
    l.filter (fun b => decide (key b = key a)) = [a] := by
  have hp := (perm_without hl (find_of_mem hl h)).filter fun b => decide (key b = key a)
  have hnone : (without key (key a) l).filter (fun b => decide (key b = key a)) = [] :=
    List.filter_eq_nil_iff.mpr fun b hb => by simpa using (mem_without.mp hb).2
  rw [List.filter_cons, if_pos (decide_eq_true rfl), hnone] at hp
  exact List.perm_singleton.mp hp

/-! ## Caps -/

theorem atMost_sublist (cap : Option Nat) (l : List α) : (atMost cap l).Sublist l := by
  cases cap with
  | none => exact List.Sublist.refl l
  | some n => exact List.take_sublist n l

theorem atMost_eq_self {cap : Option Nat} {l : List α} (h : ∀ n ∈ cap, l.length ≤ n) :
    atMost cap l = l := by
  cases cap with
  | none => rfl
  | some n => exact List.take_of_length_le (h n rfl)

theorem take_without {n : Nat} {k : κ} {l : List α} (hl : NodupBy key l) :
    (without key k (l.take (n + 1))).take n = (without key k l).take n := by
  induction l generalizing n with
  | nil => rfl
  | cons b l ih =>
    obtain ⟨hb, hl'⟩ := nodupBy_cons.mp hl
    by_cases hk : key b = k
    · -- the deleted item is within the cut, so both sides keep the next `n`
      subst hk
      have hskip : ∀ m : List α, (∀ a ∈ m, key a ≠ key b) → without key (key b) (b :: m) = m := by
        intro m hm
        rw [without, List.filter_cons_of_neg (by simp)]
        exact without_eq_self hm
      rw [List.take_succ_cons, hskip l hb, hskip _ fun a ha => hb a (List.mem_of_mem_take ha),
        List.take_take, Nat.min_self]
    · have hkeep : ∀ m : List α, without key k (b :: m) = b :: without key k m := by
        intro m
        simp [without, hk]
      rw [List.take_succ_cons, hkeep, hkeep]
      cases n with
      | zero => rfl
      | succ n => rw [List.take_succ_cons, List.take_succ_cons, ih hl']

/-- Cutting a list back before a `put` does not change the result. The cap leaves room for the new
item, so what the early cut drops would have been dropped anyway. -/
theorem put_atMost {cap : Option Nat} {a : α} {l : List α} (hl : NodupBy key l) :
    put key cap a (atMost cap l) = put key cap a l := by
  cases cap with
  | none => rfl
  | some n =>
    cases n with
    | zero => rfl
    | succ n =>
      show (a :: without key (key a) (l.take (n + 1))).take (n + 1) =
        (a :: without key (key a) l).take (n + 1)
      rw [List.take_succ_cons, List.take_succ_cons, take_without hl]

theorem nodupBy_foldr_front {l : List α} (hl : NodupBy key l) (as : List α) :
    NodupBy key (as.foldr (front key) l) := by
  induction as with
  | nil => exact hl
  | cons a as ih => exact nodupBy_front ih

/-- A sequence of `put`s, the last item first, is the uncapped sequence cut back once. -/
theorem foldr_put {cap : Option Nat} {l : List α} (hl : NodupBy key l) (as : List α) :
    as.foldr (put key cap) (atMost cap l) = atMost cap (as.foldr (front key) l) := by
  induction as with
  | nil => rfl
  | cons a as ih =>
    rw [List.foldr_cons, List.foldr_cons, ih, put_atMost (nodupBy_foldr_front hl as)]
    rfl

/-! ## Smaller caps -/

/-- Cutting more off the end of the shorter list than off the end of the longer one. -/
theorem take_sublist_take {l l' : List α} (h : l.Sublist l') {m n : Nat}
    (hgap : l'.length + m ≤ l.length + n) : (l.take m).Sublist (l'.take n) := by
  induction h generalizing m n with
  | slnil =>
    rw [List.take_nil]
    exact List.nil_sublist _
  | cons a h ih =>
    have hle := h.length_le
    rw [List.length_cons] at hgap
    cases n with
    | zero => omega
    | succ n => exact (ih (by omega)).cons a
  | cons_cons a h ih =>
    have hle := h.length_le
    rw [List.length_cons, List.length_cons] at hgap
    cases m with
    | zero => exact List.nil_sublist _
    | succ m =>
      cases n with
      | zero => omega
      | succ n => exact (ih (by omega)).cons_cons a

/-- A list under a cap against a list under a larger cap: the second one has all items of the first
in the same order, and no more items besides than the caps differ by. -/
structure Within (cap cap' : Option Nat) (l l' : List α) : Prop where
  sublist : l.Sublist l'
  gap : ∀ n ∈ cap', ∃ m ∈ cap, m ≤ n ∧ l'.length + m ≤ l.length + n

variable {cap cap' : Option Nat} {l l' : List α}

theorem within_nil (h : ∀ n ∈ cap', ∃ m ∈ cap, m ≤ n) :
    Within cap cap' ([] : List α) [] := by
  refine ⟨List.Sublist.refl _, fun n hn => ?_⟩
  obtain ⟨m, hm, hle⟩ := h n hn
  exact ⟨m, hm, hle, Nat.add_le_add_left hle 0⟩

/-- The caps matter only through their difference. -/
theorem Within.of_length {k k' : List α} (h : Within cap cap' l l') (hsub : k.Sublist k')
    (hlen : k'.length + l.length ≤ k.length + l'.length) : Within cap cap' k k' := by
  refine ⟨hsub, fun n hn => ?_⟩
  obtain ⟨m, hm, hle, hgap⟩ := h.gap n hn
  exact ⟨m, hm, hle, by omega⟩

/-- What a deletion takes from the first list it takes from the second one. -/
theorem within_without (h : Within cap cap' l l') (k : κ) :
    Within cap cap' (without key k l) (without key k l') := by
  refine h.of_length (h.sublist.filter _) ?_
  have hl := List.length_eq_countP_add_countP (fun a => decide (key a ≠ k)) (l := l)
  have hl' := List.length_eq_countP_add_countP (fun a => decide (key a ≠ k)) (l := l')
  have hle : l.countP (fun a => decide (¬decide (key a ≠ k) = true)) ≤ l'.countP _ :=
    h.sublist.countP_le
  rw [without, without, ← List.countP_eq_length_filter, ← List.countP_eq_length_filter]
  omega

theorem within_front (h : Within cap cap' l l') (a : α) :
    Within cap cap' (front key a l) (front key a l') := by
  have hw : Within cap cap' (without key (key a) l) (without key (key a) l') :=
    within_without h (key a)
  refine hw.of_length (hw.sublist.cons_cons a) ?_
  rw [front, front, List.length_cons, List.length_cons]
  omega

/-- An item that only the second list has moves to its front. -/
theorem within_front_right (hl' : NodupBy key l') (h : Within cap cap' l l') {k : κ} {a : α}
    (hnone : find key k l = none) (hsome : find key k l' = some a) :
    Within cap cap' l (front key a l') := by
  obtain ⟨-, rfl⟩ := find_some hsome
  have hw : Within cap cap' (without key (key a) l) (without key (key a) l') :=
    within_without h (key a)
  rw [without_eq_self (find_none.mp hnone)] at hw
  refine h.of_length (hw.sublist.cons a) ?_
  rw [front, List.length_cons, length_without hl' hsome]
  exact Nat.le_of_eq (Nat.add_comm _ _)

theorem within_atMost (h : Within cap cap' l l') :
    Within cap cap' (atMost cap l) (atMost cap' l') := by
  cases cap' with
  | none => exact ⟨(atMost_sublist cap l).trans h.sublist, fun n hn => by cases hn⟩
  | some n =>
    obtain ⟨m, hm, hle, hgap⟩ := h.gap n rfl
    cases hm
    refine ⟨take_sublist_take h.sublist hgap, fun n' hn' => ?_⟩
    cases hn'
    refine ⟨m, rfl, hle, ?_⟩
    rw [atMost, atMost, List.length_take, List.length_take]
    omega

/-! ## First occurrences -/

theorem firsts_sublist (as : List α) : (firsts key as).Sublist as := by
  induction as with
  | nil => exact List.Sublist.refl _
  | cons a as ih => exact ((without_sublist _ _).trans ih).cons_cons a

theorem firsts_eq_self {as : List α} (h : NodupBy key as) : firsts key as = as := by
  induction as with
  | nil => rfl
  | cons a as ih =>
    obtain ⟨ha, has⟩ := nodupBy_cons.mp h
    rw [firsts, ih has, front, without_eq_self ha]

/-- The uncapped sequence of `put`s in closed form: the first item of each key, then the old items
whose key is not among them. -/
theorem foldr_front (as l : List α) :
    as.foldr (front key) l =
      firsts key as ++ l.filter fun b => decide (key b ∉ (firsts key as).map key) := by
  induction as with
  | nil => simp [firsts]
  | cons a as ih =>
    rw [List.foldr_cons, ih, firsts, front, front, List.cons_append, without, List.filter_append]
    congr 2
    rw [List.filter_filter]
    apply List.filter_congr
    intro b _
    rw [Bool.eq_iff_iff]
    simp only [Bool.and_eq_true, decide_eq_true_eq, List.map_cons, List.mem_cons, not_or]
    constructor
    · rintro ⟨hne, hnot⟩
      refine ⟨hne, fun h => hnot ?_⟩
      obtain ⟨c, hc, he⟩ := List.mem_map.mp h
      exact he ▸ List.mem_map_of_mem (mem_without.mp hc).1
    · rintro ⟨hne, hnot⟩
      refine ⟨hne, fun h => hnot ?_⟩
      obtain ⟨c, hc, he⟩ := List.mem_map.mp h
      exact he ▸ List.mem_map_of_mem (mem_without.mpr ⟨hc, by rw [he]; exact hne⟩)

/-- A sequence of `put`s on a list within the cap, in closed form. -/
theorem foldr_put_eq {cap : Option Nat} {l : List α} (hl : NodupBy key l)
    (hcap : ∀ n ∈ cap, l.length ≤ n) (as : List α) :
    as.foldr (put key cap) l = atMost cap
      (firsts key as ++ l.filter fun b => decide (key b ∉ (firsts key as).map key)) := by
  have := @foldr_put _ _ _ key cap l hl as
  rwa [atMost_eq_self hcap, foldr_front] at this

theorem firsts_filter (p : κ → Bool) (as : List α) :
    firsts key (as.filter fun a => p (key a)) = (firsts key as).filter fun a => p (key a) := by
  induction as with
  | nil => rfl
  | cons a as ih =>
    have hcomm : ∀ l : List α, without key (key a) (l.filter fun b => p (key b))
        = (without key (key a) l).filter fun b => p (key b) := fun l => by
      simp only [without, List.filter_filter, Bool.and_comm]
    cases hp : p (key a) with
    | true =>
      have hcons : ∀ l : List α, (a :: l).filter (fun b => p (key b))
          = a :: l.filter fun b => p (key b) := fun l => List.filter_cons_of_pos hp
      rw [hcons, firsts, firsts, front, front, hcons, ih, hcomm]
    | false =>
      -- the other items with the key of `a` are filtered out as well
      have hself : ∀ l : List α, (without key (key a) l).filter (fun b => p (key b))
          = l.filter fun b => p (key b) := fun l => by
        rw [without, List.filter_filter]
        refine List.filter_congr fun b _ => ?_
        by_cases hb : key b = key a
        · simp [hb, hp]
        · simp [hb]
      have hcons : ∀ l : List α, (a :: l).filter (fun b => p (key b))
          = l.filter fun b => p (key b) := fun l =>
        List.filter_cons_of_neg (by rw [hp]; exact Bool.false_ne_true)
      rw [hcons, firsts, front, hcons, hself, ih]

/-- Filling up a second time with what is left behind the same front changes nothing. -/
theorem atMost_refill {cap : Option Nat} {front rest : List α} {p : α → Bool}
    (hfront : ∀ a ∈ front, p a = false) (hrest : ∀ a ∈ rest, p a = true) :
    atMost cap (front ++ (atMost cap (front ++ rest)).filter p) = atMost cap (front ++ rest) := by
  have hnil : ∀ {l : List α}, (∀ a ∈ l, a ∈ front) → l.filter p = [] := fun h =>
    List.filter_eq_nil_iff.mpr fun a ha => by rw [hfront a (h a ha)]; exact Bool.false_ne_true
  have hall : ∀ {l : List α}, (∀ a ∈ l, a ∈ rest) → l.filter p = l := fun h =>
    List.filter_eq_self.mpr fun a ha => hrest a (h a ha)
  cases cap with
  | none =>
    show front ++ (front ++ rest).filter p = front ++ rest
    rw [List.filter_append, hnil fun _ h => h, hall fun _ h => h, List.nil_append]
  | some n =>
    show (front ++ ((front ++ rest).take n).filter p).take n = (front ++ rest).take n
    have hcut : ((front ++ rest).take n).filter p = rest.take (n - front.length) := by
      rw [List.take_append, List.filter_append, hnil fun a h => List.mem_of_mem_take h,
        hall fun a h => List.mem_of_mem_take h, List.nil_append]
    rw [hcut, List.take_append, List.take_append, List.take_take, Nat.min_self]

end CacheX.Keyed
