import CacheX.Lib.Keyed
import Mathlib.Data.Finset.Card
import Mathlib.Data.List.Forall2

/-!
# Paging

Requests for pages go to a memory that holds `k` of them. Least-recently-used paging keeps the pages
in the order of their last use; other policies are described by the sets of pages that they go
through.

* `faults_le`: a larger memory faults only where a smaller one does.
* `faults_bound`: the faults of least-recently-used paging with `k` places, against any policy with
  `h ≤ k` places that may know the requests to come. The proof pays for them out of a potential, the
  sum of the ranks of the pages that only the least-recently-used memory holds.
-/

namespace CacheX.Paging

variable {α : Type} [DecidableEq α]

/-! ## Least recently used -/

/-- The pages in memory after a request, most recently used first. -/
def touch (k : Nat) (r : α) (l : List α) : List α := Keyed.put id (some k) r l

/-- Whether a page is missing. -/
def missing (r : α) (l : List α) : Bool := decide (r ∉ l)

theorem missing_of_notMem {r : α} {l : List α} (h : r ∉ l) : missing r l = true := decide_eq_true h

theorem missing_of_mem {r : α} {l : List α} (h : r ∈ l) : missing r l = false :=
  decide_eq_false (not_not_intro h)

/-- Whether each request finds its page missing. -/
def faults (k : Nat) : List α → List α → List Bool
  | _, [] => []
  | l, r :: rs => missing r l :: faults k (touch k r l) rs

omit [DecidableEq α] in
theorem nodupBy_id {l : List α} : Keyed.NodupBy id l ↔ l.Nodup := by
  rw [Keyed.NodupBy, List.map_id]

theorem nodup_front {l : List α} (hl : l.Nodup) (r : α) : (Keyed.front id r l).Nodup :=
  nodupBy_id.mp (Keyed.nodupBy_front (nodupBy_id.mpr hl))

theorem nodup_touch {k : Nat} {l : List α} (hl : l.Nodup) (r : α) : (touch k r l).Nodup :=
  (nodup_front hl r).sublist (List.take_sublist _ _)

theorem length_touch (k : Nat) (r : α) (l : List α) : (touch k r l).length ≤ k :=
  List.length_take_le _ _

/-- The memory of `k` places is the start of a list that does not depend on `k`. -/
theorem touch_take {l : List α} (hl : l.Nodup) (k : Nat) (r : α) :
    touch k r (l.take k) = (Keyed.front id r l).take k :=
  Keyed.put_atMost (nodupBy_id.mpr hl)

theorem faults_le {j k : Nat} (hjk : j ≤ k) {l : List α} (hl : l.Nodup) (rs : List α) :
    List.Forall₂ (fun small large => large = true → small = true)
      (faults j (l.take j) rs) (faults k (l.take k) rs) := by
  induction rs generalizing l with
  | nil => exact .nil
  | cons r rs ih =>
    refine .cons (fun hfault => ?_) ?_
    · refine missing_of_notMem fun hmem => ?_
      have hlarge : r ∈ l.take k := (List.take_sublist_take_left hjk).subset hmem
      rw [missing_of_mem hlarge] at hfault
      cases hfault
    · rw [touch_take hl, touch_take hl]
      exact ih (nodup_front hl r)

theorem count_le_of_forall₂ {a b : List Bool}
    (h : List.Forall₂ (fun small large => large = true → small = true) a b) :
    b.count true ≤ a.count true := by
  induction h with
  | nil => exact Nat.le_refl _
  | @cons x y a b hxy _ ih =>
    rw [List.count_cons, List.count_cons]
    cases y with
    | false => exact ih.trans (Nat.le_add_right _ _)
    | true =>
      rw [hxy rfl]
      exact Nat.add_le_add_right ih _

/-! ## Other policies -/

/-- A request served from the pages `S`, with the pages `S'` in memory afterwards. A page is loaded
when it is requested, and any pages may be dropped. -/
structure Serves (h : Nat) (S : Finset α) (r : α) (S' : Finset α) : Prop where
  loaded : r ∈ S'
  demand : S' ⊆ insert r S
  card : S'.card ≤ h

/-- A row of requests served from the pages `S` with so many faults. -/
inductive Schedule (h : Nat) : Finset α → List α → Nat → Prop
  | nil (S : Finset α) : Schedule h S [] 0
  | cons {S S' : Finset α} {r : α} {rs : List α} {n : Nat} : Serves h S r S' →
    Schedule h S' rs n → Schedule h S (r :: rs) ((if r ∈ S then 0 else 1) + n)

/-- A policy may as well keep a page until its place is needed. -/
theorem exists_lazy {h : Nat} {S S' L : Finset α} {r : α} (hserves : Serves h S r S')
    (hsub : S ⊆ L) (hcard : L.card ≤ h) :
    ∃ L', S' ⊆ L' ∧ L'.card ≤ h ∧ r ∈ L' ∧ (r ∈ L → L' = L) ∧ ∃ x, L.erase x ⊆ L' := by
  have hkept : S' ⊆ insert r L := hserves.demand.trans (Finset.insert_subset_insert r hsub)
  by_cases hr : r ∈ L
  · refine ⟨L, ?_, hcard, hr, fun _ => rfl, r, Finset.erase_subset r L⟩
    rwa [Finset.insert_eq_self.mpr hr] at hkept
  by_cases hfull : L.card < h
  · refine ⟨insert r L, hkept, ?_, Finset.mem_insert_self r L, fun hmem => absurd hmem hr, r, ?_⟩
    · rw [Finset.card_insert_of_notMem hr]
      exact hfull
    · exact (Finset.erase_subset r L).trans (Finset.subset_insert r L)
  · -- the memory is full, so there is a page in it that the policy has dropped
    obtain ⟨x, hx, hdropped⟩ : ∃ x ∈ L, x ∉ S' := by
      by_contra hall
      push Not at hall
      have hmore : (insert r L).card ≤ S'.card :=
        Finset.card_le_card (Finset.insert_subset hserves.loaded hall)
      rw [Finset.card_insert_of_notMem hr] at hmore
      exact hfull (Nat.lt_of_succ_le (hmore.trans hserves.card))
    refine ⟨insert r (L.erase x), ?_, ?_, Finset.mem_insert_self _ _, fun hmem => absurd hmem hr, x,
      Finset.subset_insert _ _⟩
    · intro y hy
      rcases Finset.mem_insert.mp (hkept hy) with rfl | hyL
      · exact Finset.mem_insert_self _ _
      · refine Finset.mem_insert_of_mem (Finset.mem_erase.mpr ⟨?_, hyL⟩)
        rintro rfl
        exact hdropped hy
    · have hrx : r ∉ L.erase x := fun hmem => hr (Finset.mem_of_mem_erase hmem)
      rw [Finset.card_insert_of_notMem hrx, Finset.card_erase_of_mem hx]
      exact (Nat.sub_add_cancel (Finset.card_pos.mpr ⟨x, hx⟩)).trans_le hcard

/-! ## The potential -/

/-- The sum of the first `n` numbers. -/
def triangle : Nat → Nat
  | 0 => 0
  | n + 1 => (n + 1) + triangle n

theorem two_mul_triangle (n : Nat) : 2 * triangle n = n * (n + 1) := by
  induction n with
  | zero => rfl
  | succ n ih =>
    rw [triangle, Nat.mul_add, ih, ← Nat.add_mul, Nat.mul_comm, Nat.add_comm 2 n]

/-- The ranks, from `w` down, of the pages of a list that are not in `S`. The places that are empty
count like pages that nobody asks for. -/
def potential (S : Finset α) : Nat → List α → Nat
  | w, [] => triangle w
  | w, x :: l => (if x ∈ S then 0 else w) + potential S (w - 1) l

theorem potential_mono {S S' : Finset α} {l : List α} (h : ∀ x ∈ l, x ∈ S → x ∈ S') (w : Nat) :
    potential S' w l ≤ potential S w l := by
  induction l generalizing w with
  | nil => exact Nat.le_refl _
  | cons x l ih =>
    refine Nat.add_le_add ?_ (ih (fun y hy => h y (List.mem_cons_of_mem x hy)) (w - 1))
    by_cases hx : x ∈ S
    · rw [if_pos (h x List.mem_cons_self hx)]
      exact Nat.zero_le _
    · rw [if_neg hx]
      split
      · exact Nat.zero_le _
      · exact Nat.le_refl _

/-- Dropping one page costs its rank at most. -/
theorem potential_erase {S S' : Finset α} {x : α} (h : S.erase x ⊆ S') {l : List α} (hl : l.Nodup)
    (w : Nat) : potential S' w l ≤ potential S w l + w := by
  induction l generalizing w with
  | nil => exact Nat.le_add_right _ _
  | cons y l ih =>
    obtain ⟨hy, hl⟩ := List.nodup_cons.mp hl
    by_cases hyx : y = x
    · have htail : potential S' (w - 1) l ≤ potential S (w - 1) l := by
        refine potential_mono (fun z hz hzS => h (Finset.mem_erase.mpr ⟨?_, hzS⟩)) _
        rintro rfl
        exact hy (hyx ▸ hz)
      have hhead : (if y ∈ S' then 0 else w) ≤ (if y ∈ S then 0 else w) + w := by
        split
        · exact Nat.zero_le _
        · exact Nat.le_add_left _ _
      simp only [potential]
      omega
    · have htail := ih hl (w - 1)
      have hhead : (if y ∈ S' then 0 else w) ≤ (if y ∈ S then 0 else w) := by
        by_cases hyS : y ∈ S
        · rw [if_pos (h (Finset.mem_erase.mpr ⟨hyx, hyS⟩))]
          exact Nat.zero_le _
        · rw [if_neg hyS]
          split
          · exact Nat.zero_le _
          · exact Nat.le_refl _
      simp only [potential]
      omega

/-- A page that the policy holds moves to the front: the others lose rank. -/
theorem potential_front {S : Finset α} {r : α} (hr : r ∈ S) {l : List α} (hl : l.Nodup)
    (hmem : r ∈ l) (w : Nat) : potential S w (Keyed.front id r l) ≤ potential S w l := by
  induction l generalizing w with
  | nil => cases hmem
  | cons y l ih =>
    obtain ⟨hy, hl⟩ := List.nodup_cons.mp hl
    by_cases hyr : y = r
    · subst hyr
      have hsame : Keyed.front id y (y :: l) = y :: l := by
        rw [Keyed.front, Keyed.without, List.filter_cons_of_neg (by simp)]
        refine congrArg _ (List.filter_eq_self.mpr fun z hz => ?_)
        rw [decide_eq_true_eq]
        rintro rfl
        exact hy hz
      rw [hsame]
    · have htail := ih hl (List.mem_of_ne_of_mem (Ne.symm hyr) hmem) (w - 1)
      have hfront : Keyed.front id r (y :: l) = r :: y :: Keyed.without id r l := by
        rw [Keyed.front, Keyed.without, List.filter_cons_of_pos (by simpa using hyr)]
        rfl
      rw [hfront]
      simp only [Keyed.front, potential, if_pos hr, id, Nat.zero_add] at htail ⊢
      split at *
      · exact Nat.add_le_add_left htail 0
      · omega

/-- A page in front of a list costs each of the others one rank. -/
theorem potential_shift (S : Finset α) {w : Nat} {l : List α} (hlen : l.length ≤ w + 1) :
    potential S (w + 1) l = potential S w (l.take w) + l.countP (fun x => decide (x ∉ S))
      + (w + 1 - l.length) := by
  induction l generalizing w with
  | nil =>
    simp only [List.take_nil, potential, triangle, List.countP_nil, List.length_nil]
    omega
  | cons x l ih =>
    rw [List.length_cons] at hlen
    rw [List.countP_cons, List.length_cons]
    cases w with
    | zero =>
      have hnil : l = [] :=
        List.length_eq_zero_iff.mp (Nat.le_zero.mp (Nat.le_of_succ_le_succ hlen))
      subst hnil
      by_cases hx : x ∈ S <;> simp [potential, triangle, hx]
    | succ w =>
      have htail := ih (Nat.le_of_succ_le_succ hlen)
      rw [List.take_succ_cons]
      simp only [potential, Nat.add_sub_cancel, htail]
      by_cases hx : x ∈ S
      · simp only [hx, if_true, not_true_eq_false, decide_false, Bool.false_eq_true, if_false]
        omega
      · simp only [hx, if_false, not_false_eq_true, decide_true, if_true]
        omega

/-- The pages of a list that a policy holds, when it also holds one that is not in the list. -/
theorem countP_mem_lt {S : Finset α} {r : α} (hr : r ∈ S) {l : List α} (hl : l.Nodup)
    (hmem : r ∉ l) : l.countP (fun x => decide (x ∈ S)) < S.card := by
  have hsub : (l.filter fun x => decide (x ∈ S)).toFinset ⊆ S.erase r := by
    intro x hx
    obtain ⟨hxl, hxS⟩ := List.mem_filter.mp (List.mem_toFinset.mp hx)
    refine Finset.mem_erase.mpr ⟨?_, of_decide_eq_true hxS⟩
    rintro rfl
    exact hmem hxl
  have hcard := Finset.card_le_card hsub
  rw [List.toFinset_card_of_nodup (hl.filter _), ← List.countP_eq_length_filter,
    Finset.card_erase_of_mem hr] at hcard
  exact hcard.trans_lt (Nat.sub_lt (Finset.card_pos.mpr ⟨r, hr⟩) Nat.one_pos)

/-- A fault pays: every page that the policy does not hold, and every empty place, loses one. -/
theorem potential_fault {h k : Nat} (hk : h ≤ k) {S : Finset α} (hcard : S.card ≤ h) {r : α}
    (hr : r ∈ S) {l : List α} (hl : l.Nodup) (hlen : l.length ≤ k) (hmem : r ∉ l) :
    potential S k (touch k r l) + (k - h + 1) ≤ potential S k l := by
  have hpos : 0 < k := (Finset.card_pos.mpr ⟨r, hr⟩).trans_le (hcard.trans hk)
  obtain ⟨w, rfl⟩ := Nat.exists_eq_add_of_le' hpos
  have htouch : touch (w + 1) r l = r :: l.take w := by
    have hwithout : Keyed.without id r l = l := by
      refine Keyed.without_eq_self fun x hx => ?_
      rintro rfl
      exact hmem hx
    rw [touch, Keyed.put, Keyed.front]
    show (r :: Keyed.without id r l).take (w + 1) = _
    rw [hwithout, List.take_succ_cons]
  have hheld := countP_mem_lt hr hl hmem
  have hsplit := List.length_eq_countP_add_countP (fun x => decide (x ∈ S)) (l := l)
  simp only [decide_eq_true_eq] at hsplit
  rw [htouch, potential, if_pos hr, Nat.zero_add, Nat.add_sub_cancel, potential_shift S hlen]
  omega

/-! ## The bound -/

/-- One request, with what the policy pays for its fault. -/
theorem touch_pays {h k : Nat} (hk : h ≤ k) {S S' L : Finset α} {r : α}
    (hserves : Serves h S r S') (hsub : S ⊆ L) (hcard : L.card ≤ h) {l : List α} (hl : l.Nodup)
    (hlen : l.length ≤ k) :
    ∃ L', S' ⊆ L' ∧ L'.card ≤ h ∧
      (k - h + 1) * (if r ∈ l then 0 else 1) + potential L' k (touch k r l)
        ≤ k * (if r ∈ S then 0 else 1) + potential L k l := by
  obtain ⟨L', hsub', hcard', hr, hsame, x, hx⟩ := exists_lazy hserves hsub hcard
  refine ⟨L', hsub', hcard', ?_⟩
  have hpolicy : potential L' k l ≤ k * (if r ∈ S then 0 else 1) + potential L k l := by
    by_cases hrL : r ∈ L
    · rw [hsame hrL]
      exact Nat.le_add_left _ _
    · rw [if_neg fun hrS => hrL (hsub hrS), Nat.mul_one, Nat.add_comm]
      exact potential_erase hx hl k
  refine Nat.le_trans ?_ hpolicy
  by_cases hmem : r ∈ l
  · have htouch : touch k r l = Keyed.front id r l := by
      refine List.take_of_length_le ?_
      have hfind : Keyed.find id r l = some r :=
        (Keyed.find_iff (nodupBy_id.mpr hl)).mpr ⟨hmem, rfl⟩
      rw [Keyed.front, List.length_cons]
      have hlength := Keyed.length_without (nodupBy_id.mpr hl) hfind
      simp only [id] at hlength ⊢
      omega
    rw [if_pos hmem, Nat.mul_zero, Nat.zero_add, htouch]
    exact potential_front hr hl hmem k
  · rw [if_neg hmem, Nat.mul_one, Nat.add_comm]
    exact potential_fault hk hcard' hr hl hlen hmem

theorem faults_bound {h k : Nat} (hk : h ≤ k) {S : Finset α} {rs : List α} {n : Nat}
    (hschedule : Schedule h S rs n) {L : Finset α} (hsub : S ⊆ L) (hcard : L.card ≤ h) {l : List α}
    (hl : l.Nodup) (hlen : l.length ≤ k) :
    (k - h + 1) * (faults k l rs).count true ≤ k * n + potential L k l := by
  induction hschedule generalizing L l with
  | nil => exact Nat.zero_le _
  | @cons S S' r rs n hserves _ ih =>
    obtain ⟨L', hsub', hcard', hpays⟩ := touch_pays hk hserves hsub hcard hl hlen
    have hrest := ih hsub' hcard' (nodup_touch hl r) (length_touch k r l)
    rw [faults, List.count_cons, Nat.mul_add, Nat.mul_add]
    have hfault : (if (missing r l == true) = true then 1 else 0) = if r ∈ l then 0 else 1 := by
      by_cases hmem : r ∈ l
      · rw [missing_of_mem hmem, if_pos hmem]
        rfl
      · rw [missing_of_notMem hmem, if_neg hmem]
        rfl
    rw [hfault]
    omega

end CacheX.Paging
