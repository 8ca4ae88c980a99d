import Mathlib.Order.Lattice

/-!
# Stable sorts

A stable sort brings a list into the order of a key and leaves the elements with one key in their
order. There is only one list that is so sorted: what comes first in it is the first of the elements
with the least key, and so on.

* `StablySorted.mergeSort`: a merge sort that compares keys is stable.
* `StablySorted.eq`: no other list is stably sorted.
-/

namespace MessageHarvest

variable {α κ : Type} [LinearOrder κ] {key : α → κ}

/-- The elements of a list in the order of their keys, those with one key as they stood in the list.
-/
structure StablySorted (key : α → κ) (given sorted : List α) : Prop where
  pairwise : sorted.Pairwise fun a b => key a ≤ key b
  filter_eq : ∀ k, sorted.filter (key · = k) = given.filter (key · = k)

namespace StablySorted

theorem le_trans_key (a b c : α) (hab : decide (key a ≤ key b) = true)
    (hbc : decide (key b ≤ key c) = true) : decide (key a ≤ key c) = true := by
  rw [decide_eq_true_eq] at hab hbc ⊢
  exact le_trans hab hbc

theorem le_total_key (a b : α) :
    (decide (key a ≤ key b) || decide (key b ≤ key a)) = true := by
  rw [Bool.or_eq_true, decide_eq_true_eq, decide_eq_true_eq]
  exact le_total (key a) (key b)

variable (key) in
theorem mergeSort (as : List α) :
    StablySorted key as (as.mergeSort fun a b => key a ≤ key b) where
  pairwise := by
    have hsorted : (as.mergeSort fun a b => key a ≤ key b).Pairwise
        fun a b => decide (key a ≤ key b) = true :=
      List.pairwise_mergeSort le_trans_key le_total_key as
    exact hsorted.imp fun h => of_decide_eq_true h
  filter_eq k := by
    have hequal : (as.filter (key · = k)).Pairwise fun a b => decide (key a ≤ key b) = true := by
      refine List.pairwise_of_forall_mem_list fun a ha b hb => ?_
      have ha' : key a = k := of_decide_eq_true (List.mem_filter.mp ha).2
      have hb' : key b = k := of_decide_eq_true (List.mem_filter.mp hb).2
      exact decide_eq_true (le_of_eq (ha'.trans hb'.symm))
    have hsublist : (as.filter (key · = k)).Sublist (as.mergeSort fun a b => key a ≤ key b) :=
      List.sublist_mergeSort le_trans_key le_total_key hequal List.filter_sublist
    have hfiltered := hsublist.filter (key · = k)
    simp only [List.filter_filter, Bool.and_self] at hfiltered
    have hperm := (List.mergeSort_perm as fun a b => key a ≤ key b).filter (key · = k)
    exact (hfiltered.eq_of_length hperm.length_eq.symm).symm

theorem mem_iff {given sorted : List α} (h : StablySorted key given sorted) {a : α} :
    a ∈ sorted ↔ a ∈ given := by
  have hmem : a ∈ sorted.filter (key · = key a) ↔ a ∈ given.filter (key · = key a) := by
    rw [h.filter_eq]
  simpa [List.mem_filter] using hmem

theorem symm {given sorted : List α} (h : StablySorted key given sorted)
    (hgiven : given.Pairwise fun a b => key a ≤ key b) : StablySorted key sorted given :=
  ⟨hgiven, fun k => (h.filter_eq k).symm⟩

/-- The key of the first element is the least. -/
theorem head_le {given sorted : List α} {a b : α} (h : StablySorted key given (a :: sorted))
    (hb : b ∈ given) : key a ≤ key b := by
  rcases List.mem_cons.mp (h.mem_iff.mpr hb) with rfl | hb
  · exact le_refl _
  · exact (List.pairwise_cons.mp h.pairwise).1 b hb

/-- Two lists that are stably sorted one from the other are equal. -/
theorem eq_of_pairwise {as bs : List α} (h : StablySorted key as bs)
    (has : as.Pairwise fun a b => key a ≤ key b) : as = bs := by
  induction as generalizing bs with
  | nil =>
    refine (List.eq_nil_iff_forall_not_mem.mpr fun b hb => ?_).symm
    exact List.not_mem_nil (h.mem_iff.mp hb)
  | cons a as ih =>
    cases bs with
    | nil => exact absurd (h.mem_iff.mpr List.mem_cons_self) List.not_mem_nil
    | cons b bs =>
      have hkey : key a = key b :=
        le_antisymm ((h.symm has).head_le List.mem_cons_self) (h.head_le List.mem_cons_self)
      -- with one key both begin the list of those with this key
      have hfirst := h.filter_eq (key a)
      rw [List.filter_cons_of_pos (by simp [hkey]), List.filter_cons_of_pos (by simp)] at hfirst
      obtain ⟨rfl, -⟩ := List.cons.inj hfirst
      have hrest : StablySorted key as bs := by
        refine ⟨(List.pairwise_cons.mp h.pairwise).2, fun k => ?_⟩
        have hall := h.filter_eq k
        rw [List.filter_cons, List.filter_cons] at hall
        split at hall
        · exact (List.cons.inj hall).2
        · exact hall
      rw [ih hrest (List.pairwise_cons.mp has).2]

/-- There is only one list that is stably sorted. -/
theorem eq {given as bs : List α} (has : StablySorted key given as)
    (hbs : StablySorted key given bs) : as = bs :=
  eq_of_pairwise ⟨hbs.pairwise, fun k => (hbs.filter_eq k).trans (has.filter_eq k).symm⟩
    has.pairwise

end StablySorted

end MessageHarvest
