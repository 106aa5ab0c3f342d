import Mathlib.Data.List.Infix

/-!
# Filtering what is in order

Where a property is passed on from each element to those behind it, or to those
before it, the elements that have it are the last or the first ones of the list.
-/

namespace ElasticTree

variable {α : Type} {list : List α} {test wide narrow : α → Bool} {found : α}

/-- Elements that pass a test along with all those behind them are the last ones. -/
theorem filter_isSuffix
    (h : list.Pairwise fun first second => test first = true → test second = true) :
    list.filter test <:+ list := by
  induction list with
  | nil => exact List.suffix_rfl
  | cons first rest ih =>
      rw [List.pairwise_cons] at h
      by_cases hfirst : test first = true
      · rw [List.filter_eq_self.mpr (List.forall_mem_cons.mpr
          ⟨hfirst, fun second hsecond => h.1 second hsecond hfirst⟩)]
      · rw [List.filter_cons_of_neg hfirst]
        exact (ih h.2).trans (List.suffix_cons first rest)

/-- Elements that pass a test along with all those before them are the first ones. -/
theorem filter_isPrefix
    (h : list.Pairwise fun first second => test second = true → test first = true) :
    list.filter test <+: list := by
  have hsuffix : list.reverse.filter test <:+ list.reverse :=
    filter_isSuffix (List.pairwise_reverse.mpr h)
  rwa [List.filter_reverse, List.reverse_suffix] at hsuffix

/-- The first element to pass a test is also the first to pass a narrower one. -/
theorem find?_narrow (h : list.find? wide = some found) (hfound : narrow found = true)
    (hnarrow : ∀ element ∈ list, narrow element = true → wide element = true) :
    list.find? narrow = some found := by
  obtain ⟨-, front, back, rfl, hfront⟩ := List.find?_eq_some_iff_append.mp h
  refine List.find?_eq_some_iff_append.mpr ⟨hfound, front, back, rfl, fun element helement => ?_⟩
  have hnot := hfront element helement
  cases hpasses : narrow element with
  | false => rfl
  | true => simp [hnarrow element (by simp [helement]) hpasses] at hnot

/-- The first element to pass a test stands to all others that pass as the order of
the list says. -/
theorem rel_of_find? {R : α → α → Prop} (horder : list.Pairwise R)
    (hrefl : ∀ element, R element element) (h : list.find? test = some found) {element : α}
    (helement : element ∈ list) (htest : test element = true) : R found element := by
  obtain ⟨-, front, back, rfl, hfront⟩ := List.find?_eq_some_iff_append.mp h
  rcases List.mem_append.mp helement with hmem | hmem
  · exact absurd htest (by simpa using hfront element hmem)
  · rcases List.mem_cons.mp hmem with rfl | hmem
    · exact hrefl element
    · exact List.rel_of_pairwise_cons (List.pairwise_append.mp horder).2.1 hmem

end ElasticTree
