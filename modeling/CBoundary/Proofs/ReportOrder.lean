import CBoundary.Sink
import Mathlib.Algebra.GroupWithZero.Nat
import Mathlib.Algebra.Order.BigOperators.Group.List
import Mathlib.Data.List.Perm.Basic

/-!
The order of reports. Sorting moves reports with different keys past each other, but never two with
the same key. So all it sees of a list of reports is, for each key, which reports have it and in
which order, and lists that agree in that are sorted in the same way. A sink that keeps everything
counts and sorts alike what it takes in. Main statements: `sort_eq_iff` and `Sink.alike_emitAll`.
-/
namespace CBoundary

namespace Report

namespace SortKey

instance : Ord SortKey := ⟨SortKey.compare⟩

instance : Std.TransOrd SortKey :=
  inferInstanceAs <| Std.TransCmp <|
    compareLex (compareOn path) (compareLex (compareOn line) (compareOn column))

instance : Std.LawfulEqOrd SortKey where
  eq_of_compare {a b} h := by
    obtain ⟨hpath, hrest⟩ := Ordering.then_eq_eq.1 h
    obtain ⟨hline, hcolumn⟩ := Ordering.then_eq_eq.1 hrest
    have hpath : a.path = b.path := Std.LawfulEqCmp.eq_of_compare hpath
    have hline : a.line = b.line := Std.LawfulEqCmp.eq_of_compare hline
    have hcolumn : a.column = b.column := Std.LawfulEqCmp.eq_of_compare hcolumn
    cases a
    cases b
    simp_all

end SortKey

/-- Reports are sorted by their keys, those without one first. -/
theorem sortsBefore_eq (r s : Report) :
    r.sortsBefore s = (compare r.sortKey? s.sortKey?).isLE := by
  unfold sortsBefore
  cases r.sortKey? <;> cases s.sortKey? <;> rfl

theorem sortsBefore_of_eq {r s : Report} (h : r.sortKey? = s.sortKey?) :
    r.sortsBefore s = true := by
  rw [sortsBefore_eq, h, Std.ReflOrd.compare_self]
  rfl

theorem sortsBefore_trans (r s t : Report) (hrs : r.sortsBefore s = true)
    (hst : s.sortsBefore t = true) : r.sortsBefore t = true := by
  rw [sortsBefore_eq] at *
  exact Std.TransCmp.isLE_trans hrs hst

theorem sortsBefore_total (r s : Report) : (r.sortsBefore s || s.sortsBefore r) = true := by
  rw [sortsBefore_eq, sortsBefore_eq, Std.OrientedOrd.eq_swap (a := s.sortKey?)]
  cases compare r.sortKey? s.sortKey? <;> rfl

theorem sortKey?_eq_of_sortsBefore {r s : Report} (hrs : r.sortsBefore s = true)
    (hsr : s.sortsBefore r = true) : r.sortKey? = s.sortKey? := by
  rw [sortsBefore_eq] at *
  exact Std.LawfulEqCmp.eq_of_compare (Std.OrientedCmp.isLE_antisymm hrs hsr)

/-- The reports with a key. -/
def withKey (key : Option SortKey) (reports : List Report) : List Report :=
  reports.filter fun r => r.sortKey? = key

/-- For each key, the same reports in the same order. -/
def SameByKey (xs ys : List Report) : Prop := ∀ key, withKey key xs = withKey key ys

variable {xs ys zs : List Report}

theorem mem_withKey {r : Report} {key : Option SortKey} :
    r ∈ withKey key xs ↔ r ∈ xs ∧ r.sortKey? = key := by
  simp [withKey]

theorem withKey_append (key : Option SortKey) :
    withKey key (xs ++ ys) = withKey key xs ++ withKey key ys := List.filter_append xs ys

namespace SameByKey

theorem refl (xs : List Report) : SameByKey xs xs := fun _ => rfl

theorem symm (h : SameByKey xs ys) : SameByKey ys xs := fun key => (h key).symm

theorem trans (h : SameByKey xs ys) (h' : SameByKey ys zs) : SameByKey xs zs :=
  fun key => (h key).trans (h' key)

theorem mem_iff (h : SameByKey xs ys) (r : Report) : r ∈ xs ↔ r ∈ ys := by
  have hkey : r ∈ withKey r.sortKey? xs ↔ r ∈ withKey r.sortKey? ys := by rw [h r.sortKey?]
  simpa [mem_withKey] using hkey

theorem append (h : SameByKey xs ys) {xs' ys' : List Report} (h' : SameByKey xs' ys') :
    SameByKey (xs ++ xs') (ys ++ ys') := by
  intro key
  rw [withKey_append, withKey_append, h key, h' key]

theorem filter (h : SameByKey xs ys) (p : Report → Bool) :
    SameByKey (xs.filter p) (ys.filter p) := by
  intro key
  have hkey := congrArg (List.filter p) (h key)
  simp only [withKey, List.filter_filter] at hkey ⊢
  simpa only [Bool.and_comm] using hkey

theorem perm (h : SameByKey xs ys) : xs.Perm ys := by
  have hcount (zs : List Report) (r : Report) :
      (withKey r.sortKey? zs).count r = zs.count r := List.count_filter (by simp)
  rw [List.perm_iff_count]
  intro r
  rw [← hcount, h, hcount]

/-- A report may be moved in front of reports that all have other keys. -/
theorem move {r : Report} (h : ∀ s ∈ xs, s.sortKey? ≠ r.sortKey?) :
    SameByKey (r :: xs) (xs ++ [r]) := by
  intro key
  rw [withKey_append]
  by_cases hkey : r.sortKey? = key
  · have hnone : withKey key xs = [] := by
      rw [withKey, List.filter_eq_nil_iff]
      intro s hs
      simpa [hkey] using h s hs
    rw [hnone]
    simp only [withKey] at hnone ⊢
    simp [hkey, hnone]
  · simp [withKey, hkey]

end SameByKey

theorem sort_pairwise (xs : List Report) : (sort xs).Pairwise fun r s => r.sortsBefore s = true :=
  List.pairwise_mergeSort sortsBefore_trans sortsBefore_total xs

theorem sort_sameByKey (xs : List Report) : SameByKey (sort xs) xs := by
  intro key
  -- the reports with one key are a sorted part of the list, which a stable sort keeps
  have hperm : (withKey key (sort xs)).Perm (withKey key xs) :=
    (List.mergeSort_perm xs sortsBefore).filter _
  have hsub : (withKey key xs).Sublist (sort xs) := by
    refine List.sublist_mergeSort sortsBefore_trans sortsBefore_total ?_ List.filter_sublist
    refine List.pairwise_of_forall_mem_list ?_
    intro r hr s hs
    exact sortsBefore_of_eq ((mem_withKey.1 hr).2.trans (mem_withKey.1 hs).2.symm)
  have hkeep : withKey key (withKey key xs) = withKey key xs := by
    simp [withKey]
  have hsub' : (withKey key xs).Sublist (withKey key (sort xs)) := by
    have hfilter := hsub.filter fun r => decide (r.sortKey? = key)
    rwa [← withKey, ← withKey, hkeep] at hfilter
  exact (hsub'.eq_of_length hperm.length_eq.symm).symm

theorem SameByKey.head_eq {r s : Report}
    (hxs : (r :: xs).Pairwise fun r s => r.sortsBefore s = true)
    (hys : (s :: ys).Pairwise fun r s => r.sortsBefore s = true)
    (h : SameByKey (r :: xs) (s :: ys)) : r = s := by
  have hfirst {r s : Report} {xs : List Report}
      (hxs : (r :: xs).Pairwise fun r s => r.sortsBefore s = true) (hs : s ∈ r :: xs) :
      r.sortsBefore s = true := by
    rcases List.mem_cons.1 hs with rfl | hs
    · exact sortsBefore_of_eq rfl
    · exact List.rel_of_pairwise_cons hxs hs
  -- each head is in the other list too, so neither comes before the other
  have hrs := hfirst hxs ((h.mem_iff s).2 List.mem_cons_self)
  have hsr := hfirst hys ((h.mem_iff r).1 List.mem_cons_self)
  have hkeys := sortKey?_eq_of_sortsBefore hrs hsr
  have hheads := congrArg List.head? (h s.sortKey?)
  simpa [withKey, hkeys] using hheads

theorem SameByKey.tail {r : Report} (h : SameByKey (r :: xs) (r :: ys)) : SameByKey xs ys := by
  intro key
  have hcons := h key
  by_cases hkey : r.sortKey? = key <;> simpa [withKey, hkey] using hcons

theorem SameByKey.eq_of_pairwise (hxs : xs.Pairwise fun r s => r.sortsBefore s = true)
    (hys : ys.Pairwise fun r s => r.sortsBefore s = true) (h : SameByKey xs ys) : xs = ys := by
  induction xs generalizing ys with
  | nil => exact h.perm.nil_eq
  | cons r xs ih =>
    cases ys with
    | nil => exact absurd h.perm.symm.nil_eq (List.cons_ne_nil r xs).symm
    | cons s ys =>
      obtain rfl := head_eq hxs hys h
      rw [ih hxs.of_cons hys.of_cons h.tail]

/-- Two lists are sorted in the same way exactly if they have the same reports by key. -/
theorem sort_eq_iff : sort xs = sort ys ↔ SameByKey xs ys := by
  constructor
  · intro h
    exact (sort_sameByKey xs).symm.trans (h ▸ sort_sameByKey ys)
  · intro h
    refine SameByKey.eq_of_pairwise (sort_pairwise xs) (sort_pairwise ys) ?_
    exact ((sort_sameByKey xs).trans h).trans (sort_sameByKey ys).symm

end Report

namespace Sink

/-- A sink without a limit keeps every report that it accepts, and counts its records. -/
theorem emitAll_eq (s : Sink) (hlimit : s.config.limit = 0) (reports : List Report) :
    s.emitAll reports =
      let accepted := reports.filter s.config.accepts
      { s with
        reports := s.reports ++ accepted
        errors := s.errors + (accepted.map (count .error)).sum
        warnings := s.warnings + (accepted.map (count .warning)).sum } := by
  induction reports generalizing s with
  | nil => simp [emitAll]
  | cons r reports ih =>
    have hstep : s.emitAll (r :: reports) = (s.emit r).emitAll reports := rfl
    have hconfig : (s.emit r).config = s.config := config_emit s r
    rw [hstep, ih (s.emit r) (by rw [hconfig, hlimit]), hconfig]
    by_cases haccepts : s.config.accepts r = true
    · simp [emit, hasRoom, hlimit, haccepts, Nat.add_assoc]
    · simp [emit, haccepts]

/-- Two sinks show the same: they were set up alike, counted the same, and give out the same
records in order. -/
structure Alike (s t : Sink) : Prop where
  config : s.config = t.config
  errors : s.errors = t.errors
  warnings : s.warnings = t.warnings
  sorted : s.sorted = t.sorted

/-- Without a limit, it does not matter to a sink in which order it takes in reports with different
keys. -/
theorem alike_emitAll (s : Sink) (hlimit : s.config.limit = 0) {xs ys : List Report}
    (h : Report.SameByKey xs ys) : (s.emitAll xs).Alike (s.emitAll ys) := by
  have haccepted := h.filter s.config.accepts
  have hsum (severity : Severity) := (haccepted.perm.map (count severity)).sum_eq
  rw [emitAll_eq s hlimit, emitAll_eq s hlimit]
  refine ⟨rfl, ?_, ?_, ?_⟩
  · simp only [hsum]
  · simp only [hsum]
  · have hsame := (Report.SameByKey.refl s.reports).append haccepted
    exact congrArg List.flatten (Report.sort_eq_iff.2 hsame)

end Sink

end CBoundary
