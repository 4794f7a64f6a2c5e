import CBoundary.Codebase
import Mathlib.Data.List.Basic

/-!
Where typedefs lead. One hop after the other leads from a name along its chain, which ends at a
name that is no typedef, or comes back to a name that was there before. The names on the chain are
listed up to that point, so every name that can be reached is listed, each as early as it is
reached. A pursuit follows the chain with the names it has seen and the candidates it has met; what
it has not seen yet is the table that the chain is read off. Main statement:
`untypedef_follows_chain`.
-/
namespace CBoundary.Codebase

/-- The name that so many hops lead to. -/
def hops (typedefs : Std.ExtTreeMap String String) (name : String) : Nat → Option String
  | 0 => some name
  | k + 1 => (hops typedefs name k).bind fun reached => typedefs[reached]?

variable {typedefs : Std.ExtTreeMap String String} {name target : String}

theorem hops_add (j k : Nat) :
    hops typedefs name (j + k) =
      (hops typedefs name j).bind fun reached => hops typedefs reached k := by
  induction k with
  | zero => cases hops typedefs name j <;> simp [hops]
  | succ k ih =>
    show (hops typedefs name (j + k)).bind _ = _
    rw [ih, Option.bind_assoc]
    rfl

theorem hops_succ_of_target (h : typedefs[name]? = some target) (k : Nat) :
    hops typedefs name (k + 1) = hops typedefs target k := by
  have hfirst : hops typedefs name 1 = some target := h
  rw [Nat.add_comm, hops_add, hfirst, Option.bind_some]

theorem hops_add_of_hops {reached : String} {j : Nat} (h : hops typedefs name j = some reached)
    (k : Nat) : hops typedefs name (j + k) = hops typedefs reached k := by
  rw [hops_add, h, Option.bind_some]

/-- The names of a table but for those that are gone. -/
def Without (typedefs left : Std.ExtTreeMap String String) (gone : List String) : Prop :=
  ∀ key : String, left[key]? = if key ∈ gone then none else typedefs[key]?

theorem without_nil (typedefs : Std.ExtTreeMap String String) : Without typedefs typedefs [] := by
  intro key
  simp

section Without

variable {left : Std.ExtTreeMap String String} {gone : List String}

theorem Without.erase (h : Without typedefs left gone) (name : String) :
    Without typedefs (left.erase name) (name :: gone) := by
  intro key
  rw [Std.ExtTreeMap.getElem?_erase, h key]
  by_cases hkey : name = key
  · simp [hkey]
  · have hother : ¬ key = name := fun heq => hkey heq.symm
    simp [hkey, hother]

theorem Without.target_eq (h : Without typedefs left gone) (htarget : left[name]? = some target) :
    name ∉ gone ∧ typedefs[name]? = some target := by
  rw [h name] at htarget
  split at htarget
  · cases htarget
  · exact ⟨‹_›, htarget⟩

theorem typedefChain_of_none (h : left[name]? = none) : typedefChain left name = [] := by
  rw [typedefChain]
  split
  · rfl
  · simp_all

theorem typedefChain_of_some (h : left[name]? = some target) :
    typedefChain left name = target :: typedefChain (left.erase name) target := by
  rw [typedefChain]
  split
  · simp_all
  · simp_all

/-- The chain follows each typedef at most once. -/
theorem length_typedefChain_le (left : Std.ExtTreeMap String String) (name : String) :
    (typedefChain left name).length ≤ left.size := by
  fun_induction typedefChain left name with
  | case1 => exact Nat.zero_le _
  | case2 left name target h ih =>
    have hmem : name ∈ left := Std.ExtTreeMap.mem_iff_isSome_getElem?.2 (by rw [h]; rfl)
    have hpos : 0 < left.size := by
      apply Nat.pos_of_ne_zero
      intro hzero
      exact Std.ExtTreeMap.ne_empty_of_mem hmem (Std.ExtTreeMap.eq_empty_iff_size_eq_zero.2 hzero)
    rw [Std.ExtTreeMap.size_erase, if_pos (Std.ExtTreeMap.mem_iff_contains.1 hmem)] at ih
    rw [List.length_cons]
    omega

theorem getElem?_typedefChain (h : Without typedefs left gone) {i : Nat} {t : String}
    (ht : (typedefChain left name)[i]? = some t) : hops typedefs name (i + 1) = some t := by
  induction i generalizing left gone name with
  | zero =>
    cases htarget : left[name]? with
    | none => simp [typedefChain_of_none htarget] at ht
    | some target =>
      rw [typedefChain_of_some htarget, List.getElem?_cons_zero] at ht
      rw [hops_succ_of_target (h.target_eq htarget).2]
      exact ht
  | succ i ih =>
    cases htarget : left[name]? with
    | none => simp [typedefChain_of_none htarget] at ht
    | some target =>
      rw [typedefChain_of_some htarget, List.getElem?_cons_succ] at ht
      rw [hops_succ_of_target (h.target_eq htarget).2]
      exact ih (h.erase name) ht

/-- The last name of the chain, or the name itself if there is none. -/
def lastOf (left : Std.ExtTreeMap String String) (name : String) : String :=
  (typedefChain left name).getLast?.getD name

theorem lastOf_of_none (h : left[name]? = none) : lastOf left name = name := by
  rw [lastOf, typedefChain_of_none h]
  rfl

theorem lastOf_of_some (h : left[name]? = some target) :
    lastOf left name = lastOf (left.erase name) target := by
  rw [lastOf, typedefChain_of_some h, List.getLast?_cons, Option.getD_some, lastOf]

/-- The listing ends at a name that is no typedef, or is gone, or was there before. -/
theorem lastOf_stops (h : Without typedefs left gone) (name : String) :
    typedefs[lastOf left name]? = none ∨ lastOf left name ∈ gone ∨
      ∃ j < (typedefChain left name).length, hops typedefs name j = some (lastOf left name) := by
  fun_induction typedefChain left name generalizing gone with
  | case1 left name hnone =>
    have hlast : lastOf left name = name := lastOf_of_none hnone
    rw [hlast]
    by_cases hgone : name ∈ gone
    · exact Or.inr (Or.inl hgone)
    · have hkey := h name
      rw [hnone, if_neg hgone] at hkey
      exact Or.inl hkey.symm
  | case2 left name target htarget ih =>
    rw [lastOf_of_some htarget]
    rcases ih (h.erase name) with hend | hgone | ⟨j, hj, hback⟩
    · exact Or.inl hend
    · rcases List.mem_cons.1 hgone with heq | hgone
      · exact Or.inr (Or.inr ⟨0, Nat.succ_pos _, congrArg some heq.symm⟩)
      · exact Or.inr (Or.inl hgone)
    · refine Or.inr (Or.inr ⟨j + 1, ?_, ?_⟩)
      · rw [List.length_cons]
        omega
      · rw [hops_succ_of_target (h.target_eq htarget).2]
        exact hback

theorem hops_length (h : Without typedefs left gone) :
    hops typedefs name (typedefChain left name).length = some (lastOf left name) := by
  cases hlast : (typedefChain left name).getLast? with
  | none =>
    have hnil : typedefChain left name = [] := List.getLast?_eq_none_iff.1 hlast
    rw [lastOf, hnil]
    rfl
  | some last =>
    have hne : typedefChain left name ≠ [] := by
      intro hnil
      simp [hnil] at hlast
    have hpos : 0 < (typedefChain left name).length := List.length_pos_iff.2 hne
    have hget := getElem?_typedefChain h (List.getLast?_eq_getElem? ▸ hlast)
    rw [lastOf, hlast]
    have hsucc : (typedefChain left name).length - 1 + 1 = (typedefChain left name).length := by
      omega
    rw [← hsucc]
    exact hget

/-- Where a name that is gone is listed, the listing ends with it. -/
theorem lastOf_of_mem {g : String} (hgone : left[g]? = none) (hmem : g ∈ typedefChain left name) :
    lastOf left name = g := by
  fun_induction typedefChain left name with
  | case1 => cases hmem
  | case2 left name target htarget ih =>
    have hgone' : (left.erase name)[g]? = none := by
      rw [Std.ExtTreeMap.getElem?_erase, hgone, ite_self]
    rw [lastOf_of_some htarget]
    rcases List.mem_cons.1 hmem with rfl | hmem
    · exact lastOf_of_none hgone'
    · exact ih hgone' hmem

end Without

/-- Every name that is reached by a hop is listed, no later than it is reached. -/
theorem exists_listed {k : Nat} {t : String} (h : hops typedefs name (k + 1) = some t) :
    ∃ i ≤ k, (typedefChain typedefs name)[i]? = some t := by
  induction k using Nat.strongRecOn generalizing t with
  | ind k ih =>
    have hall := without_nil typedefs
    set n := (typedefChain typedefs name).length
    by_cases hk : k < n
    · obtain ⟨u, hu⟩ : ∃ u, (typedefChain typedefs name)[k]? = some u :=
        ⟨_, List.getElem?_eq_getElem hk⟩
      have hsame : some u = some t := (getElem?_typedefChain hall hu).symm.trans h
      exact ⟨k, Nat.le_refl k, hu.trans hsame⟩
    -- past its end, the chain is run through again from where it came back
    · have hn : hops typedefs name n = some (lastOf typedefs name) := hops_length hall
      have hbeyond : hops typedefs (lastOf typedefs name) (k + 1 - n) = some t := by
        have hsplit : n + (k + 1 - n) = k + 1 := by omega
        rw [← hops_add_of_hops hn, hsplit]
        exact h
      rcases lastOf_stops hall name with hend | hgone | ⟨j, hj, hback⟩
      · have hsucc : k + 1 - n = k - n + 1 := by omega
        have hstuck : hops typedefs (lastOf typedefs name) 1 = none := hend
        rw [hsucc, Nat.add_comm, hops_add, hstuck] at hbeyond
        cases hbeyond
      · cases hgone
      · have hearlier : hops typedefs name (j + (k - n) + 1) = some t := by
          have hsplit : j + (k - n) + 1 = j + (k + 1 - n) := by omega
          rw [hsplit, hops_add_of_hops hback]
          exact hbeyond
        obtain ⟨i, hi, hlisted⟩ := ih (j + (k - n)) (by omega) hearlier
        exact ⟨i, by omega, hlisted⟩

theorem mem_typedefChain_iff {t : String} :
    t ∈ typedefChain typedefs name ↔ ∃ k, hops typedefs name (k + 1) = some t := by
  constructor
  · intro hmem
    obtain ⟨i, hi⟩ := List.mem_iff_getElem?.1 hmem
    exact ⟨i, getElem?_typedefChain (without_nil typedefs) hi⟩
  · rintro ⟨k, hk⟩
    obtain ⟨i, -, hi⟩ := exists_listed hk
    exact List.mem_of_getElem? hi

/-- A chain that comes back to its name ends there. -/
theorem lastOf_of_self_mem (h : name ∈ typedefChain typedefs name) :
    lastOf typedefs name = name := by
  cases htarget : typedefs[name]? with
  | none => exact lastOf_of_none htarget
  | some target =>
    have hgone : (typedefs.erase name)[name]? = none := by simp
    rw [lastOf_of_some htarget]
    rw [typedefChain_of_some htarget] at h
    rcases List.mem_cons.1 h with heq | hmem
    · subst heq
      exact lastOf_of_none hgone
    · exact lastOf_of_mem hgone hmem

/-- The end of a chain is no typedef, or comes up again behind itself. -/
theorem lastOf_ends_or_returns (typedefs : Std.ExtTreeMap String String) (name : String) :
    typedefs[lastOf typedefs name]? = none ∨
      lastOf typedefs name ∈ typedefChain typedefs (lastOf typedefs name) := by
  have hall := without_nil typedefs
  rcases lastOf_stops hall name with hend | hgone | ⟨j, hj, hback⟩
  · exact Or.inl hend
  · cases hgone
  · right
    apply mem_typedefChain_iff.2
    refine ⟨(typedefChain typedefs name).length - j - 1, ?_⟩
    rw [← hops_add_of_hops hback]
    have hsplit : j + ((typedefChain typedefs name).length - j - 1 + 1) =
        (typedefChain typedefs name).length := by omega
    rw [hsplit]
    exact hops_length hall

theorem lastOf_lastOf (typedefs : Std.ExtTreeMap String String) (name : String) :
    lastOf typedefs (lastOf typedefs name) = lastOf typedefs name := by
  rcases lastOf_ends_or_returns typedefs name with hend | hback
  · exact lastOf_of_none hend
  · exact lastOf_of_self_mem hback

/-- The first of the names that are reached by hops to have a property. -/
def FirstReached (typedefs : Std.ExtTreeMap String String) (P : String → Prop)
    (name t : String) : Prop :=
  ∃ k, hops typedefs name (k + 1) = some t ∧ P t ∧
    ∀ i < k, ∀ u, hops typedefs name (i + 1) = some u → ¬ P u

/-- No name that is reached by a hop has the property. -/
def NoneReached (typedefs : Std.ExtTreeMap String String) (P : String → Prop)
    (name : String) : Prop :=
  ∀ k u, hops typedefs name (k + 1) = some u → ¬ P u

theorem FirstReached.unique {P : String → Prop} {t u : String}
    (ht : FirstReached typedefs P name t) (hu : FirstReached typedefs P name u) : t = u := by
  obtain ⟨j, hj, hPt, hbefore⟩ := ht
  obtain ⟨k, hk, hPu, hbefore'⟩ := hu
  have hjk : ¬ j < k := fun hlt => hbefore' j hlt t hj hPt
  have hkj : ¬ k < j := fun hlt => hbefore k hlt u hk hPu
  obtain rfl : j = k := by omega
  exact Option.some.inj (hj.symm.trans hk)

theorem NoneReached.of_hops {P : String → Prop} {reached : String} {j : Nat}
    (h : NoneReached typedefs P name) (hreached : hops typedefs name j = some reached) :
    NoneReached typedefs P reached := by
  intro k u hu
  apply h (j + k) u
  rw [Nat.add_assoc, hops_add_of_hops hreached]
  exact hu

section Find

variable {P : String → Prop} {p : String → Bool} (hp : ∀ s, p s = true ↔ P s)

include hp

theorem find?_typedefChain_eq_some {t : String} :
    (typedefChain typedefs name).find? p = some t ↔ FirstReached typedefs P name t := by
  have hall := without_nil typedefs
  rw [List.find?_eq_some_iff_getElem]
  constructor
  · rintro ⟨hpt, k, hk, ht, hbefore⟩
    refine ⟨k, getElem?_typedefChain hall (ht ▸ List.getElem?_eq_getElem hk), (hp t).1 hpt, ?_⟩
    intro i hi u hu hPu
    obtain ⟨j, hj, hlisted⟩ := exists_listed hu
    have hlt : j < k := by omega
    have hbound : j < (typedefChain typedefs name).length := by omega
    rw [List.getElem?_eq_getElem hbound, Option.some.injEq] at hlisted
    have hnot := hbefore j hlt
    rw [hlisted, (hp u).2 hPu] at hnot
    cases hnot
  · rintro ⟨k, hk, hPt, hbefore⟩
    obtain ⟨i, hi, hlisted⟩ := exists_listed hk
    have hfirst : i = k := by
      by_contra hne
      have hlt : i < k := by omega
      exact hbefore i hlt t (getElem?_typedefChain hall hlisted) hPt
    subst hfirst
    obtain ⟨hbound, ht⟩ := List.getElem?_eq_some_iff.1 hlisted
    refine ⟨(hp t).2 hPt, i, hbound, ht, ?_⟩
    intro j hj
    have hjbound : j < (typedefChain typedefs name).length := by omega
    have hnot := hbefore j hj _ (getElem?_typedefChain hall (List.getElem?_eq_getElem hjbound))
    rw [← hp] at hnot
    simpa using hnot

theorem find?_typedefChain_eq_none :
    (typedefChain typedefs name).find? p = none ↔ NoneReached typedefs P name := by
  rw [List.find?_eq_none]
  constructor
  · intro hnone k u hu hPu
    exact hnone u (mem_typedefChain_iff.2 ⟨k, hu⟩) ((hp u).2 hPu)
  · intro hnone u hmem hpu
    obtain ⟨k, hu⟩ := mem_typedefChain_iff.1 hmem
    exact hnone k u hu ((hp u).1 hpu)

end Find

/-- No name comes up twice on the way from a name. -/
def NeverReturns (typedefs : Std.ExtTreeMap String String) (name : String) : Prop :=
  ∀ i j, i < j → ∀ u, hops typedefs name i = some u → hops typedefs name j ≠ some u

theorem NeverReturns.lastOf_not_mem (h : NeverReturns typedefs name) :
    lastOf typedefs name ∉ typedefs := by
  have hall := without_nil typedefs
  rcases lastOf_stops hall name with hend | hgone | ⟨j, hj, hback⟩
  · rw [Std.ExtTreeMap.mem_iff_isSome_getElem?, hend]
    simp
  · cases hgone
  · exact absurd (hops_length hall) (h j _ hj _ hback)

/-- What is at hand while typedefs are followed: the name that was reached, the names that were
followed, and the first record and the first name with fields among those that were reached. -/
structure Pursuit where
  current : String
  seen : List String
  record : Option String
  withFields : Option String

namespace Pursuit

/-- Nothing was followed yet. -/
def start (name : String) : Pursuit := ⟨name, [], none, none⟩

/-- Goes on to the target of the name at hand. -/
def goTo (c : Codebase) (p : Pursuit) (target : String) : Pursuit where
  current := target
  seen := p.current :: p.seen
  record := p.record.or (if c.types.contains target then some target else none)
  withFields := p.withFields.or (if c.fields.contains target then some target else none)

/-- Follows one typedef, unless the name at hand is none or was followed before. -/
def step? (c : Codebase) (p : Pursuit) : Option Pursuit :=
  match c.typedefs[p.current]? with
  | none => none
  | some target => if p.current ∈ p.seen then none else some (p.goTo c target)

/-- A record before a name with fields, and that before the name that was reached. -/
def answer (p : Pursuit) : String := (p.record.or p.withFields).getD p.current

/-- After so many steps no further step is made. -/
inductive Ends (c : Codebase) : Pursuit → Nat → Pursuit → Prop
  | here {p : Pursuit} (h : p.step? c = none) : Ends c p 0 p
  | hop {p q r : Pursuit} {n : Nat} (h : p.step? c = some q) (hrest : Ends c q n r) :
      Ends c p (n + 1) r

variable {c : Codebase} {p : Pursuit}

theorem step?_eq_none {left : Std.ExtTreeMap String String} (h : Without c.typedefs left p.seen)
    (hnone : left[p.current]? = none) : p.step? c = none := by
  rw [h p.current] at hnone
  unfold step?
  split
  · rfl
  · rename_i htarget
    rw [htarget] at hnone
    by_cases hseen : p.current ∈ p.seen
    · rw [if_pos hseen]
    · rw [if_neg hseen] at hnone
      cases hnone

/-- A pursuit goes through the listed chain of what it has not followed yet. -/
theorem ends_lastOf {left : Std.ExtTreeMap String String} (h : Without c.typedefs left p.seen) :
    ∃ q, Ends c p (typedefChain left p.current).length q ∧
      q.current = lastOf left p.current ∧
      q.record = p.record.or ((typedefChain left p.current).find? c.types.contains) ∧
      q.withFields = p.withFields.or ((typedefChain left p.current).find? c.fields.contains) := by
  generalize hname : p.current = name
  fun_induction typedefChain left name generalizing p with
  | case1 left name hnone =>
    subst hname
    refine ⟨p, .here (step?_eq_none h hnone), ?_, ?_, ?_⟩
    · exact (lastOf_of_none hnone).symm
    · simp
    · simp
  | case2 left name target htarget ih =>
    subst hname
    obtain ⟨hseen, hkey⟩ := h.target_eq htarget
    have hstep : p.step? c = some (p.goTo c target) := by
      unfold step?
      rw [hkey]
      exact if_neg hseen
    obtain ⟨q, hends, hcurrent, hrecord, hfields⟩ :=
      ih (p := p.goTo c target) (h.erase p.current) rfl
    refine ⟨q, .hop hstep hends, ?_, ?_, ?_⟩
    · rw [hcurrent, lastOf_of_some htarget]
    · rw [hrecord, goTo, List.find?_cons, Option.or_assoc]
      cases c.types.contains target <;> simp
    · rw [hfields, goTo, List.find?_cons, Option.or_assoc]
      cases c.fields.contains target <;> simp

theorem ends_start (c : Codebase) (name : String) :
    ∃ q, Ends c (start name) (typedefChain c.typedefs name).length q ∧
      q.answer = c.untypedef name := by
  obtain ⟨q, hends, hcurrent, hrecord, hfields⟩ :=
    ends_lastOf (p := start name) (without_nil c.typedefs)
  refine ⟨q, hends, ?_⟩
  rw [answer, hcurrent, hrecord, hfields]
  rfl

end Pursuit

/-- The answer is the first record that is reached, else the first name with fields, else where the
listing ends. -/
theorem untypedef_cases (c : Codebase) (name : String) :
    FirstReached c.typedefs (· ∈ c.types) name (c.untypedef name) ∨
      (NoneReached c.typedefs (· ∈ c.types) name ∧
        (FirstReached c.typedefs (· ∈ c.fields) name (c.untypedef name) ∨
          (NoneReached c.typedefs (· ∈ c.fields) name ∧
            c.untypedef name = lastOf c.typedefs name))) := by
  have htypes (s : String) : c.types.contains s = true ↔ s ∈ c.types :=
    Std.ExtTreeMap.mem_iff_contains.symm
  have howners (s : String) : c.fields.contains s = true ↔ s ∈ c.fields :=
    Std.ExtTreeMap.mem_iff_contains.symm
  cases hrecord : (typedefChain c.typedefs name).find? c.types.contains with
  | some t =>
    have hanswer : c.untypedef name = t := by
      simp only [untypedef, hrecord, Option.some_or, Option.getD_some]
    left
    rw [hanswer]
    exact (find?_typedefChain_eq_some htypes).1 hrecord
  | none =>
    refine Or.inr ⟨(find?_typedefChain_eq_none htypes).1 hrecord, ?_⟩
    cases hfields : (typedefChain c.typedefs name).find? c.fields.contains with
    | some t =>
      have hanswer : c.untypedef name = t := by
        simp only [untypedef, hrecord, hfields, Option.none_or, Option.getD_some]
      left
      rw [hanswer]
      exact (find?_typedefChain_eq_some howners).1 hfields
    | none =>
      refine Or.inr ⟨(find?_typedefChain_eq_none howners).1 hfields, ?_⟩
      simp only [untypedef, hrecord, hfields, Option.none_or, Option.getD_none, lastOf]

theorem exists_hops_untypedef (c : Codebase) (name : String) :
    ∃ k, hops c.typedefs name k = some (c.untypedef name) := by
  rcases untypedef_cases c name with ⟨k, hk, -⟩ | ⟨-, ⟨k, hk, -⟩ | ⟨-, hlast⟩⟩
  · exact ⟨k + 1, hk⟩
  · exact ⟨k + 1, hk⟩
  · exact ⟨_, hlast ▸ hops_length (without_nil c.typedefs)⟩

/-- Whatever the typedefs of a table, cycles included, following them from a name ends after at most
as many hops as there are typedefs. The result is the name itself or is reached from it: it is the
first record that is reached by a hop, or else the first name with fields; where there is neither
and no name comes up twice, it is the end of the chain, which is no typedef. -/
theorem untypedef_follows_chain (c : Codebase) (name : String) :
    (∃ n q, Pursuit.Ends c (.start name) n q ∧ n ≤ c.typedefs.size ∧
        q.answer = c.untypedef name) ∧
      (∃ k, hops c.typedefs name k = some (c.untypedef name)) ∧
      (FirstReached c.typedefs (· ∈ c.types) name (c.untypedef name) ∨
        (NoneReached c.typedefs (· ∈ c.types) name ∧
          (FirstReached c.typedefs (· ∈ c.fields) name (c.untypedef name) ∨
            (NoneReached c.typedefs (· ∈ c.fields) name ∧
              (NeverReturns c.typedefs name → c.untypedef name ∉ c.typedefs))))) := by
  refine ⟨?_, exists_hops_untypedef c name, ?_⟩
  · obtain ⟨q, hends, hanswer⟩ := Pursuit.ends_start c name
    exact ⟨_, q, hends, length_typedefChain_le c.typedefs name, hanswer⟩
  · rcases untypedef_cases c name with hfirst | ⟨hnone, hfirst | ⟨hneither, hlast⟩⟩
    · exact Or.inl hfirst
    · exact Or.inr ⟨hnone, Or.inl hfirst⟩
    · refine Or.inr ⟨hnone, Or.inr ⟨hneither, ?_⟩⟩
      intro hacyclic
      rw [hlast]
      exact hacyclic.lastOf_not_mem

end CBoundary.Codebase
