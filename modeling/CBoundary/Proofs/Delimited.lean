import CBoundary.Proofs.ByteExtent

/-!
Where lines, literals and comments end, said without counting: a line or a literal goes on for a
run in which the unit that ends it stands only behind an escape, and a comment is over at the first
pair that closes it. Main statements: `quoted_eq_some_iff`, `pair_eq_some_iff` and `line_eq_iff`.
-/
namespace CBoundary.Extent

open ByteExtent

variable {α : Type} {stop escape first second u : α} {run behind rest units : List α} {seen n : Nat}

/-- A run in which `stop` stands only behind an escape. An escape takes the unit after it along,
whatever it is. -/
inductive Passes (stop escape : α) : List α → Prop
  | nil : Passes stop escape []
  | plain {u : α} {rest : List α} (hstop : u ≠ stop) (hescape : u ≠ escape)
      (hrest : Passes stop escape rest) : Passes stop escape (u :: rest)
  | escaped (u : α) {rest : List α} (hrest : Passes stop escape rest) :
      Passes stop escape (escape :: u :: rest)

/-- Nothing in the units is a `stop` that is not escaped. -/
def NeverStops (stop escape : α) (units : List α) : Prop :=
  ∀ run, Passes stop escape run → ¬ run ++ [stop] <+: units

/-- The first line of a text, and what is behind it: the line is over with the first newline that
is not escaped, or with the text. -/
def IsLine (newline escape : α) (taken behind : List α) : Prop :=
  (∃ run, taken = run ++ [newline] ∧ Passes newline escape run) ∨
    (behind = [] ∧ NeverStops newline escape taken)

theorem NeverStops.plain (hstop : u ≠ stop) (hescape : u ≠ escape)
    (h : NeverStops stop escape rest) : NeverStops stop escape (u :: rest) := by
  intro run hrun hpre
  cases hrun with
  | nil => exact hstop (List.cons_prefix_cons.1 hpre).1.symm
  | plain hstop' hescape' hrest => exact h _ hrest (List.cons_prefix_cons.1 hpre).2
  | escaped v hrest => exact hescape (List.cons_prefix_cons.1 hpre).1.symm

theorem NeverStops.escaped (hne : escape ≠ stop) (h : NeverStops stop escape rest) :
    NeverStops stop escape (escape :: u :: rest) := by
  intro run hrun hpre
  cases hrun with
  | nil => exact hne (List.cons_prefix_cons.1 hpre).1.symm
  | plain hstop hescape hrest => exact hescape (List.cons_prefix_cons.1 hpre).1
  | escaped v hrest =>
    exact h _ hrest (List.cons_prefix_cons.1 (List.cons_prefix_cons.1 hpre).2).2

theorem neverStops_nil : NeverStops stop escape ([] : List α) := by
  intro run hrun hpre
  exact absurd (List.prefix_nil.1 hpre) (by simp)

theorem neverStops_singleton (hstop : u ≠ stop) : NeverStops stop escape [u] := by
  intro run hrun hpre
  have hlength := hpre.length_le
  cases run with
  | nil => exact hstop (List.cons_prefix_cons.1 hpre).1.symm
  | cons => simp at hlength

theorem IsLine.plain (hstop : u ≠ stop) (hescape : u ≠ escape) (h : IsLine stop escape run behind) :
    IsLine stop escape (u :: run) behind := by
  rcases h with ⟨body, rfl, hbody⟩ | ⟨rfl, hnever⟩
  · exact .inl ⟨u :: body, rfl, hbody.plain hstop hescape⟩
  · exact .inr ⟨rfl, hnever.plain hstop hescape⟩

theorem IsLine.escaped (hne : escape ≠ stop) (h : IsLine stop escape run behind) :
    IsLine stop escape (escape :: u :: run) behind := by
  rcases h with ⟨body, rfl, hbody⟩ | ⟨rfl, hnever⟩
  · exact .inl ⟨escape :: u :: body, rfl, hbody.escaped u⟩
  · exact .inr ⟨rfl, hnever.escaped hne⟩

variable [DecidableEq α]

theorem exists_isLine_go (hne : escape ≠ stop) (seen : Nat) (units : List α) :
    ∃ taken behind, units = taken ++ behind ∧ IsLine stop escape taken behind ∧
      line.go stop escape seen units = seen + taken.length := by
  fun_induction line.go stop escape seen units with
  | case1 => exact ⟨[], [], rfl, .inr ⟨rfl, neverStops_nil⟩, rfl⟩
  | case2 seen u =>
    refine ⟨[u], [], rfl, ?_, rfl⟩
    by_cases hstop : u = stop
    · exact .inl ⟨[], by rw [hstop, List.nil_append], .nil⟩
    · exact .inr ⟨rfl, neverStops_singleton hstop⟩
  | case3 seen next rest => exact ⟨[stop], next :: rest, rfl, .inl ⟨[], rfl, .nil⟩, rfl⟩
  | case4 seen next rest hstop ih =>
    obtain ⟨taken, behind, rfl, hline, hcount⟩ := ih
    refine ⟨escape :: next :: taken, behind, rfl, hline.escaped hne, ?_⟩
    rw [hcount, List.length_cons, List.length_cons]
    omega
  | case5 seen u next rest hstop hescape ih =>
    obtain ⟨taken, behind, hsplit, hline, hcount⟩ := ih
    refine ⟨u :: taken, behind, by rw [hsplit, List.cons_append], hline.plain hstop hescape, ?_⟩
    rw [hcount, List.length_cons]
    omega

/-- Every text starts with a line, as long as the count says. -/
theorem exists_isLine (hne : escape ≠ stop) (units : List α) :
    ∃ taken behind, units = taken ++ behind ∧ IsLine stop escape taken behind ∧
      line stop escape units = taken.length := by
  obtain ⟨taken, behind, hsplit, hline, hcount⟩ := exists_isLine_go hne 0 units
  exact ⟨taken, behind, hsplit, hline, hcount.trans (Nat.zero_add _)⟩

theorem line_go_passes (hne : escape ≠ stop) (h : Passes stop escape run) :
    line.go stop escape seen (run ++ stop :: behind) = seen + (run.length + 1) := by
  induction h generalizing seen with
  | nil => exact line_go_newline
  | plain hstop hescape hrest ih =>
    rw [List.cons_append, line_go_ordinary hstop hescape, ih, List.length_cons]
    omega
  | escaped u hrest ih =>
    rw [List.cons_append, List.cons_append, line_go_escape hne, ih, List.length_cons,
      List.length_cons]
    omega

theorem NeverStops.line_eq (hne : escape ≠ stop) (h : NeverStops stop escape units) :
    line stop escape units = units.length := by
  obtain ⟨taken, behind, rfl, ⟨run, rfl, hrun⟩ | ⟨rfl, -⟩, hcount⟩ := exists_isLine hne units
  · exact absurd (List.prefix_append _ _) (h run hrun)
  · rw [hcount, List.append_nil]

theorem IsLine.line_eq (hne : escape ≠ stop) (h : IsLine stop escape run behind) :
    line stop escape (run ++ behind) = run.length := by
  rcases h with ⟨body, rfl, hbody⟩ | ⟨rfl, hnever⟩
  · rw [List.append_assoc, List.singleton_append, line, line_go_passes hne hbody, Nat.zero_add,
      List.length_append, List.length_singleton]
  · rw [List.append_nil, hnever.line_eq hne]

theorem exists_passes_of_quoted_go (h : quoted.go stop escape seen units = some n) :
    ∃ run behind, units = run ++ stop :: behind ∧ Passes stop escape run ∧
      n = seen + (run.length + 1) := by
  fun_induction quoted.go stop escape seen units with
  | case1 => simp at h
  | case2 seen => exact ⟨[], [], rfl, .nil, (Option.some.inj h).symm⟩
  | case3 seen u hstop => simp at h
  | case4 seen next rest => exact ⟨[], next :: rest, rfl, .nil, (Option.some.inj h).symm⟩
  | case5 seen next rest hstop ih =>
    obtain ⟨run, behind, rfl, hrun, rfl⟩ := ih h
    refine ⟨escape :: next :: run, behind, rfl, hrun.escaped next, ?_⟩
    rw [List.length_cons, List.length_cons]
    omega
  | case6 seen u next rest hstop hescape ih =>
    obtain ⟨run, behind, hsplit, hrun, rfl⟩ := ih h
    refine ⟨u :: run, behind, by rw [hsplit, List.cons_append], hrun.plain hstop hescape, ?_⟩
    rw [List.length_cons]
    omega

theorem quoted_go_passes (hne : escape ≠ stop) (h : Passes stop escape run) :
    quoted.go stop escape seen (run ++ stop :: behind) = some (seen + (run.length + 1)) := by
  induction h generalizing seen with
  | nil => exact quoted_go_quote
  | plain hstop hescape hrest ih =>
    rw [List.cons_append, quoted_go_ordinary hstop hescape, ih, List.length_cons]
    congr 1
    omega
  | escaped u hrest ih =>
    rw [List.cons_append, List.cons_append, quoted_go_escape hne, ih, List.length_cons,
      List.length_cons]
    congr 1
    omega

/-- A literal is closed by the first quote that is not escaped. -/
theorem quoted_eq_some_iff (hne : escape ≠ stop) : quoted stop escape units = some n ↔
    ∃ run behind, units = run ++ stop :: behind ∧ Passes stop escape run ∧ n = run.length + 1 := by
  constructor
  · intro h
    obtain ⟨run, behind, hsplit, hrun, hcount⟩ := exists_passes_of_quoted_go h
    exact ⟨run, behind, hsplit, hrun, hcount.trans (Nat.zero_add _)⟩
  · rintro ⟨run, behind, rfl, hrun, rfl⟩
    rw [quoted, quoted_go_passes hne hrun, Nat.zero_add]

theorem exists_pair_of_pair_go (h : pair.go first second seen units = some n) :
    ∃ run behind, units = run ++ first :: second :: behind ∧
      ¬ [first, second] <:+: run ++ [first] ∧ n = seen + (run.length + 2) := by
  fun_induction pair.go first second seen units with
  | case1 => simp at h
  | case2 => simp at h
  | case3 seen u next rest hpair =>
    obtain ⟨rfl, rfl⟩ := hpair
    refine ⟨[], rest, rfl, fun hinside => ?_, (Option.some.inj h).symm⟩
    simpa using hinside.length_le
  | case4 seen u next rest hpair ih =>
    obtain ⟨run, behind, hsplit, hrun, rfl⟩ := ih h
    refine ⟨u :: run, behind, by rw [hsplit, List.cons_append], ?_, ?_⟩
    · rw [List.cons_append, List.infix_cons_iff]
      rintro (hpre | hinside)
      · obtain ⟨hfirst, hrest⟩ := List.cons_prefix_cons.1 hpre
        refine hpair ⟨hfirst.symm, ?_⟩
        cases run with
        | nil =>
          rw [List.nil_append] at hsplit hrest
          rw [(List.cons.inj hsplit).1]
          exact (List.cons_prefix_cons.1 hrest).1.symm
        | cons v run =>
          rw [(List.cons.inj hsplit).1]
          exact (List.cons_prefix_cons.1 hrest).1.symm
      · exact hrun hinside
    · rw [List.length_cons]
      omega

theorem pair_go_first (h : ¬ [first, second] <:+: run ++ [first]) :
    pair.go first second seen (run ++ first :: second :: behind) =
      some (seen + (run.length + 2)) := by
  induction run generalizing seen with
  | nil => simp [pair.go]
  | cons u run ih =>
    rw [List.cons_append, List.infix_cons_iff, not_or] at h
    have hrest : pair.go first second (seen + 1) (run ++ first :: second :: behind) =
        some (seen + 1 + (run.length + 2)) := ih h.2
    cases hnext : run ++ first :: second :: behind with
    | nil => simp at hnext
    | cons next rest =>
      have hpair : ¬ (u = first ∧ next = second) := by
        rintro ⟨rfl, rfl⟩
        refine h.1 (List.cons_prefix_cons.2 ⟨rfl, ?_⟩)
        cases run with
        | nil =>
          rw [← (List.cons.inj hnext).1]
          exact List.prefix_refl _
        | cons v run =>
          rw [(List.cons.inj hnext).1]
          exact List.prefix_append [_] (run ++ [_])
      rw [hnext] at hrest
      rw [List.cons_append, hnext, pair.go, if_neg hpair, hrest, List.length_cons]
      congr 1
      omega

/-- A comment is closed by the first pair behind its opening. -/
theorem pair_eq_some_iff : pair first second units = some n ↔
    ∃ run behind, units = run ++ first :: second :: behind ∧
      ¬ [first, second] <:+: run ++ [first] ∧ n = run.length + 2 := by
  constructor
  · intro h
    obtain ⟨run, behind, hsplit, hrun, hcount⟩ := exists_pair_of_pair_go h
    exact ⟨run, behind, hsplit, hrun, hcount.trans (Nat.zero_add _)⟩
  · rintro ⟨run, behind, rfl, hrun, rfl⟩
    rw [pair, pair_go_first hrun, Nat.zero_add]

end CBoundary.Extent
