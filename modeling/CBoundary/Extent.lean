/-!
How far a lexical element reaches. Each function is given the units that follow the opening
of an element and answers how many of them belong to it. The unit is a parameter, because
the scanner reads characters while a byte cursor reads bytes, and both have to agree on
where a line, a literal or a comment stops.
-/
namespace CBoundary.Extent

variable {α : Type} [DecidableEq α]

/-- Units up to and including the first `newline` that is not escaped, or all of them. An
`escape` takes the unit after it along, whatever it is. -/
def line (newline escape : α) (units : List α) : Nat :=
  go 0 units
where
  go (seen : Nat) : List α → Nat
    | [] => seen
    | [_] => seen + 1
    | unit :: next :: rest =>
        if unit = newline then seen + 1
        else if unit = escape then go (seen + 2) rest
        else go (seen + 1) (next :: rest)

/-- Units up to and including the closing `quote` of a literal, if it is closed. An `escape`
takes the unit after it along, so it can hide a quote, and one that ends the text closes
nothing. -/
def quoted (quote escape : α) (units : List α) : Option Nat :=
  go 0 units
where
  go (seen : Nat) : List α → Option Nat
    | [] => none
    | [unit] => if unit = quote then some (seen + 1) else none
    | unit :: next :: rest =>
        if unit = quote then some (seen + 1)
        else if unit = escape then go (seen + 2) rest
        else go (seen + 1) (next :: rest)

/-- Units up to and including the first `first`, `second` pair, if there is one. -/
def pair (first second : α) (units : List α) : Option Nat :=
  go 0 units
where
  go (seen : Nat) : List α → Option Nat
    | [] => none
    | [_] => none
    | unit :: next :: rest =>
        if unit = first ∧ next = second then some (seen + 2)
        else go (seen + 1) (next :: rest)

theorem line_go_bounds (newline escape : α) (seen : Nat) (units : List α) :
    seen ≤ line.go newline escape seen units ∧
      line.go newline escape seen units ≤ seen + units.length := by
  fun_induction line.go newline escape seen units <;> simp_all <;> omega

/-- A line never reaches past the text. -/
theorem line_le (newline escape : α) (units : List α) :
    line newline escape units ≤ units.length := by
  simpa [line] using (line_go_bounds newline escape 0 units).2

theorem quoted_go_bounds {quote escape : α} {seen n : Nat} {units : List α}
    (h : quoted.go quote escape seen units = some n) : seen < n ∧ n ≤ seen + units.length := by
  fun_induction quoted.go quote escape seen units <;> simp_all <;> omega

/-- A closed literal has at least its closing quote and stays inside the text. -/
theorem quoted_bounds {quote escape : α} {n : Nat} {units : List α}
    (h : quoted quote escape units = some n) : 0 < n ∧ n ≤ units.length := by
  simpa using quoted_go_bounds h

theorem pair_go_bounds {first second : α} {seen n : Nat} {units : List α}
    (h : pair.go first second seen units = some n) :
    seen + 2 ≤ n ∧ n ≤ seen + units.length := by
  fun_induction pair.go first second seen units <;> simp_all <;> omega

/-- A found pair is at least two units away and stays inside the text. -/
theorem pair_bounds {first second : α} {n : Nat} {units : List α}
    (h : pair first second units = some n) : 2 ≤ n ∧ n ≤ units.length := by
  simpa using pair_go_bounds h

end CBoundary.Extent
