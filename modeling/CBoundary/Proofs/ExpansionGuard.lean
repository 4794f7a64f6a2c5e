import CBoundary.Proofs.PieceExpansion
import Std.Data.ExtTreeSet

/-!
Expansion with a guard that is kept by hand. The macros whose expansion is going on stand on a
stack and, for looking them up, in a set; expanding the body of a macro enters its name into
both and takes it out again. A run may go on forever as far as its definition is concerned.
Shown here is that it never does, that it gives the expansion which has the names set aside
handed down to it, and that stack and set never part. Main statement: `run_returns`.
-/
namespace CBoundary.ExpansionGuard

open MacroExpansion

/-- The macros whose expansion is going on, as a stack with the innermost first and as a
set. -/
structure Guard where
  stack : List String
  inUse : Std.ExtTreeSet String

namespace Guard

/-- No expansion is going on. -/
def idle : Guard := ⟨[], ∅⟩

def enter (g : Guard) (name : String) : Guard := ⟨name :: g.stack, g.inUse.insert name⟩

def leave (g : Guard) : Guard :=
  match g.stack with
  | [] => g
  | name :: outer => ⟨outer, g.inUse.erase name⟩

/-- Each macro stands on the stack once, the set has the macros of the stack, and all of them
have a definition. -/
structure Balanced (table : MacroTable) (g : Guard) : Prop where
  nodup : g.stack.Nodup
  mem_inUse : ∀ name, name ∈ g.inUse ↔ name ∈ g.stack
  known : ∀ name ∈ g.stack, (table.get? name).isSome = true

end Guard

/-- The guard when a call of expansion starts and when it has returned. -/
structure Call where
  before : Guard
  after : Guard

/-- What a run has done so far. -/
structure Run where
  guard : Guard
  errors : List ArityError
  /-- Every value the guard has had, the first one first. -/
  guards : List Guard
  /-- The calls that have returned. -/
  calls : List Call

namespace Run

def start : Run := ⟨Guard.idle, [], [Guard.idle], []⟩

def setGuard (s : Run) (g : Guard) : Run := { s with guard := g, guards := s.guards ++ [g] }

def enter (s : Run) (name : String) : Run := s.setGuard (s.guard.enter name)

def leave (s : Run) : Run := s.setGuard s.guard.leave

def report (s : Run) (e : ArityError) : Run := { s with errors := s.errors ++ [e] }

/-- A call returns that was made when the guard was `before`. -/
def returned (s : Run) (before : Guard) : Run :=
  { s with calls := s.calls ++ [⟨before, s.guard⟩] }

mutual

/-- Expands a text. There is no result unless the call returns. -/
def expandText (table : MacroTable) (s : Run) (text : List Char) :
    Option (List Char × Run) := do
  let (out, t) ← s |>.scan table text
  some (out, t.returned s.guard)
partial_fixpoint

/-- Expands the pieces of a text one by one. -/
def scan (table : MacroTable) (s : Run) (text : List Char) : Option (List Char × Run) :=
  match text with
  | [] => some ([], s)
  | c :: rest => do
      let (piece, behind) := firstPiece table s.guard.inUse.toList c rest
      let (out, t) ← s |>.expandPiece table piece
      let (others, u) ← t |>.scan table behind
      some (out ++ others, u)
partial_fixpoint

def expandPiece (table : MacroTable) (s : Run) (piece : Piece) : Option (List Char × Run) :=
  match piece with
  | .copied written => some (written, s)
  | .name macroName definition =>
      match definition.body with
      | none => some ([], s)
      | some body =>
          if definition.isWellFormed then s |>.inside table macroName body.chars
          else some (body.chars, s)
  | .call macroName definition parameters written arguments =>
      match definition.body with
      | none => some ([], s)
      | some body =>
          let raw := rawArguments definition parameters arguments
          if raw.length < parameters.length then
            some (written,
              s.report ⟨macroName, raw.length, parameters.length, s.guard.stack.reverse⟩)
          else if !definition.isWellFormed then some (body.chars, s)
          else if parameters.isEmpty then s |>.inside table macroName body.chars
          else do
            let (prepared, t) ← s |>.expandArguments table raw
            t |>.inside table macroName (substituted parameters prepared body.chars)
partial_fixpoint

/-- Expands a text with a macro entered, and leaves the macro. -/
def inside (table : MacroTable) (s : Run) (macroName : String) (text : List Char) :
    Option (List Char × Run) := do
  let (out, t) ← s.enter macroName |>.expandText table text
  some (out, t.leave)
partial_fixpoint

/-- Expands the arguments of a call one by one. -/
def expandArguments (table : MacroTable) (s : Run) (arguments : List (List Char)) :
    Option (List (List Char × List Char) × Run) :=
  match arguments with
  | [] => some ([], s)
  | argument :: rest => do
      let (out, t) ← s |>.expandText table (cleanArgument argument)
      let (prepared, u) ← t |>.expandArguments table rest
      some ((cleanArgument argument, out) :: prepared, u)
partial_fixpoint

end

end Run

open Run (expandText scan expandPiece inside expandArguments)

theorem Guard.balanced_idle (table : MacroTable) : idle.Balanced table := by
  refine ⟨List.nodup_nil, ?_, ?_⟩
  · intro name
    simp [idle]
  · intro name hname
    simp [idle] at hname

theorem Guard.Balanced.enter {table : MacroTable} {g : Guard} {name : String}
    (h : g.Balanced table) (hname : name ∈ available table g.stack) :
    (g.enter name).Balanced table := by
  obtain ⟨hknown, hfree⟩ := mem_available.1 hname
  refine ⟨List.nodup_cons.2 ⟨hfree, h.nodup⟩, ?_, ?_⟩
  · intro other
    simp only [Guard.enter, Std.ExtTreeSet.mem_insert, Std.LawfulEqCmp.compare_eq_iff_eq,
      List.mem_cons, h.mem_inUse]
    rw [eq_comm]
  · intro other hother
    rcases List.mem_cons.1 hother with rfl | hother
    · exact hknown
    · exact h.known other hother

/-- Leaving undoes entering, because a name that is entered was not in use. -/
theorem Guard.Balanced.leave_enter {table : MacroTable} {g : Guard} {name : String}
    (h : g.Balanced table) (hname : name ∈ available table g.stack) :
    (g.enter name).leave = g := by
  have hfree : name ∉ g.inUse := by
    rw [h.mem_inUse]
    exact (mem_available.1 hname).2
  have hset : (g.inUse.insert name).erase name = g.inUse := by
    apply Std.ExtTreeSet.ext_mem
    intro other
    by_cases hother : name = other
    · subst hother
      simp [hfree]
    · simp [hother]
  cases g
  simp only [Guard.enter, Guard.leave, hset]

/-- What the guard sets aside is what its stack does. -/
theorem firstPiece_inUse {table : MacroTable} {g : Guard} (h : g.Balanced table) (c : Char)
    (rest : List Char) :
    firstPiece table g.inUse.toList c rest = firstPiece table g.stack c rest := by
  have hcontains : ∀ name, g.inUse.toList.contains name = g.stack.contains name := by
    intro name
    rw [Bool.eq_iff_iff, List.contains_iff_mem, List.contains_iff_mem,
      Std.ExtTreeSet.mem_toList, h.mem_inUse]
  unfold firstPiece wordPiece
  simp only [hcontains]

/-- All guards so far were balanced, and every call that returned left the guard as it was. -/
structure Run.Sound (table : MacroTable) (s : Run) : Prop where
  guard : s.guard.Balanced table
  guards : ∀ g ∈ s.guards, g.Balanced table
  calls : ∀ call ∈ s.calls, call.after = call.before

/-- From one state of a run to a later one: the guard is back, and errors were added. -/
structure Leads (table : MacroTable) (s : Run) (errors : List ArityError) (t : Run) : Prop where
  sound : t.Sound table
  guard : t.guard = s.guard
  errors : t.errors = s.errors ++ errors

/-- A part of a run returns with a value, and reports errors. -/
def Returns {α : Type} (table : MacroTable) (s : Run) (result : Option (α × Run)) (value : α)
    (errors : List ArityError) : Prop :=
  ∃ t, result = some (value, t) ∧ Leads table s errors t

/-- The call for a text returns, wherever in a run it is made with these names on the stack,
and gives the expansion with these names set aside. -/
def CallReturns (table : MacroTable) (aside : List String) (text : List Char) : Prop :=
  ∀ s : Run, s.Sound table → s.guard.stack = aside →
    Returns table s (expandText table s text) (expand table aside text).text
      (expand table aside text).errors

section

variable {table : MacroTable} {s t u : Run}

theorem Run.sound_start : Run.start.Sound table := by
  refine ⟨Guard.balanced_idle table, ?_, ?_⟩
  · intro g hg
    obtain rfl : g = Guard.idle := List.mem_singleton.1 hg
    exact Guard.balanced_idle table
  · intro call hcall
    simp [Run.start] at hcall

theorem Run.Sound.setGuard (h : s.Sound table) {g : Guard} (hg : g.Balanced table) :
    (s.setGuard g).Sound table := by
  refine ⟨hg, ?_, h.calls⟩
  intro other hother
  rcases List.mem_append.1 hother with hother | hother
  · exact h.guards other hother
  · obtain rfl : other = g := List.mem_singleton.1 hother
    exact hg

theorem Leads.refl (h : s.Sound table) : Leads table s [] s := ⟨h, rfl, by simp⟩

theorem Leads.trans {first second : List ArityError} (h : Leads table s first t)
    (h' : Leads table t second u) : Leads table s (first ++ second) u := by
  refine ⟨h'.sound, h'.guard.trans h.guard, ?_⟩
  rw [h'.errors, h.errors, List.append_assoc]

theorem Leads.report (h : s.Sound table) (e : ArityError) : Leads table s [e] (s.report e) :=
  ⟨⟨h.guard, h.guards, h.calls⟩, rfl, rfl⟩

/-- A call that leads back to the guard it started with may be recorded as returned. -/
theorem Leads.returned {errors : List ArityError} (h : Leads table s errors t) :
    Leads table s errors (t.returned s.guard) := by
  refine ⟨⟨h.sound.guard, h.sound.guards, ?_⟩, h.guard, h.errors⟩
  intro call hcall
  rcases List.mem_append.1 hcall with hcall | hcall
  · exact h.sound.calls call hcall
  · obtain rfl : call = ⟨s.guard, t.guard⟩ := List.mem_singleton.1 hcall
    exact h.guard

theorem returns_refl (h : s.Sound table) {α : Type} (value : α) :
    Returns table s (some (value, s)) value [] :=
  ⟨s, rfl, Leads.refl h⟩

theorem inside_returns (h : s.Sound table) {aside : List String}
    (hstack : s.guard.stack = aside) {macroName : String} {text : List Char}
    (hname : macroName ∈ available table aside)
    (hcall : CallReturns table (macroName :: aside) text) :
    Returns table s (inside table s macroName text) (expand table (macroName :: aside) text).text
      (expand table (macroName :: aside) text).errors := by
  subst hstack
  obtain ⟨t, ht, hleads⟩ := hcall (s.enter macroName) (h.setGuard (h.guard.enter hname)) rfl
  have hback : t.guard.leave = s.guard := by
    rw [hleads.guard]
    exact h.guard.leave_enter hname
  refine ⟨t.leave, ?_, ?_, hback, hleads.errors⟩
  · rw [inside, ht]
    rfl
  · apply hleads.sound.setGuard
    rw [hback]
    exact h.guard

theorem expandArguments_returns (h : s.Sound table) {aside : List String}
    (hstack : s.guard.stack = aside) {arguments : List (List Char)}
    (hcalls : ∀ argument ∈ arguments, CallReturns table aside (cleanArgument argument)) :
    Returns table s (expandArguments table s arguments) (arguments.map (prepared table aside))
      (arguments.flatMap fun argument => (argumentExpansion table aside argument).errors) := by
  induction arguments generalizing s with
  | nil =>
    rw [expandArguments]
    exact returns_refl h _
  | cons argument others ih =>
    obtain ⟨t, ht, hfirst⟩ := hcalls argument List.mem_cons_self s h hstack
    obtain ⟨u, hu, hothers⟩ := ih hfirst.sound (by rw [hfirst.guard, hstack])
      fun other hother => hcalls other (List.mem_cons_of_mem argument hother)
    refine ⟨u, ?_, hfirst.trans hothers⟩
    rw [expandArguments, ht]
    simp only [Option.bind_eq_bind, Option.bind_some, hu]
    rfl

/-- A piece returns if the calls for shorter texts do and those with another name set aside. -/
theorem expandPiece_returns (h : s.Sound table) {aside : List String}
    (hstack : s.guard.stack = aside) {size : Nat} {p : Piece} (hp : Fits table aside size p)
    (hinner : ∀ macroName ∈ available table aside, ∀ text,
      CallReturns table (macroName :: aside) text)
    (hshorter : ∀ text, TextPosition.byteLength text < size → CallReturns table aside text) :
    Returns table s (expandPiece table s p) (pieceExpansion table aside p).text
      (pieceExpansion table aside p).errors := by
  cases p with
  | copied written =>
    rw [expandPiece]
    exact returns_refl h _
  | name macroName definition =>
    rw [expandPiece, pieceExpansion]
    cases definition.body with
    | none => exact returns_refl h _
    | some body =>
      by_cases hwell : definition.isWellFormed
      · simp only [hwell, if_true]
        exact inside_returns h hstack hp (hinner macroName hp body.chars)
      · simp only [hwell, Bool.false_eq_true, if_false]
        exact returns_refl h _
  | call macroName definition parameters written arguments =>
    obtain ⟨hname, hsize⟩ := hp
    rw [expandPiece, pieceExpansion]
    cases definition.body with
    | none => exact returns_refl h _
    | some body =>
      simp only [hstack]
      split
      · exact ⟨_, rfl, Leads.report h _⟩
      · split
        · exact returns_refl h _
        · split
          · exact inside_returns h hstack hname (hinner macroName hname body.chars)
          · have hcalls : ∀ argument ∈ rawArguments definition parameters arguments,
                CallReturns table aside (cleanArgument argument) := by
              intro argument hargument
              have hle := byteLength_le_of_mem_rawArguments hargument
              have hclean := byteLength_cleanArgument_le argument
              exact hshorter _ (by omega)
            obtain ⟨t, ht, hfirst⟩ := expandArguments_returns h hstack hcalls
            obtain ⟨u, hu, hsecond⟩ := inside_returns hfirst.sound (hfirst.guard ▸ hstack) hname
              (hinner macroName hname (substituted parameters
                ((rawArguments definition parameters arguments).map (prepared table aside))
                body.chars))
            refine ⟨u, ?_, hfirst.trans hsecond⟩
            rw [ht]
            exact hu

/-- A text returns piece by piece. -/
theorem scan_returns (h : s.Sound table) {aside : List String} (hstack : s.guard.stack = aside)
    {text : List Char}
    (hpieces : ∀ p ∈ pieces table aside text, ∀ t : Run, t.Sound table →
      t.guard.stack = aside → Returns table t (expandPiece table t p)
        (pieceExpansion table aside p).text (pieceExpansion table aside p).errors) :
    Returns table s (scan table s text) (expand table aside text).text
      (expand table aside text).errors := by
  rw [expand_eq_join]
  fun_induction pieces table aside text generalizing s with
  | case1 =>
    rw [scan]
    exact returns_refl h _
  | case2 c rest ih =>
    obtain ⟨t, ht, hfirst⟩ := hpieces _ List.mem_cons_self s h hstack
    obtain ⟨u, hu, hothers⟩ := ih hfirst.sound (by rw [hfirst.guard, hstack])
      fun p hp => hpieces p (List.mem_cons_of_mem _ hp)
    refine ⟨u, ?_, ?_⟩
    · rw [scan, firstPiece_inUse h.guard, hstack]
      simp only [Option.bind_eq_bind, ht, Option.bind_some, hu, Expansion.join, List.map_cons,
        List.flatMap_cons]
    · simpa only [Expansion.join, List.map_cons, List.flatMap_cons] using hfirst.trans hothers

/-- Every call returns. A call for a body has one more name of the table set aside, and a call
for an argument has a shorter text. -/
theorem callReturns (table : MacroTable) (aside : List String) (text : List Char) :
    CallReturns table aside text := by
  intro s h hstack
  have hscan : Returns table s (scan table s text) (expand table aside text).text
      (expand table aside text).errors := by
    refine scan_returns h hstack ?_
    intro p hp t ht htstack
    refine expandPiece_returns ht htstack (fits_of_mem_pieces hp) ?_ ?_
    · intro macroName hname body
      have hdeeper := length_available_lt hname
      exact callReturns table (macroName :: aside) body
    · intro argument hlt
      exact callReturns table aside argument
  obtain ⟨t, ht, hleads⟩ := hscan
  refine ⟨t.returned s.guard, ?_, hleads.returned⟩
  rw [expandText, ht]
  rfl
termination_by ((available table aside).length, TextPosition.byteLength text)
decreasing_by
  · exact Prod.Lex.left _ _ hdeeper
  · exact Prod.Lex.right _ hlt

end

/-- A whole run: the call for a text, with no expansion going on. -/
def run (table : MacroTable) (text : String) : Option (List Char × Run) :=
  expandText table Run.start text.toList

/-- Expansion returns, for every table and every text. The guard was balanced all the time,
every call left it as it was, and the result is the expansion of the text. -/
theorem run_returns (table : MacroTable) (text : String) :
    ∃ t, run table text = some ((table.expand text).text, t) ∧
      t.errors = (table.expand text).errors ∧ t.guard = Guard.idle ∧
      (∀ g ∈ t.guards, g.Balanced table) ∧ ∀ call ∈ t.calls, call.after = call.before := by
  obtain ⟨t, ht, hleads⟩ := callReturns table [] text.toList Run.start Run.sound_start rfl
  exact ⟨t, ht, hleads.errors, hleads.guard, hleads.sound.guards, hleads.sound.calls⟩

end CBoundary.ExpansionGuard
