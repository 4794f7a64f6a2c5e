import CBoundary.Proofs.ReplayedReports
import Mathlib.Data.List.DropRight
import Mathlib.Data.List.Induction

/-!
What a sink owes to those who use it. Sinks are used through handles, a clone of a handle is a
further handle on the same sink, and calls through all handles of a sink come one after the other.
Tallies are those of all accepted reports that were handed in by these calls; what is kept is as
much as the limit allows of what was accepted behind the last call that took the reports out. One
call preserves this, hence any run does. Main statement: `SinkStore.shared_accounting`.
-/
namespace CBoundary

/-- What can be asked of a sink. -/
inductive SinkCall where
  | emit (w : Warning)
  | emitGroup (r : Report)
  | warn (categories : Categories) (location : Option String) (message : String)
  | error (categories : Categories) (location : Option String) (message : String)
  | conflict (categories : Categories) (here what there : String) (messages : List String)
  | snapshot
  | takeGroups
  | takeSorted
deriving DecidableEq, Repr

/-- What a sink gives back. -/
inductive SinkAnswer where
  | done
  | wasAccepted (answer : Bool)
  | records (records : List Warning)
  | groups (groups : List Report)
deriving DecidableEq, Repr

namespace SinkCall

/-- The report that a call hands in. -/
def report? : SinkCall → Option Report
  | .emit w => some [w]
  | .emitGroup r => some r
  | .warn categories location message => some (Report.warning categories location message)
  | .error categories location message => some (Report.error categories location message)
  | .conflict categories here what there messages =>
      some (Report.conflict categories here what there messages)
  | .snapshot => none
  | .takeGroups => none
  | .takeSorted => none

/-- Does the call take the reports out? -/
def drains : SinkCall → Bool
  | .takeGroups => true
  | .takeSorted => true
  | _ => false

/-- The reports that calls hand in and that are accepted, in order. -/
def accepted (config : SinkConfig) (calls : List SinkCall) : List Report :=
  (calls.filterMap report?).filter config.accepts

/-- The calls behind the last one that takes the reports out. -/
def sinceDrain (calls : List SinkCall) : List SinkCall := calls.rtakeWhile fun c => !c.drains

theorem accepted_append (config : SinkConfig) (first second : List SinkCall) :
    accepted config (first ++ second) = accepted config first ++ accepted config second := by
  rw [accepted, List.filterMap_append, List.filter_append, accepted, accepted]

end SinkCall

namespace SinkConfig

/-- As many of the first reports as there is room for. -/
def firstOf (config : SinkConfig) (reports : List Report) : List Report :=
  if config.limit = 0 then reports else reports.take config.limit

variable {config : SinkConfig}

theorem firstOf_of_no_limit (h : config.limit = 0) (reports : List Report) :
    config.firstOf reports = reports := if_pos h

/-- A report is accepted exactly if its first record is of an enabled category. -/
theorem accepts_iff (r : Report) : config.accepts r = true ↔
    ∃ w rest category, r = w :: rest ∧ config.enabled.contains category = true ∧
      w.categories.contains category = true := by
  cases r with
  | nil => simp [accepts]
  | cons w rest =>
    simp only [accepts, List.head?_cons, Option.any_some, isEnabled, Categories.meets,
      List.any_eq_true, List.cons.injEq]
    constructor
    · rintro ⟨category, hmem, hcontains⟩
      exact ⟨w, rest, category, ⟨rfl, rfl⟩, List.contains_iff_mem.2 hmem, hcontains⟩
    · rintro ⟨_, _, category, ⟨rfl, rfl⟩, henabled, hcontains⟩
      exact ⟨category, List.contains_iff_mem.1 henabled, hcontains⟩

end SinkConfig

namespace Sink

open SinkCall

/-- Carries out one call. -/
def perform (s : Sink) : SinkCall → SinkAnswer × Sink
  | .emit w => (.wasAccepted (s.config.accepts [w]), s.emit [w])
  | .emitGroup r => (.wasAccepted (s.config.accepts r), s.emit r)
  | .warn categories location message =>
      (.done, s.emit (Report.warning categories location message))
  | .error categories location message =>
      (.done, s.emit (Report.error categories location message))
  | .conflict categories here what there messages =>
      (.done, s.emit (Report.conflict categories here what there messages))
  | .snapshot => (.records s.snapshot, s)
  | .takeGroups => (.groups s.reports, s.drained)
  | .takeSorted => (.records s.sorted, s.drained)

/-- The sink after a call. -/
def after (s : Sink) (c : SinkCall) : Sink := (s.perform c).2

/-- The sink after calls one after the other. -/
def afterAll (s : Sink) (calls : List SinkCall) : Sink := calls.foldl after s

/-- The reports that calls take out, one call after the other. -/
def takenOut (s : Sink) : List SinkCall → List Report
  | [] => []
  | c :: rest => (if c.drains then s.reports else []) ++ (s.after c).takenOut rest

variable {s : Sink} {calls : List SinkCall}

/-- A call hands in a report, or takes the reports out, or changes nothing. -/
theorem after_cases (s : Sink) (c : SinkCall) :
    (∃ r, accepted s.config [c] = [r].filter s.config.accepts ∧ c.drains = false ∧
        s.after c = s.emit r) ∨
      (accepted s.config [c] = [] ∧ c.drains = true ∧ s.after c = s.drained) ∨
      (accepted s.config [c] = [] ∧ c.drains = false ∧ s.after c = s) := by
  cases c with
  | emit w => exact Or.inl ⟨_, rfl, rfl, rfl⟩
  | emitGroup r => exact Or.inl ⟨_, rfl, rfl, rfl⟩
  | warn categories location message => exact Or.inl ⟨_, rfl, rfl, rfl⟩
  | error categories location message => exact Or.inl ⟨_, rfl, rfl, rfl⟩
  | conflict categories here what there messages => exact Or.inl ⟨_, rfl, rfl, rfl⟩
  | snapshot => exact Or.inr (Or.inr ⟨rfl, rfl, rfl⟩)
  | takeGroups => exact Or.inr (Or.inl ⟨rfl, rfl, rfl⟩)
  | takeSorted => exact Or.inr (Or.inl ⟨rfl, rfl, rfl⟩)

theorem config_after (s : Sink) (c : SinkCall) : (s.after c).config = s.config := by
  rcases s.after_cases c with ⟨r, -, -, hafter⟩ | ⟨-, -, hafter⟩ | ⟨-, -, hafter⟩
  · rw [hafter, config_emit]
  · rw [hafter]
    rfl
  · rw [hafter]

/-- A call adds to a tally the records of the report that it hands in, if that is accepted. -/
theorem tallies_after (s : Sink) (c : SinkCall) :
    (s.after c).errors = s.errors + countAll .error (accepted s.config [c]) ∧
      (s.after c).warnings = s.warnings + countAll .warning (accepted s.config [c]) := by
  rcases s.after_cases c with ⟨r, haccepted, -, hafter⟩ | ⟨hnone, -, hafter⟩ | ⟨hnone, -, hafter⟩
  · rw [hafter, haccepted]
    exact s.tallies_emitAll [r]
  · rw [hafter, hnone]
    exact ⟨rfl, rfl⟩
  · rw [hafter, hnone]
    exact ⟨rfl, rfl⟩

/-- A sink that keeps the first of some reports keeps the first of them and of one more. -/
theorem reports_emit_of_firstOf {reports : List Report}
    (h : s.reports = s.config.firstOf reports) (r : Report) :
    (s.emit r).reports = s.config.firstOf (reports ++ [r].filter s.config.accepts) := by
  by_cases hlimit : s.config.limit = 0
  · have hemit := congrArg Sink.reports (s.emitAll_eq hlimit [r])
    rw [SinkConfig.firstOf_of_no_limit hlimit] at h ⊢
    rw [← h]
    exact hemit
  · have hemit := s.reports_emitAll hlimit [r]
    rw [SinkConfig.firstOf, if_neg hlimit] at h ⊢
    have hroom : s.config.limit - s.reports.length = s.config.limit - reports.length := by
      rw [h, List.length_take]
      omega
    rw [hroom] at hemit
    rw [List.take_append, ← h]
    exact hemit

/-- What a sink owes for the calls that were made on it: it has counted the records of all reports
that it accepted, and keeps the first of those that it accepted since it was last drained. -/
structure Accounts (s : Sink) (calls : List SinkCall) : Prop where
  errors : s.errors = countAll .error (accepted s.config calls)
  warnings : s.warnings = countAll .warning (accepted s.config calls)
  reports : s.reports = s.config.firstOf (accepted s.config (sinceDrain calls))

theorem accounts_empty (config : SinkConfig) : (empty config).Accounts [] where
  errors := rfl
  warnings := rfl
  reports := by
    rw [SinkConfig.firstOf]
    split
    · rfl
    · exact List.take_nil.symm

theorem Accounts.after (h : s.Accounts calls) (c : SinkCall) :
    (s.after c).Accounts (calls ++ [c]) := by
  obtain ⟨herrors, hwarnings⟩ := s.tallies_after c
  refine ⟨?_, ?_, ?_⟩
  · rw [herrors, h.errors, config_after, accepted_append, countAll_append]
  · rw [hwarnings, h.warnings, config_after, accepted_append, countAll_append]
  · rw [config_after, sinceDrain, List.rtakeWhile_concat]
    rcases s.after_cases c with ⟨r, haccepted, hdrains, hafter⟩ | ⟨-, hdrains, hafter⟩ |
      ⟨hnone, hdrains, hafter⟩
    · rw [hafter, hdrains, if_pos (by rfl), accepted_append, haccepted]
      exact reports_emit_of_firstOf h.reports r
    · rw [hafter, hdrains, if_neg (by decide)]
      exact (accounts_empty s.config).reports
    · rw [hafter, hdrains, if_pos (by rfl), accepted_append, hnone, List.append_nil]
      exact h.reports

/-- Without a limit, what a run takes out and what it leaves is what was there and what was
accepted. -/
theorem takenOut_append_reports (hlimit : s.config.limit = 0) (calls : List SinkCall) :
    s.takenOut calls ++ (s.afterAll calls).reports = s.reports ++ accepted s.config calls := by
  induction calls generalizing s with
  | nil => simp [takenOut, afterAll, accepted]
  | cons c rest ih =>
    have hrest := ih (s := s.after c) (by rw [config_after, hlimit])
    have hall : s.afterAll (c :: rest) = (s.after c).afterAll rest := rfl
    have hsplit := accepted_append s.config [c] rest
    rw [List.singleton_append] at hsplit
    rw [takenOut, hall, List.append_assoc, hrest, config_after, hsplit]
    rcases s.after_cases c with ⟨r, haccepted, hdrains, hafter⟩ | ⟨hnone, hdrains, hafter⟩ |
      ⟨hnone, hdrains, hafter⟩
    · have hemit := congrArg Sink.reports (s.emitAll_eq hlimit [r])
      have hreports : (s.after c).reports = s.reports ++ accepted s.config [c] := by
        rw [hafter, haccepted]
        exact hemit
      rw [hreports, hdrains]
      simp
    · rw [hafter, hdrains, hnone]
      simp [drained]
    · rw [hafter, hdrains, hnone]
      simp

end Sink

/-- Sinks, and for each handle the sink that it is a handle on. -/
structure SinkStore where
  sinks : List Sink
  handles : List Nat

/-- What can be done with sinks: a new one is made, with a first handle on it, a handle is cloned,
and a call goes through a handle. -/
inductive SinkAction where
  | create (config : SinkConfig)
  | clone (handle : Nat)
  | call (handle : Nat) (c : SinkCall)

namespace SinkStore

open SinkCall

def empty : SinkStore := ⟨[], []⟩

/-- Carries out one action. Nothing happens through a handle that there is not. -/
def act (st : SinkStore) : SinkAction → SinkStore
  | .create config => ⟨st.sinks ++ [Sink.empty config], st.handles ++ [st.sinks.length]⟩
  | .clone handle => { st with handles := st.handles ++ (st.handles[handle]?).toList }
  | .call handle c =>
      match st.handles[handle]? with
      | some i => { st with sinks := st.sinks.modify i fun s => s.after c }
      | none => st

def run (actions : List SinkAction) : SinkStore := actions.foldl act empty

/-- The call that an action makes on a sink, through any of the handles on it. -/
def callOn? (st : SinkStore) (i : Nat) : SinkAction → Option SinkCall
  | .call handle c => if st.handles[handle]? = some i then some c else none
  | _ => none

/-- The calls that further actions make on a sink. -/
def callsFrom (st : SinkStore) (i : Nat) : List SinkAction → List SinkCall
  | [] => []
  | a :: rest => (st.callOn? i a).toList ++ (st.act a).callsFrom i rest

/-- The calls that actions make on a sink, from the beginning. -/
def callsOn (i : Nat) (actions : List SinkAction) : List SinkCall := empty.callsFrom i actions

theorem run_concat (actions : List SinkAction) (a : SinkAction) :
    run (actions ++ [a]) = (run actions).act a := by
  rw [run, List.foldl_append]
  rfl

theorem callsFrom_concat (st : SinkStore) (i : Nat) (actions : List SinkAction) (a : SinkAction) :
    st.callsFrom i (actions ++ [a]) =
      st.callsFrom i actions ++ ((actions.foldl act st).callOn? i a).toList := by
  induction actions generalizing st with
  | nil => simp [callsFrom]
  | cons b rest ih => rw [List.cons_append, callsFrom, ih, callsFrom, List.append_assoc]; rfl

theorem callsOn_concat (i : Nat) (actions : List SinkAction) (a : SinkAction) :
    callsOn i (actions ++ [a]) = callsOn i actions ++ ((run actions).callOn? i a).toList :=
  callsFrom_concat empty i actions a

/-- What holds of a store when these calls were made on its sinks: handles are on sinks that there
are, no call was made on a sink that there is not, and every sink accounts for its calls, which have
brought it about. -/
structure Sound (st : SinkStore) (calls : Nat → List SinkCall) : Prop where
  handles : ∀ i ∈ st.handles, i < st.sinks.length
  unused (i : Nat) : st.sinks.length ≤ i → calls i = []
  accounts (i : Nat) (s : Sink) : st.sinks[i]? = some s → s.Accounts (calls i)
  broughtAbout (i : Nat) (s : Sink) :
    st.sinks[i]? = some s → s = (Sink.empty s.config).afterAll (calls i)

variable {st : SinkStore} {calls : Nat → List SinkCall}

theorem sound_empty : empty.Sound fun _ => [] where
  handles i hi := by cases hi
  unused _ _ := rfl
  accounts i s hs := by cases hs
  broughtAbout i s hs := by cases hs

theorem Sound.create (h : st.Sound calls) (config : SinkConfig) :
    (st.act (.create config)).Sound calls := by
  have hlength : (st.act (.create config)).sinks.length = st.sinks.length + 1 :=
    List.length_append
  -- the new sink is the only one that was not there, and no call was made on it
  have hsinks {i : Nat} {s : Sink} (hs : (st.act (.create config)).sinks[i]? = some s) :
      st.sinks[i]? = some s ∨ (s = Sink.empty config ∧ calls i = []) := by
    rcases Nat.lt_or_ge i st.sinks.length with hlt | hge
    · left
      rw [← hs]
      exact (List.getElem?_append_left hlt).symm
    · right
      have hmem : s ∈ [Sink.empty config] := by
        apply List.mem_of_getElem?
        rw [← hs]
        exact (List.getElem?_append_right hge).symm
      exact ⟨List.mem_singleton.1 hmem, h.unused i hge⟩
  refine ⟨?_, ?_, ?_, ?_⟩
  · intro i hi
    rw [hlength]
    rcases List.mem_append.1 hi with hi | hi
    · have hlt := h.handles i hi
      omega
    · rw [List.mem_singleton.1 hi]
      omega
  · intro i hi
    apply h.unused i
    omega
  · intro i s hs
    rcases hsinks hs with hs | ⟨rfl, hcalls⟩
    · exact h.accounts i s hs
    · rw [hcalls]
      exact Sink.accounts_empty config
  · intro i s hs
    rcases hsinks hs with hs | ⟨rfl, hcalls⟩
    · exact h.broughtAbout i s hs
    · rw [hcalls]
      rfl

theorem Sound.clone (h : st.Sound calls) (handle : Nat) :
    (st.act (.clone handle)).Sound calls where
  handles i hi := by
    rcases List.mem_append.1 hi with hi | hi
    · exact h.handles i hi
    · exact h.handles i (List.mem_of_getElem? (Option.mem_toList.1 hi))
  unused := h.unused
  accounts := h.accounts
  broughtAbout := h.broughtAbout

theorem Sound.call (h : st.Sound calls) (handle : Nat) (c : SinkCall) :
    (st.act (.call handle c)).Sound fun i => calls i ++ (st.callOn? i (.call handle c)).toList := by
  cases hhandle : st.handles[handle]? with
  | none =>
    have hact : st.act (.call handle c) = st := by simp only [act, hhandle]
    have hcalls (i : Nat) : calls i ++ (st.callOn? i (.call handle c)).toList = calls i := by
      simp [callOn?, hhandle]
    simp only [hact, hcalls]
    exact h
  | some j =>
    have hj : j < st.sinks.length := h.handles j (List.mem_of_getElem? hhandle)
    have hact : st.act (.call handle c) =
        { st with sinks := st.sinks.modify j fun s => s.after c } := by simp only [act, hhandle]
    have hcalls (i : Nat) : calls i ++ (st.callOn? i (.call handle c)).toList =
        if j = i then calls i ++ [c] else calls i := by
      by_cases hji : j = i <;> simp [callOn?, hhandle, hji]
    simp only [hact, hcalls]
    -- the sink behind the handle has changed by the call, the others have not changed
    have hsinks {i : Nat} {s : Sink} (hs : (st.sinks.modify j fun s => s.after c)[i]? = some s) :
        (j = i ∧ ∃ before, st.sinks[i]? = some before ∧ s = before.after c) ∨
          (j ≠ i ∧ st.sinks[i]? = some s) := by
      rw [List.getElem?_modify, Option.map_eq_map, Option.map_eq_some_iff] at hs
      obtain ⟨before, hbefore, hafter⟩ := hs
      by_cases hji : j = i
      · rw [if_pos hji] at hafter
        exact Or.inl ⟨hji, before, hbefore, hafter.symm⟩
      · rw [if_neg hji] at hafter
        exact Or.inr ⟨hji, hafter ▸ hbefore⟩
    refine ⟨?_, ?_, ?_, ?_⟩
    · intro i hi
      rw [List.length_modify]
      exact h.handles i hi
    · intro i hi
      rw [List.length_modify] at hi
      have hne : j ≠ i := by omega
      rw [if_neg hne]
      exact h.unused i hi
    · intro i s hs
      rcases hsinks hs with ⟨hji, before, hbefore, rfl⟩ | ⟨hji, hs⟩
      · rw [if_pos hji]
        exact (h.accounts i before hbefore).after c
      · rw [if_neg hji]
        exact h.accounts i s hs
    · intro i s hs
      rcases hsinks hs with ⟨hji, before, hbefore, rfl⟩ | ⟨hji, hs⟩
      · rw [if_pos hji, Sink.config_after, Sink.afterAll, List.foldl_append]
        exact congrArg (fun s => Sink.after s c) (h.broughtAbout i before hbefore)
      · rw [if_neg hji]
        exact h.broughtAbout i s hs

/-- Whatever was done with sinks, every sink accounts for the calls made on it. -/
theorem sound_run (actions : List SinkAction) :
    (run actions).Sound fun i => callsOn i actions := by
  induction actions using List.reverseRecOn with
  | nil => exact sound_empty
  | append_singleton actions a ih =>
    simp only [run_concat, callsOn_concat]
    cases a with
    | create config =>
      simp only [callOn?, Option.toList_none, List.append_nil]
      exact ih.create config
    | clone handle =>
      simp only [callOn?, Option.toList_none, List.append_nil]
      exact ih.clone handle
    | call handle c => exact ih.call handle c

/-- Of the calls made on a sink through all handles on it, the tallies count the records of all
accepted reports, a report being accepted if its first record is of an enabled category, and no call
lowers them. The sink holds the first of the reports that it accepted since it was last drained, as
many as its limit allows, and gives these out, whole, in the order of arrival or sorted. Without a
limit, what was taken out and what is held is what was accepted. -/
theorem shared_accounting (actions : List SinkAction) (i : Nat) (s : Sink)
    (hs : (run actions).sinks[i]? = some s) :
    let calls := callsOn i actions
    let held := s.config.firstOf (accepted s.config (sinceDrain calls))
    (s.errors = Sink.countAll .error (accepted s.config calls) ∧
        s.warnings = Sink.countAll .warning (accepted s.config calls)) ∧
      (∀ r : Report, s.config.accepts r = true ↔ ∃ w rest category, r = w :: rest ∧
        s.config.enabled.contains category = true ∧ w.categories.contains category = true) ∧
      (∀ c, s.errors ≤ (s.after c).errors ∧ s.warnings ≤ (s.after c).warnings) ∧
      (s.reports = held ∧ (s.perform .snapshot).1 = .records held.flatten ∧
        (s.perform .takeGroups).1 = .groups held ∧
        ∃ order : List Report, order.Perm held ∧
          (s.perform .takeSorted).1 = .records order.flatten) ∧
      (s.config.limit = 0 →
        (Sink.empty s.config).takenOut calls ++ s.reports = accepted s.config calls) := by
  intro calls held
  have hsound := sound_run actions
  have haccounts : s.Accounts calls := hsound.accounts i s hs
  have hheld : s.reports = held := haccounts.reports
  refine ⟨⟨haccounts.errors, haccounts.warnings⟩, fun r => SinkConfig.accepts_iff r, ?_, ?_, ?_⟩
  · intro c
    obtain ⟨herrors, hwarnings⟩ := s.tallies_after c
    omega
  · refine ⟨hheld, ?_, ?_, Report.sort held, List.mergeSort_perm held _, ?_⟩
    · rw [← hheld]
      rfl
    · rw [← hheld]
      rfl
    · rw [← hheld]
      rfl
  · intro hlimit
    have hall := Sink.takenOut_append_reports (s := Sink.empty s.config) hlimit calls
    rw [← hsound.broughtAbout i s hs] at hall
    exact hall

/-- Calls through a handle and through its clone, with room for one report. The second report is
counted but not kept, the third is of no enabled category, and the fourth comes after the first was
taken out. -/
theorem two_handles_one_account :
    let config : SinkConfig := ⟨Categories.only .io, 1⟩
    let note : Warning := ⟨.note, Categories.only .io, none, "kept"⟩
    let calls : List SinkCall := [.error (Categories.only .io) none "first",
      .warn (Categories.only .io) none "second",
      .emit ⟨.error, Categories.only .access, none, "third"⟩, .takeSorted, .emitGroup [note, ⟨.error, Categories.only .access, none, "with it"⟩]]
    let actions : List SinkAction :=
      .create config :: .clone 0 :: List.zipWith .call [0, 1, 0, 1, 0] calls
    let s : Sink := ⟨config, [[note, ⟨.error, Categories.only .access, none, "with it"⟩]], 2, 1⟩
    (run actions).sinks[0]? = some s ∧ callsOn 0 actions = calls ∧
      s.errors = Sink.countAll .error (accepted config calls) ∧
      s.warnings = Sink.countAll .warning (accepted config calls) ∧
      s.reports = config.firstOf (accepted config (sinceDrain calls)) := by
  intro config note calls actions s
  have hs : (run actions).sinks[0]? = some s := rfl
  obtain ⟨⟨herrors, hwarnings⟩, -, -, ⟨hheld, -⟩, -⟩ := shared_accounting actions 0 s hs
  exact ⟨hs, rfl, herrors, hwarnings, hheld⟩

end SinkStore

end CBoundary
