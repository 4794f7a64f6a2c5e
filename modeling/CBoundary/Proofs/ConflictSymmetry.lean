import CBoundary.Proofs.Precedence
import CBoundary.Sink

/-!
What two definitions disagree about, whichever of them is folded into the other. Folding compares
the one that stands for both with the other, and takes over what is missing, so the side that an
entry is on changes the messages. It does not change which categories are reported: each category
stands for a relation between the two that is symmetric and that no definition has to itself. Main
statements: `emits_iff` and `conflicts_symmetric`.
-/
namespace CBoundary

/-- Nothing is said about what agrees. -/
theorem said_eq_nil {agrees : Bool} {message : String} :
    (if agrees = true then [] else [message]) = [] ↔ agrees = true := by
  cases agrees <;> simp

theorem TokenList.agrees_iff {first second : List Token} :
    agrees first second = true ↔ texts first = texts second := beq_iff_eq

theorem Token.agrees_iff {t u : Token} : t.agrees u = true ↔ t.text = u.text := beq_iff_eq

namespace Variable

/-- Type and name are the same. -/
structure Compatible (v w : Variable) : Prop where
  type : TokenList.texts v.typename = TokenList.texts w.typename
  name : v.name.text = w.name.text

variable {v w : Variable}

theorem Compatible.refl (v : Variable) : v.Compatible v := ⟨rfl, rfl⟩

theorem Compatible.symm (h : v.Compatible w) : w.Compatible v := ⟨h.type.symm, h.name.symm⟩

theorem conflicts_eq_nil_iff : v.conflicts w = [] ↔ v.Compatible w := by
  rw [conflicts, List.append_eq_nil_iff, said_eq_nil, said_eq_nil, TokenList.agrees_iff,
    Token.agrees_iff]
  constructor
  · rintro ⟨htype, hname⟩
    exact ⟨htype, hname⟩
  · intro h
    exact ⟨h.type, h.name⟩

end Variable

namespace FunctionDecl

/-- Return type, name and parameter types are the same, and so are the bodies if both have one. -/
structure Compatible (f g : FunctionDecl) : Prop where
  type : TokenList.texts f.typename = TokenList.texts g.typename
  name : f.name.text = g.name.text
  signature : f.signature = g.signature
  bodies (body other : Token) : f.body = some body → g.body = some other → body.text = other.text

variable {f g : FunctionDecl}

theorem Compatible.refl (f : FunctionDecl) : f.Compatible f where
  type := rfl
  name := rfl
  signature := rfl
  bodies body other hbody hother := by
    rw [hbody, Option.some.injEq] at hother
    rw [hother]

theorem Compatible.symm (h : f.Compatible g) : g.Compatible f where
  type := h.type.symm
  name := h.name.symm
  signature := h.signature.symm
  bodies body other hbody hother := (h.bodies other body hother hbody).symm

theorem bodiesDiffer_eq_false_iff : f.bodiesDiffer g = false ↔
    ∀ body other : Token, f.body = some body → g.body = some other → body.text = other.text := by
  unfold bodiesDiffer
  cases f.body with
  | none => simp
  | some body =>
    cases g.body with
    | none => simp
    | some other => simp [Token.agrees_iff]

theorem conflicts_eq_nil_iff : f.conflicts g = [] ↔ f.Compatible g := by
  have hbodies (message : String) :
      (if f.bodiesDiffer g = true then [message] else []) = [] ↔ f.bodiesDiffer g = false := by
    cases f.bodiesDiffer g <;> simp
  rw [conflicts, List.append_eq_nil_iff, List.append_eq_nil_iff, List.append_eq_nil_iff,
    said_eq_nil, said_eq_nil, said_eq_nil, hbodies, TokenList.agrees_iff, Token.agrees_iff,
    beq_iff_eq, bodiesDiffer_eq_false_iff]
  constructor
  · rintro ⟨⟨⟨htype, hname⟩, hsignature⟩, hbodies⟩
    exact ⟨htype, hname, hsignature, hbodies⟩
  · intro h
    exact ⟨⟨⟨h.type, h.name⟩, h.signature⟩, h.bodies⟩

end FunctionDecl

namespace Record

/-- Kind, name and body are the same. -/
structure Compatible (r s : Record) : Prop where
  kind : r.kind.text = s.kind.text
  name : r.name? = s.name?
  body : r.body.text = s.body.text

variable {r s : Record}

theorem Compatible.refl (r : Record) : r.Compatible r := ⟨rfl, rfl, rfl⟩

theorem Compatible.symm (h : r.Compatible s) : s.Compatible r :=
  ⟨h.kind.symm, h.name.symm, h.body.symm⟩

theorem conflicts_eq_nil_iff : r.conflicts s = [] ↔ r.Compatible s := by
  rw [conflicts, List.append_eq_nil_iff, List.append_eq_nil_iff, said_eq_nil, said_eq_nil,
    said_eq_nil, Token.agrees_iff, Token.agrees_iff, beq_iff_eq]
  constructor
  · rintro ⟨⟨hkind, hname⟩, hbody⟩
    exact ⟨hkind, hname, hbody⟩
  · intro h
    exact ⟨⟨h.kind, h.name⟩, h.body⟩

end Record

namespace Details

/-- Declarations of one kind that are compatible, or declarations of different kinds, which are not
compared. -/
def Compatible : Details → Details → Prop
  | .function f, .function g => f.Compatible g
  | .record r, .record s => r.toRecord.Compatible s.toRecord
  | .field v, .field w => v.Compatible w
  | _, _ => True

variable {d e : Details}

theorem Compatible.refl (d : Details) : d.Compatible d := by
  cases d with
  | function f => exact FunctionDecl.Compatible.refl f
  | record r => exact Record.Compatible.refl r.toRecord
  | field v => exact Variable.Compatible.refl v

theorem Compatible.symm (h : d.Compatible e) : e.Compatible d := by
  cases d with
  | function f =>
    cases e with
    | function g => exact FunctionDecl.Compatible.symm h
    | _ => trivial
  | record r =>
    cases e with
    | record s => exact Record.Compatible.symm h
    | _ => trivial
  | field v =>
    cases e with
    | field w => exact Variable.Compatible.symm h
    | _ => trivial

theorem conflicts_eq_nil_iff : d.conflicts e = [] ↔ d.Compatible e := by
  cases d with
  | function f =>
    cases e with
    | function g => exact FunctionDecl.conflicts_eq_nil_iff
    | _ => exact iff_of_true rfl trivial
  | record r =>
    cases e with
    | record s => exact Record.conflicts_eq_nil_iff
    | _ => exact iff_of_true rfl trivial
  | field v =>
    cases e with
    | field w => exact Variable.conflicts_eq_nil_iff
    | _ => exact iff_of_true rfl trivial

end Details

theorem Categories.contains_only {category other : Category} :
    (only category).contains other = true ↔ other = category := by
  rw [contains, List.contains_iff_mem, only, ofTest, List.mem_filter, beq_iff_eq]
  exact and_iff_right (Category.mem_all other)

/-- Some record of the report is of the category. -/
def Report.About (r : Report) (category : Category) : Prop :=
  ∃ w ∈ r, w.categories.contains category = true

namespace Definition

/-- Folding one definition into another gives rise to a report of the category that a sink with the
configuration accepts. -/
def Emits (config : SinkConfig) (d e : Definition) (category : Category) : Prop :=
  ∃ r ∈ d.mergeReports e, config.accepts r = true ∧ r.About category

/-- What a category of reports says about two definitions. -/
def Disagree (d e : Definition) : Category → Prop
  | .kindMismatch => d.kind ≠ e.kind
  | .moduleMismatch => d.module ≠ e.module
  | .detailsMismatch => ¬ d.details.Compatible e.details
  | _ => False

variable {d e : Definition}

theorem Disagree.symm {category : Category} (h : d.Disagree e category) :
    e.Disagree d category := by
  cases category with
  | kindMismatch => exact Ne.symm h
  | moduleMismatch => exact Ne.symm h
  | detailsMismatch => exact fun hcompatible => h hcompatible.symm
  | _ => exact h

theorem not_disagree_self (d : Definition) (category : Category) : ¬ d.Disagree d category := by
  intro h
  cases category with
  | kindMismatch => exact h rfl
  | moduleMismatch => exact h rfl
  | detailsMismatch => exact h (Details.Compatible.refl d.details)
  | _ => exact h

theorem disagree_ranked {category : Category} :
    (d.ranked e).1.Disagree (d.ranked e).2 category ↔ d.Disagree e category := by
  unfold ranked
  split
  · exact ⟨Disagree.symm, Disagree.symm⟩
  · exact Iff.rfl

/-- A conflict is about its category alone, and is accepted if that is enabled. -/
theorem about_conflictReport {category other : Category} {what : String} {winner loser : Definition}
    {messages : List String} :
    (conflictReport category what winner loser messages).About other ↔ other = category := by
  rw [← Categories.contains_only]
  constructor
  · rintro ⟨w, hw, hcontains⟩
    simp only [conflictReport, Report.conflict, List.mem_cons, List.mem_map] at hw
    rcases hw with rfl | rfl | ⟨message, -, rfl⟩
    · exact hcontains
    · exact hcontains
    · exact hcontains
  · intro hcontains
    exact ⟨_, List.mem_cons_self, hcontains⟩

theorem accepts_conflictReport {config : SinkConfig} {category : Category} {what : String}
    {winner loser : Definition} {messages : List String} :
    config.accepts (conflictReport category what winner loser messages) = true ↔
      config.enabled.contains category = true := by
  show config.enabled.members.any (Categories.only category).contains = true ↔ _
  rw [List.any_eq_true, Categories.contains, List.contains_iff_mem]
  constructor
  · rintro ⟨other, hmem, hcontains⟩
    exact Categories.contains_only.1 hcontains ▸ hmem
  · intro hmem
    exact ⟨category, hmem, Categories.contains_only.2 rfl⟩

/-- What a fold gives rise to are conflicts of categories that the two disagree in. -/
theorem exists_eq_conflictReport {r : Report} (hr : r ∈ d.mergeReports e) :
    ∃ category what messages, (d.ranked e).1.Disagree (d.ranked e).2 category ∧
      r = conflictReport category what (d.ranked e).1 (d.ranked e).2 messages := by
  unfold mergeReports at hr
  generalize d.ranked e = sides at hr ⊢
  obtain ⟨winner, loser⟩ := sides
  simp only [List.mem_append] at hr
  rcases hr with (hkind | hmodule) | hdetails
  · split at hkind
    · cases hkind
    · rename_i hne
      exact ⟨.kindMismatch, _, _, fun heq => hne (beq_iff_eq.2 heq), List.mem_singleton.1 hkind⟩
  · split at hmodule
    · cases hmodule
    · rename_i hne
      exact ⟨.moduleMismatch, _, _, fun heq => hne (beq_iff_eq.2 heq),
        List.mem_singleton.1 hmodule⟩
  · split at hdetails
    · cases hdetails
    · rename_i hne
      exact ⟨.detailsMismatch, _, _, fun h => hne (Details.conflicts_eq_nil_iff.2 h),
        List.mem_singleton.1 hdetails⟩

/-- There is a conflict of each category that the two disagree in. -/
theorem exists_mem_mergeReports {category : Category}
    (h : (d.ranked e).1.Disagree (d.ranked e).2 category) :
    ∃ r ∈ d.mergeReports e, ∃ what messages,
      r = conflictReport category what (d.ranked e).1 (d.ranked e).2 messages := by
  unfold mergeReports
  generalize d.ranked e = sides at h ⊢
  obtain ⟨winner, loser⟩ := sides
  simp only [List.mem_append]
  cases category with
  | kindMismatch =>
    have hne : ¬ (winner.kind == loser.kind) = true := fun heq => h (beq_iff_eq.1 heq)
    rw [if_neg hne]
    exact ⟨_, Or.inl (Or.inl (List.mem_singleton_self _)), _, _, rfl⟩
  | moduleMismatch =>
    have hne : ¬ (winner.module == loser.module) = true := fun heq => h (beq_iff_eq.1 heq)
    rw [if_neg hne]
    exact ⟨_, Or.inl (Or.inr (List.mem_singleton_self _)), _, _, rfl⟩
  | detailsMismatch =>
    cases hmessages : winner.details.conflicts loser.details with
    | nil => exact absurd (Details.conflicts_eq_nil_iff.1 hmessages) h
    | cons message rest => exact ⟨_, Or.inr (List.mem_singleton_self _), _, _, rfl⟩
  | ambiguousVisibility => cases h
  | macroExpansion => cases h
  | io => cases h
  | access => cases h

/-- The categories that are emitted are those that the two disagree in and that are enabled. -/
theorem emits_iff {config : SinkConfig} {category : Category} :
    Emits config d e category ↔
      d.Disagree e category ∧ config.enabled.contains category = true := by
  rw [← disagree_ranked]
  constructor
  · rintro ⟨r, hr, haccepts, habout⟩
    obtain ⟨other, what, messages, hdisagree, rfl⟩ := exists_eq_conflictReport hr
    obtain rfl := about_conflictReport.1 habout
    exact ⟨hdisagree, accepts_conflictReport.1 haccepts⟩
  · rintro ⟨hdisagree, henabled⟩
    obtain ⟨_, hmem, what, messages, rfl⟩ := exists_mem_mergeReports hdisagree
    exact ⟨_, hmem, accepts_conflictReport.2 henabled, about_conflictReport.2 rfl⟩

theorem mergeReports_self (d : Definition) : d.mergeReports d = [] := by
  apply List.eq_nil_iff_forall_not_mem.2
  intro r hr
  obtain ⟨category, what, messages, hdisagree, -⟩ := exists_eq_conflictReport hr
  exact not_disagree_self d category (disagree_ranked.1 hdisagree)

theorem isPrivate_merge_eq (d e : Definition) :
    (d.merge e).isPrivate = joinPrivacy d.isPrivate e.isPrivate := by
  unfold merge ranked
  by_cases hlt : d.priority < e.priority
  · simp only [if_pos hlt]
    exact joinPrivacy_comm e.isPrivate d.isPrivate
  · simp only [if_neg hlt]

/-- Whichever of two definitions is folded into the other, and whatever a sink collects: the same
categories are emitted, those that the two disagree in; the merged definitions are private alike,
and, for definitions of one kind, have a body alike. A definition folded into itself gives rise to
no report. -/
theorem conflicts_symmetric (d e : Definition) :
    (∀ config category, (Emits config d e category ↔ Emits config e d category) ∧
        (Emits config d e category ↔
          d.Disagree e category ∧ config.enabled.contains category = true)) ∧
      (d.merge e).isPrivate = (e.merge d).isPrivate ∧
      (d.kind = e.kind → (d.merge e).details.hasBody = (e.merge d).details.hasBody) ∧
      d.mergeReports d = [] := by
  refine ⟨?_, ?_, ?_, mergeReports_self d⟩
  · intro config category
    refine ⟨?_, emits_iff⟩
    rw [emits_iff, emits_iff]
    exact and_congr_left' ⟨Disagree.symm, Disagree.symm⟩
  · rw [isPrivate_merge_eq, isPrivate_merge_eq]
    exact joinPrivacy_comm d.isPrivate e.isPrivate
  · intro hkind
    rw [hasBody_merge hkind, hasBody_merge hkind.symm]
    exact Bool.or_comm d.details.hasBody e.details.hasBody

/-- A public definition with a body and a private prototype of another module and another type. -/
theorem definition_and_prototype_alike :
    let body : Token := { (default : Token) with text := "return 0;" }
    let name : Token := { (default : Token) with text := "f" }
    let f : FunctionDecl := { (default : FunctionDecl) with name, body := some body }
    let g : FunctionDecl := { (default : FunctionDecl) with name, typename := [name] }
    let d : Definition := { (default : Definition) with module := "a", details := .function f }
    let e : Definition :=
      { (default : Definition) with
        module := "b", isPrivate := some true, details := .function g }
    d.kind = e.kind ∧ (d.merge e).details.hasBody = (e.merge d).details.hasBody ∧
      (d.merge e).isPrivate = (e.merge d).isPrivate ∧
      Emits .checker d e .detailsMismatch ∧ Emits .checker e d .detailsMismatch ∧
      ¬ Emits .checker d e .moduleMismatch := by
  intro body name f g d e
  obtain ⟨hemits, hprivate, hbody, -⟩ := conflicts_symmetric d e
  have htype : ¬ d.details.Compatible e.details := fun h =>
    absurd h.type (by decide)
  have hdetails : Emits .checker d e .detailsMismatch :=
    (hemits .checker .detailsMismatch).2.2 ⟨htype, by decide⟩
  refine ⟨rfl, hbody rfl, hprivate, hdetails, (hemits .checker .detailsMismatch).1.1 hdetails, ?_⟩
  intro hmodule
  exact absurd ((hemits .checker .moduleMismatch).2.1 hmodule).2 (by decide)

end Definition

end CBoundary
