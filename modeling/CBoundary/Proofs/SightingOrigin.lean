import CBoundary.Proofs.Sighting
import CBoundary.Proofs.StatementFront

/-!
Where the sightings of a text come from. Reading a list of statements comes to each of them in
turn, and instead of a linkage specification to the statements inside it. A sighting of the list
is a sighting of a statement that is come to, and it has one of a few forms, whichever statement
that is. Main statements: `mem_ofStatements_iff` and `form_of_mem_ofText`.
-/
namespace CBoundary.Sighting

open SourceScan

/-- Reading a list of statements comes to a statement, in the context and with the carried type
that it is read with. -/
inductive ComesTo : ScanContext → TypeCarry → List Statement →
    ScanContext → TypeCarry → Statement → Prop
  | here {c : ScanContext} {carry : TypeCarry} {statement : Statement} {rest : List Statement}
      (hbody : linkageBody? carry statement = none) :
      ComesTo c carry (statement :: rest) c carry statement
  | later {c c' : ScanContext} {carry carry' : TypeCarry} {statement statement' : Statement}
      {rest : List Statement} (hbody : linkageBody? carry statement = none)
      (h : ComesTo c (ofStatement c carry statement).2 rest c' carry' statement') :
      ComesTo c carry (statement :: rest) c' carry' statement'
  /-- Inside a linkage specification. -/
  | inside {c c' : ScanContext} {carry carry' : TypeCarry} {statement statement' : Statement}
      {rest : List Statement} {body : Token} (hbody : linkageBody? carry statement = some body)
      (h : ComesTo (c.nested body.span.start) TypeCarry.idle (Statement.within body)
        c' carry' statement') :
      ComesTo c carry (statement :: rest) c' carry' statement'
  /-- Behind a linkage specification. -/
  | behind {c c' : ScanContext} {carry carry' : TypeCarry} {statement statement' : Statement}
      {rest : List Statement} {body : Token} (hbody : linkageBody? carry statement = some body)
      (h : ComesTo c carry rest c' carry' statement') :
      ComesTo c carry (statement :: rest) c' carry' statement'

namespace ComesTo

variable {c c' : ScanContext} {carry carry' : TypeCarry} {statements : List Statement}
  {statement : Statement}

/-- Going into a linkage specification leaves file and configuration as they are. -/
theorem context (h : ComesTo c carry statements c' carry' statement) :
    c'.config = c.config ∧ c'.scope.file = c.scope.file := by
  induction h with
  | here => exact ⟨rfl, rfl⟩
  | later _ _ ih => exact ih
  | inside _ _ ih => exact ih
  | behind _ _ ih => exact ih

/-- Every statement that is no linkage specification is come to. -/
theorem of_mem (hmem : statement ∈ statements) (hkind : statement.kind ≠ .linkage) :
    ∃ carry', ComesTo c carry statements c carry' statement := by
  induction statements generalizing carry with
  | nil => simp at hmem
  | cons first rest ih =>
    rcases List.mem_cons.1 hmem with rfl | hmem
    · refine ⟨carry, .here ?_⟩
      rw [linkageBody?, if_neg (by simp [hkind])]
    · cases hbody : linkageBody? carry first with
      | none =>
        obtain ⟨carry', h⟩ := @ih (ofStatement c carry first).2 hmem
        exact ⟨carry', .later hbody h⟩
      | some body =>
        obtain ⟨carry', h⟩ := @ih carry hmem
        exact ⟨carry', .behind hbody h⟩

/-- Every statement that is come to is cut as a statement is. -/
theorem cut (h : ComesTo c carry statements c' carry' statement)
    (hcut : ∀ s ∈ statements, Statement.Cut s.tokens) : Statement.Cut statement.tokens := by
  induction h with
  | here => exact hcut _ List.mem_cons_self
  | later _ _ ih => exact ih fun s hs => hcut s (List.mem_cons_of_mem _ hs)
  | inside _ _ ih => exact ih fun s hs => Statement.cut_of_mem_ofTokens hs
  | behind _ _ ih => exact ih fun s hs => hcut s (List.mem_cons_of_mem _ hs)

end ComesTo

/-- Reading a text comes to the statement, at the top of the text or inside linkage
specifications. -/
def Reaches (c : ScanContext) (base : Nat) (text : String) (s : Statement) : Prop :=
  ∃ c' carry', ComesTo c TypeCarry.idle (Statement.ofSource base text) c' carry' s

theorem Reaches.of_mem {c : ScanContext} {base : Nat} {text : String} {s : Statement}
    (hs : s ∈ Statement.ofSource base text) (hkind : s.kind ≠ .linkage) :
    Reaches c base text s := by
  obtain ⟨carry', h⟩ := ComesTo.of_mem hs hkind
  exact ⟨c, carry', h⟩

theorem Reaches.cut {c : ScanContext} {base : Nat} {text : String} {s : Statement}
    (h : Reaches c base text s) : Statement.Cut s.tokens := by
  obtain ⟨c', carry', h⟩ := h
  exact h.cut fun _ hs => Statement.cut_of_mem_ofTokens hs

/-- The sightings of a list of statements are those of the statements that are come to. -/
theorem mem_ofStatements_iff {c : ScanContext} {carry : TypeCarry} {statements : List Statement}
    {x : Sighting} : x ∈ ofStatements c carry statements ↔
      ∃ c' carry' statement, ComesTo c carry statements c' carry' statement ∧
        x ∈ (ofStatement c' carry' statement).1 := by
  constructor
  · intro hx
    fun_induction ofStatements c carry statements with
    | case1 => simp at hx
    | case2 c carry statement rest body hbody ihinside ihrest =>
      rcases List.mem_append.1 hx with hx | hx
      · obtain ⟨c', carry', statement', h, hx⟩ := ihinside hx
        exact ⟨c', carry', statement', .inside hbody h, hx⟩
      · obtain ⟨c', carry', statement', h, hx⟩ := ihrest hx
        exact ⟨c', carry', statement', .behind hbody h, hx⟩
    | case3 c carry statement rest hbody ihrest =>
      rcases List.mem_append.1 hx with hx | hx
      · exact ⟨c, carry, statement, .here hbody, hx⟩
      · obtain ⟨c', carry', statement', h, hx⟩ := ihrest hx
        exact ⟨c', carry', statement', .later hbody h, hx⟩
  · rintro ⟨c', carry', statement, h, hx⟩
    induction h with
    | here hbody =>
      rw [ofStatements]
      split
      · simp_all
      · exact List.mem_append_left _ hx
    | later hbody _ ih =>
      rw [ofStatements]
      split
      · simp_all
      · exact List.mem_append_right _ (ih hx)
    | inside hbody _ ih =>
      rw [ofStatements]
      split
      · rename_i body' hbody'
        obtain rfl := Option.some.inj (hbody.symm.trans hbody')
        exact List.mem_append_left _ (ih hx)
      · simp_all
    | behind hbody _ ih =>
      rw [ofStatements]
      split
      · exact List.mem_append_right _ (ih hx)
      · simp_all

theorem ofText_singleton {c : ScanContext} {base : Nat} {text : String} {s : Statement}
    (h : Statement.ofSource base text = [s])
    (hbody : SourceScan.linkageBody? TypeCarry.idle s = none) :
    ofText c base text = (ofStatement c TypeCarry.idle s).1 := by
  rw [ofText, h, ofStatements]
  split
  · simp_all
  · rw [ofStatements, List.append_nil]

/-- The forms of the sightings that are made in a context. Each definition takes its visibility
from the comments of its declaration. -/
inductive HasForm (c : ScanContext) : Sighting → Prop
  | function (f : FunctionDecl) :
      HasForm c (.function (Definition.ofSighting f.name.text c.scope f.name.span.start
        (Visibility.resolve c f.preComment f.postComment f.name.text false) (.function f)))
  | record (r : RecordDecl) (name : Token) (hname : r.name = some name) :
      HasForm c (.record (Definition.ofSighting name.text c.scope name.span.start
        (Visibility.resolve c r.preComment r.postComment name.text true) (.record r)))
  | field (owner : String) (v : Variable) :
      HasForm c (.field owner (Definition.ofSighting v.name.text c.scope v.name.span.start
        (Visibility.resolve c v.preComment v.postComment v.name.text true) (.field v)))
  | typedef (name target : String) : HasForm c (.typedef name target)
  | macroDefinition (d : MacroDefinition) : HasForm c (.macroDefinition d)
  | remark (preComment postComment : Option Token) (name : String) (offset : Nat)
      (useNaming : Bool) :
      HasForm c (.remark (Visibility.reports c preComment postComment name offset useNaming))

variable {c : ScanContext} {x : Sighting}

theorem form_of_mem_ofFunction {f : FunctionDecl} (hx : x ∈ ofFunction c f) : HasForm c x := by
  rcases List.mem_cons.1 hx with rfl | hx
  · exact .remark _ _ _ _ _
  · obtain rfl := List.mem_singleton.1 hx
    exact .function f

theorem form_of_mem_ofMember {owner : String} {v : Variable} (hx : x ∈ ofMember c owner v) :
    HasForm c x := by
  rcases List.mem_cons.1 hx with rfl | hx
  · exact .remark _ _ _ _ _
  · obtain rfl := List.mem_singleton.1 hx
    exact .field owner v

theorem form_of_mem_ofRecord {r : Record} (hx : x ∈ ofRecord c r) : HasForm c x := by
  unfold ofRecord at hx
  split at hx
  · simp at hx
  · rename_i name hname
    rcases List.mem_append.1 hx with hx | hx
    · rcases List.mem_append.1 hx with hx | hx
      · rcases List.mem_cons.1 hx with rfl | hx
        · exact .remark _ _ _ _ _
        · obtain ⟨v, -, hx⟩ := List.mem_flatMap.1 hx
          exact form_of_mem_ofMember hx
      · obtain ⟨v, -, rfl⟩ := List.mem_map.1 hx
        exact .typedef _ _
    · obtain rfl := List.mem_singleton.1 hx
      exact .record { r with nested := [] } name hname

theorem form_of_mem_ofRecordDecl {r : RecordDecl} (hx : x ∈ ofRecordDecl c r) :
    HasForm c x := by
  unfold ofRecordDecl at hx
  split at hx
  · simp at hx
  · rcases List.mem_append.1 hx with hx | hx
    · exact form_of_mem_ofRecord hx
    · obtain ⟨inner, -, hx⟩ := List.mem_flatMap.1 hx
      exact form_of_mem_ofRecord hx

theorem form_of_mem_ofTypedef {v : Variable} (hx : x ∈ ofTypedef v) : HasForm c x := by
  unfold ofTypedef at hx
  split at hx
  · simp at hx
  · obtain rfl := List.mem_singleton.1 hx
    exact .typedef _ _

theorem form_of_mem_ofDeclaration {f : Option FunctionDecl}
    (hx : x ∈ (f.map (ofFunction c)).getD []) : HasForm c x := by
  cases f with
  | none => simp at hx
  | some f => exact form_of_mem_ofFunction hx

theorem form_of_mem_ofStatement {carry : TypeCarry} {statement : Statement}
    (hx : x ∈ (ofStatement c carry statement).1) : HasForm c x := by
  unfold ofStatement at hx
  simp only at hx
  split at hx
  · obtain ⟨d, -, rfl⟩ := List.mem_map.1 hx
    exact .macroDefinition d
  · split at hx
    · split at hx
      · exact form_of_mem_ofTypedef hx
      · simp at hx
    · split at hx
      · exact form_of_mem_ofDeclaration hx
      · exact form_of_mem_ofDeclaration hx
      · split at hx
        · exact form_of_mem_ofRecordDecl hx
        · simp at hx
      · simp at hx

/-- A sighting of a text has one of the forms, in a context of the same file and
configuration. -/
theorem form_of_mem_ofText {base : Nat} {text : String} (hx : x ∈ ofText c base text) :
    ∃ c' : ScanContext, c'.config = c.config ∧ c'.scope.file = c.scope.file ∧ HasForm c' x := by
  obtain ⟨c', carry', statement, h, hx⟩ := mem_ofStatements_iff.1 hx
  exact ⟨c', h.context.1, h.context.2, form_of_mem_ofStatement hx⟩

end CBoundary.Sighting
