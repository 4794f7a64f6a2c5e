import CBoundary.Proofs.Gathering
import CBoundary.Proofs.NamePlacement
import CBoundary.Proofs.RecordBody

/-!
How far an annotation reaches. Functions, records and members are declared by statements, those
inside records at any depth included. A declaration takes the first of the comments in front of its
first code token for its own, so an annotation there decides whether the declaration is private, and
with it what the symbol table says. Main statements: `exists_sighting`, `exists_declares` and
`annotation_decides`.
-/
namespace CBoundary

open AdjacentComment Statement

namespace FunctionDecl

/-- Annotation words are code, so a comment in front of the first code token stays in front. -/
theorem leading_withoutAnnotations {annotations : List String} {tokens : List Token} {k : Token}
    (h : (front tokens).head? = some k) :
    (leading (withoutAnnotations annotations false tokens)).1 = some k := by
  induction tokens with
  | nil => simp [front] at h
  | cons t rest ih =>
    have htrivia : t.kind.isTrivia = true := by
      cases hother : t.kind.isTrivia with
      | true => rfl
      | false => simp [front_cons_other rest hother] at h
    have hkept : withoutAnnotations annotations false (t :: rest) =
        t :: withoutAnnotations annotations false rest := by
      have hword : Keyword.isWordAmong annotations t = false := by
        cases hkind : t.kind <;> simp_all [Keyword.isWordAmong, TokenKind.isTrivia,
          TokenKind.isSpace, TokenKind.isComment]
      simp [withoutAnnotations, hword]
    rw [hkept]
    rcases TokenKind.isTrivia_iff.1 htrivia with hspace | hcomment
    · rw [leading_cons_space _ hspace]
      exact ih (by rwa [front_cons_space rest hspace] at h)
    · rw [front_cons_comment rest hcomment, List.head?_cons] at h
      rw [leading_cons_comment _ hcomment, h]

variable {annotations : List String} {tokens : List Token} {f : FunctionDecl}

theorem preComment_of_front (hf : ofTokens? annotations tokens = some f) {k : Token}
    (h : (front tokens).head? = some k) : f.preComment = some k := by
  simp only [ofTokens?, Option.bind_eq_bind, Option.bind_eq_some_iff, Option.pure_def,
    Option.some.injEq] at hf
  obtain ⟨parameters, -, name, -, rfl⟩ := hf
  exact leading_withoutAnnotations h

theorem any_isCode (hf : ofTokens? annotations tokens = some f) :
    tokens.any Token.isCode = true := by
  simp only [ofTokens?, Option.bind_eq_bind, Option.bind_eq_some_iff, Option.pure_def,
    Option.some.injEq, Option.filter_eq_some_iff] at hf
  obtain ⟨parameters, -, name, ⟨hname, -⟩, -⟩ := hf
  obtain ⟨hmem, hcode⟩ := List.mem_filter.1 (List.mem_of_getLast? hname)
  have hkept := List.mem_of_mem_drop ((List.takeWhile_prefix _).subset hmem)
  exact List.any_eq_true.2 ⟨name, withoutAnnotations_subset annotations false hkept, hcode⟩

end FunctionDecl

namespace Variable

variable {tokens : List Token} {v : Variable}

theorem preComment_eq (hv : ofTokens? tokens = some v) :
    v.preComment = (front tokens).head? := by
  simp only [ofTokens?, Option.bind_eq_bind, Option.bind_eq_some_iff, Option.pure_def,
    Option.some.injEq, Prod.exists] at hv
  obtain ⟨state, -, typename, name, -, rfl⟩ := hv
  exact leading_fst tokens

/-- Without code, reading a declarator stays where it starts. -/
theorem foldlM_step_of_not_isCode {d : DeclaratorState}
    (h : ∀ t ∈ tokens, t.isCode = false ∧ t.isSeparator = false) :
    tokens.foldlM DeclaratorState.step d = some d := by
  induction tokens with
  | nil => rfl
  | cons t rest ih =>
    have hstep : d.step t = some d := by
      obtain ⟨hcode, hseparator⟩ := h t List.mem_cons_self
      have hskipped : (t.kind.isTrivia || t.kind == .directive) = true := by
        cases htrivia : t.kind.isTrivia <;> simp_all [Token.isCode]
      rw [DeclaratorState.step, if_pos (by simp [Bool.or_assoc, hskipped])]
    rw [List.foldlM_cons, hstep]
    exact ih fun u hu => h u (List.mem_cons_of_mem t hu)

theorem any_isCode (hv : ofTokens? tokens = some v) : tokens.any Token.isCode = true := by
  cases hany : tokens.any Token.isCode with
  | true => rfl
  | false =>
    have hcode : ∀ t ∈ tokens, t.isCode = false := by simpa using hany
    simp only [ofTokens?, Option.bind_eq_bind, Option.bind_eq_some_iff, Prod.exists] at hv
    obtain ⟨state, hstate, typename, name, hname, -⟩ := hv
    rw [foldlM_step_of_not_isCode] at hstate
    · obtain rfl := Option.some.inj hstate
      simp [DeclaratorState.start, DeclaratorState.typeAndName?] at hname
    · intro t ht
      have hmem := List.mem_of_mem_drop ((List.takeWhile_prefix _).subset ht)
      exact ⟨hcode t hmem, by simpa using List.all_eq_true.1 List.all_takeWhile t ht⟩

end Variable

namespace Record

variable {parent : Option String} {tokens : List Token} {r : Record}

theorem preComment_eq (hr : header? parent tokens = some r) :
    r.preComment = (front tokens).head? := by
  simp only [header?, Option.bind_eq_bind, Option.bind_eq_some_iff, Option.pure_def,
    Option.some.injEq, Prod.exists] at hr
  obtain ⟨isTypedef, kind, behindKind, -, tag, body, behindBody, -, rfl⟩ := hr
  exact leading_fst tokens

/-- The variables behind a record share its comment. -/
theorem preComment_declared (hr : header? parent tokens = some r) {v : Variable}
    (hv : v ∈ r.declared) : v.preComment = r.preComment := by
  simp only [header?, Option.bind_eq_bind, Option.bind_eq_some_iff, Option.pure_def,
    Option.some.injEq, Prod.exists] at hr
  obtain ⟨isTypedef, kind, behindKind, -, tag, body, behindBody, -, rfl⟩ := hr
  simp only at hv
  split at hv
  · simp at hv
  · obtain ⟨name, -, rfl⟩ := List.mem_map.1 hv
    rfl

theorem any_isCode (hr : header? parent tokens = some r) : tokens.any Token.isCode = true := by
  obtain ⟨t, ht, hinner⟩ := header?_body hr
  refine List.any_eq_true.2 ⟨t, ht, ?_⟩
  unfold Token.interior? at hinner
  split at hinner
  · rename_i hkind _
    simp [Token.isCode, hkind, TokenKind.isTrivia, TokenKind.isSpace, TokenKind.isComment,
      Token.isSeparator, Token.isPunct]
  · simp at hinner

theorem HasMember.preComment {s u : Statement} {v : Variable} (h : HasMember s u v) :
    v.preComment = (front u.tokens).head? := by
  induction h with
  | plain _ _ hv => exact Variable.preComment_eq hv
  | declared _ hr hv => rw [preComment_declared hr hv, preComment_eq hr]
  | joined _ _ _ _ _ ih => exact ih

theorem HasMember.any_isCode {s u : Statement} {v : Variable} (h : HasMember s u v) :
    u.tokens.any Token.isCode = true := by
  induction h with
  | plain _ _ hv => exact Variable.any_isCode hv
  | declared _ hr _ => exact Record.any_isCode hr
  | joined _ _ _ _ _ ih => exact ih

theorem InBody.cut {s t : Statement} (h : InBody s t) : Cut t.tokens := by
  obtain ⟨r, -, ht⟩ := h
  exact cut_of_mem_ofTokens ht

theorem HasMember.cut {s u : Statement} {v : Variable} (h : HasMember s u v) : Cut u.tokens := by
  induction h with
  | plain hbody _ _ => exact hbody.cut
  | declared hinner _ _ => exact hinner.1.cut
  | joined _ _ _ _ _ ih => exact ih

end Record

namespace Sighting

/-- Reading a text comes to the statement while no list of typedef names is being read, so the
statement counts for what it is. -/
def ReadsAlone (c : ScanContext) (base : Nat) (text : String) (s : Statement) : Prop :=
  ∃ c' carry', ComesTo c TypeCarry.idle (Statement.ofSource base text) c' carry' s ∧
    carry'.isCarrying = false

/-- The statement defines a record of the name, by itself or inside a record with a name that the
text defines. -/
def DefinesRecord (c : ScanContext) (base : Nat) (text : String) (t : Statement) (name : Token) :
    Prop :=
  ∃ s outer r, ReadsAlone c base text s ∧ s.kind.isRecord = true ∧
    Record.header? none s.tokens = some outer ∧ outer.name.isSome = true ∧
    Relation.ReflTransGen Record.Encloses s t ∧
    Record.header? none t.tokens = some r ∧ r.name = some name

/-- The statement declares what the symbol table keeps at the place. -/
inductive Declares (c : ScanContext) (base : Nat) (text : String) : Statement → Place → Prop
  | function {s : Statement} {f : FunctionDecl} (hread : ReadsAlone c base text s)
      (hkind : s.kind.isFunction = true)
      (hf : FunctionDecl.ofTokens? c.config.annotations s.tokens = some f) :
      Declares c base text s (.function f.name.text)
  | record {t : Statement} {name : Token} (h : DefinesRecord c base text t name) :
      Declares c base text t (.record name.text)
  | member {t u : Statement} {name : Token} {v : Variable}
      (h : DefinesRecord c base text t name) (hmember : Record.HasMember t u v) :
      Declares c base text u (.field name.text v.name.text)

variable {c : ScanContext} {base : Nat} {text : String}

theorem ReadsAlone.reaches {s : Statement} (h : ReadsAlone c base text s) :
    Reaches c base text s := by
  obtain ⟨c', carry', h, -⟩ := h
  exact ⟨c', carry', h⟩

theorem ReadsAlone.of_head? {s : Statement} (h : (Statement.ofSource base text).head? = some s)
    (hbody : SourceScan.linkageBody? TypeCarry.idle s = none) : ReadsAlone c base text s := by
  obtain ⟨rest, hrest⟩ := List.head?_eq_some_iff.1 h
  refine ⟨c, TypeCarry.idle, ?_, rfl⟩
  rw [hrest]
  exact .here hbody

theorem DefinesRecord.cut {t : Statement} {name : Token} (h : DefinesRecord c base text t name) :
    Cut t.tokens := by
  obtain ⟨s, outer, r, hread, -, -, -, hreach, -⟩ := h
  rcases Relation.ReflTransGen.cases_tail hreach with rfl | ⟨u, -, hencloses⟩
  · exact hread.reaches.cut
  · exact hencloses.1.cut

/-- A statement that declares has a first code token, and only trivia in front of it. -/
theorem Declares.front_eq {s : Statement} {p : Place} (h : Declares c base text s p) :
    front s.tokens = beforeCode s.tokens := by
  cases h with
  | function hread _ hf => exact hread.reaches.cut.front_eq (FunctionDecl.any_isCode hf)
  | record h =>
    have hcut := h.cut
    obtain ⟨_, _, _, -, -, -, -, -, hr, -⟩ := h
    exact hcut.front_eq (Record.any_isCode hr)
  | member _ hmember => exact hmember.cut.front_eq hmember.any_isCode

theorem ofStatement_of_isFunction {carry : TypeCarry} {s : Statement}
    (hcarry : carry.isCarrying = false) (hkind : s.kind.isFunction = true) :
    (ofStatement c carry s).1 =
      ((FunctionDecl.ofTokens? c.config.annotations s.tokens).map (ofFunction c)).getD [] := by
  unfold ofStatement
  cases hs : s.kind <;> simp_all [StatementKind.isFunction]

theorem ofStatement_of_isRecord {carry : TypeCarry} {s : Statement}
    (hcarry : carry.isCarrying = false) (hkind : s.kind.isRecord = true) :
    (ofStatement c carry s).1 =
      ((RecordDecl.ofStatement? s).map (ofRecordDecl c)).getD [] := by
  unfold ofStatement
  cases hs : s.kind <;> simp_all [StatementKind.isRecord]
  cases RecordDecl.ofStatement? s <;> rfl

/-- Only functions and records make sightings of definitions. -/
theorem kind_of_entry? {carry : TypeCarry} {s : Statement} {x : Sighting} {e : Place × Definition}
    (hx : x ∈ (ofStatement c carry s).1) (hentry : x.entry? = some e) :
    carry.isCarrying = false ∧ (s.kind.isFunction = true ∨ s.kind.isRecord = true) := by
  unfold ofStatement at hx
  simp only at hx
  split at hx
  · obtain ⟨d, -, rfl⟩ := List.mem_map.1 hx
    simp [Sighting.entry?] at hentry
  · rename_i hdirective
    split at hx
    · split at hx
      · unfold ofTypedef at hx
        split at hx
        · simp at hx
        · obtain rfl := List.mem_singleton.1 hx
          simp [Sighting.entry?] at hentry
      · simp at hx
    · rename_i hcarry
      simp only [Bool.or_eq_true, not_or, Bool.not_eq_true] at hcarry
      refine ⟨hcarry.1, ?_⟩
      split at hx
      · rename_i hkind
        exact Or.inl (by rw [hkind]; rfl)
      · rename_i hkind
        exact Or.inl (by rw [hkind]; rfl)
      · rename_i hkind
        exact Or.inr (by rw [hkind]; rfl)
      · simp at hx

theorem ofRecordDecl_eq {r : RecordDecl} (hname : r.name.isSome = true) :
    ofRecordDecl c r = r.listed.flatMap (ofRecord c) := by
  have hnone : r.name.isNone = false := by simpa [Option.isNone_iff_eq_none] using hname
  rw [ofRecordDecl, hnone, RecordDecl.listed, if_pos hname]
  simp

/-- The sightings of a record with definitions are those of the record and of its members. -/
theorem entry_of_mem_ofRecord {r : Record} {x : Sighting} {p : Place} {d : Definition}
    (hx : x ∈ ofRecord c r) (hentry : x.entry? = some (p, d)) :
    ∃ name, r.name = some name ∧
      ((p = .record name.text ∧ d.details.preComment = r.preComment) ∨
        ∃ v ∈ r.members, p = .field name.text v.name.text ∧
          d.details.preComment = v.preComment) := by
  unfold ofRecord at hx
  split at hx
  · simp at hx
  · rename_i name hname
    refine ⟨name, hname, ?_⟩
    rcases List.mem_append.1 hx with hx | hx
    · rcases List.mem_append.1 hx with hx | hx
      · rcases List.mem_cons.1 hx with rfl | hx
        · simp [Sighting.entry?] at hentry
        · obtain ⟨v, hv, hx⟩ := List.mem_flatMap.1 hx
          rcases List.mem_cons.1 hx with rfl | hx
          · simp [Sighting.entry?] at hentry
          · obtain rfl := List.mem_singleton.1 hx
            obtain ⟨rfl, rfl⟩ := Prod.mk.inj (Option.some.inj hentry)
            exact Or.inr ⟨v, hv, rfl, rfl⟩
      · obtain ⟨v, -, rfl⟩ := List.mem_map.1 hx
        simp [Sighting.entry?] at hentry
    · obtain rfl := List.mem_singleton.1 hx
      obtain ⟨rfl, rfl⟩ := Prod.mk.inj (Option.some.inj hentry)
      exact Or.inl ⟨rfl, rfl⟩

theorem record_entry_mem_ofRecord {r : Record} {name : Token} (hname : r.name = some name) :
    ∃ x ∈ ofRecord c r, ∃ d, x.entry? = some (.record name.text, d) ∧
      d.details = .record { r with nested := [] } := by
  unfold ofRecord
  rw [hname]
  exact ⟨_, List.mem_append_right _ (List.mem_singleton_self _), _, rfl, rfl⟩

theorem field_entry_mem_ofRecord {r : Record} {name : Token} (hname : r.name = some name)
    {v : Variable} (hv : v ∈ r.members) :
    ∃ x ∈ ofRecord c r, ∃ d, x.entry? = some (.field name.text v.name.text, d) ∧
      d.details = .field v := by
  unfold ofRecord
  rw [hname]
  refine ⟨_, List.mem_append_left _ (List.mem_append_left _ (List.mem_cons_of_mem _
    (List.mem_flatMap.2 ⟨v, hv, List.mem_cons_of_mem _ (List.mem_singleton_self _)⟩))), _, rfl, rfl⟩

/-- A record that a text defines is read, and its sightings are among those of the text. -/
theorem DefinesRecord.exists_found {t : Statement} {name : Token}
    (h : DefinesRecord c base text t name) :
    ∃ (c' : ScanContext) (parent : Option String) (found : RecordDecl),
      RecordDecl.ofTokens? parent t.tokens = some found ∧ found.name = some name ∧
        ofRecord c' found.toRecord ⊆ ofText c base text := by
  obtain ⟨s, outer, r, ⟨c', carry', hcome, hcarry⟩, hkind, houter, hnamed, hreach, hr, hname⟩ := h
  obtain ⟨decl, hdecl⟩ := RecordDecl.exists_ofTokens? none (Option.isSome_of_eq_some houter)
  obtain ⟨header, hread⟩ := RecordDecl.exists_readAs hdecl
  obtain rfl := Option.some.inj (houter.symm.trans hread.head)
  obtain ⟨parent, found, hfound, hlisted⟩ :=
    RecordDecl.exists_mem_listed hdecl hreach hr (Option.isSome_of_eq_some hname)
  obtain ⟨head, hreadFound⟩ := RecordDecl.exists_readAs hfound
  obtain rfl := Option.some.inj (hr.symm.trans hreadFound.head)
  refine ⟨c', parent, found, hfound, hreadFound.name.trans hname, ?_⟩
  intro x hx
  refine mem_ofStatements_iff.2 ⟨c', carry', s, hcome, ?_⟩
  rw [ofStatement_of_isRecord hcarry hkind, RecordDecl.ofStatement?, hdecl, Option.map_some,
    Option.getD_some, ofRecordDecl_eq (hread.name ▸ hnamed)]
  exact List.mem_flatMap.2 ⟨found.toRecord, hlisted, hx⟩

/-- What a statement declares is sighted with the first comment in front of the statement. -/
theorem exists_sighting {s : Statement} {p : Place} (h : Declares c base text s p) :
    ∃ x ∈ ofText c base text, ∃ d, x.entry? = some (p, d) ∧
      ∀ k, (front s.tokens).head? = some k → d.details.preComment = some k := by
  cases h with
  | @function _ f hread hkind hf =>
    obtain ⟨c', carry', hcome, hcarry⟩ := hread
    rw [← hcome.context.1] at hf
    have hmem : ofFunction c' f ⊆ ofText c base text := by
      intro x hx
      refine mem_ofStatements_iff.2 ⟨c', carry', s, hcome, ?_⟩
      rwa [ofStatement_of_isFunction hcarry hkind, hf, Option.map_some, Option.getD_some]
    have hsighted := hmem (List.mem_cons_of_mem _ (List.mem_singleton_self _))
    exact ⟨_, hsighted, _, rfl, fun k hk => FunctionDecl.preComment_of_front hf hk⟩
  | record h =>
    obtain ⟨c', parent, found, hfound, hname, hsub⟩ := h.exists_found
    obtain ⟨header, hread⟩ := RecordDecl.exists_readAs hfound
    obtain ⟨x, hx, d, hentry, hdetails⟩ := record_entry_mem_ofRecord (c := c') hname
    have hfirst : d.details.preComment = (front s.tokens).head? := by
      rw [hdetails, Details.preComment, hread.preComment, Record.preComment_eq hread.head]
    exact ⟨x, hsub hx, d, hentry, fun k hk => hfirst.trans hk⟩
  | member h hmember =>
    obtain ⟨c', parent, found, hfound, hname, hsub⟩ := h.exists_found
    obtain ⟨w, hw, huntyped⟩ := List.mem_map.1 (RecordDecl.mem_members hfound hmember)
    obtain ⟨hwname, hwcomment⟩ := Variable.of_untyped_eq huntyped
    obtain ⟨x, hx, d, hentry, hdetails⟩ := field_entry_mem_ofRecord (c := c') hname hw
    have hfirst : d.details.preComment = (front s.tokens).head? := by
      rw [hdetails, Details.preComment, hwcomment, hmember.preComment]
    exact ⟨x, hsub hx, d, hwname ▸ hentry, fun k hk => hfirst.trans hk⟩

/-- Every sighting of a definition is that of a statement which declares it. -/
theorem exists_declares {x : Sighting} (hx : x ∈ ofText c base text) {p : Place} {d : Definition}
    (hentry : x.entry? = some (p, d)) :
    ∃ s, Declares c base text s p ∧
      ∀ k, (front s.tokens).head? = some k → d.details.preComment = some k := by
  obtain ⟨c', carry', s, hcome, hx⟩ := mem_ofStatements_iff.1 hx
  obtain ⟨hcarry, hkind⟩ := kind_of_entry? hx hentry
  have hread : ReadsAlone c base text s := ⟨c', carry', hcome, hcarry⟩
  rcases hkind with hkind | hkind
  · rw [ofStatement_of_isFunction hcarry hkind, hcome.context.1] at hx
    cases hf : FunctionDecl.ofTokens? c.config.annotations s.tokens with
    | none => simp [hf] at hx
    | some f =>
      rw [hf, Option.map_some, Option.getD_some] at hx
      rcases List.mem_cons.1 hx with rfl | hx
      · simp [Sighting.entry?] at hentry
      · obtain rfl := List.mem_singleton.1 hx
        obtain ⟨rfl, rfl⟩ := Prod.mk.inj (Option.some.inj hentry)
        exact ⟨s, .function hread hkind hf, fun k hk => FunctionDecl.preComment_of_front hf hk⟩
  · rw [ofStatement_of_isRecord hcarry hkind] at hx
    cases hdecl : RecordDecl.ofStatement? s with
    | none => simp [hdecl] at hx
    | some decl =>
      rw [hdecl, Option.map_some, Option.getD_some] at hx
      have hnamed : decl.name.isSome = true := by
        cases hname : decl.name with
        | none => simp [ofRecordDecl, hname] at hx
        | some name => rfl
      rw [ofRecordDecl_eq hnamed] at hx
      obtain ⟨inner, hinner, hx⟩ := List.mem_flatMap.1 hx
      obtain ⟨outer, hreadOuter⟩ := RecordDecl.exists_readAs hdecl
      obtain ⟨t, parent, found, hreach, hfound, -, rfl⟩ :=
        RecordDecl.exists_of_mem_listed hdecl hinner
      obtain ⟨header, hreadFound⟩ := RecordDecl.exists_readAs hfound
      obtain ⟨name, hname, hentry⟩ := entry_of_mem_ofRecord hx hentry
      have hdefines : DefinesRecord c base text t name :=
        ⟨s, outer, header, hread, hkind, hreadOuter.head, hreadOuter.name ▸ hnamed, hreach,
          hreadFound.head, hreadFound.name ▸ hname⟩
      rcases hentry with ⟨rfl, hcomment⟩ | ⟨v, hv, rfl, hcomment⟩
      · have hfirst : d.details.preComment = (front t.tokens).head? := by
          rw [hcomment, hreadFound.preComment, Record.preComment_eq hreadFound.head]
        exact ⟨t, .record hdefines, fun k hk => hfirst.trans hk⟩
      · obtain ⟨u, w, hmember, huntyped⟩ :=
          RecordDecl.exists_hasMember hfound (List.mem_map_of_mem hv)
        obtain ⟨hwname, hwcomment⟩ := Variable.of_untyped_eq huntyped
        have hfirst : d.details.preComment = (front u.tokens).head? := by
          rw [hcomment, ← hwcomment, hmember.preComment]
        exact ⟨u, hwname ▸ .member hdefines hmember, fun k hk => hfirst.trans hk⟩

/-- An annotation in the comment that a definition takes for its own decides its privacy. -/
theorem isPrivate_of_annotation {x : Sighting} (hx : x ∈ ofText c base text) {p : Place}
    {d : Definition} (hentry : x.entry? = some (p, d)) {k : Token}
    (hcomment : d.details.preComment = some k) {a : Mark} (ha : Mark.find? k.chars = some a) :
    d.isPrivate = some a.isPrivate := by
  have hresolve (c' : ScanContext) (post : Option Token) (name : String) (useNaming : Bool) :
      (Visibility.resolve c' (some k) post name useNaming).isPrivate = some a.isPrivate := by
    simp [Visibility.resolve, Visibility.mark?, Mark.ofComment?, ha]
  obtain ⟨c', -, -, hform⟩ := form_of_mem_ofText hx
  cases hform <;> simp only [Sighting.entry?, Option.some.injEq, Prod.mk.injEq, reduceCtorEq]
    at hentry
  all_goals
    obtain ⟨-, rfl⟩ := hentry
    simp only [Definition.ofSighting, Details.preComment] at hcomment ⊢
    rw [hcomment, hresolve]

end Sighting

namespace History

open Sighting

/-- Once a sighting says whether a definition is private, the table says so too. -/
theorem exists_isPrivate (h : History) {x : Sighting} (hx : x ∈ h.sightings) {p : Place}
    {d : Definition} (hentry : x.entry? = some (p, d)) (hd : d.isPrivate.isSome = true) :
    ∃ e, h.codebase.definition? p = some e ∧ e.isPrivate.isSome = true := by
  have hjoin (a b : Gathered) :
      (a.join b).isPrivate.isSome = (a.isPrivate.isSome || b.isPrivate.isSome) := by
    rcases a with ⟨_ | _ | _, _⟩ <;> rcases b with ⟨_ | _ | _, _⟩ <;> rfl
  have hany : (gatheredAt p h.sightings).any (fun g => g.isPrivate.isSome) = true := by
    rw [gatheredAt, any_combined hjoin, List.any_eq_true]
    refine ⟨x, hx, ?_⟩
    rw [definitionAt?_eq_some_iff.2 hentry]
    exact hd
  rw [← h.gathered_eq, Option.any_map, Option.any_eq_true] at hany
  exact hany

end History

namespace Reading

open Sighting

/-- The only comment in front of the first code token carries the annotation. -/
def AnnotatedBy (s : Statement) (a : Mark) : Prop :=
  ∃ k, beforeCode s.tokens = [k] ∧ Mark.find? k.chars = some a

/-- A statement that has its annotation in the only comment in front of it is sighted with the
privacy of the annotation, and so it is in every table that the text went into, unless another
sighting of the same name is private. Every sighting of a definition is that of such a statement,
or of one without an annotation there. -/
theorem annotation_decides (r : Reading) :
    (∀ s p a, Declares r.context r.base r.text s p → AnnotatedBy s a →
      (∃ x ∈ r.sightings, ∃ d, x.entry? = some (p, d) ∧ d.isPrivate = some a.isPrivate) ∧
      ∀ h : History, r ∈ h.readings → ∃ d, h.codebase.definition? p = some d ∧
        (d.isPrivate = some a.isPrivate ∨
          d.isPrivate = some true ∧
            ∃ x ∈ h.sightings, ∃ e, x.entry? = some (p, e) ∧ e.isPrivate = some true)) ∧
    ∀ x ∈ r.sightings, ∀ p d, x.entry? = some (p, d) →
      ∃ s, Declares r.context r.base r.text s p ∧
        ∀ a, AnnotatedBy s a → d.isPrivate = some a.isPrivate := by
  constructor
  · rintro s p a hdeclares ⟨k, hbefore, ha⟩
    have hfirst : (front s.tokens).head? = some k := by
      rw [hdeclares.front_eq, hbefore, List.head?_cons]
    obtain ⟨x, hx, d, hentry, hcomment⟩ := exists_sighting hdeclares
    have hprivate := isPrivate_of_annotation hx hentry (hcomment k hfirst) ha
    refine ⟨⟨x, hx, d, hentry, hprivate⟩, ?_⟩
    intro h hr
    have hmem : x ∈ h.sightings := List.mem_flatMap.2 ⟨r, hr, hx⟩
    obtain ⟨e, he, hsome⟩ := h.exists_isPrivate hmem hentry (by rw [hprivate]; rfl)
    refine ⟨e, he, ?_⟩
    cases hkept : e.isPrivate with
    | none => simp [hkept] at hsome
    | some b =>
      cases b with
      | true =>
        have hlisted := (h.privateAt_iff p).1 ⟨e, he, hkept⟩
        exact Or.inr ⟨rfl, hlisted⟩
      | false =>
        cases hside : a.isPrivate with
        | false => exact Or.inl rfl
        | true =>
          obtain ⟨e', he', htrue⟩ := (h.privateAt_iff p).2 ⟨x, hmem, d, hentry, hside ▸ hprivate⟩
          obtain rfl := Option.some.inj (he.symm.trans he')
          simp [hkept] at htrue
  · intro x hx p d hentry
    obtain ⟨s, hdeclares, hcomment⟩ := exists_declares hx hentry
    refine ⟨s, hdeclares, ?_⟩
    rintro a ⟨k, hbefore, ha⟩
    have hfirst : (front s.tokens).head? = some k := by
      rw [hdeclares.front_eq, hbefore, List.head?_cons]
    exact isPrivate_of_annotation hx hentry (hcomment k hfirst) ha

-- the facts about the statements inside one another make a large proposition to decide
set_option synthInstance.maxSize 1000 in
/-- A public member of a record inside a private one. -/
theorem annotated_member_public :
    ∃ s, Declares default 0
        "/* #private */\nstruct s \x7b\n  struct t \x7b\n    /* #public(X) */ int a;\n  \x7d u;\n\x7d;\n"
        s (.field "t" "a") ∧ AnnotatedBy s ⟨false, some "X"⟩ ∧
      ∃ x ∈ Sighting.ofText default 0
        "/* #private */\nstruct s \x7b\n  struct t \x7b\n    /* #public(X) */ int a;\n  \x7d u;\n\x7d;\n",
        ∃ d, x.entry? = some (.field "t" "a", d) ∧ d.isPrivate = some false := by
  have htree : ∃ s ∈ (Statement.ofSource 0
      "/* #private */\nstruct s \x7b\n  struct t \x7b\n    /* #public(X) */ int a;\n  \x7d u;\n\x7d;\n").head?.toList,
      SourceScan.linkageBody? TypeCarry.idle s = none ∧ s.kind.isRecord = true ∧
      ∃ outer ∈ (Record.header? none s.tokens).toList, outer.name.isSome = true ∧
      ∃ t ∈ Statement.within outer.body, t.kind.isRecord = true ∧
      ∃ inner ∈ (Record.header? none t.tokens).toList, ∃ name ∈ inner.name.toList,
        name.text = "t" ∧
      ∃ u ∈ Statement.within inner.body, u.kind.isRecord = false ∧
      ∃ v ∈ (Variable.ofTokens? u.tokens).toList, v.name.text = "a" ∧
      ∃ k ∈ beforeCode u.tokens, beforeCode u.tokens = [k] ∧
        Mark.find? k.chars = some ⟨false, some "X"⟩ := by
    decide +kernel
  simp only [Option.mem_toList] at htree
  obtain ⟨s, hs, hlinkage, hkind, outer, houter, hnamed, t, ht, htkind, inner, hinner, name, hname,
    htext, u, hu, hukind, v, hv, hvtext, k, -, hk, ha⟩ := htree
  have hencloses : Record.Encloses s t :=
    ⟨⟨outer, houter, ht⟩, htkind, Option.isSome_of_eq_some hinner⟩
  have hdeclares := Declares.member
    ⟨s, outer, inner, .of_head? (c := default) hs hlinkage, hkind, houter, hnamed,
      .single hencloses, hinner, hname⟩ (.plain ⟨inner, hinner, hu⟩ hukind hv)
  rw [htext, hvtext] at hdeclares
  have hannotated : AnnotatedBy u ⟨false, some "X"⟩ := ⟨k, hk, ha⟩
  have hdecided := (annotation_decides ⟨default, 0, _⟩).1 u _ _ hdeclares hannotated
  exact ⟨u, hdeclares, hannotated, hdecided.1⟩

/-- A comment further in front hides the annotation right in front of a function: the function is
not private in the table. -/
theorem annotation_behind_comment_ignored :
    (∃ s, Declares default 0 "/* a */\n/* #private */\nint f(void);" s (.function "f") ∧
      ∃ k, (beforeCode s.tokens).getLast? = some k ∧ Mark.find? k.chars = some ⟨true, none⟩) ∧
    ¬ (History.empty.read
      ⟨default, 0, "/* a */\n/* #private */\nint f(void);"⟩).codebase.PrivateAt (.function "f") := by
  have hfunction : ∃ s ∈ Statement.ofSource 0 "/* a */\n/* #private */\nint f(void);",
      Statement.ofSource 0 "/* a */\n/* #private */\nint f(void);" = [s] ∧
      SourceScan.linkageBody? TypeCarry.idle s = none ∧ s.kind.isFunction = true ∧
      (∃ f ∈ (FunctionDecl.ofTokens? (default : ScanContext).config.annotations s.tokens).toList,
        f.name.text = "f") ∧
      (∃ k ∈ (beforeCode s.tokens).getLast?.toList, Mark.find? k.chars = some ⟨true, none⟩) ∧
      ∀ x ∈ (ofStatement default TypeCarry.idle s).1,
        x.entry?.all (fun e => e.2.isPrivate != some true) = true := by
    decide +kernel
  simp only [Option.mem_toList] at hfunction
  obtain ⟨s, -, hs, hlinkage, hkind, ⟨f, hf, hname⟩, hannotated, hnone⟩ := hfunction
  constructor
  · have hread : ReadsAlone default 0 "/* a */\n/* #private */\nint f(void);" s :=
      .of_head? (by rw [hs]; rfl) hlinkage
    exact ⟨s, hname ▸ .function hread hkind hf, hannotated⟩
  · rw [History.privateAt_iff]
    rintro ⟨x, hx, d, hentry, hprivate⟩
    rw [History.sightings_read, History.sightings_empty, List.nil_append, Reading.sightings,
      ofText_singleton hs hlinkage] at hx
    have hall := hnone x hx
    simp [hentry, hprivate] at hall

end Reading

end CBoundary
