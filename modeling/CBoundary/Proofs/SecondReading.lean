import CBoundary.Proofs.Precedence

/-!
Reading a text for the second time. An entry that has taken in a sighting covers it: it ranks at
least as high, is as private, and has the body, the comments and the typedef names that the sighting
could add. Covering is transitive and outlives further folds, whichever side they keep. So nothing
that the text holds is new to the table when it is read again, and only the lists of comments grow.
Main statement: `read_again`.
-/
namespace CBoundary

namespace Record

/-- The names that declarators bind. -/
def boundNames (declarators : List Variable) : List String :=
  declarators.map fun v => v.name.text

theorem any_agrees_iff {typedefs : List Variable} {v : Variable} :
    (typedefs.any fun w => w.name.agrees v.name) = true ↔
      v.name.text ∈ boundNames typedefs := by
  simp [boundNames, Token.agrees]

theorem boundNames_addTypedef {typedefs : List Variable} {v : Variable} {name : String} :
    name ∈ boundNames (addTypedef typedefs v) ↔
      name ∈ boundNames typedefs ∨ name = v.name.text := by
  unfold addTypedef
  split
  · rename_i hbound
    refine (or_iff_left_of_imp ?_).symm
    rintro rfl
    exact any_agrees_iff.1 hbound
  · simp [boundNames]

theorem boundNames_foldl_addTypedef {typedefs more : List Variable} {name : String} :
    name ∈ boundNames (more.foldl addTypedef typedefs) ↔
      name ∈ boundNames typedefs ∨ name ∈ boundNames more := by
  induction more generalizing typedefs with
  | nil => simp [boundNames]
  | cons v more ih =>
    rw [List.foldl_cons, ih, boundNames_addTypedef, or_assoc]
    simp [boundNames]

/-- Typedef names that are bound already are not added. -/
theorem foldl_addTypedef_of_subset {typedefs more : List Variable}
    (h : boundNames more ⊆ boundNames typedefs) : more.foldl addTypedef typedefs = typedefs := by
  induction more with
  | nil => rfl
  | cons v more ih =>
    have hfirst : addTypedef typedefs v = typedefs :=
      if_pos (any_agrees_iff.2 (h List.mem_cons_self))
    rw [List.foldl_cons, hfirst]
    exact ih fun name hname => h (List.mem_cons_of_mem _ hname)

end Record

namespace Details

/-- The typedef names of a record. -/
def typedefNames : Details → List String
  | .record r => Record.boundNames r.typedefs
  | _ => []

/-- A declaration of the same kind has nothing to add. -/
structure Covers (d e : Details) : Prop where
  kind : d.kind = e.kind
  hasBody : e.hasBody = true → d.hasBody = true
  preComment : e.preComment.isSome = true → d.preComment.isSome = true
  postComment : e.postComment.isSome = true → d.postComment.isSome = true
  typedefNames : e.typedefNames ⊆ d.typedefNames

variable {d e f : Details}

theorem Covers.refl (d : Details) : d.Covers d :=
  ⟨rfl, id, id, id, List.Subset.refl _⟩

theorem Covers.trans (hde : d.Covers e) (hef : e.Covers f) : d.Covers f where
  kind := hde.kind.trans hef.kind
  hasBody h := hde.hasBody (hef.hasBody h)
  preComment h := hde.preComment (hef.preComment h)
  postComment h := hde.postComment (hef.postComment h)
  typedefNames := List.Subset.trans hef.typedefNames hde.typedefNames

theorem comments_absorb (h : d.kind = e.kind) :
    (d.absorb e).preComment = d.preComment.or e.preComment ∧
      (d.absorb e).postComment = d.postComment.or e.postComment := by
  cases d <;> cases e <;> simp only [Details.kind, reduceCtorEq] at h
  all_goals exact ⟨rfl, rfl⟩

theorem mem_typedefNames_absorb (h : d.kind = e.kind) {name : String} :
    name ∈ (d.absorb e).typedefNames ↔ name ∈ d.typedefNames ∨ name ∈ e.typedefNames := by
  cases d <;> cases e <;> simp only [Details.kind, reduceCtorEq] at h
  · simp [absorb, Details.typedefNames]
  · exact Record.boundNames_foldl_addTypedef
  · simp [absorb, Details.typedefNames]

theorem covers_absorb (h : d.kind = e.kind) :
    (d.absorb e).Covers d ∧ (d.absorb e).Covers e := by
  have hkind := Definition.kind_absorb d e
  have hbody := Definition.hasBody_absorb h
  obtain ⟨hpre, hpost⟩ := comments_absorb h
  constructor
  · refine ⟨hkind, ?_, ?_, ?_, fun name hname => (mem_typedefNames_absorb h).2 (Or.inl hname)⟩
    · simp +contextual [hbody]
    · simp +contextual [hpre]
    · simp +contextual [hpost]
  · refine ⟨hkind.trans h, ?_, ?_, ?_,
      fun name hname => (mem_typedefNames_absorb h).2 (Or.inr hname)⟩
    · simp +contextual [hbody]
    · simp +contextual [hpre]
    · simp +contextual [hpost]

theorem or_eq_left {α : Type} {a b : Option α} (h : b.isSome = true → a.isSome = true) :
    a.or b = a := by
  cases a <;> cases b <;> simp_all

theorem absorb_of_covers (h : d.Covers e) : d.absorb e = d := by
  obtain ⟨hkind, hbody, hpre, hpost, hnames⟩ := h
  have hpre : d.preComment.or e.preComment = d.preComment := or_eq_left hpre
  have hpost : d.postComment.or e.postComment = d.postComment := or_eq_left hpost
  cases d with
  | function f =>
    cases e with
    | function g =>
      have hbody : f.body.or g.body = f.body := or_eq_left hbody
      simp only [Details.preComment, Details.postComment] at hpre hpost
      simp only [absorb, FunctionDecl.absorb, hbody, hpre, hpost]
    | _ => cases hkind
  | record r =>
    cases e with
    | record s =>
      have hnames : s.typedefs.foldl Record.addTypedef r.typedefs = r.typedefs :=
        Record.foldl_addTypedef_of_subset hnames
      simp only [Details.preComment, Details.postComment] at hpre hpost
      simp only [absorb, Record.absorb, hnames, hpre, hpost]
    | _ => cases hkind
  | field v =>
    cases e with
    | field w =>
      simp only [Details.preComment, Details.postComment] at hpre hpost
      simp only [absorb, Variable.absorb, hpre, hpost]
    | _ => cases hkind

end Details

namespace Definition

/-- Another sighting of the name changes nothing but the lists of comments. -/
structure Covers (d e : Definition) : Prop where
  priority : e.priority ≤ d.priority
  isPrivate : joinPrivacy d.isPrivate e.isPrivate = d.isPrivate
  details : d.details.Covers e.details

/-- The definition with further comments behind those it has. -/
def withComments (d : Definition) (preComments postComments : List Token) : Definition :=
  { d with
    preComments := d.preComments ++ preComments
    postComments := d.postComments ++ postComments }

variable {d e f : Definition}

theorem withComments_withComments (d : Definition) (pre post pre' post' : List Token) :
    (d.withComments pre post).withComments pre' post' =
      d.withComments (pre ++ pre') (post ++ post') := by
  simp only [withComments, List.append_assoc]

theorem withComments_nil (d : Definition) : d.withComments [] [] = d := by
  simp only [withComments, List.append_nil]

theorem Covers.withComments (h : d.Covers e) (pre post : List Token) :
    (d.withComments pre post).Covers e :=
  ⟨h.priority, h.isPrivate, h.details⟩

theorem merge_of_covers (h : d.Covers e) :
    d.merge e = d.withComments e.preComments e.postComments := by
  have hranked : d.ranked e = (d, e) := if_neg (Nat.not_lt.2 h.priority)
  unfold merge
  rw [hranked]
  simp only [h.isPrivate, Details.absorb_of_covers h.details]
  rfl

theorem Covers.trans (hde : d.Covers e) (hef : e.Covers f) : d.Covers f where
  priority := Nat.le_trans hef.priority hde.priority
  isPrivate := by rw [← hde.isPrivate, joinPrivacy_assoc, hef.isPrivate]
  details := hde.details.trans hef.details

theorem joinPrivacy_self (a : Option Bool) : joinPrivacy a a = a := by
  rcases a with _ | _ | _ <;> rfl

/-- Folding covers both sides, whichever it keeps. -/
theorem covers_merge (h : d.kind = e.kind) : (d.merge e).Covers d ∧ (d.merge e).Covers e := by
  obtain ⟨hd, he⟩ := le_priority_merge h
  have hprivate : (d.merge e).isPrivate = joinPrivacy d.isPrivate e.isPrivate :=
    congrArg Gathered.isPrivate (gathered_merge h)
  have hdetails : (d.merge e).details.Covers d.details ∧ (d.merge e).details.Covers e.details := by
    rcases details_merge d e with heq | heq <;> rw [heq]
    · exact Details.covers_absorb h
    · exact (Details.covers_absorb h.symm).symm
  refine ⟨⟨hd, ?_, hdetails.1⟩, ⟨he, ?_, hdetails.2⟩⟩
  · rw [hprivate, joinPrivacy_comm d.isPrivate, joinPrivacy_assoc, joinPrivacy_self]
  · rw [hprivate, joinPrivacy_assoc, joinPrivacy_self]

/-- An entry covers every sighting it was folded from. -/
theorem covers_foldl_merge {rest : List Definition} (hkind : ∀ e ∈ rest, e.kind = d.kind) :
    ∀ e ∈ d :: rest, (rest.foldl merge d).Covers e := by
  induction rest generalizing d with
  | nil =>
    intro e he
    obtain rfl := List.mem_singleton.1 he
    exact ⟨Nat.le_refl _, joinPrivacy_self _, Details.Covers.refl _⟩
  | cons first rest ih =>
    have hfirst : d.kind = first.kind := (hkind first List.mem_cons_self).symm
    have hmerged : ∀ e ∈ rest, e.kind = (d.merge first).kind := by
      intro e he
      rw [kind_merge hfirst]
      exact hkind e (List.mem_cons_of_mem first he)
    have hall := ih hmerged
    obtain ⟨hd, hnext⟩ := covers_merge hfirst
    have hentry := hall (d.merge first) List.mem_cons_self
    intro e he
    rw [List.foldl_cons]
    rcases List.mem_cons.1 he with rfl | he
    · exact hentry.trans hd
    · rcases List.mem_cons.1 he with rfl | he
      · exact hentry.trans hnext
      · exact hall e (List.mem_cons_of_mem _ he)

theorem foldl_merge_of_covers {rest : List Definition} (h : ∀ e ∈ rest, d.Covers e) :
    rest.foldl merge d =
      d.withComments (rest.flatMap preComments) (rest.flatMap postComments) := by
  induction rest generalizing d with
  | nil => exact (withComments_nil d).symm
  | cons e rest ih =>
    rw [List.foldl_cons, merge_of_covers (h e List.mem_cons_self), ih, withComments_withComments,
      List.flatMap_cons, List.flatMap_cons]
    intro f hf
    exact (h f (List.mem_cons_of_mem e hf)).withComments _ _

end Definition

section Combined

variable {α : Type} {op : α → α → α}

theorem foldl_merge_some (first : α) (rest : List α) :
    rest.foldl (fun found shown => found.merge op (some shown)) (some first) =
      some (rest.foldl op first) := by
  induction rest generalizing first with
  | nil => rfl
  | cons shown rest ih => exact ih (op first shown)

theorem foldl_merge_none (first : α) (rest : List α) :
    (first :: rest).foldl (fun found shown => found.merge op (some shown)) none =
      some (rest.foldl op first) :=
  foldl_merge_some first rest

theorem merge_self_right [Std.Associative op] [Std.IdempotentOp op] (found more : Option α) :
    (found.merge op more).merge op more = found.merge op more := by
  have hself (a : α) : op a a = a := Std.IdempotentOp.idempotent a
  have hassoc (a b c : α) : op (op a b) c = op a (op b c) := Std.Associative.assoc a b c
  cases found <;> cases more <;> simp [hself, hassoc]

end Combined

instance : Std.IdempotentOp MacroDefinition.absorb where
  idempotent d := by simp only [MacroDefinition.absorb, Option.or_self]

namespace Codebase

variable {c : Codebase} {xs : List Sighting} {p : Place}

/-- What a table holds for a place covers what was added for it. -/
theorem covers_of_foldl_take (hkinded : c.Kinded)
    (hkinds : ∀ x ∈ xs, ∀ p d, x.entry? = some (p, d) → d.kind = p.kind) {d : Definition}
    (hd : (xs.foldl take c).definition? p = some d) :
    ∀ e ∈ xs.filterMap (Sighting.definitionAt? p), d.Covers e := by
  have hkind : ∀ e ∈ xs.filterMap (Sighting.definitionAt? p), e.kind = p.kind := by
    intro e he
    obtain ⟨x, hx, hshown⟩ := List.mem_filterMap.1 he
    exact hkinds x hx p e (Sighting.definitionAt?_eq_some_iff.1 hshown)
  rw [definition?_foldl_take, foldl_merge_eq_filterMap] at hd
  generalize xs.filterMap (Sighting.definitionAt? p) = added at hd hkind ⊢
  cases hbefore : c.definition? p with
  | some first =>
    have hfirst : first.kind = p.kind := hkinded p first hbefore
    rw [hbefore, foldl_merge_some, Option.some.injEq] at hd
    subst hd
    intro e he
    exact Definition.covers_foldl_merge (fun e he => (hkind e he).trans hfirst.symm) e
      (List.mem_cons_of_mem first he)
  | none =>
    cases added with
    | nil => simp
    | cons first rest =>
      have hfirst : first.kind = p.kind := hkind first List.mem_cons_self
      rw [hbefore, foldl_merge_none, Option.some.injEq] at hd
      subst hd
      exact Definition.covers_foldl_merge fun e he =>
        (hkind e (List.mem_cons_of_mem first he)).trans hfirst.symm

/-- Where nothing is held after sightings were added, none of them belong to the place. -/
theorem definitions_eq_nil_of_foldl_take (hd : (xs.foldl take c).definition? p = none) :
    xs.filterMap (Sighting.definitionAt? p) = [] := by
  rw [definition?_foldl_take, foldl_merge_eq_filterMap] at hd
  generalize xs.filterMap (Sighting.definitionAt? p) = added at hd ⊢
  cases added with
  | nil => rfl
  | cons first rest =>
    cases hbefore : c.definition? p with
    | none => rw [hbefore, foldl_merge_none] at hd; cases hd
    | some d => rw [hbefore, foldl_merge_some] at hd; cases hd

theorem definition?_foldl_take_again (hkinded : c.Kinded)
    (hkinds : ∀ x ∈ xs, ∀ p d, x.entry? = some (p, d) → d.kind = p.kind) (p : Place) :
    (xs.foldl take (xs.foldl take c)).definition? p =
      ((xs.foldl take c).definition? p).map fun d => d.withComments
        ((xs.filterMap (Sighting.definitionAt? p)).flatMap Definition.preComments)
        ((xs.filterMap (Sighting.definitionAt? p)).flatMap Definition.postComments) := by
  rw [definition?_foldl_take _ xs, foldl_merge_eq_filterMap]
  cases hd : (xs.foldl take c).definition? p with
  | none => simp [definitions_eq_nil_of_foldl_take hd]
  | some d =>
    rw [foldl_merge_some, Option.map_some]
    exact congrArg some (Definition.foldl_merge_of_covers (covers_of_foldl_take hkinded hkinds hd))

/-- What the definitions of a place have in a row, further sightings of the place extend. -/
theorem listed_foldl_take {f : Definition → List Token}
    (hmerge : ∀ d e, f (d.merge e) = f d ++ f e) (c : Codebase) (xs : List Sighting) (p : Place) :
    (((xs.foldl take c).definition? p).map f).getD [] =
      ((c.definition? p).map f).getD [] ++ (xs.filterMap (Sighting.definitionAt? p)).flatMap f := by
  have hfold (d : Definition) (rest : List Definition) :
      f (rest.foldl Definition.merge d) = f d ++ rest.flatMap f := by
    induction rest generalizing d with
    | nil => simp
    | cons e rest ih => rw [List.foldl_cons, ih, hmerge, List.append_assoc, List.flatMap_cons]
  rw [definition?_foldl_take, foldl_merge_eq_filterMap]
  cases c.definition? p with
  | some d => rw [foldl_merge_some]; exact hfold d _
  | none =>
    cases xs.filterMap (Sighting.definitionAt? p) with
    | nil => rfl
    | cons d rest => rw [foldl_merge_none]; exact hfold d rest

/-- A table that differs from another in comments only: at each place, the given comments stand
behind those of the other. -/
structure ExtendsComments (c other : Codebase) (preComments postComments : Place → List Token) :
    Prop where
  definitions (p : Place) : c.definition? p =
    (other.definition? p).map fun d => d.withComments (preComments p) (postComments p)
  owners (owner : String) : owner ∈ c.fields ↔ owner ∈ other.fields
  restrictedTypes : c.restrictedTypes = other.restrictedTypes
  restrictedFunctions : c.restrictedFunctions = other.restrictedFunctions
  typedefs : c.typedefs = other.typedefs
  macros : c.macros = other.macros

/-- The comments in front of the sightings that a place has taken in. -/
def preCommentsAt (c : Codebase) (p : Place) : List Token :=
  ((c.definition? p).map Definition.preComments).getD []

/-- The comments behind the sightings that a place has taken in. -/
def postCommentsAt (c : Codebase) (p : Place) : List Token :=
  ((c.definition? p).map Definition.postComments).getD []

end Codebase

namespace Reading

/-- The definitions that a text has for a place, in order. -/
def definitionsAt (r : Reading) (p : Place) : List Definition :=
  r.sightings.filterMap (Sighting.definitionAt? p)

/-- The comments in front of what a text has for a place. -/
def preCommentsAt (r : Reading) (p : Place) : List Token :=
  (r.definitionsAt p).flatMap Definition.preComments

/-- The comments behind what a text has for a place. -/
def postCommentsAt (r : Reading) (p : Place) : List Token :=
  (r.definitionsAt p).flatMap Definition.postComments

theorem kind_of_sighted (r : Reading) :
    ∀ x ∈ r.sightings, ∀ p d, x.entry? = some (p, d) → d.kind = p.kind := by
  intro x hx p d hentry
  obtain ⟨c, -, -, hform⟩ := Sighting.form_of_mem_ofText hx
  exact hform.kind hentry

end Reading

namespace History

open Codebase

variable (before : History) (r : Reading)

theorem definition?_read_again (p : Place) :
    ((before.read r).read r).codebase.definition? p =
      ((before.read r).codebase.definition? p).map fun d =>
        d.withComments (r.preCommentsAt p) (r.postCommentsAt p) := by
  rw [codebase_read (before.read r), codebase_read before]
  exact definition?_foldl_take_again before.kinded r.kind_of_sighted p

theorem isSome_read_again (p : Place) :
    (((before.read r).read r).codebase.definition? p).isSome =
      ((before.read r).codebase.definition? p).isSome := by
  rw [definition?_read_again, Option.isSome_map]

theorem restrictedAt_read_again {p : Place} (hp : p.isField = false) :
    ((before.read r).read r).codebase.RestrictedAt p ↔
      (before.read r).codebase.RestrictedAt p := by
  rw [listed _ p hp, listed _ p hp, privateAt_iff_any, privateAt_iff_any, definition?_read_again,
    Option.any_map]
  rfl

/-- Reading a text twice is reading it once, up to the lists of comments: what the text has for
each place adds its comments in either pass, behind those that are there. -/
theorem read_again :
    ((before.read r).read r).codebase.ExtendsComments (before.read r).codebase
        r.preCommentsAt r.postCommentsAt ∧
      ∀ p, (before.read r).codebase.preCommentsAt p =
          before.codebase.preCommentsAt p ++ r.preCommentsAt p ∧
        (before.read r).codebase.postCommentsAt p =
          before.codebase.postCommentsAt p ++ r.postCommentsAt p := by
  refine ⟨{
      definitions := definition?_read_again before r
      owners := ?_
      restrictedTypes := Std.ExtTreeSet.ext_mem fun name =>
        restrictedAt_read_again before r (p := .record name) rfl
      restrictedFunctions := Std.ExtTreeSet.ext_mem fun name =>
        restrictedAt_read_again before r (p := .function name) rfl
      typedefs := ?_
      macros := ?_ }, fun p => ?_⟩
  · intro owner
    have hfields (name : String) := isSome_read_again before r (.field owner name)
    simp only [definition?] at hfields
    simp only [fieldsListed _ owner, hfields]
  · have : Std.Associative fun (first _ : String) => first := ⟨fun _ _ _ => rfl⟩
    have : Std.IdempotentOp fun (first _ : String) => first := ⟨fun _ => rfl⟩
    apply Std.ExtTreeMap.ext_getElem?
    intro name
    rw [codebase_read (before.read r), codebase_read before]
    simp only [typedefs_foldl_take, foldl_merge_eq, merge_self_right]
  · apply congrArg MacroTable.mk
    apply Std.ExtTreeMap.ext_getElem?
    intro name
    have hmacros : ((before.read r).read r).codebase.macros.get? name =
        (before.read r).codebase.macros.get? name := by
      rw [codebase_read (before.read r), codebase_read before]
      simp only [macros_foldl_take, foldl_merge_eq, merge_self_right]
    exact hmacros
  · rw [codebase_read before]
    exact ⟨listed_foldl_take (fun _ _ => rfl) _ _ p, listed_foldl_take (fun _ _ => rfl) _ _ p⟩

end History

end CBoundary
