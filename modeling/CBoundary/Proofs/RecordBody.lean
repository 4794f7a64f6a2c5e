import CBoundary.RecordDecl
import Mathlib.Logic.Relation

/-!
What is read of the body of a record. A member belongs to a statement of the body: one that declares
it, a record with variables behind it, or a statement inside a record that has neither a name nor
variables. The records listed beside the outermost one are those with a name that are reached from
it by going into bodies. Main statements: `exists_hasMember` and `mem_members`, and for records
`exists_of_mem_listed` and `exists_mem_listed`.
-/
namespace CBoundary

/-- All of a declarator but its type. -/
def Variable.untyped (v : Variable) : Variable := { v with typename := [] }

theorem Variable.of_untyped_eq {v w : Variable} (h : v.untyped = w.untyped) :
    v.name = w.name ∧ v.preComment = w.preComment := by
  have hname : v.untyped.name = w.untyped.name := congrArg Variable.name h
  have hcomment : v.untyped.preComment = w.untyped.preComment := congrArg Variable.preComment h
  exact ⟨hname, hcomment⟩

theorem TypeCarry.parse_untyped (c : TypeCarry) (tokens : List Token) :
    (c.parse tokens).1.map Variable.untyped =
      (Variable.ofTokens? tokens).map Variable.untyped := by
  unfold parse
  cases Variable.ofTokens? tokens with
  | none => rfl
  | some v =>
    simp only [Option.map_some, complete]
    split <;> rfl

namespace Record

theorem header?_parent (parent : Option String) (tokens : List Token) :
    header? parent tokens = (header? none tokens).map fun r => { r with parent } := by
  unfold header?
  simp only [Option.bind_eq_bind, Option.pure_def, Option.map_bind, Function.comp_def,
    Option.map_some]

/-- The statement stands in the body of the record statement. -/
def InBody (s t : Statement) : Prop :=
  ∃ r, header? none s.tokens = some r ∧ t ∈ Statement.within r.body

/-- A record statement in the body of another. -/
def Encloses (s t : Statement) : Prop :=
  InBody s t ∧ t.kind.isRecord = true ∧ (header? none t.tokens).isSome = true

/-- A statement inside a record statement declares a member of the record. -/
inductive HasMember : Statement → Statement → Variable → Prop
  | plain {s t : Statement} {v : Variable} (hbody : InBody s t)
      (hkind : t.kind.isRecord = false) (hv : Variable.ofTokens? t.tokens = some v) :
      HasMember s t v
  /-- A variable behind a record in the body. -/
  | declared {s t : Statement} {r : Record} {v : Variable} (hinner : Encloses s t)
      (hr : header? none t.tokens = some r) (hv : v ∈ r.declared) : HasMember s t v
  /-- A member of a nameless record without variables. -/
  | joined {s t u : Statement} {r : Record} {v : Variable} (hinner : Encloses s t)
      (hr : header? none t.tokens = some r) (hname : r.name = none) (hdeclared : r.declared = [])
      (h : HasMember t u v) : HasMember s u v

end Record

namespace RecordDecl

open Record

/-- The record that a statement in the body of `around` is read as. -/
def inner? (around : Record) (s : Statement) : Option RecordDecl :=
  ofTokens? (some (around.name?.getD "")) s.tokens

/-- The record itself, if it has a name, and the records inside it. -/
def listed (r : RecordDecl) : List Record :=
  (if r.name.isSome then [r.toRecord] else []) ++ r.nested

/-- The members that a statement of a body adds, and the record it is read as if it is one. -/
def membersOf (s : Statement) (inner : Option RecordDecl) : List Variable :=
  if s.kind.isRecord then
    inner.elim [] fun r => if r.name.isNone && r.declared.isEmpty then r.members else r.declared
  else (Variable.ofTokens? s.tokens).toList

/-- The records that a statement of a body adds. -/
def recordsOf (s : Statement) (inner : Option RecordDecl) : List Record :=
  if s.kind.isRecord then inner.elim [] listed else []

theorem step_members (b : BodyState) (s : Statement) (inner : Option RecordDecl) :
    (b.step s inner).members.map Variable.untyped =
      b.members.map Variable.untyped ++ (membersOf s inner).map Variable.untyped := by
  unfold BodyState.step membersOf
  split
  · cases inner with
    | none => simp
    | some r => simp
  · have hparse := congrArg Option.toList (b.carry.parse_untyped s.tokens)
    simp only [List.map_append, ← Option.toList_map, hparse]

theorem step_nested (b : BodyState) (s : Statement) (inner : Option RecordDecl) :
    (b.step s inner).nested = b.nested ++ recordsOf s inner := by
  unfold BodyState.step recordsOf listed
  split
  · cases inner with
    | none => simp
    | some r => simp
  · simp

theorem step_inner (b : BodyState) (s : Statement) (inner : Option RecordDecl) :
    b.step s (if s.kind.isRecord then inner else none) = b.step s inner := by
  unfold BodyState.step
  split <;> rfl

theorem foldl_step_members (b : BodyState) (inner : Statement → Option RecordDecl)
    (statements : List Statement) :
    (statements.foldl (fun b s => b.step s (inner s)) b).members.map Variable.untyped =
      b.members.map Variable.untyped ++
        statements.flatMap fun s => (membersOf s (inner s)).map Variable.untyped := by
  induction statements generalizing b with
  | nil => simp
  | cons s rest ih =>
    rw [List.foldl_cons, ih, step_members, List.flatMap_cons, List.append_assoc]

theorem foldl_step_nested (b : BodyState) (inner : Statement → Option RecordDecl)
    (statements : List Statement) :
    (statements.foldl (fun b s => b.step s (inner s)) b).nested =
      b.nested ++ statements.flatMap fun s => recordsOf s (inner s) := by
  induction statements generalizing b with
  | nil => simp
  | cons s rest ih =>
    rw [List.foldl_cons, ih, step_nested, List.flatMap_cons, List.append_assoc]

/-- A record is read by its header and, statement by statement, by its body. -/
theorem ofTokens?_eq (parent : Option String) (tokens : List Token) :
    ofTokens? parent tokens = (header? parent tokens).map fun r =>
      let body := (Statement.within r.body).foldl (fun b s => b.step s (inner? r s))
        BodyState.start
      { r with members := body.members, nested := body.nested } := by
  rw [ofTokens?]
  split
  · rename_i h
    rw [h, Option.map_none]
  · rename_i header h
    rw [h, Option.map_some]
    simp only [List.foldl_map, step_inner]
    rw [List.foldl_subtype (g := fun b s => BodyState.step b s (inner? header s))]
    · simp
    · intros; rfl

/-- What is read off a record statement. -/
structure ReadAs (s : Statement) (r : RecordDecl) (header : Record) : Prop where
  head : header? none s.tokens = some header
  name : r.name = header.name
  preComment : r.preComment = header.preComment
  declared : r.declared = header.declared
  members : r.members.map Variable.untyped =
    (Statement.within header.body).flatMap fun t =>
      (membersOf t (inner? header t)).map Variable.untyped
  nested : r.nested = (Statement.within header.body).flatMap fun t => recordsOf t (inner? header t)

theorem exists_readAs {parent : Option String} {s : Statement} {r : RecordDecl}
    (h : ofTokens? parent s.tokens = some r) : ∃ header, ReadAs s r header := by
  rw [ofTokens?_eq, header?_parent, Option.map_map] at h
  obtain ⟨header, hheader, rfl⟩ := Option.map_eq_some_iff.1 h
  refine ⟨header, hheader, rfl, rfl, rfl, ?_, ?_⟩
  · exact foldl_step_members _ _ _
  · exact foldl_step_nested _ _ _

theorem exists_ofTokens? {s : Statement} (parent : Option String)
    (h : (header? none s.tokens).isSome = true) : ∃ r, ofTokens? parent s.tokens = some r := by
  obtain ⟨header, hheader⟩ := Option.isSome_iff_exists.1 h
  rw [ofTokens?_eq, header?_parent, hheader]
  exact ⟨_, rfl⟩

theorem encloses_of_inner? {s t : Statement} {header : Record} {r : RecordDecl}
    (hheader : header? none s.tokens = some header) (ht : t ∈ Statement.within header.body)
    (hkind : t.kind.isRecord = true) (hr : inner? header t = some r) : Encloses s t := by
  obtain ⟨head, hread⟩ := exists_readAs hr
  refine ⟨⟨header, hheader, ht⟩, hkind, ?_⟩
  rw [hread.head, Option.isSome_some]

/-- What is enclosed by a record statement is read as a record inside it. -/
theorem ReadAs.exists_inner {s t : Statement} {r : RecordDecl} {header : Record}
    (hread : ReadAs s r header) (h : Encloses s t) :
    t ∈ Statement.within header.body ∧
      ∃ inner head, inner? header t = some inner ∧ ReadAs t inner head := by
  obtain ⟨⟨header', hheader, ht⟩, -, hsome⟩ := h
  obtain rfl := Option.some.inj (hheader.symm.trans hread.head)
  obtain ⟨inner, hinner⟩ := exists_ofTokens? (some (header'.name?.getD "")) hsome
  obtain ⟨head, hreadInner⟩ := exists_readAs hinner
  exact ⟨ht, inner, head, hinner, hreadInner⟩

theorem size_encloses_lt {s t : Statement} (h : InBody s t) : size t.tokens < size s.tokens := by
  obtain ⟨header, hheader, ht⟩ := h
  exact size_statement_lt hheader ht

/-- Every member of a record is declared by a statement inside it. -/
theorem exists_hasMember {parent : Option String} {s : Statement} {r : RecordDecl} {v : Variable}
    (h : ofTokens? parent s.tokens = some r) (hv : v ∈ r.members.map Variable.untyped) :
    ∃ u w, HasMember s u w ∧ w.untyped = v := by
  induction hn : size s.tokens using Nat.strongRecOn generalizing parent s r with
  | ind n ih =>
    obtain ⟨header, hread⟩ := exists_readAs h
    rw [hread.members] at hv
    obtain ⟨t, ht, hv⟩ := List.mem_flatMap.1 hv
    have hbody : InBody s t := ⟨header, hread.head, ht⟩
    unfold membersOf at hv
    split at hv
    · rename_i hkind
      cases hinner : inner? header t with
      | none => simp [hinner] at hv
      | some inner =>
        obtain ⟨head, hreadInner⟩ := exists_readAs hinner
        have hencloses := encloses_of_inner? hread.head ht hkind hinner
        rw [hinner, Option.elim_some] at hv
        split at hv
        · rename_i hjoined
          simp only [Bool.and_eq_true, Option.isNone_iff_eq_none, List.isEmpty_iff,
            hreadInner.name, hreadInner.declared] at hjoined
          obtain ⟨u, w, hmember, hw⟩ := ih _ (hn ▸ size_encloses_lt hbody) hinner hv rfl
          exact ⟨u, w, .joined hencloses hreadInner.head hjoined.1 hjoined.2 hmember, hw⟩
        · obtain ⟨w, hw, rfl⟩ := List.mem_map.1 hv
          rw [hreadInner.declared] at hw
          exact ⟨t, w, .declared hencloses hreadInner.head hw, rfl⟩
    · rename_i hkind
      obtain ⟨w, hw, rfl⟩ := List.mem_map.1 hv
      exact ⟨t, w, .plain hbody (by simpa using hkind) (Option.mem_toList.1 hw), rfl⟩

/-- What a statement inside a record declares as its member is one of its members. -/
theorem mem_members {parent : Option String} {s u : Statement} {r : RecordDecl} {v : Variable}
    (h : ofTokens? parent s.tokens = some r) (hmember : HasMember s u v) :
    v.untyped ∈ r.members.map Variable.untyped := by
  induction hmember generalizing parent r with
  | plain hbody hkind hv =>
    obtain ⟨header, hread⟩ := exists_readAs h
    obtain ⟨header', hheader, ht⟩ := hbody
    obtain rfl := Option.some.inj (hheader.symm.trans hread.head)
    rw [hread.members]
    refine List.mem_flatMap.2 ⟨_, ht, ?_⟩
    simp [membersOf, hkind, hv]
  | declared hinner hr hv =>
    obtain ⟨header, hread⟩ := exists_readAs h
    obtain ⟨ht, inner, head, hfound, hreadInner⟩ := hread.exists_inner hinner
    obtain rfl := Option.some.inj (hr.symm.trans hreadInner.head)
    rw [hread.members]
    refine List.mem_flatMap.2 ⟨_, ht, List.mem_map_of_mem ?_⟩
    have hne : inner.declared ≠ [] := List.ne_nil_of_mem (hreadInner.declared ▸ hv)
    rw [membersOf, if_pos hinner.2.1, hfound, Option.elim_some, if_neg (by simp [hne]),
      hreadInner.declared]
    exact hv
  | joined hinner hr hname hdeclared _ ih =>
    obtain ⟨header, hread⟩ := exists_readAs h
    obtain ⟨ht, inner, head, hfound, hreadInner⟩ := hread.exists_inner hinner
    obtain rfl := Option.some.inj (hr.symm.trans hreadInner.head)
    rw [hread.members]
    refine List.mem_flatMap.2 ⟨_, ht, ?_⟩
    rw [membersOf, if_pos hinner.2.1, hfound, Option.elim_some, hreadInner.name,
      hreadInner.declared, if_pos (by simp [hname, hdeclared])]
    exact ih hfound

/-- Every record that is listed is read off a statement that is reached by going into bodies. -/
theorem exists_of_mem_listed {parent : Option String} {s : Statement} {r : RecordDecl}
    {inner : Record} (h : ofTokens? parent s.tokens = some r) (hmem : inner ∈ r.listed) :
    ∃ t parent' found, Relation.ReflTransGen Encloses s t ∧
      ofTokens? parent' t.tokens = some found ∧ found.name.isSome = true ∧
      found.toRecord = inner := by
  induction hn : size s.tokens using Nat.strongRecOn generalizing parent s r with
  | ind n ih =>
    rcases List.mem_append.1 hmem with hself | hnested
    · split at hself
      · rename_i hname
        obtain rfl := List.mem_singleton.1 hself
        exact ⟨s, parent, r, .refl, h, hname, rfl⟩
      · simp at hself
    · obtain ⟨header, hread⟩ := exists_readAs h
      rw [hread.nested] at hnested
      obtain ⟨t, ht, hrecord⟩ := List.mem_flatMap.1 hnested
      unfold recordsOf at hrecord
      split at hrecord
      · rename_i hkind
        cases hinner : inner? header t with
        | none => simp [hinner] at hrecord
        | some found =>
          rw [hinner, Option.elim_some] at hrecord
          have hencloses := encloses_of_inner? hread.head ht hkind hinner
          obtain ⟨u, parent', last, hreach, hlast⟩ :=
            ih _ (hn ▸ size_encloses_lt hencloses.1) hinner hrecord rfl
          exact ⟨u, parent', last, .head hencloses hreach, hlast⟩
      · simp at hrecord

/-- Every record with a name that is reached by going into bodies is listed. -/
theorem exists_mem_listed {parent : Option String} {s t : Statement} {r : RecordDecl}
    {head : Record} (h : ofTokens? parent s.tokens = some r)
    (hreach : Relation.ReflTransGen Encloses s t) (hhead : header? none t.tokens = some head)
    (hname : head.name.isSome = true) :
    ∃ parent' found, ofTokens? parent' t.tokens = some found ∧ found.toRecord ∈ r.listed := by
  induction hreach using Relation.ReflTransGen.head_induction_on generalizing parent r with
  | refl =>
    obtain ⟨header, hread⟩ := exists_readAs h
    obtain rfl := Option.some.inj (hhead.symm.trans hread.head)
    refine ⟨parent, r, h, List.mem_append_left _ ?_⟩
    rw [if_pos (hread.name ▸ hname)]
    exact List.mem_singleton_self _
  | head hencloses _ ih =>
    obtain ⟨header, hread⟩ := exists_readAs h
    obtain ⟨hbody, inner, _, hinner, -⟩ := hread.exists_inner hencloses
    obtain ⟨parent', found, hfound, hmem⟩ := ih hinner
    refine ⟨parent', found, hfound, List.mem_append_right _ ?_⟩
    rw [hread.nested]
    refine List.mem_flatMap.2 ⟨_, hbody, ?_⟩
    rw [recordsOf, if_pos hencloses.2.1, hinner, Option.elim_some]
    exact hmem

end RecordDecl

end CBoundary
