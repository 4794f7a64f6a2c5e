import CBoundary.Proofs.AnnotationReach
import CBoundary.Proofs.InlineRecord
import Mathlib.Data.List.Nodup

/-!
Records that are read by going down into their bodies. Reading a body reads the bodies of the
records in it, each record comes back with a list of the records in it, and the record around takes
that list over and leaves the inner record without one. Nothing in this bounds how deep it goes.
Shown here is that it comes to an end, since each body is shorter than the statement it stands in,
and that what comes back is one level deep: each record inside that has a name is listed once, and
the members of a record without name and variables stand in order among those of the record around.
Putting a record into the symbol table goes down the lists, so it goes down one level. Main
statement: `read_flat`.
-/
namespace CBoundary

open Relation

/-- A record as it comes back from its reading. The records listed with it may have lists of their
own. -/
inductive RecordTree where
  | node (record : Record) (nested : List RecordTree)

namespace RecordTree

/-- A record without a list. -/
def lone (r : Record) : RecordTree := node r []

/-- A record whose list goes no further down. -/
def ofDecl (r : RecordDecl) : RecordTree := node r.toRecord (r.nested.map lone)

/-- What has been read of the body of a record. -/
structure Body where
  members : List Variable
  nested : List RecordTree
  carry : TypeCarry

namespace Body

def start : Body := ⟨[], [], TypeCarry.idle⟩

/-- Takes in a statement that is no record. -/
def addDeclarator (b : Body) (s : Statement) : Body :=
  { b with
    members := b.members ++ (b.carry.parse s.tokens).1.toList
    carry := (b.carry.parse s.tokens).2 }

/-- Takes in the record that a statement is read as. Its list is taken over. -/
def addRecord (b : Body) : Option RecordTree → Body
  | none => { b with carry := TypeCarry.idle }
  | some (node r deeper) =>
      { members := b.members ++
          (if r.name.isNone && r.declared.isEmpty then r.members else r.declared)
        nested := b.nested ++ (if r.name.isSome then [lone r] else []) ++ deeper
        carry := TypeCarry.idle }

/-- The record with this head, when its body has been read. -/
def tree (b : Body) (header : Record) : RecordTree :=
  node { header with members := b.members } b.nested

/-- Reads on through the statements of a body; `around` names the record they stand in. There is no
result unless the reading comes to an end. -/
def readOn (around : String) (b : Body) (statements : List Statement) : Option Body :=
  match statements with
  | [] => some b
  | s :: rest =>
      if s.kind.isRecord then
        match Record.header? (some around) s.tokens with
        | none => b.addRecord none |>.readOn around rest
        | some header => do
            let inner ← start |>.readOn (header.name?.getD "") (Statement.within header.body)
            b.addRecord (some (inner.tree header)) |>.readOn around rest
      else b.addDeclarator s |>.readOn around rest
partial_fixpoint

end Body

/-- Reads a record off its tokens. There is no result unless the reading comes to an end. -/
def read (parent : Option String) (tokens : List Token) : Option (Option RecordTree) :=
  match Record.header? parent tokens with
  | none => some none
  | some header => do
      let body ← Body.start.readOn (header.name?.getD "") (Statement.within header.body)
      some (some (body.tree header))

/-- A record in a body is read as one that stands alone. -/
theorem Body.readOn_record {s : Statement} (hkind : s.kind.isRecord = true) (around : String)
    (b : Body) (rest : List Statement) :
    b.readOn around (s :: rest) =
      (read (some around) s.tokens).bind fun inner => (b.addRecord inner).readOn around rest := by
  rw [readOn, if_pos hkind, read]
  cases Record.header? (some around) s.tokens with
  | none => rfl
  | some header => simp only [Option.bind_eq_bind, Option.bind_assoc, Option.bind_some]

/-- What has been put into the table, and for which records, in order, each with its depth. -/
structure Registration where
  scan : SourceScan
  calls : List (Nat × Record)

mutual

/-- Puts a record into the table, and then the records of its list, one level further down. -/
def register (c : ScanContext) (depth : Nat) (g : Registration) : RecordTree → Registration
  | node r nested =>
      let g := { g with calls := g.calls ++ [(depth, r)] }
      if r.name.isNone then g
      else registerAll c (depth + 1) { g with scan := g.scan.addRecord c r } nested

def registerAll (c : ScanContext) (depth : Nat) (g : Registration) : List RecordTree → Registration
  | [] => g
  | tree :: rest => registerAll c depth (register c depth g tree) rest

end

/-- What has been read of a body, with lists that go no further down. -/
def Body.ofState (b : RecordDecl.BodyState) : Body := ⟨b.members, b.nested.map lone, b.carry⟩

theorem addDeclarator_ofState {b : RecordDecl.BodyState} {s : Statement}
    (hkind : s.kind.isRecord = false) (inner : Option RecordDecl) :
    (Body.ofState b).addDeclarator s = Body.ofState (b.step s inner) := by
  unfold RecordDecl.BodyState.step
  rw [if_neg (by simp [hkind])]
  rfl

theorem addRecord_ofState {b : RecordDecl.BodyState} {s : Statement}
    (hkind : s.kind.isRecord = true) (inner : Option RecordDecl) :
    (Body.ofState b).addRecord (inner.map ofDecl) = Body.ofState (b.step s inner) := by
  unfold RecordDecl.BodyState.step
  rw [if_pos hkind]
  cases inner with
  | none => rfl
  | some r =>
    have hlone : (if r.name.isSome then [r.toRecord] else []).map lone =
        if r.name.isSome then [lone r.toRecord] else [] := by
      split <;> rfl
    simp only [Option.map_some, ofDecl, Body.addRecord, Body.ofState, List.map_append, hlone]

/-- A body comes to its end if each record in it does. -/
theorem readOn_eq (around : Record) (b : RecordDecl.BodyState) {statements : List Statement}
    (hinner : ∀ s ∈ statements, read (some (around.name?.getD "")) s.tokens =
      some ((RecordDecl.inner? around s).map ofDecl)) :
    (Body.ofState b).readOn (around.name?.getD "") statements =
      some (Body.ofState (RecordDecl.readBody around b statements)) := by
  induction statements generalizing b with
  | nil =>
    rw [Body.readOn]
    rfl
  | cons s rest ih =>
    obtain ⟨hs, hrest⟩ := List.forall_mem_cons.1 hinner
    cases hkind : s.kind.isRecord with
    | true =>
      rw [Body.readOn_record hkind, hs, Option.bind_some, addRecord_ofState hkind]
      exact ih _ hrest
    | false =>
      rw [Body.readOn, if_neg (by simp [hkind]),
        addDeclarator_ofState hkind (RecordDecl.inner? around s)]
      exact ih _ hrest

/-- Reading a record comes to an end, and what is read is one level deep. -/
theorem read_eq (parent : Option String) (tokens : List Token) :
    read parent tokens = some ((RecordDecl.ofTokens? parent tokens).map ofDecl) := by
  induction hn : Record.size tokens using Nat.strongRecOn generalizing parent tokens with
  | ind n ih =>
    rw [read, RecordDecl.ofTokens?_eq]
    cases hheader : Record.header? parent tokens with
    | none => rfl
    | some header =>
      have hinner : ∀ s ∈ Statement.within header.body,
          read (some (header.name?.getD "")) s.tokens =
            some ((RecordDecl.inner? header s).map ofDecl) :=
        fun s hs => ih _ (hn ▸ Record.size_statement_lt hheader hs) _ _ rfl
      dsimp only
      rw [show Body.start = Body.ofState .start from rfl, readOn_eq header .start hinner]
      rfl

end RecordTree

namespace RecordDecl

open Record TextPosition

variable {parent : Option String} {tokens : List Token} {r inner around : RecordDecl}

/-- A statement in the body of the first record defines the second. -/
def Defines (r inner : RecordDecl) : Prop :=
  ∃ s ∈ Statement.within r.body, s.kind.isRecord = true ∧ inner? r.toRecord s = some inner

/-- The second record has neither a name nor variables. -/
def Joins (r inner : RecordDecl) : Prop :=
  Defines r inner ∧ inner.name = none ∧ inner.declared = []

theorem nested_eq (h : ofTokens? parent tokens = some r) :
    r.nested = (Statement.within r.body).flatMap fun s => recordsOf s (inner? r.toRecord s) := by
  rw [ofTokens?_eq] at h
  obtain ⟨header, -, rfl⟩ := Option.map_eq_some_iff.1 h
  exact foldl_step_nested _ _ _

theorem parent_eq (h : ofTokens? parent tokens = some r) : r.parent = parent := by
  rw [ofTokens?_eq, header?_parent, Option.map_map] at h
  obtain ⟨header, -, rfl⟩ := Option.map_eq_some_iff.1 h
  rfl

theorem header?_eq (h : ofTokens? parent tokens = some r) :
    ∃ header, header? parent tokens = some header ∧ header.body = r.body := by
  rw [ofTokens?_eq] at h
  obtain ⟨header, hheader, rfl⟩ := Option.map_eq_some_iff.1 h
  exact ⟨header, hheader, rfl⟩

theorem mem_recordsOf {e : Record} {s : Statement} :
    e ∈ recordsOf s (inner? r.toRecord s) ↔
      s.kind.isRecord = true ∧ ∃ inner, inner? r.toRecord s = some inner ∧ e ∈ inner.listed := by
  unfold recordsOf
  split
  · rename_i hkind
    cases inner? r.toRecord s <;> simp [hkind]
  · rename_i hkind
    simp [hkind]

/-- A record is listed if it is one that the body defines, or if that one lists it. -/
theorem mem_nested_iff (h : ofTokens? parent tokens = some r) {e : Record} :
    e ∈ r.nested ↔ ∃ inner, Defines r inner ∧ e ∈ inner.listed := by
  simp only [nested_eq h, List.mem_flatMap, mem_recordsOf, Defines]
  constructor
  · rintro ⟨s, hs, hkind, inner, hinner, he⟩
    exact ⟨inner, ⟨s, hs, hkind, hinner⟩, he⟩
  · rintro ⟨inner, ⟨s, hs, hkind, hinner⟩, he⟩
    exact ⟨s, hs, hkind, inner, hinner, he⟩

theorem mem_listed_iff {e : Record} :
    e ∈ r.listed ↔ (r.name.isSome = true ∧ r.toRecord = e) ∨ e ∈ r.nested := by
  rw [listed, List.mem_append]
  cases r.name.isSome with
  | true => simp [eq_comm]
  | false => simp

/-- The record is read off some tokens. -/
def IsRead (r : RecordDecl) : Prop := ∃ parent tokens, ofTokens? parent tokens = some r

theorem Defines.isRead (h : Defines r inner) : inner.IsRead := by
  obtain ⟨s, -, -, hinner⟩ := h
  exact ⟨_, _, hinner⟩

/-- The body of a record that is defined inside another is shorter than the other's. -/
theorem Defines.length_lt (h : Defines r inner) :
    inner.body.chars.length < r.body.chars.length := by
  obtain ⟨s, hs, -, hinner⟩ := h
  obtain ⟨header, hheader, hbody⟩ := header?_eq hinner
  obtain ⟨t, ht, hinterior⟩ := header?_body hheader
  have hinside := size_interior hinterior
  have hmem : t ∈ TokenStream.within r.body := Statement.mem_of_mem_ofTokens hs ht
  have hle := size_mem hmem
  have hsize : size (TokenStream.within r.body) = r.body.chars.length :=
    congrArg List.length (TokenStream.flatMap_chars_ofChars _ _ _ _)
  rw [hbody] at hinside
  omega

/-- The listed records are those with a name that are defined inside, however deep. -/
theorem mem_nested_iff_transGen (h : ofTokens? parent tokens = some r) {e : Record} :
    e ∈ r.nested ↔
      ∃ inner, TransGen Defines r inner ∧ inner.name.isSome = true ∧ inner.toRecord = e := by
  induction hn : r.body.chars.length using Nat.strongRecOn generalizing parent tokens r with
  | ind n ih =>
    rw [mem_nested_iff h]
    constructor
    · rintro ⟨middle, hdefines, he⟩
      rcases mem_listed_iff.1 he with ⟨hname, rfl⟩ | hdeeper
      · exact ⟨middle, .single hdefines, hname, rfl⟩
      · obtain ⟨_, _, hread⟩ := hdefines.isRead
        obtain ⟨inner, hreach, hinner⟩ := (ih _ (hn ▸ hdefines.length_lt) hread rfl).1 hdeeper
        exact ⟨inner, .head hdefines hreach, hinner⟩
    · rintro ⟨inner, hreach, hname, rfl⟩
      obtain ⟨middle, hdefines, hrest⟩ := TransGen.head'_iff.1 hreach
      refine ⟨middle, hdefines, mem_listed_iff.2 ?_⟩
      rcases ReflTransGen.cases_head hrest with rfl | ⟨next, hnext, hlater⟩
      · exact Or.inl ⟨hname, rfl⟩
      · obtain ⟨_, _, hread⟩ := hdefines.isRead
        exact Or.inr ((ih _ (hn ▸ hdefines.length_lt) hread rfl).2
          ⟨inner, .head' hnext hlater, hname, rfl⟩)

/-- The text of the first token lies inside that of the second, with something on either side. -/
def Inside (t u : Token) : Prop :=
  u.span.start < t.span.start ∧
    t.span.start + byteLength t.chars < u.span.start + byteLength u.chars

/-- The text of the first token ends before that of the second starts. -/
def EndsBefore (t u : Token) : Prop := t.span.start + byteLength t.chars ≤ u.span.start

theorem Inside.trans {t u v : Token} (h : Inside t u) (h' : Inside u v) : Inside t v :=
  ⟨h'.1.trans h.1, h.2.trans h'.2⟩

theorem inside_of_interior? {base : Nat} {text : List Char} {t inner : Token}
    (h : t.ReadFrom base text) (hinner : t.interior? = some inner) : Inside inner t := by
  obtain ⟨_, _, -, hspan⟩ := h.stands
  obtain ⟨_, _, -, hinside⟩ := h.interior hinner
  have hshrunk : inner.span = ⟨t.span.start + 1, t.span.stop - 1⟩ := by
    unfold Token.interior? at hinner
    split at hinner
    · exact Option.some.inj hinner ▸ rfl
    · simp at hinner
  rw [hshrunk, hspan, Span.mk.injEq] at hinside
  rw [Inside, hshrunk, hspan]
  dsimp only at hinside ⊢
  omega

variable {s : Statement} {e : Record}

theorem readFrom_of_mem_within {body t : Token} (hs : s ∈ Statement.within body)
    (ht : t ∈ s.tokens) : t.ReadFrom body.span.start body.chars :=
  Statement.readFrom_of_mem_ofSource hs ht

/-- A record that a statement defines has its body inside a token of the statement. -/
theorem exists_inside_of_inner? (hs : s ∈ Statement.within r.body)
    (hinner : inner? r.toRecord s = some inner) : ∃ t ∈ s.tokens, Inside inner.body t := by
  obtain ⟨header, hheader, hbody⟩ := header?_eq hinner
  obtain ⟨t, ht, hinterior⟩ := header?_body hheader
  rw [hbody] at hinterior
  exact ⟨t, ht, inside_of_interior? (readFrom_of_mem_within hs ht) hinterior⟩

theorem Defines.inside (h : Defines r inner) : Inside inner.body r.body := by
  obtain ⟨s, hs, -, hinner⟩ := h
  obtain ⟨t, ht, hinside⟩ := exists_inside_of_inner? hs hinner
  obtain ⟨before, behind, htext, hspan⟩ := (readFrom_of_mem_within hs ht).stands
  have hlength := congrArg byteLength htext
  rw [byteLength_append, byteLength_append] at hlength
  rw [Inside, hspan] at hinside
  dsimp only at hinside
  unfold Inside
  omega

theorem inside_of_mem_nested (h : ofTokens? parent tokens = some r) (he : e ∈ r.nested) :
    Inside e.body r.body := by
  obtain ⟨inner, hreach, -, rfl⟩ := (mem_nested_iff_transGen h).1 he
  exact inside_of_transGen hreach
where
  inside_of_transGen {inner : RecordDecl} (hreach : TransGen Defines r inner) :
      Inside inner.body r.body := by
    induction hreach with
    | single hdefines => exact hdefines.inside
    | tail _ hdefines ih => exact hdefines.inside.trans ih

theorem exists_inside_of_mem_recordsOf (hs : s ∈ Statement.within r.body)
    (he : e ∈ recordsOf s (inner? r.toRecord s)) : ∃ t ∈ s.tokens, Inside e.body t := by
  obtain ⟨-, inner, hinner, he⟩ := mem_recordsOf.1 he
  obtain ⟨t, ht, hinside⟩ := exists_inside_of_inner? hs hinner
  rcases mem_listed_iff.1 he with ⟨-, rfl⟩ | hdeeper
  · exact ⟨t, ht, hinside⟩
  · exact ⟨t, ht, (inside_of_mem_nested hinner hdeeper).trans hinside⟩

/-- The tokens of a text stand one behind the other. -/
theorem pairwise_endsBefore {index offset : Nat} {text : List Char} {tokens : List Token}
    (h : TokenCoverage.Tiles index offset text tokens) : tokens.Pairwise EndsBefore := by
  induction tokens generalizing index offset text with
  | nil => exact .nil
  | cons t rest ih =>
    obtain ⟨-, hspan, -, behind, -, hrest⟩ := h
    refine List.pairwise_cons.2 ⟨fun u hu => ?_, ih hrest⟩
    rw [EndsBefore, hspan]
    exact (hrest.standsAt hu).1

/-- No token of a statement stands before one of an earlier statement. -/
theorem pairwise_statements (body : Token) :
    (Statement.within body).Pairwise fun s later =>
      ∀ t ∈ s.tokens, ∀ u ∈ later.tokens, EndsBefore t u := by
  have htokens : ((Statement.within body).flatMap Statement.tokens).Pairwise EndsBefore := by
    rw [Statement.within, Statement.flatMap_tokens_ofTokens]
    exact pairwise_endsBefore (TokenCoverage.tiles_ofChars _ _ _ _)
  exact (List.pairwise_flatMap.1 htokens).2

/-- The records are listed in the order of their bodies. -/
theorem pairwise_nested (h : ofTokens? parent tokens = some r) :
    r.nested.Pairwise fun e later => e.body.span.start < later.body.span.start := by
  induction hn : r.body.chars.length using Nat.strongRecOn generalizing parent tokens r with
  | ind n ih =>
    rw [nested_eq h]
    refine List.pairwise_flatMap.2 ⟨fun s hs => ?_, ?_⟩
    · rw [recordsOf]
      split
      · rename_i hkind
        cases hinner : inner? r.toRecord s with
        | none => exact .nil
        | some inner =>
          have hdefines : Defines r inner := ⟨s, hs, hkind, hinner⟩
          have hdeeper := ih _ (hn ▸ hdefines.length_lt) hinner rfl
          rw [Option.elim_some, listed]
          split
          · exact List.pairwise_cons.2 ⟨fun e he => (inside_of_mem_nested hinner he).1, hdeeper⟩
          · exact hdeeper
      · exact .nil
    · refine (pairwise_statements r.body).imp_of_mem fun hs hlater hbefore e he e' he' => ?_
      obtain ⟨t, ht, hinside⟩ := exists_inside_of_mem_recordsOf hs he
      obtain ⟨u, hu, hinside'⟩ := exists_inside_of_mem_recordsOf hlater he'
      have htu := hbefore t ht u hu
      simp only [Inside, EndsBefore] at hinside hinside' htu
      omega

theorem nodup_nested (h : ofTokens? parent tokens = some r) : r.nested.Nodup := by
  apply (pairwise_nested h).imp
  intro e later hlt heq
  subst heq
  exact Nat.lt_irrefl _ hlt

/-- A record with a name that is defined inside, however deep, is listed once. -/
theorem count_nested (h : ofTokens? parent tokens = some r) (hreach : TransGen Defines r inner)
    (hname : inner.name.isSome = true) : r.nested.count inner.toRecord = 1 :=
  List.count_eq_one_of_mem (nodup_nested h)
    ((mem_nested_iff_transGen h).2 ⟨inner, hreach, hname, rfl⟩)

/-- A listed record has a name, and that of the record around it. -/
theorem exists_around (h : ofTokens? parent tokens = some r) (he : e ∈ r.nested) :
    e.name.isSome = true ∧ ∃ around inner, ReflTransGen Defines r around ∧ Defines around inner ∧
      inner.toRecord = e ∧ e.parent = some (around.name?.getD "") := by
  obtain ⟨inner, hreach, hname, rfl⟩ := (mem_nested_iff_transGen h).1 he
  obtain ⟨around, haround, hdefines⟩ := TransGen.tail'_iff.1 hreach
  obtain ⟨s, -, -, hinner⟩ := id hdefines
  exact ⟨hname, around, inner, haround, hdefines, rfl, parent_eq hinner⟩

theorem Joins.members_infix (h : r.IsRead) (hjoins : Joins r inner) :
    inner.members <:+: r.members := by
  obtain ⟨_, _, hread⟩ := h
  obtain ⟨⟨s, hs, hkind, hinner⟩, hname, hdeclared⟩ := hjoins
  obtain ⟨before, behind, hsplit⟩ := List.append_of_mem hs
  rw [members_eq hread, hsplit, readBody_append]
  generalize readBody r.toRecord .start before = b
  have hstep : (b.step s (inner? r.toRecord s)).members = b.members ++ inner.members := by
    unfold BodyState.step
    simp [hkind, hinner, hname, hdeclared]
  obtain ⟨later, hlater⟩ := exists_members_append r.toRecord (b.step s (inner? r.toRecord s)) behind
  refine ⟨b.members, later, ?_⟩
  rw [← hstep, ← hlater]
  rfl

theorem members_infix_of_transGen (h : around.IsRead) (hjoins : TransGen Joins around inner) :
    inner.members <:+: around.members := by
  induction hjoins using TransGen.head_induction_on with
  | single hjoin => exact hjoin.members_infix h
  | head hjoin _ ih => exact (ih hjoin.1.isRead).trans (hjoin.members_infix h)

theorem isRead_of_reflTransGen (h : r.IsRead) (hreach : ReflTransGen Defines r around) :
    around.IsRead := by
  rcases ReflTransGen.cases_tail hreach with rfl | ⟨_, -, hdefines⟩
  · exact h
  · exact hdefines.isRead

/-- What a record says of the records inside it. -/
structure Flat (r : RecordDecl) : Prop where
  /-- Each listed record has a name, and knows that of the record around it. -/
  labelled : ∀ e ∈ r.nested, e.name.isSome = true ∧ ∃ around inner,
    ReflTransGen Defines r around ∧ Defines around inner ∧ inner.toRecord = e ∧
      e.parent = some (around.name?.getD "")
  /-- Each record inside that has a name is listed once. -/
  once : ∀ inner, TransGen Defines r inner → inner.name.isSome = true →
    r.nested.count inner.toRecord = 1
  /-- Members of records without name and variables join those of the record around. -/
  joined : ∀ around inner, ReflTransGen Defines r around → TransGen Joins around inner →
    inner.members <:+: around.members

theorem flat (h : ofTokens? parent tokens = some r) : Flat r where
  labelled _ he := exists_around h he
  once _ hreach hname := count_nested h hreach hname
  joined _ _ haround hjoins :=
    members_infix_of_transGen (isRead_of_reflTransGen ⟨_, _, h⟩ haround) hjoins

end RecordDecl

theorem isSome_foldl_merge {α β : Type} {op : β → β → β} {view : α → Option β} {x : α}
    (hx : (view x).isSome = true) (found : Option β) {xs : List α} (hmem : x ∈ xs) :
    (xs.foldl (fun found x => found.merge op (view x)) found).isSome = true := by
  obtain ⟨before, behind, rfl⟩ := List.append_of_mem hmem
  rw [List.foldl_append, List.foldl_cons]
  have hstep (found : Option β) (y : α) (h : found.isSome = true ∨ (view y).isSome = true) :
      (found.merge op (view y)).isSome = true := by
    cases found <;> cases hview : view y <;> simp_all
  exact List.foldlRecOn behind (motive := fun found => found.isSome = true) _
    (hstep _ x (Or.inr hx)) fun found hfound y _ => hstep found y (Or.inl hfound)

namespace Codebase

/-- The table has the record, its members and the typedef names that are bound to it. -/
def Holds (table : Codebase) (e : Record) : Prop :=
  ∃ name, e.name = some name ∧ (table.definition? (.record name.text)).isSome = true ∧
    (∀ v ∈ e.members, (table.definition? (.field name.text v.name.text)).isSome = true) ∧
    ∀ v ∈ e.typedefs, v.name.text ≠ name.text → (table.typedefs[v.name.text]?).isSome = true

theorem isSome_definition?_foldl_take {p : Place} {x : Sighting} {d : Definition}
    (hentry : x.entry? = some (p, d)) (c : Codebase) {xs : List Sighting} (hx : x ∈ xs) :
    ((xs.foldl take c).definition? p).isSome = true := by
  rw [definition?_foldl_take]
  exact isSome_foldl_merge (by simp [Sighting.definitionAt?_eq_some_iff.2 hentry]) _ hx

theorem isSome_typedefs_foldl_take {name target : String} (c : Codebase) {xs : List Sighting}
    (hx : .typedef name target ∈ xs) : ((xs.foldl take c).typedefs[name]?).isSome = true := by
  rw [typedefs_foldl_take]
  exact isSome_foldl_merge (by simp [Sighting.targetOf?]) _ hx

theorem holds_foldl_take {context : ScanContext} {e : Record} (hname : e.name.isSome = true)
    {xs : List Sighting} (hxs : Sighting.ofRecord context e ⊆ xs) (c : Codebase) :
    (xs.foldl take c).Holds e := by
  obtain ⟨name, hname⟩ := Option.isSome_iff_exists.1 hname
  refine ⟨name, hname, ?_, fun v hv => ?_, fun v hv hdiffers => ?_⟩
  · obtain ⟨x, hx, d, hentry, -⟩ := Sighting.record_entry_mem_ofRecord (c := context) hname
    exact isSome_definition?_foldl_take hentry c (hxs hx)
  · obtain ⟨x, hx, d, hentry, -⟩ := Sighting.field_entry_mem_ofRecord (c := context) hname hv
    exact isSome_definition?_foldl_take hentry c (hxs hx)
  · have hbound : Sighting.typedef v.name.text name.text ∈ Sighting.ofRecord context e := by
      simp only [Sighting.ofRecord, hname, List.mem_append, List.mem_map, List.mem_filter]
      exact Or.inl (Or.inr ⟨v, ⟨hv, by simpa using hdiffers⟩, rfl⟩)
    exact isSome_typedefs_foldl_take c (hxs hbound)

end Codebase

namespace RecordTree

variable {c : ScanContext} {r : RecordDecl}

theorem register_lone (depth : Nat) (g : Registration) (e : Record) :
    register c depth g (lone e) = ⟨g.scan.addRecord c e, g.calls ++ [(depth, e)]⟩ := by
  rw [lone, register]
  cases hname : e.name <;> simp [SourceScan.addRecord, hname, registerAll]

theorem registerAll_lone (depth : Nat) (g : Registration) (records : List Record) :
    registerAll c depth g (records.map lone) =
      ⟨records.foldl (SourceScan.addRecord c) g.scan, g.calls ++ records.map ((depth, ·))⟩ := by
  induction records generalizing g with
  | nil => simp [registerAll]
  | cons e rest ih =>
    rw [List.map_cons, registerAll, register_lone, ih]
    simp

/-- Records are put into the table one level deep. -/
theorem register_ofDecl (depth : Nat) (g : Registration) (r : RecordDecl) :
    register c depth g (ofDecl r) =
      ⟨SourceScan.addRecordDecl c g.scan r, g.calls ++ (depth, r.toRecord) ::
        if r.name.isSome then r.nested.map ((depth + 1, ·)) else []⟩ := by
  rw [ofDecl, register, SourceScan.addRecordDecl]
  cases hname : r.name <;> simp [registerAll_lone]

/-- With a record that has a name, the records inside it are put into the table. -/
theorem holds_addRecordDecl (hname : r.name.isSome = true)
    (hnested : ∀ e ∈ r.nested, e.name.isSome = true) (s : SourceScan) :
    ∀ e ∈ r.listed, (SourceScan.addRecordDecl c s r).codebase.Holds e := by
  intro e he
  rw [SourceScan.addRecordDecl_eq, Codebase.foldl_addTo_codebase,
    Sighting.ofRecordDecl_eq hname]
  have hnamed : e.name.isSome = true := by
    rcases RecordDecl.mem_listed_iff.1 he with ⟨hname, rfl⟩ | hdeeper
    · exact hname
    · exact hnested e hdeeper
  exact Codebase.holds_foldl_take hnamed (fun x hx => List.mem_flatMap.2 ⟨e, he, hx⟩) _

end RecordTree

namespace RecordDecl

open Record

/-- Reading a record goes down into bodies that are shorter than the token they stand in, so it
comes to an end, and what is read is flat. Putting the record into the table goes down one level,
and if the record has a name, all the records inside that have one get into the table. -/
theorem read_flat (parent : Option String) (tokens : List Token) :
    RecordTree.read parent tokens = some ((ofTokens? parent tokens).map RecordTree.ofDecl) ∧
      (∀ header, header? parent tokens = some header →
        (∃ t ∈ tokens, t.interior? = some header.body ∧
          header.body.chars.length < t.chars.length) ∧
        ∀ s ∈ Statement.within header.body, size s.tokens < size tokens) ∧
      ∀ r, ofTokens? parent tokens = some r → Flat r ∧ ∀ (c : ScanContext) (s : SourceScan),
        RecordTree.register c 0 ⟨s, []⟩ (RecordTree.ofDecl r) =
          ⟨SourceScan.addRecordDecl c s r,
            (0, r.toRecord) :: if r.name.isSome then r.nested.map ((1, ·)) else []⟩ ∧
        (r.name.isSome = true →
          ∀ e ∈ r.listed, (SourceScan.addRecordDecl c s r).codebase.Holds e) := by
  refine ⟨RecordTree.read_eq parent tokens, fun header hheader => ⟨?_, fun s hs => ?_⟩,
    fun r hr => ⟨flat hr, fun c s => ⟨?_, fun hname => ?_⟩⟩⟩
  · obtain ⟨t, ht, hinterior⟩ := header?_body hheader
    exact ⟨t, ht, hinterior, size_interior hinterior⟩
  · exact size_statement_lt hheader hs
  · exact RecordTree.register_ofDecl 0 ⟨s, []⟩ r
  · exact RecordTree.holds_addRecordDecl hname (fun e he => (exists_around hr he).1) s

/-- Two levels down, inside a record whose members join those of the outermost. -/
example :
    let text := "struct outer { struct { int a; struct inner { int b; }; }; int c; };"
    ((Statement.ofSource 0 text).head?.bind ofStatement?).map
        (fun r => (r.members.map (·.name.text), r.nested.map fun e => (e.name?, e.parent))) =
      some (["a", "c"], [(some "inner", some "")]) := by
  decide +kernel

/-- A record with a name, inside one that has none at the top of a file, is read but does not get
into the table. -/
theorem inside_nameless_not_held :
    let text := "struct { struct inner { int a; } x; } v;"
    ((Statement.ofSource 0 text).head?.bind ofStatement?).map
        (fun r => (r.name?, r.nested.map name?)) = some (none, [some "inner"]) ∧
      (SourceScan.readText default 0 SourceScan.start text).codebase.definition?
        (.record "inner") = none := by
  intro text
  have hread : ∃ s ∈ Statement.ofSource 0 text, Statement.ofSource 0 text = [s] ∧
      SourceScan.linkageBody? TypeCarry.idle s = none ∧
      ((ofStatement? s).map fun r => (r.name?, r.nested.map name?)) =
        some (none, [some "inner"]) ∧
      (Sighting.ofStatement default TypeCarry.idle s).1.length = 0 := by
    decide +kernel
  obtain ⟨s, -, hs, hbody, hr, hnone⟩ := hread
  refine ⟨by rw [hs]; exact hr, ?_⟩
  rw [Codebase.readText_codebase, Sighting.ofText_singleton hs hbody,
    List.length_eq_zero_iff.1 hnone]
  rfl

end RecordDecl

end CBoundary
