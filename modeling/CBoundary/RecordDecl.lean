import CBoundary.Variable

/-!
Definitions of structs, unions and enums. Records defined inside the body of another are
lifted out of it, at any depth: those with a name are listed beside the outermost one, each
with the name of the record around it, and the members of a nameless record without
variables join the members of the record around it. Reading a body means reading records in
it, which ends because the inside of a brace group is shorter than the statement around it.
-/
namespace CBoundary

open Keyword

/-- The parts of one record definition. -/
structure Record where
  /-- The record word. -/
  kind : Token
  /-- The tag, or the first typedef name of a record without one. -/
  name : Option Token
  /-- The inside of the body. -/
  body : Token
  /-- Fields, or the constants of an enum. -/
  members : List Variable
  /-- Names bound by a typedef. -/
  typedefs : List Variable
  /-- Variables declared right behind the body. -/
  declared : List Variable
  /-- Name of the record around this one. -/
  parent : Option String
  preComment : Option Token
  postComment : Option Token
deriving DecidableEq, Repr, Inhabited

/-- A record definition and the named records defined inside its body, at any depth. -/
structure RecordDecl extends Record where
  nested : List Record
deriving DecidableEq, Repr, Inhabited

namespace Record

/-- The name of the record, if it has one. -/
def name? (r : Record) : Option String := r.name.map Token.text

def isNested (r : Record) : Bool := r.parent.isSome

def isEnum (r : Record) : Bool := r.kind.isWord "enum"

/-- Qualifiers, annotation words and their groups, which may stand anywhere around the
tag. -/
def isSkippable (t : Token) : Bool :=
  t.isGroup .paren || isWordAmong qualifiers t || isWordAmong defaultAnnotations t

/-- Reads up to the record word: whether a typedef word came before it, the record word, and
the code behind it. -/
def readKind? (isTypedef : Bool) : List Token → Option (Bool × Token × List Token)
  | [] => none
  | t :: rest =>
      if t.isWord "typedef" then readKind? true rest
      else if isWordAmong recordWords t then some (isTypedef, t, rest)
      else if isSkippable t then readKind? isTypedef rest
      else none

/-- Reads up to the body: the tag, the inside of the body, and the code behind it. -/
def readBody? (tag : Option Token) : List Token → Option (Option Token × Token × List Token)
  | [] => none
  | t :: rest =>
      if t.isGroup .brace then t.interior?.map fun inner => (tag, inner, rest)
      else if isSkippable t then readBody? tag rest
      else if tag.isSome || !isName t then none
      else readBody? (some t) rest

/-- Reads a record off its tokens, all but its members. -/
def header? (parent : Option String) (tokens : List Token) : Option Record := do
  let (preComment, start) := AdjacentComment.leading tokens
  let postComment := AdjacentComment.trailing? start tokens
  let (isTypedef, kind, behindKind) ← readKind? false (TokenList.code (tokens.drop start))
  let (tag, body, behindBody) ← readBody? none behindKind
  let terminator := ((tokens.reverse.find? Token.isSeparator).map Token.text).getD ""
  let declarators := (behindBody.filter fun t => isName t && !isSkippable t).map fun name =>
    ({ typename := kind :: tag.toList, name, preComment, postComment, terminator } : Variable)
  let typedefs := if isTypedef then declarators else []
  return {
    kind
    name := tag.or (typedefs.head?.map Variable.name)
    body
    members := []
    typedefs
    declared := if isTypedef then [] else declarators
    parent
    preComment
    postComment }

/-- Number of characters in a list of tokens. -/
def size (tokens : List Token) : Nat := (tokens.flatMap Token.chars).length

theorem size_interior {t inner : Token} (h : t.interior? = some inner) :
    inner.chars.length < t.chars.length := by
  unfold Token.interior? at h
  split at h
  · rename_i hchars
    simp only [Option.some.injEq] at h
    subst h
    simp only [Token.chars] at hchars ⊢
    rw [hchars, String.toList_ofList, List.length_dropLast]
    simp only [List.length_cons]
    omega
  · simp at h

theorem size_mem {t : Token} {tokens : List Token} (h : t ∈ tokens) :
    t.chars.length ≤ size tokens := by
  induction tokens with
  | nil => simp at h
  | cons u rest ih =>
    simp only [size, List.flatMap_cons, List.length_append] at ih ⊢
    rcases List.mem_cons.1 h with rfl | h
    · omega
    · have := ih h
      omega

theorem readKind?_mem {isTypedef found : Bool} {code rest : List Token} {kind : Token}
    (h : readKind? isTypedef code = some (found, kind, rest)) : ∀ t ∈ rest, t ∈ code := by
  fun_induction readKind? isTypedef code with
  | case1 => simp at h
  | case2 isTypedef t behind _ ih => exact fun u hu => List.mem_cons_of_mem _ (ih h u hu)
  | case3 =>
    simp only [Option.some.injEq, Prod.mk.injEq] at h
    obtain ⟨-, -, rfl⟩ := h
    exact fun u hu => List.mem_cons_of_mem _ hu
  | case4 isTypedef t behind _ _ _ ih => exact fun u hu => List.mem_cons_of_mem _ (ih h u hu)
  | case5 => simp at h

theorem readBody?_mem {tag found : Option Token} {code rest : List Token} {body : Token}
    (h : readBody? tag code = some (found, body, rest)) :
    ∃ t ∈ code, t.interior? = some body := by
  fun_induction readBody? tag code with
  | case1 => simp at h
  | case2 tag t behind _ =>
    simp only [Option.map_eq_some_iff, Prod.mk.injEq] at h
    obtain ⟨inner, hinner, -, rfl, -⟩ := h
    exact ⟨t, List.mem_cons_self, hinner⟩
  | case3 tag t behind _ _ ih =>
    obtain ⟨u, hu, hbody⟩ := ih h
    exact ⟨u, List.mem_cons_of_mem _ hu, hbody⟩
  | case4 => simp at h
  | case5 tag t behind _ _ _ ih =>
    obtain ⟨u, hu, hbody⟩ := ih h
    exact ⟨u, List.mem_cons_of_mem _ hu, hbody⟩

/-- The body of a record is the inside of one of its tokens. -/
theorem header?_body {parent : Option String} {tokens : List Token} {r : Record}
    (h : header? parent tokens = some r) : ∃ t ∈ tokens, t.interior? = some r.body := by
  simp only [header?, Option.bind_eq_bind, Option.bind_eq_some_iff, Option.pure_def,
    Option.some.injEq, Prod.exists] at h
  obtain ⟨isTypedef, kind, behindKind, hkind, tag, body, behindBody, hbody, rfl⟩ := h
  obtain ⟨t, ht, hinner⟩ := readBody?_mem hbody
  refine ⟨t, ?_, hinner⟩
  have hcode := readKind?_mem hkind t ht
  exact List.mem_of_mem_drop (List.mem_filter.1 hcode).1

/-- A statement in the body of a record is shorter than the record. -/
theorem size_statement_lt {parent : Option String} {tokens : List Token} {r : Record}
    (h : header? parent tokens = some r) {s : Statement} (hs : s ∈ Statement.within r.body) :
    size s.tokens < size tokens := by
  obtain ⟨t, ht, hinner⟩ := header?_body h
  have hall : (Statement.within r.body).flatMap Statement.tokens =
      TokenStream.within r.body := Statement.flatMap_tokens_ofTokens _
  have hchars : (TokenStream.within r.body).flatMap Token.chars = r.body.chars :=
    TokenStream.flatMap_chars_ofChars _ _ _ _
  have hle : size s.tokens ≤ r.body.chars.length := by
    obtain ⟨before, behind, hsplit⟩ := List.append_of_mem hs
    rw [← hchars, ← hall, hsplit]
    simp only [size, List.flatMap_append, List.flatMap_cons, List.length_append]
    omega
  have := size_interior hinner
  have := size_mem ht
  omega

end Record

namespace RecordDecl

open Record

/-- What has been read of the body of a record. -/
structure BodyState where
  members : List Variable
  nested : List Record
  carry : TypeCarry

def BodyState.start : BodyState := ⟨[], [], TypeCarry.idle⟩

/-- Reads one more statement of a body. `inner` is the record it defines, if it has the form
of a record definition and can be read as one. -/
def BodyState.step (b : BodyState) (s : Statement) (inner : Option RecordDecl) : BodyState :=
  if s.kind.isRecord then
    match inner with
    | none => { b with carry := TypeCarry.idle }
    | some inner =>
        { members := b.members ++
            (if inner.name.isNone && inner.declared.isEmpty then inner.members
             else inner.declared)
          nested := b.nested ++ (if inner.name.isSome then [inner.toRecord] else []) ++
            inner.nested
          carry := TypeCarry.idle }
  else
    { b with
      members := b.members ++ (b.carry.parse s.tokens).1.toList
      carry := (b.carry.parse s.tokens).2 }

/-- Reads a record off its tokens; `parent` names the record around it. -/
def ofTokens? (parent : Option String) (tokens : List Token) : Option RecordDecl :=
  match _h : header? parent tokens with
  | none => none
  | some header =>
      let around := header.name?.getD ""
      let inner := (Statement.within header.body).attach.map fun s =>
        (s.1, if s.1.kind.isRecord then ofTokens? (some around) s.1.tokens else none)
      let body := inner.foldl (fun b read => BodyState.step b read.1 read.2) BodyState.start
      some { header with members := body.members, nested := body.nested }
termination_by size tokens
decreasing_by exact size_statement_lt _h s.2

/-- Reads a record off a statement. -/
def ofStatement? (s : Statement) : Option RecordDecl := ofTokens? none s.tokens

end RecordDecl

namespace Record

/-- Do two sightings agree in everything but positions? -/
def agrees (r s : Record) : Bool :=
  r.kind.agrees s.kind && r.name? == s.name? && r.body.agrees s.body &&
    listAgrees r.members s.members && listAgrees r.typedefs s.typedefs &&
    listAgrees r.declared s.declared && r.parent == s.parent &&
    r.preComment.map Token.text == s.preComment.map Token.text &&
    r.postComment.map Token.text == s.postComment.map Token.text
where
  /-- Lists of declarators agree entry by entry. -/
  listAgrees (vs ws : List Variable) : Bool :=
    vs.length == ws.length && (vs.zip ws).all fun (v, w) => v.agrees w

/-- The name as messages show it. -/
def displayName (r : Record) : String := r.name?.getD "<anonymous>"

/-- What two sightings of a record disagree about. -/
def conflicts (r s : Record) : List String :=
  (if r.kind.agrees s.kind then [] else
    [s!"record kind mismatch for {r.displayName}: {r.kind.text} != {s.kind.text}"]) ++
  (if r.name? == s.name? then [] else
    [s!"record name mismatch: {r.displayName} != {s.displayName}"]) ++
  (if r.body.agrees s.body then [] else [s!"record redefinition: {r.displayName}"])

/-- Adds a typedef name unless it is there already. -/
def addTypedef (typedefs : List Variable) (v : Variable) : List Variable :=
  if typedefs.any fun w => w.name.agrees v.name then typedefs else typedefs ++ [v]

/-- Takes over from a second sighting the typedef names and the comments that are missing in
the first. -/
def absorb (r s : Record) : Record :=
  { r with
    typedefs := s.typedefs.foldl addTypedef r.typedefs
    preComment := r.preComment.or s.preComment
    postComment := r.postComment.or s.postComment }

end Record

end CBoundary
