import CBoundary.FunctionDecl
import CBoundary.Proofs.TokenPlacement
import CBoundary.RecordDecl

/-!
Names of declarations stand in the text that the declarations are read from. A name is one of
the tokens of a statement, or a token of the inside of a group in it: a pointer declarator, or
the body of a record, whose statements are read in place and may hold records again.
-/
namespace CBoundary

variable {base : Nat} {text : List Char} {tokens : List Token}

namespace DeclaratorState

/-- What has been collected stands in the text. -/
structure Stands (base : Nat) (text : List Char) (d : DeclaratorState) : Prop where
  collected : ∀ t ∈ d.collected, t.StandsIn base text
  pointerName : ∀ name, d.pointerName = some name → name.StandsIn base text

variable {d e : DeclaratorState} {t name : Token}

theorem stands_start : start.Stands base text :=
  ⟨fun _ h => absurd h List.not_mem_nil, fun _ h => nomatch h⟩

theorem stands_nameInPointer? (ht : t.ReadFrom base text) (h : nameInPointer? t = some name) :
    name.StandsIn base text := by
  obtain ⟨inner, hinner, hname⟩ := Option.bind_eq_some_iff.1 h
  have hmem : name ∈ TokenStream.within inner :=
    (List.mem_filter.1 (List.mem_of_getLast? hname)).1
  exact ((ht.interior hinner).within hmem).stands

theorem Stands.collect (h : d.Stands base text) (ht : t.ReadFrom base text) :
    { d with collected := d.collected ++ [t] : DeclaratorState }.Stands base text := by
  refine ⟨?_, h.pointerName⟩
  intro u hu
  rcases List.mem_append.1 hu with hu | hu
  · exact h.collected u hu
  · obtain rfl := List.mem_singleton.1 hu
    exact ht.stands

theorem Stands.step (h : d.Stands base text) (ht : t.ReadFrom base text)
    (hstep : d.step t = some e) : e.Stands base text := by
  unfold DeclaratorState.step at hstep
  split at hstep
  · exact Option.some.inj hstep ▸ h
  · split at hstep
    · split at hstep
      · exact Option.some.inj hstep ▸ ⟨h.collected, h.pointerName⟩
      · split at hstep
        · obtain ⟨name, hname, rfl⟩ := Option.map_eq_some_iff.1 hstep
          refine ⟨h.collected, ?_⟩
          intro other hother
          obtain rfl := Option.some.inj hother
          exact stands_nameInPointer? ht hname
        · split at hstep
          · exact Option.some.inj hstep ▸ h.collect ht
          · exact Option.some.inj hstep ▸ ⟨h.collected, h.pointerName⟩
    · split at hstep
      · exact Option.some.inj hstep ▸ h
      · split at hstep
        · exact Option.some.inj hstep ▸ ⟨h.collected, h.pointerName⟩
        · split at hstep
          · exact Option.some.inj hstep ▸ h.collect ht
          · simp at hstep

theorem Stands.foldlM (h : d.Stands base text) (ht : ∀ t ∈ tokens, t.ReadFrom base text)
    (hfold : tokens.foldlM DeclaratorState.step d = some e) : e.Stands base text := by
  induction tokens generalizing d with
  | nil => exact Option.some.inj hfold ▸ h
  | cons t rest ih =>
    rw [List.foldlM_cons] at hfold
    obtain ⟨next, hnext, hrest⟩ := Option.bind_eq_some_iff.1 hfold
    have hstep := h.step (ht t List.mem_cons_self) hnext
    exact ih hstep (fun u hu => ht u (List.mem_cons_of_mem t hu)) hrest

theorem Stands.typeAndName? (h : d.Stands base text) {typename : List Token}
    (hname : d.typeAndName? = some (typename, name)) : name.StandsIn base text := by
  unfold DeclaratorState.typeAndName? at hname
  split at hname
  · rename_i pointer hpointer
    obtain ⟨-, rfl⟩ := Prod.mk.inj (Option.some.inj hname)
    exact h.pointerName _ hpointer
  · split at hname
    · simp at hname
    · rename_i last before hlast
      split at hname
      · obtain ⟨-, rfl⟩ := Prod.mk.inj (Option.some.inj hname)
        have hmem : last ∈ d.collected.reverse.dropWhile (·.isGroup .paren) := by
          rw [hlast]
          exact List.mem_cons_self
        exact h.collected last (List.mem_reverse.1 ((List.dropWhile_suffix _).subset hmem))
      · simp at hname

end DeclaratorState

theorem Variable.ofTokens?_name {v : Variable} (ht : ∀ t ∈ tokens, t.ReadFrom base text)
    (h : Variable.ofTokens? tokens = some v) : v.name.StandsIn base text := by
  simp only [Variable.ofTokens?, Option.bind_eq_bind, Option.bind_eq_some_iff, Option.pure_def,
    Option.some.injEq, Prod.exists] at h
  obtain ⟨state, hstate, typename, name, hname, rfl⟩ := h
  have hread : ∀ t ∈ (tokens.drop (AdjacentComment.leading tokens).2).takeWhile
      (fun t => !t.isSeparator), t.ReadFrom base text := by
    intro t hmem
    exact ht t (List.mem_of_mem_drop ((List.takeWhile_prefix _).subset hmem))
  exact (DeclaratorState.stands_start.foldlM hread hstate).typeAndName? hname

theorem TypeCarry.parse_name {c : TypeCarry} {v : Variable}
    (ht : ∀ t ∈ tokens, t.ReadFrom base text) (h : (c.parse tokens).1 = some v) :
    v.name.StandsIn base text := by
  unfold TypeCarry.parse at h
  split at h
  · rename_i w hw
    obtain rfl := Option.some.inj h
    have hname : (c.complete w).name = w.name := by
      unfold TypeCarry.complete
      split <;> rfl
    rw [hname]
    exact Variable.ofTokens?_name ht hw
  · simp at h

namespace FunctionDecl

theorem withoutAnnotations_subset (annotations : List String) (skipping : Bool) :
    withoutAnnotations annotations skipping tokens ⊆ tokens := by
  fun_induction withoutAnnotations annotations skipping tokens with
  | case1 => exact List.Subset.refl _
  | case2 _ t rest _ ih => exact List.subset_cons_of_subset t ih
  | case3 _ t rest _ _ ih => exact List.subset_cons_of_subset t ih
  | case4 _ t rest _ _ _ ih => exact List.subset_cons_of_subset t ih
  | case5 _ t rest _ _ _ ih => exact List.cons_subset_cons t ih

theorem ofTokens?_name {annotations : List String} {f : FunctionDecl}
    (ht : ∀ t ∈ tokens, t.ReadFrom base text) (h : ofTokens? annotations tokens = some f) :
    f.name.StandsIn base text := by
  simp only [ofTokens?, Option.bind_eq_bind, Option.bind_eq_some_iff, Option.pure_def,
    Option.some.injEq, Option.filter_eq_some_iff] at h
  obtain ⟨parameters, -, name, ⟨hname, -⟩, rfl⟩ := h
  have hcode := (List.mem_filter.1 (List.mem_of_getLast? hname)).1
  have hmem := List.mem_of_mem_drop ((List.takeWhile_prefix _).subset hcode)
  exact (ht name (withoutAnnotations_subset annotations false hmem)).stands

end FunctionDecl

namespace Record

/-- The names of the record, of its members and of its variables stand in the text. -/
structure Stands (base : Nat) (text : List Char) (r : Record) : Prop where
  name : ∀ name, r.name = some name → name.StandsIn base text
  members : ∀ v ∈ r.members, v.name.StandsIn base text
  declared : ∀ v ∈ r.declared, v.name.StandsIn base text

theorem readBody?_tag {tag found : Option Token} {code rest : List Token} {body name : Token}
    (h : readBody? tag code = some (found, body, rest)) (hname : found = some name) :
    tag = some name ∨ name ∈ code := by
  fun_induction readBody? tag code with
  | case1 => simp at h
  | case2 tag t behind _ =>
    simp only [Option.map_eq_some_iff, Prod.mk.injEq] at h
    obtain ⟨-, -, rfl, -, -⟩ := h
    exact Or.inl hname
  | case3 tag t behind _ _ ih =>
    rcases ih h with htag | hmem
    · exact Or.inl htag
    · exact Or.inr (List.mem_cons_of_mem t hmem)
  | case4 => simp at h
  | case5 tag t behind _ _ _ ih =>
    rcases ih h with htag | hmem
    · obtain rfl := Option.some.inj htag
      exact Or.inr List.mem_cons_self
    · exact Or.inr (List.mem_cons_of_mem t hmem)

theorem readBody?_rest {tag found : Option Token} {code rest : List Token} {body : Token}
    (h : readBody? tag code = some (found, body, rest)) : rest ⊆ code := by
  fun_induction readBody? tag code with
  | case1 => simp at h
  | case2 tag t behind _ =>
    simp only [Option.map_eq_some_iff, Prod.mk.injEq] at h
    obtain ⟨-, -, -, -, rfl⟩ := h
    exact List.subset_cons_self t behind
  | case3 tag t behind _ _ ih => exact List.subset_cons_of_subset t (ih h)
  | case4 => simp at h
  | case5 tag t behind _ _ _ ih => exact List.subset_cons_of_subset t (ih h)

/-- A record takes its name and those of its variables from its own tokens. -/
theorem header?_stands {parent : Option String} {r : Record}
    (ht : ∀ t ∈ tokens, t.ReadFrom base text) (h : header? parent tokens = some r) :
    r.Stands base text := by
  simp only [header?, Option.bind_eq_bind, Option.bind_eq_some_iff, Option.pure_def,
    Option.some.injEq, Prod.exists] at h
  obtain ⟨isTypedef, kind, behindKind, hkind, tag, body, behindBody, hbody, rfl⟩ := h
  have hbehind : ∀ t ∈ behindKind, t.StandsIn base text := by
    intro t hmem
    have hcode := readKind?_mem hkind t hmem
    exact (ht t (List.mem_of_mem_drop (List.mem_filter.1 hcode).1)).stands
  have hdeclarator : ∀ name ∈ behindBody.filter (fun t => Keyword.isName t && !isSkippable t),
      name.StandsIn base text := by
    intro name hmem
    exact hbehind name (readBody?_rest hbody (List.mem_filter.1 hmem).1)
  refine ⟨?_, ?_, ?_⟩
  · intro name hname
    rcases Option.or_eq_some_iff.1 hname with htag | ⟨-, hfirst⟩
    · rcases readBody?_tag hbody htag with hnone | hmem
      · simp at hnone
      · exact hbehind name hmem
    · obtain ⟨v, hv, rfl⟩ := Option.map_eq_some_iff.1 hfirst
      split at hv
      · obtain ⟨name, hmem, rfl⟩ := List.mem_map.1 (List.mem_of_head? hv)
        exact hdeclarator name hmem
      · simp at hv
  · intro v hv
    simp at hv
  · intro v hv
    simp only at hv
    split at hv
    · simp at hv
    · obtain ⟨name, hmem, rfl⟩ := List.mem_map.1 hv
      exact hdeclarator name hmem

end Record

namespace RecordDecl

open Record

/-- The names of the record and of the records inside it stand in the text. -/
structure Stands (base : Nat) (text : List Char) (r : RecordDecl) : Prop where
  record : r.toRecord.Stands base text
  nested : ∀ inner ∈ r.nested, inner.Stands base text

/-- What has been read of the body stands in the text. -/
structure BodyState.Stands (base : Nat) (text : List Char) (b : BodyState) : Prop where
  members : ∀ v ∈ b.members, v.name.StandsIn base text
  nested : ∀ r ∈ b.nested, r.Stands base text

theorem BodyState.Stands.step {b : BodyState} {s : Statement} {inner : Option RecordDecl}
    (h : b.Stands base text) (hs : ∀ t ∈ s.tokens, t.ReadFrom base text)
    (hinner : ∀ r, inner = some r → r.Stands base text) : (b.step s inner).Stands base text := by
  unfold BodyState.step
  split
  · cases inner with
    | none => exact ⟨h.members, h.nested⟩
    | some r =>
      obtain ⟨hrecord, hnested⟩ := hinner r rfl
      refine ⟨?_, ?_⟩
      · intro v hv
        rcases List.mem_append.1 hv with hv | hv
        · exact h.members v hv
        · split at hv
          · exact hrecord.members v hv
          · exact hrecord.declared v hv
      · intro other hother
        rcases List.mem_append.1 hother with hother | hother
        · rcases List.mem_append.1 hother with hother | hother
          · exact h.nested other hother
          · split at hother
            · obtain rfl := List.mem_singleton.1 hother
              exact hrecord
            · simp at hother
        · exact hnested other hother
  · refine ⟨?_, h.nested⟩
    intro v hv
    rcases List.mem_append.1 hv with hv | hv
    · exact h.members v hv
    · exact TypeCarry.parse_name hs (Option.mem_toList.1 hv)

/-- The names in a record stand in the text that the record is read from, at any depth. -/
theorem ofTokens?_stands {parent : Option String} {r : RecordDecl}
    (ht : ∀ t ∈ tokens, t.ReadFrom base text) (h : ofTokens? parent tokens = some r) :
    r.Stands base text := by
  induction hn : size tokens using Nat.strongRecOn generalizing parent tokens r with
  | ind n ih =>
    rw [ofTokens?] at h
    split at h
    · simp at h
    · rename_i header hheader
      obtain rfl := Option.some.inj h
      have hstands := header?_stands ht hheader
      obtain ⟨group, hgroup, hbody⟩ := header?_body hheader
      have hstatements : ∀ s ∈ Statement.within header.body, ∀ t ∈ s.tokens,
          t.ReadFrom base text := by
        intro s hs t hmem
        exact Statement.readFrom_of_mem_within ((ht group hgroup).interior hbody) hs hmem
      have hfold : (((Statement.within header.body).attach.map fun s =>
            (s.1, if s.1.kind.isRecord then
              ofTokens? (some (header.name?.getD "")) s.1.tokens else none)).foldl
          (fun b read => BodyState.step b read.1 read.2) BodyState.start).Stands base text := by
        apply List.foldlRecOn
        · exact ⟨fun _ hv => absurd hv List.not_mem_nil, fun _ hr => absurd hr List.not_mem_nil⟩
        · intro b hb read hread
          obtain ⟨⟨s, hs⟩, -, rfl⟩ := List.mem_map.1 hread
          refine hb.step (hstatements s hs) ?_
          intro inner hinner
          split at hinner
          · have hlt := size_statement_lt hheader hs
            exact ih _ (hn ▸ hlt) (hstatements s hs) hinner rfl
          · simp at hinner
      exact ⟨⟨hstands.name, hfold.members, hstands.declared⟩, hfold.nested⟩

end RecordDecl

end CBoundary
