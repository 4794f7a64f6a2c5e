import CBoundary.Proofs.TypedefList
import CBoundary.Proofs.TypedefChain

/-!
Resolved names that are resolved again. Tags and typedef names are looked up in one table, and a
name that is to be resolved is taken for a typedef first, even where it is a known record. So a
record that the first resolution stopped at is followed on if its tag is a typedef name as well,
unless that leads back to it before it leads to any other record. All other resolved names stay.
Main statement: `History.resolved_again`.
-/
namespace CBoundary

namespace Codebase

variable {c : Codebase} {name : String}

/-- A record whose tag is a typedef name as well is the first record that this typedef leads to. -/
def Settled (c : Codebase) (name : String) : Prop :=
  name ∈ c.types → name ∈ c.typedefs → FirstReached c.typedefs (· ∈ c.types) name name

theorem untypedef_of_none (h : c.typedefs[name]? = none) : c.untypedef name = name := by
  simp [untypedef, typedefChain_of_none h]

theorem untypedef_of_record {t : String} (h : FirstReached c.typedefs (· ∈ c.types) name t) :
    c.untypedef name = t := by
  rcases untypedef_cases c name with hfirst | ⟨hnone, -⟩
  · exact hfirst.unique h
  · obtain ⟨k, hk, ht, -⟩ := h
    exact absurd ht (hnone k t hk)

/-- Where no record is reached and only records have fields, a name stands for the end of its
chain. -/
theorem untypedef_of_no_record (howner : ∀ owner : String, owner ∈ c.fields → owner ∈ c.types)
    (hnone : NoneReached c.typedefs (· ∈ c.types) name) :
    c.untypedef name = lastOf c.typedefs name := by
  rcases untypedef_cases c name with ⟨k, hk, hrecord, -⟩ | ⟨-, ⟨k, hk, hfields, -⟩ | ⟨-, hlast⟩⟩
  · exact absurd hrecord (hnone k _ hk)
  · exact absurd (howner _ hfields) (hnone k _ hk)
  · exact hlast

theorem lastOf_mem_typedefChain (h : name ∈ c.typedefs) :
    lastOf c.typedefs name ∈ typedefChain c.typedefs name := by
  obtain ⟨target, htarget⟩ :=
    Option.isSome_iff_exists.1 (Std.ExtTreeMap.mem_iff_isSome_getElem?.1 h)
  rw [lastOf, typedefChain_of_some htarget, List.getLast?_cons]
  apply List.mem_of_getLast?
  rw [List.getLast?_cons, Option.getD_some]

/-- A record stays when it is resolved exactly if it is settled. -/
theorem untypedef_eq_self_iff (howner : ∀ owner : String, owner ∈ c.fields → owner ∈ c.types)
    (hrecord : name ∈ c.types) : c.untypedef name = name ↔ c.Settled name := by
  constructor
  · intro hself _ htypedef
    rcases untypedef_cases c name with hfirst | ⟨hnone, -⟩
    · rwa [hself] at hfirst
    -- the end of the chain would be the record, which no hop reaches
    · have hlast := untypedef_of_no_record howner hnone
      obtain ⟨k, hk⟩ := mem_typedefChain_iff.1 (lastOf_mem_typedefChain htypedef)
      rw [← hlast, hself] at hk
      exact absurd hrecord (hnone k name hk)
  · intro hsettled
    by_cases htypedef : name ∈ c.typedefs
    · exact untypedef_of_record (hsettled hrecord htypedef)
    · apply untypedef_of_none
      exact Std.ExtTreeMap.getElem?_eq_none htypedef

/-- Resolving a resolved name changes nothing exactly if the name is settled. -/
theorem untypedef_untypedef_iff (howner : ∀ owner : String, owner ∈ c.fields → owner ∈ c.types)
    (name : String) :
    c.untypedef (c.untypedef name) = c.untypedef name ↔ c.Settled (c.untypedef name) := by
  by_cases hrecord : c.untypedef name ∈ c.types
  · exact untypedef_eq_self_iff howner hrecord
  · have hsettled : c.Settled (c.untypedef name) := fun h => absurd h hrecord
    refine iff_of_true ?_ hsettled
    rcases untypedef_cases c name with ⟨-, -, hmem, -⟩ | ⟨hnone, -⟩
    · exact absurd hmem hrecord
    · have hlast := untypedef_of_no_record howner hnone
      obtain ⟨k, hk⟩ := exists_hops_untypedef c name
      have hagain := untypedef_of_no_record howner (hnone.of_hops hk)
      rw [hagain, hlast, lastOf_lastOf]

/-- The type that a definition is declared with, if it is a field. -/
def baseOf? (d : Definition) : Option String :=
  match d.details with
  | .field v => some v.baseType
  | _ => none

/-- The type of a field, as far as typedefs lead. -/
def typeOf? (c : Codebase) (d : Definition) : Option String :=
  (baseOf? d).bind fun base => if base == "" then none else some (c.untypedef base)

theorem fieldType?_eq (c : Codebase) (record field : String) :
    c.fieldType? record field =
      ((c.field? record field).or (c.field? (c.untypedef record) field)).bind c.typeOf? := by
  unfold fieldType?
  split
  · rename_i v heq
    rw [heq]
    rfl
  · rename_i hother
    cases hfound : (c.field? record field).or (c.field? (c.untypedef record) field) with
    | none => rfl
    | some d =>
      rw [Option.bind_some, typeOf?, baseOf?]
      split
      · rename_i v hv
        obtain ⟨⟩ := d
        subst hv
        exact absurd hfound (hother _ _ _ _ _ _ _ _)
      · rfl

theorem typeOf?_eq_some {d : Definition} {base : String} (h : baseOf? d = some base)
    (hnamed : base ≠ "") : c.typeOf? d = some (c.untypedef base) := by
  rw [typeOf?, h, Option.bind_some]
  apply if_neg
  simpa using hnamed

end Codebase

namespace Sighting

/-- The sightings of statements that are all read in place. -/
def inOrder (c : ScanContext) (carry : TypeCarry) : List Statement → List Sighting
  | [] => []
  | s :: rest => (ofStatement c carry s).1 ++ inOrder c (ofStatement c carry s).2 rest

theorem ofStatements_eq_inOrder (c : ScanContext) (carry : TypeCarry) {statements : List Statement}
    (h : ∀ s ∈ statements, s.kind ≠ .linkage) :
    ofStatements c carry statements = inOrder c carry statements := by
  induction statements generalizing carry with
  | nil => rw [ofStatements, inOrder]
  | cons s rest ih =>
    have hbody : SourceScan.linkageBody? carry s = none := by
      simp [SourceScan.linkageBody?, h s List.mem_cons_self]
    rw [ofStatements_cons c hbody, inOrder, ih _ fun t ht => h t (List.mem_cons_of_mem s ht)]

end Sighting

namespace Reading

open Codebase

/-- No statement of the text is a linkage specification. -/
def IsPlain (r : Reading) : Prop := ∀ s ∈ Statement.ofSource r.base r.text, s.kind ≠ .linkage

instance (r : Reading) : Decidable r.IsPlain :=
  inferInstanceAs (Decidable (∀ s ∈ Statement.ofSource r.base r.text, s.kind ≠ .linkage))

/-- The sightings of a plain text. -/
def inOrder (r : Reading) : List Sighting :=
  Sighting.inOrder r.context TypeCarry.idle (Statement.ofSource r.base r.text)

/-- What a plain text defines at a place. -/
def definedAt (r : Reading) (p : Place) : Option Definition :=
  r.inOrder.foldl (fun found x => found.merge Definition.merge (x.definitionAt? p)) none

/-- What a typedef of a plain text stands for. -/
def targetOf (r : Reading) (name : String) : Option String :=
  r.inOrder.foldl (fun found x => found.merge (fun first _ => first) (x.targetOf? name)) none

variable {r : Reading}

theorem IsPlain.sightings_eq (h : r.IsPlain) : r.sightings = r.inOrder :=
  Sighting.ofStatements_eq_inOrder r.context TypeCarry.idle h

theorem IsPlain.definition? (h : r.IsPlain) (p : Place) :
    (History.empty.read r).codebase.definition? p = r.definedAt p := by
  have hnone : Codebase.empty.definition? p = none := by
    cases p <;> simp [Codebase.definition?, field?, Codebase.empty]
  rw [History.codebase_read, h.sightings_eq, definition?_foldl_take, History.codebase, hnone,
    definedAt]

theorem IsPlain.typedefs (h : r.IsPlain) (name : String) :
    (History.empty.read r).codebase.typedefs[name]? = r.targetOf name := by
  have hnone : Codebase.empty.typedefs[name]? = none := by simp [Codebase.empty]
  rw [History.codebase_read, h.sightings_eq, typedefs_foldl_take, History.codebase, hnone, targetOf]

theorem IsPlain.mem_types (h : r.IsPlain) (name : String) :
    name ∈ (History.empty.read r).codebase.types ↔ (r.definedAt (.record name)).isSome = true := by
  rw [← h.definition?]
  exact Std.ExtTreeMap.mem_iff_isSome_getElem?

end Reading

namespace History

open Codebase

/-- Resolving a resolved name changes nothing exactly if the name is settled: if it is a record and
a typedef name as well, that typedef leads back to it before it leads to another record. If it is
settled, or has the field itself, no other record is searched for the field; and a field whose type
it is has just this type exactly if it is settled. -/
theorem resolved_again (h : History) (name : String) :
    let c := h.codebase
    let r := c.untypedef name
    (c.untypedef r = r ↔ c.Settled r) ∧
      (∀ field : String, (c.Settled r ∨ (c.field? r field).isSome = true) →
        c.fieldType? r field = (c.field? r field).bind c.typeOf?) ∧
      (∀ (owner field : String) (d : Definition), c.field? owner field = some d →
        baseOf? d = some r → r ≠ "" → (c.fieldType? owner field = some r ↔ c.Settled r)) := by
  intro c r
  have howner (owner : String) (hmem : owner ∈ c.fields) : owner ∈ c.types := by
    obtain ⟨name, hfield⟩ := (h.fieldsListed owner).1 hmem
    exact h.owner_mem_types hfield
  have hiff : c.untypedef r = r ↔ c.Settled r := untypedef_untypedef_iff howner name
  refine ⟨hiff, ?_, ?_⟩
  · intro field hfield
    rw [fieldType?_eq]
    cases hown : c.field? r field with
    | some d => rfl
    | none =>
      rw [hown] at hfield
      rcases hfield with hsettled | hsome
      · rw [hiff.2 hsettled, hown, Option.none_or]
      · cases hsome
  · intro owner field d hd hbase hnamed
    rw [fieldType?_eq, hd, Option.some_or, Option.bind_some, typeOf?_eq_some hbase hnamed,
      Option.some.injEq]
    exact hiff

/-- A record whose tag is a typedef name stays if the typedefs lead back to it. -/
theorem record_on_cycle_stays :
    let r : Reading :=
      ⟨default, 0, "struct a \x7b struct a *next; \x7d; typedef struct a b; typedef struct b a;"⟩
    let c := (History.empty.read r).codebase
    let t := c.untypedef "b"
    t = "a" ∧ "a" ∈ c.types ∧ "a" ∈ c.typedefs ∧ c.untypedef t = "a" ∧
      c.fieldType? "a" "next" = some "a" := by
  intro r c t
  have hread : r.IsPlain ∧ r.targetOf "a" = some "b" ∧ r.targetOf "b" = some "a" ∧
      (r.definedAt (.record "a")).isSome = true ∧ (r.definedAt (.record "b")).isSome = false ∧
      (r.definedAt (.field "a" "next")).bind baseOf? = some "a" := by
    decide +kernel
  obtain ⟨hplain, ha, hb, hrecord, hother, hbase⟩ := hread
  rw [← hplain.typedefs] at ha hb
  rw [← hplain.definition?, Option.bind_eq_some_iff] at hbase
  obtain ⟨d, hd, hbase⟩ := hbase
  have hrecord : "a" ∈ c.types := (hplain.mem_types "a").2 hrecord
  have hother : "b" ∉ c.types := by
    rw [hplain.mem_types, hother]
    exact Bool.false_ne_true
  have hresolved : c.untypedef "b" = "a" := untypedef_of_record
    ⟨0, hb, hrecord, fun i hi => absurd hi (Nat.not_lt_zero i)⟩
  have hsettled : c.Settled "a" := by
    intro _ _
    refine ⟨1, (hops_succ_of_target ha 1).trans hb, hrecord, ?_⟩
    intro i hi u hu hmem
    obtain rfl : i = 0 := by omega
    obtain rfl : "b" = u := Option.some.inj (ha.symm.trans hu)
    exact hother hmem
  obtain ⟨hagain, -, htype⟩ := resolved_again (History.empty.read r) "b"
  rw [hresolved] at hagain htype
  refine ⟨hresolved, hrecord, ?_, ?_, ?_⟩
  · exact Std.ExtTreeMap.mem_iff_isSome_getElem?.2 (by rw [ha]; rfl)
  · exact (congrArg c.untypedef hresolved).trans (hagain.2 hsettled)
  · exact (htype "a" "next" d hd hbase (by decide)).2 hsettled

/-- The record that a typedef stands for is followed on, since its tag is a typedef name too: when
it is resolved again, when it is the type of a field, and when a field is looked for in it. -/
theorem known_record_followed_again :
    let r : Reading :=
      ⟨default, 0, "struct rec \x7b int a; \x7d; typedef struct rec T; typedef struct other rec; " ++
        "struct other \x7b struct rec r; \x7d;"⟩
    let c := (History.empty.read r).codebase
    let t := c.untypedef "T"
    t = "rec" ∧ "rec" ∈ c.types ∧ c.untypedef t = "other" ∧
      c.fieldType? "other" "r" = some "other" ∧ c.fieldType? "rec" "r" = some "other" := by
  intro r c t
  have hread : r.IsPlain ∧ r.targetOf "T" = some "rec" ∧ r.targetOf "rec" = some "other" ∧
      (r.definedAt (.record "rec")).isSome = true ∧
      (r.definedAt (.record "other")).isSome = true ∧
      (r.definedAt (.field "other" "r")).bind baseOf? = some "rec" ∧
      r.definedAt (.field "rec" "r") = none := by
    decide +kernel
  obtain ⟨hplain, hname, htag, hrecord, hother, hbase, hlacking⟩ := hread
  rw [← hplain.typedefs] at hname htag
  rw [← hplain.definition?, Option.bind_eq_some_iff] at hbase
  rw [← hplain.definition?] at hlacking
  obtain ⟨d, hd, hbase⟩ := hbase
  have hrecord : "rec" ∈ c.types := (hplain.mem_types "rec").2 hrecord
  have hother : "other" ∈ c.types := (hplain.mem_types "other").2 hother
  have hfirst : t = "rec" := untypedef_of_record
    ⟨0, hname, hrecord, fun i hi => absurd hi (Nat.not_lt_zero i)⟩
  have hsecond : c.untypedef "rec" = "other" := untypedef_of_record
    ⟨0, htag, hother, fun i hi => absurd hi (Nat.not_lt_zero i)⟩
  have htype : c.typeOf? d = some "other" :=
    (typeOf?_eq_some hbase (by decide)).trans (congrArg some hsecond)
  have hfield : c.field? "other" "r" = some d := hd
  have hlacking : c.field? "rec" "r" = none := hlacking
  refine ⟨hfirst, hrecord, (congrArg c.untypedef hfirst).trans hsecond, ?_, ?_⟩
  · rw [fieldType?_eq, hfield, Option.some_or, Option.bind_some, htype]
  · rw [fieldType?_eq, hlacking, hsecond, hfield, Option.none_or, Option.bind_some, htype]

end History

end CBoundary
