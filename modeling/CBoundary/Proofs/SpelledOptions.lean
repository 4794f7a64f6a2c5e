import CBoundary.CheckOptions
import CBoundary.Proofs.GivenDefinition
import CBoundary.Proofs.SourceOrder

/-!
The arguments of a check that spell out its options. Each argument is read for itself: the text up
to its first equality sign says which option it gives, and the value is taken apart at its first
colon, or at its first parenthesis, whatever comes behind. Modules, files and macros are collected
in the order they are given in, and everything else is set, so only the arguments of an option that
is collected need to keep their order. Main statement: `parse_reordered`.
-/
namespace CBoundary

open CharacterClass

namespace ExtraMacro

/-- A macro that can be given in an argument. Nothing is asked of its body. -/
structure Spellable (m : ExtraMacro) : Prop where
  name : isIdentifier m.name.toList = true
  trimmed : ∀ ps, m.parameters = some ps → ∀ p ∈ ps, trim p.toList = p.toList
  ne_empty : ∀ ps, m.parameters = some ps → ∀ p ∈ ps, p ≠ ""
  unmarked : ∀ ps, m.parameters = some ps → ∀ p ∈ ps, ',' ∉ p.toList ∧ '=' ∉ p.toList

/-- A piece of a parameter list that holds a parameter, maybe with white space around it. -/
structure HoldsParameter (piece : List Char) : Prop where
  trim_ne_nil : trim piece ≠ []
  comma : ',' ∉ piece
  sign : '=' ∉ piece

/-- The insides of the parameter lists that give the parameters. -/
inductive Lists : Option (List Char) → Option (List String) → Prop where
  | none : Lists none none
  | some {pieces : List (List Char)} (h : ∀ piece ∈ pieces, HoldsParameter piece) :
      Lists (some ([','].intercalate pieces))
        (some (pieces.map fun piece => String.ofList (trim piece)))

/-- The text gives the macro. The equality sign may be missing if there is no body. -/
structure SpelledBy (m : ExtraMacro) (text : String) : Prop where
  name : isIdentifier m.name.toList = true
  written : ∃ list tail, Lists list m.parameters ∧
    (tail = '=' :: m.body.toList ∨ tail = [] ∧ m.body = "") ∧
    text = String.ofList (m.name.toList ++ parens list ++ tail)

theorem Lists.parametersOf_eq {list : Option (List Char)} {ps : Option (List String)}
    (h : Lists list ps) : list.map parametersOf = ps := by
  cases h with
  | none => rfl
  | @some pieces h =>
    by_cases hne : pieces = []
    · subst hne
      rfl
    · have hfull : (pieces.map trim).filter (!·.isEmpty) = pieces.map trim := by
        refine List.filter_eq_self.2 (List.forall_mem_map.2 fun piece hpiece => ?_)
        simpa using (h piece hpiece).trim_ne_nil
      rw [Option.map_some, parametersOf, MacroDefinition.splitAtCommas_intercalate hne
        fun piece hpiece => (h piece hpiece).comma, hfull, List.map_map]
      rfl

theorem Lists.sign_notMem {list : Option (List Char)} {ps : Option (List String)}
    (h : Lists list ps) : '=' ∉ parens list := by
  cases h with
  | none => simp [parens]
  | @some pieces h =>
    simp only [parens, List.cons_append, List.mem_cons, List.mem_append]
    rintro (hmem | hmem | hmem)
    · exact absurd hmem (by decide)
    · rcases MacroDefinition.mem_of_mem_intercalate hmem with hmem | ⟨piece, hpiece, hmem⟩
      · exact absurd hmem (by decide)
      · exact (h piece hpiece).sign hmem
    · exact absurd hmem (by decide)

/-- A text that gives a macro is read as this macro. -/
theorem parse?_of_spelledBy {m : ExtraMacro} {text : String} (h : m.SpelledBy text) :
    parse? text = some m := by
  obtain ⟨list, tail, hlist, htail, rfl⟩ := h.written
  have hsign (c : Char) (hc : tail.head? = some c) : c = '=' := by
    rcases htail with rfl | ⟨rfl, -⟩
    · exact (Option.some.inj hc).symm
    · cases hc
  have hbody : String.ofList (tail.drop 1) = m.body := by
    rcases htail with rfl | ⟨rfl, hbody⟩
    · simp
    · simp [hbody]
  rw [parse?_written h.name hlist.sign_notMem hsign, hlist.parametersOf_eq, hbody,
    String.ofList_toList]

/-- The macro as it is given with no white space around its parameters. -/
def text (m : ExtraMacro) : String :=
  String.ofList (m.name.toList ++
    parens (m.parameters.map fun ps => [','].intercalate (ps.map String.toList)) ++
      '=' :: m.body.toList)

theorem Spellable.spelledBy {m : ExtraMacro} (h : m.Spellable) : m.SpelledBy m.text := by
  refine ⟨h.name, _, _, ?_, .inl rfl, rfl⟩
  cases hparameters : m.parameters with
  | none => exact .none
  | some ps =>
    have hpieces : ∀ piece ∈ ps.map String.toList, HoldsParameter piece := by
      refine List.forall_mem_map.2 fun p hp => ⟨?_, ?_, ?_⟩
      · rw [h.trimmed ps hparameters p hp]
        simpa using h.ne_empty ps hparameters p hp
      · exact (h.unmarked ps hparameters p hp).1
      · exact (h.unmarked ps hparameters p hp).2
    have hread : (ps.map String.toList).map (fun piece => String.ofList (trim piece)) = ps := by
      rw [List.map_map, List.map_congr_left (g := id), List.map_id]
      intro p hp
      simp [h.trimmed ps hparameters p hp]
    have hlists := Lists.some hpieces
    rwa [hread] at hlists

end ExtraMacro

namespace CheckArgument

/-- The texts that give an argument. -/
inductive Spells : CheckArgument → String → Prop where
  | root {path : SourcePath} (h : path.text.toList.head? ≠ some '-') : Spells (.root path) path.text
  | module {m : Module} (hname : m.name ≠ "") (hcolon : ':' ∉ m.name.toList)
      (hdirectory : m.directory ≠ "") :
      Spells (.module m) ("--module=" ++ (m.name ++ ":" ++ m.directory))
  | moduleName {name : String} (hname : name ≠ "") (hcolon : ':' ∉ name.toList) :
      Spells (.module (Module.named name)) ("--module=" ++ name)
  | extraFile {path : SourcePath} (h : path.text ≠ "") :
      Spells (.extraFile path) ("--extra-file=" ++ path.text)
  | define {m : ExtraMacro} {text : String} (h : m.SpelledBy text) :
      Spells (.define m) ("--define=" ++ text)
  | threads {count : Nat} (h : count < threadBound) :
      Spells (.threads count) ("--threads=" ++ toString count)
  | plain {option : String} {asked : CheckArgument} (h : (option, asked) ∈ plain) :
      Spells asked option

/-- The text that gives an argument. -/
def text : CheckArgument → String
  | .root path => path.text
  | .module m => "--module=" ++ (m.name ++ ":" ++ m.directory)
  | .extraFile path => "--extra-file=" ++ path.text
  | .define m => "--define=" ++ m.text
  | .threads count => "--threads=" ++ toString count
  | .sequential => "--no-parallel"
  | .cache => "--cache"
  | .clearCache => "--clear-cache"
  | .warnModuleMismatch => "--warn-module-mismatch"
  | .verbose => "--verbose"

/-- Is it the option that the argument gives a value for? -/
def gives (option argument : String) : Bool := (option ++ "=").toList.isPrefixOf argument.toList

theorem module?_written {m : Module} (hname : m.name ≠ "") (hcolon : ':' ∉ m.name.toList)
    (hdirectory : m.directory ≠ "") : module? (m.name ++ ":" ++ m.directory) = some m := by
  have hfront (c : Char) (hc : c ∈ m.name.toList) : (c != ':') = true := by
    simpa using fun heq : c = ':' => hcolon (heq ▸ hc)
  have hbehind (c : Char) (hc : (':' :: m.directory.toList).head? = some c) :
      (c != ':') = false := by
    obtain rfl := Option.some.inj hc
    rfl
  have htext : (m.name ++ ":" ++ m.directory).toList =
      m.name.toList ++ ':' :: m.directory.toList := by simp
  simp only [module?, htext, MacroDefinition.takeWhile_front hfront hbehind,
    MacroDefinition.dropWhile_front hfront hbehind]
  simp [hname, hdirectory]

theorem module?_name {name : String} (hname : name ≠ "") (hcolon : ':' ∉ name.toList) :
    module? name = some (Module.named name) := by
  have hfront (c : Char) (hc : c ∈ name.toList) : (c != ':') = true := by
    simpa using fun heq : c = ':' => hcolon (heq ▸ hc)
  simp only [module?, List.takeWhile_eq_self_iff.2 hfront, List.dropWhile_eq_nil_iff.2 hfront]
  simp [hname]

theorem valuedOption?_append {option : String} {read? : String → Option CheckArgument}
    (h : (option, read?) ∈ valued) (value : String) :
    valuedOption? (option ++ "=" ++ value) = some (option, read?, value) := by
  simp only [valued, List.mem_cons, List.not_mem_nil, or_false, Prod.mk.injEq] at h
  rcases h with ⟨rfl, rfl⟩ | ⟨rfl, rfl⟩ | ⟨rfl, rfl⟩ | ⟨rfl, rfl⟩ <;>
    simp [valuedOption?, valued, NamingConvention.behind?]

theorem read_append {option start value : String} {read? : String → Option CheckArgument}
    (h : (option, read?) ∈ valued) (hstart : option ++ "=" = start) {asked : CheckArgument}
    (hasked : read? value = some asked) : read (start ++ value) = .ok asked := by
  simp [read, ← hstart, valuedOption?_append h value, hasked]

theorem valuedOption?_eq_none {argument : String} (h : argument.toList.head? ≠ some '-') :
    valuedOption? argument = none := by
  have hstarts (rest : List Char) : ¬ '-' :: rest <+: argument.toList := by
    rintro ⟨behind, hbehind⟩
    exact h (by rw [← hbehind]; rfl)
  simp [valuedOption?, valued, NamingConvention.behind?, hstarts]

theorem lookup_plain_eq_none {argument : String} (h : argument.toList.head? ≠ some '-') :
    plain.lookup argument = none := by
  have hdash : ∀ entry ∈ plain, entry.1.toList.head? = some '-' := by decide
  rw [List.lookup_eq_none_iff]
  intro entry hmem
  rw [bne_iff_ne]
  exact fun heq => h (heq ▸ hdash entry hmem)

/-- A text that gives an argument is read as this argument. -/
theorem read_of_spells {asked : CheckArgument} {argument : String} (h : Spells asked argument) :
    read argument = .ok asked := by
  cases h with
  | root h => simp [read, valuedOption?_eq_none h, lookup_plain_eq_none h, h]
  | module hname hcolon hdirectory =>
    exact read_append (.head _ : ("--module", _) ∈ valued) (by decide)
      (by rw [module?_written hname hcolon hdirectory, Option.map_some])
  | moduleName hname hcolon =>
    exact read_append (.head _ : ("--module", _) ∈ valued) (by decide)
      (by rw [module?_name hname hcolon, Option.map_some])
  | extraFile h =>
    exact read_append (.tail _ (.head _) : ("--extra-file", _) ∈ valued) (by decide)
      (by simp [file?, h])
  | define h =>
    exact read_append (.tail _ (.tail _ (.head _)) : ("--define", _) ∈ valued) (by decide)
      (by rw [ExtraMacro.parse?_of_spelledBy h, Option.map_some])
  | threads h =>
    exact read_append (.tail _ (.tail _ (.tail _ (.head _))) : ("--threads", _) ∈ valued)
      (by decide) (by simp [DecimalNumeral.read?_toDigits h])
  | plain h =>
    have hread : ∀ entry ∈ CheckArgument.plain, read entry.1 = .ok entry.2 := by
      decide +kernel
    exact hread (argument, asked) h

def asRoot? : CheckArgument → Option SourcePath
  | .root path => some path
  | _ => none

def asModule? : CheckArgument → Option Module
  | .module m => some m
  | _ => none

def asFile? : CheckArgument → Option SourcePath
  | .extraFile path => some path
  | _ => none

def asMacro? : CheckArgument → Option ExtraMacro
  | .define m => some m
  | _ => none

def asThreads? : CheckArgument → Option Nat
  | .threads count => some count
  | _ => none

/-- The options whose values are collected. -/
def collected : List String := ["--module", "--extra-file", "--define"]

/-- The option that collects what is asked for. -/
def collector? : CheckArgument → Option String
  | .module _ => some "--module"
  | .extraFile _ => some "--extra-file"
  | .define _ => some "--define"
  | _ => none

/-- What an argument asks for, if it can be read. -/
def asked? (argument : String) : Option CheckArgument := (read argument).toOption

theorem asked?_of_spells {asked : CheckArgument} {argument : String} (h : Spells asked argument) :
    asked? argument = some asked := by
  rw [asked?, read_of_spells h]
  rfl

theorem gives_append {option start : String} (hstart : option ++ "=" = start) (value : String) :
    gives option (start ++ value) = true := by
  simp [gives, ← hstart]

/-- What is collected is given by an argument of the option that collects it. -/
theorem gives_collector {asked : CheckArgument} {argument option : String}
    (h : Spells asked argument) (hoption : asked.collector? = some option) :
    gives option argument = true := by
  cases h with
  | root | threads => cases hoption
  | module | moduleName | extraFile | define =>
    obtain rfl := Option.some.inj hoption
    exact gives_append (by decide) _
  | plain h =>
    have hnone : ∀ entry ∈ CheckArgument.plain, entry.2.collector? = none := by decide
    cases (hnone (argument, asked) h).symm.trans hoption

/-- What is collected can be collected from the arguments of its option only. -/
theorem collect_of_gives {β : Type} {part? : CheckArgument → Option β} {option : String}
    (hpart : ∀ asked, asked.collector? ≠ some option → part? asked = none)
    {arguments : List String} (h : ∀ argument ∈ arguments, ∃ asked, Spells asked argument) :
    (arguments.filterMap asked?).filterMap part? =
      (((arguments.filter (gives option)).filterMap asked?).filterMap part?) := by
  rw [List.filterMap_filterMap, List.filterMap_filterMap, List.filterMap_filter]
  refine List.filterMap_congr fun argument hargument => ?_
  obtain ⟨asked, hasked⟩ := h argument hargument
  split
  · rfl
  · rename_i hgives
    rw [asked?_of_spells hasked, Option.bind_some]
    exact hpart asked fun hoption => hgives (gives_collector hasked hoption)

end CheckArgument

namespace CheckOptions

open CheckArgument

variable {o : CheckOptions} {asked reordered : List CheckArgument}

/-- What the arguments of a check ask for, to be the options: the root once, what is collected in
its order, and everything else as often as one likes. No number of threads is like zero of them. -/
structure AskedBy (o : CheckOptions) (asked : List CheckArgument) : Prop where
  root : asked.filterMap asRoot? = [o.root]
  modules : asked.filterMap asModule? = o.modules
  extraFiles : asked.filterMap asFile? = o.extraFiles
  extraMacros : asked.filterMap asMacro? = o.extraMacros
  threads : ∀ count, .threads count ∈ asked → count = o.threads
  threads_asked : .threads o.threads ∈ asked ∨ o.threads = 0
  sequential : .sequential ∈ asked ↔ o.parallel = false
  cache : .cache ∈ asked ↔ o.cache = true
  clearCache : .clearCache ∈ asked ↔ o.clearCache = true
  warnModuleMismatch : .warnModuleMismatch ∈ asked ↔ o.warnModuleMismatch = true
  verbose : .verbose ∈ asked ↔ o.verbose = true

/-- The arguments spell out the options. -/
def SpelledBy (o : CheckOptions) (arguments : List String) : Prop :=
  ∃ asked, o.AskedBy asked ∧ List.Forall₂ Spells asked arguments

/-- The same arguments, with those of each option that collects its values in the same order. -/
structure Reordered (arguments reordered : List String) : Prop where
  perm : reordered.Perm arguments
  order : ∀ option ∈ collected, reordered.filter (gives option) = arguments.filter (gives option)

/-- The options with one more thing asked for. -/
def asking (o : CheckOptions) : CheckArgument → CheckOptions
  | .root path => { o with root := path }
  | .module m => { o with modules := o.modules ++ [m] }
  | .extraFile path => { o with extraFiles := o.extraFiles ++ [path] }
  | .define m => { o with extraMacros := o.extraMacros ++ [m] }
  | .threads count => { o with threads := count }
  | .sequential => { o with parallel := false }
  | .cache => { o with cache := true }
  | .clearCache => { o with clearCache := true }
  | .warnModuleMismatch => { o with warnModuleMismatch := true }
  | .verbose => { o with verbose := true }

theorem Partial.take_of_read {p : Partial} {argument : String} {a : CheckArgument}
    (h : read argument = .ok a) (hroot : p.hasRoot = true → a.asRoot? = none) :
    p.take argument = .ok ⟨p.options.asking a, p.hasRoot || a.asRoot?.isSome⟩ := by
  unfold Partial.take
  rw [h]
  cases a with
  | root path =>
    have hfirst : p.hasRoot = false := by
      cases hhas : p.hasRoot with
      | false => rfl
      | true => cases hroot hhas
    simp [Bind.bind, Except.bind, Pure.pure, Except.pure, asking, asRoot?, hfirst]
  | _ => simp [Bind.bind, Except.bind, asking, asRoot?]

/-- Arguments that can be read are taken in one after the other, with one root among them. -/
theorem foldlM_take {arguments : List String}
    (h : List.Forall₂ (fun a argument => read argument = .ok a) asked arguments) (p : Partial)
    (hroot : (asked.filterMap asRoot?).length + p.hasRoot.toNat ≤ 1) :
    arguments.foldlM Partial.take p =
      .ok ⟨asked.foldl asking p.options, p.hasRoot || !(asked.filterMap asRoot?).isEmpty⟩ := by
  induction h generalizing p with
  | nil => simp [Pure.pure, Except.pure]
  | @cons a argument asked arguments hread _ ih =>
    have hfirst (hhas : p.hasRoot = true) : a.asRoot? = none := by
      cases hpath : a.asRoot? with
      | none => rfl
      | some path => simp [hpath, hhas] at hroot
    have hrest : (asked.filterMap asRoot?).length + (p.hasRoot || a.asRoot?.isSome).toNat ≤ 1 := by
      cases hpath : a.asRoot? with
      | none => simpa [hpath] using hroot
      | some path =>
        rw [List.filterMap_cons_some hpath, List.length_cons] at hroot
        rw [Option.isSome_some, Bool.or_true, Bool.toNat_true]
        omega
    rw [List.foldlM_cons, Partial.take_of_read hread hfirst]
    refine (ih _ hrest).trans ?_
    cases hpath : a.asRoot? <;> simp [hpath]

/-- What is collected stands behind what has been collected before. -/
theorem collect_foldl {β : Type} (part : CheckOptions → List β) (part? : CheckArgument → Option β)
    (hpart : ∀ o a, part (asking o a) = part o ++ (part? a).toList) (asked : List CheckArgument)
    (o : CheckOptions) : part (asked.foldl asking o) = part o ++ asked.filterMap part? := by
  induction asked generalizing o with
  | nil => simp
  | cons a asked ih =>
    rw [List.foldl_cons, ih, hpart, List.append_assoc, List.filterMap_cons]
    cases part? a <;> rfl

/-- A field has a value in the end if nothing sets it to another one, and it has had the value
before or something sets it. -/
theorem set_foldl {β : Type} (field : CheckOptions → β) (value? : CheckArgument → Option β)
    (hfield : ∀ o a, field (asking o a) = (value? a).getD (field o)) {value : β}
    (hsame : ∀ a ∈ asked, ∀ other, value? a = some other → other = value)
    (hset : (∃ a ∈ asked, value? a = some value) ∨ field o = value) :
    field (asked.foldl asking o) = value := by
  induction asked generalizing o with
  | nil => simpa using hset
  | cons a asked ih =>
    obtain ⟨hfirst, hrest⟩ := List.forall_mem_cons.1 hsame
    refine ih hrest ?_
    rw [hfield]
    cases hvalue : value? a with
    | some other => exact .inr (hfirst other hvalue)
    | none => simpa [hvalue] using hset

/-- A flag is on in the end exactly if something turns it on. -/
theorem flag_foldl (flag : CheckOptions → Bool) (a : CheckArgument) {on value : Bool}
    (hflag : ∀ o b, flag (asking o b) = if b = a then on else flag o) (ho : flag o = !on)
    (hasked : a ∈ asked ↔ value = on) : flag (asked.foldl asking o) = value := by
  let value? (b : CheckArgument) : Option Bool := if b = a then some on else none
  have hfield (o : CheckOptions) (b : CheckArgument) :
      flag (asking o b) = (value? b).getD (flag o) := by
    rw [hflag]
    simp only [value?]
    split <;> rfl
  refine set_foldl flag value? hfield (fun b hb other hother => ?_) ?_
  · obtain ⟨rfl, rfl⟩ : b = a ∧ on = other := by simpa [value?] using hother
    exact (hasked.1 hb).symm
  · by_cases hmem : a ∈ asked
    · exact .inl ⟨a, hmem, by simp [value?, hasked.1 hmem]⟩
    · exact .inr (ho.trans (Bool.eq_not_of_ne (mt hasked.2 hmem)).symm)

theorem AskedBy.root_foldl (h : o.AskedBy asked) :
    (asked.foldl asking (standard ⟨""⟩)).root = o.root := by
  have hasked (path : SourcePath) : (∃ a ∈ asked, a.asRoot? = some path) ↔ path = o.root := by
    rw [← List.mem_filterMap, h.root, List.mem_singleton]
  exact set_foldl CheckOptions.root asRoot? (fun o a => by cases a <;> rfl)
    (fun a ha path hpath => (hasked path).1 ⟨a, ha, hpath⟩) (.inl ((hasked o.root).2 rfl))

theorem AskedBy.threads_foldl (h : o.AskedBy asked) :
    (asked.foldl asking (standard ⟨""⟩)).threads = o.threads := by
  refine set_foldl CheckOptions.threads asThreads? (fun o a => by cases a <;> rfl) ?_ ?_
  · intro a ha count hcount
    cases a with
    | threads other =>
      obtain rfl := Option.some.inj hcount
      exact h.threads other ha
    | _ => cases hcount
  · exact h.threads_asked.imp (fun hmem => ⟨_, hmem, rfl⟩) Eq.symm

/-- Taking in what is asked for ends with the options. -/
theorem AskedBy.foldl_asking (h : o.AskedBy asked) :
    asked.foldl asking (standard ⟨""⟩) = o := by
  have hmodules : (asked.foldl asking (standard ⟨""⟩)).modules = o.modules :=
    (collect_foldl CheckOptions.modules asModule?
      (fun o a => by cases a <;> simp [asking, asModule?]) asked _).trans h.modules
  have hfiles : (asked.foldl asking (standard ⟨""⟩)).extraFiles = o.extraFiles :=
    (collect_foldl CheckOptions.extraFiles asFile?
      (fun o a => by cases a <;> simp [asking, asFile?]) asked _).trans h.extraFiles
  have hmacros : (asked.foldl asking (standard ⟨""⟩)).extraMacros = o.extraMacros :=
    (collect_foldl CheckOptions.extraMacros asMacro?
      (fun o a => by cases a <;> simp [asking, asMacro?]) asked _).trans h.extraMacros
  have hparallel : (asked.foldl asking (standard ⟨""⟩)).parallel = o.parallel :=
    flag_foldl CheckOptions.parallel .sequential (fun o a => by cases a <;> simp [asking]) rfl
      h.sequential
  have hcache : (asked.foldl asking (standard ⟨""⟩)).cache = o.cache :=
    flag_foldl CheckOptions.cache .cache (fun o a => by cases a <;> simp [asking]) rfl h.cache
  have hclear : (asked.foldl asking (standard ⟨""⟩)).clearCache = o.clearCache :=
    flag_foldl CheckOptions.clearCache .clearCache (fun o a => by cases a <;> simp [asking]) rfl
      h.clearCache
  have hwarn : (asked.foldl asking (standard ⟨""⟩)).warnModuleMismatch = o.warnModuleMismatch :=
    flag_foldl CheckOptions.warnModuleMismatch .warnModuleMismatch
      (fun o a => by cases a <;> simp [asking]) rfl h.warnModuleMismatch
  have hverbose : (asked.foldl asking (standard ⟨""⟩)).verbose = o.verbose :=
    flag_foldl CheckOptions.verbose .verbose (fun o a => by cases a <;> simp [asking]) rfl h.verbose
  have hroot := h.root_foldl
  have hthreads := h.threads_foldl
  generalize asked.foldl asking (standard ⟨""⟩) = final at *
  cases final
  cases o
  simp_all only

/-- Only what is collected has an order. -/
theorem AskedBy.of_perm (h : o.AskedBy asked) (hperm : reordered.Perm asked)
    (hmodules : reordered.filterMap asModule? = asked.filterMap asModule?)
    (hfiles : reordered.filterMap asFile? = asked.filterMap asFile?)
    (hmacros : reordered.filterMap asMacro? = asked.filterMap asMacro?) : o.AskedBy reordered where
  root := List.perm_singleton.1 (h.root ▸ hperm.filterMap asRoot?)
  modules := hmodules.trans h.modules
  extraFiles := hfiles.trans h.extraFiles
  extraMacros := hmacros.trans h.extraMacros
  threads := fun count hmem => h.threads count (hperm.mem_iff.1 hmem)
  threads_asked := h.threads_asked.imp_left hperm.mem_iff.2
  sequential := hperm.mem_iff.trans h.sequential
  cache := hperm.mem_iff.trans h.cache
  clearCache := hperm.mem_iff.trans h.clearCache
  warnModuleMismatch := hperm.mem_iff.trans h.warnModuleMismatch
  verbose := hperm.mem_iff.trans h.verbose

theorem exists_spells {arguments : List String} (h : List.Forall₂ Spells asked arguments) :
    ∀ argument ∈ arguments, ∃ a, Spells a argument := by
  induction h with
  | nil => simp
  | cons ha _ ih => exact List.forall_mem_cons.2 ⟨⟨_, ha⟩, ih⟩

/-- What is asked for can be read off the arguments. -/
theorem filterMap_asked? {arguments : List String} (h : List.Forall₂ Spells asked arguments) :
    arguments.filterMap asked? = asked := by
  induction h with
  | nil => rfl
  | cons ha _ ih => rw [List.filterMap_cons_some (asked?_of_spells ha), ih]

theorem forall₂_spells {arguments : List String}
    (h : ∀ argument ∈ arguments, ∃ a, Spells a argument) :
    List.Forall₂ Spells (arguments.filterMap asked?) arguments := by
  induction arguments with
  | nil => exact .nil
  | cons argument arguments ih =>
    obtain ⟨⟨a, ha⟩, hrest⟩ := List.forall_mem_cons.1 h
    rw [List.filterMap_cons_some (asked?_of_spells ha)]
    exact .cons ha (ih hrest)

/-- Reordered arguments spell out the same options. -/
theorem SpelledBy.of_reordered {arguments other : List String} (h : o.SpelledBy arguments)
    (hreordered : Reordered arguments other) : o.SpelledBy other := by
  obtain ⟨asked, hasked, hspells⟩ := h
  have hall := exists_spells hspells
  have hother : ∀ argument ∈ other, ∃ a, Spells a argument := fun argument hmem =>
    hall argument (hreordered.perm.mem_iff.1 hmem)
  obtain rfl := filterMap_asked? hspells
  have hcollect {β : Type} {part? : CheckArgument → Option β} {option : String}
      (hoption : option ∈ collected)
      (hpart : ∀ a, a.collector? ≠ some option → part? a = none) :
      (other.filterMap asked?).filterMap part? = (arguments.filterMap asked?).filterMap part? := by
    rw [collect_of_gives hpart hall, collect_of_gives hpart hother, hreordered.order option hoption]
  refine ⟨other.filterMap asked?, hasked.of_perm (hreordered.perm.filterMap asked?) ?_ ?_ ?_,
    forall₂_spells hother⟩
  · refine hcollect (by simp [collected] : "--module" ∈ collected) fun a ha => ?_
    cases a <;> first | rfl | exact absurd rfl ha
  · refine hcollect (by simp [collected] : "--extra-file" ∈ collected) fun a ha => ?_
    cases a <;> first | rfl | exact absurd rfl ha
  · refine hcollect (by simp [collected] : "--define" ∈ collected) fun a ha => ?_
    cases a <;> first | rfl | exact absurd rfl ha

/-- Arguments that spell out options are read as these options. -/
theorem parse_of_spelledBy {arguments : List String} (h : o.SpelledBy arguments) :
    parse arguments = .ok o := by
  obtain ⟨asked, hasked, hspells⟩ := h
  have hread := hspells.imp fun _ _ => read_of_spells
  have htaken := foldlM_take hread ⟨standard ⟨""⟩, false⟩ (by simp [hasked.root])
  rw [hasked.foldl_asking, hasked.root] at htaken
  rw [parse, htaken]
  rfl

/-- Nothing in the options is lost or cut when it is given as an argument. -/
structure Spellable (o : CheckOptions) : Prop where
  root : o.root.text.toList.head? ≠ some '-'
  module_name : ∀ m ∈ o.modules, m.name ≠ ""
  module_colon : ∀ m ∈ o.modules, ':' ∉ m.name.toList
  module_directory : ∀ m ∈ o.modules, m.directory ≠ ""
  extraFiles : ∀ path ∈ o.extraFiles, path.text ≠ ""
  extraMacros : ∀ m ∈ o.extraMacros, m.Spellable
  threads : o.threads < threadBound

/-- An argument that is given if the flag is set. -/
def givenIf (flag : Bool) (a : CheckArgument) : List CheckArgument := if flag then [a] else []

/-- The flags that are not as they are when nothing is asked for. -/
def flags (o : CheckOptions) : List CheckArgument :=
  givenIf (!o.parallel) .sequential ++ givenIf o.cache .cache ++
    givenIf o.clearCache .clearCache ++ givenIf o.warnModuleMismatch .warnModuleMismatch ++
    givenIf o.verbose .verbose

/-- Everything in the options, one after the other. -/
def spelling (o : CheckOptions) : List CheckArgument :=
  .root o.root :: .threads o.threads ::
    (o.modules.map .module ++ o.extraFiles.map .extraFile ++ o.extraMacros.map .define ++ o.flags)

/-- Arguments that spell out the options. -/
def arguments (o : CheckOptions) : List String := o.spelling.map CheckArgument.text

theorem mem_flags {a : CheckArgument} : a ∈ o.flags ↔
    (o.parallel = false ∧ a = .sequential) ∨ (o.cache = true ∧ a = .cache) ∨
      (o.clearCache = true ∧ a = .clearCache) ∨
      (o.warnModuleMismatch = true ∧ a = .warnModuleMismatch) ∨
      (o.verbose = true ∧ a = .verbose) := by
  have hmem (flag : Bool) (b : CheckArgument) : a ∈ givenIf flag b ↔ flag = true ∧ a = b := by
    cases flag <;> simp [givenIf]
  simp only [flags, List.mem_append, hmem, Bool.not_eq_true', or_assoc]

theorem mem_spelling {a : CheckArgument} : a ∈ o.spelling ↔
    a = .root o.root ∨ a = .threads o.threads ∨ (∃ m ∈ o.modules, .module m = a) ∨
      (∃ path ∈ o.extraFiles, .extraFile path = a) ∨ (∃ m ∈ o.extraMacros, .define m = a) ∨
      a ∈ o.flags := by
  simp only [spelling, List.mem_cons, List.mem_append, List.mem_map, or_assoc]

theorem filterMap_flags {β : Type} (part? : CheckArgument → Option β)
    (h : [CheckArgument.sequential, .cache, .clearCache, .warnModuleMismatch, .verbose].filterMap
      part? = []) (o : CheckOptions) : o.flags.filterMap part? = [] := by
  rw [List.filterMap_eq_nil_iff] at h ⊢
  intro a ha
  rcases mem_flags.1 ha with ⟨-, rfl⟩ | ⟨-, rfl⟩ | ⟨-, rfl⟩ | ⟨-, rfl⟩ | ⟨-, rfl⟩ <;>
    exact h _ (by simp)

theorem filterMap_spelling {β : Type} (part? : CheckArgument → Option β) (o : CheckOptions) :
    o.spelling.filterMap part? =
      (part? (.root o.root)).toList ++ (part? (.threads o.threads)).toList ++
        o.modules.filterMap (fun m => part? (.module m)) ++
        o.extraFiles.filterMap (fun path => part? (.extraFile path)) ++
        o.extraMacros.filterMap (fun m => part? (.define m)) ++ o.flags.filterMap part? := by
  rw [spelling, List.filterMap_cons, List.filterMap_cons]
  cases part? (.root o.root) <;> cases part? (.threads o.threads) <;>
    simp [List.filterMap_map]

theorem askedBy_spelling (o : CheckOptions) : o.AskedBy o.spelling := by
  constructor
  case root =>
    rw [filterMap_spelling, filterMap_flags asRoot? rfl]
    simp [asRoot?]
  case modules =>
    rw [filterMap_spelling, filterMap_flags asModule? rfl]
    simp [asModule?]
  case extraFiles =>
    rw [filterMap_spelling, filterMap_flags asFile? rfl]
    simp [asFile?]
  case extraMacros =>
    rw [filterMap_spelling, filterMap_flags asMacro? rfl]
    simp [asMacro?]
  all_goals simp [mem_spelling, mem_flags]

theorem Spellable.spells (h : o.Spellable) {a : CheckArgument} (ha : a ∈ o.spelling) :
    Spells a a.text := by
  rcases mem_spelling.1 ha with rfl | rfl | ⟨m, hm, rfl⟩ | ⟨path, hpath, rfl⟩ | ⟨m, hm, rfl⟩ | ha
  · exact .root h.root
  · exact .threads h.threads
  · exact .module (h.module_name m hm) (h.module_colon m hm) (h.module_directory m hm)
  · exact .extraFile (h.extraFiles path hpath)
  · exact .define (h.extraMacros m hm).spelledBy
  · rcases mem_flags.1 ha with ⟨-, rfl⟩ | ⟨-, rfl⟩ | ⟨-, rfl⟩ | ⟨-, rfl⟩ | ⟨-, rfl⟩ <;>
      exact .plain (by simp [CheckArgument.plain, CheckArgument.text])

theorem Spellable.spelledBy (h : o.Spellable) : o.SpelledBy o.arguments := by
  refine ⟨o.spelling, o.askedBy_spelling, ?_⟩
  rw [arguments, List.forall₂_map_right_iff, List.forall₂_same]
  exact fun a ha => h.spells ha

/-- The arguments that spell out options are read as these options, also if those of different
options are mixed in any order. -/
theorem parse_reordered (h : o.Spellable) :
    o.SpelledBy o.arguments ∧
      ∀ arguments, o.SpelledBy arguments →
        parse arguments = .ok o ∧ ∀ other, Reordered arguments other → parse other = .ok o :=
  ⟨h.spelledBy, fun _ hspelled => ⟨parse_of_spelledBy hspelled, fun _ hreordered =>
    parse_of_spelledBy (hspelled.of_reordered hreordered)⟩⟩

/-- A directory with a colon in it and a body with an equality sign, given among the others. -/
theorem parse_mixed_arguments :
    parse ["--define=N=4", "--cache", "--module=btree:btree", "--define=F(a,b)=a==b", "proj",
        "--threads=3", "--module=cache:block:cache"] =
      .ok { standard ⟨"proj"⟩ with
        modules := [⟨"btree", "btree"⟩, ⟨"cache", "block:cache"⟩]
        extraMacros := [⟨"N", none, "4"⟩, ⟨"F", some ["a", "b"], "a==b"⟩]
        threads := 3
        cache := true } := by
  let o : CheckOptions := { standard ⟨"proj"⟩ with
    modules := [⟨"btree", "btree"⟩, ⟨"cache", "block:cache"⟩]
    extraMacros := [⟨"N", none, "4"⟩, ⟨"F", some ["a", "b"], "a==b"⟩]
    threads := 3
    cache := true }
  have hspellable : o.Spellable :=
    { root := by decide
      module_name := by decide
      module_colon := by decide
      module_directory := by decide
      extraFiles := by decide
      extraMacros := by
        have hobject : ExtraMacro.Spellable ⟨"N", none, "4"⟩ :=
          ⟨by decide, by simp, by simp, by simp⟩
        have hfunction : ExtraMacro.Spellable ⟨"F", some ["a", "b"], "a==b"⟩ :=
          ⟨by decide, by rintro ps ⟨⟩; decide, by rintro ps ⟨⟩; decide, by rintro ps ⟨⟩; decide⟩
        exact List.forall_mem_cons.2 ⟨hobject, List.forall_mem_singleton.2 hfunction⟩
      threads := by decide }
  obtain ⟨hspelled, hparse⟩ := parse_reordered hspellable
  refine (hparse o.arguments hspelled).2 _ ⟨?_, ?_⟩
  · decide +kernel
  · decide +kernel

end CheckOptions

end CBoundary
