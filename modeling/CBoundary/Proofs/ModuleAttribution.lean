import CBoundary.ModuleConfig
import CBoundary.Proofs.PathParts
import CBoundary.TextPosition
import Mathlib.Data.List.Induction
import Mathlib.Data.List.Nodup

/-!
The module that a name or a file belongs to. Of several prefixes, module names or directories that
match, the one with the most bytes counts, and of those with equally many the last one. What matches
at the same place of one text starts with all that is shorter, so the longest match is the one with
the most bytes, and there is only one. Hence the order of a configuration does not matter. For
directories this takes texts without parts that do not count: then the longer text is the deeper
directory. Main statement: `ModuleConfig.attributed_by_longest_match`.
-/
namespace CBoundary

open TextPosition

section Longest

variable {α β : Type} {length : α → Nat} {entries : List α} {best : α} {value : α → β}

/-- The entry is one of those that are listed, and none of them is longer. -/
structure IsLongest (length : α → Nat) (entries : List α) (best : α) : Prop where
  mem : best ∈ entries
  le : ∀ entry ∈ entries, length entry ≤ length best

theorem lastLongest?_concat (entries : List α) (entry : α) :
    lastLongest? length (entries ++ [entry]) =
      match lastLongest? length entries with
      | none => some entry
      | some best => if length best ≤ length entry then some entry else some best := by
  rw [lastLongest?, List.foldl_append]
  rfl

theorem lastLongest?_cases (length : α → Nat) (entries : List α) :
    (lastLongest? length entries = none ∧ entries = []) ∨
      ∃ best, lastLongest? length entries = some best ∧ IsLongest length entries best := by
  induction entries using List.reverseRecOn with
  | nil => exact .inl ⟨rfl, rfl⟩
  | append_singleton entries entry ih =>
    right
    rw [lastLongest?_concat]
    rcases ih with ⟨hnone, rfl⟩ | ⟨best, hsome, hlongest⟩
    · rw [hnone]
      exact ⟨entry, rfl, by simp, by simp⟩
    · rw [hsome]
      by_cases hle : length best ≤ length entry
      · refine ⟨entry, if_pos hle, by simp, fun other hother => ?_⟩
        rcases List.mem_append.1 hother with hother | hother
        · exact (hlongest.le other hother).trans hle
        · rw [List.mem_singleton.1 hother]
      · refine ⟨best, if_neg hle, List.mem_append_left _ hlongest.mem, fun other hother => ?_⟩
        rcases List.mem_append.1 hother with hother | hother
        · exact hlongest.le other hother
        · rw [List.mem_singleton.1 hother]
          omega

theorem lastLongest?_eq_none_iff : lastLongest? length entries = none ↔ entries = [] := by
  rcases lastLongest?_cases length entries with ⟨hnone, hnil⟩ | ⟨best, hsome, hlongest⟩
  · exact iff_of_true hnone hnil
  · exact iff_of_false (by simp [hsome]) (List.ne_nil_of_mem hlongest.mem)

/-- What is read off the longest entry does not depend on where the entries stand, if entries of one
length agree about it. -/
theorem map_lastLongest?_eq_some_iff {found : β}
    (hties : ∀ a ∈ entries, ∀ b ∈ entries, length a = length b → value a = value b) :
    (lastLongest? length entries).map value = some found ↔
      ∃ best, IsLongest length entries best ∧ value best = found := by
  rcases lastLongest?_cases length entries with ⟨hnone, rfl⟩ | ⟨best, hsome, hlongest⟩
  · rw [hnone]
    exact iff_of_false (by simp) fun ⟨best, hbest, _⟩ => by simpa using hbest.mem
  · rw [hsome, Option.map_some, Option.some.injEq]
    refine ⟨fun h => ⟨best, hlongest, h⟩, ?_⟩
    rintro ⟨other, hother, rfl⟩
    exact hties best hlongest.mem other hother.mem
      (Nat.le_antisymm (hother.le best hlongest.mem) (hlongest.le other hother.mem))

theorem IsLongest.of_perm {entries' : List α} (hperm : entries.Perm entries') :
    IsLongest length entries best ↔ IsLongest length entries' best :=
  ⟨fun h => ⟨hperm.subset h.mem, fun entry hentry => h.le entry (hperm.symm.subset hentry)⟩,
    fun h => ⟨hperm.symm.subset h.mem, fun entry hentry => h.le entry (hperm.subset hentry)⟩⟩

theorem map_lastLongest?_perm {entries' : List α} (hperm : entries.Perm entries')
    (hties : ∀ a ∈ entries, ∀ b ∈ entries, length a = length b → value a = value b) :
    (lastLongest? length entries').map value = (lastLongest? length entries).map value := by
  have hties' : ∀ a ∈ entries', ∀ b ∈ entries', length a = length b → value a = value b :=
    fun a ha b hb => hties a (hperm.symm.subset ha) b (hperm.symm.subset hb)
  refine Option.ext fun found => ?_
  rw [map_lastLongest?_eq_some_iff hties, map_lastLongest?_eq_some_iff hties']
  simp only [IsLongest.of_perm hperm]

end Longest

section Starts

variable {α : Type} {xs ys way : List α} {weight : List α → Nat}

/-- Of two lists that start the same list, the longer one is the one with more weight, if weights
add up and nothing is without weight. -/
theorem weight_le_iff (happend : ∀ xs more, weight (xs ++ more) = weight xs + weight more)
    (hlength : ∀ xs, xs.length ≤ weight xs) (hx : xs <+: way) (hy : ys <+: way) :
    weight xs ≤ weight ys ↔ xs.length ≤ ys.length := by
  rcases List.prefix_or_prefix_of_prefix hx hy with ⟨more, rfl⟩ | ⟨more, rfl⟩
  · rw [happend, List.length_append]
    omega
  · have hmore := hlength more
    rw [happend, List.length_append]
    refine ⟨fun h => by omega, fun h => ?_⟩
    obtain rfl := List.length_eq_zero_iff.1 (show more.length = 0 by omega)
    rw [← happend, List.append_nil]

theorem eq_of_weight_eq (happend : ∀ xs more, weight (xs ++ more) = weight xs + weight more)
    (hlength : ∀ xs, xs.length ≤ weight xs) (hx : xs <+: way) (hy : ys <+: way)
    (h : weight xs = weight ys) : xs = ys := by
  have hle := (weight_le_iff happend hlength hx hy).1 h.le
  have hge := (weight_le_iff happend hlength hy hx).1 h.ge
  exact (List.prefix_of_prefix_length_le hx hy hle).eq_of_length (Nat.le_antisymm hle hge)

end Starts

theorem utf8ByteSize_eq_byteLength (text : String) :
    text.utf8ByteSize = byteLength text.toList := by
  rw [← String.ofList_toList (s := text), String.toList_ofList]
  induction text.toList with
  | nil => rfl
  | cons c rest ih =>
    rw [String.ofList_cons, String.utf8ByteSize_append, String.utf8ByteSize_singleton, ih,
      byteLength_cons]

section Texts

variable {a b : String} {text : List Char}

/-- Of two texts that start the same text, the one with more characters has more bytes. -/
theorem utf8ByteSize_le_iff (ha : a.toList <+: text) (hb : b.toList <+: text) :
    a.utf8ByteSize ≤ b.utf8ByteSize ↔ a.length ≤ b.length := by
  rw [utf8ByteSize_eq_byteLength, utf8ByteSize_eq_byteLength, ← String.length_toList,
    ← String.length_toList]
  exact weight_le_iff byteLength_append length_le_byteLength ha hb

theorem eq_of_utf8ByteSize_eq (ha : a.toList <+: text) (hb : b.toList <+: text)
    (h : a.utf8ByteSize = b.utf8ByteSize) : a = b := by
  rw [utf8ByteSize_eq_byteLength, utf8ByteSize_eq_byteLength] at h
  exact String.toList_inj.1 (eq_of_weight_eq byteLength_append length_le_byteLength ha hb h)

end Texts

namespace NamingConvention

variable {n : NamingConvention} {modules : List Module} {name start : String} {text : List Char}

/-- The prefix is one of the convention that the name starts with, and none of these is longer. -/
structure LongestPrefix (n : NamingConvention) (name start : String) : Prop where
  mem : start ∈ n.privatePrefixes ++ n.publicPrefixes
  starts : start.toList <+: name.toList
  longest : ∀ other ∈ n.privatePrefixes ++ n.publicPrefixes, other.toList <+: name.toList →
    other.length ≤ start.length

/-- The text starts with the name, and an underscore or nothing follows it. -/
def Tags (tag : String) (text : List Char) : Prop :=
  ∃ tail, text = tag.toList ++ tail ∧ (tail = [] ∨ tail.head? = some '_')

/-- The name is that of a module, the text starts with it, and with none that is longer. -/
structure LongestTag (modules : List Module) (text : List Char) (tag : String) : Prop where
  mem : tag ∈ modules.map Module.name
  tags : Tags tag text
  longest : ∀ m ∈ modules, Tags m.name text → m.name.length ≤ tag.length

/-- The module that a text starts with, if there is any. -/
def TagAtStart (modules : List Module) (text : List Char) : Option String → Prop
  | some tag => LongestTag modules text tag
  | none => ∀ m ∈ modules, ¬ Tags m.name text

/-- What the longest prefix of a name says, with the module behind it. -/
def Implies (n : NamingConvention) (modules : List Module) (name : String) (isPrivate : Bool)
    (tag : Option String) : Prop :=
  ∃ start, LongestPrefix n name start ∧ (isPrivate = true ↔ start ∈ n.privatePrefixes) ∧
    TagAtStart modules (name.toList.drop start.length) tag

theorem Tags.starts {tag : String} (h : Tags tag text) : tag.toList <+: text := by
  obtain ⟨tail, rfl, -⟩ := h
  exact List.prefix_append _ _

theorem behind?_any_iff (tag : String) (text : List Char) :
    ((behind? tag.toList text).any fun tail => tail.isEmpty || tail.head? == some '_') = true ↔
      Tags tag text := by
  unfold behind?
  split
  · rename_i hstarts
    obtain ⟨tail, rfl⟩ := List.isPrefixOf_iff_prefix.1 hstarts
    simp [Tags]
  · rename_i hstarts
    exact iff_of_false (by simp) fun h => hstarts (List.isPrefixOf_iff_prefix.2 h.starts)

/-- The modules whose names the text starts with. -/
def tagging (modules : List Module) (text : List Char) : List Module :=
  modules.filter fun m =>
    (behind? m.name.toList text).any fun tail => tail.isEmpty || tail.head? == some '_'

theorem mem_tagging_iff {m : Module} :
    m ∈ tagging modules text ↔ m ∈ modules ∧ Tags m.name text := by
  rw [tagging, List.mem_filter, behind?_any_iff]

theorem tagging_ties : ∀ a ∈ tagging modules text, ∀ b ∈ tagging modules text,
    a.name.utf8ByteSize = b.name.utf8ByteSize → a.name = b.name :=
  fun _ ha _ hb =>
    eq_of_utf8ByteSize_eq (mem_tagging_iff.1 ha).2.starts (mem_tagging_iff.1 hb).2.starts

theorem moduleAtStart?_eq_iff {tag : Option String} :
    moduleAtStart? modules text = tag ↔ TagAtStart modules text tag := by
  change (lastLongest? _ (tagging modules text)).map Module.name = tag ↔ _
  cases tag with
  | none =>
    rw [Option.map_eq_none_iff, lastLongest?_eq_none_iff, List.eq_nil_iff_forall_not_mem]
    simp only [mem_tagging_iff, not_and]
    rfl
  | some tag =>
    rw [map_lastLongest?_eq_some_iff tagging_ties]
    constructor
    · rintro ⟨m, ⟨hmem, hle⟩, rfl⟩
      obtain ⟨hm, htags⟩ := mem_tagging_iff.1 hmem
      refine ⟨List.mem_map_of_mem hm, htags, fun other hother hothertags => ?_⟩
      exact (utf8ByteSize_le_iff hothertags.starts htags.starts).1
        (hle other (mem_tagging_iff.2 ⟨hother, hothertags⟩))
    · rintro ⟨hmem, htags, hlongest⟩
      obtain ⟨m, hm, rfl⟩ := List.mem_map.1 hmem
      refine ⟨m, ⟨mem_tagging_iff.2 ⟨hm, htags⟩, fun other hother => ?_⟩, rfl⟩
      obtain ⟨hother, hothertags⟩ := mem_tagging_iff.1 hother
      exact (utf8ByteSize_le_iff hothertags.starts htags.starts).2
        (hlongest other hother hothertags)

theorem moduleAtStart?_perm {modules' : List Module} (hperm : modules.Perm modules')
    (text : List Char) : moduleAtStart? modules' text = moduleAtStart? modules text :=
  map_lastLongest?_perm (hperm.filter _) tagging_ties

/-- The prefixes that a name starts with, each with whether it is private. -/
def matching (n : NamingConvention) (name : String) : List (String × Bool) :=
  (n.privatePrefixes.map (·, true) ++ n.publicPrefixes.map (·, false)).filter fun candidate =>
    candidate.1.toList.isPrefixOf name.toList

theorem mem_matching_iff {isPrivate : Bool} : (start, isPrivate) ∈ matching n name ↔
    start ∈ (if isPrivate then n.privatePrefixes else n.publicPrefixes) ∧
      start.toList <+: name.toList := by
  rw [matching, List.mem_filter, List.isPrefixOf_iff_prefix]
  cases isPrivate <;> simp

theorem exists_mem_matching_iff : (∃ isPrivate, (start, isPrivate) ∈ matching n name) ↔
    start ∈ n.privatePrefixes ++ n.publicPrefixes ∧ start.toList <+: name.toList := by
  simp only [mem_matching_iff, Bool.exists_bool, List.mem_append]
  tauto

theorem matching_ties (hn : ∀ start ∈ n.privatePrefixes, start ∉ n.publicPrefixes) :
    ∀ a ∈ matching n name, ∀ b ∈ matching n name,
      a.1.utf8ByteSize = b.1.utf8ByteSize → a = b := by
  rintro ⟨a, pa⟩ ha ⟨b, pb⟩ hb hsize
  rw [mem_matching_iff] at ha hb
  obtain rfl : a = b := eq_of_utf8ByteSize_eq ha.2 hb.2 hsize
  have hboth := hn a
  cases pa <;> cases pb <;> simp_all

theorem classify_eq_none_iff : classify n modules name = none ↔
    ∀ start ∈ n.privatePrefixes ++ n.publicPrefixes, ¬ start.toList <+: name.toList := by
  change (lastLongest? _ (matching n name)).map _ = none ↔ _
  rw [Option.map_eq_none_iff, lastLongest?_eq_none_iff, List.eq_nil_iff_forall_not_mem]
  constructor
  · intro h start hstart hstarts
    obtain ⟨isPrivate, hmem⟩ := exists_mem_matching_iff.2 ⟨hstart, hstarts⟩
    exact h _ hmem
  · rintro h ⟨start, isPrivate⟩ hmem
    obtain ⟨hstart, hstarts⟩ := exists_mem_matching_iff.1 ⟨isPrivate, hmem⟩
    exact h start hstart hstarts

theorem isLongest_matching_iff (hn : ∀ start ∈ n.privatePrefixes, start ∉ n.publicPrefixes)
    {isPrivate : Bool} :
    IsLongest (fun candidate => candidate.1.utf8ByteSize) (matching n name) (start, isPrivate) ↔
      LongestPrefix n name start ∧ (isPrivate = true ↔ start ∈ n.privatePrefixes) := by
  constructor
  · rintro ⟨hmem, hle⟩
    obtain ⟨hstart, hstarts⟩ := exists_mem_matching_iff.1 ⟨isPrivate, hmem⟩
    refine ⟨⟨hstart, hstarts, fun other hother hotherstarts => ?_⟩, ?_⟩
    · obtain ⟨p, hp⟩ := exists_mem_matching_iff.2 ⟨hother, hotherstarts⟩
      exact (utf8ByteSize_le_iff hotherstarts hstarts).1 (hle _ hp)
    · obtain ⟨hside, -⟩ := mem_matching_iff.1 hmem
      cases isPrivate with
      | false => exact iff_of_false Bool.false_ne_true fun hprivate => hn start hprivate hside
      | true => exact iff_of_true rfl hside
  · rintro ⟨⟨hstart, hstarts, hlongest⟩, hprivate⟩
    refine ⟨mem_matching_iff.2 ⟨?_, hstarts⟩, ?_⟩
    · cases isPrivate <;> simp_all
    · rintro ⟨other, p⟩ hp
      obtain ⟨hother, hotherstarts⟩ := exists_mem_matching_iff.1 ⟨p, hp⟩
      exact (utf8ByteSize_le_iff hotherstarts hstarts).2 (hlongest other hother hotherstarts)

theorem classify_eq_some_iff (hn : ∀ start ∈ n.privatePrefixes, start ∉ n.publicPrefixes)
    {isPrivate : Bool} {tag : Option String} :
    classify n modules name = some (isPrivate, tag) ↔ Implies n modules name isPrivate tag := by
  have hties : ∀ a ∈ matching n name, ∀ b ∈ matching n name,
      a.1.utf8ByteSize = b.1.utf8ByteSize →
        (a.2, moduleAtStart? modules (name.toList.drop a.1.length)) =
          (b.2, moduleAtStart? modules (name.toList.drop b.1.length)) := fun a ha b hb hsize => by
    rw [matching_ties hn a ha b hb hsize]
  refine (map_lastLongest?_eq_some_iff hties).trans ?_
  constructor
  · rintro ⟨⟨start, p⟩, hlongest, hvalue⟩
    obtain ⟨rfl, htag⟩ := Prod.mk.inj hvalue
    obtain ⟨hstart, hprivate⟩ := (isLongest_matching_iff hn).1 hlongest
    exact ⟨start, hstart, hprivate, moduleAtStart?_eq_iff.1 htag⟩
  · rintro ⟨start, hstart, hprivate, htag⟩
    exact ⟨(start, isPrivate), (isLongest_matching_iff hn).2 ⟨hstart, hprivate⟩,
      Prod.ext rfl (moduleAtStart?_eq_iff.2 htag)⟩

theorem classify_perm {n' : NamingConvention} {modules' : List Module}
    (hn : ∀ start ∈ n.privatePrefixes, start ∉ n.publicPrefixes)
    (hprivate : n.privatePrefixes.Perm n'.privatePrefixes)
    (hpublic : n.publicPrefixes.Perm n'.publicPrefixes) (hmodules : modules.Perm modules')
    (name : String) : classify n' modules' name = classify n modules name := by
  have hmatching : (matching n name).Perm (matching n' name) :=
    ((hprivate.map _).append (hpublic.map _)).filter _
  have hvalues : (fun candidate : String × Bool =>
      (candidate.2, moduleAtStart? modules' (name.toList.drop candidate.1.length))) =
        fun candidate =>
          (candidate.2, moduleAtStart? modules (name.toList.drop candidate.1.length)) :=
    funext fun candidate => by rw [moduleAtStart?_perm hmodules]
  change (lastLongest? _ (matching n' name)).map _ = (lastLongest? _ (matching n name)).map _
  refine Eq.trans (congrArg (Option.map · _) hvalues) (map_lastLongest?_perm hmatching ?_)
  intro a ha b hb hsize
  rw [matching_ties hn a ha b hb hsize]

end NamingConvention

namespace SourcePath

variable {p q : SourcePath}

/-- Every part of the path counts: none is empty, and none is a single dot. So it is relative and
names at least one directory. -/
def IsNormal (p : SourcePath) : Prop :=
  ∀ part ∈ splitAtSlashes p.text.toList, part ≠ [] ∧ part ≠ ['.']

instance (p : SourcePath) : Decidable p.IsNormal :=
  inferInstanceAs (Decidable (∀ part ∈ splitAtSlashes p.text.toList, part ≠ [] ∧ part ≠ ['.']))

/-- The part of a text that a component stands for. -/
def Component.chars : Component → List Char
  | .root => []
  | .here => ['.']
  | .up => ['.', '.']
  | .name text => text.toList

theorem componentOf?_chars {part : List Char} (h : part ≠ [] ∧ part ≠ ['.']) :
    ∃ c, componentOf? part = some c ∧ c.chars = part := by
  unfold componentOf?
  rw [if_neg (by simpa using h)]
  split
  · rename_i hup
    exact ⟨.up, rfl, (beq_iff_eq.1 hup).symm⟩
  · exact ⟨.name (String.ofList part), rfl, String.toList_ofList⟩

theorem map_chars_filterMap {parts : List (List Char)}
    (h : ∀ part ∈ parts, part ≠ [] ∧ part ≠ ['.']) :
    (parts.filterMap componentOf?).map Component.chars = parts := by
  induction parts with
  | nil => rfl
  | cons part parts ih =>
    obtain ⟨hpart, hrest⟩ := List.forall_mem_cons.1 h
    obtain ⟨c, hc, hchars⟩ := componentOf?_chars hpart
    rw [List.filterMap_cons_some hc, List.map_cons, hchars, ih hrest]

/-- The components of a path without parts that do not count are its parts. -/
theorem IsNormal.parts_eq (h : p.IsNormal) :
    splitAtSlashes p.text.toList = p.components.map Component.chars := by
  have habsolute : p.isAbsolute = false := by
    refine Bool.eq_false_iff.2 fun habsolute => ?_
    obtain ⟨rest, hrest⟩ := isAbsolute_iff.1 habsolute
    exact (h [] (by rw [hrest]; exact List.mem_cons_self)).1 rfl
  have hhere : ¬ ((splitAtSlashes p.text.toList).head? == some ['.']) = true := fun hhere =>
    (h _ (List.mem_of_mem_head? (beq_iff_eq.1 hhere))).2 rfl
  rw [components, habsolute, if_neg Bool.false_ne_true, if_neg hhere, List.nil_append,
    map_chars_filterMap h]

theorem intercalate_splitAtSlashes (text : List Char) :
    ['/'].intercalate (splitAtSlashes text) = text := by
  induction text with
  | nil => rfl
  | cons c rest ih =>
    obtain ⟨part, parts, hparts⟩ := List.exists_cons_of_ne_nil (splitAtSlashes_ne_nil rest)
    by_cases hc : c = '/'
    · subst hc
      rw [splitAtSlashes, if_pos rfl, hparts]
      rw [hparts] at ih
      simpa [List.intercalate, List.intersperse] using ih
    · rw [splitAtSlashes_cons hc hparts]
      rw [hparts] at ih
      cases parts <;> simpa [List.intercalate, List.intersperse] using ih

/-- The bytes of the parts of a text, with a slash for each. -/
def partBytes : List (List Char) → Nat
  | [] => 0
  | part :: parts => byteLength part + 1 + partBytes parts

/-- The bytes of components, with a slash for each. -/
def weight (components : List Component) : Nat := partBytes (components.map Component.chars)

theorem weight_append (components more : List Component) :
    weight (components ++ more) = weight components + weight more := by
  induction components with
  | nil => simp [weight, partBytes]
  | cons c components ih =>
    simp only [weight, List.cons_append, List.map_cons, partBytes] at ih ⊢
    omega

theorem length_le_weight (components : List Component) : components.length ≤ weight components := by
  induction components with
  | nil => exact Nat.zero_le _
  | cons c components ih =>
    simp only [weight, List.length_cons, List.map_cons, partBytes] at ih ⊢
    omega

theorem byteLength_parts (text : List Char) :
    byteLength text + 1 = partBytes (splitAtSlashes text) := by
  induction text with
  | nil => rfl
  | cons c rest ih =>
    obtain ⟨part, parts, hparts⟩ := List.exists_cons_of_ne_nil (splitAtSlashes_ne_nil rest)
    by_cases hc : c = '/'
    · subst hc
      have hslash : Char.utf8Size '/' = 1 := rfl
      rw [splitAtSlashes, if_pos rfl, partBytes, ← ih]
      simp only [byteLength_cons, byteLength_nil, hslash]
      omega
    · rw [hparts] at ih
      rw [splitAtSlashes_cons hc hparts, byteLength_cons, Nat.add_assoc, ih]
      simp only [partBytes, byteLength_cons]
      omega

theorem IsNormal.utf8ByteSize_eq (h : p.IsNormal) :
    p.text.utf8ByteSize + 1 = weight p.components := by
  rw [utf8ByteSize_eq_byteLength, byteLength_parts, h.parts_eq, weight]

/-- Of two directories on the way to one place, the one with the longer text is the deeper one. -/
theorem utf8ByteSize_le_iff_depth {way : List Component} (hp : p.IsNormal) (hq : q.IsNormal)
    (hpway : p.components <+: way) (hqway : q.components <+: way) :
    p.text.utf8ByteSize ≤ q.text.utf8ByteSize ↔ p.components.length ≤ q.components.length := by
  rw [← weight_le_iff weight_append length_le_weight hpway hqway, ← hp.utf8ByteSize_eq,
    ← hq.utf8ByteSize_eq, Nat.add_le_add_iff_right]

/-- Two directories on the way to one place that have texts of one length are the same. -/
theorem eq_of_utf8ByteSize_eq {way : List Component} (hp : p.IsNormal) (hq : q.IsNormal)
    (hpway : p.components <+: way) (hqway : q.components <+: way)
    (h : p.text.utf8ByteSize = q.text.utf8ByteSize) : p.text = q.text := by
  have hcomponents := eq_of_weight_eq weight_append length_le_weight hpway hqway
    (by rw [← hp.utf8ByteSize_eq, h, hq.utf8ByteSize_eq])
  rw [← String.toList_inj, ← intercalate_splitAtSlashes p.text.toList, hp.parts_eq, hcomponents,
    ← hq.parts_eq, intercalate_splitAtSlashes]

end SourcePath

namespace ModuleConfig

variable {c c' : ModuleConfig} {path : SourcePath} {m : Module}

/-- The directory of the module is on the way from the source directory to the path. -/
def Contains (c : ModuleConfig) (m : Module) (path : SourcePath) : Prop :=
  ∃ rest, path.components =
    c.sourceDirectory.components ++ (SourcePath.mk m.directory).components ++ rest

/-- The module has the deepest of the directories that contain the path. -/
structure Deepest (c : ModuleConfig) (path : SourcePath) (m : Module) : Prop where
  mem : m ∈ c.modules
  contains : c.Contains m path
  deepest : ∀ other ∈ c.modules, c.Contains other path →
    (SourcePath.mk other.directory).components.length ≤
      (SourcePath.mk m.directory).components.length

/-- The directories are written without parts that do not count and are different, and no prefix is
private and public. -/
structure Unambiguous (c : ModuleConfig) : Prop where
  normal : ∀ m ∈ c.modules, (SourcePath.mk m.directory).IsNormal
  directories : (c.modules.map Module.directory).Nodup
  prefixes : ∀ start ∈ c.naming.privatePrefixes, start ∉ c.naming.publicPrefixes

/-- The same configuration with its modules and prefixes in another order. -/
structure Rearranged (c c' : ModuleConfig) : Prop where
  root : c.root = c'.root
  modules : c.modules.Perm c'.modules
  privatePrefixes : c.naming.privatePrefixes.Perm c'.naming.privatePrefixes
  publicPrefixes : c.naming.publicPrefixes.Perm c'.naming.publicPrefixes

theorem owns_iff (hm : (SourcePath.mk m.directory).IsNormal) :
    c.owns path m = true ↔ c.Contains m path := by
  have hne : m.directory ≠ "" := fun hempty =>
    (hm [] (by simp [hempty, SourcePath.splitAtSlashes])).1 rfl
  simp only [owns, Bool.and_eq_true, bne_iff_ne, List.isPrefixOf_iff_prefix, Contains]
  constructor
  · rintro ⟨⟨-, more, hmore⟩, rest, hrest⟩
    rw [← hmore, List.drop_left] at hrest
    exact ⟨rest, by rw [← hmore, ← hrest, List.append_assoc]⟩
  · rintro ⟨rest, hrest⟩
    rw [List.append_assoc] at hrest
    exact ⟨⟨hne, _, hrest.symm⟩, rest, by rw [hrest, List.drop_left]⟩

theorem Contains.way (h : c.Contains m path) : (SourcePath.mk m.directory).components <+:
    path.components.drop c.sourceDirectory.components.length := by
  obtain ⟨rest, hrest⟩ := h
  rw [hrest, List.append_assoc, List.drop_left]
  exact List.prefix_append _ _

theorem Unambiguous.mem_owning_iff (hc : c.Unambiguous) :
    m ∈ c.modules.filter (c.owns path) ↔ m ∈ c.modules ∧ c.Contains m path := by
  rw [List.mem_filter]
  exact and_congr_right fun hm => owns_iff (hc.normal m hm)

theorem Unambiguous.eq_of_directory (hc : c.Unambiguous) {a b : Module} (ha : a ∈ c.modules)
    (hb : b ∈ c.modules) (h : a.directory = b.directory) : a = b :=
  List.inj_on_of_nodup_map hc.directories ha hb h

theorem Unambiguous.owning_ties (hc : c.Unambiguous) :
    ∀ a ∈ c.modules.filter (c.owns path), ∀ b ∈ c.modules.filter (c.owns path),
      a.directory.utf8ByteSize = b.directory.utf8ByteSize → a.name = b.name := by
  intro a ha b hb hsize
  rw [hc.mem_owning_iff] at ha hb
  have htext := SourcePath.eq_of_utf8ByteSize_eq (hc.normal a ha.1) (hc.normal b hb.1) ha.2.way
    hb.2.way hsize
  rw [hc.eq_of_directory ha.1 hb.1 htext]

theorem Unambiguous.isLongest_owning_iff (hc : c.Unambiguous) :
    IsLongest (fun m => m.directory.utf8ByteSize) (c.modules.filter (c.owns path)) m ↔
      c.Deepest path m := by
  have hdepth {a b : Module} (ha : a ∈ c.modules ∧ c.Contains a path)
      (hb : b ∈ c.modules ∧ c.Contains b path) :=
    SourcePath.utf8ByteSize_le_iff_depth (hc.normal a ha.1) (hc.normal b hb.1) ha.2.way hb.2.way
  constructor
  · rintro ⟨hmem, hle⟩
    have hm := hc.mem_owning_iff.1 hmem
    exact ⟨hm.1, hm.2, fun other hother hcontains =>
      (hdepth ⟨hother, hcontains⟩ hm).1 (hle other (hc.mem_owning_iff.2 ⟨hother, hcontains⟩))⟩
  · rintro ⟨hm, hcontains, hdeepest⟩
    refine ⟨hc.mem_owning_iff.2 ⟨hm, hcontains⟩, fun other hother => ?_⟩
    have hother := hc.mem_owning_iff.1 hother
    exact (hdepth hother ⟨hm, hcontains⟩).2 (hdeepest other hother.1 hother.2)

theorem Unambiguous.moduleOf_eq_iff (hc : c.Unambiguous) {owner : String} :
    c.moduleOf path = owner ↔ (∃ m, c.Deepest path m ∧ m.name = owner) ∨
      (owner = "" ∧ ∀ m ∈ c.modules, ¬ c.Contains m path) := by
  have hfound (found : String) :
      (lastLongest? (fun m => m.directory.utf8ByteSize) (c.modules.filter (c.owns path))).map
          Module.name = some found ↔ ∃ m, c.Deepest path m ∧ m.name = found := by
    rw [map_lastLongest?_eq_some_iff hc.owning_ties]
    simp only [hc.isLongest_owning_iff]
  rw [moduleOf]
  cases howner : (lastLongest? (fun m => m.directory.utf8ByteSize)
      (c.modules.filter (c.owns path))).map Module.name with
  | none =>
    have hnone : ∀ m ∈ c.modules, ¬ c.Contains m path := by
      rw [Option.map_eq_none_iff, lastLongest?_eq_none_iff,
        List.eq_nil_iff_forall_not_mem] at howner
      exact fun m hm hcontains => howner m (hc.mem_owning_iff.2 ⟨hm, hcontains⟩)
    rw [Option.getD_none]
    refine ⟨fun h => .inr ⟨h.symm, hnone⟩, ?_⟩
    rintro (⟨m, hm, -⟩ | ⟨rfl, -⟩)
    · exact absurd hm.contains (hnone m hm.mem)
    · rfl
  | some found =>
    obtain ⟨m, hm, rfl⟩ := (hfound found).1 howner
    rw [Option.getD_some]
    refine ⟨fun h => .inl ⟨m, hm, h⟩, ?_⟩
    rintro (⟨other, hother, rfl⟩ | ⟨-, hnone⟩)
    · have hsame := (hfound other.name).2 ⟨other, hother, rfl⟩
      rw [howner] at hsame
      exact Option.some.inj hsame
    · exact absurd hm.contains (hnone m hm.mem)

theorem Rearranged.moduleOf_eq (h : c.Rearranged c') (hc : c.Unambiguous) (path : SourcePath) :
    c'.moduleOf path = c.moduleOf path := by
  have howns : c'.owns path = c.owns path := by
    funext m
    rw [owns, owns, sourceDirectory, sourceDirectory, h.root]
  rw [moduleOf, moduleOf, howns, map_lastLongest?_perm (h.modules.filter _) hc.owning_ties]

/-- A name belongs to the module with the longest name behind its longest prefix, a file to the
module with the deepest directory around it, whatever order the configuration has. A file belongs to
the empty module if no directory contains it, and only then unless a module has the empty name. -/
theorem attributed_by_longest_match (hc : c.Unambiguous) (h : c.Rearranged c') (name : String)
    (path : SourcePath) :
    c'.naming.classify c'.modules name = c.naming.classify c.modules name ∧
      c'.moduleOf path = c.moduleOf path ∧
      (c.naming.classify c.modules name = none ↔
        ∀ start ∈ c.naming.privatePrefixes ++ c.naming.publicPrefixes,
          ¬ start.toList <+: name.toList) ∧
      (∀ isPrivate tag, c.naming.classify c.modules name = some (isPrivate, tag) ↔
        c.naming.Implies c.modules name isPrivate tag) ∧
      (∀ owner, c.moduleOf path = owner ↔ (∃ m, c.Deepest path m ∧ m.name = owner) ∨
        (owner = "" ∧ ∀ m ∈ c.modules, ¬ c.Contains m path)) ∧
      ((∀ m ∈ c.modules, m.name ≠ "") →
        (c.moduleOf path = "" ↔ ∀ m ∈ c.modules, ¬ c.Contains m path)) := by
  have hname := NamingConvention.classify_perm hc.prefixes h.privatePrefixes h.publicPrefixes
    h.modules name
  refine ⟨hname, h.moduleOf_eq hc path, NamingConvention.classify_eq_none_iff,
    fun _ _ => NamingConvention.classify_eq_some_iff hc.prefixes, fun _ => hc.moduleOf_eq_iff,
    fun hnames => ?_⟩
  rw [hc.moduleOf_eq_iff]
  refine ⟨?_, fun hnone => .inr ⟨rfl, hnone⟩⟩
  rintro (⟨m, hm, hname⟩ | ⟨-, hnone⟩)
  · exact absurd hname (hnames m hm.mem)
  · exact hnone

/-- A project with a module in the directory of another, and with the name of the other in front of
its own. -/
def nestedModules : ModuleConfig :=
  { standard ⟨"/proj"⟩ with modules := [⟨"block", "block"⟩, ⟨"block_cache", "block/cache"⟩] }

/-- The same with modules and prefixes in the opposite order. -/
def nestedModulesReversed : ModuleConfig :=
  { nestedModules with
    modules := nestedModules.modules.reverse
    naming := ⟨nestedModules.naming.privatePrefixes.reverse,
      nestedModules.naming.publicPrefixes.reverse⟩ }

theorem attributed_in_opposite_order :
    nestedModules.Unambiguous ∧ nestedModules.Rearranged nestedModulesReversed ∧
      nestedModulesReversed.naming.classify nestedModulesReversed.modules "__wti_block_cache_x" =
        some (true, some "block_cache") ∧
      nestedModulesReversed.moduleOf ⟨"/proj/src/block/cache/a.c"⟩ = "block_cache" := by
  have hclear : nestedModules.Unambiguous := ⟨by decide +kernel, by decide +kernel, by decide⟩
  have horder : nestedModules.Rearranged nestedModulesReversed :=
    ⟨rfl, (List.reverse_perm _).symm, (List.reverse_perm _).symm, (List.reverse_perm _).symm⟩
  obtain ⟨hname, hpath, -⟩ := attributed_by_longest_match hclear horder "__wti_block_cache_x"
    ⟨"/proj/src/block/cache/a.c"⟩
  refine ⟨hclear, horder, hname.trans ?_, hpath.trans ?_⟩
  · decide +kernel
  · decide +kernel

end ModuleConfig

end CBoundary
