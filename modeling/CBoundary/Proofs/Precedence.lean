import CBoundary.Proofs.Gathering
import Mathlib.Data.List.MinMax
import Mathlib.Data.List.Nodup

/-!
Which of several sightings stands for a definition. Folding compares a further sighting with the
entry that has taken in those before it. The entry has at least the priority of each of them, and
more than that of the sighting it stands for only where a private prototype lends its privacy to a
public definition. Where that does not make up for what a sighting of highest priority is ahead, the
entry is found where such a one was found, in whatever order they are folded. Main statements:
`le_priority_merge`, `found_with_highest`, and `foundWith_of_lentPrivacy` for where it does.
-/
namespace CBoundary.Definition

/-- Both are found at one place of one file, for the same module. -/
structure FoundWith (d e : Definition) : Prop where
  scope : d.scope = e.scope
  offset : d.offset = e.offset
  module : d.module = e.module

theorem FoundWith.trans {d e f : Definition} (hd : d.FoundWith e) (he : e.FoundWith f) :
    d.FoundWith f :=
  ⟨hd.scope.trans he.scope, hd.offset.trans he.offset, hd.module.trans he.module⟩

theorem FoundWith.symm {d e : Definition} (h : d.FoundWith e) : e.FoundWith d :=
  ⟨h.scope.symm, h.offset.symm, h.module.symm⟩

variable {d e : Definition}

theorem foundWith_merge_left (h : e.priority ≤ d.priority) : (d.merge e).FoundWith d := by
  have hranked : d.ranked e = (d, e) := if_neg (Nat.not_lt.2 h)
  unfold merge
  rw [hranked]
  exact ⟨rfl, rfl, rfl⟩

theorem foundWith_merge_right (h : d.priority < e.priority) : (d.merge e).FoundWith e := by
  have hranked : d.ranked e = (e, d) := if_pos h
  unfold merge
  rw [hranked]
  exact ⟨rfl, rfl, rfl⟩

theorem isKnownPrivate_merge (d e : Definition) :
    (d.merge e).isKnownPrivate = (d.isKnownPrivate || e.isKnownPrivate) := by
  rw [Bool.eq_iff_iff, Bool.or_eq_true]
  simp only [isKnownPrivate, beq_iff_eq]
  exact isPrivate_merge d e

theorem hasBody_merge (h : d.kind = e.kind) :
    (d.merge e).details.hasBody = (d.details.hasBody || e.details.hasBody) :=
  congrArg Gathered.hasBody (gathered_merge h)

/-- Without its privacy and its body, a priority is the rank of the file. -/
theorem priority_eq (d : Definition) :
    d.priority = d.details.hasBody.toNat * 100 + d.isKnownPrivate.toNat * 10 +
      d.scope.file.priority := rfl

/-- Folding two sightings never ranks lower than either. -/
theorem le_priority_merge (h : d.kind = e.kind) :
    d.priority ≤ (d.merge e).priority ∧ e.priority ≤ (d.merge e).priority := by
  have hbody := hasBody_merge h
  have hprivate := isKnownPrivate_merge d e
  have hor (a b : Bool) : a.toNat ≤ (a || b).toNat ∧ b.toNat ≤ (a || b).toNat := by
    cases a <;> cases b <;> decide
  have hbodies := hor d.details.hasBody e.details.hasBody
  have hprivates := hor d.isKnownPrivate e.isKnownPrivate
  rw [← hbody] at hbodies
  rw [← hprivate] at hprivates
  rcases Nat.lt_or_ge d.priority e.priority with hlt | hle
  · have hfound := (foundWith_merge_right hlt).scope
    simp only [priority_eq, hfound] at hlt ⊢
    omega
  · have hfound := (foundWith_merge_left hle).scope
    simp only [priority_eq, hfound] at hle ⊢
    omega

/-- A sighting with a body ranks above all without one. -/
theorem or_hasBody_of_priority_le (hrank : d.scope.file.priority ≤ 2)
    (hle : e.priority ≤ d.priority) :
    (d.details.hasBody || e.details.hasBody) = d.details.hasBody := by
  cases hd : d.details.hasBody with
  | true => rfl
  | false =>
    cases he : e.details.hasBody with
    | false => rfl
    | true =>
      have hprivate := Bool.toNat_le d.isKnownPrivate
      simp only [priority_eq, hd, he, Bool.toNat_true, Bool.toNat_false] at hle
      omega

/-- If a public sighting ranks no lower than a private one, that is because of its body. -/
theorem hasBody_of_private_le (hrank : d.scope.file.priority ≤ 2) (hd : d.isKnownPrivate = false)
    (he : e.isKnownPrivate = true) (hle : e.priority ≤ d.priority) :
    d.details.hasBody = true ∧ e.details.hasBody = false := by
  cases hdbody : d.details.hasBody <;> cases hebody : e.details.hasBody
  all_goals
    simp only [priority_eq, hd, he, hdbody, hebody, Bool.toNat_true, Bool.toNat_false] at hle
  · omega
  · omega
  · exact ⟨rfl, rfl⟩
  · omega

/-- A public sighting with a body, among others of which one is private and has no body. Folded,
the two make an entry that stands for the former and is private. -/
def LentPrivacy (xs : List Definition) (s : Definition) : Prop :=
  s.details.hasBody = true ∧ s.isKnownPrivate = false ∧
    ∃ b ∈ xs, b.details.hasBody = false ∧ b.isKnownPrivate = true

instance (xs : List Definition) (s : Definition) : Decidable (LentPrivacy xs s) :=
  inferInstanceAs (Decidable (_ ∧ _ ∧ _))

theorem LentPrivacy.subset {xs ys : List Definition} {s : Definition} (h : LentPrivacy xs s)
    (hsub : xs ⊆ ys) : LentPrivacy ys s := by
  obtain ⟨hbody, hpublic, b, hb, hprototype⟩ := h
  exact ⟨hbody, hpublic, b, hsub hb, hprototype⟩

/-- A sighting that is lent privacy stays in front of those that rank above it by no more than
what privacy counts. -/
theorem foundWith_of_lentPrivacy {s b : Definition} (hkind : s.kind = b.kind)
    (hlent : LentPrivacy [b] s) (hrank : b.scope.file.priority ≤ 2)
    (hle : e.priority ≤ s.priority + 10) : ((s.merge b).merge e).FoundWith s := by
  obtain ⟨hsbody, hpublic, b', hb', hbody, hprivate⟩ := hlent
  obtain rfl := List.mem_singleton.1 hb'
  have hbehind : b'.priority ≤ s.priority := by
    simp only [priority_eq, hsbody, hbody, hprivate, Bool.toNat_true, Bool.toNat_false]
    omega
  have hfound := foundWith_merge_left hbehind
  have hpriority : (s.merge b').priority = s.priority + 10 := by
    simp only [priority_eq, hasBody_merge hkind, isKnownPrivate_merge, hfound.scope, hsbody,
      hpublic, hprivate, Bool.true_or, Bool.false_or, Bool.toNat_true, Bool.toNat_false]
    omega
  exact (foundWith_merge_left (hpriority ▸ hle)).trans hfound

/-- No sighting of highest priority ranks above one that is lent privacy by so little that privacy
makes up for it. -/
def NoneWithinPrivacy (xs : List Definition) : Prop :=
  ∀ s ∈ xs, LentPrivacy xs s → ∀ e ∈ xs, (∀ f ∈ xs, f.priority ≤ e.priority) →
    e.priority ≤ s.priority ∨ s.priority + 10 < e.priority

instance (xs : List Definition) : Decidable (NoneWithinPrivacy xs) :=
  inferInstanceAs (Decidable (∀ _ ∈ xs, _ → ∀ _ ∈ xs, _ → _))

/-- Records always have a body and fields never do, so among them there is nothing to rule out. -/
theorem noneWithinPrivacy_of_hasBody_eq {xs : List Definition} {body : Bool}
    (h : ∀ d ∈ xs, d.details.hasBody = body) : NoneWithinPrivacy xs := by
  rintro s hs ⟨hsbody, -, b, hb, hbody, -⟩
  rw [h b hb] at hbody
  rw [h s hs, hbody] at hsbody
  cases hsbody

/-- An entry that took in the sightings stands for one of them. It has a body if that one has, and
is as private or was lent privacy. -/
structure StandsFor (xs : List Definition) (entry s : Definition) : Prop where
  mem : s ∈ xs
  found : entry.FoundWith s
  kind : entry.kind = s.kind
  hasBody : entry.details.hasBody = s.details.hasBody
  isPrivate : entry.isKnownPrivate = s.isKnownPrivate ∨
    entry.isKnownPrivate = true ∧ LentPrivacy xs s

variable {xs : List Definition} {entry s : Definition}

theorem standsFor_singleton (d : Definition) : StandsFor [d] d d where
  mem := List.mem_singleton_self d
  found := ⟨rfl, rfl, rfl⟩
  kind := rfl
  hasBody := rfl
  isPrivate := Or.inl rfl

/-- An entry ranks as the sighting it stands for, or higher by the privacy that one was lent. -/
theorem StandsFor.priority (h : StandsFor xs entry s) :
    entry.priority = s.priority ∨ entry.priority = s.priority + 10 ∧ LentPrivacy xs s := by
  simp only [priority_eq, h.hasBody, h.found.scope]
  rcases h.isPrivate with heq | ⟨hprivate, hlent⟩
  · exact Or.inl (by rw [heq])
  · refine Or.inr ⟨?_, hlent⟩
    rw [hprivate, hlent.2.1]
    simp only [Bool.toNat_true, Bool.toNat_false]
    omega

/-- A sighting that does not outrank the entry leaves it where it is, and may lend it privacy. -/
theorem StandsFor.merge_left (h : StandsFor xs entry s) (hkind : entry.kind = e.kind)
    (hrank : entry.scope.file.priority ≤ 2) (hle : e.priority ≤ entry.priority) :
    StandsFor (xs ++ [e]) (entry.merge e) s where
  mem := List.mem_append_left _ h.mem
  found := (foundWith_merge_left hle).trans h.found
  kind := (kind_merge hkind).trans h.kind
  hasBody := by rw [hasBody_merge hkind, or_hasBody_of_priority_le hrank hle, h.hasBody]
  isPrivate := by
    rw [isKnownPrivate_merge]
    rcases h.isPrivate with heq | ⟨hprivate, hlent⟩
    · cases hentry : entry.isKnownPrivate with
      | true => exact Or.inl (by rw [← heq, hentry, Bool.true_or])
      | false =>
        rw [hentry] at heq
        cases he : e.isKnownPrivate with
        | false => exact Or.inl heq
        | true =>
          obtain ⟨hbody, hebody⟩ := hasBody_of_private_le hrank hentry he hle
          exact Or.inr ⟨rfl, h.hasBody ▸ hbody, heq.symm, e, by simp, hebody, he⟩
    · exact Or.inr ⟨by rw [hprivate, Bool.true_or], hlent.subset (List.subset_append_left _ _)⟩

/-- A sighting that outranks the entry takes its place, and may be lent privacy by it. -/
theorem StandsFor.merge_right (h : StandsFor xs entry s) (hkind : entry.kind = e.kind)
    (hrank : e.scope.file.priority ≤ 2) (hlt : entry.priority < e.priority) :
    StandsFor (xs ++ [e]) (entry.merge e) e where
  mem := List.mem_append_right _ (List.mem_singleton_self e)
  found := foundWith_merge_right hlt
  kind := (kind_merge hkind).trans hkind
  hasBody := by
    rw [hasBody_merge hkind, Bool.or_comm, or_hasBody_of_priority_le hrank (Nat.le_of_lt hlt)]
  isPrivate := by
    rw [isKnownPrivate_merge]
    cases he : e.isKnownPrivate with
    | true => exact Or.inl (Bool.or_true _)
    | false =>
      cases hentry : entry.isKnownPrivate with
      | false => exact Or.inl rfl
      | true =>
        obtain ⟨hebody, hbody⟩ := hasBody_of_private_le hrank he hentry (Nat.le_of_lt hlt)
        have hsbody : s.details.hasBody = false := h.hasBody ▸ hbody
        -- the entry has no body, so its privacy is not lent but that of `s`
        rcases h.isPrivate with heq | ⟨-, hlent⟩
        · exact Or.inr ⟨rfl, hebody, he, s, List.mem_append_left _ h.mem, hsbody, heq ▸ hentry⟩
        · exact absurd hlent.1 (by rw [hsbody]; decide)

/-- If the entry stands for a sighting of the top priority once there was one, it still does after a
further sighting: before, it ranked lower even with lent privacy, and then nothing outranks it. -/
theorem StandsFor.exists_merge {top : Nat} (h : StandsFor xs entry s) (hkind : s.kind = e.kind)
    (hs : s.scope.file.priority ≤ 2) (he : e.scope.file.priority ≤ 2) (hstop : s.priority ≤ top)
    (hetop : e.priority ≤ top)
    (hmargin : LentPrivacy xs s → top ≤ s.priority ∨ s.priority + 10 < top)
    (hreached : (∃ f ∈ xs, f.priority = top) → s.priority = top) :
    ∃ s', StandsFor (xs ++ [e]) (entry.merge e) s' ∧
      ((∃ f ∈ xs ++ [e], f.priority = top) → s'.priority = top) := by
  have hsame : entry.kind = e.kind := h.kind.trans hkind
  rcases Nat.lt_or_ge entry.priority e.priority with hlt | hle
  · refine ⟨e, h.merge_right hsame he hlt, ?_⟩
    rintro ⟨f, hf, hftop⟩
    rcases List.mem_append.1 hf with hf | hf
    · have hbest := hreached ⟨f, hf, hftop⟩
      rcases h.priority with heq | ⟨heq, -⟩ <;> omega
    · exact List.mem_singleton.1 hf ▸ hftop
  · refine ⟨s, h.merge_left hsame (h.found.scope ▸ hs) hle, ?_⟩
    rintro ⟨f, hf, hftop⟩
    rcases List.mem_append.1 hf with hf | hf
    · exact hreached ⟨f, hf, hftop⟩
    · obtain rfl := List.mem_singleton.1 hf
      rcases h.priority with heq | ⟨heq, hlent⟩
      · omega
      · have hbetween := hmargin hlent
        omega

theorem exists_standsFor_foldl {d : Definition} {rest : List Definition} {top : Nat}
    (hkind : ∀ e ∈ d :: rest, e.kind = d.kind)
    (hrank : ∀ e ∈ d :: rest, e.scope.file.priority ≤ 2)
    (htop : ∀ e ∈ d :: rest, e.priority ≤ top)
    (hmargin : ∀ s ∈ d :: rest, LentPrivacy (d :: rest) s →
      top ≤ s.priority ∨ s.priority + 10 < top) :
    ∃ s, StandsFor (d :: rest) (rest.foldl merge d) s ∧
      ((∃ e ∈ d :: rest, e.priority = top) → s.priority = top) := by
  induction rest using List.reverseRecOn with
  | nil => exact ⟨d, standsFor_singleton d, by simp⟩
  | append_singleton rest e ih =>
    have hsub : d :: rest ⊆ d :: (rest ++ [e]) := by simp
    have he : e ∈ d :: (rest ++ [e]) := by simp
    obtain ⟨s, hs, hreached⟩ := ih (fun f hf => hkind f (hsub hf)) (fun f hf => hrank f (hsub hf))
      (fun f hf => htop f (hsub hf)) (fun f hf hlent => hmargin f (hsub hf) (hlent.subset hsub))
    have hmem := hsub hs.mem
    have hsame : s.kind = e.kind := (hkind s hmem).trans (hkind e he).symm
    rw [List.foldl_append, List.foldl_cons, List.foldl_nil]
    exact hs.exists_merge hsame (hrank s hmem) (hrank e he) (htop s hmem) (htop e he)
      (fun hlent => hmargin s hmem (hlent.subset hsub)) hreached

theorem exists_highest {xs : List Definition} (h : xs ≠ []) :
    ∃ best ∈ xs, ∀ e ∈ xs, e.priority ≤ best.priority := by
  have hsome : xs.argmax priority ≠ none := mt List.argmax_eq_none.1 h
  obtain ⟨best, hbest⟩ := Option.ne_none_iff_exists'.1 hsome
  exact ⟨best, List.argmax_mem hbest, fun e he => List.le_of_mem_argmax he hbest⟩

/-- Unless a sighting of highest priority outranks one with a body by no more than the privacy that
a prototype lends it, the entry for a list of sightings is found where one of highest priority was,
in whatever order they are folded. If no two have the same priority, all orders agree. -/
theorem found_with_highest (xs : List Definition) (hkind : ∀ d ∈ xs, ∀ e ∈ xs, d.kind = e.kind)
    (hrank : ∀ d ∈ xs, d.scope.file.priority ≤ 2) (hmargin : NoneWithinPrivacy xs) :
    (∀ d rest, (d :: rest).Perm xs →
      ∃ s ∈ xs, (∀ e ∈ xs, e.priority ≤ s.priority) ∧ (rest.foldl merge d).FoundWith s) ∧
    ((xs.map priority).Nodup → ∀ d rest d' rest', (d :: rest).Perm xs → (d' :: rest').Perm xs →
      (rest.foldl merge d).FoundWith (rest'.foldl merge d')) := by
  have hbest : ∀ d rest, (d :: rest).Perm xs →
      ∃ s ∈ xs, (∀ e ∈ xs, e.priority ≤ s.priority) ∧ (rest.foldl merge d).FoundWith s := by
    intro d rest hperm
    have hmem {e : Definition} : e ∈ d :: rest ↔ e ∈ xs := hperm.mem_iff
    have hne : xs ≠ [] := List.ne_nil_of_mem (hmem.1 List.mem_cons_self)
    obtain ⟨best, hbest, hhighest⟩ := exists_highest hne
    obtain ⟨s, hs, hreached⟩ := @exists_standsFor_foldl d rest best.priority
      (fun e he => hkind e (hmem.1 he) d (hmem.1 List.mem_cons_self))
      (fun e he => hrank e (hmem.1 he)) (fun e he => hhighest e (hmem.1 he))
      (fun s hs hlent =>
        hmargin s (hmem.1 hs) (hlent.subset hperm.subset) best hbest hhighest)
    have hequal : s.priority = best.priority := hreached ⟨best, hmem.2 hbest, rfl⟩
    exact ⟨s, hmem.1 hs.mem, hequal ▸ hhighest, hs.found⟩
  refine ⟨hbest, ?_⟩
  intro hdistinct d rest d' rest' hperm hperm'
  obtain ⟨s, hs, hhighest, hfound⟩ := hbest d rest hperm
  obtain ⟨s', hs', hhighest', hfound'⟩ := hbest d' rest' hperm'
  have hequal : s.priority = s'.priority := Nat.le_antisymm (hhighest' s hs) (hhighest s' hs')
  obtain rfl : s = s' := List.inj_on_of_nodup_map hdistinct hs hs' hequal
  exact hfound.trans hfound'.symm

/-- A function as a file of the given rank shows it. -/
def sighted (rank : Nat) (isPrivate : Option Bool) (body : Option Token) : Definition :=
  ofSighting "f" ⟨⟨"f.c", "", rank, 0, []⟩, []⟩ 0 ⟨isPrivate, ""⟩
    (.function { (default : FunctionDecl) with body })

/-- A definition wins against a private and a public prototype, in each of the six orders. -/
theorem definition_found_among_prototypes :
    let xs := [sighted 0 none none, sighted 1 none (some default), sighted 2 (some true) none]
    (∀ d ∈ xs, ∀ e ∈ xs, d.kind = e.kind) ∧ (∀ d ∈ xs, d.scope.file.priority ≤ 2) ∧
      NoneWithinPrivacy xs ∧ (xs.map priority).Nodup ∧
      ∀ d rest, (d :: rest).Perm xs →
        (rest.foldl merge d).FoundWith (sighted 1 none (some default)) := by
  intro xs
  have hkind : ∀ d ∈ xs, ∀ e ∈ xs, d.kind = e.kind := by decide
  have hrank : ∀ d ∈ xs, d.scope.file.priority ≤ 2 := by decide
  have hmargin : NoneWithinPrivacy xs := by decide
  refine ⟨hkind, hrank, hmargin, by decide, ?_⟩
  intro d rest hperm
  obtain ⟨s, hs, hhighest, hfound⟩ := (found_with_highest xs hkind hrank hmargin).1 d rest hperm
  have hdefinition : ∀ s ∈ xs, (∀ e ∈ xs, e.priority ≤ s.priority) →
      s = sighted 1 none (some default) := by decide
  exact hdefinition s hs hhighest ▸ hfound

/-- A public definition that became private through a prototype stays in front of one that ranks
higher on its own, so the order decides: folded the other way round, the latter wins. -/
theorem lent_privacy_keeps_lower_priority :
    let first := sighted 0 none (some default)
    let prototype := sighted 0 (some true) none
    let last := sighted 2 none (some default)
    (∀ d ∈ [first, prototype, last], ∀ e ∈ [first, prototype, last], d.kind = e.kind) ∧
      ([first, prototype, last].map priority).Nodup ∧
      (∀ e ∈ [first, prototype, last], e.priority ≤ last.priority) ∧
      ((first.merge prototype).merge last).scope = first.scope ∧
      ((last.merge prototype).merge first).scope = last.scope ∧
      ¬ ∃ s ∈ [first, prototype, last],
        (∀ e ∈ [first, prototype, last], e.priority ≤ s.priority) ∧
          ((first.merge prototype).merge last).FoundWith s := by
  intro first prototype last
  have hkept : ((first.merge prototype).merge last).FoundWith first :=
    foundWith_of_lentPrivacy (by decide) (by decide) (by decide) (by decide)
  refine ⟨by decide, by decide, by decide, hkept.scope, by decide, ?_⟩
  rintro ⟨s, hs, hhighest, hfound⟩
  have hother : ∀ s ∈ [first, prototype, last],
      (∀ e ∈ [first, prototype, last], e.priority ≤ s.priority) →
        first.scope ≠ s.scope := by decide
  exact hother s hs hhighest (hkept.symm.trans hfound).scope

end CBoundary.Definition
