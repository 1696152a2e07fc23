import VendorBundle.Proofs.Package.Aliases

/-!
# Aliases and what follows them

Of the aliases that a specifier is, or that a slash follows in it, the longest is replaced and the
rest is kept as it is written. There is one longest at most, and neither the result nor the choice
depends on the order in which the aliases were given. A specifier that is gone on with behind a slash
is replaced in the same way, as long as no longer alias applies to it.
-/

namespace VendorBundle.Package

/-! ## The alias that is used -/

/-- The specifier is the alias, or goes on behind it with a slash. -/
def Applies (key specifier : String) : Prop :=
  specifier = key ∨ ∃ rest, specifier = key ++ "/" ++ rest

/-- What becomes of a specifier, and the alias that is replaced in it, if any. -/
inductive Aliased (p : Package) (specifier : String) : Option String → String → Prop where
  | kept (hnone : ∀ key ∈ p.aliases.keys, ¬ Applies key specifier) :
      Aliased p specifier none specifier
  | replaced {key replacement rest : String} (hkey : p.aliases.get? key = some replacement)
      (hrest : specifier = key ++ rest) (happlies : Applies key specifier)
      (hlongest : ∀ other ∈ p.aliases.keys, Applies other specifier →
        other = key ∨ other.length < key.length) :
      Aliased p specifier (some key) (replacement ++ rest)

variable {p : Package} {specifier key : String} {m : AliasMatch}

theorem applies_iff : Applies key specifier ↔
    ∃ rest, specifier.toList = key.toList ++ rest ∧ (rest = [] ∨ rest.head? = some '/') := by
  constructor
  · rintro (rfl | ⟨rest, rfl⟩)
    · exact ⟨[], by simp, .inl rfl⟩
    · exact ⟨'/' :: rest.toList, by simp, .inr rfl⟩
  · rintro ⟨rest, htext, rfl | hslash⟩
    · exact .inl (String.toList_injective (by simpa using htext))
    · obtain ⟨rest, rfl⟩ := List.head?_eq_some_iff.mp hslash
      exact .inr ⟨String.ofList rest, String.toList_injective (by simpa using htext)⟩

theorem applies_of_mem (h : m ∈ p.aliasMatches specifier) :
    m.source ∈ p.aliases.keys ∧ Applies m.source specifier := by
  obtain ⟨hget, htext, hrest⟩ := mem_aliasMatches.mp h
  exact ⟨Table.mem_keys.mpr ⟨_, hget⟩, applies_iff.mpr ⟨m.rest, htext, hrest⟩⟩

theorem exists_mem_of_applies (hkey : key ∈ p.aliases.keys) (h : Applies key specifier) :
    ∃ m ∈ p.aliasMatches specifier, m.source = key := by
  obtain ⟨replacement, hget⟩ := Table.mem_keys.mp hkey
  obtain ⟨rest, htext, hrest⟩ := applies_iff.mp h
  exact ⟨⟨key, replacement, rest⟩, mem_aliasMatches.mpr ⟨hget, htext, hrest⟩, rfl⟩

theorem aliasMatches_eq_nil_iff : p.aliasMatches specifier = [] ↔
    ∀ key ∈ p.aliases.keys, ¬ Applies key specifier := by
  rw [List.eq_nil_iff_forall_not_mem]
  constructor
  · intro h key hkey happlies
    obtain ⟨m, hm, -⟩ := exists_mem_of_applies hkey happlies
    exact h m hm
  · intro h m hm
    obtain ⟨hkey, happlies⟩ := applies_of_mem hm
    exact h _ hkey happlies

theorem Longest.aliased (h : p.Longest specifier m) :
    p.Aliased specifier (some m.source) m.result := by
  obtain ⟨hget, htext, hrest⟩ := mem_aliasMatches.mp h.applies
  refine .replaced hget (String.toList_injective ?_) (applies_of_mem h.applies).2 ?_
  · simpa using htext
  · intro other hother happlies
    obtain ⟨m', hm', rfl⟩ := exists_mem_of_applies hother happlies
    rcases Nat.lt_or_eq_of_le (h.le m' hm') with hlt | heq
    · exact .inr hlt
    · exact .inl (congrArg AliasMatch.source (aliasMatches_eq hm' h.applies heq))

/-- Only one alias can be the one that is replaced. -/
theorem Aliased.unique {used used' : Option String} {result result' : String}
    (h : p.Aliased specifier used result) (h' : p.Aliased specifier used' result') :
    used' = used ∧ result' = result := by
  cases h with
  | kept hnone =>
      cases h' with
      | kept => exact ⟨rfl, rfl⟩
      | replaced hkey _ happlies _ =>
          exact absurd happlies (hnone _ (Table.mem_keys.mpr ⟨_, hkey⟩))
  | replaced hkey hrest happlies hlongest =>
      cases h' with
      | kept hnone => exact absurd happlies (hnone _ (Table.mem_keys.mpr ⟨_, hkey⟩))
      | replaced hkey' hrest' happlies' hlongest' =>
          have hle := hlongest _ (Table.mem_keys.mpr ⟨_, hkey'⟩) happlies'
          have hge := hlongest' _ (Table.mem_keys.mpr ⟨_, hkey⟩) happlies
          obtain rfl : _ = _ := hle.elim id fun hlt => hge.elim Eq.symm fun hgt =>
            absurd hlt (Nat.lt_asymm hgt)
          obtain rfl := Option.some.inj (hkey.symm.trans hkey')
          obtain rfl := String.append_right_inj _ |>.mp (hrest.symm.trans hrest')
          exact ⟨rfl, rfl⟩

/-! ## Going on behind a slash -/

/-- The longest alias of a specifier is that of the one that goes on, unless a longer one is. -/
theorem Longest.append (h : p.Longest specifier m) {more : String}
    (hle : ∀ m' ∈ p.aliasMatches (specifier ++ "/" ++ more), m'.source.length ≤ m.source.length) :
    p.Longest (specifier ++ "/" ++ more) (m.append ("/" ++ more)) := by
  obtain ⟨hget, htext, hrest⟩ := mem_aliasMatches.mp h.applies
  refine ⟨mem_aliasMatches.mpr ⟨hget, by simp [htext, AliasMatch.append], .inr ?_⟩, hle⟩
  rcases hrest with hrest | hrest
  · simp [AliasMatch.append, hrest]
  · obtain ⟨rest, hrest⟩ := List.head?_eq_some_iff.mp hrest
    simp [AliasMatch.append, hrest]

/-! ## The order of aliases -/

/-- The package with more aliases, added one after the other. -/
def withAliases (p : Package) (added : List (String × String)) : Package :=
  { p with aliases := added.foldl (fun aliases a => aliases.insert a.1 a.2) p.aliases }

/-- What was given for an alias last. -/
def lastGiven? (added : List (String × String)) (key : String) : Option String :=
  (added.reverse.find? fun a => a.1 = key).map Prod.snd

theorem get?_withAliases (p : Package) (added : List (String × String)) (key : String) :
    (p.withAliases added).aliases.get? key = (lastGiven? added key).or (p.aliases.get? key) := by
  induction added using List.reverseRecOn with
  | nil => rfl
  | append_singleton added a ih =>
      rw [withAliases] at ih
      rw [withAliases, List.foldl_concat, Table.get?_insert, ih, lastGiven?, lastGiven?,
        List.reverse_concat, List.find?_cons]
      by_cases ha : a.1 = key
      · simp [ha]
      · simp [ha]

/-- Only what was given last for each alias counts. -/
theorem withAliases_congr {added added' : List (String × String)}
    (h : ∀ key, lastGiven? added key = lastGiven? added' key) :
    p.withAliases added = p.withAliases added' := by
  have haliases : (p.withAliases added).aliases = (p.withAliases added').aliases :=
    Table.ext_get? fun key => by rw [get?_withAliases, get?_withAliases, h]
  exact congrArg (fun aliases => { p with aliases }) haliases

/-! ## What becomes of a specifier -/

/-- The one longest alias that applies is replaced, if there is any, and the rest is kept. Going on
behind a slash commutes with this unless a longer alias applies then, and the order in which aliases
are added makes no difference. -/
theorem replaceAlias_longest (p : Package) (specifier : String) :
    ∃ used, p.Aliased specifier used (p.replaceAlias specifier) ∧
      (∀ used' result, p.Aliased specifier used' result →
        used' = used ∧ result = p.replaceAlias specifier) ∧
      (∀ more, (∀ key ∈ p.aliases.keys, Applies key (specifier ++ "/" ++ more) →
          ∃ longest ∈ used, key.length ≤ longest.length) →
        p.replaceAlias (specifier ++ "/" ++ more) = p.replaceAlias specifier ++ "/" ++ more) ∧
      ∀ added added' : List (String × String),
        (∀ key, lastGiven? added key = lastGiven? added' key) →
        (p.withAliases added).replaceAlias specifier =
          (p.withAliases added').replaceAlias specifier := by
  obtain ⟨hnil, hr⟩ | ⟨m, hm, hr⟩ := p.replaceAlias_cases specifier
  · have haliased : p.Aliased specifier none (p.replaceAlias specifier) := by
      rw [hr]
      exact .kept (aliasMatches_eq_nil_iff.mp hnil)
    refine ⟨none, haliased, fun _ _ h => haliased.unique h, fun more hmore => ?_,
      fun added added' h => by rw [withAliases_congr h]⟩
    have hnone : p.aliasMatches (specifier ++ "/" ++ more) = [] :=
      aliasMatches_eq_nil_iff.mpr fun key hkey happlies => by
        obtain ⟨longest, hlongest, -⟩ := hmore key hkey happlies
        cases hlongest
    rw [replaceAlias_of_nil hnone, hr]
  · have haliased : p.Aliased specifier (some m.source) (p.replaceAlias specifier) := by
      rw [hr]
      exact hm.aliased
    refine ⟨some m.source, haliased, fun _ _ h => haliased.unique h, fun more hmore => ?_,
      fun added added' h => by rw [withAliases_congr h]⟩
    have hlongest : p.Longest (specifier ++ "/" ++ more) (m.append ("/" ++ more)) :=
      hm.append fun m' hm' => by
        obtain ⟨hkey, happlies⟩ := applies_of_mem hm'
        obtain ⟨longest, hlongest, hle⟩ := hmore _ hkey happlies
        rwa [← Option.mem_some_iff.mp hlongest] at hle
    rw [hlongest.replaceAlias_eq, AliasMatch.result_append, hr, String.append_assoc]

/-- Of two aliases, one of which begins with the other, the longer one is replaced where it ends
with a segment. -/
example : ["@", "@/lib/x", "@/library", "@x"].map
    (Package.withAliases ⟨"app", "1", ⟨"/app"⟩, [], ∅, []⟩
      [("@", "."), ("@/lib", "lib"), ("@", "src")]).replaceAlias =
    ["src", "lib/x", "src/library", "@x"] := by
  decide +kernel

end VendorBundle.Package
