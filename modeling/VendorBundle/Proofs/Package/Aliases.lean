import VendorBundle.Package
import VendorBundle.Proofs.Table
import VendorBundle.Proofs.Text.Specifier

/-!
# What aliases make of a specifier

The longest alias that applies to a specifier is replaced. An alias that applies to a longer
specifier begins with the shorter one, or applies to that one as well and is not all of it. So what
becomes of a text that is gone on with is known from the text, but for the aliases that begin with
it.
-/

namespace VendorBundle.Package

variable {p : Package} {specifier source target : String} {m m' : AliasMatch}

/-- The package without one of its aliases. -/
def without (p : Package) (source : String) : Package :=
  { p with aliases := p.aliases.erase source }

/-! ## Aliases that apply -/

theorem aliasRest?_eq_some_iff {rest : List Char} : aliasRest? source specifier = some rest ↔
    specifier.toList = source.toList ++ rest ∧ (rest = [] ∨ rest.head? = some '/') := by
  rw [aliasRest?, Option.filter_eq_some_iff, Text.stripStart?_eq_some_iff]
  simp

theorem mem_aliasMatches : m ∈ p.aliasMatches specifier ↔
    p.aliases.get? m.source = some m.replacement ∧
      specifier.toList = m.source.toList ++ m.rest ∧ (m.rest = [] ∨ m.rest.head? = some '/') := by
  rw [← aliasRest?_eq_some_iff, Table.get?_eq_some_iff, aliasMatches, List.mem_filterMap]
  constructor
  · rintro ⟨⟨source, replacement⟩, he, hm⟩
    obtain ⟨rest, hrest, rfl⟩ := Option.map_eq_some_iff.mp hm
    exact ⟨he, hrest⟩
  · rintro ⟨he, hrest⟩
    exact ⟨(m.source, m.replacement), he, Option.map_eq_some_iff.mpr ⟨m.rest, hrest, rfl⟩⟩

theorem mem_aliasMatches_without : m ∈ (p.without source).aliasMatches specifier ↔
    m.source ≠ source ∧ m ∈ p.aliasMatches specifier := by
  rw [mem_aliasMatches, mem_aliasMatches, without, Table.get?_erase]
  by_cases h : source = m.source
  · simp [h]
  · simp [h, Ne.symm h]

/-- Aliases of one length that apply to one specifier are one. -/
theorem aliasMatches_eq (hm : m ∈ p.aliasMatches specifier) (hm' : m' ∈ p.aliasMatches specifier)
    (h : m.source.length = m'.source.length) : m = m' := by
  obtain ⟨hget, htext, -⟩ := mem_aliasMatches.mp hm
  obtain ⟨hget', htext', -⟩ := mem_aliasMatches.mp hm'
  obtain ⟨hsource, hrest⟩ := List.append_inj (htext.symm.trans htext')
    (by simpa only [String.length_toList] using h)
  have hsource := String.toList_injective hsource
  rw [hsource, hget'] at hget
  have hreplacement := Option.some.inj hget
  cases m
  cases m'
  simp_all only

/-! ## The longest alias -/

/-- The alias is the longest of those that apply to the specifier. -/
structure Longest (p : Package) (specifier : String) (m : AliasMatch) : Prop where
  applies : m ∈ p.aliasMatches specifier
  le : ∀ m' ∈ p.aliasMatches specifier, m'.source.length ≤ m.source.length

/-- The specifier with the alias replaced. -/
def AliasMatch.result (m : AliasMatch) : String := m.replacement ++ String.ofList m.rest

theorem longer_cases (a b : AliasMatch) : (a.longer b = a ∨ a.longer b = b) ∧
    a.source.length ≤ (a.longer b).source.length ∧
      b.source.length ≤ (a.longer b).source.length := by
  rw [AliasMatch.longer]
  split
  · exact ⟨.inl rfl, le_rfl, by omega⟩
  · exact ⟨.inr rfl, by omega, le_rfl⟩

/-- Going through a list from its first member finds a longest one. -/
theorem foldl_longer (m : AliasMatch) (ms : List AliasMatch) :
    ms.foldl AliasMatch.longer m ∈ m :: ms ∧
      ∀ m' ∈ m :: ms, m'.source.length ≤ (ms.foldl AliasMatch.longer m).source.length := by
  induction ms generalizing m with
  | nil => simp
  | cons m' ms ih =>
      obtain ⟨hmem, hle⟩ := ih (m.longer m')
      obtain ⟨hone, hfirst, hsecond⟩ := longer_cases m m'
      have hlonger := hle _ List.mem_cons_self
      rw [List.foldl_cons]
      constructor
      · rcases List.mem_cons.mp hmem with h | h
        · rw [h]
          rcases hone with hone | hone
          · rw [hone]
            exact List.mem_cons_self
          · rw [hone]
            exact List.mem_cons_of_mem _ List.mem_cons_self
        · exact List.mem_cons_of_mem _ (List.mem_cons_of_mem _ h)
      · intro n hn
        rcases List.mem_cons.mp hn with rfl | hn
        · exact hfirst.trans hlonger
        · rcases List.mem_cons.mp hn with rfl | hn
          · exact hsecond.trans hlonger
          · exact hle n (List.mem_cons_of_mem _ hn)

/-- Either no alias applies, or the longest one is replaced. -/
theorem replaceAlias_cases (p : Package) (specifier : String) :
    (p.aliasMatches specifier = [] ∧ p.replaceAlias specifier = specifier) ∨
      ∃ m, p.Longest specifier m ∧ p.replaceAlias specifier = m.result := by
  unfold replaceAlias
  split
  · rename_i hnone
    exact .inl ⟨hnone, rfl⟩
  · rename_i m ms hms
    obtain ⟨hmem, hle⟩ := foldl_longer m ms
    exact .inr ⟨ms.foldl AliasMatch.longer m, ⟨hms ▸ hmem, hms ▸ hle⟩, rfl⟩

theorem Longest.replaceAlias_eq (h : p.Longest specifier m) :
    p.replaceAlias specifier = m.result := by
  obtain ⟨hnone, -⟩ | ⟨m', hm', hr⟩ := p.replaceAlias_cases specifier
  · exact absurd (hnone ▸ h.applies) List.not_mem_nil
  · rw [hr, aliasMatches_eq hm'.applies h.applies
      (le_antisymm (h.le m' hm'.applies) (hm'.le m h.applies))]

theorem replaceAlias_of_nil (h : p.aliasMatches specifier = []) :
    p.replaceAlias specifier = specifier := by
  rw [replaceAlias, h]

/-- A specifier that is an alias is replaced as a whole. -/
theorem replaceAlias_of_get? (h : p.aliases.get? specifier = some target) :
    p.replaceAlias specifier = target := by
  have hlongest : p.Longest specifier ⟨specifier, target, []⟩ := by
    refine ⟨mem_aliasMatches.mpr ⟨h, by simp, .inl rfl⟩, fun m hm => ?_⟩
    obtain ⟨-, htext, -⟩ := mem_aliasMatches.mp hm
    have hlength := congrArg List.length htext
    simp only [List.length_append, String.length_toList] at hlength
    show m.source.length ≤ specifier.length
    omega
  simp [hlongest.replaceAlias_eq, AliasMatch.result]

/-! ## Going on with a text -/

/-- The match with more text behind the alias. -/
def AliasMatch.append (m : AliasMatch) (more : String) : AliasMatch :=
  { m with rest := m.rest ++ more.toList }

theorem AliasMatch.result_append (m : AliasMatch) (more : String) :
    (m.append more).result = m.result ++ more := by
  simp [append, result, String.ofList_append, String.append_assoc]

variable {text more : String}

/-- An alias that applies to a text, and is not all of it, applies whatever follows. -/
theorem append_mem_aliasMatches (h : m ∈ (p.without text).aliasMatches text) :
    m.append more ∈ p.aliasMatches (text ++ more) := by
  obtain ⟨hne, hm⟩ := mem_aliasMatches_without.mp h
  obtain ⟨hget, htext, hrest⟩ := mem_aliasMatches.mp hm
  have hnonempty : m.rest ≠ [] := by
    intro hnil
    rw [hnil, List.append_nil] at htext
    exact hne (String.toList_injective htext.symm)
  refine mem_aliasMatches.mpr ⟨hget, ?_, .inr ?_⟩
  · simp [htext, AliasMatch.append]
  · rw [AliasMatch.append, List.head?_append_of_ne_nil _ hnonempty]
    exact hrest.resolve_left hnonempty

/-- An alias that applies to a longer text begins with the text, or applies to the text and is not
all of it. -/
theorem aliasMatches_append_cases (h : m ∈ p.aliasMatches (text ++ more)) :
    text.toList <+: m.source.toList ∨
      ∃ m' ∈ (p.without text).aliasMatches text, m = m'.append more := by
  obtain ⟨hget, htext, hrest⟩ := mem_aliasMatches.mp h
  rw [String.toList_append] at htext
  rcases List.append_eq_append_iff.mp htext with ⟨front, hsource, -⟩ | ⟨behind, hbehind, hmore⟩
  · exact .inl ⟨front, hsource.symm⟩
  by_cases hnil : behind = []
  · rw [hnil, List.append_nil] at hbehind
    exact .inl (hbehind ▸ List.prefix_rfl)
  refine .inr ⟨⟨m.source, m.replacement, behind⟩, ?_, ?_⟩
  · refine mem_aliasMatches_without.mpr ⟨?_, mem_aliasMatches.mpr ⟨hget, hbehind, .inr ?_⟩⟩
    · rintro rfl
      exact hnil (by simpa using hbehind)
    · rcases hrest with hrest | hrest
      · simp [hmore, hnil] at hrest
      · rwa [hmore, List.head?_append_of_ne_nil _ hnil] at hrest
  · rw [AliasMatch.append, ← hmore]

/-- The longest alias for a longer text begins with the text, or it is the longest for the text
among those that are not all of it, if there is any. -/
theorem replaceAlias_append (p : Package) (text more : String) :
    (∃ m, p.Longest (text ++ more) m ∧ text.toList <+: m.source.toList) ∨
      p.replaceAlias (text ++ more) = (p.without text).replaceAlias text ++ more := by
  obtain ⟨hnone, hr⟩ | ⟨m, hm, hr⟩ := p.replaceAlias_cases (text ++ more)
  · have hnil : (p.without text).aliasMatches text = [] := by
      refine List.eq_nil_iff_forall_not_mem.mpr fun m hm => ?_
      have happlies : m.append more ∈ p.aliasMatches (text ++ more) := append_mem_aliasMatches hm
      exact absurd (hnone ▸ happlies) List.not_mem_nil
    exact .inr (by rw [hr, replaceAlias_of_nil hnil])
  · obtain hstart | ⟨m', hm', rfl⟩ := aliasMatches_append_cases hm.applies
    · exact .inl ⟨m, hm, hstart⟩
    · have hlongest : (p.without text).Longest text m' :=
        ⟨hm', fun n hn => hm.le (n.append more) (append_mem_aliasMatches hn)⟩
      exact .inr (by rw [hr, AliasMatch.result_append, hlongest.replaceAlias_eq])

end VendorBundle.Package
