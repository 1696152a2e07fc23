import VendorBundle.Files.Memory
import VendorBundle.Proofs.Package.Aliases
import VendorBundle.Proofs.Resolver.Answers

/-!
# Templates that stay in one package

Of a template only the leading text is resolved, as if it were all of the specifier. Aliases are
applied to it too, though what follows at run time can make another alias apply, or none. So a
template that leads into a package stays there whatever follows exactly when the aliases that begin
with its leading text lead there as well, and the text does without the alias that it is itself.
-/

namespace VendorBundle

open Specifier (isPinned packageName?)

namespace Specifier

/-- The leading text of a template is precise only if a slash ends the package name. -/
theorem isPinned_of_isPrecise {text : String} (h : isPrecise text) : isPinned text := by
  rw [isPinned_iff]
  unfold isPrecise at h
  split at h
  · rename_i rest htext
    split at h
    · rename_i c scope behind hscope
      split at h
      · rename_i d name more hname
        have hcut : Text.cut? '/' ('@' :: rest) = some ('@' :: c :: scope, behind) := by
          simp [Text.cut?, hscope]
        rw [htext, splitPackage_of_scoped rfl hcut, hname]
        exact ⟨_, _, rfl⟩
      · cases h
    · cases h
  · rename_i hplain
    split at h
    · rename_i c name more hname
      have hhead : text.toList.head? ≠ some '@' := by
        intro hhead
        obtain ⟨rest, hrest⟩ := List.head?_eq_some_iff.mp hhead
        exact hplain rest hrest
      exact ⟨_, _, splitPackage_of_plain hhead hname⟩
    · cases h

end Specifier

/-! ## Whatever follows -/

namespace Package

variable {p : Package} {name text : String}

/-- Whatever follows the text, the specifier names the package once its aliases are applied. -/
def StaysIn (p : Package) (name text : String) : Prop :=
  ∀ more : String, packageName? (p.replaceAlias (text ++ more)) = some name

/-- What becomes of the text names the package, and a slash ends the name. -/
structure Pins (p : Package) (name text : String) : Prop where
  pinned : isPinned (p.replaceAlias text)
  named : packageName? (p.replaceAlias text) = some name

/-- The aliases that begin with the text lead to the package. -/
def AliasesLeadTo (p : Package) (name text : String) : Prop :=
  ∀ source target, p.aliases.get? source = some target → text.toList <+: source.toList →
    packageName? target = some name

theorem pins_iff : p.Pins name text ↔
    isPinned (p.replaceAlias text) ∧ packageName? (p.replaceAlias text) = some name :=
  ⟨fun h => ⟨h.pinned, h.named⟩, fun h => ⟨h.1, h.2⟩⟩

instance (p : Package) (name text : String) : Decidable (p.Pins name text) :=
  decidable_of_iff _ pins_iff.symm

instance (p : Package) (name text : String) : Decidable (p.AliasesLeadTo name text) :=
  decidable_of_iff _ Table.forall_get?_iff.symm

theorem staysIn_of_aliasesLeadTo (ha : p.AliasesLeadTo name text)
    (hp : (p.without text).Pins name text) : p.StaysIn name text := by
  intro more
  obtain ⟨m, hm, hstart⟩ | hr := p.replaceAlias_append text more
  · obtain ⟨hget, -, hrest⟩ := mem_aliasMatches.mp hm.applies
    have htarget := ha m.source m.replacement hget hstart
    rw [hm.replaceAlias_eq, AliasMatch.result]
    rcases hrest with hnil | hslash
    · rwa [hnil, String.ofList_nil, String.append_empty]
    · obtain ⟨rest, hrest⟩ := List.head?_eq_some_iff.mp hslash
      have hbehind : String.ofList m.rest = "/" ++ String.ofList rest := by
        apply String.toList_injective
        simp [hrest]
      rw [hbehind, ← String.append_assoc]
      exact Specifier.packageName?_slash hp.pinned hp.named htarget _
  · rw [hr, Specifier.packageName?_append hp.pinned, hp.named]

/-- Some text can follow to which no alias applies that begins with the text before. -/
theorem exists_beyond_aliases (p : Package) (text name : String) : ∃ more : String,
    '/' ∉ more.toList ∧ name.length < more.length ∧
      p.replaceAlias (text ++ more) = (p.without text).replaceAlias text ++ more := by
  obtain ⟨more, hmore, hlong⟩ := Specifier.exists_longer (name :: p.aliases.keys)
  refine ⟨more, hmore, hlong name List.mem_cons_self, ?_⟩
  refine (p.replaceAlias_append text more).resolve_left ?_
  rintro ⟨m, hm, front, hfront⟩
  obtain ⟨hget, htext, hrest⟩ := mem_aliasMatches.mp hm.applies
  have hshort : m.source.length < more.length :=
    hlong m.source (List.mem_cons_of_mem _ (Table.mem_keys.mpr ⟨_, hget⟩))
  -- What follows the alias lies in the text that follows, which has no slash.
  have hbehind : more.toList = front ++ m.rest := by
    rw [← hfront, String.toList_append, List.append_assoc] at htext
    exact List.append_cancel_left htext
  rcases hrest with hnil | hslash
  · have hlength := congrArg List.length hbehind
    have hsource := congrArg List.length hfront
    simp only [hnil, List.append_nil, List.length_append, String.length_toList] at hlength hsource
    omega
  · obtain ⟨rest, hrest⟩ := List.head?_eq_some_iff.mp hslash
    exact hmore (by simp [hbehind, hrest])

/-- A text stays in a package exactly when the aliases that begin with it lead there and what
becomes of it by the other aliases is pinned there. -/
theorem staysIn_iff : p.StaysIn name text ↔
    p.AliasesLeadTo name text ∧ (p.without text).Pins name text := by
  constructor
  · intro h
    refine ⟨fun source target hget hstart => ?_, ?_⟩
    · obtain ⟨rest, hrest⟩ := hstart
      have hsource : text ++ String.ofList rest = source := by
        apply String.toList_injective
        simp [hrest]
      have hnamed := h (String.ofList rest)
      rwa [hsource, replaceAlias_of_get? hget] at hnamed
    · obtain ⟨more, hmore, hlong, hr⟩ := p.exists_beyond_aliases text name
      have hnamed := h more
      rw [hr] at hnamed
      have hpinned : isPinned ((p.without text).replaceAlias text) := by
        by_contra hn
        have hname := Specifier.packageName?_append_of_not_isPinned (Bool.eq_false_iff.mpr hn)
          hmore hnamed
        rw [hname, String.length_append] at hlong
        omega
      rw [Specifier.packageName?_append hpinned] at hnamed
      exact ⟨hpinned, hnamed⟩
  · rintro ⟨ha, hp⟩
    exact staysIn_of_aliasesLeadTo ha hp

instance (p : Package) (name text : String) : Decidable (p.StaysIn name text) :=
  decidable_of_iff _ staysIn_iff.symm

theorem without_of_not_mem (h : text ∉ p.aliases.keys) : p.without text = p := by
  have herase : p.aliases.erase text = p.aliases := by
    refine Table.ext_get? fun source => ?_
    rw [Table.get?_erase]
    split
    · rename_i heq
      rw [← heq, Table.get?_eq_none_iff.mpr h]
    · rfl
  rw [without, herase]

/-- Of a text that is precise already, only an alias that it is itself is left to do without. -/
theorem Pins.staysIn_iff (h : p.Pins name text) : p.StaysIn name text ↔
    p.AliasesLeadTo name text ∧ (text ∈ p.aliases.keys → (p.without text).Pins name text) := by
  rw [Package.staysIn_iff]
  refine and_congr_right fun _ => ⟨fun hp _ => hp, fun hp => ?_⟩
  by_cases hmem : text ∈ p.aliases.keys
  · exact hp hmem
  · rwa [without_of_not_mem hmem]

end Package

/-! ## Directories of packages -/

namespace Resolver

variable {σ : Type} [Files σ] {files : σ} {options : ResolveOptions} {r : Resolver}
  {root path dir : Path} {specifier name : String}

/-- A directory where the package is looked for from the root, up to the way the root is written. -/
def Candidate (root : Path) (name : String) (dir : Path) : Prop :=
  ∃ root' : Path, root'.components = root.components ∧
    ∃ above ∈ root'.ancestors, dir = (above.join "node_modules").join ⟨name⟩

/-- The directory where the package is found from the root, up to the way the root is written. -/
def Houses (files : σ) (root : Path) (name : String) (dir : Path) : Prop :=
  ∃ root' : Path, root'.components = root.components ∧ packageDir? files root' name = some dir

theorem Houses.candidate (h : Houses files root name dir) : Candidate root name dir := by
  obtain ⟨root', hroot, hdir⟩ := h
  obtain ⟨above, habove, rfl⟩ := List.mem_map.mp (List.mem_of_find?_eq_some hdir)
  exact ⟨root', hroot, above, habove, rfl⟩

/-- A path that is found lies in the directory of the package that the specifier names: for a
template it is what follows the name there, for a literal a file that is found from there. -/
theorem answer_external {template : Bool}
    (h : answer files options root specifier template = .ok (.external path)) :
    ∃ name dir subpath, packageName? specifier = some name ∧
      packageDir? files root name = some dir ∧
        if template then path = dir.join ⟨templateRest name specifier⟩
        else findLiteral files options dir subpath = .ok (some path) := by
  obtain ⟨⟨name, subpath, hs⟩, hp⟩ := searched_of_external h
  rw [answer_of_package hs hp, search] at h
  split at h
  · cases h
  · rename_i dir hdir
    refine ⟨name, dir, subpath, by rw [packageName?, hs], hdir, ?_⟩
    split
    · rename_i htemplate
      rw [if_pos htemplate] at h
      exact (Target.external.inj (Except.ok.inj h)).symm
    · rename_i htemplate
      rw [if_neg htemplate] at h
      split at h
      · cases h
      · rename_i hfile
        rw [hfile, Target.external.inj (Except.ok.inj h)]
      · cases h

/-- A resolver that was asked about any states of any file systems. -/
inductive InUse : Resolver → Prop where
  | new (options : ResolveOptions) : InUse { options }
  | resolve {σ : Type} [Files σ] {r : Resolver} (h : InUse r) (files : σ) (root : Path)
      (specifier : String) (template : Bool) : InUse (r.resolve files root specifier template).2
  | versionOf {σ : Type} [Files σ] {r : Resolver} (h : InUse r) (files : σ) (entrypoint : Path) :
      InUse (r.versionOf files entrypoint).2

/-- The path is what follows the name in a directory of the package that the specifier names. -/
structure Within (root : Path) (specifier name : String) (dir path : Path) : Prop where
  named : packageName? specifier = some name
  candidate : Candidate root name dir
  path : path = dir.join ⟨templateRest name specifier⟩

theorem Within.of_answer {root' : Path} (hroot : root'.components = root.components)
    (h : answer files options root' specifier true = .ok (.external path)) :
    ∃ name dir, Within root specifier name dir path ∧ Houses files root name dir := by
  obtain ⟨name, dir, _, hname, hdir, hpath⟩ := answer_external h
  have hhouses : Houses files root name dir := ⟨root', hroot, hdir⟩
  exact ⟨name, dir, ⟨hname, hhouses.candidate, by simpa using hpath⟩, hhouses⟩

/-- What a resolver remembers of templates lies in their packages. -/
theorem InUse.within (h : InUse r) : ∀ root specifier path,
    r.targets.lookup (root.components, specifier, true) = some (.external path) →
      ∃ name dir, Within root specifier name dir path := by
  induction h with
  | new => simp
  | @resolve _ _ r _ files asked specifier template ih =>
      intro root specifier' path hl
      obtain ⟨hr, -⟩ | ⟨found, hnone, hr⟩ := resolve_cases r files asked specifier template
      · rw [hr] at hl
        exact ih root specifier' path hl
      · rw [hr, List.lookup_cons] at hl
        split at hl
        · rename_i hkey
          simp only [beq_iff_eq, Prod.mk.injEq] at hkey
          obtain ⟨hroot, rfl, rfl⟩ := hkey
          obtain rfl : found = path := by simpa using hl
          have hgiven : r.gives files ⟨asked, specifier', true⟩ = .ok (.external found) := by
            rw [gives, hr]
          obtain ⟨-, hknown | ⟨-, hfound⟩⟩ := gives_eq_external hgiven
          · cases hnone.symm.trans hknown
          · obtain ⟨name, dir, hwithin, -⟩ := Within.of_answer hroot.symm hfound
            exact ⟨name, dir, hwithin⟩
        · exact ih root specifier' path hl
  | versionOf _ files entrypoint ih => simpa only [targets_versionOf] using ih

/-- A path that a template leads to lies in the package that its leading text names. -/
theorem InUse.within_of_resolve (h : InUse r)
    (hr : (r.resolve files root specifier true).1 = .ok (.external path)) :
    ∃ name dir, Within root specifier name dir path := by
  obtain ⟨-, hknown | ⟨-, hfound⟩⟩ := gives_eq_external (q := ⟨root, specifier, true⟩) hr
  · exact h.within root specifier path hknown
  · obtain ⟨name, dir, hwithin, -⟩ := Within.of_answer rfl hfound
    exact ⟨name, dir, hwithin⟩

/-- If the resolver was asked about these files only, the package is found in that directory. -/
theorem Consulted.within_of_resolve (h : Consulted files options r)
    (hr : (r.resolve files root specifier true).1 = .ok (.external path)) :
    ∃ name dir, Within root specifier name dir path ∧ Houses files root name dir := by
  obtain ⟨root', hroot, hfound⟩ := (h.recalls.resolve root specifier true).1
  exact Within.of_answer hroot (hfound.trans hr)

/-- And a literal that names the package is looked for there. -/
theorem Consulted.found_of_resolve (h : Consulted files options r)
    (hn : packageName? specifier = some name)
    (hr : (r.resolve files root specifier false).1 = .ok (.external path)) :
    ∃ dir subpath, Houses files root name dir ∧
      findLiteral files options dir subpath = .ok (some path) := by
  obtain ⟨root', hroot, hfound⟩ := (h.recalls.resolve root specifier false).1
  obtain ⟨name', dir, subpath, hname, hdir, hfile⟩ := answer_external (hfound.trans hr)
  obtain rfl : name' = name := Option.some.inj (hname.symm.trans hn)
  rw [if_neg Bool.false_ne_true] at hfile
  exact ⟨dir, subpath, ⟨root', hroot, hdir⟩, hfile⟩

end Resolver

namespace Package

variable {σ : Type} [Files σ] {files : σ} {p : Package} {r : Resolver} {text : String} {path : Path}

theorem Pins.of_resolve {name : String} {dir : Path}
    (h : (p.resolve r files text true).1 = .ok (.external path))
    (hw : Resolver.Within p.root (p.replaceAlias text) name dir path) : p.Pins name text := by
  obtain ⟨-, hprecise⟩ := Resolver.searched_of_external h
  exact ⟨Specifier.isPinned_of_isPrecise (by simpa using hprecise), hw.named⟩

/-- A template that leads to an installed package leads into the directory of the package that its
leading text names after aliases, and stays there exactly when the aliases that begin with the
leading text lead to the package, and the text would be pinned there without the alias that it is
itself. All that stays is looked for where the package is installed. -/
theorem resolve_template_stays_iff (hr : r.InUse)
    (h : (p.resolve r files text true).1 = .ok (.external path)) :
    ∃ name dir, Resolver.Within p.root (p.replaceAlias text) name dir path ∧
      (p.StaysIn name text ↔ p.AliasesLeadTo name text ∧
        (text ∈ p.aliases.keys → (p.without text).Pins name text)) ∧
      (Resolver.Consulted files r.options r → Resolver.Houses files p.root name dir ∧
        ∀ more file, packageName? (p.replaceAlias (text ++ more)) = some name →
          (p.resolve r files (text ++ more) false).1 = .ok (.external file) →
            ∃ dir' subpath, Resolver.Houses files p.root name dir' ∧
              Resolver.findLiteral files r.options dir' subpath = .ok (some file)) := by
  by_cases hc : Resolver.Consulted files r.options r
  · obtain ⟨name, dir, hwithin, hhouses⟩ := hc.within_of_resolve h
    refine ⟨name, dir, hwithin, (Pins.of_resolve h hwithin).staysIn_iff, fun _ => ⟨hhouses, ?_⟩⟩
    intro more file hname hfile
    exact hc.found_of_resolve hname hfile
  · obtain ⟨name, dir, hwithin⟩ := hr.within_of_resolve h
    exact ⟨name, dir, hwithin, (Pins.of_resolve h hwithin).staysIn_iff, fun hc' => absurd hc' hc⟩

namespace Renamed

def installed : Memory :=
  ((Memory.empty ⟨"/"⟩).addFile ⟨"/app/node_modules/lodash-es/index.js"⟩ "".toUTF8).addFile
    ⟨"/app/node_modules/preact/compat/index.js"⟩ "".toUTF8

def started : Resolver := { options := {} }

/-- A package with one alias for all of another package, and perhaps one for a part of it. -/
def lodash (parts : List (String × String)) : Package where
  name := "app"
  root := ⟨"/app"⟩
  aliases := Table.ofList (("lodash", "lodash-es") :: parts)

/-- The slash ends the name, and no alias begins with the text. -/
theorem lodash_stays :
    started.InUse ∧ ((lodash []).resolve started installed "lodash/" true).1 =
      .ok (.external ⟨"/app/node_modules/lodash-es/"⟩) ∧
    (lodash []).StaysIn "lodash-es" "lodash/" := by
  have hgiven : ((lodash []).resolve started installed "lodash/" true).1 =
      .ok (.external ⟨"/app/node_modules/lodash-es/"⟩) := by decide +kernel
  obtain ⟨name, dir, hwithin, hiff, -⟩ := resolve_template_stays_iff (.new {}) hgiven
  have hname : packageName? ((lodash []).replaceAlias "lodash/") = some "lodash-es" := by
    decide +kernel
  obtain rfl : name = "lodash-es" := Option.some.inj (hwithin.named.symm.trans hname)
  exact ⟨.new {}, hgiven, hiff.mpr (by decide +kernel)⟩

/-- The slash that makes the text precise comes from the alias. -/
def react : Package where
  name := "app"
  root := ⟨"/app"⟩
  aliases := Table.ofList [("react", "preact/compat")]

/-- A text that is an alias is taken for precise, though the name that is written goes on behind it.
And an alias for a part of a package takes that part out of it. -/
theorem accepted_leads_elsewhere :
    ((react.resolve started installed "react" true).1 =
        .ok (.external ⟨"/app/node_modules/preact/compat"⟩) ∧
      packageName? (react.replaceAlias "react") = some "preact" ∧
      packageName? (react.replaceAlias ("react" ++ "-dom")) = some "react-dom" ∧
      ¬ react.StaysIn "preact" "react") ∧
    ((lodash [("lodash/fp", "lodash-fp")]).resolve started installed "lodash/" true).1 =
        .ok (.external ⟨"/app/node_modules/lodash-es/"⟩) ∧
      packageName? ((lodash [("lodash/fp", "lodash-fp")]).replaceAlias "lodash/") =
        some "lodash-es" ∧
      packageName? ((lodash [("lodash/fp", "lodash-fp")]).replaceAlias ("lodash/" ++ "fp")) =
        some "lodash-fp" ∧
      ¬ (lodash [("lodash/fp", "lodash-fp")]).StaysIn "lodash-es" "lodash/" := by
  decide +kernel

end Renamed

end Package

end VendorBundle
