import Mathlib.Data.List.Nodup
import VendorBundle.Config.Check
import VendorBundle.Merge.Build
import VendorBundle.Proofs.Merge.Feeds

/-!
# Which mappings have a target

A mapping is for its file, or for its file with its extension. Two mappings can spell one target in
these two ways, or set the dot between file and extension differently. Then the later one counts and
the other is lost; all others keep a target of their own.
-/

namespace VendorBundle

/-- One mapping of a table: the generated directory that a file takes an extension from. -/
structure Mapping where
  file : String
  extension : String
  subdir : String
  deriving DecidableEq

namespace Mapping

def target (p : Mapping) : String := MergeOptions.targetOf p.file p.extension

def source (p : Mapping) : FragmentSource := ⟨trimSlashes p.subdir, p.extension⟩

/-- The file of the mapping has its extension already. -/
def IsWhole (p : Mapping) : Prop := extensionOf? p.file = some p.extension

theorem target_of_isWhole {p : Mapping} (h : p.IsWhole) : p.target = p.file := if_pos h

theorem target_of_not_isWhole {p : Mapping} (h : ¬ p.IsWhole) :
    p.target = p.file ++ "." ++ p.extension := if_neg h

/-- Two mappings have one target that they spell differently. -/
inductive Collides (p q : Mapping) : Prop where
  /-- One mapping names the file that the other one makes of its file and extension. -/
  | spelled (hp : ¬ p.IsWhole) (hq : q.IsWhole) (h : q.file = p.file ++ "." ++ p.extension)
  /-- What the extension of one mapping begins with belongs to the file of the other one. -/
  | shifted (middle : String) (hp : ¬ p.IsWhole) (hq : ¬ q.IsWhole)
      (hf : q.file = p.file ++ "." ++ middle) (he : p.extension = middle ++ "." ++ q.extension)

theorem Collides.target_eq {p q : Mapping} (h : Collides p q) : p.target = q.target := by
  cases h with
  | spelled hp hq h => rw [target_of_not_isWhole hp, target_of_isWhole hq, h]
  | shifted middle hp hq hf he =>
      rw [target_of_not_isWhole hp, target_of_not_isWhole hq, hf, he]
      simp [String.append_assoc]

/-- A text that is cut at a dot in two ways is cut at the same dot, or has a middle part. -/
theorem cut_at_dots {file extension file' extension' : String}
    (h : file ++ "." ++ extension = file' ++ "." ++ extension') :
    (file = file' ∧ extension = extension') ∨
      (∃ middle, file' = file ++ "." ++ middle ∧ extension = middle ++ "." ++ extension') ∨
      ∃ middle, file = file' ++ "." ++ middle ∧ extension' = middle ++ "." ++ extension := by
  have htext :
      file.toList ++ '.' :: extension.toList = file'.toList ++ '.' :: extension'.toList := by
    simpa [String.toList_append] using congrArg String.toList h
  have hcut : ∀ {f e f' e' : String} {between : List Char}, f'.toList = f.toList ++ between →
      '.' :: e.toList = between ++ '.' :: e'.toList → (f = f' ∧ e = e') ∨
        ∃ middle, f' = f ++ "." ++ middle ∧ e = middle ++ "." ++ e' := by
    intro f e f' e' between hf he
    cases between with
    | nil =>
        refine .inl ⟨String.toList_injective (by simpa using hf.symm), ?_⟩
        exact String.toList_injective (List.cons.inj he).2
    | cons c between =>
        rw [List.cons_append, List.cons.injEq] at he
        obtain ⟨rfl, he⟩ := he
        refine .inr ⟨String.ofList between, ?_, ?_⟩
        · exact String.toList_injective (by simp [String.toList_append, hf])
        · exact String.toList_injective (by simp [String.toList_append, he])
  rcases List.append_eq_append_iff.mp htext with ⟨between, hf, he⟩ | ⟨between, hf, he⟩
  · exact (hcut hf he).imp_right .inl
  · rcases hcut hf he with ⟨rfl, rfl⟩ | h
    · exact .inl ⟨rfl, rfl⟩
    · exact .inr (.inr h)

/-- Mappings of different files or extensions share a target exactly when they spell it
differently. -/
theorem target_eq_iff {p q : Mapping} : p.target = q.target ↔
    (p.file = q.file ∧ p.extension = q.extension) ∨ Collides p q ∨ Collides q p := by
  constructor
  · intro h
    by_cases hp : p.IsWhole <;> by_cases hq : q.IsWhole
    · rw [target_of_isWhole hp, target_of_isWhole hq] at h
      exact .inl ⟨h, Option.some.inj (hp.symm.trans (h ▸ hq))⟩
    · rw [target_of_isWhole hp, target_of_not_isWhole hq] at h
      exact .inr (.inr (.spelled hq hp h))
    · rw [target_of_not_isWhole hp, target_of_isWhole hq] at h
      exact .inr (.inl (.spelled hp hq h.symm))
    · rw [target_of_not_isWhole hp, target_of_not_isWhole hq] at h
      rcases cut_at_dots h with h | ⟨middle, hf, he⟩ | ⟨middle, hf, he⟩
      · exact .inl h
      · exact .inr (.inl (.shifted middle hp hq hf he))
      · exact .inr (.inr (.shifted middle hq hp hf he))
  · rintro (⟨hf, he⟩ | h | h)
    · rw [target, target, hf, he]
    · exact h.target_eq
    · exact h.target_eq.symm

end Mapping

namespace MergeOptions

variable (o : MergeOptions)

/-- The mappings of the options, in the order of files and extensions. -/
def mapped : List Mapping :=
  o.mappings.entries.flatMap fun (file, byExtension) =>
    byExtension.entries.map fun (extension, subdir) => ⟨file, extension, subdir⟩

/-- No mapping is lost. -/
structure KeepsMappings : Prop where
  /-- Each mapping has a target, which is fed from its own directory and extension. -/
  fed : ∀ p ∈ o.mapped, o.targets.get? p.target = some p.source
  /-- No two mappings share a target. -/
  apart : ∀ p ∈ o.mapped, ∀ q ∈ o.mapped, p.target = q.target → p = q
  /-- There are the targets of the mappings, and no others. -/
  exact : o.targets.keys.Perm (o.mapped.map Mapping.target)

variable {o}

theorem mem_mapped {p : Mapping} : p ∈ o.mapped ↔
    ∃ byExtension, o.mappings.get? p.file = some byExtension ∧
      byExtension.get? p.extension = some p.subdir := by
  obtain ⟨file, extension, subdir⟩ := p
  simp only [mapped, List.mem_flatMap, List.mem_map, Prod.exists, Mapping.mk.injEq,
    Table.get?_eq_some_iff]
  constructor
  · rintro ⟨file', byExtension, hf, extension', subdir', he, rfl, rfl, rfl⟩
    exact ⟨byExtension, hf, he⟩
  · rintro ⟨byExtension, hf, he⟩
    exact ⟨file, byExtension, hf, extension, subdir, he, rfl, rfl, rfl⟩

/-- A file and an extension are mapped to one directory. -/
theorem eq_of_mem_mapped {p q : Mapping} (hp : p ∈ o.mapped) (hq : q ∈ o.mapped)
    (hf : p.file = q.file) (he : p.extension = q.extension) : p = q := by
  obtain ⟨byExtension, hpf, hpe⟩ := mem_mapped.mp hp
  obtain ⟨byExtension', hqf, hqe⟩ := mem_mapped.mp hq
  obtain rfl := Option.some.inj (hpf.symm.trans (hf ▸ hqf))
  have hs := Option.some.inj (hpe.symm.trans (he ▸ hqe))
  obtain ⟨file, extension, subdir⟩ := p
  obtain ⟨file', extension', subdir'⟩ := q
  exact Mapping.mk.injEq .. ▸ ⟨hf, he, hs⟩

theorem nodup_mapped (o : MergeOptions) : o.mapped.Nodup := by
  rw [mapped, List.nodup_flatMap]
  refine ⟨fun entry _ => ?_, (List.pairwise_map.mp o.mappings.keys_nodup).imp fun hfile => ?_⟩
  · refine List.pairwise_map.mpr ((List.pairwise_map.mp entry.2.keys_nodup).imp fun h he => h ?_)
    exact congrArg Mapping.extension he
  · intro p hp hq
    obtain ⟨_, -, rfl⟩ := List.mem_map.mp hp
    obtain ⟨_, -, hq⟩ := List.mem_map.mp hq
    exact hfile (congrArg Mapping.file hq).symm

theorem targets_eq (o : MergeOptions) :
    o.targets = Table.ofList (o.mapped.map fun p => (p.target, p.source)) := by
  rw [targets, mapped, List.map_flatMap]
  simp only [List.map_map]
  rfl

/-- A target is fed as one of the mappings says that have it. -/
theorem exists_mapping {target : String} {source : FragmentSource}
    (h : o.targets.get? target = some source) :
    ∃ p ∈ o.mapped, p.target = target ∧ p.source = source := by
  rw [targets_eq, Table.get?_ofList, Option.map_eq_some_iff] at h
  obtain ⟨e, he, rfl⟩ := h
  obtain ⟨p, hp, rfl⟩ := List.mem_map.mp (List.mem_reverse.mp (List.mem_of_find?_eq_some he))
  exact ⟨p, hp, by simpa using List.find?_some he, rfl⟩

theorem mem_keys_targets {target : String} :
    target ∈ o.targets.keys ↔ target ∈ o.mapped.map Mapping.target := by
  rw [targets_eq, Table.mem_keys_ofList, List.map_map]
  rfl

/-- All mappings have their own target when no two share one. -/
theorem KeepsMappings.of_apart
    (h : ∀ p ∈ o.mapped, ∀ q ∈ o.mapped, p.target = q.target → p = q) : o.KeepsMappings where
  fed := fun p hp => by
    have hkey := mem_keys_targets.mpr (List.mem_map_of_mem hp)
    obtain ⟨source, hs⟩ := Table.mem_keys.mp hkey
    obtain ⟨q, hq, ht, rfl⟩ := exists_mapping hs
    rw [hs, h q hq p hp ht]
  apart := h
  exact := by
    refine (List.perm_ext_iff_of_nodup o.targets.keys_nodup ?_).mpr fun target => mem_keys_targets
    exact (nodup_mapped o).map_on fun p hp q hq ht => h p hp q hq ht

end MergeOptions

/-! ## Feeds -/

namespace Feeds

theorem count_fedBy_foldl {entries : List (String × FragmentSource)} {feeds : Feeds}
    {target : String} {source : FragmentSource} :
    ((entries.foldl (fun feeds (target, source) => add feeds target source) feeds).fedBy
        source).count target =
      (feeds.fedBy source).count target + entries.count (target, source) := by
  induction entries generalizing feeds with
  | nil => simp
  | cons entry entries ih =>
      obtain ⟨target', source'⟩ := entry
      rw [List.foldl_cons, ih, fedBy_add, List.count_cons]
      by_cases hs : source' = source
      · subst hs
        by_cases ht : target' = target
        · subst ht
          simp
          omega
        · simp [ht]
      · simp [hs]

/-- A target stands once under its source, and nowhere else. -/
theorem count_fedBy_ofTargets (targets : Table String FragmentSource) (target : String)
    (source : FragmentSource) :
    ((ofTargets targets).fedBy source).count target =
      if targets.get? target = some source then 1 else 0 := by
  have hempty : fedBy ∅ source = [] := rfl
  rw [ofTargets, count_fedBy_foldl, hempty, List.count_nil, Nat.zero_add]
  split
  · rename_i h
    exact List.count_eq_one_of_mem targets.entries_nodup (Table.get?_eq_some_iff.mp h)
  · rename_i h
    exact List.count_eq_zero.mpr fun hmem => h (Table.get?_eq_some_iff.mpr hmem)

end Feeds

/-- No mapping is lost exactly when no two of them spell one target differently; and a target is
listed once under the source that it is fed from, and under no other. -/
theorem MergeOptions.keepsMappings_iff (o : MergeOptions) :
    (o.KeepsMappings ↔ ∀ p ∈ o.mapped, ∀ q ∈ o.mapped, ¬ p.Collides q) ∧
    ∀ target source, ((Merger.create o).feeds.fedBy source).count target =
      if (Merger.create o).targets.get? target = some source then 1 else 0 := by
  refine ⟨⟨fun h p hp q hq hc => ?_, fun h => .of_apart fun p hp q hq ht => ?_⟩,
    Feeds.count_fedBy_ofTargets o.targets⟩
  · obtain rfl := h.apart p hp q hq hc.target_eq
    cases hc with
    | spelled hno hwhole => exact hno hwhole
    | shifted middle _ _ hf =>
        -- A file is no longer than itself.
        have hlen := congrArg String.length hf
        simp only [String.length_append] at hlen
        have hdot : ".".length = 1 := rfl
        omega
  · rcases Mapping.target_eq_iff.mp ht with ⟨hf, he⟩ | hc | hc
    · exact eq_of_mem_mapped hp hq hf he
    · exact absurd hc (h p hp q hq)
    · exact absurd hc (h q hq p hp)

namespace Clashing

/-- A file without and with its extension, mapped to different directories. -/
def config : Config where
  merge := some {
    builtDir := "/up"
    generatedDir := "/gen"
    outputDir := "/out"
    mappings := Table.ofList [("assets/vendor", Table.ofList [("js", "app")]),
      ("assets/vendor.js", Table.ofList [("js", "lib")])] }

/-- The first mapping is accepted and lost. -/
theorem first_mapping_lost : config.check = .ok () ∧
    ∃ o, config.mergeOptions = some o ∧ ¬ o.KeepsMappings ∧
      o.mapped = [⟨"assets/vendor", "js", "app"⟩, ⟨"assets/vendor.js", "js", "lib"⟩] ∧
      o.targets.entries = [("assets/vendor.js", ⟨"lib", "js"⟩)] ∧
      (Merger.create o).feeds.fedBy ⟨"app", "js"⟩ = [] := by
  refine ⟨by decide +kernel, _, rfl, fun h => ?_, by decide +kernel, by decide +kernel,
    by decide +kernel⟩
  have hfed := h.fed ⟨"assets/vendor", "js", "app"⟩ (by decide +kernel)
  revert hfed
  decide +kernel

end Clashing

end VendorBundle
