import VendorBundle.Proofs.Bundle.Excluded

/-!
# What the key of a template tells

The key of a template is its texts, joined by a placeholder. A text may hold the placeholder itself,
and the key does not tell one from the other. So templates have one key exactly when their texts
agree once they are cut at the placeholders they hold, and a plan gathers such templates in one
entry.
-/

namespace VendorBundle

open Effect

namespace TemplateImport

/-! ## Cutting at placeholders -/

/-- The stretches of a text between the placeholders in it; there is always at least one. -/
def cut : List Char → List (List Char)
  | [] => [[]]
  | '$' :: '{' :: 'e' :: '}' :: rest => [] :: cut rest
  | c :: rest => (cut rest).modifyHead (c :: ·)

theorem toList_placeholder : placeholder.toList = ['$', '{', 'e', '}'] := rfl

theorem cut_ne_nil (text : List Char) : cut text ≠ [] := by
  fun_induction cut text with
  | case1 => exact List.cons_ne_nil _ _
  | case2 => exact List.cons_ne_nil _ _
  | case3 c rest _ ih => simpa using ih

theorem cut_placeholder_append (rest : List Char) :
    cut (placeholder.toList ++ rest) = [] :: cut rest := by
  rw [toList_placeholder, List.cons_append, List.cons_append, List.cons_append, List.cons_append,
    List.nil_append, cut]

/-- A placeholder is not begun by the end of another text. -/
theorem not_placeholder_of_append {c : Char} {front rest behind : List Char}
    (h : ∀ rest', c = '$' → front = '{' :: 'e' :: '}' :: rest' → False) (hc : c = '$') :
    front ++ placeholder.toList ++ rest ≠ '{' :: 'e' :: '}' :: behind := by
  rw [toList_placeholder]
  intro heq
  match front with
  | [] => simp at heq
  | [_] => simp at heq
  | [_, _] => simp at heq
  | a :: b :: d :: front =>
      simp only [List.cons_append, List.cons.injEq] at heq
      obtain ⟨rfl, rfl, rfl, -⟩ := heq
      exact h front hc rfl

theorem cut_append (front rest : List Char) :
    cut (front ++ placeholder.toList ++ rest) = cut front ++ cut rest := by
  fun_induction cut front with
  | case1 => exact cut_placeholder_append rest
  | case2 front ih =>
      simp only [List.cons_append]
      rw [cut, ih]
  | case3 c front h ih =>
      rw [List.cons_append, List.cons_append, cut, ih]
      · cases hcut : cut front with
        | nil => exact absurd hcut (cut_ne_nil front)
        | cons word words => rfl
      · intro behind hc
        exact not_placeholder_of_append h hc

/-- Joining the stretches restores the text. -/
theorem intercalate_cut (text : List Char) : placeholder.toList.intercalate (cut text) = text := by
  fun_induction cut text with
  | case1 => rfl
  | case2 rest ih =>
      cases hcut : cut rest with
      | nil => exact absurd hcut (cut_ne_nil rest)
      | cons word words =>
          rw [List.intercalate_cons_cons, ← hcut, ih]
          rfl
  | case3 c rest _ ih =>
      cases hcut : cut rest with
      | nil => exact absurd hcut (cut_ne_nil rest)
      | cons word words =>
          rw [hcut] at ih
          cases words with
          | nil => simpa using ih
          | cons next words => simpa [List.intercalate_cons_cons] using ih

theorem cut_intercalate {texts : List (List Char)} (h : texts ≠ []) :
    cut (placeholder.toList.intercalate texts) = texts.flatMap cut := by
  induction texts with
  | nil => exact absurd rfl h
  | cons text texts ih =>
      cases texts with
      | nil => simp
      | cons next texts =>
          rw [List.intercalate_cons_cons, cut_append, ih (List.cons_ne_nil _ _)]
          exact List.flatMap_cons.symm

/-- A text without a placeholder is one stretch. -/
theorem cut_of_not_infix {text : List Char} (h : ¬ placeholder.toList <:+: text) :
    cut text = [text] := by
  fun_induction cut text with
  | case1 => rfl
  | case2 rest => exact absurd (List.prefix_append placeholder.toList rest).isInfix h
  | case3 c rest _ ih =>
      rw [ih fun hrest => h (List.infix_cons hrest)]
      rfl

/-! ## Keys -/

/-- The texts of a template, cut at the placeholders that they hold. -/
def stretches (i : TemplateImport) : List (List Char) := i.texts.flatMap (cut ·.toList)

theorem cut_key {i : TemplateImport} (h : i.texts ≠ []) : cut i.key.toList = i.stretches := by
  rw [key, String.toList_intercalate, cut_intercalate (by simpa using h), List.flatMap_map, stretches]

theorem key_eq_key_iff {i j : TemplateImport} (hi : i.texts ≠ []) (hj : j.texts ≠ []) :
    i.key = j.key ↔ i.stretches = j.stretches := by
  rw [← cut_key hi, ← cut_key hj]
  constructor
  · intro h
    rw [h]
  · intro h
    apply String.toList_injective
    rw [← intercalate_cut i.key.toList, h, intercalate_cut]

/-- No text of the template holds a placeholder. -/
def IsPlain (i : TemplateImport) : Prop := ∀ text ∈ i.texts, ¬ placeholder.toList <:+: text.toList

theorem IsPlain.stretches_eq {i : TemplateImport} (h : i.IsPlain) :
    i.stretches = i.texts.map String.toList := by
  rw [stretches, List.flatMap_congr fun text hmem => cut_of_not_infix (h text hmem)]
  exact List.flatMap_pure_eq_map ..

theorem IsPlain.texts_eq {i j : TemplateImport} (hi : i.IsPlain) (hj : j.IsPlain)
    (h : i.stretches = j.stretches) : i.texts = j.texts := by
  rw [hi.stretches_eq, hj.stretches_eq] at h
  exact List.map_injective_iff.mpr (fun _ _ heq => String.toList_injective heq) h

end TemplateImport

/-! ## Entries of templates -/

namespace BundlePlan

/-- The plan has one entry for both templates. -/
def Joins (plan : BundlePlan) (i j : TemplateImport) : Prop :=
  ∃ g ∈ plan.groups (·.templateImports), i ∈ g.importers ∧ j ∈ g.importers

/-- All importers of a template's entry have its texts, and every template that is bundled is in an
entry with its texts. -/
structure KeepsApart (plan : BundlePlan) : Prop where
  alike : ∀ g ∈ plan.groups (·.templateImports), ∀ i ∈ g.importers, i.texts = g.first.texts
  held : ∀ i, .template i ∈ plan.importers →
    ∃ g ∈ plan.groups (·.templateImports), i ∈ g.importers ∧ g.first.texts = i.texts

variable {plan : BundlePlan} {i j : TemplateImport}

theorem template_mem_importers : .template i ∈ plan.importers ↔
    ∃ g ∈ plan.groups (·.templateImports), i ∈ g.importers := by
  simp [importers]

theorem keepsApart_iff_of_joins : plan.KeepsApart ↔
    ∀ i j, plan.Joins i j → i.texts = j.texts := by
  constructor
  · rintro h i j ⟨g, hg, hi, hj⟩
    rw [h.alike g hg i hi, h.alike g hg j hj]
  · intro h
    constructor
    · intro g hg i hi
      exact h i g.first ⟨g, hg, hi, List.mem_cons_self⟩
    · intro i hi
      obtain ⟨g, hg, hi⟩ := template_mem_importers.mp hi
      exact ⟨g, hg, hi, h g.first i ⟨g, hg, List.mem_cons_self, hi⟩⟩

/-- The templates that a plan has one entry for are those with one key. -/
theorem Faithful.joins_iff {policy : BundlePolicy} {ls : List LiteralImport}
    {ts : List TemplateImport} (h : plan.Faithful policy ls ts) (hi : .template i ∈ plan.importers)
    (hj : .template j ∈ plan.importers) : plan.Joins i j ↔ i.key = j.key := by
  have hgroups : Grouped TemplateImport.key ts (plan.groups (·.templateImports)) :=
    h.templates.grouped
  constructor
  · rintro ⟨g, hg, hi, hj⟩
    exact (hgroups.key_eq hg hi).trans (hgroups.key_eq hg hj).symm
  · intro hkey
    obtain ⟨g, hg, hi⟩ := template_mem_importers.mp hi
    obtain ⟨g', hg', hj⟩ := template_mem_importers.mp hj
    refine ⟨g, hg, hi, ?_⟩
    rw [hgroups.importers g' hg'] at hj
    rw [hgroups.importers g hg]
    refine List.mem_filter.mpr ⟨(List.mem_filter.mp hj).1, ?_⟩
    rw [← hkey, hgroups.key_eq hg hi]
    exact decide_eq_true rfl

end BundlePlan

namespace Splitter

/-- Templates have one key exactly when their texts agree once they are cut at placeholders, and a
plan has one entry for two templates exactly then. So it keeps templates apart exactly when no two
that it bundles agree so and have different texts, and it does when no text holds a placeholder. -/
theorem Run.keepsApart_iff {σ : Type} [Files σ] {files : σ} {options : ResolveOptions}
    {policy : BundlePolicy} {content : Nat → List Import} {s : Splitter}
    {lists : List (Shared (List Import))} (h : Run files options policy content s)
    (hl : Known content lists) {shared : Shared BundlePlan}
    (ho : (outcome (Splitter.plan files lists) s).1 = .ok shared)
    (hne : ∀ i, .template i ∈ shared.value.importers → i.texts ≠ []) :
    (∀ i j : TemplateImport, i.texts ≠ [] → j.texts ≠ [] →
      (i.key = j.key ↔ i.stretches = j.stretches)) ∧
    (∀ i j, .template i ∈ shared.value.importers → .template j ∈ shared.value.importers →
      (shared.value.Joins i j ↔ i.stretches = j.stretches)) ∧
    (shared.value.KeepsApart ↔
      ∀ i j, .template i ∈ shared.value.importers → .template j ∈ shared.value.importers →
        i.stretches = j.stretches → i.texts = j.texts) ∧
    ((∀ i, .template i ∈ shared.value.importers → i.IsPlain) → shared.value.KeepsApart) := by
  obtain ⟨ls, ts, -, -, hfaithful⟩ := (h.sound.plan hl).2 shared ho
  have hjoins : ∀ i j, .template i ∈ shared.value.importers →
      .template j ∈ shared.value.importers →
      (shared.value.Joins i j ↔ i.stretches = j.stretches) := by
    intro i j hi hj
    rw [hfaithful.joins_iff hi hj]
    exact TemplateImport.key_eq_key_iff (hne i hi) (hne j hj)
  have hapart : shared.value.KeepsApart ↔
      ∀ i j, .template i ∈ shared.value.importers → .template j ∈ shared.value.importers →
        i.stretches = j.stretches → i.texts = j.texts := by
    rw [BundlePlan.keepsApart_iff_of_joins]
    constructor
    · intro hapart i j hi hj hstretches
      exact hapart i j ((hjoins i j hi hj).mpr hstretches)
    · rintro hstretches i j ⟨g, hg, hi, hj⟩
      have hi' := BundlePlan.template_mem_importers.mpr ⟨g, hg, hi⟩
      have hj' := BundlePlan.template_mem_importers.mpr ⟨g, hg, hj⟩
      exact hstretches i j hi' hj' ((hjoins i j hi' hj').mp ⟨g, hg, hi, hj⟩)
  refine ⟨fun i j => TemplateImport.key_eq_key_iff, hjoins, hapart, ?_⟩
  intro hplain
  exact hapart.mpr fun i j hi hj => (hplain i hi).texts_eq (hplain j hj)

/-! ## Templates of one package -/

namespace Spelled

def installed : Memory :=
  (Memory.empty ⟨"/"⟩).addFile ⟨"/app/node_modules/a/index.js"⟩ "".toUTF8

def template (texts : List String) (file : String) : TemplateImport where
  texts
  hints := []
  site := { file, package := { name := "app", root := ⟨"/app"⟩ } }

def started : Splitter := { policy := .standard, resolver := { options := {} } }

def found (templates : List TemplateImport) : List (Shared (List Import)) :=
  [⟨1, templates.map .template⟩]

/-- A template with an expression between its texts, and one with the same letters in one text. -/
def between (file : String) : TemplateImport := template ["a/", "b", ""] file

def joined (file : String) : TemplateImport := template ["a/b", ""] file

/-- What stands for an expression between two texts is written out in one. -/
def spelled (file : String) : TemplateImport := template ["a/$\x7be\x7db", ""] file

theorem known_found (templates : List TemplateImport) :
    Known (fun _ => templates.map .template) (found templates) := known_singleton _

/-- A plan bundles all templates of the package. -/
theorem exists_plan (templates : List TemplateImport)
    (h : (outcome (Splitter.plan installed (found templates)) started).1.toOption.isSome)
    (hall : ∀ i ∈ templates, Split.isIncluded (.template i) ∧
      (Import.template i).isInstalled installed {}) :
    ∃ shared, (outcome (Splitter.plan installed (found templates)) started).1 = .ok shared ∧
      shared.value.Splits installed {} .standard (templates.map .template) ∧
      ∀ i, .template i ∈ shared.value.importers ↔ i ∈ templates := by
  obtain ⟨shared, ho⟩ := Aliased.exists_ok h
  have hrun : Run installed {} .standard (fun _ => templates.map .template) started := .new .new
  have hsplits := (hrun.sound.plan (known_found templates)).2 shared ho
  have himports : (found templates).flatMap (·.value) = templates.map .template := by
    simp [found]
  rw [himports] at hsplits
  refine ⟨shared, ho, hsplits, fun i => ?_⟩
  rw [hsplits.mem_importers_iff (Resolver.answersByPlace installed {})]
  constructor
  · rintro ⟨hmem, -⟩
    simpa using hmem
  · intro hmem
    exact ⟨List.mem_map_of_mem hmem, hall i hmem⟩

theorem between_kept_apart : ∃ shared,
    (outcome (Splitter.plan installed (found [between "a.js", between "b.js", joined "c.js"]))
      started).1 = .ok shared ∧
    shared.value.KeepsApart ∧ shared.value.Joins (between "a.js") (between "b.js") ∧
      ¬ shared.value.Joins (between "a.js") (joined "c.js") := by
  obtain ⟨shared, ho, -, hmem⟩ := exists_plan [between "a.js", between "b.js", joined "c.js"]
    (by decide +kernel) (by decide +kernel)
  have hne : ∀ i, .template i ∈ shared.value.importers → i.texts ≠ [] := by
    intro i hi
    rw [hmem] at hi
    revert i
    decide
  have hrun : Run installed {} .standard
      (fun _ => [between "a.js", between "b.js", joined "c.js"].map .template) started := .new .new
  obtain ⟨-, hjoins, hapart, -⟩ := hrun.keepsApart_iff (known_found _) ho hne
  refine ⟨shared, ho, hapart.mpr ?_, ?_, ?_⟩
  · have hall : ∀ i ∈ [between "a.js", between "b.js", joined "c.js"],
        ∀ j ∈ [between "a.js", between "b.js", joined "c.js"],
          i.stretches = j.stretches → i.texts = j.texts := by decide
    exact fun i j hi hj => hall i ((hmem i).mp hi) j ((hmem j).mp hj)
  · rw [hjoins _ _ ((hmem _).mpr (by decide)) ((hmem _).mpr (by decide))]
    decide
  · rw [hjoins _ _ ((hmem _).mpr (by decide)) ((hmem _).mpr (by decide))]
    decide

/-- The two templates differ in their texts, also in the one in front, but not in their keys. The
second disappears in the entry of the first. -/
theorem spelled_joined : ∃ shared,
    (outcome (Splitter.plan installed (found [between "a.js", spelled "b.js"])) started).1 =
      .ok shared ∧
    (between "a.js").key = (spelled "b.js").key ∧
    (between "a.js").texts ≠ (spelled "b.js").texts ∧
    (between "a.js").leadingText ≠ (spelled "b.js").leadingText ∧
    shared.value.Joins (between "a.js") (spelled "b.js") ∧ ¬ shared.value.KeepsApart := by
  obtain ⟨shared, ho, hsplits, hmem⟩ := exists_plan [between "a.js", spelled "b.js"]
    (by decide +kernel) (by decide +kernel)
  obtain ⟨ls, ts, -, -, hfaithful⟩ := hsplits
  have hkey : (between "a.js").key = (spelled "b.js").key := by decide +kernel
  have htexts : (between "a.js").texts ≠ (spelled "b.js").texts := by decide
  have hjoins : shared.value.Joins (between "a.js") (spelled "b.js") :=
    (hfaithful.joins_iff ((hmem _).mpr (by decide)) ((hmem _).mpr (by decide))).mpr hkey
  refine ⟨shared, ho, hkey, htexts, by decide, hjoins, fun hapart => ?_⟩
  exact htexts (BundlePlan.keepsApart_iff_of_joins.mp hapart _ _ hjoins)

/-- Where no text spells an expression, one expression less is another template. -/
example : (between "a.js").key ≠ (joined "a.js").key := by
  decide +kernel

end Spelled

end Splitter

end VendorBundle
