import VendorBundle.Proofs.Index.Scratch
import VendorBundle.Proofs.Pipeline.Repaired

/-!
# Packages that are installed between builds

A splitter that has made a plan gives it out again for the same lists, without asking its resolver.
So packages that were missing and get installed are not noticed by the next build: its plan is the
one of a new pipeline only if no import leads to them.
-/

namespace VendorBundle

open Effect Memory
open List (Forall₂)
open ImportIndex (Holds)
open Split (Concordant importAnswer includedLiterals includedTemplates isIncluded literals planBy
  seen templates)

/-! ## The imports of trees -/

/-- An index that knows the imports of its listing has the list from scratch. -/
theorem IndexScope.list_eq_scratch_of_holds {c : IndexScope} {m : Memory} (hm : m.Named)
    {index : ImportIndex} (hp : index.package = c.package) (ht : index.tree = c.tree)
    (h : Holds m index (c.listing m)) : index.list = c.scratch m := by
  have hprograms : ∀ path, path ∈ index.programs (c.listing m) ↔ path ∈ c.programs m := by
    intro path
    rw [c.mem_programs_of_create, ImportIndex.programs, ImportIndex.programs, hp]
    rfl
  refine (c.list_eq_scratch_iff hm ht h.nonempty h.sited).mpr fun path => ?_
  by_cases hmem : path ∈ c.programs m
  · exact (c.fileImports_of_readFile hp ht hm hmem (h.read path ((hprograms path).mpr hmem))).symm
  · rw [c.fileImports_of_not_mem hmem, h.other path (mt (hprograms path).mp hmem)]

/-- A splitter knows the plan that it has just given out. -/
theorem Splitter.known_of_plan {σ : Type} [Files σ] {files : σ} {s s' : Splitter}
    {lists : List (Shared (List Import))} {plan : Shared BundlePlan}
    (h : outcome (Splitter.plan files lists) s = (.ok plan, s')) : s'.known? lists = some plan := by
  rcases plan_cases h with ⟨rfl, last, hl, rfl, hsame⟩ | ⟨-, r, -, hstamp, rfl⟩
  · rw [known?, hl]
    exact if_pos hsame
  · have hrefl : sameLists lists lists := beq_self_eq_true _
    rw [known?, made]
    exact (if_pos hrefl).trans (by rw [← hstamp])

namespace Pipeline

variable {c : Settings} {m m' : Memory} {p p₁ q : Pipeline} {o : BuildOutcome}

/-- The imports of all trees, told from their files alone. -/
def Settings.imports (c : Settings) (m : Memory) : List Import :=
  c.trees.flatMap fun tree => (c.scope tree).scratch m

/-- A new pipeline has the imports of the trees as they are. -/
theorem flatten_lists_of_build_create (hm : m.Named)
    (h : outcome (Pipeline.build m) c.create = (.ok o, q)) : q.lists.flatten = c.imports m := by
  have hfollows := (follows_create c).of_build h
  obtain ⟨indexes, splitter, hu, -, hq, -⟩ := outcome_build_eq_ok_iff.mp h
  obtain ⟨hg, -⟩ := (ready_create c m).gathers hm hu (hq ▸ rfl) hfollows.listOptions hfollows.policy
  have hlists : ∀ index ∈ q.indexes,
      index.list = (c.scope (index.package, index.tree)).scratch m := fun index hi =>
    IndexScope.list_eq_scratch_of_holds hm rfl rfl (hg.holds index hi).2.1
  rw [hg.lists_eq, List.map_congr_left hlists, Settings.imports, List.flatMap_def, ← hg.trees,
    List.map_map]
  rfl

/-! ## The build after a plan -/

/-- After a build that has succeeded all trees are read, and the splitter knows the plan. -/
theorem known_of_build (hm : m.Named) (h : outcome (Pipeline.build m) p = (.ok o, p₁)) :
    UpToDate m p₁ ∧ p₁.splitter.known? p₁.imports.1 = some o.plan ∧ p₁.last = some o.plan := by
  obtain ⟨indexes, splitter, hu, hplan, rfl, -⟩ := outcome_build_eq_ok_iff.mp h
  refine ⟨upToDate_of_updated hm hu rfl rfl, ?_, rfl⟩
  rw [imports_of_indexes rfl]
  exact Splitter.known_of_plan hplan

/-- As long as the trees are listed as they were, the next build gives the plan of the last one out
again, whatever else was edited. -/
theorem Course.build_again (h : Course c (m, p)) (ho : outcome (Pipeline.build m) p = (.ok o, p₁))
    (hs : c.ListsAlike m m') : outcome (Pipeline.build m') p₁ = (.ok ⟨o.plan, false⟩, p₁) := by
  have hp := h.follows.of_build ho
  obtain ⟨huptodate, hk, hlast⟩ := known_of_build h.reachable.named ho
  rw [(huptodate.of_listsAlike hp hs).outcome_build, Splitter.outcome_plan_of_known hk]
  simp only [bne_self_eq_false, ← hlast]

/-- A new pipeline makes the plan on a state, up to how its paths are written. -/
def Settings.Plans (c : Settings) (m : Memory) (plan : BundlePlan) : Prop :=
  ∃ o q, outcome (Pipeline.build m) c.create = (.ok o, q) ∧ plan.Same o.plan.value

/-- Packages may be added: the trees stay as they are, and imports that led to an installed package
lead where they led. -/
structure Settings.Installs (c : Settings) (m m' : Memory) : Prop where
  listed : c.ListsAlike m m'
  imports : c.imports m' = c.imports m
  kept : ∀ i ∈ c.imports m, isIncluded i → i.isInstalled m c.resolve →
    importAnswer m' c.resolve i = importAnswer m c.resolve i

/-- The plan of a new pipeline depends on where a new resolver leads the imports of the trees. -/
theorem Settings.Plans.exists_planBy {plan : BundlePlan} (h : c.Plans m plan) (hm : m.Named) :
    ∃ made, planBy (Resolver.tells m { options := c.resolve })
      (Resolver.leads m { options := c.resolve }) c.policy (c.imports m) = .ok made ∧
        plan.Same made := by
  obtain ⟨o, q, ho, hs⟩ := h
  have hsplit := split_of_build_create ho
  rw [flatten_lists_of_build_create hm ho] at hsplit
  obtain ⟨hmatches, -⟩ := Split.matches_planBy (.refl m { options := c.resolve })
    (Resolver.answersByPlace m c.resolve) (Resolver.versionsMatch m) c.policy (c.imports m)
  obtain ⟨made, hmade, hsame⟩ := hmatches.agree.of_ok hsplit
  exact ⟨made, hmade, hs.trans hsame⟩

theorem plans_of_build_create (h : outcome (Pipeline.build m) c.create = (.ok o, q)) :
    c.Plans m o.plan.value := ⟨o, q, h, .refl _⟩

/-- The plan of a new pipeline is for the imports that lead to an installed package and are not left
alone. -/
theorem Settings.Plans.mem_importers {plan : BundlePlan} (h : c.Plans m plan) (hm : m.Named)
    {i : Import} :
    i ∈ plan.importers ↔ i ∈ c.imports m ∧ isIncluded i ∧ i.isInstalled m c.resolve := by
  obtain ⟨made, hmade, hs⟩ := h.exists_planBy hm
  rw [hs.importers_eq, Split.mem_importers_of_planBy hmade]
  cases i <;> rfl

/-- Where packages may have been added, answers come to the same exactly when no import leads to one
of them. -/
theorem Settings.Installs.concordant_iff (h : c.Installs m m') :
    Concordant literals (fun i => Resolver.leads m { options := c.resolve } (.literal i))
        (fun i => Resolver.leads m' { options := c.resolve } (.literal i))
        (includedLiterals (c.imports m)) ∧
      Concordant templates (fun i => Resolver.leads m { options := c.resolve } (.template i))
        (fun i => Resolver.leads m' { options := c.resolve } (.template i))
        (includedTemplates (c.imports m)) ↔
      ∀ i ∈ c.imports m, isIncluded i → i.isInstalled m' c.resolve → i.isInstalled m c.resolve := by
  rw [Split.concordant_iff_of_kept, Split.concordant_iff_of_kept]
  · constructor
    · rintro ⟨hl, ht⟩ i hi hincluded
      cases i with
      | literal i => exact hl i (Split.mem_includedLiterals.mpr ⟨hi, hincluded⟩)
      | template i => exact ht i (Split.mem_includedTemplates.mpr ⟨hi, hincluded⟩)
    · refine fun hall => ⟨fun i hi => ?_, fun i hi => ?_⟩
      · obtain ⟨hmem, hincluded⟩ := Split.mem_includedLiterals.mp hi
        exact hall _ hmem hincluded
      · obtain ⟨hmem, hincluded⟩ := Split.mem_includedTemplates.mp hi
        exact hall _ hmem hincluded
  · intro i hi
    obtain ⟨hmem, hincluded⟩ := Split.mem_includedTemplates.mp hi
    exact h.kept _ hmem hincluded
  · intro i hi
    obtain ⟨hmem, hincluded⟩ := Split.mem_includedLiterals.mp hi
    exact h.kept _ hmem hincluded

/-- As long as the trees are listed as they were, the build after one that has succeeded gives its
plan out again, whatever else was edited. When packages were installed since, that is the plan of a
new pipeline exactly if every import that leads to a package now did so before. -/
theorem Course.installs_missed (h : Course c (m, p))
    (ho : outcome (Pipeline.build m) p = (.ok o, p₁)) (hm' : m'.Named) (hi : c.Installs m m') :
    outcome (Pipeline.build m') p₁ = (.ok ⟨o.plan, false⟩, p₁) ∧
    (c.Plans m o.plan.value → (∃ fresh, c.Plans m' fresh) →
      (c.Plans m' o.plan.value ↔ ∀ i ∈ c.imports m, isIncluded i → i.isInstalled m' c.resolve →
        i.isInstalled m c.resolve)) := by
  refine ⟨h.build_again ho hi.listed, fun hplans ⟨fresh, hfresh⟩ => ?_⟩
  obtain ⟨old, hold, hsame⟩ := hplans.exists_planBy h.reachable.named
  obtain ⟨new, hnew, hsame'⟩ := hfresh.exists_planBy hm'
  have hplans' : c.Plans m' o.plan.value ↔ new.Same old := by
    constructor
    · intro hlast
      obtain ⟨made, hmade, hs⟩ := hlast.exists_planBy hm'
      obtain rfl := Except.ok.inj (hnew.symm.trans hmade)
      exact hs.symm.trans hsame
    · intro hs
      obtain ⟨f, q, hf, hfs⟩ := hfresh
      exact ⟨f, q, hf, hsame.trans (hs.symm.trans (hsame'.symm.trans hfs))⟩
  rw [hi.imports] at hnew
  rw [hplans', Split.same_iff_concordant hold hnew, hi.concordant_iff]

/-! ## A package that is installed late -/

namespace OneTree

/-- The package that the program imports is missing. -/
def bare : Memory :=
  (Memory.empty ⟨"/"⟩).addFiles [(⟨"/app/src/a.js"⟩, "import 'x';".toUTF8)]

theorem reachable_bare : bare.Reachable := (Reachable.empty ⟨"/"⟩).addFiles _ (by decide)

def install : Operation := .addFile ⟨"/app/node_modules/x/index.js"⟩ "".toUTF8

theorem reachable_installed : (install.run bare).Reachable :=
  (Reachable.empty ⟨"/"⟩).addFiles [(⟨"/app/src/a.js"⟩, "import 'x';".toUTF8),
    (⟨"/app/node_modules/x/index.js"⟩, "".toUTF8)] (by decide)

theorem read_bare : settings.imports bare = [.literal (written false)] ∧
    (∀ index ∈ settings.create.indexes, Followable bare index) ∧
    (outcome (Split.plan bare settings.policy (settings.listsOn bare).flatten)
      { options := settings.resolve }).1.toOption.isSome := by
  decide +kernel

theorem read_installed : settings.imports (install.run bare) = [.literal (written false)] ∧
    (∀ index ∈ settings.create.indexes, Followable (install.run bare) index) ∧
    (outcome (Split.plan (install.run bare) settings.policy
      (settings.listsOn (install.run bare)).flatten)
      { options := settings.resolve }).1.toOption.isSome := by
  decide +kernel

/-- The tree stays as it is, and the import leads to the package from then on. -/
theorem installed_late : (∀ tree ∈ settings.trees,
      Entry.Ascending (bare.walked tree.2.root settings.listOptions) ∧
      (install.run bare).walked tree.2.root settings.listOptions =
        bare.walked tree.2.root settings.listOptions) ∧
    isIncluded (.literal (written false)) ∧
    (Import.literal (written false)).isInstalled (install.run bare) settings.resolve ∧
    ¬ (Import.literal (written false)).isInstalled bare settings.resolve := by
  decide +kernel

theorem installs : settings.Installs bare (install.run bare) where
  listed := listsAlike_of_walked reachable_bare.named reachable_installed.named installed_late.1
  imports := read_installed.1.trans read_bare.1.symm
  kept := by
    rw [read_bare.1]
    rintro i hi - hbefore
    obtain rfl := List.mem_singleton.mp hi
    exact absurd hbefore installed_late.2.2.2

theorem exists_build_bare : ∃ o p₁, outcome (Pipeline.build bare) settings.create = (.ok o, p₁) := by
  obtain ⟨-, hf, hplan⟩ := read_bare
  obtain ⟨o, p₁, ho, -⟩ := exists_build_create reachable_bare.named rfl hf hplan
  exact ⟨o, p₁, ho⟩

theorem exists_build_installed :
    ∃ fresh q, outcome (Pipeline.build (install.run bare)) settings.create = (.ok fresh, q) := by
  obtain ⟨-, hf, hplan⟩ := read_installed
  obtain ⟨fresh, q, ho, -⟩ := exists_build_create reachable_installed.named rfl hf hplan
  exact ⟨fresh, q, ho⟩

theorem install_missed : ∃ o p₁,
    outcome (Pipeline.build bare) settings.create = (.ok o, p₁) ∧
    outcome (Pipeline.build (install.run bare)) p₁ = (.ok ⟨o.plan, false⟩, p₁) ∧
    ¬ settings.Plans (install.run bare) o.plan.value := by
  obtain ⟨o, p₁, ho⟩ := exists_build_bare
  obtain ⟨fresh, q, hfresh⟩ := exists_build_installed
  obtain ⟨-, hincluded, hnow, hbefore⟩ := installed_late
  have hcourse : Course settings (bare, settings.create) := ⟨bare, reachable_bare, .refl⟩
  obtain ⟨hbuilt, hiff⟩ := hcourse.installs_missed ho reachable_installed.named installs
  refine ⟨o, p₁, ho, hbuilt, fun hplans => hbefore ?_⟩
  have hnothing := (hiff (plans_of_build_create ho) ⟨_, plans_of_build_create hfresh⟩).mp hplans
  exact hnothing _ (read_bare.1 ▸ List.mem_singleton_self _) hincluded hnow

/-- The plan of a new pipeline is for the import, and the one that is given out again is not. -/
theorem install_left_out : ∃ o p₁ fresh q,
    outcome (Pipeline.build bare) settings.create = (.ok o, p₁) ∧
    outcome (Pipeline.build (install.run bare)) settings.create = (.ok fresh, q) ∧
    .literal (written false) ∈ fresh.plan.value.importers ∧
    outcome (Pipeline.build (install.run bare)) p₁ = (.ok ⟨o.plan, false⟩, p₁) ∧
    .literal (written false) ∉ o.plan.value.importers := by
  obtain ⟨o, p₁, ho⟩ := exists_build_bare
  obtain ⟨fresh, q, hfresh⟩ := exists_build_installed
  obtain ⟨-, hincluded, hnow, hbefore⟩ := installed_late
  have hcourse : Course settings (bare, settings.create) := ⟨bare, reachable_bare, .refl⟩
  refine ⟨o, p₁, fresh, q, ho, hfresh, ?_, hcourse.build_again ho installs.listed, fun hmem => ?_⟩
  · exact ((plans_of_build_create hfresh).mem_importers reachable_installed.named).mpr
      ⟨read_installed.1 ▸ List.mem_singleton_self _, hincluded, hnow⟩
  · exact hbefore
      (((plans_of_build_create ho).mem_importers reachable_bare.named).mp hmem).2.2

end OneTree

end Pipeline

end VendorBundle
