import VendorBundle.Config.Check
import VendorBundle.Proofs.Bundle.Declared
import VendorBundle.Proofs.Bundle.Faithful
import VendorBundle.Proofs.Table

/-!
# What checked configurations promise

The checks of a configuration cover every place that a bundle can come from: the default bundle,
the rules for paths and the kinds of trees. So with the policy of a checked configuration no file
belongs to a bundle that is not declared.
-/

namespace VendorBundle.Config

open Effect

variable {c : Config} {b : Bundles}

/-! ## Checks -/

theorem ensure_eq_ok_iff {holds : Bool} {fault : ConfigFault} :
    ensure holds fault = .ok () ↔ holds := by
  cases holds <;> simp [ensure]

/-- A check comes to nothing but to being passed. -/
theorem check_bind_eq_ok_iff {ε β : Type} {x : Except ε Unit} {f : Unit → Except ε β} {result : β} :
    x >>= f = .ok result ↔ x = .ok () ∧ f () = .ok result :=
  bind_eq_ok_iff.trans ⟨fun ⟨_, hx, hf⟩ => ⟨hx, hf⟩, fun ⟨hx, hf⟩ => ⟨_, hx, hf⟩⟩

theorem forM_eq_ok_iff {ε α : Type} {f : α → Except ε Unit} {as : List α} :
    as.forM f = .ok () ↔ ∀ a ∈ as, f a = .ok () := by
  induction as with
  | nil => exact ⟨fun _ => nofun, fun _ => rfl⟩
  | cons a as ih =>
      rw [List.forM, check_bind_eq_ok_iff, List.forall_mem_cons, ih]

theorem checkNames_eq_ok_iff {seen names : List String} : checkNames seen names = .ok () ↔
    (∀ name ∈ names, Text.isBlank name = false ∧ name ∉ seen) ∧ names.Nodup := by
  induction names generalizing seen with
  | nil => exact ⟨fun _ => ⟨nofun, .nil⟩, fun _ => rfl⟩
  | cons name names ih =>
      rw [checkNames, check_bind_eq_ok_iff, check_bind_eq_ok_iff, ensure_eq_ok_iff,
        ensure_eq_ok_iff, ih, List.nodup_cons, List.forall_mem_cons]
      simp only [Bool.not_eq_true', List.contains_eq_mem, decide_eq_false_iff_not, List.mem_cons,
        not_or]
      constructor
      · rintro ⟨hname, hseen, hrest, hnodup⟩
        exact ⟨⟨⟨hname, hseen⟩, fun n hn => ⟨(hrest n hn).1, (hrest n hn).2.2⟩⟩,
          fun hn => (hrest name hn).2.1 rfl, hnodup⟩
      · rintro ⟨⟨⟨hname, hseen⟩, hrest⟩, hnew, hnodup⟩
        exact ⟨hname, hseen, fun n hn => ⟨(hrest n hn).1, fun he => hnew (he ▸ hn), (hrest n hn).2⟩,
          hnodup⟩

/-- What the bundles of a configuration have to satisfy: the names are declared once each, and
whatever refers to a bundle refers to a declared one. -/
structure Bundles.Sound (b : Bundles) : Prop where
  nonempty : b.names ≠ []
  written : ∀ name ∈ b.names, Text.isBlank name = false
  nodup : b.names.Nodup
  default : b.default ∈ b.names
  rules : ∀ rule ∈ b.rules, rule.bundle ∈ b.names
  treeKinds : ∀ kind bundle, b.treeKinds.get? kind = some bundle → bundle ∈ b.names

theorem checkUse_eq_ok_iff {declared : List String} {use : BundleUse} {bundle : String} :
    checkUse declared use bundle = .ok () ↔ bundle ∈ declared := by
  rw [checkUse, ensure_eq_ok_iff, List.contains_iff_mem]

/-- The check of bundles says whether they are as they have to be. -/
theorem checkBundles_eq_ok_iff : checkBundles b = .ok () ↔ b.Sound := by
  rw [checkBundles, check_bind_eq_ok_iff, check_bind_eq_ok_iff, check_bind_eq_ok_iff,
    check_bind_eq_ok_iff, ensure_eq_ok_iff, checkNames_eq_ok_iff, checkUse_eq_ok_iff,
    forM_eq_ok_iff, forM_eq_ok_iff]
  simp only [checkUse_eq_ok_iff, Bool.not_eq_true', List.isEmpty_eq_false_iff,
    List.not_mem_nil, not_false_eq_true, and_true]
  rw [← Table.forall_get?_iff (P := fun _ bundle => bundle ∈ b.names)]
  exact ⟨fun ⟨h₁, ⟨h₂, h₃⟩, h₄, h₅, h₆⟩ => ⟨h₁, h₂, h₃, h₄, h₅, h₆⟩,
    fun h => ⟨h.nonempty, ⟨h.written, h.nodup⟩, h.default, h.rules, h.treeKinds⟩⟩

theorem sound_of_check (h : c.check = .ok ()) : c.bundles.Sound := by
  obtain ⟨hbundles, -⟩ := check_bind_eq_ok_iff.mp h
  exact checkBundles_eq_ok_iff.mp hbundles

/-! ## The policy -/

/-- Whatever the path of a file and the kind of its tree, its bundle is declared. -/
theorem Bundles.Sound.total (h : c.bundles.Sound) : c.policy.Total := by
  intro path kind
  have hpath : c.policy.bundleForPath path ∈ c.bundles.names := by
    rw [BundlePolicy.bundleForPath]
    split
    · rename_i rule hrule
      exact h.rules rule (List.mem_of_find?_eq_some hrule)
    · exact h.default
  rw [BundlePolicy.bundleFor]
  cases hkind : kind.bind c.policy.bundleForTreeKind? with
  | none => exact hpath
  | some bundle =>
      obtain ⟨kind, -, hk⟩ := Option.bind_eq_some_iff.mp hkind
      exact h.treeKinds kind bundle hk

theorem eraseDups_of_nodup {names : List String} (h : names.Nodup) : names.eraseDups = names := by
  induction names with
  | nil => rfl
  | cons name names ih =>
      obtain ⟨hnew, hrest⟩ := List.nodup_cons.mp h
      have hfilter : names.filter (fun n => !n == name) = names :=
        List.filter_eq_self.mpr fun n hn => by
          rw [beq_eq_false_iff_ne.mpr fun he : n = name => hnew (he ▸ hn), Bool.not_false]
      rw [List.eraseDups_cons, hfilter, ih hrest]

/-- With the policy of a checked configuration, whatever the imports, the files and what was asked
before, no bundle is unknown. A plan has the bundles that the configuration names, in their order,
and each import that it holds is in the first of them that one of its importers belongs to. -/
theorem plans_within_names {σ : Type} [Files σ] (h : c.check = .ok ()) {s : Splitter}
    (hs : Splitter.InUse c.policy s) (files : σ) (lists : List (Shared (List Import))) :
    (∀ path bundle declared, (outcome (Splitter.plan files lists) s).1 ≠
      .error (.unknownBundle path bundle declared)) ∧
    ∀ plan, (outcome (Splitter.plan files lists) s).1 = .ok plan →
      plan.value.bundles.map (·.1) = c.bundles.names ∧ plan.value.Within c.policy := by
  have hsound := sound_of_check h
  constructor
  · intro path bundle declared he
    exact hs.knowsBundles hsound.total files lists he path bundle declared rfl
  · intro plan hplan
    have hwithin := (hs.guarded.plan files lists).2 plan hplan
    exact ⟨hwithin.names.trans (eraseDups_of_nodup hsound.nodup), hwithin⟩

/-! ## A tree of a kind that has no bundle -/

namespace StrayTree

open Splitter (OnePackage.installed OnePackage.site)

def config : Config where
  bundles := {
    names := ["tests", "app"]
    rules := [⟨"tests/", "tests"⟩]
    treeKinds := Table.ofList [("addon-tests", "tests")] }

def imports : List (Shared (List Import)) := [⟨1, [
  .literal ⟨"x", false, { OnePackage.site "addon/a.js" with treeKind := some "addon" }⟩,
  .literal ⟨"x", false, { OnePackage.site "addon/b.js" with treeKind := some "addon-tests" }⟩]⟩]

def started : Splitter := { policy := config.policy, resolver := { options := {} } }

theorem stray_plan_within :
    config.check = .ok () ∧ Splitter.InUse config.policy started ∧
      ∃ plan, (outcome (Splitter.plan OnePackage.installed imports) started).1 = .ok plan ∧
        plan.value.bundles.map (fun b => (b.1, b.2.staticImports.length)) =
          [("tests", 1), ("app", 0)] ∧
        plan.value.bundles.map (·.1) = config.bundles.names ∧ plan.value.Within config.policy := by
  have hcheck : config.check = .ok () := by decide +kernel
  have huse : Splitter.InUse config.policy started := .new _
  have hplan := (plans_within_names hcheck huse OnePackage.installed imports).2
  have hlengths : (outcome (Splitter.plan OnePackage.installed imports) started).1.toOption.map
      (fun plan => plan.value.bundles.map fun b => (b.1, b.2.staticImports.length)) =
        some [("tests", 1), ("app", 0)] := by decide +kernel
  generalize (outcome (Splitter.plan OnePackage.installed imports) started).1 = result
    at hplan hlengths
  cases result with
  | error e => cases hlengths
  | ok plan => exact ⟨hcheck, huse, plan, rfl, Option.some.inj hlengths, hplan plan rfl⟩

end StrayTree

end VendorBundle.Config
