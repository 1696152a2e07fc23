import Mathlib.Data.List.Forall2
import VendorBundle.Bundle.Split
import VendorBundle.Proofs.Resolver.Search

/-!
# Plans that denote the same

Two plans are the same when they differ at most in the way the paths of entry files are written.
Groups that are the same are put into the same bundles, in the same order.
-/

namespace VendorBundle

open List (Forall₂)

/-- Groups of the same imports whose entry files have paths that denote the same. -/
structure ImportGroup.Same {α : Type} (g h : ImportGroup α) : Prop where
  key : g.key = h.key
  entrypoint : g.entrypoint.same h.entrypoint
  first : g.first = h.first
  more : g.more = h.more

structure BundleContents.Same (c d : BundleContents) : Prop where
  staticImports : Forall₂ ImportGroup.Same c.staticImports d.staticImports
  dynamicImports : Forall₂ ImportGroup.Same c.dynamicImports d.dynamicImports
  templateImports : Forall₂ ImportGroup.Same c.templateImports d.templateImports

/-- Plans of the same bundles with the same groups in the same order. -/
def BundlePlan.Same (plan plan' : BundlePlan) : Prop :=
  Forall₂ (fun a b => a.1 = b.1 ∧ a.2.Same b.2) plan.bundles plan'.bundles

/-! ## Related lists -/

section

variable {α β γ δ : Type} {R : α → β → Prop} {S : γ → δ → Prop}

/-- Sorting keeps lists related when their orders agree on related items. -/
theorem forall₂_mergeSort {le : α → α → Bool} {le' : β → β → Bool}
    (hle : ∀ a a' b b', R a b → R a' b' → le a a' = le' b b') {as : List α} {bs : List β}
    (h : Forall₂ R as bs) : Forall₂ R (as.mergeSort le) (bs.mergeSort le') := by
  -- The lists are the two sides of one list of related pairs, which is sorted once.
  have hpairs : ∃ ps : List { p : α × β // R p.1 p.2 },
      as = ps.map (·.1.1) ∧ bs = ps.map (·.1.2) := by
    induction h with
    | nil => exact ⟨[], rfl, rfl⟩
    | @cons a b _ _ hab _ ih =>
        obtain ⟨ps, rfl, rfl⟩ := ih
        exact ⟨⟨(a, b), hab⟩ :: ps, rfl, rfl⟩
  obtain ⟨ps, rfl, rfl⟩ := hpairs
  rw [← List.map_mergeSort (r := fun p q => le p.1.1 q.1.1) fun p _ q _ => rfl,
    ← List.map_mergeSort (r := fun p q => le p.1.1 q.1.1) fun p _ q _ => hle _ _ _ _ p.2 q.2,
    List.forall₂_map_left_iff, List.forall₂_map_right_iff, List.forall₂_same]
  exact fun p _ => p.2

theorem exists_related {as : List α} {bs : List β} (h : Forall₂ R as bs) {a : α} (ha : a ∈ as) :
    ∃ b ∈ bs, R a b := by
  induction h with
  | nil => exact absurd ha List.not_mem_nil
  | cons hab _ ih =>
      rcases List.mem_cons.mp ha with rfl | ha
      · exact ⟨_, List.mem_cons_self, hab⟩
      · obtain ⟨b, hb, hr⟩ := ih ha
        exact ⟨b, List.mem_cons_of_mem _ hb, hr⟩

theorem forall₂_trans {T : α → δ → Prop} {S : β → δ → Prop} (hT : ∀ a b d, R a b → S b d → T a d)
    {as : List α} {bs : List β} {ds : List δ} (h : Forall₂ R as bs) (h' : Forall₂ S bs ds) :
    Forall₂ T as ds := by
  induction h generalizing ds with
  | nil =>
      cases h'
      exact .nil
  | cons hab _ ih =>
      cases h' with
      | cons hbd h' => exact .cons (hT _ _ _ hab hbd) (ih h')

theorem matches_foldlM {ε ε' : Type} {E : ε → ε' → Prop} {f : γ → α → Except ε γ}
    {g : δ → β → Except ε' δ} (hf : ∀ c d a b, S c d → R a b → Matches E S (f c a) (g d b))
    {as : List α} {bs : List β} (h : Forall₂ R as bs) {c : γ} {d : δ} (hcd : S c d) :
    Matches E S (as.foldlM f c) (bs.foldlM g d) := by
  induction h generalizing c d with
  | nil => exact .ok hcd
  | cons hab _ ih =>
      rw [List.foldlM_cons, List.foldlM_cons]
      exact (hf _ _ _ _ hcd hab).bind fun _ _ h => ih h

end

/-! ## Groups -/

namespace ImportGroup.Same

variable {α : Type} {g h : ImportGroup α}

theorem refl (g : ImportGroup α) : g.Same g := ⟨rfl, Path.same_iff.mpr rfl, rfl, rfl⟩

theorem symm (hs : g.Same h) : h.Same g :=
  ⟨hs.key.symm, Path.same_iff.mpr (Path.same_iff.mp hs.entrypoint).symm, hs.first.symm,
    hs.more.symm⟩

theorem trans {k : ImportGroup α} (hs : g.Same h) (hs' : h.Same k) : g.Same k :=
  ⟨hs.key.trans hs'.key,
    Path.same_iff.mpr ((Path.same_iff.mp hs.entrypoint).trans (Path.same_iff.mp hs'.entrypoint)),
    hs.first.trans hs'.first, hs.more.trans hs'.more⟩

theorem add (hs : g.Same h) (i : α) : (g.add i).Same (h.add i) :=
  ⟨hs.key, hs.entrypoint, hs.first, congrArg (· ++ [i]) hs.more⟩

theorem filter? (hs : g.Same h) (p : α → Bool) :
    Forall₂ ImportGroup.Same (g.filter? p).toList (h.filter? p).toList := by
  have himporters : g.importers = h.importers := by
    rw [ImportGroup.importers, ImportGroup.importers, hs.first, hs.more]
  rw [ImportGroup.filter?, ImportGroup.filter?, himporters]
  cases h.importers.filter p with
  | nil => exact .nil
  | cons first more => exact .cons ⟨hs.key, hs.entrypoint, rfl, rfl⟩ .nil

end ImportGroup.Same

theorem BundleContents.Same.refl (c : BundleContents) : c.Same c :=
  ⟨List.forall₂_same.mpr fun g _ => .refl g, List.forall₂_same.mpr fun g _ => .refl g,
    List.forall₂_same.mpr fun g _ => .refl g⟩

theorem BundleContents.Same.symm {c d : BundleContents} (h : c.Same d) : d.Same c :=
  ⟨h.staticImports.flip.imp fun _ _ h => h.symm, h.dynamicImports.flip.imp fun _ _ h => h.symm,
    h.templateImports.flip.imp fun _ _ h => h.symm⟩

theorem BundleContents.Same.trans {c d e : BundleContents} (h : c.Same d) (h' : d.Same e) :
    c.Same e where
  staticImports := forall₂_trans (fun _ _ _ h h' => h.trans h') h.staticImports h'.staticImports
  dynamicImports := forall₂_trans (fun _ _ _ h h' => h.trans h') h.dynamicImports h'.dynamicImports
  templateImports :=
    forall₂_trans (fun _ _ _ h h' => h.trans h') h.templateImports h'.templateImports

theorem BundleContents.Same.sorted {c d : BundleContents} (h : c.Same d) :
    c.sorted.Same d.sorted where
  staticImports := forall₂_mergeSort (fun a a' b b' h h' => by rw [h.key, h'.key]) h.staticImports
  dynamicImports :=
    forall₂_mergeSort (fun a a' b b' h h' => by rw [h.key, h'.key]) h.dynamicImports
  templateImports := forall₂_mergeSort (fun a a' b b' h h' => by
    rw [templateBefore, templateBefore, h.first, h'.first, h.key, h'.key]) h.templateImports

namespace BundlePlan.Same

variable {plan plan' : BundlePlan}

theorem refl (plan : BundlePlan) : plan.Same plan :=
  List.forall₂_same.mpr fun _ _ => ⟨rfl, .refl _⟩

theorem symm (h : plan.Same plan') : plan'.Same plan :=
  (List.Forall₂.flip h).imp fun _ _ h => ⟨h.1.symm, h.2.symm⟩

theorem trans {plan'' : BundlePlan} (h : plan.Same plan') (h' : plan'.Same plan'') :
    plan.Same plan'' :=
  forall₂_trans (fun _ _ _ h h' => ⟨h.1.trans h'.1, h.2.trans h'.2⟩) h h'

theorem modify (h : plan.Same plan') (bundle : String) {f g : BundleContents → BundleContents}
    (hf : ∀ c d, c.Same d → (f c).Same (g d)) : (plan.modify bundle f).Same (plan'.modify bundle g) := by
  rw [BundlePlan.modify, BundlePlan.modify, BundlePlan.Same, List.forall₂_map_left_iff,
    List.forall₂_map_right_iff]
  refine h.imp fun a b hab => ?_
  obtain ⟨name, c⟩ := a
  obtain ⟨name', d⟩ := b
  obtain ⟨rfl, hcd⟩ := hab
  simp only
  split
  · exact ⟨rfl, hf c d hcd⟩
  · exact ⟨rfl, hcd⟩

theorem sorted (h : plan.Same plan') : plan.sorted.Same plan'.sorted := by
  rw [BundlePlan.sorted, BundlePlan.sorted, BundlePlan.Same, List.forall₂_map_left_iff,
    List.forall₂_map_right_iff]
  exact h.imp fun a b hab => ⟨hab.1, hab.2.sorted⟩

end BundlePlan.Same

/-! ## Bundles -/

namespace Split

variable {α : Type} (policy : BundlePolicy)

theorem matches_assign (kind : Kind α) {put : ImportGroup α → BundleContents → BundleContents}
    (hput : ∀ g h c d, g.Same h → c.Same d → (put g c).Same (put h d)) {plan plan' : BundlePlan}
    {g h : ImportGroup α} (hp : plan.Same plan') (hg : g.Same h) :
    Matches Eq BundlePlan.Same (assign policy kind put plan g) (assign policy kind put plan' h) := by
  rw [assign, assign, hg.first, hg.more]
  refine (Matches.refl Eq.refl Eq.refl _).bind ?_
  rintro bundle _ rfl
  exact .ok (hp.modify bundle fun c d hcd => hput g h c d hg hcd)

theorem matches_assignEach (kind : Kind α)
    {put : ImportGroup α → BundleContents → BundleContents}
    (hput : ∀ g h c d, g.Same h → c.Same d → (put g c).Same (put h d)) {plan plan' : BundlePlan}
    {gs hs : List (ImportGroup α)} (hp : plan.Same plan') (hg : Forall₂ ImportGroup.Same gs hs) :
    Matches Eq BundlePlan.Same (gs.foldlM (assign policy kind put) plan)
      (hs.foldlM (assign policy kind put) plan') :=
  matches_foldlM (R := ImportGroup.Same) (S := BundlePlan.Same)
    (fun _ _ _ _ hp hg => matches_assign policy kind hput hp hg) hg hp

theorem same_putStatic (g h : ImportGroup LiteralImport) (c d : BundleContents) (hg : g.Same h)
    (hc : c.Same d) : (putStatic g c).Same (putStatic h d) :=
  ⟨List.rel_append hc.staticImports (.cons hg .nil), hc.dynamicImports, hc.templateImports⟩

theorem same_putDynamic (g h : ImportGroup LiteralImport) (c d : BundleContents) (hg : g.Same h)
    (hc : c.Same d) : (putDynamic g c).Same (putDynamic h d) :=
  ⟨hc.staticImports, List.rel_append hc.dynamicImports (.cons hg .nil), hc.templateImports⟩

theorem same_putTemplate (g h : ImportGroup TemplateImport) (c d : BundleContents)
    (hg : g.Same h) (hc : c.Same d) : (putTemplate g c).Same (putTemplate h d) :=
  ⟨hc.staticImports, hc.dynamicImports, List.rel_append hc.templateImports (.cons hg .nil)⟩

theorem matches_assignLiterals {plan plan' : BundlePlan} {g h : ImportGroup LiteralImport}
    (hp : plan.Same plan') (hg : g.Same h) :
    Matches Eq BundlePlan.Same (assignLiterals policy plan g) (assignLiterals policy plan' h) := by
  rw [assignLiterals, assignLiterals]
  refine (matches_assignEach policy literals same_putStatic hp (hg.filter? _)).bind ?_
  exact fun _ _ hp => matches_assignEach policy literals same_putDynamic hp (hg.filter? _)

/-- Groups that are the same make plans that are the same, or cannot be put into bundles for the same
reason. -/
theorem matches_assignAll {ls ls' : List (ImportGroup LiteralImport)}
    {ts ts' : List (ImportGroup TemplateImport)} (hl : Forall₂ ImportGroup.Same ls ls')
    (ht : Forall₂ ImportGroup.Same ts ts') :
    Matches Eq BundlePlan.Same (assignAll policy ls ts) (assignAll policy ls' ts') := by
  have hliterals := matches_foldlM (R := ImportGroup.Same) (S := BundlePlan.Same)
    (fun _ _ _ _ hp hg => matches_assignLiterals policy hp hg) hl (.refl (.declare policy.names))
  rw [assignAll, assignAll]
  refine hliterals.bind fun _ _ hp => ?_
  refine (matches_assignEach policy templates same_putTemplate hp ht).bind ?_
  exact fun _ _ hp => .ok hp.sorted

end Split

end VendorBundle
