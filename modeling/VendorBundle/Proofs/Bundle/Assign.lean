import Mathlib.Order.Bounds.Basic
import VendorBundle.Proofs.Bundle.Gather
import VendorBundle.Proofs.Order

/-!
# Putting groups into bundles

A group goes into the first declared bundle that any of its files belongs to. When all groups could
be placed, each bundle holds exactly those that go there, in the order of their keys.
-/

namespace VendorBundle

open Effect

/-- The bundle is the first declared one among those that the files belong to, and these are all
declared. -/
structure BundlePolicy.Chooses (policy : BundlePolicy) (sites : List ImportSite)
    (bundle : String) : Prop where
  declared : ∀ site ∈ sites, policy.bundleFor site.file site.treeKind ∈ policy.names
  least : ∃ index, policy.names[index]? = some bundle ∧
    IsLeast {n | ∃ site ∈ sites,
      policy.names.idxOf? (policy.bundleFor site.file site.treeKind) = some n} index

namespace Split

variable {α : Type} {policy : BundlePolicy}

/-! ## Choosing a bundle -/

theorem bundleIndex_eq_ok_iff {site : ImportSite} {n : Nat} : bundleIndex policy site = .ok n ↔
    policy.names.idxOf? (policy.bundleFor site.file site.treeKind) = some n := by
  rw [bundleIndex]
  split
  · rename_i index h
    simp [h]
  · rename_i h
    simp [h]

/-- The results of going through a list are those of its members. -/
theorem mem_of_mapM_eq_ok {ε β γ : Type} {f : β → Except ε γ} {bs : List β} {cs : List γ}
    (h : bs.mapM f = .ok cs) :
    (∀ c, c ∈ cs ↔ ∃ b ∈ bs, f b = .ok c) ∧ ∀ b ∈ bs, ∃ c, f b = .ok c := by
  induction bs generalizing cs with
  | nil =>
      rw [List.mapM_nil] at h
      obtain rfl := Except.ok.inj h
      simp
  | cons b bs ih =>
      rw [List.mapM_cons] at h
      obtain ⟨c, hc, h⟩ := bind_eq_ok_iff.mp h
      obtain ⟨rest, hrest, h⟩ := bind_eq_ok_iff.mp h
      obtain rfl := Except.ok.inj h
      obtain ⟨hmem, hall⟩ := ih hrest
      exact ⟨fun d => by simp [hmem, hc, eq_comm], List.forall_mem_cons.mpr ⟨⟨c, hc⟩, hall⟩⟩

theorem chooses_of_chooseBundle {first : ImportSite} {more : List ImportSite} {bundle : String}
    (h : chooseBundle policy first more = .ok bundle) : policy.Chooses (first :: more) bundle := by
  rw [chooseBundle] at h
  obtain ⟨index, hfirst, h⟩ := bind_eq_ok_iff.mp h
  obtain ⟨others, hmore, h⟩ := bind_eq_ok_iff.mp h
  have hbundle : policy.names.getD (others.foldl min index) "" = bundle := Except.ok.inj h
  obtain ⟨hothers, hdeclared⟩ := mem_of_mapM_eq_ok hmore
  have hindexes : ∀ n, n ∈ index :: others ↔ ∃ site ∈ first :: more,
      policy.names.idxOf? (policy.bundleFor site.file site.treeKind) = some n := by
    intro n
    simp only [← bundleIndex_eq_ok_iff]
    simp [hothers, hfirst, eq_comm]
  have hleast : others.foldl min index ∈ index :: others ∧
      ∀ n ∈ index :: others, others.foldl min index ≤ n := by
    have hmin : (index :: others).min? = some (others.foldl min index) := List.min?_cons'
    exact List.min?_eq_some_iff.mp hmin
  refine ⟨fun site hs => ?_, others.foldl min index, ?_, ?_, fun n hn => ?_⟩
  · have hindex : ∃ n, bundleIndex policy site = .ok n := by
      rcases List.mem_cons.mp hs with rfl | hs
      · exact ⟨index, hfirst⟩
      · exact hdeclared site hs
    obtain ⟨n, hn⟩ := hindex
    rw [← List.isSome_idxOf?, bundleIndex_eq_ok_iff.mp hn]
    rfl
  · obtain ⟨site, -, hsite⟩ := (hindexes _).mp hleast.1
    obtain ⟨hlt, -⟩ := List.idxOf?_eq_some_iff.mp hsite
    rw [← hbundle, List.getD_eq_getElem?_getD, List.getElem?_eq_getElem hlt]
    rfl
  · exact (hindexes _).mp hleast.1
  · exact hleast.2 n ((hindexes n).mpr hn)

/-- The bundle that a group goes to. -/
def goesTo? (policy : BundlePolicy) (kind : Kind α) (g : ImportGroup α) : Option String :=
  (chooseBundle policy (kind.site g.first) (g.more.map kind.site)).toOption

theorem chooses_of_goesTo? {kind : Kind α} {g : ImportGroup α} {bundle : String}
    (h : goesTo? policy kind g = some bundle) :
    policy.Chooses (g.importers.map kind.site) bundle := by
  rw [goesTo?] at h
  cases hc : chooseBundle policy (kind.site g.first) (g.more.map kind.site) with
  | error e => simp [hc, Except.toOption] at h
  | ok b =>
      rw [hc] at h
      obtain rfl := Option.some.inj h
      exact chooses_of_chooseBundle hc

/-! ## Filling the bundles -/

/-- The plan in which every group is in the bundle that it goes to. -/
def filled (policy : BundlePolicy) (ss ds : List (ImportGroup LiteralImport))
    (ts : List (ImportGroup TemplateImport)) : BundlePlan :=
  ⟨policy.names.eraseDups.map fun name => (name, {
    staticImports := ss.filter (goesTo? policy literals · = some name)
    dynamicImports := ds.filter (goesTo? policy literals · = some name)
    templateImports := ts.filter (goesTo? policy templates · = some name) })⟩

variable {ss ds : List (ImportGroup LiteralImport)} {ts : List (ImportGroup TemplateImport)}

/-- The contents of one bundle change. -/
theorem modify_map {names : List String} {contents contents' : String → BundleContents}
    {bundle : String} {put : BundleContents → BundleContents}
    (hput : put (contents bundle) = contents' bundle)
    (hother : ∀ name, name ≠ bundle → contents name = contents' name) :
    (⟨names.map fun name => (name, contents name)⟩ : BundlePlan).modify bundle put =
      ⟨names.map fun name => (name, contents' name)⟩ := by
  simp only [BundlePlan.modify, List.map_map]
  congr 1
  refine List.map_congr_left fun name _ => ?_
  by_cases hn : name = bundle
  · simp [hn, hput]
  · simp [hn, hother name hn]

theorem modify_filled_static {g : ImportGroup LiteralImport} {bundle : String}
    (h : goesTo? policy literals g = some bundle) :
    (filled policy ss ds ts).modify bundle (putStatic g) = filled policy (ss ++ [g]) ds ts := by
  refine modify_map ?_ fun name hn => ?_
  · simp [h, putStatic, List.filter_append]
  · simp [h, Ne.symm hn, List.filter_append]

theorem modify_filled_dynamic {g : ImportGroup LiteralImport} {bundle : String}
    (h : goesTo? policy literals g = some bundle) :
    (filled policy ss ds ts).modify bundle (putDynamic g) = filled policy ss (ds ++ [g]) ts := by
  refine modify_map ?_ fun name hn => ?_
  · simp [h, putDynamic, List.filter_append]
  · simp [h, Ne.symm hn, List.filter_append]

theorem modify_filled_template {g : ImportGroup TemplateImport} {bundle : String}
    (h : goesTo? policy templates g = some bundle) :
    (filled policy ss ds ts).modify bundle (putTemplate g) = filled policy ss ds (ts ++ [g]) := by
  refine modify_map ?_ fun name hn => ?_
  · simp [h, putTemplate, List.filter_append]
  · simp [h, Ne.symm hn, List.filter_append]

/-- Every group goes to some bundle. -/
def Placed (policy : BundlePolicy) (kind : Kind α) (gs : List (ImportGroup α)) : Prop :=
  ∀ g ∈ gs, ∃ bundle, goesTo? policy kind g = some bundle

/-- Groups that are put one after the other fill the plan. -/
theorem filled_of_foldlM {kind : Kind α} {put : ImportGroup α → BundleContents → BundleContents}
    {F : List (ImportGroup α) → BundlePlan}
    (hF : ∀ gs g bundle, goesTo? policy kind g = some bundle →
      (F gs).modify bundle (put g) = F (gs ++ [g])) {gs todo : List (ImportGroup α)}
    {plan : BundlePlan} (h : todo.foldlM (assign policy kind put) (F gs) = .ok plan) :
    plan = F (gs ++ todo) ∧ Placed policy kind todo := by
  induction todo generalizing gs with
  | nil =>
      rw [List.foldlM_nil] at h
      obtain rfl := Except.ok.inj h
      exact ⟨by rw [List.append_nil], nofun⟩
  | cons g todo ih =>
      rw [List.foldlM_cons] at h
      obtain ⟨next, hnext, h⟩ := bind_eq_ok_iff.mp h
      rw [assign] at hnext
      obtain ⟨bundle, hbundle, hnext⟩ := bind_eq_ok_iff.mp hnext
      have hgoes : goesTo? policy kind g = some bundle := by
        rw [goesTo?, hbundle]
        rfl
      obtain rfl := Except.ok.inj hnext
      rw [hF gs g bundle hgoes] at h
      obtain ⟨hplan, hplaced⟩ := ih h
      exact ⟨by rw [hplan, List.append_assoc]; rfl, List.forall_mem_cons.mpr ⟨⟨bundle, hgoes⟩, hplaced⟩⟩

theorem filled_nil : filled policy [] [] [] = .declare policy.names := rfl

/-- The static and the dynamic uses of the specifiers fill the plan. -/
theorem filled_of_assignLiterals {ls : List (ImportGroup LiteralImport)} {plan : BundlePlan}
    (h : ls.foldlM (assignLiterals policy) (filled policy ss ds []) = .ok plan) :
    plan = filled policy (ss ++ ImportGroup.parts (!·.isDynamic) ls)
        (ds ++ ImportGroup.parts (·.isDynamic) ls) [] ∧
      Placed policy literals (ImportGroup.parts (!·.isDynamic) ls) ∧
      Placed policy literals (ImportGroup.parts (·.isDynamic) ls) := by
  induction ls generalizing ss ds with
  | nil =>
      rw [List.foldlM_nil] at h
      obtain rfl := Except.ok.inj h
      exact ⟨by simp [ImportGroup.parts], nofun, nofun⟩
  | cons g ls ih =>
      rw [List.foldlM_cons] at h
      obtain ⟨next, hnext, h⟩ := bind_eq_ok_iff.mp h
      rw [assignLiterals] at hnext
      obtain ⟨between, hstatic, hdynamic⟩ := bind_eq_ok_iff.mp hnext
      obtain ⟨rfl, hs⟩ := filled_of_foldlM (F := fun gs => filled policy gs ds [])
        (fun _ _ _ => modify_filled_static) hstatic
      obtain ⟨rfl, hd⟩ := filled_of_foldlM (F := fun gs => filled policy _ gs [])
        (fun _ _ _ => modify_filled_dynamic) hdynamic
      obtain ⟨rfl, hss, hds⟩ := ih h
      refine ⟨?_, List.forall_mem_append.mpr ⟨hs, hss⟩, List.forall_mem_append.mpr ⟨hd, hds⟩⟩
      simp [ImportGroup.parts, List.append_assoc]

/-- All groups are put into the bundles that they go to, and these are sorted. -/
theorem filled_of_assignAll {ls : List (ImportGroup LiteralImport)} {plan : BundlePlan}
    (h : assignAll policy ls ts = .ok plan) :
    plan = (filled policy (ImportGroup.parts (!·.isDynamic) ls)
        (ImportGroup.parts (·.isDynamic) ls) ts).sorted ∧
      Placed policy literals (ImportGroup.parts (!·.isDynamic) ls) ∧
      Placed policy literals (ImportGroup.parts (·.isDynamic) ls) ∧
      Placed policy templates ts := by
  rw [assignAll, ← filled_nil] at h
  obtain ⟨next, hliterals, h⟩ := bind_eq_ok_iff.mp h
  obtain ⟨last, htemplates, h⟩ := bind_eq_ok_iff.mp h
  obtain ⟨rfl, hs, hd⟩ := filled_of_assignLiterals hliterals
  obtain ⟨rfl, ht⟩ := filled_of_foldlM (F := fun gs => filled policy _ _ gs)
    (fun _ _ _ => modify_filled_template) htemplates
  obtain rfl := Except.ok.inj h
  exact ⟨rfl, hs, hd, ht⟩

/-! ## What the bundles hold -/

theorem nodup_eraseDups {β : Type} [BEq β] [LawfulBEq β] : ∀ l : List β, l.eraseDups.Nodup
  | [] => by simp
  | b :: l => by
      rw [List.eraseDups_cons, List.nodup_cons]
      exact ⟨by simp, nodup_eraseDups _⟩
termination_by l => l.length
decreasing_by exact Nat.lt_succ_of_le (List.length_filter_le _ _)

/-- Sorting elements by where they go loses none and doubles none. -/
theorem perm_flatMap_filter {β κ : Type} [DecidableEq κ] {f : β → Option κ} {names : List κ}
    (hn : names.Nodup) {l : List β} (h : ∀ b ∈ l, ∃ name ∈ names, f b = some name) :
    (names.flatMap fun name => l.filter (f · = some name)).Perm l := by
  induction names generalizing l with
  | nil =>
      cases l with
      | nil => exact .nil
      | cons b l => exact absurd (h b List.mem_cons_self) (by simp)
  | cons name names ih =>
      obtain ⟨hname, hnames⟩ := List.nodup_cons.mp hn
      have hrest : ∀ b ∈ l.filter (fun b => !decide (f b = some name)),
          ∃ name ∈ names, f b = some name := by
        intro b hb
        obtain ⟨hb, hne⟩ := List.mem_filter.mp hb
        obtain ⟨n, hn, hf⟩ := h b hb
        refine ⟨n, (List.mem_cons.mp hn).resolve_left ?_, hf⟩
        rintro rfl
        simp [hf] at hne
      have hothers : names.flatMap (fun n => l.filter (f · = some n)) =
          names.flatMap fun n =>
            (l.filter fun b => !decide (f b = some name)).filter (f · = some n) := by
        refine List.flatMap_congr fun n hn => ?_
        rw [List.filter_filter]
        refine List.filter_congr fun b _ => ?_
        by_cases hb : f b = some n
        · have hne : n ≠ name := fun he => hname (he ▸ hn)
          simp [hb, hne]
        · simp [hb]
      rw [List.flatMap_cons, hothers]
      exact ((ih hnames hrest).append_left _).trans (List.filter_append_perm _ _)

/-- The bundles together hold all groups that were put into them. -/
theorem perm_flatMap_sorted {kind : Kind α} {gs : List (ImportGroup α)}
    (hp : Placed policy kind gs) (le : ImportGroup α → ImportGroup α → Bool) :
    (policy.names.eraseDups.flatMap fun name =>
      (gs.filter (goesTo? policy kind · = some name)).mergeSort le).Perm gs := by
  refine (List.Perm.flatMap_left _ fun name _ => List.mergeSort_perm _ _).trans
    (perm_flatMap_filter (nodup_eraseDups _) fun g hg => ?_)
  obtain ⟨bundle, hb⟩ := hp g hg
  obtain ⟨index, hindex, -⟩ := (chooses_of_goesTo? hb).least
  exact ⟨bundle, List.mem_eraseDups.mpr (List.mem_of_getElem? hindex), hb⟩

end Split

end VendorBundle
