import VendorBundle.Proofs.Bundle.Faithful

/-!
# Conflicts of versions

The first import of a key decides on the entry file of its group, and every later one is compared
with that. Since equal versions are transitive, this finds out whether any two imports of a key lead
to different versions, and the error tells of the first one that does not go with the first of its
key.
-/

namespace VendorBundle

open Effect
open Resolver (Consulted Recalls VersionsByPlace searchVersion)

namespace Split

variable {α σ : Type} [Files σ] {files : σ} {options : ResolveOptions} {policy : BundlePolicy}

/-! ## What is to be found -/

/-- The imports that lead to an installed package with their entry files, in the order of
discovery. -/
def sighted (as : List (Resolved α)) : List (α × Path) :=
  as.filterMap fun a => match a.target with
    | .ok (.external entrypoint) => some (a.i, entrypoint)
    | _ => none

/-- Two entry files are one, or belong to the same version. -/
def SameVersion (files : σ) (p q : Path) : Prop :=
  p.components = q.components ∨
    ∃ version, searchVersion files p = .ok version ∧ searchVersion files q = .ok version

/-- Two imports of one key lead to different versions. -/
def Conflicted (files : σ) (kind : Kind α) (xs : List (α × Path)) : Prop :=
  ∃ x ∈ xs, ∃ y ∈ xs, kind.key x.1 = kind.key y.1 ∧
    ∃ v w, searchVersion files x.2 = .ok v ∧ searchVersion files y.2 = .ok w ∧ v ≠ w

/-- Every import has a group of its key. The entry file of a group is the one of the first import of
the key, and all imports of the key lead there or to the same version. -/
structure Settles (files : σ) (kind : Kind α) (xs : List (α × Path)) (gs : List (ImportGroup α)) :
    Prop where
  covers : ∀ x ∈ xs, ∃ g ∈ gs, g.key = kind.key x.1
  first : ∀ g ∈ gs, ∃ i, xs.find? (kind.key ·.1 = g.key) = some (i, g.entrypoint)
  agree : ∀ g ∈ gs, ∀ x ∈ xs, kind.key x.1 = g.key → SameVersion files g.entrypoint x.2

/-- The error tells of the first import that leads to another version than the first import of its
key, with the files of both, where they lead and the versions there. -/
inductive Clash (files : σ) (kind : Kind α) (xs : List (α × Path)) : SplitError → Prop where
  | differ {front back x y v w} (hxs : xs = front ++ y :: back)
      (hx : front.find? (kind.key ·.1 = kind.key y.1) = some x)
      (hv : searchVersion files x.2 = .ok v) (hw : searchVersion files y.2 = .ok w) (hne : v ≠ w)
      (hfront : ¬ Conflicted files kind front) :
      Clash files kind xs (.versionConflict (kind.key y.1) ⟨(kind.site x.1).file, x.2, v⟩
        ⟨(kind.site y.1).file, y.2, w⟩)

/-- Nothing but different versions is wrong with some imports: each of them is resolved and may
stand where it does, the versions that have to be compared can be found, and all bundles are
declared. -/
structure Faultless (files : σ) (policy : BundlePolicy) (kind : Kind α) (as : List (Resolved α)) :
    Prop where
  taken : ∀ a ∈ as, ∃ target entry?, a.target = .ok target ∧ kind.entry? a.i target = .ok entry?
  versions : ∀ x ∈ sighted as, ∀ y ∈ sighted as, kind.key x.1 = kind.key y.1 →
    x.2.components ≠ y.2.components → ∃ v, searchVersion files x.2 = .ok v
  declared : ∀ x ∈ sighted as,
    policy.bundleFor (kind.site x.1).file (kind.site x.1).treeKind ∈ policy.names

theorem sighted_append (as bs : List (Resolved α)) :
    sighted (as ++ bs) = sighted as ++ sighted bs := List.filterMap_append

/-- The imports alone. -/
theorem map_fst_sighted (as : List (Resolved α)) : (sighted as).map (·.1) = externals as := by
  induction as with
  | nil => rfl
  | cons a as ih =>
      obtain ⟨i, target⟩ := a
      rw [sighted, externals] at *
      cases target with
      | error e => simpa [Resolved.isExternal] using ih
      | ok target => cases target <;> simpa [Resolved.isExternal] using ih

theorem Faultless.of_append {kind : Kind α} {as bs : List (Resolved α)}
    (h : Faultless files policy kind (as ++ bs)) : Faultless files policy kind as := by
  have hsub : ∀ {x}, x ∈ sighted as → x ∈ sighted (as ++ bs) := fun hx => by
    rw [sighted_append]
    exact List.mem_append_left _ hx
  exact ⟨fun a ha => h.taken a (List.mem_append_left _ ha),
    fun x hx y hy => h.versions x (hsub hx) y (hsub hy), fun x hx => h.declared x (hsub hx)⟩

theorem Clash.append {kind : Kind α} {xs : List (α × Path)} {e : SplitError}
    (h : Clash files kind xs e) (ys : List (α × Path)) : Clash files kind (xs ++ ys) e := by
  obtain ⟨hxs, hx, hv, hw, hne, hfront⟩ := h
  exact .differ (by rw [hxs, List.append_assoc, List.cons_append]) hx hv hw hne hfront

theorem Clash.conflicted {kind : Kind α} {xs : List (α × Path)} {e : SplitError}
    (h : Clash files kind xs e) : Conflicted files kind xs := by
  obtain ⟨hxs, hx, hv, hw, hne, -⟩ := h
  rename_i front back x y v w
  have hkey : kind.key x.1 = kind.key y.1 := by simpa using List.find?_some hx
  subst hxs
  exact ⟨x, List.mem_append_left _ (List.mem_of_find?_eq_some hx), y, by simp, hkey, v, w, hv, hw,
    hne⟩

/-- Imports that go with the first of their key go with each other. -/
theorem Settles.not_conflicted (hv : VersionsByPlace files) {kind : Kind α} {xs : List (α × Path)}
    {gs : List (ImportGroup α)} (h : Settles files kind xs gs) : ¬ Conflicted files kind xs := by
  rintro ⟨x, hx, y, hy, hkey, v, w, hxv, hyw, hne⟩
  obtain ⟨g, hg, hgk⟩ := h.covers x hx
  have hversion : ∀ {z : α × Path} {u : String}, SameVersion files g.entrypoint z.2 →
      searchVersion files z.2 = .ok u → searchVersion files g.entrypoint = .ok u := by
    rintro z u (hc | ⟨u', hg', hz⟩) hu
    · obtain ⟨u', hu', rfl⟩ := (hv _ _ hc.symm).of_ok hu
      exact hu'
    · rw [hg', ← hz, hu]
  have hgv := hversion (h.agree g hg x hx hgk.symm) hxv
  have hgw := hversion (h.agree g hg y hy (hkey.symm.trans hgk.symm)) hyw
  exact hne (Except.ok.inj (hgv.symm.trans hgw))

/-! ## Comparing -/

/-- What comparing the entry files of two imports comes to. -/
inductive Compares (files : σ) (specifier : String) (a b : String × Path) :
    Except SplitError Unit → Prop where
  | equal {v} (ha : searchVersion files a.2 = .ok v) (hb : searchVersion files b.2 = .ok v) :
      Compares files specifier a b (.ok ())
  | differ {v w} (ha : searchVersion files a.2 = .ok v) (hb : searchVersion files b.2 = .ok w)
      (hne : v ≠ w) :
      Compares files specifier a b
        (.error (.versionConflict specifier ⟨a.1, a.2, v⟩ ⟨b.1, b.2, w⟩))
  | unknown {e} (h : ¬ ((∃ v, searchVersion files a.2 = .ok v) ∧
      ∃ w, searchVersion files b.2 = .ok w)) : Compares files specifier a b (.error e)

theorem versionOf_eq_ok_iff (hv : VersionsByPlace files) {r : Resolver}
    (hr : Recalls files options r) {path : Path} {version : String} :
    (outcome (versionOf files path) r).1 = .ok version ↔
      searchVersion files path = .ok version := by
  rw [outcome_versionOf, ← hr.versionOf_eq_ok_iff hv]
  cases (r.versionOf files path).1 with
  | ok v => simp [Except.mapError]
  | error e => simp [Except.mapError]

theorem compares_checkVersions (hv : VersionsByPlace files) {r : Resolver}
    (hr : Recalls files options r) (specifier : String) (a b : String × Path) :
    Compares files specifier a b (outcome (checkVersions files specifier a b) r).1 := by
  have hfirst : ∀ v, (outcome (versionOf files a.2) r).1 = .ok v ↔
      searchVersion files a.2 = .ok v := fun v => versionOf_eq_ok_iff hv hr
  have hremains : Recalls files options (outcome (versionOf files a.2) r).2 :=
    remains_versionOf a.2 r hr
  rw [checkVersions, outcome_bind]
  generalize outcome (versionOf files a.2) r = found at hfirst hremains
  obtain ⟨result, r₁⟩ := found
  cases result with
  | error e => exact .unknown fun ⟨⟨v, ha⟩, _⟩ => absurd ((hfirst v).mpr ha) nofun
  | ok v =>
      have ha := (hfirst v).mp rfl
      have hsecond : ∀ w, (outcome (versionOf files b.2) r₁).1 = .ok w ↔
          searchVersion files b.2 = .ok w := fun w => versionOf_eq_ok_iff hv hremains
      simp only [outcome_bind]
      generalize outcome (versionOf files b.2) r₁ = found at hsecond
      obtain ⟨result, r₂⟩ := found
      cases result with
      | error e => exact .unknown fun ⟨_, w, hb⟩ => absurd ((hsecond w).mpr hb) nofun
      | ok w =>
          have hb := (hsecond w).mp rfl
          by_cases he : v = w
          · subst he
            simp only [if_true]
            exact .equal ha hb
          · simp only [if_neg he]
            exact .differ ha hb he

/-! ## Gathering -/

/-- What holds of the groups while imports are gathered: they are settled, and the first import of
each is the first one of its key. -/
structure Anchored (files : σ) (kind : Kind α) (xs : List (α × Path)) (gs : List (ImportGroup α)) :
    Prop where
  covers : ∀ x ∈ xs, ∃ g ∈ gs, g.key = kind.key x.1
  first : ∀ g ∈ gs, xs.find? (kind.key ·.1 = g.key) = some (g.first, g.entrypoint)
  agree : ∀ g ∈ gs, ∀ x ∈ xs, kind.key x.1 = g.key → SameVersion files g.entrypoint x.2

namespace Anchored

variable {kind : Kind α} {xs : List (α × Path)} {gs : List (ImportGroup α)} {i : α} {p : Path}

theorem nil (files : σ) (kind : Kind α) : Anchored files kind [] [] := ⟨nofun, nofun, nofun⟩

theorem settles (h : Anchored files kind xs gs) : Settles files kind xs gs :=
  ⟨h.covers, fun g hg => ⟨g.first, h.first g hg⟩, h.agree⟩

/-- The first import of a key comes along with its entry file. -/
theorem mem (h : Anchored files kind xs gs) {g : ImportGroup α} (hg : g ∈ gs) :
    (g.first, g.entrypoint) ∈ xs ∧ kind.key g.first = g.key := by
  have hf := h.first g hg
  exact ⟨List.mem_of_find?_eq_some hf, by simpa using List.find?_some hf⟩

theorem opened (h : Anchored files kind xs gs) (hn : ∀ g ∈ gs, g.key ≠ kind.key i) :
    Anchored files kind (xs ++ [(i, p)])
      (gs ++ [{ key := kind.key i, entrypoint := p, first := i }]) := by
  have hnew : ∀ x ∈ xs, kind.key x.1 ≠ kind.key i := fun x hx he => by
    obtain ⟨g, hg, hk⟩ := h.covers x hx
    exact hn g hg (hk.trans he)
  refine ⟨fun x hx => ?_, fun g hg => ?_, fun g hg x hx hk => ?_⟩
  · rcases List.mem_append.mp hx with hx | hx
    · obtain ⟨g, hg, hk⟩ := h.covers x hx
      exact ⟨g, List.mem_append_left _ hg, hk⟩
    · obtain rfl := List.mem_singleton.mp hx
      exact ⟨_, List.mem_append_right _ (List.mem_singleton.mpr rfl), rfl⟩
  · rw [List.find?_append]
    rcases List.mem_append.mp hg with hg | hg
    · rw [h.first g hg, Option.some_or]
    · obtain rfl := List.mem_singleton.mp hg
      rw [List.find?_eq_none.mpr fun x hx => by simpa using hnew x hx, Option.none_or]
      simp
  · rcases List.mem_append.mp hg with hg | hg
    · rcases List.mem_append.mp hx with hx | hx
      · exact h.agree g hg x hx hk
      · obtain rfl := List.mem_singleton.mp hx
        exact absurd hk.symm (hn g hg)
    · obtain rfl := List.mem_singleton.mp hg
      rcases List.mem_append.mp hx with hx | hx
      · exact absurd hk (hnew x hx)
      · obtain rfl := List.mem_singleton.mp hx
        exact .inl rfl

theorem joined {front back : List (ImportGroup α)} {g : ImportGroup α}
    (h : Anchored files kind xs (front ++ g :: back)) (hk : g.key = kind.key i)
    (hp : SameVersion files g.entrypoint p) :
    Anchored files kind (xs ++ [(i, p)]) (front ++ g.add i :: back) := by
  -- Adding an import changes none of what is said of a group.
  have hadded : ∀ {motive : ImportGroup α → Prop}, (motive g → motive (g.add i)) →
      (∀ g' ∈ front ++ g :: back, motive g') → ∀ g' ∈ front ++ g.add i :: back, motive g' := by
    intro motive hg hall
    simp only [List.forall_mem_append, List.forall_mem_cons] at hall ⊢
    exact ⟨hall.1, hg hall.2.1, hall.2.2⟩
  have hfirst : ∀ g' ∈ front ++ g.add i :: back,
      (xs ++ [(i, p)]).find? (kind.key ·.1 = g'.key) = some (g'.first, g'.entrypoint) :=
    hadded id fun g' hg' => by rw [List.find?_append, h.first g' hg', Option.some_or]
  refine ⟨fun x hx => ?_, hfirst, fun g' hg' x hx hkey => ?_⟩
  · rcases List.mem_append.mp hx with hx | hx
    · obtain ⟨g', hg', hk'⟩ := h.covers x hx
      rcases List.mem_append.mp hg' with hg' | hg'
      · exact ⟨g', List.mem_append_left _ hg', hk'⟩
      · rcases List.mem_cons.mp hg' with rfl | hg'
        · exact ⟨g'.add i, by simp, hk'⟩
        · exact ⟨g', by simp [hg'], hk'⟩
    · obtain rfl := List.mem_singleton.mp hx
      exact ⟨g.add i, by simp, hk⟩
  · rcases List.mem_append.mp hx with hx | hx
    · exact hadded (motive := fun g' => ∀ x ∈ xs, kind.key x.1 = g'.key →
        SameVersion files g'.entrypoint x.2) id h.agree g' hg' x hx hkey
    · obtain rfl := List.mem_singleton.mp hx
      -- Groups of one key have the entry file of the first import of it.
      have hsame := hfirst g' hg'
      rw [← hkey, ← hk, List.find?_append, h.first g (by simp), Option.some_or] at hsame
      rw [← (Prod.mk.inj (Option.some.inj hsame)).2]
      exact hp

end Anchored

/-- How gathering imports ends: with groups that are settled, with the first clash, or because
something else is wrong. -/
inductive Ends (files : σ) (policy : BundlePolicy) (kind : Kind α) (as : List (Resolved α)) :
    Except SplitError (List (ImportGroup α)) → Prop where
  | settled {gs} (h : Anchored files kind (sighted as) gs) : Ends files policy kind as (.ok gs)
  | clash {e} (h : Clash files kind (sighted as) e) : Ends files policy kind as (.error e)
  | fault {e} (h : ¬ Faultless files policy kind as) : Ends files policy kind as (.error e)

section

variable (policy) {kind : Kind α} (hv : VersionsByPlace files) {as : List (Resolved α)}
  {gs : List (ImportGroup α)} (h : Anchored files kind (sighted as) gs) {r : Resolver}
  (hr : Recalls files options r)

include hv h hr

theorem ends_gather {a : Resolved α} {p : Path} (ha : a.target = .ok (.external p)) :
    Ends files policy kind (as ++ [a]) (outcome (gather files kind a.i p gs) r).1 := by
  have hsighted : sighted (as ++ [a]) = sighted as ++ [(a.i, p)] := by
    rw [sighted_append]
    simp [sighted, ha]
  have hsettled : ∀ {gs' : List (ImportGroup α)},
      Anchored files kind (sighted as ++ [(a.i, p)]) gs' →
      Ends files policy kind (as ++ [a]) (.ok gs') := fun hs => .settled (by rwa [hsighted])
  rcases group_cases kind a.i gs with ⟨front, g, back, rfl, hfront, hk⟩ | hnone
  · rw [gather_of_mem hfront hk, outcome_bind, compareEntry]
    obtain ⟨hmem, hgk⟩ := h.mem (g := g) (by simp)
    by_cases hsame : g.entrypoint.same p = true
    · rw [if_pos hsame]
      exact hsettled (h.joined hk (.inl (Path.same_iff.mp hsame)))
    · rw [if_neg hsame]
      have hcompares := compares_checkVersions hv hr g.key
        ((kind.site g.first).file, g.entrypoint) ((kind.site a.i).file, p)
      generalize outcome (checkVersions files g.key ((kind.site g.first).file, g.entrypoint)
        ((kind.site a.i).file, p)) r = found at hcompares
      obtain ⟨result, r'⟩ := found
      cases hcompares with
      | equal hg hp => exact hsettled (h.joined hk (.inr ⟨_, hg, hp⟩))
      | differ hg hp hne =>
          have hfind := h.first g (by simp)
          rw [hk] at hfind ⊢
          exact .clash (.differ (y := (a.i, p)) hsighted hfind hg hp hne
            (h.settles.not_conflicted hv))
      | unknown hunknown =>
          refine .fault fun hf => hunknown ?_
          have hold : (g.first, g.entrypoint) ∈ sighted (as ++ [a]) := by
            rw [hsighted]
            exact List.mem_append_left _ hmem
          have hnew : (a.i, p) ∈ sighted (as ++ [a]) := by simp [hsighted]
          have hne : g.entrypoint.components ≠ p.components := fun he =>
            hsame (Path.same_iff.mpr he)
          have hkey := hgk.trans hk
          exact ⟨hf.versions (g.first, _) hold (a.i, p) hnew hkey hne,
            hf.versions (a.i, p) hnew (g.first, _) hold hkey.symm hne.symm⟩
  · rw [gather_of_not_mem hnone]
    exact hsettled (h.opened hnone)

/-- Taking one more import up. -/
theorem ends_take (hk : kind.TakesExternal) (a : Resolved α) :
    Ends files policy kind (as ++ [a]) (outcome (take files kind gs a) r).1 := by
  have hfault : ∀ {e : SplitError}, (∀ target entry?, a.target = .ok target →
      kind.entry? a.i target ≠ .ok entry?) → Ends files policy kind (as ++ [a]) (.error e) := by
    refine fun {e} hnone => .fault fun hf => ?_
    obtain ⟨target, entry?, ht, he⟩ := hf.taken a (by simp)
    exact hnone target entry? ht he
  cases ht : a.target with
  | error e =>
      simp only [take, ht, outcome_throw]
      refine hfault fun target entry? h' _ => ?_
      cases ht.symm.trans h'
  | ok target =>
      simp only [take, ht]
      cases he : kind.entry? a.i target with
      | error e =>
          refine hfault fun target' entry? h' he' => ?_
          obtain rfl := Except.ok.inj (ht.symm.trans h')
          cases he.symm.trans he'
      | ok entry? =>
          cases entry? with
          | none =>
              have hsighted : sighted (as ++ [a]) = sighted as := by
                rw [sighted_append]
                cases target with
                | external p => exact absurd ((hk a.i _ p).mpr rfl) (by simp [he])
                | _ => simp [sighted, ht]
              exact .settled (by rwa [hsighted])
          | some p =>
              obtain rfl := (hk a.i target p).mp he
              exact ends_gather policy hv h hr ht

/-- Taking up all imports, one after the other. -/
theorem ends_foldlM (hk : kind.TakesExternal) (bs : List (Resolved α)) :
    Ends files policy kind (as ++ bs) (outcome (bs.foldlM (take files kind) gs) r).1 := by
  induction bs generalizing as gs r with
  | nil =>
      rw [List.append_nil]
      exact .settled h
  | cons b bs ih =>
      have hends := ends_take policy hv h hr hk b
      have hremains : Recalls files options (outcome (take files kind gs b) r).2 :=
        remains_take kind gs b r hr
      have hsplit : as ++ b :: bs = as ++ [b] ++ bs := by rw [List.append_assoc]; rfl
      rw [List.foldlM_cons, outcome_bind, hsplit]
      generalize outcome (take files kind gs b) r = found at hends hremains
      obtain ⟨result, r'⟩ := found
      cases hends with
      | settled hnext => exact ih hnext hremains
      | clash hclash => exact .clash (sighted_append _ bs ▸ hclash.append _)
      | fault hf => exact .fault fun hall => hf hall.of_append

end

/-- The imports of a list are resolved and gathered. -/
theorem ends_group (policy : BundlePolicy) (hv : VersionsByPlace files) (kind : Kind α)
    (specifier : α → String) (template : Bool) (hk : kind.TakesExternal) (imports : List α)
    {r : Resolver} (hr : Recalls files options r) : ∃ as,
      Resolves files options kind specifier template imports as ∧
      Ends files policy kind as (outcome (group files kind specifier template imports) r).1 ∧
      ∀ gs, (outcome (group files kind specifier template imports) r).1 = .ok gs →
        Grouped kind.key (externals as) gs := by
  obtain ⟨hresolves, hr'⟩ := resolves_resolveAll kind specifier template imports hr
  refine ⟨_, hresolves, ?_, fun gs ho => ?_⟩
  · rw [outcome_group]
    have hstart : Anchored files kind (sighted []) [] := .nil files kind
    exact ends_foldlM policy hv hstart hr' hk _
  · rw [outcome_group] at ho
    exact (grouped_of_foldlM hk (.nil kind.key) (Prod.ext ho rfl)).1

end Split

/-! ## In the bundles -/

/-- The groups that all bundles have of one sort. -/
def BundlePlan.groups {α : Type} (plan : BundlePlan)
    (pick : BundleContents → List (ImportGroup α)) : List (ImportGroup α) :=
  (plan.parts pick).flatMap (·.2)

namespace ImportGroup

variable {α : Type} {p : α → Bool} {gs : List (ImportGroup α)}

/-- A part has the key and the entry file of its group. -/
theorem exists_of_mem_parts {g' : ImportGroup α} (h : g' ∈ parts p gs) :
    ∃ g ∈ gs, g'.key = g.key ∧ g'.entrypoint = g.entrypoint := by
  obtain ⟨g, hg, hpart⟩ := List.mem_flatMap.mp h
  obtain ⟨hkey, hentrypoint, -⟩ := of_mem_filter? hpart
  exact ⟨g, hg, hkey, hentrypoint⟩

/-- A group one of whose imports satisfies `p` has a part. -/
theorem exists_mem_parts {g : ImportGroup α} (hg : g ∈ gs) {i : α} (hi : i ∈ g.importers)
    (hp : p i = true) : ∃ g' ∈ parts p gs, g'.key = g.key := by
  have hmem : i ∈ g.importers.filter p := List.mem_filter.mpr ⟨hi, hp⟩
  rw [← flatMap_importers_filter?] at hmem
  obtain ⟨g', hg', -⟩ := List.mem_flatMap.mp hmem
  exact ⟨g', List.mem_flatMap.mpr ⟨g, hg, hg'⟩, (of_mem_filter? hg').1⟩

end ImportGroup

namespace Split

variable {α σ : Type} [Files σ] {files : σ} {options : ResolveOptions} {policy : BundlePolicy}

/-- Groups that have the keys and entry files of settled ones are settled. -/
theorem Settles.of_keys {kind : Kind α} {xs : List (α × Path)} {gs hs : List (ImportGroup α)}
    (h : Settles files kind xs gs)
    (hsub : ∀ g' ∈ hs, ∃ g ∈ gs, g'.key = g.key ∧ g'.entrypoint = g.entrypoint)
    (hall : ∀ g ∈ gs, ∃ g' ∈ hs, g'.key = g.key) : Settles files kind xs hs := by
  refine ⟨fun x hx => ?_, fun g' hg' => ?_, fun g' hg' x hx hk => ?_⟩
  · obtain ⟨g, hg, hkey⟩ := h.covers x hx
    obtain ⟨g', hg', hkey'⟩ := hall g hg
    exact ⟨g', hg', hkey'.trans hkey⟩
  · obtain ⟨g, hg, hkey, hentry⟩ := hsub g' hg'
    rw [hkey, hentry]
    exact h.first g hg
  · obtain ⟨g, hg, hkey, hentry⟩ := hsub g' hg'
    rw [hentry]
    exact h.agree g hg x hx (hk.trans hkey)

variable {ls : List (ImportGroup LiteralImport)} {ts : List (ImportGroup TemplateImport)}

/-- The bundles together have the parts of the groups. -/
theorem perm_groups_of_assignAll {plan : BundlePlan} (h : assignAll policy ls ts = .ok plan) :
    (plan.groups (·.staticImports)).Perm (ImportGroup.parts (!·.isDynamic) ls) ∧
      (plan.groups (·.dynamicImports)).Perm (ImportGroup.parts (·.isDynamic) ls) ∧
      (plan.groups (·.templateImports)).Perm ts := by
  obtain ⟨rfl, hstatics, hdynamics, htemplates⟩ := filled_of_assignAll h
  refine ⟨?_, ?_, ?_⟩
  all_goals
    rw [BundlePlan.groups, BundlePlan.parts, BundlePlan.sorted, filled, List.map_map, List.map_map,
      List.flatMap_map]
  · exact perm_flatMap_sorted hstatics _
  · exact perm_flatMap_sorted hdynamics _
  · exact perm_flatMap_sorted htemplates _

/-- What the bundles have of the literal specifiers are parts of their groups. -/
theorem exists_of_mem_literals {plan : BundlePlan} (h : assignAll policy ls ts = .ok plan)
    {g' : ImportGroup LiteralImport}
    (hg' : g' ∈ plan.groups (·.staticImports) ++ plan.groups (·.dynamicImports)) :
    ∃ g ∈ ls, g'.key = g.key ∧ g'.entrypoint = g.entrypoint := by
  obtain ⟨hstatics, hdynamics, -⟩ := perm_groups_of_assignAll h
  rcases List.mem_append.mp hg' with hg' | hg'
  · exact ImportGroup.exists_of_mem_parts (hstatics.mem_iff.mp hg')
  · exact ImportGroup.exists_of_mem_parts (hdynamics.mem_iff.mp hg')

/-- The bundles have a part of the group of every literal specifier. -/
theorem exists_mem_literals {plan : BundlePlan} (h : assignAll policy ls ts = .ok plan)
    {g : ImportGroup LiteralImport} (hg : g ∈ ls) :
    ∃ g' ∈ plan.groups (·.staticImports) ++ plan.groups (·.dynamicImports), g'.key = g.key := by
  obtain ⟨hstatics, hdynamics, -⟩ := perm_groups_of_assignAll h
  have hfirst : g.first ∈ g.importers := List.mem_cons_self
  cases hd : g.first.isDynamic with
  | false =>
      obtain ⟨g', hg', hk⟩ := ImportGroup.exists_mem_parts (p := (!·.isDynamic)) hg hfirst
        (by simp [hd])
      exact ⟨g', List.mem_append_left _ (hstatics.mem_iff.mpr hg'), hk⟩
  | true =>
      obtain ⟨g', hg', hk⟩ := ImportGroup.exists_mem_parts (p := (·.isDynamic)) hg hfirst hd
      exact ⟨g', List.mem_append_right _ (hdynamics.mem_iff.mpr hg'), hk⟩

/-- The static and dynamic uses in the bundles are settled when the specifiers are. -/
theorem Settles.literals_of_assignAll {xs : List (LiteralImport × Path)}
    (h : Settles files literals xs ls) {plan : BundlePlan}
    (ho : assignAll policy ls ts = .ok plan) : Settles files literals xs
      (plan.groups (·.staticImports) ++ plan.groups (·.dynamicImports)) :=
  h.of_keys (fun _ hg' => exists_of_mem_literals ho hg') fun _ hg => exists_mem_literals ho hg

theorem Settles.templates_of_assignAll {xs : List (TemplateImport × Path)}
    (h : Settles files templates xs ts) {plan : BundlePlan}
    (ho : assignAll policy ls ts = .ok plan) :
    Settles files templates xs (plan.groups (·.templateImports)) := by
  obtain ⟨-, -, htemplates⟩ := perm_groups_of_assignAll ho
  exact h.of_keys (fun g hg => ⟨g, htemplates.mem_iff.mp hg, rfl, rfl⟩)
    fun g hg => ⟨g, htemplates.mem_iff.mpr hg, rfl⟩

/-! ## Declared bundles -/

theorem foldlM_succeeds {ε β γ : Type} {f : γ → β → Except ε γ} {bs : List β}
    (h : ∀ b ∈ bs, ∀ c, ∃ c', f c b = .ok c') (c : γ) : ∃ c', bs.foldlM f c = .ok c' := by
  induction bs generalizing c with
  | nil => exact ⟨c, rfl⟩
  | cons b bs ih =>
      obtain ⟨next, hnext⟩ := h b List.mem_cons_self c
      obtain ⟨c', hc'⟩ := ih (fun b hb => h b (List.mem_cons_of_mem _ hb)) next
      exact ⟨c', by rw [List.foldlM_cons, hnext]; exact hc'⟩

theorem mapM_succeeds {ε β γ : Type} {f : β → Except ε γ} {bs : List β}
    (h : ∀ b ∈ bs, ∃ c, f b = .ok c) : ∃ cs, bs.mapM f = .ok cs := by
  induction bs with
  | nil => exact ⟨[], rfl⟩
  | cons b bs ih =>
      obtain ⟨c, hc⟩ := h b List.mem_cons_self
      obtain ⟨cs, hcs⟩ := ih fun b hb => h b (List.mem_cons_of_mem _ hb)
      exact ⟨c :: cs, by rw [List.mapM_cons, hc, hcs]; rfl⟩

/-- The files of all imports of a group are in declared bundles. -/
def Declared (policy : BundlePolicy) (kind : Kind α) (g : ImportGroup α) : Prop :=
  ∀ i ∈ g.importers, policy.bundleFor (kind.site i).file (kind.site i).treeKind ∈ policy.names

theorem assign_succeeds {kind : Kind α} {g : ImportGroup α} (h : Declared policy kind g)
    (put : ImportGroup α → BundleContents → BundleContents) (plan : BundlePlan) :
    ∃ plan', assign policy kind put plan g = .ok plan' := by
  have hindex : ∀ i ∈ g.importers, ∃ n, bundleIndex policy (kind.site i) = .ok n := by
    intro i hi
    obtain ⟨n, hn⟩ := Option.isSome_iff_exists.mp (List.isSome_idxOf?.mpr (h i hi))
    exact ⟨n, bundleIndex_eq_ok_iff.mpr hn⟩
  obtain ⟨n, hn⟩ := hindex g.first List.mem_cons_self
  have hmore : ∀ site ∈ g.more.map kind.site, ∃ n, bundleIndex policy site = .ok n := by
    intro site hsite
    obtain ⟨i, hi, rfl⟩ := List.mem_map.mp hsite
    exact hindex i (List.mem_cons_of_mem _ hi)
  obtain ⟨others, hothers⟩ := mapM_succeeds hmore
  exact ⟨_, by rw [assign, chooseBundle, hn, hothers]; rfl⟩

theorem Declared.filter? {kind : Kind α} {g : ImportGroup α} (h : Declared policy kind g)
    (p : α → Bool) : ∀ g' ∈ (g.filter? p).toList, Declared policy kind g' := by
  intro g' hg' i hi
  rw [(ImportGroup.of_mem_filter? hg').2.2] at hi
  exact h i (List.mem_of_mem_filter hi)

/-- Groups can be put into bundles when these are declared. -/
theorem assignAll_succeeds (hl : ∀ g ∈ ls, Declared policy literals g)
    (ht : ∀ g ∈ ts, Declared policy templates g) : ∃ plan, assignAll policy ls ts = .ok plan := by
  obtain ⟨between, hliterals⟩ := foldlM_succeeds (f := assignLiterals policy) (fun g hg plan => by
    obtain ⟨statics, hstatics⟩ := foldlM_succeeds (f := assign policy literals putStatic)
      (fun g' hg' => assign_succeeds ((hl g hg).filter? (!·.isDynamic) g' hg') putStatic) plan
    obtain ⟨dynamics, hdynamics⟩ := foldlM_succeeds (f := assign policy literals putDynamic)
      (fun g' hg' => assign_succeeds ((hl g hg).filter? (·.isDynamic) g' hg') putDynamic) statics
    exact ⟨dynamics, bind_eq_ok_iff.mpr ⟨statics, hstatics, hdynamics⟩⟩) (.declare policy.names)
  obtain ⟨last, htemplates⟩ := foldlM_succeeds (f := assign policy templates putTemplate)
    (fun g hg => assign_succeeds (ht g hg) putTemplate) between
  exact ⟨last.sorted,
    bind_eq_ok_iff.mpr ⟨between, hliterals, bind_eq_ok_iff.mpr ⟨last, htemplates, rfl⟩⟩⟩

/-- The imports that lead to an installed package make groups that can be put into bundles. -/
theorem Faultless.declared_groups {kind : Kind α} {as : List (Resolved α)}
    (h : Faultless files policy kind as) {gs : List (ImportGroup α)}
    (hg : Grouped kind.key (externals as) gs) : ∀ g ∈ gs, Declared policy kind g := by
  intro g hmem i hi
  have hexternal := hg.subset hmem hi
  rw [← map_fst_sighted] at hexternal
  obtain ⟨x, hx, rfl⟩ := List.mem_map.mp hexternal
  exact h.declared x hx

/-! ## Plans -/

/-- Versions decide on a plan as they should. The groups of a plan are settled. When nothing else is
wrong, there is no plan exactly when two imports of a literal specifier or of a template key lead to
different versions, and the error tells of the first clash, of literal imports before templates. -/
structure FindsConflicts (files : σ) (policy : BundlePolicy) (as : List (Resolved LiteralImport))
    (bs : List (Resolved TemplateImport)) (result : Except SplitError BundlePlan) : Prop where
  literals : ∀ plan, result = .ok plan → Settles files literals (sighted as)
    (plan.groups (·.staticImports) ++ plan.groups (·.dynamicImports))
  templates : ∀ plan, result = .ok plan →
    Settles files templates (sighted bs) (plan.groups (·.templateImports))
  fails_iff : Faultless files policy Split.literals as →
    Faultless files policy Split.templates bs → ((∃ e, result = .error e) ↔
      Conflicted files Split.literals (sighted as) ∨ Conflicted files Split.templates (sighted bs))
  error : Faultless files policy Split.literals as → Faultless files policy Split.templates bs →
    ∀ e, result = .error e → Clash files Split.literals (sighted as) e ∨
      ¬ Conflicted files Split.literals (sighted as) ∧ Clash files Split.templates (sighted bs) e

/-- Without a plan it is left to show that the error is right when nothing else is wrong. -/
theorem FindsConflicts.of_error {as : List (Resolved LiteralImport)}
    {bs : List (Resolved TemplateImport)} {e : SplitError}
    (h : Faultless files policy Split.literals as → Faultless files policy Split.templates bs →
      Clash files Split.literals (sighted as) e ∨
        ¬ Conflicted files Split.literals (sighted as) ∧
          Clash files Split.templates (sighted bs) e) :
    FindsConflicts files policy as bs (.error e) := by
  refine ⟨fun plan ho => ?_, fun plan ho => ?_, fun hl ht => ⟨fun _ => ?_, fun _ => ⟨e, rfl⟩⟩,
    fun hl ht e' he => ?_⟩
  · cases ho
  · cases ho
  · exact (h hl ht).imp Clash.conflicted (·.2.conflicted)
  · cases he
    exact h hl ht

/-- Groups that are settled are put into bundles when nothing else is wrong. -/
theorem FindsConflicts.of_groups (hv : VersionsByPlace files) {as : List (Resolved LiteralImport)}
    {bs : List (Resolved TemplateImport)} {ls : List (ImportGroup LiteralImport)}
    {ts : List (ImportGroup TemplateImport)}
    (hls : Anchored files Split.literals (sighted as) ls)
    (hts : Anchored files Split.templates (sighted bs) ts)
    (hgl : Grouped Split.literals.key (externals as) ls)
    (hgt : Grouped Split.templates.key (externals bs) ts) :
    FindsConflicts files policy as bs (assignAll policy ls ts) := by
  have hplaced : Faultless files policy Split.literals as →
      Faultless files policy Split.templates bs → ∃ plan, assignAll policy ls ts = .ok plan :=
    fun h h' => assignAll_succeeds (h.declared_groups hgl) (h'.declared_groups hgt)
  refine ⟨fun plan ho => hls.settles.literals_of_assignAll ho,
    fun plan ho => hts.settles.templates_of_assignAll ho, fun h h' => ⟨?_, ?_⟩,
    fun h h' e he => ?_⟩
  · rintro ⟨e, he⟩
    obtain ⟨plan, ho⟩ := hplaced h h'
    cases ho.symm.trans he
  · rintro (hc | hc)
    · exact absurd hc (hls.settles.not_conflicted hv)
    · exact absurd hc (hts.settles.not_conflicted hv)
  · obtain ⟨plan, ho⟩ := hplaced h h'
    cases ho.symm.trans he

theorem findsConflicts_of_plan (policy : BundlePolicy) (hv : VersionsByPlace files) {r : Resolver}
    (hr : Recalls files options r) (imports : List Import) : ∃ as bs,
      Resolves files options literals (·.specifier) false (includedLiterals imports) as ∧
      Resolves files options templates TemplateImport.leadingText true (includedTemplates imports)
        bs ∧
      FindsConflicts files policy as bs (outcome (plan files policy imports) r).1 := by
  obtain ⟨as, has, hliterals, hgroups⟩ := ends_group policy hv literals (·.specifier)
    false takesExternal_literals (includedLiterals imports) hr
  have hremains := remains_group literals (·.specifier) false (includedLiterals imports) r hr
  obtain ⟨bs, hbs, htemplates, hgroups'⟩ := ends_group policy hv templates
    TemplateImport.leadingText true takesExternal_templates (includedTemplates imports) hremains
  refine ⟨as, bs, has, hbs, ?_⟩
  rw [plan_eq_bind]
  generalize (outcome (group files literals (·.specifier) false (includedLiterals imports)) r).1 =
    result at hliterals hgroups
  generalize (outcome (group files templates TemplateImport.leadingText true
    (includedTemplates imports)) _).1 = result' at htemplates hgroups'
  cases hliterals with
  | clash hclash => exact .of_error fun _ _ => .inl hclash
  | fault hf => exact .of_error fun h _ => absurd h hf
  | @settled ls hls =>
      cases htemplates with
      | clash hclash => exact .of_error fun _ _ => .inr ⟨hls.settles.not_conflicted hv, hclash⟩
      | fault hf => exact .of_error fun _ h => absurd h hf
      | @settled ts hts => exact .of_groups hv hls hts (hgroups ls rfl) (hgroups' ts rfl)

theorem exists_of_mem_sighted {as : List (Resolved α)} {x : α × Path} (h : x ∈ sighted as) :
    ∃ a ∈ as, a.i = x.1 ∧ a.target = .ok (.external x.2) := by
  obtain ⟨a, ha, hx⟩ := List.mem_filterMap.mp h
  split at hx
  · rename_i p hp
    obtain rfl := Option.some.inj hx
    exact ⟨a, ha, rfl, hp⟩
  · exact absurd hx nofun

/-- In memory the answers of a resolver without memory tell that nothing is wrong. -/
theorem Resolves.faultless {m : Memory} {kind : Kind α} {specifier : α → String} {template : Bool}
    {imports : List α} {as : List (Resolved α)}
    (h : Resolves m options kind specifier template imports as) (hk : kind.Respects)
    (ht : ∀ i ∈ imports, ∃ target entry?,
      answerTo kind specifier template m options i = .ok target ∧
        kind.entry? i target = .ok entry?)
    (hv : ∀ i ∈ imports, ∀ p, answerTo kind specifier template m options i = .ok (.external p) →
      ∃ v, searchVersion m p = .ok v)
    (hd : ∀ i ∈ imports,
      policy.bundleFor (kind.site i).file (kind.site i).treeKind ∈ policy.names) :
    Faultless m policy kind as := by
  have himport : ∀ a ∈ as, a.i ∈ imports := fun a ha =>
    h.imports ▸ List.mem_map.mpr ⟨a, ha, rfl⟩
  have hagree : ∀ a ∈ as, Agree Target.Same (answerTo kind specifier template m options a.i)
      a.target := fun a ha =>
    Resolver.Leads.agree (Resolver.answersByPlace m options) ⟨_, rfl, rfl⟩ (h.leads a ha)
  refine ⟨fun a ha => ?_, fun x hx _ _ _ _ => ?_, fun x hx => ?_⟩
  · obtain ⟨target, entry?, htarget, hentry⟩ := ht a.i (himport a ha)
    obtain ⟨target', htarget', hsame⟩ := (hagree a ha).of_ok htarget
    obtain ⟨entry?', hentry', -⟩ := (hk a.i target target' hsame).of_ok hentry
    exact ⟨target', entry?', htarget', hentry'⟩
  · obtain ⟨a, ha, hi, htarget⟩ := exists_of_mem_sighted hx
    have hsame := hagree a ha
    rw [htarget] at hsame
    generalize ho : answerTo kind specifier template m options a.i = answer at hsame
    cases hsame with
    | ok hsame =>
        cases hsame with
        | refl => exact hv a.i (himport a ha) x.2 ho
        | external hc =>
            obtain ⟨v, hfound⟩ := hv a.i (himport a ha) _ ho
            obtain ⟨w, hw, -⟩ := (Resolver.versionsByPlace m _ _ hc).of_ok hfound
            exact ⟨w, hw⟩
  · obtain ⟨a, ha, hi, -⟩ := exists_of_mem_sighted hx
    exact hi ▸ hd a.i (himport a ha)

end Split

namespace Splitter

variable {σ : Type} [Files σ] {files : σ} {options : ResolveOptions} {policy : BundlePolicy}

/-- A new splitter, whose resolver was at most asked about the same state of the file system, finds
exactly the conflicts of versions. -/
theorem plan_finds_conflicts (policy : BundlePolicy) (hv : VersionsByPlace files) {r : Resolver}
    (hr : Consulted files options r) (lists : List (Shared (List Import))) : ∃ as bs,
      Split.Resolves files options Split.literals (·.specifier) false
        (Split.includedLiterals (lists.flatMap (·.value))) as ∧
      Split.Resolves files options Split.templates TemplateImport.leadingText true
        (Split.includedTemplates (lists.flatMap (·.value))) bs ∧
      Split.FindsConflicts files policy as bs
        ((outcome (Splitter.plan files lists) { policy, resolver := r }).1.map (·.value)) := by
  obtain ⟨as, bs, has, hbs, hfinds⟩ := Split.findsConflicts_of_plan policy hv hr.recalls
    (lists.flatMap (·.value))
  refine ⟨as, bs, has, hbs, ?_⟩
  rw [outcome_plan_of_unknown (s := { policy, resolver := r }) rfl]
  generalize outcome (Split.plan files policy (lists.flatMap (·.value))) r = found at hfinds ⊢
  obtain ⟨result, r'⟩ := found
  cases result with
  | ok plan => exact hfinds
  | error e => exact hfinds

/-! ## Two versions of one package -/

namespace TwoVersions

/-- Each of two packages has its own version installed. -/
def installed : Memory :=
  ((((Memory.empty ⟨"/"⟩).addFile ⟨"/a/node_modules/x/index.js"⟩ "".toUTF8).addFile
    ⟨"/a/node_modules/x/package.json"⟩ "\x7b\"version\":\"1\"\x7d".toUTF8).addFile
    ⟨"/b/node_modules/x/index.js"⟩ "".toUTF8).addFile
    ⟨"/b/node_modules/x/package.json"⟩ "\x7b\"version\":\"2\"\x7d".toUTF8

def literal (package : String) : LiteralImport where
  specifier := "x"
  isDynamic := false
  site := { file := package ++ ".js", package := { name := package, root := ⟨"/" ++ package⟩ } }

def lists : List (Shared (List Import)) :=
  [⟨1, [.literal (literal "a"), .literal (literal "b")]⟩]

def started : Splitter := { policy := .standard, resolver := { options := {} } }

theorem faultless {as : List (Split.Resolved LiteralImport)}
    (h : Split.Resolves installed {} Split.literals (·.specifier) false
      (Split.includedLiterals (lists.flatMap (·.value))) as) :
    Split.Faultless installed .standard Split.literals as := by
  have hincluded : Split.includedLiterals (lists.flatMap (·.value)) =
      [literal "a", literal "b"] := by decide +kernel
  have ha : Split.answerTo Split.literals (·.specifier) false installed {} (literal "a") =
      .ok (.external ⟨"/a/node_modules/x/index.js"⟩) := by decide +kernel
  have hb : Split.answerTo Split.literals (·.specifier) false installed {} (literal "b") =
      .ok (.external ⟨"/b/node_modules/x/index.js"⟩) := by decide +kernel
  rw [hincluded] at h
  refine h.faultless Split.respects_literals ?_ ?_ (by decide +kernel)
  · simp only [List.forall_mem_cons, List.not_mem_nil, false_implies, implies_true, and_true]
    exact ⟨⟨_, _, ha, rfl⟩, ⟨_, _, hb, rfl⟩⟩
  · simp only [List.forall_mem_cons, List.not_mem_nil, false_implies, implies_true, and_true, ha,
      hb]
    constructor
    · rintro p he
      obtain rfl := Target.external.inj (Except.ok.inj he)
      exact ⟨"1", by decide +kernel⟩
    · rintro p he
      obtain rfl := Target.external.inj (Except.ok.inj he)
      exact ⟨"2", by decide +kernel⟩

theorem plan_fails : (outcome (Splitter.plan installed lists) started).1.map (·.value) =
      .error (.versionConflict "x" ⟨"a.js", ⟨"/a/node_modules/x/index.js"⟩, "1"⟩
        ⟨"b.js", ⟨"/b/node_modules/x/index.js"⟩, "2"⟩) ∧
    ∃ as bs,
      Split.Resolves installed {} Split.literals (·.specifier) false
        (Split.includedLiterals (lists.flatMap (·.value))) as ∧
      Split.Resolves installed {} Split.templates TemplateImport.leadingText true
        (Split.includedTemplates (lists.flatMap (·.value))) bs ∧
      Split.FindsConflicts installed .standard as bs
        ((outcome (Splitter.plan installed lists) started).1.map (·.value)) ∧
      Split.Faultless installed .standard Split.literals as ∧
      Split.Faultless installed .standard Split.templates bs := by
  obtain ⟨as, bs, has, hbs, hfinds⟩ := plan_finds_conflicts .standard
    (Resolver.versionsByPlace installed) .new lists
  refine ⟨by decide +kernel, as, bs, has, hbs, hfinds, faultless has, ?_⟩
  have hnone : Split.includedTemplates (lists.flatMap (·.value)) = [] := rfl
  rw [hnone] at hbs
  exact hbs.faultless Split.respects_templates nofun nofun nofun

end TwoVersions

end Splitter

end VendorBundle
