import VendorBundle.Bundle.Split
import VendorBundle.Proofs.Effect
import Mathlib.Tactic.Common

/-!
# Gathering imports by their key

Groups hold some imports when each of these is in the one group of its key, in the order of
discovery. Taking up one more import keeps this, and so the groups of a list of imports hold exactly
those of them that lead to an installed package.
-/

namespace VendorBundle

open Effect

variable {α : Type}

/-! ## Groups of imports -/

/-- The groups hold the imports: every one once, in the only group with its key, and in each group
in the order of the list. -/
structure Grouped (key : α → String) (imports : List α) (gs : List (ImportGroup α)) : Prop where
  once : (gs.flatMap (·.importers)).Perm imports
  keys : (gs.map (·.key)).Nodup
  importers : ∀ g ∈ gs, g.importers = imports.filter (key · = g.key)

/-- The parts of groups that satisfy `p`. -/
def ImportGroup.parts (p : α → Bool) (gs : List (ImportGroup α)) : List (ImportGroup α) :=
  gs.flatMap fun g => (g.filter? p).toList

namespace ImportGroup

variable {g g' : ImportGroup α} {p : α → Bool}

/-- The part of a group has its key and its entry file, and those of its imports that satisfy
`p`. -/
theorem of_mem_filter? (h : g' ∈ (g.filter? p).toList) :
    g'.key = g.key ∧ g'.entrypoint = g.entrypoint ∧ g'.importers = g.importers.filter p := by
  rw [filter?] at h
  split at h
  · exact absurd h List.not_mem_nil
  · rename_i first more hsome
    obtain rfl := List.mem_singleton.mp h
    exact ⟨rfl, rfl, hsome.symm⟩

theorem flatMap_importers_filter? (g : ImportGroup α) (p : α → Bool) :
    (g.filter? p).toList.flatMap (·.importers) = g.importers.filter p := by
  rw [filter?]
  split
  · rename_i hnone
    rw [hnone]
    rfl
  · rename_i first more hsome
    rw [hsome]
    simp [importers]

theorem keys_parts_sublist (p : α → Bool) (gs : List (ImportGroup α)) :
    ((parts p gs).map (·.key)).Sublist (gs.map (·.key)) := by
  induction gs with
  | nil => exact .slnil
  | cons g gs ih =>
      rw [parts, List.flatMap_cons, List.map_append, List.map_cons]
      cases hf : g.filter? p with
      | none => exact ih.cons _
      | some g' =>
          have hkey : g'.key = g.key := (of_mem_filter? (Option.mem_toList.mpr hf)).1
          simpa [hkey, parts] using ih

end ImportGroup

namespace Grouped

variable {key : α → String} {imports : List α} {gs hs : List (ImportGroup α)}

theorem nil (key : α → String) : Grouped key [] [] := ⟨.nil, .nil, nofun⟩

theorem perm (h : Grouped key imports gs) (hp : hs.Perm gs) : Grouped key imports hs where
  once := (hp.flatMap_right _).trans h.once
  keys := (hp.map _).nodup_iff.mpr h.keys
  importers := fun g hg => h.importers g (hp.subset hg)

/-- Every import of a group has the key of the group. -/
theorem key_eq (h : Grouped key imports gs) {g : ImportGroup α} (hg : g ∈ gs) {i : α}
    (hi : i ∈ g.importers) : key i = g.key := by
  rw [h.importers g hg] at hi
  simpa using (List.mem_filter.mp hi).2

theorem subset (h : Grouped key imports gs) {g : ImportGroup α} (hg : g ∈ gs) {i : α}
    (hi : i ∈ g.importers) : i ∈ imports :=
  h.once.subset (List.mem_flatMap.mpr ⟨g, hg, hi⟩)

/-- An import whose key has no group yet opens one. -/
theorem opened (h : Grouped key imports gs) {i : α} (hn : ∀ g ∈ gs, g.key ≠ key i)
    (entrypoint : Path) :
    Grouped key (imports ++ [i]) (gs ++ [{ key := key i, entrypoint, first := i }]) where
  once := by
    rw [List.flatMap_append, List.flatMap_singleton]
    exact h.once.append_right [i]
  keys := by
    rw [List.map_append, List.nodup_append]
    refine ⟨h.keys, by simp, ?_⟩
    simp only [List.map_singleton, List.mem_singleton, List.mem_map]
    rintro _ ⟨g, hg, rfl⟩ _ rfl
    exact hn g hg
  importers := by
    intro g hg
    rw [List.filter_append]
    rcases List.mem_append.mp hg with hg | hg
    · rw [h.importers g hg]
      simp [Ne.symm (hn g hg)]
    · obtain rfl := List.mem_singleton.mp hg
      have hnone : imports.filter (key · = key i) = [] := by
        rw [List.filter_eq_nil_iff]
        intro j hj
        obtain ⟨g, hg, hi⟩ := List.mem_flatMap.mp (h.once.symm.subset hj)
        simpa [h.key_eq hg hi] using hn g hg
      simp [hnone, ImportGroup.importers]

/-- An import joins the group of its key. -/
theorem joined {front back : List (ImportGroup α)} {g : ImportGroup α}
    (h : Grouped key imports (front ++ g :: back)) {i : α} (hk : g.key = key i) :
    Grouped key (imports ++ [i]) (front ++ g.add i :: back) where
  once := by
    have hadd : (g.add i).importers = g.importers ++ [i] := rfl
    have hmove : (front ++ g.add i :: back).flatMap (·.importers) =
        front.flatMap (·.importers) ++ g.importers ++ ([i] ++ back.flatMap (·.importers)) := by
      simp [List.flatMap_append, List.flatMap_cons, hadd]
    have hold : (front ++ g :: back).flatMap (·.importers) =
        front.flatMap (·.importers) ++ g.importers ++ back.flatMap (·.importers) := by
      simp [List.flatMap_append, List.flatMap_cons]
    rw [hmove]
    refine (List.perm_append_comm.append_left _).trans ?_
    rw [← List.append_assoc, ← hold]
    exact h.once.append_right [i]
  keys := by
    have hkeys : (front ++ g.add i :: back).map (·.key) = (front ++ g :: back).map (·.key) := by
      simp [ImportGroup.add]
    rw [hkeys]
    exact h.keys
  importers := by
    -- The other groups have other keys.
    have hother : ∀ g' ∈ front ++ back, g'.key ≠ key i := by
      intro g' hg' he
      have hnodup : ((g :: (front ++ back)).map (·.key)).Nodup :=
        (List.perm_middle.map _).nodup_iff.mp h.keys
      exact (List.nodup_cons.mp hnodup).1 (List.mem_map.mpr ⟨g', hg', he.trans hk.symm⟩)
    intro g' hg'
    rw [List.filter_append]
    rcases List.mem_append.mp hg' with hg' | hg'
    · rw [h.importers g' (by simp [hg'])]
      simp [Ne.symm (hother g' (by simp [hg']))]
    · rcases List.mem_cons.mp hg' with rfl | hg'
      · have himporters := h.importers g (by simp)
        have hkey : (g.add i).key = g.key := rfl
        rw [hkey, ← himporters]
        simp [hk, ImportGroup.importers, ImportGroup.add]
      · rw [h.importers g' (by simp [hg'])]
        simp [Ne.symm (hother g' (by simp [hg']))]

/-- The parts of the groups that satisfy `p` hold the imports that do. -/
theorem parts (h : Grouped key imports gs) (p : α → Bool) :
    Grouped key (imports.filter p) (ImportGroup.parts p gs) where
  once := by
    rw [ImportGroup.parts, List.flatMap_assoc]
    simp only [ImportGroup.flatMap_importers_filter?]
    rw [← List.filter_flatMap]
    exact h.once.filter p
  keys := (ImportGroup.keys_parts_sublist p gs).nodup h.keys
  importers := by
    intro g' hg'
    obtain ⟨g, hg, hpart⟩ := List.mem_flatMap.mp hg'
    obtain ⟨hkey, -, himporters⟩ := ImportGroup.of_mem_filter? hpart
    rw [himporters, hkey, h.importers g hg, List.filter_filter, List.filter_filter]
    exact List.filter_congr fun i _ => Bool.and_comm _ _

end Grouped

namespace Split

variable {σ : Type} [Files σ] {files : σ}

/-! ## Taking imports up -/

/-- Compares the entry file of an import with the one of its group. -/
def compareEntry (files : σ) (kind : Kind α) (i : α) (entrypoint : Path) (g : ImportGroup α) :
    Effect Resolver SplitError Unit :=
  if g.entrypoint.same entrypoint then pure ()
  else checkVersions files g.key ((kind.site g.first).file, g.entrypoint)
    ((kind.site i).file, entrypoint)

/-- An import is compared with the first group of its key and joins it. -/
theorem gather_of_mem {kind : Kind α} {i : α} {front back : List (ImportGroup α)}
    {g : ImportGroup α} (hf : ∀ g' ∈ front, g'.key ≠ kind.key i) (hk : g.key = kind.key i)
    (entrypoint : Path) : gather files kind i entrypoint (front ++ g :: back) =
      (do compareEntry files kind i entrypoint g; pure (front ++ g.add i :: back)) := by
  induction front with
  | nil =>
      rw [List.nil_append, gather, if_pos hk, compareEntry]
      cases g.entrypoint.same entrypoint with
      | true => rfl
      | false => rfl
  | cons g' front ih =>
      obtain ⟨hg', hfront⟩ := List.forall_mem_cons.mp hf
      rw [List.cons_append, gather, if_neg hg', ih hfront, bind_assoc]
      simp only [pure_bind, List.cons_append]

/-- An import without a group of its key opens one. -/
theorem gather_of_not_mem {kind : Kind α} {i : α} {gs : List (ImportGroup α)}
    (h : ∀ g ∈ gs, g.key ≠ kind.key i) (entrypoint : Path) :
    gather files kind i entrypoint gs =
      pure (gs ++ [{ key := kind.key i, entrypoint, first := i }]) := by
  induction gs with
  | nil => rfl
  | cons g gs ih =>
      obtain ⟨hg, hgs⟩ := List.forall_mem_cons.mp h
      rw [gather, if_neg hg, ih hgs, pure_bind]
      rfl

/-- There is a first group of the key of an import, or none. -/
theorem group_cases (kind : Kind α) (i : α) (gs : List (ImportGroup α)) :
    (∃ front g back, gs = front ++ g :: back ∧ (∀ g' ∈ front, g'.key ≠ kind.key i) ∧
      g.key = kind.key i) ∨ ∀ g ∈ gs, g.key ≠ kind.key i := by
  cases hf : gs.find? (·.key = kind.key i) with
  | none => exact .inr fun g hg => by simpa using List.find?_eq_none.mp hf g hg
  | some g =>
      obtain ⟨hk, front, back, rfl, hfront⟩ := List.find?_eq_some_iff_append.mp hf
      exact .inl ⟨front, g, back, rfl, by simpa using hfront, by simpa using hk⟩

/-- What gathering an import leads to. -/
theorem gather_ok {kind : Kind α} {i : α} {entrypoint : Path} {gs gs' : List (ImportGroup α)}
    {r r' : Resolver} (h : outcome (gather files kind i entrypoint gs) r = (.ok gs', r')) :
    (∃ front g back, gs = front ++ g :: back ∧ g.key = kind.key i ∧
      gs' = front ++ g.add i :: back) ∨
    (∀ g ∈ gs, g.key ≠ kind.key i) ∧
      gs' = gs ++ [{ key := kind.key i, entrypoint, first := i }] := by
  rcases group_cases kind i gs with ⟨front, g, back, rfl, hfront, hk⟩ | hnone
  · rw [gather_of_mem hfront hk] at h
    obtain ⟨_, t, -, hpure⟩ := outcome_bind_eq_ok_iff.mp h
    exact .inl ⟨front, g, back, rfl, hk, (Except.ok.inj (Prod.mk.inj hpure).1).symm⟩
  · rw [gather_of_not_mem hnone] at h
    exact .inr ⟨hnone, (Except.ok.inj (Prod.mk.inj h).1).symm⟩

/-- What a kind of imports takes up is what leads to an installed package. -/
def Kind.TakesExternal (kind : Kind α) : Prop :=
  ∀ i target entrypoint, kind.entry? i target = .ok (some entrypoint) ↔
    target = .external entrypoint

theorem takesExternal_literals : literals.TakesExternal := by
  intro i target entrypoint
  cases target <;> simp [literals, literalEntry?]
  split <;> simp

theorem takesExternal_templates : templates.TakesExternal := by
  intro i target entrypoint
  cases target <;> simp [templates, templateEntry?]

/-- The import leads to an installed package. -/
def Resolved.isExternal (a : Resolved α) : Bool :=
  match a.target with
  | .ok (.external _) => true
  | _ => false

/-- The imports that lead to an installed package. -/
def externals (as : List (Resolved α)) : List α := (as.filter (·.isExternal)).map (·.i)

/-- Taking an import up keeps the groups those of the imports so far. -/
theorem Grouped.take {kind : Kind α} (hk : kind.TakesExternal) {imports : List α}
    {gs gs' : List (ImportGroup α)} (h : Grouped kind.key imports gs) {a : Resolved α}
    {r r' : Resolver} (ho : outcome (take files kind gs a) r = (.ok gs', r')) :
    Grouped kind.key (imports ++ externals [a]) gs' ∧ ∃ target, a.target = .ok target := by
  obtain ⟨i, target⟩ := a
  cases target with
  | error e => simp [Split.take] at ho
  | ok target =>
      refine ⟨?_, target, rfl⟩
      simp only [Split.take] at ho
      cases hentry : kind.entry? i target with
      | error e => simp [hentry] at ho
      | ok entry? =>
          rw [hentry] at ho
          cases entry? with
          | none =>
              have hexternal : externals [⟨i, .ok target⟩] = [] := by
                cases target with
                | external entrypoint =>
                    rw [(hk i _ entrypoint).mpr rfl] at hentry
                    exact absurd hentry (by simp)
                | _ => rfl
              rw [outcome_pure, Prod.mk.injEq, Except.ok.injEq] at ho
              rw [hexternal, List.append_nil, ← ho.1]
              exact h
          | some entrypoint =>
              obtain rfl := (hk i target entrypoint).mp hentry
              rcases gather_ok ho with ⟨front, g, back, rfl, hkey, rfl⟩ | ⟨hnone, rfl⟩
              · exact h.joined hkey
              · exact h.opened hnone entrypoint

/-- The groups that imports are folded into hold those that lead to an installed package. -/
theorem grouped_of_foldlM {kind : Kind α} (hk : kind.TakesExternal) {as : List (Resolved α)}
    {imports : List α} {gs gs' : List (ImportGroup α)} (h : Grouped kind.key imports gs)
    {r r' : Resolver} (ho : outcome (as.foldlM (take files kind) gs) r = (.ok gs', r')) :
    Grouped kind.key (imports ++ externals as) gs' ∧
      ∀ a ∈ as, ∃ target, a.target = .ok target := by
  induction as generalizing imports gs r with
  | nil =>
      rw [List.foldlM_nil, outcome_pure, Prod.mk.injEq, Except.ok.injEq] at ho
      rw [← ho.1]
      exact ⟨by simpa [externals] using h, nofun⟩
  | cons a as ih =>
      rw [List.foldlM_cons] at ho
      obtain ⟨gs₁, r₁, hfirst, hrest⟩ := outcome_bind_eq_ok_iff.mp ho
      obtain ⟨hgrouped, hok⟩ := Grouped.take hk h hfirst
      obtain ⟨hall, hoks⟩ := ih hgrouped hrest
      refine ⟨?_, List.forall_mem_cons.mpr ⟨hok, hoks⟩⟩
      have hsplit : externals (a :: as) = externals [a] ++ externals as := by
        rw [externals, externals, externals, ← List.map_append, ← List.filter_append]
        rfl
      rw [hsplit, ← List.append_assoc]
      exact hall

end Split

end VendorBundle
