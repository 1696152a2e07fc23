import VendorBundle.Proofs.Merge.Restored

/-!
# What a build leaves that stops

A build may stop after any of its steps, because that fails or for another reason. Each path of the
result then holds what it held, or what the build puts there, or nothing if its kind changes.
-/

namespace VendorBundle

open Entry Memory Effect

/-- No act of a build breaks the property of the result, whether it is carried out or fails. -/
def Act.Keeps (P : View → Prop) (a : Act) : Prop :=
  ∀ v, P v → P (a.remains v) ∧ (a.Possible v → P (a.result v))

namespace Merger

/-- A state that has come from `m` with a property of the result is followed by one that has, too. -/
def Holds (root : Place) (m : Memory) (P : View → Prop) (a b : Memory) : Prop :=
  Within root m a ∧ P (a.view root) → Within root m b ∧ P (b.view root)

/-- A step keeps what its act keeps, also when it fails. -/
theorem keeps_of_enacts {α : Type} {root : Place} {m : Memory} {P : View → Prop}
    {act : Option Act} {e : MergeEffect Memory α} (hk : Keeps (Within root) e)
    (he : ∀ m₁, Within root m m₁ → Enacts root act e m₁)
    (ha : ∀ a, act = some a → a.Keeps P) : Keeps (Holds root m P) e := by
  rintro m₁ ⟨hw, hp⟩
  refine ⟨hw.trans (hk m₁), ?_⟩
  have henacts := he m₁ hw
  cases act with
  | none =>
      obtain ⟨error, m₂, ho, hview⟩ := henacts
      rw [ho, hview]
      exact hp
  | some a =>
      obtain ⟨hremains, hresult⟩ := ha a rfl _ hp
      cases ho : outcome e m₁ with
      | mk result m₂ =>
          cases result with
          | ok r =>
              rw [henacts.result r m₂ ho]
              exact hresult (henacts.possible r m₂ ho)
          | error error =>
              rw [henacts.fails error m₂ ho]
              exact hremains

end Merger

namespace MergeOptions

variable (o : MergeOptions) (old new : Memory)

/-! ## Between two trees -/

/-- What a path may hold when a build stops: what it held, nothing if its kind changes, or what the
build puts there. -/
def Midway (path : String) (item : Option Item) : Prop :=
  item = o.tree old (Text.split '/' path) ∨
  item = none ∧ kindAt? (o.merged old) path ≠ kindAt? (o.merged new) path ∨
  item = o.tree new (Text.split '/' path) ∧
    (o.Puts old new path ∨ kindAt? (o.merged new) path = some .directory)

/-- A tree of the result that a build may stop in. -/
def Partway (v : View) : Prop := ∀ path, o.Midway old new path (v (Text.split '/' path))

variable {o old new} {v : View} {path : String}

theorem midway_dir (hk : kindAt? (o.merged new) path = some .directory) :
    o.Midway old new path (some .dir) :=
  .inr (.inr ⟨(tree_of_directory hk).symm, .inr hk⟩)

theorem Partway.fill (h : o.Partway old new v) {place : Place}
    (hd : ∀ path, Text.split '/' path <+: place → kindAt? (o.merged new) path = some .directory) :
    o.Partway old new (v.fill place) := by
  intro path
  have hat := h path
  rw [View.fill]
  cases hv : v (Text.split '/' path) with
  | some item => rwa [Option.some_or, ← hv]
  | none =>
      rw [Option.none_or]
      split
      · rename_i hp
        exact midway_dir (hd path hp)
      · rwa [← hv]

theorem Partway.put (h : o.Partway old new v) {item : Option Item}
    (hi : o.Midway old new path item) : o.Partway old new (v.put (Text.split '/' path) item) := by
  intro p
  by_cases hp : Text.split '/' path = Text.split '/' p
  · obtain rfl := Text.split_injective hp
    rwa [View.put_self]
  · rw [View.put_of_ne _ _ hp]
    exact h p

/-- A place that is a directory before and after is one all the time. -/
theorem Partway.dir (h : o.Partway old new v) (hold : kindAt? (o.merged old) path = some .directory)
    (hnew : kindAt? (o.merged new) path = some .directory) : v (Text.split '/' path) = some .dir := by
  rcases h path with hv | ⟨-, hne⟩ | ⟨hv, -⟩
  · exact hv.trans (tree_of_directory hold)
  · exact absurd (hold.trans hnew.symm) hne
  · exact hv.trans (tree_of_directory hnew)

/-! ## The acts of a build -/

/-- What goes is of another kind afterwards. -/
theorem keeps_leaving {e : Entry} (he : e ∈ o.merged old)
    (hgone : kindAt? (o.merged new) e.path ≠ some e.kind) :
    (Act.leaving e).Keeps (o.Partway old new) := by
  have hne : kindAt? (o.merged old) e.path ≠ kindAt? (o.merged new) e.path := by
    have hold := kindAt?_eq_some_iff.mpr
      ⟨e, ascending_merged.entryAt?_eq_some_iff.mpr ⟨he, rfl⟩, rfl⟩
    exact fun heq => hgone (heq ▸ hold)
  intro v hv
  have hput : o.Partway old new (v.put (Text.split '/' e.path) none) :=
    hv.put (.inr (.inl ⟨rfl, hne⟩))
  rw [Act.leaving]
  cases e.kind with
  | file => exact ⟨hv, fun _ => hput⟩
  | directory =>
      refine ⟨hv, fun _ => ?_⟩
      rw [Act.result]
      split
      · exact hput
      · exact hv

section

variable (hr : o.Regular) (hm : new.Named) (h : o.Mergeable new)

include hr hm h

/-- A file that is put has its content, below directories of the tree. -/
theorem keeps_write (hk : kindAt? (o.merged new) path = some .file) (hp : o.Puts old new path)
    {content : ByteArray} (hc : o.content? new (o.overlay new) path = some content) :
    (Act.write (Text.split '/' path) content).Keeps (o.Partway old new) := by
  intro v hv
  have hfill : o.Partway old new (v.fill (Text.split '/' path).dropLast) :=
    hv.fill fun dir hdir => directory_of_below hr hm h (below_iff_prefix_dropLast.mpr hdir) hk
  refine ⟨hfill, fun _ => hfill.put (.inr (.inr ⟨?_, .inl hp⟩))⟩
  rw [tree_of_file hk, hc]
  rfl

theorem keeps_make (hk : kindAt? (o.merged new) path = some .directory) :
    (Act.make (Text.split '/' path)).Keeps (o.Partway old new) := by
  refine fun v hv => ⟨hv, fun _ => hv.fill fun dir hdir => ?_⟩
  rcases below_or_eq_iff_prefix_split.mpr hdir with rfl | hb
  · exact hk
  · exact directory_of_below hr hm h hb hk

theorem keeps_entering {e : Entry} {a : Act} (he : entryAt? (o.merged new) e.path = some e)
    (harrives : (Patch.arrival? (o.merged old) e).isSome) (ha : o.entering? new e = some a) :
    a.Keeps (o.Partway old new) := by
  have hkind := kindAt?_eq_some_iff.mpr ⟨e, he, rfl⟩
  rcases entering?_cases ha with ⟨hk, content, hc, rfl⟩ | ⟨hk, rfl⟩
  · exact keeps_write hr hm h (hkind.trans (congrArg some hk)) (.inl ⟨e, he, harrives⟩) hc
  · exact keeps_make hr hm h (hkind.trans (congrArg some hk))

/-- Making a target anew writes a file of the tree, or removes what is neither a file of it nor, if
it can be removed, a directory all along. -/
theorem keeps_renewal {target : String} (ht : target ∈ o.left old new) {a : Act}
    (ha : o.renewal? new (o.overlay new) target = some a) : a.Keeps (o.Partway old new) := by
  by_cases hk : kindAt? (o.merged new) target = some .file
  · rw [renewal?_of_file hm h ht hk, Option.map_eq_some_iff] at ha
    obtain ⟨content, hc, rfl⟩ := ha
    exact keeps_write hr hm h hk (.inr ⟨ht, hk⟩) hc
  · rw [renewal?_of_not_file hr hm h ht hk, Option.some.injEq] at ha
    subst ha
    refine fun v hv => ⟨hv, fun hpossible => hv.put ?_⟩
    by_cases hsame : kindAt? (o.merged old) target = kindAt? (o.merged new) target
    · cases hnew : kindAt? (o.merged new) target with
      | none => exact .inl (tree_of_none (hsame.trans hnew)).symm
      | some kind =>
          cases kind with
          | file => exact absurd hnew hk
          | directory => exact absurd (hv.dir (hsame.trans hnew) hnew) hpossible
    · exact .inr (.inl ⟨rfl, hsame⟩)

theorem keeps_act {op : PatchOp} (hop : op ∈ o.builtPatch old new) {a : Act}
    (ha : o.act? new (o.overlay new) op = some a) : a.Keeps (o.Partway old new) := by
  rcases (Patch.mem_between ascending_merged ascending_merged).mp hop with
    ⟨e, he, hgone, rfl⟩ | ⟨e, he, harrives⟩
  · rw [act?_removal, Option.some.injEq] at ha
    exact ha ▸ keeps_leaving he (Patch.isGone_iff.mp hgone)
  · rw [act?_arrival harrives] at ha
    exact keeps_entering hr hm h (ascending_merged.entryAt?_eq_some_iff.mpr ⟨he, rfl⟩)
      (by rw [harrives]; rfl) ha

end

end MergeOptions

/-! ## Builds that stop -/

namespace Merger

open MergeOptions

/-- The file system after a build that stopped: after some of the changes of the build output, or,
when all of these were carried over, after some of the targets that are left. The step that it
stopped at may have failed. -/
inductive Stopped (o : MergeOptions) (old m : Memory) : Memory → Prop where
  | changes (count : Nat) : Stopped o old m
      (outcome (summed ((after o old).apply (o.overlay m)) ((o.builtPatch old m).take count))
        (m.addDir o.outputDir)).2
  | targets (count : Nat) {s : MergeSummary} {m₁ : Memory}
      (h : outcome (summed ((after o old).apply (o.overlay m)) (o.builtPatch old m))
        (m.addDir o.outputDir) = (.ok s, m₁)) : Stopped o old m
      (outcome (summed (after o old).regenerate ((o.left old m).take count)) m₁).2

variable {o : MergeOptions} {old m m' : Memory}

/-- A build that fails has stopped. -/
theorem stopped_of_error (hm : m.Named) {e : MergeError}
    (ho : outcome (after o old).build m = (.error e, m')) : Stopped o old m m' := by
  rw [outcome_build hm, outcome_bind] at ho
  have hchanges : Stopped o old m _ := .changes (o.builtPatch old m).length
  rw [List.take_length] at hchanges
  split at ho
  · rename_i s m₁ hfirst
    have htargets := Stopped.targets (o.left old m).length hfirst
    rw [List.take_length] at htargets
    rw [outcome_bind] at ho
    split at ho
    · exact absurd (Prod.mk.inj ho).1 nofun
    · rename_i e' m₂ hsecond
      rw [hsecond] at htargets
      exact (Prod.mk.inj ho).2 ▸ htargets
  · rename_i e' m₁ hfirst
    rw [hfirst] at hchanges
    exact (Prod.mk.inj ho).2 ▸ hchanges

/-- From the tree of the inputs that were taken over, a build stops partway to the new tree. -/
theorem Stopped.partway (hr : o.Regular) (hold : old.Named) (hm : m.Named) (h : o.Mergeable m)
    (hd : m.node? o.outputDir.resolved = some .dir) (hs : Stopped o old m m')
    (htree : ∀ path, m.view o.outputDir.resolved (Text.split '/' path) =
      o.tree old (Text.split '/' path)) :
    Within o.outputDir.resolved m m' ∧ o.Partway old m (m'.view o.outputDir.resolved) := by
  have hstart : Within o.outputDir.resolved m (m.addDir o.outputDir) ∧
      o.Partway old m ((m.addDir o.outputDir).view o.outputDir.resolved) := by
    refine ⟨.addDir_root o.outputDir m, fun path => .inl ?_⟩
    rw [view_addDir_root hd, htree path]
  have hchanges : ∀ ops ⊆ o.builtPatch old m,
      Keeps (Holds o.outputDir.resolved m (o.Partway old m))
        (summed ((after o old).apply (o.overlay m)) ops) := by
    refine fun ops hops => keeps_summed (r := Holds o.outputDir.resolved m (o.Partway old m))
      (fun _ => id) (fun hab hbc => hbc ∘ hab) fun op hop => ?_
    exact keeps_of_enacts (keeps_builtPatch hr hold hm op (hops hop))
      (fun m₁ => enacts_builtPatch hr hold hm h (hops hop))
      fun a => keeps_act hr hm h (hops hop)
  have htargets : ∀ targets ⊆ o.left old m,
      Keeps (Holds o.outputDir.resolved m (o.Partway old m))
        (summed (after o old).regenerate targets) := by
    refine fun targets hts => keeps_summed (r := Holds o.outputDir.resolved m (o.Partway old m))
      (fun _ => id) (fun hab hbc => hbc ∘ hab) fun t ht => ?_
    exact keeps_of_enacts (keeps_left hr t (hts ht)) (fun m₁ => enacts_left hr hm (hts ht))
      fun a => keeps_renewal hr hm h (hts ht)
  cases hs with
  | changes count => exact hchanges _ (List.take_subset _ _) _ hstart
  | targets count hfirst =>
      have hmiddle := hchanges _ (List.Subset.refl _) _ hstart
      rw [hfirst] at hmiddle
      exact htargets _ (List.take_subset _ _) _ hmiddle

end Merger

end VendorBundle
