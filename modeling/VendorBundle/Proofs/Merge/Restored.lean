import VendorBundle.Proofs.Merge.Result

/-!
# When a build leads to the tree it is to lead to

A build that succeeds ends in the tree of its inputs exactly when each path is restored: it is put
or removed by the build, or the result held what it was to hold all along.
-/

namespace VendorBundle

open Entry Memory

namespace MergeOptions

variable (o : MergeOptions) (old new : Memory) (v : View)

/-- A build brings a path to what it is to be, given what the result held there before. -/
def Restores (path : String) : Prop :=
  match kindAt? (o.merged new) path with
  | some .file =>
      o.Puts old new path ∨ v (Text.split '/' path) = o.tree new (Text.split '/' path)
  | some .directory =>
      kindAt? (o.merged old) path = some .file ∨
      v (Text.split '/' path) = some .dir ∨
      v (Text.split '/' path) = none ∧ (∃ x, o.Puts old new x ∧ (path = x ∨ Below path x)) ∨
      path ∈ o.left old new ∧
        ∃ x ∈ o.left old new, kindAt? (o.merged new) x = some .file ∧ Below path x
  | none =>
      kindAt? (o.merged old) path = some .file ∨
      path ∈ o.left old new ∨
      v (Text.split '/' path) = none ∨
      v (Text.split '/' path) = some .dir ∧ kindAt? (o.merged old) path = some .directory

variable {o old new v}

/-! ## The tree of the inputs -/

theorem tree_of_file {path : String} (hk : kindAt? (o.merged new) path = some .file) :
    o.tree new (Text.split '/' path) = (o.content? new (o.overlay new) path).map .file := by
  obtain ⟨e, he, hf⟩ := kindAt?_eq_some_iff.mp hk
  simp [tree, pathText_split, he, hf]

theorem tree_of_directory {path : String} (hk : kindAt? (o.merged new) path = some .directory) :
    o.tree new (Text.split '/' path) = some .dir := by
  obtain ⟨e, he, hd⟩ := kindAt?_eq_some_iff.mp hk
  simp [tree, pathText_split, he, hd]

theorem tree_of_none {path : String} (hk : kindAt? (o.merged new) path = none) :
    o.tree new (Text.split '/' path) = none := by
  simp [tree, pathText_split, kindAt?_eq_none_iff.mp hk]

theorem tree_ne_file {path : String} (hk : kindAt? (o.merged new) path ≠ some .file)
    (content : ByteArray) : o.tree new (Text.split '/' path) ≠ some (.file content) := by
  cases hkind : kindAt? (o.merged new) path with
  | none => simp [tree_of_none hkind]
  | some kind =>
      cases kind with
      | file => exact absurd hkind hk
      | directory => simp [tree_of_directory hkind]

/-! ## Stages of a build -/

/-- The acts that put what is new replace a path only when its entry is a file that arrives. -/
theorem arriving_at {v₁ v₂ : View} (hruns : Runs v₁ (o.arriving old new) v₂) {path : String}
    (hp : kindAt? (o.merged new) path = some .file → ¬ o.Arrives old new path) :
    v₂ (Text.split '/' path) =
      (v₁ (Text.split '/' path)).or (opened (Text.split '/' path) (o.arriving old new)) := by
  refine hruns.of_not_replaces fun a ha => ?_
  by_contra hne
  obtain ⟨x, e, he, harrives, hentering⟩ := mem_arriving.mp ha
  have hplace := (entering?_place hentering).symm.trans
    (Act.place_of_replaces (by simpa using hne))
  obtain rfl := Text.split_injective hplace
  obtain rfl := entryAt?_path he
  rcases entering?_cases hentering with ⟨hk, -⟩ | ⟨-, rfl⟩
  · exact hp (kindAt?_eq_some_iff.mpr ⟨e, he, hk⟩) ⟨e, he, harrives⟩
  · exact hne rfl

/-- What is at a directory of the listing when the targets that are left are made anew. -/
theorem filled_at {v₁ v₂ : View} (h₁ : Runs v (o.removing old new) v₁)
    (h₂ : Runs v₁ (o.arriving old new) v₂)
    (hputs : ∀ e ∈ o.merged new, (Patch.arrival? (o.merged old) e).isSome →
      (o.entering? new e).isSome) {path : String}
    (hk : kindAt? (o.merged new) path = some .directory) : v₂ (Text.split '/' path) =
      if kindAt? (o.merged old) path = some .file then some .dir
      else (v (Text.split '/' path)).or (opened (Text.split '/' path) (o.arriving old new)) := by
  rw [arriving_at h₂ fun hf => by simp [hk] at hf, removing_at h₁ path, hk, spared_directory]
  split
  · rename_i hold
    rw [(opened_arriving hputs).mpr ⟨path, arrives_of_kind_ne hk (by simp [hold]), .inl ⟨rfl, hk⟩⟩]
    rfl
  · rfl

theorem arriving_at_file {v₁ v₂ : View} (hruns : Runs v₁ (o.arriving old new) v₂)
    (hputs : ∀ e ∈ o.merged new, (Patch.arrival? (o.merged old) e).isSome →
      (o.entering? new e).isSome) {path : String}
    (hk : kindAt? (o.merged new) path = some .file) (hp : o.Arrives old new path) :
    ∃ content, o.content? new (o.overlay new) path = some content ∧
      v₂ (Text.split '/' path) = some (.file content) := by
  obtain ⟨e, he, harrives⟩ := hp
  obtain ⟨a, ha⟩ := Option.isSome_iff_exists.mp (hputs e (entryAt?_mem he) harrives)
  have hf : e.kind = .file := by
    rw [kindAt?, he] at hk
    exact Option.some.inj hk
  have hact := ha
  simp only [entering?, hf, Option.map_eq_some_iff] at hact
  obtain ⟨content, hcontent, rfl⟩ := hact
  rw [entryAt?_path he] at ha hcontent
  refine ⟨content, hcontent, hruns.of_write (mem_arriving.mpr ⟨path, e, he, harrives, ?_⟩) ?_⟩
  · simp [entering?, hf, entryAt?_path he, hcontent]
  · intro b hb hreplaces
    obtain ⟨x, e', he', -, hentering⟩ := mem_arriving.mp hb
    have hplace := (entering?_place hentering).symm.trans (Act.place_of_replaces hreplaces)
    have hpath := Text.split_injective hplace
    rw [entryAt?_path he'] at hpath
    subst hpath
    obtain rfl := Option.some.inj (he.symm.trans he')
    simpa [entering?, hf, entryAt?_path he, hcontent, eq_comm] using hentering

section

variable (hr : o.Regular) (hm : new.Named) (h : o.Mergeable new)

include hr hm h

/-- Targets that are left replace nothing but themselves. -/
theorem renewing_at {v₁ v₂ : View} (hruns : Runs v₁ (o.renewing old new) v₂) {path : String}
    (hp : path ∉ o.left old new) : v₂ (Text.split '/' path) =
      (v₁ (Text.split '/' path)).or (opened (Text.split '/' path) (o.renewing old new)) := by
  refine hruns.of_not_replaces fun a ha => ?_
  by_contra hne
  obtain ⟨target, ht, hact⟩ := mem_renewing.mp ha
  have hplace := (renewal?_place hr hm h ht hact).symm.trans
    (Act.place_of_replaces (by simpa using hne))
  exact hp (Text.split_injective hplace ▸ ht)

theorem renewing_at_file {v₁ v₂ : View} (hruns : Runs v₁ (o.renewing old new) v₂)
    (hrenews : ∀ target ∈ o.left old new, (o.renewal? new (o.overlay new) target).isSome)
    {path : String} (hk : kindAt? (o.merged new) path = some .file) (hp : path ∈ o.left old new) :
    ∃ content, o.content? new (o.overlay new) path = some content ∧
      v₂ (Text.split '/' path) = some (.file content) := by
  obtain ⟨a, ha⟩ := Option.isSome_iff_exists.mp (hrenews path hp)
  have hact := ha
  rw [renewal?_of_file hm h hp hk, Option.map_eq_some_iff] at hact
  obtain ⟨content, hcontent, rfl⟩ := hact
  refine ⟨content, hcontent, hruns.of_write (mem_renewing.mpr ⟨path, hp, ha⟩) ?_⟩
  intro b hb hreplaces
  obtain ⟨target, ht, hbact⟩ := mem_renewing.mp hb
  have hplace := (renewal?_place hr hm h ht hbact).symm.trans (Act.place_of_replaces hreplaces)
  obtain rfl := Text.split_injective hplace
  exact (Option.some.inj (ha.symm.trans hbact)).symm

theorem renewing_at_other {v₁ v₂ : View} (hruns : Runs v₁ (o.renewing old new) v₂)
    {path : String} (hk : kindAt? (o.merged new) path ≠ some .file) (hp : path ∈ o.left old new) :
    v₁ (Text.split '/' path) ≠ some .dir ∧
      v₂ (Text.split '/' path) = opened (Text.split '/' path) (o.renewing old new) :=
  hruns.of_drop_of_pairwise (pairwise_renewing hr hm h)
    (mem_renewing.mpr ⟨path, hp, renewal?_of_not_file hr hm h hp hk⟩)

/-! ## The result -/

variable {w : View} (hc : o.Carries old new v w) {path : String}

theorem opened_arriving_of_ne (hk : kindAt? (o.merged new) path ≠ some .directory) :
    opened (Text.split '/' path) (o.arriving old new) = none := by
  rw [opened_eq_none_iff]
  intro hopened
  obtain ⟨a, ha, hfills⟩ := opened_eq_some_iff.mp hopened
  obtain ⟨x, e, he, -, hentering⟩ := mem_arriving.mp ha
  obtain rfl := entryAt?_path he
  have hkind : kindAt? (o.merged new) e.path = some e.kind := kindAt?_eq_some_iff.mpr ⟨e, he, rfl⟩
  rcases (fills_entering? hentering).mp hfills with ⟨rfl, hd⟩ | hb
  · exact hk (hd ▸ hkind)
  · exact hk (directory_of_below hr hm h hb hkind)

theorem opened_renewing_of_ne (hrenews : ∀ target ∈ o.left old new,
    (o.renewal? new (o.overlay new) target).isSome)
    (hk : kindAt? (o.merged new) path ≠ some .directory) :
    opened (Text.split '/' path) (o.renewing old new) = none := by
  rw [opened_eq_none_iff, ne_eq, opened_renewing hr hm h hrenews]
  rintro ⟨x, -, hx, hb⟩
  exact hk (directory_of_below hr hm h hb hx)

include hc

/-- A file that a build puts has its content. -/
theorem Carries.at_put (hk : kindAt? (o.merged new) path = some .file)
    (hp : o.Puts old new path) : w (Text.split '/' path) = o.tree new (Text.split '/' path) := by
  obtain ⟨hputs, hrenews, v₁, v₂, h₁, h₂, h₃⟩ := hc
  rw [tree_of_file hk]
  by_cases hl : path ∈ o.left old new
  · obtain ⟨content, hcontent, hw⟩ := renewing_at_file hr hm h h₃ hrenews hk hl
    rw [hw, hcontent]
    rfl
  · have ha := hp.resolve_right fun hleft => hl hleft.1
    obtain ⟨content, hcontent, hv₂⟩ := arriving_at_file h₂ hputs hk ha
    rw [renewing_at hr hm h h₃ hl, hv₂, hcontent]
    rfl

/-- Any other file is what it was. -/
theorem Carries.at_kept (hk : kindAt? (o.merged new) path = some .file)
    (hp : ¬ o.Puts old new path) : w (Text.split '/' path) = v (Text.split '/' path) := by
  have hne : kindAt? (o.merged new) path ≠ some .directory := by simp [hk]
  have hrenewing := opened_renewing_of_ne hr hm h hc.renews hne
  have harriving : opened (Text.split '/' path) (o.arriving old new) = none :=
    opened_arriving_of_ne hr hm h hne
  obtain ⟨hputs, hrenews, v₁, v₂, h₁, h₂, h₃⟩ := hc
  have hnot : ¬ o.Arrives old new path := fun ha => hp (.inl ha)
  have hold : kindAt? (o.merged old) path = some .file := by
    by_contra hne
    exact hnot (arrives_of_kind_ne hk hne)
  rw [renewing_at hr hm h h₃ fun hl => hp (.inr ⟨hl, hk⟩), hrenewing, Option.or_none,
    arriving_at h₂ fun _ => hnot, harriving, Option.or_none, removing_at h₁, hk, hold]
  rfl

theorem Carries.at_none (hk : kindAt? (o.merged new) path = none) :
    w (Text.split '/' path) = none ↔ path ∈ o.left old new ∨
      spared (kindAt? (o.merged old) path) none (v (Text.split '/' path)) = none := by
  have hne : kindAt? (o.merged new) path ≠ some .directory := by simp [hk]
  have hrenewing := opened_renewing_of_ne hr hm h hc.renews hne
  have harriving : opened (Text.split '/' path) (o.arriving old new) = none :=
    opened_arriving_of_ne hr hm h hne
  obtain ⟨hputs, hrenews, v₁, v₂, h₁, h₂, h₃⟩ := hc
  by_cases hl : path ∈ o.left old new
  · rw [(renewing_at_other hr hm h h₃ (by simp [hk]) hl).2, hrenewing]
    simp [hl]
  · rw [renewing_at hr hm h h₃ hl, hrenewing, Option.or_none,
      arriving_at h₂ (fun hf => by simp [hk] at hf), harriving, Option.or_none, removing_at h₁, hk]
    simp [hl]

/-- A path is put or has a path below it that is put exactly when something makes a directory of
it. -/
theorem puts_below_iff (hk : kindAt? (o.merged new) path = some .directory) :
    (∃ x, o.Puts old new x ∧ (path = x ∨ Below path x)) ↔
      opened (Text.split '/' path) (o.arriving old new) = some .dir ∨
        opened (Text.split '/' path) (o.renewing old new) = some .dir := by
  rw [opened_arriving hc.puts, opened_renewing hr hm h hc.renews]
  constructor
  · rintro ⟨x, ha | ⟨hl, hf⟩, hx⟩
    · exact .inl ⟨x, ha, hx.imp_left fun hp => ⟨hp, hp ▸ hk⟩⟩
    · refine .inr ⟨x, hl, hf, hx.resolve_left ?_⟩
      rintro rfl
      simp [hk] at hf
  · rintro (⟨x, ha, hx⟩ | ⟨x, hl, hf, hb⟩)
    · exact ⟨x, .inl ha, hx.imp_left fun hp => hp.1⟩
    · exact ⟨x, .inr ⟨hl, hf⟩, .inr hb⟩

theorem Carries.at_directory (hk : kindAt? (o.merged new) path = some .directory) :
    w (Text.split '/' path) = some .dir ↔ o.Restores old new v path := by
  have hbelow := puts_below_iff hr hm h hc hk
  have hrenewing : opened (Text.split '/' path) (o.renewing old new) = some .dir ↔ _ :=
    opened_renewing hr hm h hc.renews
  obtain ⟨hputs, hrenews, v₁, v₂, h₁, h₂, h₃⟩ := hc
  have hfilled := filled_at h₁ h₂ hputs hk
  simp only [Restores, hk, hbelow, ← hrenewing]
  by_cases hl : path ∈ o.left old new
  · obtain ⟨hne, hw⟩ := renewing_at_other hr hm h h₃ (by simp [hk]) hl
    rw [hw]
    refine ⟨fun hb => .inr (.inr (.inr ⟨hl, hb⟩)), ?_⟩
    rintro (hold | hv | ⟨hv, ha | hb⟩ | ⟨-, hb⟩)
    · exact absurd (by rw [hfilled, if_pos hold]) hne
    · exact absurd (by rw [hfilled, hv]; split <;> rfl) hne
    · exact absurd (by rw [hfilled, hv, ha]; split <;> rfl) hne
    · exact hb
    · exact hb
  · rw [renewing_at hr hm h h₃ hl, hfilled]
    by_cases hold : kindAt? (o.merged old) path = some .file
    · simp [hold]
    · rw [if_neg hold]
      match v (Text.split '/' path) with
      | none =>
          rcases opened_eq_or (Text.split '/' path) (o.arriving old new) with ha | ha <;>
            simp [hold, hl, ha]
      | some .dir => simp
      | some (.file content) => simp [hold, hl]

/-- A build that succeeds ends in the tree of its inputs exactly when it restores every path. -/
theorem Carries.eq_tree_iff (path : String) :
    w (Text.split '/' path) = o.tree new (Text.split '/' path) ↔ o.Restores old new v path := by
  cases hk : kindAt? (o.merged new) path with
  | none =>
      rw [tree_of_none hk, hc.at_none hr hm h hk, spared]
      simp only [Restores, hk]
      cases kindAt? (o.merged old) path with
      | none => simp
      | some kind =>
          cases kind with
          | file => simp
          | directory => by_cases hd : v (Text.split '/' path) = some .dir <;> simp [hd]
  | some kind =>
      cases kind with
      | directory => rw [tree_of_directory hk, hc.at_directory hr hm h hk]
      | file =>
          simp only [Restores, hk]
          by_cases hp : o.Puts old new path
          · simp [hp, hc.at_put hr hm h hk hp]
          · simp [hp, hc.at_kept hr hm h hk hp]

end

end MergeOptions

end VendorBundle
