import VendorBundle.Proofs.Merge.Outcome

/-!
# What a successful build leaves, path by path

At each path the result of a build is settled by the kinds of its entries before and after, by
whether the build puts it, and, where it does not, by what the result held before.
-/

namespace VendorBundle

open Entry Memory

theorem Patch.arrival?_of_kind_ne {olds : List Entry} {e : Entry}
    (h : kindAt? olds e.path ≠ some e.kind) : (arrival? olds e).isSome := by
  rw [Option.isSome_iff_ne_none]
  intro hnone
  obtain ⟨old, hold, hk, -⟩ := arrival?_eq_none_iff.mp hnone
  exact h (kindAt?_eq_some_iff.mpr ⟨old, hold, hk⟩)

namespace MergeOptions

variable (o : MergeOptions) (old new : Memory)

/-! ## What is put -/

/-- The entry of a path arrives. -/
def Arrives (path : String) : Prop :=
  ∃ e, entryAt? (o.merged new) path = some e ∧ (Patch.arrival? (o.merged old) e).isSome

/-- A build puts a path into the result: its entry arrives, or it is a file left to make anew. -/
def Puts (path : String) : Prop :=
  o.Arrives old new path ∨
    path ∈ o.left old new ∧ kindAt? (o.merged new) path = some .file

variable {o old new}

theorem arrives_of_kind_ne {path : String} {kind : EntryKind}
    (hk : kindAt? (o.merged new) path = some kind)
    (hne : kindAt? (o.merged old) path ≠ some kind) : o.Arrives old new path := by
  obtain ⟨e, he, rfl⟩ := kindAt?_eq_some_iff.mp hk
  exact ⟨e, he, Patch.arrival?_of_kind_ne (entryAt?_path he ▸ hne)⟩

/-! ## Which acts there are -/

theorem mem_removing {a : Act} : a ∈ o.removing old new ↔ ∃ e ∈ o.merged old,
    kindAt? (o.merged new) e.path ≠ some e.kind ∧ a = Act.leaving e := by
  simp only [removing, List.mem_reverse, List.mem_map, List.mem_filter, Patch.isGone_iff,
    and_assoc, eq_comm (a := a)]

theorem leaving_mem_removing {e : Entry} : Act.leaving e ∈ o.removing old new ↔
    kindAt? (o.merged old) e.path = some e.kind ∧
      kindAt? (o.merged new) e.path ≠ some e.kind := by
  rw [mem_removing, kindAt?_eq_some_iff]
  constructor
  · rintro ⟨x, hx, hne, hact⟩
    obtain ⟨hp, hk⟩ := Act.leaving_eq_leaving_iff.mp hact
    rw [hp, hk]
    exact ⟨⟨x, ascending_merged.entryAt?_eq_some_iff.mpr ⟨hx, rfl⟩, rfl⟩, hne⟩
  · rintro ⟨⟨x, hx, hk⟩, hne⟩
    have hp := entryAt?_path hx
    exact ⟨x, entryAt?_mem hx, by rwa [hp, hk],
      Act.leaving_eq_leaving_iff.mpr ⟨hp.symm, hk.symm⟩⟩

theorem drop_mem_removing {path : String} :
    .drop (Text.split '/' path) ∈ o.removing old new ↔
      kindAt? (o.merged old) path = some .file ∧ kindAt? (o.merged new) path ≠ some .file :=
  leaving_mem_removing (e := .file path .directory)

theorem clear_mem_removing {path : String} :
    .clear (Text.split '/' path) ∈ o.removing old new ↔
      kindAt? (o.merged old) path = some .directory ∧
        kindAt? (o.merged new) path ≠ some .directory :=
  leaving_mem_removing (e := .dir path)

theorem isRemoval_of_mem_removing : ∀ a ∈ o.removing old new, a.isRemoval = true := by
  intro a ha
  obtain ⟨e, -, -, rfl⟩ := mem_removing.mp ha
  exact Act.isRemoval_leaving e

/-- What is below a path that goes has gone before. -/
theorem pairwise_removing : (o.removing old new).Pairwise fun a b => ¬ a.place <+: b.place := by
  rw [removing, List.pairwise_reverse, List.pairwise_map]
  refine (ascending_merged.filter _).imp fun hlt hpre => ?_
  rw [Act.place_leaving, Act.place_leaving] at hpre
  rcases below_or_eq_iff_prefix_split.mpr hpre with he | hb
  · simp [he] at hlt
  · rw [Std.OrientedCmp.gt_of_lt hb.lt] at hlt
    simp at hlt

theorem mem_arriving {a : Act} : a ∈ o.arriving old new ↔ ∃ path e,
    entryAt? (o.merged new) path = some e ∧ (Patch.arrival? (o.merged old) e).isSome ∧
      o.entering? new e = some a := by
  simp only [arriving, List.mem_filterMap, Option.bind_eq_some_iff, Option.isSome_iff_exists]
  constructor
  · rintro ⟨e, he, op, hop, ha⟩
    exact ⟨e.path, e, ascending_merged.entryAt?_eq_some_iff.mpr ⟨he, rfl⟩, ⟨op, hop⟩, ha⟩
  · rintro ⟨path, e, he, ⟨op, hop⟩, ha⟩
    exact ⟨e, entryAt?_mem he, op, hop, ha⟩

theorem mem_renewing {a : Act} : a ∈ o.renewing old new ↔
    ∃ target ∈ o.left old new, o.renewal? new (o.overlay new) target = some a := by
  simp only [renewing, List.mem_filterMap]

/-! ## What the removals leave -/

/-- What the removals leave of what a path holds. -/
def spared (before after : Option EntryKind) (item : Option Item) : Option Item :=
  if before = some .file ∧ after ≠ some .file then none
  else if before = some .directory ∧ after ≠ some .directory ∧ item = some .dir then none
  else item

theorem spared_directory (before : Option EntryKind) (item : Option Item) :
    spared before (some .directory) item = if before = some .file then none else item := by
  simp [spared]

theorem removing_at {v v₁ : View} (h : Runs v (o.removing old new) v₁) (path : String) :
    v₁ (Text.split '/' path) = spared (kindAt? (o.merged old) path) (kindAt? (o.merged new) path)
      (v (Text.split '/' path)) := by
  rw [spared]
  by_cases hd : .drop (Text.split '/' path) ∈ o.removing old new
  · rw [h.of_drop isRemoval_of_mem_removing hd, if_pos (drop_mem_removing.mp hd)]
  · rw [if_neg fun hk => hd (drop_mem_removing.mpr hk)]
    by_cases hc : .clear (Text.split '/' path) ∈ o.removing old new
    · obtain ⟨hold, hnew⟩ := clear_mem_removing.mp hc
      rw [h.of_clear isRemoval_of_mem_removing hd hc]
      simp only [hold, hnew, ne_eq, not_false_eq_true, true_and]
    · rw [h.of_removals isRemoval_of_mem_removing hd hc,
        if_neg fun hk => hc (clear_mem_removing.mpr ⟨hk.1, hk.2.1⟩)]

/-! ## What is made below a path -/

theorem opened_eq_some_iff {q : Place} {acts : List Act} :
    opened q acts = some .dir ↔ ∃ a ∈ acts, a.fills q = true := by
  rw [opened]
  simp

theorem opened_eq_or (q : Place) (acts : List Act) :
    opened q acts = none ∨ opened q acts = some .dir := by
  rw [opened]
  split <;> simp

theorem opened_eq_none_iff {q : Place} {acts : List Act} :
    opened q acts = none ↔ opened q acts ≠ some .dir := by
  rw [opened]
  split <;> simp

/-- What puts an entry writes a file with its content, or makes a directory. -/
theorem entering?_cases {e : Entry} {a : Act} (h : o.entering? new e = some a) :
    (e.kind = .file ∧ ∃ content, o.content? new (o.overlay new) e.path = some content ∧
      a = .write (Text.split '/' e.path) content) ∨
    e.kind = .directory ∧ a = .make (Text.split '/' e.path) := by
  cases hk : e.kind with
  | file =>
      simp only [entering?, hk, Option.map_eq_some_iff] at h
      obtain ⟨content, hc, rfl⟩ := h
      exact .inl ⟨rfl, content, hc, rfl⟩
  | directory =>
      simp only [entering?, hk, Option.some.injEq] at h
      exact .inr ⟨rfl, h.symm⟩

theorem entering?_place {e : Entry} {a : Act} (h : o.entering? new e = some a) :
    a.place = Text.split '/' e.path := by
  rcases entering?_cases h with ⟨-, content, -, rfl⟩ | ⟨-, rfl⟩
  · rfl
  · rfl

theorem entering?_isRemoval {e : Entry} {a : Act} (h : o.entering? new e = some a) :
    a.isRemoval = false := by
  rcases entering?_cases h with ⟨-, content, -, rfl⟩ | ⟨-, rfl⟩
  · rfl
  · rfl

theorem fills_entering? {e : Entry} {a : Act} (h : o.entering? new e = some a) {path : String} :
    a.fills (Text.split '/' path) = true ↔
      path = e.path ∧ e.kind = .directory ∨ Below path e.path := by
  rcases entering?_cases h with ⟨hk, content, -, rfl⟩ | ⟨hk, rfl⟩
  · simp [Act.fills, hk, below_iff_prefix_dropLast]
  · simp [Act.fills, hk, below_or_eq_iff_prefix_split]

theorem opened_arriving (hputs : ∀ e ∈ o.merged new, (Patch.arrival? (o.merged old) e).isSome →
    (o.entering? new e).isSome) {path : String} :
    opened (Text.split '/' path) (o.arriving old new) = some .dir ↔
      ∃ x, o.Arrives old new x ∧
        (path = x ∧ kindAt? (o.merged new) x = some .directory ∨ Below path x) := by
  rw [opened_eq_some_iff]
  constructor
  · rintro ⟨a, ha, hfills⟩
    obtain ⟨x, e, he, harrives, hentering⟩ := mem_arriving.mp ha
    obtain rfl := entryAt?_path he
    refine ⟨e.path, ⟨e, he, harrives⟩, ?_⟩
    exact ((fills_entering? hentering).mp hfills).imp_left fun ⟨hp, hk⟩ =>
      ⟨hp, kindAt?_eq_some_iff.mpr ⟨e, he, hk⟩⟩
  · rintro ⟨x, ⟨e, he, harrives⟩, hx⟩
    obtain ⟨a, ha⟩ := Option.isSome_iff_exists.mp (hputs e (entryAt?_mem he) harrives)
    obtain rfl := entryAt?_path he
    refine ⟨a, mem_arriving.mpr ⟨e.path, e, he, harrives, ha⟩, (fills_entering? ha).mpr ?_⟩
    refine hx.imp_left fun ⟨hp, hd⟩ => ⟨hp, ?_⟩
    rw [kindAt?, he] at hd
    exact Option.some.inj hd

/-- Only a directory of the listing has listed paths below it. -/
theorem directory_of_below (hr : o.Regular) (hm : new.Named) (h : o.Mergeable new)
    {dir path : String} (hb : Below dir path) {kind : EntryKind}
    (hk : kindAt? (o.merged new) path = some kind) :
    kindAt? (o.merged new) dir = some .directory := by
  obtain ⟨e, he, -⟩ := kindAt?_eq_some_iff.mp hk
  obtain ⟨d, hd, rfl, hkd⟩ := (isTree_merged hr hm h).directory_of_below (entryAt?_mem he)
    (entryAt?_path he ▸ hb)
  exact kindAt?_eq_some_iff.mpr ⟨d, ascending_merged.entryAt?_eq_some_iff.mpr ⟨hd, rfl⟩, hkd⟩

section

variable (hr : o.Regular) (hm : new.Named) (h : o.Mergeable new)

include hr hm h

omit hr in
theorem renewal?_of_file {target : String} (ht : target ∈ o.left old new)
    (hk : kindAt? (o.merged new) target = some .file) :
    o.renewal? new (o.overlay new) target =
      (o.content? new (o.overlay new) target).map (.write (Text.split '/' target)) := by
  obtain ⟨e, he, hf⟩ := kindAt?_eq_some_iff.mp hk
  obtain ⟨content, hb⟩ := bytes?_of_target hm h (contains_of_mem_left ht) he hf
  rw [renewal?, hb]

theorem renewal?_of_not_file {target : String} (ht : target ∈ o.left old new)
    (hk : kindAt? (o.merged new) target ≠ some .file) :
    o.renewal? new (o.overlay new) target = some (.drop (Text.split '/' target)) := by
  rw [renewal?]
  cases hb : new.bytes? (o.builtDir.resolved ++ Text.split '/' target) with
  | none => rfl
  | some content =>
      obtain ⟨e, he, hf⟩ := file_of_target hr hm h (contains_of_mem_left ht) hb
      exact absurd (kindAt?_eq_some_iff.mpr ⟨e, he, hf⟩) hk

theorem renewal?_place {target : String} (ht : target ∈ o.left old new) {a : Act}
    (ha : o.renewal? new (o.overlay new) target = some a) :
    a.place = Text.split '/' target := by
  by_cases hk : kindAt? (o.merged new) target = some .file
  · rw [renewal?_of_file hm h ht hk, Option.map_eq_some_iff] at ha
    obtain ⟨content, -, rfl⟩ := ha
    rfl
  · rw [renewal?_of_not_file hr hm h ht hk, Option.some.injEq] at ha
    exact ha ▸ rfl

/-- Making targets anew makes a directory of a path when one of their files is below it. -/
theorem opened_renewing (hrenews : ∀ target ∈ o.left old new,
    (o.renewal? new (o.overlay new) target).isSome) {path : String} :
    opened (Text.split '/' path) (o.renewing old new) = some .dir ↔
      ∃ x ∈ o.left old new, kindAt? (o.merged new) x = some .file ∧ Below path x := by
  rw [opened_eq_some_iff]
  constructor
  · rintro ⟨a, ha, hfills⟩
    obtain ⟨target, ht, hact⟩ := mem_renewing.mp ha
    by_cases hk : kindAt? (o.merged new) target = some .file
    · rw [renewal?_of_file hm h ht hk, Option.map_eq_some_iff] at hact
      obtain ⟨content, -, rfl⟩ := hact
      exact ⟨target, ht, hk, below_iff_prefix_dropLast.mpr (List.isPrefixOf_iff_prefix.mp hfills)⟩
    · rw [renewal?_of_not_file hr hm h ht hk, Option.some.injEq] at hact
      subst hact
      simp [Act.fills] at hfills
  · rintro ⟨target, ht, hk, hb⟩
    obtain ⟨a, ha⟩ := Option.isSome_iff_exists.mp (hrenews target ht)
    refine ⟨a, mem_renewing.mpr ⟨target, ht, ha⟩, ?_⟩
    rw [renewal?_of_file hm h ht hk, Option.map_eq_some_iff] at ha
    obtain ⟨content, -, rfl⟩ := ha
    exact List.isPrefixOf_iff_prefix.mpr (below_iff_prefix_dropLast.mp hb)

/-- Targets come in ascending order, so a target that is removed goes before anything is made
below it. -/
theorem pairwise_renewing : (o.renewing old new).Pairwise fun a b => ¬ b.place <+: a.place := by
  refine List.pairwise_filterMap.mpr (left_ascending.imp_of_mem ?_)
  intro x y hx hy hlt a ha b hb hpre
  rw [renewal?_place hr hm h hx ha, renewal?_place hr hm h hy hb] at hpre
  rcases below_or_eq_iff_prefix_split.mpr hpre with rfl | hb
  · simp at hlt
  · rw [Std.OrientedCmp.gt_of_lt hb.compare_lt] at hlt
    simp at hlt

end

end MergeOptions

end VendorBundle
