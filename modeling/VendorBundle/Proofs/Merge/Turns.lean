import VendorBundle.Proofs.Merge.Fresh

/-!
# What each change finds when its turn comes

From the tree of the inputs that were taken over, each change of a build finds what it is about.
What is to be removed stands. Where a directory is to be made nothing stands, and the listed
directories above what arrives are there. The targets that are left come last: all listed
directories stand then, and nothing stands where a target is removed that is not listed as a file.
-/

namespace VendorBundle

open Entry Memory

/-- No file comes of making directories. -/
theorem file_of_or_opened {item : Option Item} {q : Place} {acts : List Act} {content : ByteArray}
    (h : item.or (opened q acts) = some (.file content)) : item = some (.file content) := by
  cases item with
  | some item => exact h
  | none =>
      rw [Option.none_or, opened] at h
      split at h <;> cases h

namespace MergeOptions

variable {o : MergeOptions} {old m : Memory}

/-- The removals of the patch, deeper paths first. -/
def removals (o : MergeOptions) (old m : Memory) : Patch :=
  (((o.merged old).filter (Patch.isGone (o.merged m))).map .removal).reverse

/-- What follows the removals. -/
def arrivals (o : MergeOptions) (old m : Memory) : Patch :=
  (o.merged m).filterMap (Patch.arrival? (o.merged old))

theorem builtPatch_eq : o.builtPatch old m = o.removals old m ++ o.arrivals old m :=
  Patch.between_eq ascending_merged ascending_merged

theorem mem_removals {op : PatchOp} : op ∈ o.removals old m ↔
    ∃ e ∈ o.merged old, kindAt? (o.merged m) e.path ≠ some e.kind ∧ op = .removal e := by
  simp only [removals, List.mem_reverse, List.mem_map, List.mem_filter, Patch.isGone_iff, and_assoc,
    eq_comm (a := op)]

theorem mem_arrivals {op : PatchOp} : op ∈ o.arrivals old m ↔
    ∃ e ∈ o.merged m, Patch.arrival? (o.merged old) e = some op := by
  rw [arrivals, List.mem_filterMap]

theorem filterMap_removals :
    (o.removals old m).filterMap (o.act? m (o.overlay m)) = o.removing old m := by
  rw [removals, List.filterMap_reverse, List.filterMap_map, removing, ← List.filterMap_eq_map]
  exact congrArg _ (List.filterMap_congr fun e _ => act?_removal _ e)

theorem filterMap_arrivals :
    (o.arrivals old m).filterMap (o.act? m (o.overlay m)) = o.arriving old m := by
  have hall : (o.builtPatch old m).filterMap (o.act? m (o.overlay m)) =
      o.removing old m ++ o.arriving old m := filterMap_act?_builtPatch
  rw [builtPatch_eq, List.filterMap_append, filterMap_removals] at hall
  exact List.append_cancel_left hall

/-- A change of the patch is a removal or comes after all of them. -/
theorem split_builtPatch {front back : List PatchOp} {op : PatchOp}
    (h : o.builtPatch old m = front ++ op :: back) :
    (∃ back', o.removals old m = front ++ op :: back') ∨
      ∃ front', front = o.removals old m ++ front' ∧ o.arrivals old m = front' ++ op :: back := by
  rw [builtPatch_eq, List.append_eq_append_iff] at h
  rcases h with ⟨front', rfl, h⟩ | ⟨rest, hr, h⟩
  · exact .inr ⟨front', rfl, h⟩
  · cases rest with
    | nil => exact .inr ⟨[], by simpa using hr.symm, by simpa using h.symm⟩
    | cons x rest =>
        obtain ⟨rfl, -⟩ := List.cons.inj h
        exact .inl ⟨rest, hr⟩

theorem pairwise_removals (o : MergeOptions) (old m : Memory) :
    (o.removals old m).Pairwise fun a b => comparePaths b.path a.path = .lt := by
  rw [removals, List.pairwise_reverse, List.pairwise_map]
  refine (ascending_merged.filter _).imp fun hlt => ?_
  rwa [PatchOp.path_removal, PatchOp.path_removal]

theorem pairwise_arrivals (o : MergeOptions) (old m : Memory) :
    (o.arrivals old m).Pairwise fun a b => comparePaths a.path b.path = .lt := by
  refine List.pairwise_filterMap.mpr (ascending_merged.imp fun hlt op hop op' hop' => ?_)
  rwa [Patch.path_of_arrival? hop, Patch.path_of_arrival? hop']

theorem place_of_act? {overlay : Overlay} {op : PatchOp} {a : Act}
    (h : o.act? m overlay op = some a) : a.place = Text.split '/' op.path := by
  cases op with
  | unlink path | rmdir path | mkdir path => exact Option.some.inj h ▸ rfl
  | create path e | change path e =>
      obtain ⟨content, -, rfl⟩ := Option.map_eq_some_iff.mp h
      rfl

/-- What is listed stands in the tree of the inputs, a file with its content. -/
theorem tree_of_mem (hw : o.Whole m) {e : Entry} (he : e ∈ o.merged m) :
    (e.kind = .directory → o.tree m (Text.split '/' e.path) = some .dir) ∧
    (e.kind = .file → ∃ content, o.tree m (Text.split '/' e.path) = some (.file content)) := by
  have hk := kindAt?_eq_some_iff.mpr ⟨e, ascending_merged.entryAt?_eq_some_iff.mpr ⟨he, rfl⟩, rfl⟩
  refine ⟨fun hd => tree_of_directory (hd ▸ hk), fun hf => ?_⟩
  obtain ⟨content, hc⟩ := Option.isSome_iff_exists.mp (hw e.path (hf ▸ hk))
  exact ⟨content, by rw [tree_of_file (hf ▸ hk), hc]; rfl⟩

variable {v u : View}

/-- What is to be removed stands until its turn comes. -/
theorem stands_until_removed {front back : List PatchOp} {e : Entry}
    (hl : o.removals old m = front ++ .removal e :: back)
    (hruns : Runs v (front.filterMap (o.act? m (o.overlay m))) u) :
    u (Text.split '/' e.path) = v (Text.split '/' e.path) := by
  have hpair := pairwise_removals o old m
  rw [hl, List.pairwise_append] at hpair
  have hbefore : ∀ b ∈ front.filterMap (o.act? m (o.overlay m)),
      b.isRemoval = true ∧ b.place ≠ Text.split '/' e.path := by
    intro b hb
    obtain ⟨op', hop', hact⟩ := List.mem_filterMap.mp hb
    have hlt := hpair.2.2 op' hop' _ List.mem_cons_self
    have hplace := place_of_act? hact
    obtain ⟨e', -, -, rfl⟩ := mem_removals.mp (hl ▸ List.mem_append_left _ hop')
    rw [act?_removal, Option.some.injEq] at hact
    refine ⟨hact ▸ Act.isRemoval_leaving e', fun hp => ?_⟩
    rw [hplace] at hp
    rw [Text.split_injective hp, PatchOp.path_removal] at hlt
    exact comparePaths_ne_of_lt hlt rfl
  exact hruns.of_removals (fun b hb => (hbefore b hb).1) (fun hd => (hbefore _ hd).2 rfl)
    fun hc => (hbefore _ hc).2 rfl

/-- Then it goes. -/
theorem removes_something (hw : o.Whole old)
    (hv : ∀ path, v (Text.split '/' path) = o.tree old (Text.split '/' path))
    {front back : List PatchOp} {op : PatchOp} (hl : o.removals old m = front ++ op :: back)
    (hruns : Runs v (front.filterMap (o.act? m (o.overlay m))) u) {a : Act}
    (ha : o.act? m (o.overlay m) op = some a) : a.result u ≠ u := by
  obtain ⟨e, he, -, rfl⟩ := mem_removals.mp (hl ▸ by simp : op ∈ o.removals old m)
  have hstands := (stands_until_removed hl hruns).trans (hv e.path)
  obtain ⟨hdir, hfile⟩ := tree_of_mem hw he
  rw [act?_removal, Option.some.injEq] at ha
  intro hsame
  have hat := congrFun hsame (Text.split '/' e.path)
  cases hk : e.kind with
  | file =>
      obtain ⟨content, hc⟩ := hfile hk
      rw [← ha, Act.leaving, hk, hstands, hc] at hat
      simp [Act.result] at hat
  | directory =>
      have hd := hstands.trans (hdir hk)
      rw [← ha, Act.leaving, hk, hd] at hat
      simp [Act.result, hd] at hat

/-- A listed directory that was listed stands after the removals. -/
theorem stands_after_removing
    (hv : ∀ path, v (Text.split '/' path) = o.tree old (Text.split '/' path))
    {v₁ : View} (hruns : Runs v (o.removing old m) v₁) {path : String}
    (hk : kindAt? (o.merged m) path = some .directory) :
    v₁ (Text.split '/' path) =
      if kindAt? (o.merged old) path = some .directory then some .dir else none := by
  rw [removing_at hruns, hk, spared_directory, hv]
  cases hold : kindAt? (o.merged old) path with
  | none => simp [tree_of_none hold]
  | some kind =>
      cases kind with
      | file => simp
      | directory => simp [tree_of_directory hold]

/-- While what is new is put, a directory stands that was listed or has had its turn, and no other
one. -/
theorem directory_while_arriving
    (hv : ∀ path, v (Text.split '/' path) = o.tree old (Text.split '/' path))
    {front back : List PatchOp} (hl : o.arrivals old m = front ++ back) {v₁ : View}
    (h₁ : Runs v (o.removing old m) v₁)
    (h₂ : Runs v₁ (front.filterMap (o.act? m (o.overlay m))) u) {path : String}
    (hk : kindAt? (o.merged m) path = some .directory) :
    u (Text.split '/' path) = if kindAt? (o.merged old) path = some .directory then some .dir
      else opened (Text.split '/' path) (front.filterMap (o.act? m (o.overlay m))) := by
  rw [h₂.of_not_replaces, stands_after_removing hv h₁ hk]
  · split <;> rfl
  · intro b hb
    by_contra hne
    obtain ⟨op, hop, hact⟩ := List.mem_filterMap.mp hb
    obtain ⟨e, he, harrives⟩ := mem_arrivals.mp (hl ▸ List.mem_append_left _ hop)
    rw [act?_arrival harrives] at hact
    have hpath := Text.split_injective ((entering?_place hact).symm.trans
      (Act.place_of_replaces (by simpa using hne)))
    -- What arrives at the path of a listed directory is that directory, which replaces nothing.
    rw [← hpath, kindAt?, ascending_merged.entryAt?_eq_some_iff.mpr ⟨he, rfl⟩] at hk
    have hd : e.kind = .directory := Option.some.inj hk
    simp only [entering?, hd, Option.some.injEq] at hact
    exact hne (hact ▸ rfl)

/-- A listed directory is made exactly when it was not listed as one. -/
theorem mkdir_mem_arrivals {path : String} : .mkdir path ∈ o.arrivals old m ↔
    kindAt? (o.merged m) path = some .directory ∧
      kindAt? (o.merged old) path ≠ some .directory := by
  rw [mem_arrivals]
  constructor
  · rintro ⟨e, he, ha⟩
    have hat := ascending_merged.entryAt?_eq_some_iff.mpr ⟨he, rfl⟩
    rcases Patch.op_of_arrival? ha with hop | ⟨hop, -⟩
    · cases hk : e.kind with
      | file => simp [PatchOp.addition, hk] at hop
      | directory =>
          simp only [PatchOp.addition, hk, PatchOp.mkdir.injEq] at hop
          subst hop
          refine ⟨kindAt?_eq_some_iff.mpr ⟨e, hat, hk⟩, fun hold => ?_⟩
          obtain ⟨e', he', hk'⟩ := kindAt?_eq_some_iff.mp hold
          rw [Patch.arrival?_eq_none_iff.mpr
            ⟨e', he', hk'.trans hk.symm, fun hf => by simp [hk'] at hf⟩] at ha
          cases ha
    · cases hop
  · rintro ⟨hk, hold⟩
    obtain ⟨e, he, hd⟩ := kindAt?_eq_some_iff.mp hk
    obtain rfl := entryAt?_path he
    obtain ⟨op, hop⟩ := Option.isSome_iff_exists.mp (Patch.arrival?_of_kind_ne (hd ▸ hold))
    refine ⟨e, entryAt?_mem he, ?_⟩
    rcases Patch.op_of_arrival? hop with rfl | ⟨-, hf⟩
    · rw [hop, PatchOp.addition, hd]
    · rw [hd] at hf
      cases hf

theorem fills_of_arrival {op : PatchOp} (hop : op ∈ o.arrivals old m) {a : Act}
    (ha : o.act? m (o.overlay m) op = some a) {path : String}
    (hf : a.fills (Text.split '/' path) = true) : path = op.path ∨ Below path op.path := by
  obtain ⟨e, -, harrives⟩ := mem_arrivals.mp hop
  rw [act?_arrival harrives] at ha
  rw [Patch.path_of_arrival? harrives]
  exact ((fills_entering? ha).mp hf).imp_left And.left

section

variable (hv : ∀ path, v (Text.split '/' path) = o.tree old (Text.split '/' path))
  {front back : List PatchOp} {op : PatchOp} (hl : o.arrivals old m = front ++ op :: back)
  {v₁ : View} (h₁ : Runs v (o.removing old m) v₁)
  (h₂ : Runs v₁ (front.filterMap (o.act? m (o.overlay m))) u)

include hv hl h₁ h₂

/-- Nothing stands where a directory is to be made. -/
theorem free_for_directory {path : String} (hop : op = .mkdir path) :
    u (Text.split '/' path) = none := by
  subst hop
  obtain ⟨hk, hold⟩ := mkdir_mem_arrivals.mp (hl ▸ by simp : .mkdir path ∈ o.arrivals old m)
  have hpair := pairwise_arrivals o old m
  rw [hl, List.pairwise_append] at hpair
  rw [directory_while_arriving hv hl h₁ h₂ hk, if_neg hold, opened_eq_none_iff, ne_eq,
    opened_eq_some_iff]
  rintro ⟨a, ha, hfills⟩
  obtain ⟨op', hop', hact⟩ := List.mem_filterMap.mp ha
  have hlt : comparePaths op'.path path = .lt := hpair.2.2 op' hop' _ List.mem_cons_self
  rcases fills_of_arrival (hl ▸ List.mem_append_left _ hop') hact hfills with hp | hb
  · exact comparePaths_ne_of_lt hlt hp.symm
  · rw [Std.OrientedCmp.gt_of_lt hb.lt] at hlt
    cases hlt

/-- The listed directories above what arrives are there. -/
theorem no_directory_aside {a : Act} (ha : o.act? m (o.overlay m) op = some a) {path : String}
    (hk : kindAt? (o.merged m) path = some .directory) (hp : path ≠ op.path)
    (hnone : u (Text.split '/' path) = none) : a.fills (Text.split '/' path) = false := by
  by_contra hfills
  have hmem : op ∈ o.arrivals old m := hl ▸ by simp
  have hlt := ((fills_of_arrival hmem ha (by simpa using hfills)).resolve_left hp).lt
  rw [directory_while_arriving hv hl h₁ h₂ hk] at hnone
  by_cases hold : kindAt? (o.merged old) path = some .directory
  · simp [hold] at hnone
  · rw [if_neg hold, opened_eq_none_iff, ne_eq, opened_eq_some_iff] at hnone
    have hmk : .mkdir path ∈ front ++ op :: back := hl ▸ mkdir_mem_arrivals.mpr ⟨hk, hold⟩
    have hpair := pairwise_arrivals o old m
    rw [hl, List.pairwise_append, List.pairwise_cons] at hpair
    rcases List.mem_append.mp hmk with hmk | hmk
    · exact hnone ⟨_, List.mem_filterMap.mpr ⟨_, hmk, rfl⟩, by simp [Act.fills]⟩
    · rcases List.mem_cons.mp hmk with rfl | hmk
      · exact hp rfl
      · have hgt : comparePaths op.path path = .lt := hpair.2.1.1 _ hmk
        rw [Std.OrientedCmp.gt_of_lt hlt] at hgt
        cases hgt

end

section

variable (hv : ∀ path, v (Text.split '/' path) = o.tree old (Text.split '/' path)) {v₁ v₂ w : View}
  (h₁ : Runs v (o.removing old m) v₁) (h₂ : Runs v₁ (o.arriving old m) v₂) {path : String}

include hv h₁ h₂

/-- When everything has arrived all listed directories stand. -/
theorem directory_arrived (hk : kindAt? (o.merged m) path = some .directory) :
    v₂ (Text.split '/' path) = some .dir := by
  rw [← filterMap_arrivals] at h₂
  rw [directory_while_arriving hv (List.append_nil _).symm h₁ h₂ hk]
  split
  · rfl
  · rename_i hold
    exact opened_eq_some_iff.mpr ⟨_, List.mem_filterMap.mpr
      ⟨_, mkdir_mem_arrivals.mpr ⟨hk, hold⟩, rfl⟩, by simp [Act.fills]⟩

/-- No file stands then that is not listed as one. -/
theorem no_file_arrived (hk : kindAt? (o.merged m) path ≠ some .file) (content : ByteArray) :
    v₂ (Text.split '/' path) ≠ some (.file content) := by
  rw [arriving_at h₂ fun hf => absurd hf hk, removing_at h₁, spared, hv]
  intro hfile
  replace hfile := file_of_or_opened hfile
  split at hfile
  · cases hfile
  · rename_i hnot
    split at hfile
    · cases hfile
    · exact tree_ne_file (fun hold => hnot ⟨hold, hk⟩) content hfile

variable (hr : o.Regular) (hm : m.Named) (h : o.Mergeable m)
  {front back : List String} {target : String} (hl : o.left old m = front ++ target :: back)
  (hu : Runs v₂ (front.filterMap (o.renewal? m (o.overlay m))) u)

include hr hm h hl hu

/-- So it is while targets are made anew. -/
theorem directory_while_renewing (h₃ : Runs v₂ (o.renewing old m) w)
    (hk : kindAt? (o.merged m) path = some .directory) : u (Text.split '/' path) = some .dir := by
  have hstands := directory_arrived hv h₁ h₂ hk
  rw [hu.of_not_replaces, hstands]
  · rfl
  · intro b hb
    by_contra hne
    obtain ⟨target', ht, hact⟩ := List.mem_filterMap.mp hb
    have hleft : target' ∈ o.left old m := hl ▸ List.mem_append_left _ ht
    have hplace := (renewal?_place hr hm h hleft hact).symm.trans
      (Act.place_of_replaces (by simpa using hne))
    obtain rfl := Text.split_injective hplace
    exact (renewing_at_other hr hm h h₃ (by simp [hk]) hleft).1 hstands

/-- Nothing stands where a target is removed that is not listed as a file. -/
theorem nothing_to_remove (hk : kindAt? (o.merged m) target ≠ some .file)
    (hp : (Act.drop (Text.split '/' target)).Possible u) : u (Text.split '/' target) = none := by
  refine Item.eq_none_of_ne hp fun content hfile => ?_
  have hnot := no_file_arrived hv h₁ h₂ hk content
  have hpair : (o.left old m).Pairwise fun a b => compare a b = .lt := left_ascending
  rw [hl, List.pairwise_append] at hpair
  rw [hu.of_not_replaces] at hfile
  · exact hnot (file_of_or_opened hfile)
  · intro b hb
    by_contra hne
    obtain ⟨target', ht, hact⟩ := List.mem_filterMap.mp hb
    have hplace := (renewal?_place hr hm h (hl ▸ List.mem_append_left _ ht) hact).symm.trans
      (Act.place_of_replaces (by simpa using hne))
    have hlt := hpair.2.2 _ ht _ List.mem_cons_self
    rw [Text.split_injective hplace] at hlt
    simp at hlt

end

end MergeOptions

end VendorBundle
