import VendorBundle.Proofs.Merge.Incremental
import VendorBundle.Proofs.Merge.Partway

/-!
# Building again after a build that stopped

A build that stopped did not take the listings over, so the next one starts from the same listing
and repeats what was done already. It cannot unlink a file in whose place the build that stopped has
made a directory; otherwise it goes through once the cause is repaired.
-/

namespace VendorBundle

open Entry Memory Effect

/-! ## Listings that still differ -/

namespace Entry

/-- No file that had come to differ has its old token back. -/
def StillDiffer (olds news laters : List Entry) : Prop :=
  ∀ path old new later, entryAt? olds path = some old → entryAt? news path = some new →
    entryAt? laters path = some later → old.kind = .file → new.kind = .file →
    later.kind = .file → later.token = old.token → new.token = old.token

variable {olds news laters : List Entry}

/-- What has arrived arrives again. -/
theorem StillDiffer.arrival? (h : StillDiffer olds news laters) {new later : Entry}
    (hnew : entryAt? news later.path = some new) (hlater : entryAt? laters later.path = some later)
    (hk : new.kind = later.kind) (ha : (Patch.arrival? olds new).isSome) :
    (Patch.arrival? olds later).isSome := by
  rw [Option.isSome_iff_ne_none] at ha ⊢
  intro hnone
  obtain ⟨old, hold, hkind, htoken⟩ := Patch.arrival?_eq_none_iff.mp hnone
  have hsame := hkind.trans hk.symm
  refine ha (Patch.arrival?_eq_none_iff.mpr ⟨old, entryAt?_path hnew ▸ hold, hsame, fun hf => ?_⟩)
  exact (h _ old new later hold hnew hlater hf (hsame ▸ hf) (hkind ▸ hf) (htoken hf).symm).symm

/-- What a patch was about, a later one is about, too. -/
theorem StillDiffer.exists_op (h : StillDiffer olds news laters) (ho : Ascending olds)
    (hn : Ascending news) (hl : Ascending laters)
    (hk : ∀ path, kindAt? laters path = kindAt? news path) {op : PatchOp}
    (hop : op ∈ Patch.between olds news) : ∃ op' ∈ Patch.between olds laters,
      op'.path = op.path := by
  rcases (Patch.mem_between ho hn).mp hop with ⟨old, hold, hgone, rfl⟩ | ⟨new, hnew, ha⟩
  · refine ⟨.removal old, (Patch.mem_between ho hl).mpr (.inl ⟨old, hold, ?_, rfl⟩), rfl⟩
    rwa [Patch.isGone_iff, hk, ← Patch.isGone_iff]
  · have hat := hn.entryAt?_eq_some_iff.mpr ⟨hnew, rfl⟩
    obtain ⟨later, hlater, hkind⟩ :=
      kindAt?_eq_some_iff.mp ((hk new.path).trans (kindAt?_eq_some_iff.mpr ⟨new, hat, rfl⟩))
    have hpath := entryAt?_path hlater
    obtain ⟨op', hop'⟩ := Option.isSome_iff_exists.mp (h.arrival? (hpath ▸ hat) (hpath ▸ hlater)
      hkind.symm (by rw [ha]; rfl))
    refine ⟨op', (Patch.mem_between ho hl).mpr (.inr ⟨later, entryAt?_mem hlater, hop'⟩), ?_⟩
    rw [Patch.path_of_arrival? hop', Patch.path_of_arrival? ha, hpath]

end Entry

/-- The place right above a path is the root or that of a path. -/
theorem exists_split_eq_dropLast (path : String) : (Text.split '/' path).dropLast = [] ∨
    ∃ dir, Text.split '/' dir = (Text.split '/' path).dropLast := by
  by_cases hnil : (Text.split '/' path).dropLast = []
  · exact .inl hnil
  · refine .inr ⟨pathText (Text.split '/' path).dropLast, Text.split_intercalate hnil fun n hn => ?_⟩
    exact Text.not_mem_of_mem_split (List.dropLast_subset _ hn)

/-- Acts at paths leave the root a directory. -/
theorem Runs.dir_root {w : View} {acts : List Act} (h : Runs v acts w)
    (hp : ∀ a ∈ acts, ∃ path, a.place = Text.split '/' path) (hv : v [] = some .dir) :
    w [] = some .dir := by
  rw [h.of_not_replaces, hv, Option.some_or]
  intro a ha
  obtain ⟨path, hplace⟩ := hp a ha
  exact Act.replaces_of_place_ne (hplace ▸ Text.split_ne_nil _ _)

namespace MergeOptions

variable {o : MergeOptions} {old m new : Memory} {v : View} {path : String}

/-! ## Repairs -/

/-- The listing after a repair: files may be gone, but nothing is added or of another kind. -/
def Repaired (o : MergeOptions) (m new : Memory) : Prop :=
  ∀ path, kindAt? (o.merged new) path = kindAt? (o.merged m) path ∨
    kindAt? (o.merged m) path = some .file ∧ kindAt? (o.merged new) path = none

theorem Repaired.directory_iff (h : o.Repaired m new) :
    kindAt? (o.merged new) path = some .directory ↔
      kindAt? (o.merged m) path = some .directory := by
  rcases h path with he | ⟨hm, hnew⟩
  · rw [he]
  · simp [hm, hnew]

/-- Nothing stands in the way of a build from one listing to another: every file of the new one can
be made, no file that becomes a directory is one in the result already, and no target that is left
is a directory. -/
structure Replayable (o : MergeOptions) (old new : Memory) (v : View) : Prop where
  whole : o.Whole new
  flips : ∀ path, kindAt? (o.merged old) path = some .file →
    kindAt? (o.merged new) path = some .directory → v (Text.split '/' path) ≠ some .dir
  targets : ∀ target ∈ o.left old new, kindAt? (o.merged new) target ≠ some .directory

/-! ## Where a build stopped -/

theorem tree_eq_dir_iff : o.tree m (Text.split '/' path) = some .dir ↔
    kindAt? (o.merged m) path = some .directory := by
  refine ⟨fun ht => ?_, tree_of_directory⟩
  cases hk : kindAt? (o.merged m) path with
  | none => simp [tree_of_none hk] at ht
  | some kind =>
      cases kind with
      | file => simp [tree_of_file hk] at ht
      | directory => rfl

theorem Partway.at_directory (hv : o.Partway old m v)
    (hk : kindAt? (o.merged m) path = some .directory) :
    kindAt? (o.merged old) path = some .file ∨ v (Text.split '/' path) = some .dir ∨
      v (Text.split '/' path) = none ∧ kindAt? (o.merged old) path = none := by
  cases hold : kindAt? (o.merged old) path with
  | none =>
      rcases hv path with hat | ⟨hat, -⟩ | ⟨hat, -⟩
      · exact .inr (.inr ⟨hat.trans (tree_of_none hold), rfl⟩)
      · exact .inr (.inr ⟨hat, rfl⟩)
      · exact .inr (.inl (hat.trans (tree_of_directory hk)))
  | some kind =>
      cases kind with
      | file => exact .inl rfl
      | directory => exact .inr (.inl (hv.dir hold hk))

theorem Partway.ne_dir (hv : o.Partway old m v)
    (hold : kindAt? (o.merged old) path ≠ some .directory)
    (hk : kindAt? (o.merged m) path ≠ some .directory) :
    v (Text.split '/' path) ≠ some .dir := by
  rcases hv path with hat | ⟨hat, -⟩ | ⟨hat, -⟩
  · rwa [hat, ne_eq, tree_eq_dir_iff]
  · simp [hat]
  · rwa [hat, ne_eq, tree_eq_dir_iff]

/-! ## Which builds can be carried out -/

theorem place_of_mem_removing : ∀ a ∈ o.removing old new, ∃ path, a.place = Text.split '/' path := by
  intro a ha
  obtain ⟨e, -, -, rfl⟩ := mem_removing.mp ha
  exact ⟨e.path, Act.place_leaving e⟩

theorem place_of_mem_arriving : ∀ a ∈ o.arriving old new, ∃ path, a.place = Text.split '/' path := by
  intro a ha
  obtain ⟨path, e, -, -, hentering⟩ := mem_arriving.mp ha
  exact ⟨e.path, entering?_place hentering⟩

section

variable (hr : o.Regular) (hm : m.Named) (h : o.Mergeable m) (hnew : new.Named)
  (h' : o.Mergeable new) (hv : o.Partway old m v) (hrepaired : o.Repaired m new)

theorem renewal?_isSome (hr : o.Regular) (hnew : new.Named) (h' : o.Mergeable new)
    (hw : o.Whole new) : ∀ target ∈ o.left old new,
      (o.renewal? new (o.overlay new) target).isSome := by
  intro target ht
  by_cases hk : kindAt? (o.merged new) target = some .file
  · simpa [renewal?_of_file hnew h' ht hk] using hw target hk
  · simp [renewal?_of_not_file hr hnew h' ht hk]

include hr hm h in
/-- Nothing is listed below what is no directory of the listing. -/
theorem kindAt?_below_eq_none {dir : String} (hb : Below dir path)
    (hne : kindAt? (o.merged m) dir ≠ some .directory) : kindAt? (o.merged m) path = none := by
  by_contra hsome
  obtain ⟨kind, hk⟩ := Option.ne_none_iff_exists'.mp hsome
  exact hne (directory_of_below hr hm h hb hk)

include hr hnew h' in
/-- What a renewal writes is a file of the listing. -/
theorem file_of_write_mem_renewing {q : List String} {content : ByteArray}
    (hq : .write q content ∈ o.renewing old new) : ∃ path, q = Text.split '/' path ∧
      kindAt? (o.merged new) path = some .file := by
  obtain ⟨target, hl, hact⟩ := mem_renewing.mp hq
  refine ⟨target, renewal?_place hr hnew h' hl hact, ?_⟩
  by_contra hf
  rw [renewal?_of_not_file hr hnew h' hl hf, Option.some.injEq] at hact
  cases hact

include hr hnew h' in
/-- No file stands right above a file of the listing where none stands at the root or at a directory
of the listing. -/
theorem ne_file_above (hroot : v [] = some .dir)
    (hdirs : ∀ dir, kindAt? (o.merged new) dir = some .directory →
      ∀ content, v (Text.split '/' dir) ≠ some (.file content))
    (hk : kindAt? (o.merged new) path = some .file) (content : ByteArray) :
    v (Text.split '/' path).dropLast ≠ some (.file content) := by
  rcases exists_split_eq_dropLast path with hnil | ⟨dir, hdir⟩
  · simp [hnil, hroot]
  · have hb : Below dir path := below_iff_prefix_dropLast.mpr (hdir ▸ List.prefix_refl _)
    exact hdir ▸ hdirs dir (directory_of_below hr hnew h' hb hk) content

include hr hm h hnew h' hv hrepaired

/-- What goes can go: what a directory to go still holds goes as well. -/
theorem exists_removing (hnames : ∀ place name, v (place ++ [name]) ≠ none → IsName name)
    (hflips : ∀ path, kindAt? (o.merged old) path = some .file →
      kindAt? (o.merged new) path = some .directory → v (Text.split '/' path) ≠ some .dir) :
    ∃ v₁, Runs v (o.removing old new) v₁ := by
  have hpath : ∀ a ∈ o.removing old new, ∃ path, a.place = Text.split '/' path :=
    place_of_mem_removing
  refine Removals.exists_runs
    ⟨isRemoval_of_mem_removing, pairwise_removing, fun q hq => ?_, fun q hq hdir name => ?_⟩
  · obtain ⟨path, rfl⟩ := hpath _ hq
    obtain ⟨hold, hne⟩ := drop_mem_removing.mp hq
    by_cases hd : kindAt? (o.merged new) path = some .directory
    · exact hflips path hold hd
    · exact hv.ne_dir (by simp [hold]) fun hk => hd (hrepaired.directory_iff.mpr hk)
  · obtain ⟨path, rfl⟩ := hpath _ hq
    obtain ⟨-, hne⟩ := clear_mem_removing.mp hq
    by_cases hnone : v (Text.split '/' path ++ [name]) = none
    · exact .inl hnone
    have hsplit : Text.split '/' (path ++ "/" ++ name) = Text.split '/' path ++ [name] := by
      rw [Text.split_append, (hnames _ _ hnone).split]
    have hb : Below path (path ++ "/" ++ name) := ⟨name, rfl⟩
    have hgonenew := kindAt?_below_eq_none hr hnew h' hb hne
    have hgonem :=
      kindAt?_below_eq_none hr hm h hb fun hk => hne (hrepaired.directory_iff.mpr hk)
    rw [← hsplit] at hnone ⊢
    have hat : v (Text.split '/' (path ++ "/" ++ name)) =
        o.tree old (Text.split '/' (path ++ "/" ++ name)) := by
      rcases hv (path ++ "/" ++ name) with hat | ⟨hat, -⟩ | ⟨hat, -⟩
      · exact hat
      · exact absurd hat hnone
      · exact absurd (hat.trans (tree_of_none hgonem)) hnone
    cases hold : kindAt? (o.merged old) (path ++ "/" ++ name) with
    | none => exact .inl (hat.trans (tree_of_none hold))
    | some kind =>
        cases kind with
        | file => exact .inr (.inl (drop_mem_removing.mpr ⟨hold, by simp [hgonenew]⟩))
        | directory =>
            exact .inr (.inr ⟨clear_mem_removing.mpr ⟨hold, by simp [hgonenew]⟩,
              hat.trans (tree_of_directory hold)⟩)

omit hr hm h hnew h' in
/-- Once what goes has gone, no file stands at a directory of the listing. -/
theorem ne_file_of_directory {v₁ : View} (h₁ : Runs v (o.removing old new) v₁)
    (hk : kindAt? (o.merged new) path = some .directory) (content : ByteArray) :
    v₁ (Text.split '/' path) ≠ some (.file content) := by
  rw [removing_at h₁, hk, spared_directory]
  rcases hv.at_directory (hrepaired.directory_iff.mp hk) with hold | hat | ⟨hat, -⟩
  · simp [hold]
  · split <;> simp [hat]
  · split <;> simp [hat]

omit hr hm h hnew h' in
/-- Nor does one stand there once the rest has arrived. -/
theorem ne_file_of_directory_arriving {v₁ v₂ : View} (h₁ : Runs v (o.removing old new) v₁)
    (h₂ : Runs v₁ (o.arriving old new) v₂) (hk : kindAt? (o.merged new) path = some .directory)
    (content : ByteArray) : v₂ (Text.split '/' path) ≠ some (.file content) := by
  rw [arriving_at h₂ fun hfile => by simp [hk] at hfile]
  cases hv₁ : v₁ (Text.split '/' path) with
  | none =>
      rw [Option.none_or, opened]
      split <;> simp
  | some item =>
      rw [Option.some_or, ← hv₁]
      exact ne_file_of_directory hv hrepaired h₁ hk content

omit hm h in
/-- No directory stands where nothing is listed. -/
theorem ne_dir_of_not_listed {v₁ v₂ : View} (hne : kindAt? (o.merged new) path ≠ some .directory)
    (hf : kindAt? (o.merged new) path ≠ some .file) (h₁ : Runs v (o.removing old new) v₁)
    (h₂ : Runs v₁ (o.arriving old new) v₂) : v₂ (Text.split '/' path) ≠ some .dir := by
  rw [arriving_at h₂ fun hfile => absurd hfile hf, opened_arriving_of_ne hr hnew h' hne,
    Option.or_none, removing_at h₁, spared]
  split_ifs with hgone hcleared
  · simp
  · simp
  · intro hdir
    have hold : kindAt? (o.merged old) path ≠ some .directory := fun hold =>
      hcleared ⟨hold, hne, hdir⟩
    exact hv.ne_dir hold (fun hk => hne (hrepaired.directory_iff.mpr hk)) hdir

omit hm h in
/-- The targets that are left can be made anew when none of them is a directory. -/
theorem exists_renewing {v₁ v₂ : View} (hroot : v [] = some .dir) (hw : o.Whole new)
    (ht : ∀ target ∈ o.left old new, kindAt? (o.merged new) target ≠ some .directory)
    (h₁ : Runs v (o.removing old new) v₁) (h₂ : Runs v₁ (o.arriving old new) v₂) :
    ∃ w, Runs v₂ (o.renewing old new) w := by
  refine Unhindered.exists_runs ⟨fun a ha hremoval => ?_, fun q content hq content' => ?_⟩
  · obtain ⟨target, hl, hact⟩ := mem_renewing.mp ha
    by_cases hf : kindAt? (o.merged new) target = some .file
    · rw [renewal?_of_file hnew h' hl hf, Option.map_eq_some_iff] at hact
      obtain ⟨content, -, rfl⟩ := hact
      exact absurd hremoval Bool.false_ne_true
    rw [renewal?_of_not_file hr hnew h' hl hf, Option.some.injEq] at hact
    refine ⟨Text.split '/' target, hact.symm,
      ne_dir_of_not_listed hr hnew h' hv hrepaired (ht target hl) hf h₁ h₂, fun b hb => ?_⟩
    have hnone : opened (Text.split '/' target) (o.renewing old new) = none :=
      opened_renewing_of_ne hr hnew h' (renewal?_isSome hr hnew h' hw) (ht target hl)
    by_contra hfills
    rw [opened_eq_none_iff, ne_eq, opened_eq_some_iff] at hnone
    exact hnone ⟨b, hb, by simpa using hfills⟩
  · obtain ⟨path, rfl, hk⟩ := file_of_write_mem_renewing hr hnew h' hq
    have hroot₂ : v₂ [] = some .dir :=
      h₂.dir_root place_of_mem_arriving (h₁.dir_root place_of_mem_removing hroot)
    refine ⟨ne_file_above hr hnew h' hroot₂ (fun dir hdir =>
      ne_file_of_directory_arriving hv hrepaired h₁ h₂ hdir) hk content', fun hq' => ?_⟩
    obtain ⟨above, habove, hk'⟩ := file_of_write_mem_renewing hr hnew h' hq'
    exact split_ne_dropLast hr hnew h' hk' hk habove

/-- A build can be carried out where nothing stands in its way. -/
theorem exists_carries (hroot : v [] = some .dir)
    (hnames : ∀ place name, v (place ++ [name]) ≠ none → IsName name)
    (hp : o.Replayable old new v) : ∃ w, o.Carries old new v w := by
  obtain ⟨v₁, h₁⟩ := exists_removing hr hm h hnew h' hv hrepaired hnames hp.flips
  obtain ⟨v₂, h₂⟩ : ∃ v₂, Runs v₁ (o.arriving old new) v₂ :=
    runs_arriving hr hnew h' fun path hk => ne_file_above hr hnew h'
      (h₁.dir_root place_of_mem_removing hroot)
      (fun dir hdir => ne_file_of_directory hv hrepaired h₁ hdir) hk
  obtain ⟨w, h₃⟩ := exists_renewing hr hnew h' hv hrepaired hroot hp.whole hp.targets h₁ h₂
  exact ⟨w, fun e he _ => entering?_isSome hp.whole e he,
    renewal?_isSome hr hnew h' hp.whole, v₁, v₂, h₁, h₂, h₃⟩

omit hm h in
/-- And nothing stands in the way of one that is carried out. -/
theorem Carries.replayable {w : View} (hc : o.Carries old new v w) (hw : o.Whole new) :
    o.Replayable old new v := by
  obtain ⟨hputs, -, v₁, v₂, h₁, h₂, h₃⟩ := hc
  refine ⟨hw, fun path hold hk => ?_, fun target ht hk => ?_⟩
  · refine h₁.ne_dir_of_drop isRemoval_of_mem_removing
      (drop_mem_removing.mpr ⟨hold, by simp [hk]⟩) fun hclear => ?_
    exact absurd (hold.symm.trans (clear_mem_removing.mp hclear).1) nofun
  · have hne := (renewing_at_other hr hnew h' h₃ (by simp [hk]) ht).1
    refine hne ?_
    rw [filled_at h₁ h₂ hputs hk]
    rcases hv.at_directory (hrepaired.directory_iff.mp hk) with hold | hat | ⟨hat, hold⟩
    · rw [if_pos hold]
    · rw [hat]
      split <;> rfl
    · rw [if_neg (by simp [hold]), hat, Option.none_or, opened_arriving hputs]
      exact ⟨target, arrives_of_kind_ne hk (by simp [hold]), .inl ⟨rfl, hk⟩⟩

end

/-! ## Contents written anew -/

/-- A repair that only writes contents: the listings keep their shape and, where tokens are hashes
of contents, no file that had come to differ has its old content back. -/
structure Rewritten (o : MergeOptions) (old m new : Memory) : Prop where
  built : ∀ path, kindAt? (o.builtListing new) path = kindAt? (o.builtListing m) path
  generated : ∀ path, kindAt? (o.generatedListing new) path = kindAt? (o.generatedListing m) path
  differ : o.listOptions.tokenMode = .content →
    StillDiffer (o.merged old) (o.merged m) (o.merged new) ∧
      StillDiffer (o.generatedListing old) (o.generatedListing m) (o.generatedListing new)

section

variable (hm : m.Named) (hnew : new.Named) (hw : o.Rewritten old m new)

include hm hnew hw

theorem Rewritten.overlay : (o.overlay new).bare = (o.overlay m).bare := by
  rw [MergeOptions.overlay, MergeOptions.overlay, Overlay.bare_ofListing, Overlay.bare_ofListing]
  exact congrArg _ ((ascending_listing hnew _ _).map_bare (ascending_listing hm _ _) hw.generated)

theorem Rewritten.merged (path : String) :
    kindAt? (o.merged new) path = kindAt? (o.merged m) path := by
  have hkind : ∀ m₁, kindAt? (o.merged m₁) path =
      (kindAt? (o.overlay m₁).entries path).or (kindAt? (o.builtListing m₁) path) := fun m₁ => by
    rw [kindAt?, entryAt?_merged, laidOver, entryAt?_append, Option.map_or]
    rfl
  have hentries := congrArg Overlay.entries (hw.overlay hm hnew)
  rw [hkind, hkind, hw.built, ← kindAt?_map_bare (o.overlay new).entries,
    ← kindAt?_map_bare (o.overlay m).entries]
  exact congrArg (fun entries => (kindAt? entries path).or _) hentries

theorem Rewritten.origin (path : String) : o.origin new path = o.origin m path := by
  have hsources : (o.overlay new).sources = (o.overlay m).sources := by
    change (o.overlay new).bare.sources = (o.overlay m).bare.sources
    rw [hw.overlay hm hnew]
  rw [MergeOptions.origin, MergeOptions.origin, hsources]

theorem Rewritten.repaired : o.Repaired m new := fun path => .inl (hw.merged hm hnew path)

end

/-- A file with the time of modification of an older one has not been written since. -/
theorem node?_of_same_token (hmode : o.listOptions.tokenMode = .stat) (hd : Dated o.IsInput old)
    (hclock : old.clock ≤ m.clock) (hs : Since o.IsInput m new) {place place' : Place}
    (hp : o.IsInput place) (hp' : o.IsInput place') {content content' : ByteArray}
    {time time' : UInt64} (hold : old.node? place = some (.file content time))
    (hn : new.node? place' = some (.file content' time'))
    (ht : o.listOptions.tokenMode.token content' time' =
      o.listOptions.tokenMode.token content time) :
    m.node? place' = some (.file content' time') := by
  rw [hmode] at ht
  obtain rfl := TokenMode.time_eq_of_stat ht
  exact hs.node?_of_same_time hd hclock hp hp' hold hn

section

variable (hold : old.Named) (hm : m.Named) (hnew : new.Named) (h₀ : o.Mergeable old)
  (h : o.Mergeable m) (h' : o.Mergeable new) (hd : Dated o.IsInput old)
  (hclock : old.clock ≤ m.clock) (hs : Since o.IsInput m new) (hw : o.Rewritten old m new)

include hold hm hnew h₀ h h' hd hclock hs hw

theorem Rewritten.merged_differ : StillDiffer (o.merged old) (o.merged m) (o.merged new) := by
  cases hmode : o.listOptions.tokenMode with
  | content => exact (hw.differ hmode).1
  | stat =>
      intro path e e₁ e₂ he he₁ he₂ hf hf₁ hf₂ htoken
      obtain ⟨content, time, hn, ht⟩ := origin_of_file hold h₀ he hf
      obtain ⟨content₁, time₁, hn₁, ht₁⟩ := origin_of_file hm h he₁ hf₁
      obtain ⟨content₂, time₂, hn₂, ht₂⟩ := origin_of_file hnew h' he₂ hf₂
      have hsame := node?_of_same_token hmode hd hclock hs (isInput_origin path)
        (isInput_origin path) hn hn₂ (by rw [← ht, ← ht₂, htoken])
      rw [hw.origin hm hnew, hn₁, Option.some.injEq, Node.file.injEq] at hsame
      rw [ht₁, hsame.1, hsame.2, ← ht₂, htoken]

theorem Rewritten.generated_differ :
    StillDiffer (o.generatedListing old) (o.generatedListing m) (o.generatedListing new) := by
  cases hmode : o.listOptions.tokenMode with
  | content => exact (hw.differ hmode).2
  | stat =>
      intro path e e₁ e₂ he he₁ he₂ hf hf₁ hf₂ htoken
      obtain ⟨content, time, hn, ht⟩ := bytes?_of_listed hold h₀.generated he hf
      obtain ⟨content₁, time₁, hn₁, ht₁⟩ := bytes?_of_listed hm h.generated he₁ hf₁
      obtain ⟨content₂, time₂, hn₂, ht₂⟩ := bytes?_of_listed hnew h'.generated he₂ hf₂
      have hsame := node?_of_same_token hmode hd hclock hs (.inr (List.prefix_append _ _))
        (.inr (List.prefix_append _ _)) hn hn₂ (by rw [← ht, ← ht₂, htoken])
      rw [hn₁, Option.some.injEq, Node.file.injEq] at hsame
      rw [ht₁, hsame.1, hsame.2, ← ht₂, htoken]

/-- A file that the build that stopped was to put is put by the next one. -/
theorem Rewritten.puts {path : String} (hk : kindAt? (o.merged m) path = some .file)
    (hp : o.Puts old m path) : o.Puts old new path := by
  have hmerged := hw.merged_differ hold hm hnew h₀ h h' hd hclock hs
  have hgenerated := hw.generated_differ hold hm hnew h₀ h h' hd hclock hs
  have hknew := (hw.merged hm hnew path).trans hk
  rcases hp with ⟨e, he, harrives⟩ | ⟨hl, -⟩
  · obtain ⟨later, hlater, hf⟩ := kindAt?_eq_some_iff.mp hknew
    obtain ⟨e', he', hf'⟩ := kindAt?_eq_some_iff.mp hk
    obtain rfl := Option.some.inj (he.symm.trans he')
    obtain rfl := entryAt?_path hlater
    exact .inl ⟨later, hlater, hmerged.arrival? he hlater (hf'.trans hf.symm) harrives⟩
  · by_cases hsettles : ∃ op ∈ o.builtPatch old new, (Merger.create o).settles op = some path
    · obtain ⟨op, hop, hsettles⟩ := hsettles
      have hpath := path_of_settles hsettles
      rcases (Patch.mem_between ascending_merged ascending_merged).mp hop with
        ⟨e, he, hgone, rfl⟩ | ⟨e, he, harrives⟩
      · rw [PatchOp.path_removal] at hpath
        refine .inl (arrives_of_kind_ne hknew fun hold => ?_)
        rw [Patch.isGone_iff, hpath, hknew] at hgone
        have hat := ascending_merged.entryAt?_eq_some_iff.mpr ⟨he, hpath⟩
        rw [kindAt?, hat] at hold
        exact hgone hold.symm
      · rw [Patch.path_of_arrival? harrives] at hpath
        exact .inl ⟨e, ascending_merged.entryAt?_eq_some_iff.mpr ⟨he, hpath⟩,
          by rw [harrives]; rfl⟩
    · obtain ⟨⟨op, hop, htarget⟩, -⟩ := mem_left.mp hl
      obtain ⟨op', hop', hpath⟩ := hgenerated.exists_op (ascending_listing hold _ _)
        (ascending_listing hm _ _) (ascending_listing hnew _ _) hw.generated hop
      exact .inr ⟨mem_left.mpr ⟨⟨op', hop', hpath ▸ htarget⟩,
        fun op hop he => hsettles ⟨op, hop, he⟩⟩, hknew⟩

end

/-! ## What the next build restores -/

/-- Directories, and what the build that stopped was not to put, are restored by the next one. -/
theorem restores_of_partway (hr : o.Regular) (hold : old.Named) (hnew : new.Named)
    (h₀ : o.Mergeable old) (h' : o.Mergeable new) (ht : o.Tells old new)
    (hv : o.Partway old m v) (hrepaired : o.Repaired m new)
    (hputs : o.Puts old m path → kindAt? (o.merged m) path = some .directory) :
    o.Restores old new v path := by
  rcases hv path with hat | ⟨hat, hne⟩ | ⟨hat, hput⟩
  · exact restores_of_tree hr hold hnew h₀ h' ht hat
  · cases hk : kindAt? (o.merged new) path with
    | none => simp [Restores, hk, hat]
    | some kind =>
        have hkm : kindAt? (o.merged m) path = some kind := by
          rcases hrepaired path with he | ⟨-, hnone⟩
          · rw [← he, hk]
          · simp [hk] at hnone
        have harrives : o.Arrives old new path := arrives_of_kind_ne hk (hkm ▸ hne)
        cases kind with
        | file => simp [Restores, hk, Puts, harrives]
        | directory =>
            simp only [Restores, hk]
            exact .inr (.inr (.inl ⟨hat, path, .inl harrives, .inl rfl⟩))
  · have hdir := hput.elim hputs id
    simp only [Restores, hrepaired.directory_iff.mpr hdir]
    exact .inr (.inl (hat.trans (tree_of_directory hdir)))

end MergeOptions

namespace Merger

open MergeOptions

/-! ## Runs -/

/-- The input trees are edited, one operation after the other. -/
inductive Edited (o : MergeOptions) (m : Memory) : Memory → Prop where
  | refl : Edited o m m
  | edit {m'} (op : Operation) (h : Edited o m m') (hp : o.IsInput op.path.resolved)
      (hc : m'.clock ≤ (op.run m').clock) : Edited o m (op.run m')

variable {o : MergeOptions} {contents : ByteArray → Prop} {g g₀ : Merger}
  {old m m₀ m₁ m' new : Memory}

theorem Settled.edited (hr : o.Regular) (h : Settled o contents old m) (he : Edited o m m') :
    Settled o contents old m' := by
  induction he with
  | refl => exact h
  | edit op _ hp hc ih => exact ih.edit hr op hp hc

theorem Edited.view (hr : o.Regular) (he : Edited o m m') :
    m'.view o.outputDir.resolved = m.view o.outputDir.resolved := by
  induction he with
  | refl => rfl
  | edit op _ hp _ ih => rw [Settled.view_edit hr op hp, ih]

theorem Edited.since (he : Edited o m m') (hs : Since o.IsInput old m) :
    Since o.IsInput old m' := by
  induction he with
  | refl => exact hs
  | edit op _ _ hc ih => exact ih.follows (op.follows _) hc

/-- As long as no build failed, one that succeeds leaves the tree of the inputs that it took over. -/
theorem Run.built (hr : o.Regular) (hh : o.Hashes contents) (h : Run o contents False g₀ m)
    (hf : o.Fits contents m) {s : MergeSummary} (ho : outcome g₀.build m = (.ok (s, g), m'))
    (hc : m.clock ≤ m'.clock) : g = after o m ∧ Settled o contents m m' ∧
      ∀ path, m'.view o.outputDir.resolved (Text.split '/' path) =
        o.tree m (Text.split '/' path) := by
  obtain ⟨old, rfl, hs, htree⟩ := h.settled hr hh
  obtain ⟨hg, -, hwhole, hw⟩ := hs.build_ok hr hh hf ho
  exact ⟨hg, hs.build hr hf hwhole hw hc, hs.tree_of_build hr hh hf ho (htree id)⟩

/-- A build that stopped can be replayed once its cause is repaired, unless a file that was listed
before is a directory in the result already or what is to be made fails by itself. The replay leaves
what a new merger would exactly if it restores the files that the build that stopped was to put,
and always if only contents were written for the repair. -/
theorem Run.replays_iff (hr : o.Regular) (hh : o.Hashes contents) (h : Run o contents False g₀ m₀)
    (hf₀ : o.Fits contents m₀) {s : MergeSummary} (ho : outcome g₀.build m₀ = (.ok (s, g), m₁))
    (hc : m₀.clock ≤ m₁.clock) (he : Edited o m₁ m) (hf : o.Fits contents m)
    (hs : Stopped o m₀ m m') (hc' : m.clock ≤ m'.clock) (he' : Edited o m' new)
    (hf' : o.Fits contents new) (hrepaired : o.Repaired m new) :
    ((∃ s g' m₂, outcome g.build new = (.ok (s, g'), m₂)) ↔
        o.Replayable m₀ new (new.view o.outputDir.resolved)) ∧
      ∀ s g' m₂, outcome g.build new = (.ok (s, g'), m₂) →
        ((∀ place, place ≠ [] → m₂.view o.outputDir.resolved place = o.fresh m₂ place) ↔
          ∀ path, o.Puts m₀ m path → o.Restores m₀ new (new.view o.outputDir.resolved) path) ∧
        (o.Rewritten m₀ m new →
          ∀ place, place ≠ [] → m₂.view o.outputDir.resolved place = o.fresh m₂ place) := by
  obtain ⟨rfl, hs₁, htree⟩ := h.built hr hh hf₀ ho hc
  have hsm := hs₁.edited hr he
  obtain ⟨hwithin, hpartway⟩ := hs.partway hr hsm.namedOld hsm.named hf.mergeable hsm.root
    fun path => by rw [he.view hr, htree]
  have hsnew := (hsm.fail hr hwithin hc').edited hr he'
  have hv : o.Partway m₀ m (new.view o.outputDir.resolved) := he'.view hr ▸ hpartway
  have hsince : Since o.IsInput m new :=
    he'.since ((Since.refl _ m).congr (inputs_of_within hr hwithin) hc')
  have htells := hsnew.tells hh hf'
  refine ⟨⟨?_, fun hp => ?_⟩, fun s g' m₂ ho' => ?_⟩
  · rintro ⟨s, g', m₂, ho'⟩
    obtain ⟨-, hcarries, hwhole, -⟩ := hsnew.build_ok hr hh hf' ho'
    exact hcarries.replayable hr hsnew.named hf'.mergeable hv hrepaired hwhole
  · have hnames : ∀ place name, new.view o.outputDir.resolved (place ++ [name]) ≠ none →
        IsName name := by
      intro place name hne
      obtain ⟨item, hitem⟩ := Option.ne_none_iff_exists'.mp hne
      obtain ⟨node, hn, -⟩ := Option.map_eq_some_iff.mp hitem
      exact hsnew.named _ node hn name (by simp)
    obtain ⟨w, hcarries⟩ := exists_carries hr hsm.named hf.mergeable hsnew.named hf'.mergeable hv
      hrepaired (by simp [view, hsnew.root, Node.item]) hnames hp
    obtain ⟨s, m₂, ho'⟩ :=
      build_of_carries hr hsnew.namedOld hsnew.named hf'.mergeable hsnew.root hcarries
    exact ⟨s, _, m₂, ho'⟩
  · have hrest : ∀ path, (o.Puts m₀ m path → kindAt? (o.merged m) path = some .directory) →
        o.Restores m₀ new (new.view o.outputDir.resolved) path := fun path =>
      restores_of_partway hr hsnew.namedOld hsnew.named hsnew.fits.mergeable hf'.mergeable htells
        hv hrepaired
    have hfresh := hsnew.fresh_iff_restores hr hh hf' ho'
    refine ⟨hfresh.trans ⟨fun hall path _ => hall path, fun hputs path => ?_⟩, fun hw => ?_⟩
    · by_cases hp : o.Puts m₀ m path
      · exact hputs path hp
      · exact hrest path fun h => absurd h hp
    · refine hfresh.mpr fun path => ?_
      by_cases hk : kindAt? (o.merged m) path = some .file
      · by_cases hp : o.Puts m₀ m path
        · have hputs := hw.puts hsm.namedOld hsm.named hsnew.named hsm.fits.mergeable
            hf.mergeable hf'.mergeable hsm.datedOld hsm.since.clock hsince hk hp
          simp [Restores, hw.merged hsm.named hsnew.named, hk, hputs]
        · exact hrest path fun h => absurd h hp
      · refine hrest path fun hp => ?_
        rcases hp with ⟨e, he, -⟩ | ⟨-, hfile⟩
        · cases hkind : e.kind with
          | file => exact absurd (kindAt?_eq_some_iff.mpr ⟨e, he, hkind⟩) hk
          | directory => exact kindAt?_eq_some_iff.mpr ⟨e, he, hkind⟩
        · exact absurd hfile hk

end Merger

namespace OneTarget

open MergeOptions Merger

/-- The input trees can be merged, and their listings found without sorting. -/
structure Plain (m : Memory) : Prop where
  walked : Walked m
  subdir : m.node? ["gen", "app"] = some .dir
  fragments : ∀ name ∈ m.children ["gen", "app"], name ∉ options.listOptions.ignore
  built : m.IsTreeAt options.builtDir.resolved
  generated : m.IsTreeAt options.generatedDir.resolved

theorem plain_iff {m : Memory} : Plain m ↔ Walked m ∧ m.node? ["gen", "app"] = some .dir ∧
    (∀ name ∈ m.children ["gen", "app"], name ∉ options.listOptions.ignore) ∧
    m.IsTreeAt options.builtDir.resolved ∧ m.IsTreeAt options.generatedDir.resolved :=
  ⟨fun ⟨a, b, c, d, e⟩ => ⟨a, b, c, d, e⟩, fun ⟨a, b, c, d, e⟩ => ⟨a, b, c, d, e⟩⟩

instance (m : Memory) : Decidable (Plain m) := decidable_of_iff _ plain_iff.symm

/-- A state to build in. -/
abbrev Scene := { m : Memory // Plain m }

namespace Scene

theorem fits (s : Scene) : options.Fits (fun _ => True) s.1 :=
  ⟨{ consistent s.2.walked.1 s.2.subdir s.2.fragments with
      built := s.2.built
      generated := s.2.generated }, fun _ _ _ _ _ => trivial⟩

/-- Walks of one shape find the same kinds. -/
theorem rewritten {old : Memory} {s s' : Scene}
    (hb : (s'.1.walked options.builtDir {}).map Entry.bare =
      (s.1.walked options.builtDir {}).map Entry.bare)
    (hg : (s'.1.walked options.generatedDir {}).map Entry.bare =
      (s.1.walked options.generatedDir {}).map Entry.bare) : options.Rewritten old s.1 s'.1 := by
  have hkind : ∀ {dir : Path}, Ascending (s.1.walked dir {}) → Ascending (s'.1.walked dir {}) →
      (s'.1.walked dir {}).map Entry.bare = (s.1.walked dir {}).map Entry.bare → ∀ path,
      kindAt? (s'.1.listing dir {}) path = kindAt? (s.1.listing dir {}) path := by
    intro dir ha ha' heq path
    rw [listing_eq_walked s.2.walked.1 ha, listing_eq_walked s'.2.walked.1 ha',
      ← kindAt?_map_bare, heq, kindAt?_map_bare]
  exact ⟨hkind s.2.walked.2.1 s'.2.walked.2.1 hb, hkind s.2.walked.2.2 s'.2.walked.2.2 hg, nofun⟩

/-- Every file of the tree can be made when this holds for those that a walk finds. -/
theorem whole {s : Scene} (h : ∀ e ∈ s.1.walked options.builtDir {}, e.kind = .file →
    (options.content? s.1 {} e.path).isSome) : options.Whole s.1 := by
  intro path hk
  rw [merged_of_empty rfl s.2.walked.1, builtListing] at hk
  obtain ⟨e, he, hf⟩ := kindAt?_eq_some_iff.mp hk
  have hmem : e ∈ s.1.listing options.builtDir options.listOptions := entryAt?_mem he
  rw [listing_eq_walked s.2.walked.1 s.2.walked.2.1] at hmem
  rw [overlay_of_empty rfl, ← entryAt?_path he]
  exact h e hmem hf

end Scene

/-- A file, and a target without fragments. -/
def flat : Scene :=
  ⟨((((Memory.empty ⟨"/"⟩).addFile ⟨"/up/p"⟩ "P".toUTF8).addFile ⟨"/up/t.js"⟩ "v".toUTF8).addDir
    ⟨"/gen/app"⟩).cleared options.outputDir, by decide +kernel⟩

def flatBuilt : Memory :=
  (flat.1.addFile ⟨"/out/p"⟩ "P".toUTF8).addFile ⟨"/out/t.js"⟩ "v".toUTF8

theorem run_flat : Run options (fun _ => True) False (create options) flat.1 :=
  .start (.step (.addDir options.outputDir) (.step (.remove options.outputDir)
    (.step (.addDir ⟨"/gen/app"⟩) (.step (.addFile ⟨"/up/t.js"⟩ "v".toUTF8)
      (.step (.addFile ⟨"/up/p"⟩ "P".toUTF8) (.empty ⟨"/"⟩) (by decide +kernel))
      (by decide +kernel)) (by decide +kernel)) (by decide +kernel))
    (by decide +kernel)) (options.vacant_cleared _)

theorem build_flat : outcome (create options).build flat.1 =
    (.ok (.copied + .copied, after options flat.1), flatBuilt) := by
  rw [← after_nothing]
  exact build_of_carry (by decide +kernel) flat.2.walked (by decide +kernel)

/-- A file of the build output is added, and a fragment that is no text. -/
def spoiled : Scene :=
  ⟨(flatBuilt.addFile ⟨"/up/a.txt"⟩ "A".toUTF8).addFile ⟨"/gen/app/a.js"⟩ ⟨#[0xff]⟩,
    by decide +kernel⟩

/-- The build copies the file and fails at the target. -/
def stuck : Memory := spoiled.1.addFile ⟨"/out/a.txt"⟩ "A".toUTF8

/-- The fragment is written anew. -/
def cured : Scene := ⟨stuck.addFile ⟨"/gen/app/a.js"⟩ "a".toUTF8, by decide +kernel⟩

theorem stopped_stuck : Stopped options flat.1 spoiled.1 stuck := by
  obtain ⟨e, ho⟩ : ∃ e, outcome (after options flat.1).build spoiled.1 = (.error e, stuck) :=
    fails_of_carry flat.2.walked spoiled.2.walked (by decide +kernel) (by decide +kernel)
  exact stopped_of_error spoiled.2.walked.1 ho

theorem cured_replays_iff :
    ((∃ s g m, outcome (after options flat.1).build cured.1 = (.ok (s, g), m)) ↔
        options.Replayable flat.1 cured.1 (cured.1.view options.outputDir.resolved)) ∧
      ∀ s g m, outcome (after options flat.1).build cured.1 = (.ok (s, g), m) →
        ((∀ place, place ≠ [] →
            m.view options.outputDir.resolved place = options.fresh m place) ↔
          ∀ path, options.Puts flat.1 spoiled.1 path →
            options.Restores flat.1 cured.1 (cured.1.view options.outputDir.resolved) path) ∧
        (options.Rewritten flat.1 spoiled.1 cured.1 →
          ∀ place, place ≠ [] →
            m.view options.outputDir.resolved place = options.fresh m place) := by
  have hspoiled : Edited options flatBuilt spoiled.1 :=
    .edit (.addFile ⟨"/gen/app/a.js"⟩ ⟨#[0xff]⟩)
      (.edit (.addFile ⟨"/up/a.txt"⟩ "A".toUTF8) .refl (.inl (by decide +kernel))
        (by decide +kernel))
      (.inr (by decide +kernel)) (by decide +kernel)
  have hcured : Edited options stuck cured.1 :=
    .edit (.addFile ⟨"/gen/app/a.js"⟩ "a".toUTF8) .refl (.inr (by decide +kernel))
      (by decide +kernel)
  have hrewritten : options.Rewritten flat.1 spoiled.1 cured.1 :=
    Scene.rewritten (by decide +kernel) (by decide +kernel)
  exact Run.replays_iff regular nofun run_flat flat.fits build_flat (by decide +kernel) hspoiled
    spoiled.fits stopped_stuck (by decide +kernel) hcured cured.fits
    (hrewritten.repaired spoiled.2.walked.1 cured.2.walked.1)

/-- The file becomes a directory, and the target gets a fragment that is no text. -/
def nested : Scene :=
  ⟨((flatBuilt.remove ⟨"/up/p"⟩).addFile ⟨"/up/p/x"⟩ "X".toUTF8).addFile
    ⟨"/gen/app/a.js"⟩ ⟨#[0xff]⟩, by decide +kernel⟩

/-- The build makes a directory of the file and fails at the target. -/
def nestedStuck : Memory := (nested.1.remove ⟨"/out/p"⟩).addFile ⟨"/out/p/x"⟩ "X".toUTF8

/-- The fragment is written anew. -/
def nestedCured : Scene :=
  ⟨nestedStuck.addFile ⟨"/gen/app/a.js"⟩ "a".toUTF8, by decide +kernel⟩

/-- The next build starts by unlinking the file, in whose place there is a directory, and fails. -/
theorem nestedCured_fails :
    Run options (fun _ => True) False (create options) flat.1 ∧
    options.Fits (fun _ => True) flat.1 ∧
    outcome (create options).build flat.1 =
      (.ok (.copied + .copied, after options flat.1), flatBuilt) ∧
    Edited options flatBuilt nested.1 ∧ options.Fits (fun _ => True) nested.1 ∧
    (∃ e, outcome (after options flat.1).build nested.1 = (.error e, nestedStuck)) ∧
    Edited options nestedStuck nestedCured.1 ∧ options.Fits (fun _ => True) nestedCured.1 ∧
    options.Rewritten flat.1 nested.1 nestedCured.1 ∧ options.Whole nestedCured.1 ∧
    ∃ e, outcome (after options flat.1).build nestedCured.1 = (.error e, nestedCured.1) := by
  refine ⟨run_flat, flat.fits, build_flat, ?_, nested.fits, ?_, ?_, nestedCured.fits, ?_, ?_, ?_⟩
  · exact .edit (.addFile ⟨"/gen/app/a.js"⟩ ⟨#[0xff]⟩)
      (.edit (.addFile ⟨"/up/p/x"⟩ "X".toUTF8)
        (.edit (.remove ⟨"/up/p"⟩) .refl (.inl (by decide +kernel)) (by decide +kernel))
        (.inl (by decide +kernel)) (by decide +kernel))
      (.inr (by decide +kernel)) (by decide +kernel)
  · exact fails_of_carry flat.2.walked nested.2.walked (by decide +kernel) (by decide +kernel)
  · exact .edit (.addFile ⟨"/gen/app/a.js"⟩ "a".toUTF8) .refl (.inr (by decide +kernel))
      (by decide +kernel)
  · exact Scene.rewritten (by decide +kernel) (by decide +kernel)
  · exact Scene.whole (by decide +kernel)
  · exact fails_of_carry flat.2.walked nestedCured.2.walked (by decide +kernel) (by decide +kernel)

end OneTarget

end VendorBundle
