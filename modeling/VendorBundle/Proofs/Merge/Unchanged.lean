import VendorBundle.Proofs.Merge.Feeds
import VendorBundle.Proofs.Merge.Inputs

/-!
# What need not be made anew

When a path of the listing is as it was and the path is no target left to make anew, then the file
that stands there is what it would be made of now: its own text has its old token, and so have all
its fragments.
-/

namespace VendorBundle

open Entry Memory

namespace MergeOptions

variable (o : MergeOptions)

/-- The patch of the generated tree between two states. -/
def generatedPatch (m m' : Memory) : Patch :=
  Patch.between (o.generatedListing m) (o.generatedListing m')

/-- The patch that a build carries over between two states. -/
def builtPatch (m m' : Memory) : Patch := Patch.between (o.merged m) (o.merged m')

/-- The targets that are left to make anew after the patch between two states. -/
def left (m m' : Memory) : List String :=
  (Merger.create o).remaining ((Merger.create o).affected (o.generatedPatch m m'))
    (o.builtPatch m m')

/-- Files of the input trees of two states with the same token have the same content. -/
def Tells (m m' : Memory) : Prop :=
  ∀ place place' content content' time time', o.IsInput place → o.IsInput place' →
    m.node? place = some (.file content time) → m'.node? place' = some (.file content' time') →
    o.listOptions.tokenMode.token content time = o.listOptions.tokenMode.token content' time' →
    content = content'

variable {o}

/-- The time of modification tells contents apart, as it is never used twice. -/
theorem tells_of_stat (hmode : o.listOptions.tokenMode = .stat) {m m' : Memory}
    (hd : Dated o.IsInput m) (hs : Since o.IsInput m m') : o.Tells m m' := by
  intro place place' content content' time time' hp hp' hn hn' ht
  rw [hmode] at ht
  obtain rfl := TokenMode.time_eq_of_stat ht
  have hold := hs.node?_of_same_time hd (UInt64.le_refl _) hp hp' hn hn'
  exact hd.alike place place' content content' time hp hp' hn hold

/-- So does the content itself, if its hash does. -/
theorem tells_of_content (hmode : o.listOptions.tokenMode = .content)
    {contents : ByteArray → Prop}
    (hinj : ∀ a b, contents a → contents b → Digest.hex a = Digest.hex b → a = b) {m m' : Memory}
    (hm : ∀ place content time, o.IsInput place → m.node? place = some (.file content time) →
      contents content)
    (hm' : ∀ place content time, o.IsInput place → m'.node? place = some (.file content time) →
      contents content) : o.Tells m m' := by
  intro place place' content content' time time' hp hp' hn hn' ht
  rw [hmode] at ht
  simp only [TokenMode.token, ChangeToken.ofContent, ChangeToken.content.injEq] at ht
  exact hinj _ _ (hm _ _ _ hp hn) (hm' _ _ _ hp' hn') ht

/-! ## Targets that are left -/

variable {m m' : Memory}

theorem mem_left {target : String} : target ∈ o.left m m' ↔
    (∃ op ∈ o.generatedPatch m m', target ∈ (Feeds.ofTargets o.targets).targetsOf op.path) ∧
      ∀ op ∈ o.builtPatch m m', (Merger.create o).settles op ≠ some target := by
  rw [left, Merger.remaining, Table.mem_keys_ofList]
  simp only [List.map_map, List.mem_map, Function.comp_apply, exists_eq_right, List.mem_filter,
    Merger.affected, List.mem_flatMap, Merger.create, Bool.not_eq_true', List.contains_eq_mem,
    decide_eq_false_iff_not, List.mem_filterMap, not_exists, not_and, ne_eq]

theorem contains_of_mem_left {target : String} (h : target ∈ o.left m m') :
    o.targets.contains target = true := by
  obtain ⟨⟨op, -, ht⟩, -⟩ := mem_left.mp h
  exact Feeds.contains_of_mem_targetsOf ht

theorem left_ascending : (o.left m m').Pairwise fun a b => compare a b = .lt :=
  Table.keys_ascending _

/-! ## Fragments -/

theorem fragments?_of_tree {root dir : Place} (ht : m.IsTreeAt root) (hp : root <+: dir)
    (extension : String) : m.fragments? dir extension =
      (m.filesWith dir extension).mapM fun name => m.text? (dir ++ [name]) := by
  rw [fragments?]
  split
  · rfl
  · rename_i hd
    have hnil : m.filesWith dir extension = [] := by
      rw [List.eq_nil_iff_forall_not_mem]
      intro name hn
      obtain ⟨-, hb⟩ := mem_filesWith.mp hn
      obtain ⟨content, hc⟩ := Option.isSome_iff_exists.mp hb
      obtain ⟨time, hnode⟩ := bytes?_eq_some_iff.mp hc
      exact hd (ht dir name _ hp hnode)
    rw [hnil]
    rfl

theorem fragments?_congr_of_tree {root dir : Place} (ht : m.IsTreeAt root) (ht' : m'.IsTreeAt root)
    (hp : root <+: dir) {extension : String}
    (h : ∀ name, extensionOf? name = some extension →
      m'.bytes? (dir ++ [name]) = m.bytes? (dir ++ [name])) :
    m'.fragments? dir extension = m.fragments? dir extension := by
  rw [fragments?_of_tree ht hp, fragments?_of_tree ht' hp, filesWith_congr h]
  exact mapM_eq_of_forall fun name hn => text?_congr (h name (mem_filesWith.mp hn).1)

/-- Listings show the fragments from a source: its directory is written plainly, no name on the way
to a fragment is ignored, and no mapped directory has the path of a fragment. -/
structure Shows (o : MergeOptions) (m : Memory) (source : FragmentSource) : Prop where
  tree : m.IsTreeAt o.generatedDir.resolved
  plain : Canonical source.subdir
  shown : ∀ n ∈ Text.split '/' source.subdir, n ∉ o.listOptions.ignore
  fragments : ∀ name, extensionOf? name = some source.extension →
    (m.bytes? (o.generatedDir.resolved ++ Text.split '/' source.subdir ++ [name])).isSome →
    name ∉ o.listOptions.ignore
  subdirs : ∀ name, source.subdir ++ "/" ++ name ∈ (Feeds.ofTargets o.targets).keys →
    m.bytes? (o.generatedDir.resolved ++ Text.split '/' (source.subdir ++ "/" ++ name)) = none

theorem Mergeable.shows (hr : o.Regular) (h : o.Mergeable m) {target : String}
    {source : FragmentSource} (hs : o.targets.get? target = some source) : o.Shows m source where
  tree := h.generated
  plain := (hr.subdirs target source hs).1
  shown := (hr.subdirs target source hs).2
  fragments := fun name _ => h.fragments target source name hs
  subdirs := fun name hk => by
    obtain ⟨target', source', hs', hd⟩ := Feeds.mem_keys_ofTargets.mp hk
    exact hd ▸ h.subdirs target' source' hs'

/-- A fragment right inside a mapped directory is listed. -/
theorem Shows.listed (hm : m.Named) {source : FragmentSource} (h : o.Shows m source)
    {name : String} (hname : IsName name) (he : extensionOf? name = some source.extension)
    {content : ByteArray}
    (hb : m.bytes? (o.generatedDir.resolved ++ Text.split '/' source.subdir ++ [name]) =
      some content) :
    ∃ time, m.node? (o.generatedDir.resolved ++ Text.split '/' (source.subdir ++ "/" ++ name)) =
        some (.file content time) ∧
      entryAt? (o.generatedListing m) (source.subdir ++ "/" ++ name) =
        some (.file (source.subdir ++ "/" ++ name)
          (o.listOptions.tokenMode.token content time)) := by
  obtain ⟨time, hn⟩ := bytes?_eq_some_iff.mp hb
  have hsplit : Text.split '/' (source.subdir ++ "/" ++ name) =
      Text.split '/' source.subdir ++ [name] := by rw [Text.split_append, hname.split]
  rw [List.append_assoc, ← hsplit] at hn
  refine ⟨time, hn, ?_⟩
  rw [generatedListing, entryAt?_listing hm h.tree, listed?_eq_some_iff]
  refine ⟨fun n hn' => ?_, _, hn, rfl⟩
  rw [hsplit, List.mem_append, List.mem_singleton] at hn'
  rcases hn' with hn' | rfl
  · exact h.shown n hn'
  · exact h.fragments n he (by rw [hb]; rfl)

/-- What is listed as no file has no bytes in the place of a fragment. -/
theorem Shows.bytes?_eq_none (hm : m.Named) {source : FragmentSource} (h : o.Shows m source)
    {name : String} (he : extensionOf? name = some source.extension)
    (hno : kindAt? (o.generatedListing m) (source.subdir ++ "/" ++ name) ≠ some .file) :
    m.bytes? (o.generatedDir.resolved ++ Text.split '/' source.subdir ++ [name]) = none := by
  by_contra hne
  obtain ⟨content, hb⟩ := Option.ne_none_iff_exists'.mp hne
  obtain ⟨time, hn⟩ := bytes?_eq_some_iff.mp hb
  have hname : IsName name := hm _ _ hn name (by simp)
  obtain ⟨time, -, hat⟩ := h.listed hm hname he hb
  exact hno (by rw [kindAt?, hat]; rfl)

theorem bytes?_of_listed (hm : m.Named) (h : m.IsTreeAt o.generatedDir.resolved) {path : String}
    {e : Entry} (he : entryAt? (o.generatedListing m) path = some e) (hf : e.kind = .file) :
    ∃ content time, m.node? (o.generatedDir.resolved ++ Text.split '/' path) =
      some (.file content time) ∧ e.token = o.listOptions.tokenMode.token content time := by
  rw [generatedListing, entryAt?_listing hm h, listed?_eq_some_iff] at he
  obtain ⟨-, node, hn, rfl⟩ := he
  cases node with
  | dir => exact absurd hf (by simp [Node.entry, Entry.dir])
  | file content time => exact ⟨content, time, hn, rfl⟩

/-- A generated file whose token stayed has the same bytes. -/
theorem bytes?_of_same_token (hm : m.Named) (hm' : m'.Named)
    (h : m.IsTreeAt o.generatedDir.resolved) (h' : m'.IsTreeAt o.generatedDir.resolved)
    (ht : o.Tells m m') {path : String} {old new : Entry}
    (hold : entryAt? (o.generatedListing m) path = some old)
    (hnew : entryAt? (o.generatedListing m') path = some new) (hf : old.kind = .file)
    (hf' : new.kind = .file) (htoken : old.token = new.token) :
    m'.bytes? (o.generatedDir.resolved ++ Text.split '/' path) =
      m.bytes? (o.generatedDir.resolved ++ Text.split '/' path) := by
  obtain ⟨content, time, hn, htok⟩ := bytes?_of_listed hm h hold hf
  obtain ⟨content', time', hn', htok'⟩ := bytes?_of_listed hm' h' hnew hf'
  have hinput : o.IsInput (o.generatedDir.resolved ++ Text.split '/' path) :=
    .inr (List.prefix_append _ _)
  have heq := ht _ _ _ _ _ _ hinput hinput hn hn' (by rw [← htok, ← htok', htoken])
  rw [bytes?_eq_some_iff.mpr ⟨time, hn⟩, bytes?_eq_some_iff.mpr ⟨time', hn'⟩, heq]

/-- The fragments of a target that no change reaches are as they were. -/
theorem fragment_unchanged (hm : m.Named) (hm' : m'.Named) {target : String}
    {source : FragmentSource} (hs : o.targets.get? target = some source) (h : o.Shows m source)
    (h' : o.Shows m' source) (ht : o.Tells m m')
    (hu : ∀ op ∈ o.generatedPatch m m', target ∉ (Feeds.ofTargets o.targets).targetsOf op.path)
    {name : String} (he : extensionOf? name = some source.extension) :
    m'.bytes? (o.generatedDir.resolved ++ Text.split '/' source.subdir ++ [name]) =
      m.bytes? (o.generatedDir.resolved ++ Text.split '/' source.subdir ++ [name]) := by
  by_cases hname : IsName name
  · have hsplit : Text.split '/' (source.subdir ++ "/" ++ name) =
        Text.split '/' source.subdir ++ [name] := by rw [Text.split_append, hname.split]
    by_cases hk : source.subdir ++ "/" ++ name ∈ (Feeds.ofTargets o.targets).keys
    · rw [List.append_assoc, ← hsplit, h.subdirs name hk, h'.subdirs name hk]
    · have hno : ∀ op ∈ o.generatedPatch m m', op.path ≠ source.subdir ++ "/" ++ name :=
        fun op hop hp =>
          hu op hop (hp ▸ Feeds.mem_targetsOf hs hname.2.2.2 h.plain.ne_empty he hk)
      have ho : Ascending (o.generatedListing m) := ascending_listing hm _ _
      have hn : Ascending (o.generatedListing m') := ascending_listing hm' _ _
      have hkind := Patch.kindAt?_of_no_op ho hn hno
      by_cases hf : kindAt? (o.generatedListing m) (source.subdir ++ "/" ++ name) = some .file
      · obtain ⟨old, hold, hfile⟩ := kindAt?_eq_some_iff.mp hf
        obtain ⟨new, hnew, hfile'⟩ := kindAt?_eq_some_iff.mp (hkind ▸ hf)
        rw [List.append_assoc, ← hsplit]
        exact bytes?_of_same_token hm hm' h.tree h'.tree ht hold hnew hfile hfile'
          (Patch.token_of_no_op ho hn hno hold hnew hfile)
      · rw [h.bytes?_eq_none hm he hf, h'.bytes?_eq_none hm' he (hkind ▸ hf)]
  · have hnone : ∀ {m₁ : Memory}, m₁.Named →
        m₁.bytes? (o.generatedDir.resolved ++ Text.split '/' source.subdir ++ [name]) = none := by
      intro m₁ hm₁
      by_contra hne
      obtain ⟨content, hb⟩ := Option.ne_none_iff_exists'.mp hne
      obtain ⟨time, hn⟩ := bytes?_eq_some_iff.mp hb
      exact hname (hm₁ _ _ hn name (by simp))
    rw [hnone hm, hnone hm']

/-- So are all of them together. -/
theorem fragments?_unchanged (hm : m.Named) (hm' : m'.Named) {target : String}
    {source : FragmentSource} (hs : o.targets.get? target = some source) (h : o.Shows m source)
    (h' : o.Shows m' source) (ht : o.Tells m m')
    (hu : ∀ op ∈ o.generatedPatch m m', target ∉ (Feeds.ofTargets o.targets).targetsOf op.path) :
    m'.fragments? (o.generatedDir.resolved ++ Text.split '/' source.subdir) source.extension =
      m.fragments? (o.generatedDir.resolved ++ Text.split '/' source.subdir) source.extension :=
  fragments?_congr_of_tree h.tree h'.tree (List.prefix_append _ _) fun _ he =>
    fragment_unchanged hm hm' hs h h' ht hu he

/-! ## Files of the result -/

/-- The origins of a file whose token stayed have the same content. -/
theorem origin_unchanged (hm : m.Named) (hm' : m'.Named) (h : o.Mergeable m) (h' : o.Mergeable m')
    (ht : o.Tells m m') {path : String} {old new : Entry}
    (hold : entryAt? (o.merged m) path = some old) (hnew : entryAt? (o.merged m') path = some new)
    (hf : old.kind = .file) (hf' : new.kind = .file) (htoken : old.token = new.token) :
    m'.bytes? (o.origin m' path) = m.bytes? (o.origin m path) := by
  obtain ⟨content, time, hn, htok⟩ := origin_of_file hm h hold hf
  obtain ⟨content', time', hn', htok'⟩ := origin_of_file hm' h' hnew hf'
  have heq := ht _ _ _ _ _ _ (isInput_origin path) (isInput_origin path) hn hn'
    (by rw [← htok, ← htok', htoken])
  rw [bytes?_eq_some_iff.mpr ⟨time, hn⟩, bytes?_eq_some_iff.mpr ⟨time', hn'⟩, heq]

theorem path_of_settles {g : Merger} {op : PatchOp} {path : String}
    (h : g.settles op = some path) : op.path = path := by
  cases op with
  | unlink p => exact Option.some.inj h
  | rmdir p | mkdir p => exact absurd h (by simp [Merger.settles])
  | create p e | change p e =>
      simp only [Merger.settles] at h
      split at h
      · exact Option.some.inj h
      · exact absurd h (by simp)

/-- No change is about a file whose token stayed. -/
theorem path_ne_of_same {path : String} {old new : Entry}
    (hold : entryAt? (o.merged m) path = some old) (hnew : entryAt? (o.merged m') path = some new)
    (hk : old.kind = new.kind) (htoken : old.kind = .file → old.token = new.token) {op : PatchOp}
    (hop : op ∈ o.builtPatch m m') : op.path ≠ path := by
  intro hp
  have hpo := entryAt?_path hold
  have hpn := entryAt?_path hnew
  rcases (Patch.mem_between ascending_merged ascending_merged).mp hop with
    ⟨old', hm, hgone, rfl⟩ | ⟨new', hm, ha⟩
  · rw [PatchOp.path_removal] at hp
    obtain rfl := ascending_merged.eq_of_path hm (entryAt?_mem hold) (hp.trans hpo.symm)
    simp [Patch.isGone, hp, hnew, hk] at hgone
  · rw [Patch.path_of_arrival? ha] at hp
    obtain rfl := ascending_merged.eq_of_path hm (entryAt?_mem hnew) (hp.trans hpn.symm)
    rw [Patch.arrival?_eq_none_iff.mpr ⟨old, hp ▸ hold, hk, htoken⟩] at ha
    exact absurd ha (by simp)

/-- A file whose token stayed is made of the same content, unless it is a target left to make
anew. -/
theorem content?_unchanged (hr : o.Regular) (hm : m.Named) (hm' : m'.Named) (h : o.Mergeable m)
    (h' : o.Mergeable m') (ht : o.Tells m m') {path : String} {old new : Entry}
    (hold : entryAt? (o.merged m) path = some old) (hnew : entryAt? (o.merged m') path = some new)
    (hf : old.kind = .file) (hf' : new.kind = .file) (htoken : old.token = new.token)
    (hl : path ∉ o.left m m') :
    o.content? m' (o.overlay m') path = o.content? m (o.overlay m) path := by
  have horigin := origin_unchanged hm hm' h h' ht hold hnew hf hf' htoken
  cases htarget : o.targets.contains path with
  | false => rw [content?_of_not_target htarget, content?_of_not_target htarget, horigin]
  | true =>
      obtain ⟨source, hs⟩ := Option.isSome_iff_exists.mp htarget
      rw [origin_of_target h htarget, origin_of_target h' htarget] at horigin
      have hu : ∀ op ∈ o.generatedPatch m m',
          path ∉ (Feeds.ofTargets o.targets).targetsOf op.path := by
        intro op hop hmem
        refine hl (mem_left.mpr ⟨⟨op, hop, hmem⟩, fun op' hop' hsettles => ?_⟩)
        exact path_ne_of_same hold hnew (hf.trans hf'.symm) (fun _ => htoken) hop'
          (path_of_settles hsettles)
      have hfragments := fragments?_unchanged hm hm' hs (h.shows hr hs) (h'.shows hr hs) ht hu
      simp only [content?, hs, mergedBytes?, hfragments, horigin, text?_congr horigin]

end MergeOptions

end VendorBundle
