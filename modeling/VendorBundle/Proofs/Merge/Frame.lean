import VendorBundle.Proofs.Merge.Steps

/-!
# What a build leaves alone

Whatever the steps of a build do, and also when they fail, they change nothing but what is at or
below the root of the result and directories above it.
-/

namespace VendorBundle

open Effect

namespace Memory

/-- A state follows from another one by operations at or below a root, which stays a directory. -/
inductive Within (root : Place) (m : Memory) : Memory → Prop where
  | refl : Within root m m
  | step {m' m'' path} (h : Within root m m') (hp : root <+: path) (hn : ∀ n ∈ path, IsName n)
      (hf : Follows m' m'' path) (hd : m'.node? root = some .dir → m''.node? root = some .dir) :
      Within root m m''

variable {root : Place} {m m' m'' : Memory}

theorem Within.trans (h : Within root m m') (h' : Within root m' m'') : Within root m m'' := by
  induction h' with
  | refl => exact h
  | step _ hp hn hf hd ih => exact .step ih hp hn hf hd

theorem Within.named (h : Within root m m') (hm : m.Named) : m'.Named := by
  induction h with
  | refl => exact hm
  | step _ _ hn hf _ ih => exact ih.follows hf hn

theorem Within.dir (h : Within root m m') (hm : m.node? root = some .dir) :
    m'.node? root = some .dir := by
  induction h with
  | refl => exact hm
  | step _ _ _ _ hd ih => exact hd ih

/-- What is below a place is not on the way to it. -/
theorem not_prefix_append_self {p q : Place} (hq : q ≠ []) : ¬ p ++ q <+: p := fun h =>
  hq (List.append_right_eq_self.mp (h.eq_of_length_le (by simp)))

/-- Two places of which neither is at or below the other. -/
def Apart (p q : Place) : Prop := ¬ p <+: q ∧ ¬ q <+: p

instance (p q : Place) : Decidable (Apart p q) := inferInstanceAs (Decidable (_ ∧ _))

theorem Apart.symm {p q : Place} (h : Apart p q) : Apart q p := ⟨h.2, h.1⟩

/-- What is below one of two places is not at, above or below what is below the other. -/
theorem Apart.below {p q p' q' : Place} (h : Apart p q) (hp : p <+: p') (hq : q <+: q') :
    Apart p' q' := by
  constructor
  · intro hpre
    rcases List.prefix_or_prefix_of_prefix (hp.trans hpre) hq with h' | h'
    · exact h.1 h'
    · exact h.2 h'
  · intro hpre
    rcases List.prefix_or_prefix_of_prefix (hq.trans hpre) hp with h' | h'
    · exact h.2 h'
    · exact h.1 h'

theorem Follows.node?_of_apart {target place : Place} (h : Follows m m' target)
    (ha : Apart target place) : m'.node? place = m.node? place := by
  cases h.change place with
  | kept hk => exact hk
  | taken hp _ => exact absurd hp ha.1
  | opened hp _ _ => exact absurd hp ha.2
  | written hp _ _ _ => exact absurd (hp ▸ List.prefix_refl _) ha.1

theorem Within.node?_of_apart (h : Within root m m') {place region : Place}
    (ha : Apart root region) (hp : region <+: place) : m'.node? place = m.node? place := by
  induction h with
  | refl => rfl
  | step _ hpath _ hf _ ih => rw [hf.node?_of_apart (ha.below hpath hp), ih]

theorem Within.addDir {path : Path} (hp : path.resolved = root ++ q) (m : Memory) :
    Within root m (m.addDir path) := by
  refine .step .refl (hp ▸ List.prefix_append root q) (fun n => Path.isName_of_mem_resolved)
    (follows_addDir m path) fun hd => ?_
  rw [node?_addDir, if_pos (hp ▸ List.prefix_append root q), hd]
  rfl

theorem Within.addDir_root (path : Path) (m : Memory) : Within path.resolved m (m.addDir path) :=
  .addDir (List.append_nil path.resolved).symm m

theorem Within.of_follows {path : Path} {q : Place} (hp : path.resolved = root ++ q) (hq : q ≠ [])
    (hf : Follows m m' path.resolved) : Within root m m' := by
  refine .step .refl (hp ▸ List.prefix_append root q) (fun n => Path.isName_of_mem_resolved) hf
    fun hd => ?_
  cases hf.change root with
  | kept hk => rw [hk, hd]
  | taken hpre _ => exact absurd (hp ▸ hpre) (not_prefix_append_self hq)
  | opened _ hn _ => simp [hn] at hd
  | written he _ _ _ => exact absurd (by simpa [hp] using he) hq

end Memory

namespace Merger

open Memory

variable {root : Place}

theorem keeps_bind {ε α β : Type} {x : Effect Memory ε α} {f : α → Effect Memory ε β}
    (hx : Keeps (Within root) x) (hf : ∀ a, Keeps (Within root) (f a)) :
    Keeps (Within root) (x >>= f) :=
  Keeps.bind (r := Within root) Within.trans hx hf

theorem keeps_pure {ε α : Type} (a : α) : Keeps (Within root) (pure a : Effect Memory ε α) :=
  .pure (fun _ => .refl) a

theorem keeps_look {ε α : Type} (f : Memory → Except ε α) :
    Keeps (Within root) (Files.look f) :=
  .look (fun _ => .refl) f

theorem keeps_tried {α : Type} {e : Effect Memory FileError α} (h : Keeps (Within root) e)
    (action : FileAction) (path : Path) : Keeps (Within root) (tried action path e) :=
  h.adapt _

theorem keeps_get {ε : Type} : Keeps (Within root) (get : Effect Memory ε Memory) :=
  .get fun _ => .refl

theorem keeps_mapM {ε α β : Type} {f : α → Effect Memory ε β} (h : ∀ a, Keeps (Within root) (f a))
    (items : List α) : Keeps (Within root) (items.mapM f) :=
  .mapM (r := Within root) (fun _ => .refl) Within.trans h items

theorem keeps_createDir {path : Path} {q : Place} (hp : path.resolved = root ++ q) :
    Keeps (Within root) (Files.createDir true path : Effect Memory FileError Unit) := fun m => by
  rw [outcome_createDir]
  exact .addDir hp m

theorem keeps_remove {path : Path} {q : Place} (hp : path.resolved = root ++ q) (hq : q ≠ [])
    (isDir : Bool) : Keeps (Within root) (remove path isDir) := fun m => by
  have hf : Follows m (m.settle (if isDir then m.removeDir path else m.removeFile path))
      path.resolved := by
    cases isDir with
    | true => exact follows_removeDir m path
    | false => exact follows_removeFile m path
  rw [outcome_remove]
  cases h : (if isDir then m.removeDir path else m.removeFile path) with
  | ok m' =>
      rw [h] at hf
      exact .of_follows hp hq hf
  | error e => exact .refl

theorem keeps_writeFile {dir : Path} {text : String} (ht : Canonical text) (content : ByteArray) :
    Keeps (Within dir.resolved) (writeFile (dir.join ⟨text⟩) content) := by
  obtain ⟨parent, hparent, hres⟩ := Path.parent?_join dir ht
  rw [writeFile, hparent]
  refine keeps_bind (keeps_tried (keeps_createDir hres) _ _) fun _ => keeps_tried (fun m => ?_) _ _
  rw [outcome_write]
  exact .of_follows (Path.resolved_join dir ht) (Text.split_ne_nil _ _)
    (follows_write m _ content)

theorem keeps_copyFile {dir : Path} {text : String} (ht : Canonical text) (source : Path) :
    Keeps (Within dir.resolved) (copyFile source (dir.join ⟨text⟩)) :=
  keeps_bind (keeps_tried (keeps_look _) _ _) fun content => keeps_writeFile ht content

variable (g : Merger)

theorem keeps_fragments (source : FragmentSource) :
    Keeps (Within root) (g.fragments source : MergeEffect Memory _) := by
  refine keeps_bind keeps_get fun m => ?_
  split
  · exact keeps_bind (keeps_tried (keeps_look _) _ _) fun names =>
      keeps_mapM (fun name => keeps_tried (keeps_look _) _ _) names
  · exact keeps_pure []

theorem keeps_regenerate {target : String} (ht : Canonical target) :
    Keeps (Within g.options.outputDir.resolved)
      (g.regenerate target : MergeEffect Memory MergeSummary) := by
  refine keeps_bind keeps_get fun m => ?_
  have hout := Path.resolved_join g.options.outputDir ht
  split
  · exact keeps_bind (keeps_remove hout (Text.split_ne_nil _ _) false) fun _ => keeps_pure _
  · split
    · exact keeps_bind (keeps_copyFile ht _) fun _ => keeps_pure _
    · refine keeps_bind (g.keeps_fragments _) fun texts => ?_
      split
      · exact keeps_bind (keeps_copyFile ht _) fun _ => keeps_pure _
      · exact keeps_bind (keeps_tried (keeps_look _) _ _) fun text =>
          keeps_bind (keeps_writeFile ht _) fun _ => keeps_pure _

/-- What carries a new or changed file over. -/
def putFile (g : Merger) (overlay : Overlay) (path : String) :
    MergeEffect Memory MergeSummary :=
  if g.targets.contains path then g.regenerate path
  else do
    match overlay.sources.get? path with
    | some source =>
        copyFile (g.options.generatedDir.join ⟨source⟩) (g.options.outputDir.join ⟨path⟩)
    | none => copyFile (g.options.builtDir.join ⟨path⟩) (g.options.outputDir.join ⟨path⟩)
    pure .copied

theorem keeps_putFile (overlay : Overlay) {path : String} (hpath : Canonical path) :
    Keeps (Within g.options.outputDir.resolved) (g.putFile overlay path) := by
  rw [putFile]
  split
  · exact g.keeps_regenerate hpath
  · split
    · exact keeps_bind (keeps_copyFile hpath _) fun _ => keeps_pure _
    · exact keeps_bind (keeps_copyFile hpath _) fun _ => keeps_pure _

theorem keeps_apply (overlay : Overlay) {op : PatchOp} (hop : Canonical op.path) :
    Keeps (Within g.options.outputDir.resolved)
      (g.apply overlay op : MergeEffect Memory MergeSummary) := by
  have hout := Path.resolved_join g.options.outputDir hop
  cases op with
  | unlink path =>
      exact keeps_bind (keeps_remove hout (Text.split_ne_nil _ _) false) fun _ => keeps_pure _
  | rmdir path =>
      exact keeps_bind (keeps_remove hout (Text.split_ne_nil _ _) true) fun _ => keeps_pure _
  | mkdir path =>
      exact keeps_bind (keeps_tried (keeps_createDir hout) _ _) fun _ => keeps_pure _
  | change path entry | create path entry => exact g.keeps_putFile overlay hop

/-- A sequence of steps keeps what each step keeps. -/
theorem keeps_summed {α : Type} {r : Memory → Memory → Prop} (hrefl : ∀ m, r m m)
    (htrans : ∀ {a b c}, r a b → r b c → r a c) {step : α → MergeEffect Memory MergeSummary}
    {items : List α} (h : ∀ a ∈ items, Keeps r (step a)) : Keeps r (summed step items) := by
  have hfold : ∀ s : MergeSummary,
      Keeps r (items.foldlM (fun s a => do pure (s + (← step a))) s) := by
    induction items with
    | nil => exact fun s => hrefl
    | cons a items ih =>
        intro s
        rw [List.foldlM_cons]
        have hfirst : Keeps r (do pure (s + (← step a)) : MergeEffect Memory MergeSummary) :=
          Keeps.bind (r := r) htrans (h a List.mem_cons_self) fun _ => hrefl
        exact Keeps.bind (r := r) htrans hfirst fun s' => ih (fun b hb => h b (List.mem_cons_of_mem _ hb)) s'
  exact hfold {}

end Merger

end VendorBundle
