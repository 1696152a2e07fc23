import VendorBundle.Proofs.Memory.Effect
import VendorBundle.Proofs.Merge.Content

/-!
# The steps of a build as acts

Each step of a build succeeds exactly when the act it stands for is possible, and then has the
effect of that act on the tree of the result.
-/

namespace VendorBundle

open Effect

/-! ## Views of changed states -/

namespace Memory

variable (m : Memory) (root q : Place)

theorem view_without : (m.without (root ++ q)).view root = (m.view root).put q none := by
  funext p
  simp only [view, node?_without, View.put, List.append_right_inj]
  split <;> rfl

theorem view_put (content : ByteArray) :
    (m.put (root ++ q) content).view root = (m.view root).put q (some (.file content)) := by
  funext p
  simp only [view, node?_put, View.put, List.append_right_inj]
  split <;> rfl

theorem view_addDir {path : Path} (hp : path.resolved = root ++ q) :
    (m.addDir path).view root = (m.view root).fill q := by
  funext p
  simp only [view, node?_addDir, View.fill, hp, List.prefix_append_right_inj]
  cases m.node? (root ++ p) with
  | none => split <;> simp [Node.item]
  | some node => split <;> simp

end Memory

namespace Merger

/-- An effect on the result succeeds exactly when an act is possible, and does what the act does. When
it fails, it leaves what the act then leaves. -/
structure Performs {α : Type} (root : Place) (a : Act) (e : MergeEffect Memory α) (m : Memory) :
    Prop where
  possible : ∀ r m', outcome e m = (.ok r, m') → a.Possible (m.view root)
  result : ∀ r m', outcome e m = (.ok r, m') → m'.view root = a.result (m.view root)
  succeeds : a.Possible (m.view root) → ∃ r m', outcome e m = (.ok r, m')
  fails : ∀ error m', outcome e m = (.error error, m') → m'.view root = a.remains (m.view root)

theorem Performs.pure {α β : Type} {root : Place} {a : Act} {e : MergeEffect Memory α} {m : Memory}
    (h : Performs root a e m) (r : β) : Performs root a (do _ ← e; return r) m := by
  refine ⟨fun r' m' he => ?_, fun r' m' he => ?_, fun hp => ?_, fun error m' he => ?_⟩
  · obtain ⟨s, t, hs, -⟩ := outcome_bind_eq_ok_iff.mp he
    exact h.possible s t hs
  · obtain ⟨s, t, hs, ht⟩ := outcome_bind_eq_ok_iff.mp he
    rw [outcome_pure, Prod.mk.injEq] at ht
    exact ht.2 ▸ h.result s t hs
  · obtain ⟨s, t, hs⟩ := h.succeeds hp
    exact ⟨r, t, outcome_bind_of_ok hs _⟩
  · rw [outcome_bind] at he
    split at he
    · exact absurd (Prod.mk.inj he).1 nofun
    · rename_i e' t ht
      obtain ⟨-, rfl⟩ := Prod.mk.inj he
      exact h.fails e' t ht

/-! ## Removing -/

theorem outcome_tried {α : Type} (action : FileAction) (path : Path)
    (run : Effect Memory FileError α) (m : Memory) :
    outcome (tried action path run) m =
      ((outcome run m).1.mapError (.failed action path), (outcome run m).2) := rfl

theorem outcome_remove (path : Path) (isDir : Bool) (m : Memory) :
    outcome (remove path isDir) m =
      match if isDir then m.removeDir path else m.removeFile path with
      | .ok m' => (.ok (), m')
      | .error e => (if e.isNotFound then .ok () else .error (.failed .removeFile path e), m) := by
  have haction : outcome (if isDir then Files.removeDir path else Files.removeFile path :
      Effect Memory FileError Unit) m =
      ((if isDir then m.removeDir path else m.removeFile path).map fun _ => (),
        m.settle (if isDir then m.removeDir path else m.removeFile path)) := by
    cases isDir with
    | true => exact Memory.outcome_removeDir path m
    | false => exact Memory.outcome_removeFile path m
  rw [remove, outcome_bind_of_ok (outcome_get m)]
  unfold outcome at haction
  simp only [haction]
  rw [outcome_bind_of_ok (outcome_set m _)]
  cases (if isDir then m.removeDir path else m.removeFile path) with
  | ok m' => rfl
  | error e =>
      simp only [Except.map, Memory.settle]
      split <;> rfl

variable {root : Place} {path : Path} {q : Place}

/-- A failed removal changes nothing. -/
theorem remove_error {isDir : Bool} {m m' : Memory} {e : MergeError}
    (h : outcome (remove path isDir) m = (.error e, m')) : m' = m := by
  rw [outcome_remove] at h
  split at h
  · simp at h
  · exact (Prod.mk.inj h).2.symm

theorem performs_drop (hp : path.resolved = root ++ q) (m : Memory) :
    Performs root (.drop q) (remove path false) m := by
  have hview : m.view root q = (m.node? path.resolved).map Node.item := by rw [hp]; rfl
  have hfails : ∀ e m', outcome (remove path false) m = (.error e, m') →
      m'.view root = (Act.drop q).remains (m.view root) := fun e m' he => remove_error he ▸ rfl
  have ho := outcome_remove path false m
  rw [if_neg Bool.false_ne_true] at ho
  match hn : m.node? path.resolved with
  | none =>
      rw [hn] at hview
      simp only [Memory.removeFile_of_none hn, FileError.isNotFound, if_true] at ho
      refine ⟨fun _ _ _ => ?_, fun r m' he => ?_, fun _ => ⟨(), m, ho⟩, hfails⟩
      · simp [Act.Possible, hview]
      · rw [ho, Prod.mk.injEq] at he
        rw [← he.2, Act.result]
        funext p
        by_cases hq : q = p
        · rw [← hq, View.put_self, hview]; rfl
        · rw [View.put_of_ne _ _ hq]
  | some .dir =>
      rw [hn] at hview
      simp only [Memory.removeFile_of_dir hn, FileError.isNotFound] at ho
      refine ⟨fun r m' he => ?_, fun r m' he => ?_, fun hpos => ?_, hfails⟩
      · simp [ho] at he
      · simp [ho] at he
      · exact absurd hview hpos
  | some (.file content time) =>
      rw [hn] at hview
      simp only [Memory.removeFile_of_file hn] at ho
      refine ⟨fun _ _ _ => ?_, fun r m' he => ?_, fun _ => ⟨(), _, ho⟩, hfails⟩
      · simp [Act.Possible, hview, Node.item]
      · rw [ho, Prod.mk.injEq] at he
        rw [← he.2, hp, Memory.view_without]
        rfl

theorem children_isEmpty_iff {m : Memory} (hp : path.resolved = root ++ q) :
    (m.children path.resolved).isEmpty = true ↔ ∀ name, m.view root (q ++ [name]) = none := by
  rw [List.isEmpty_iff, List.eq_nil_iff_forall_not_mem]
  refine forall_congr' fun name => ?_
  rw [Memory.mem_children, hp, Memory.view, ← List.append_assoc]
  cases m.node? (root ++ q ++ [name]) <;> simp

theorem performs_clear (hp : path.resolved = root ++ q) (m : Memory) :
    Performs root (.clear q) (remove path true) m := by
  have hview : m.view root q = (m.node? path.resolved).map Node.item := by rw [hp]; rfl
  have hfails : ∀ e m', outcome (remove path true) m = (.error e, m') →
      m'.view root = (Act.clear q).remains (m.view root) := fun e m' he => remove_error he ▸ rfl
  have ho := outcome_remove path true m
  rw [if_pos rfl] at ho
  by_cases hd : m.node? path.resolved = some .dir
  · have hview : m.view root q = some .dir := by rw [hview, hd]; rfl
    rw [Memory.removeDir_of_dir hd] at ho
    by_cases hc : (m.children path.resolved).isEmpty
    · simp only [if_pos hc] at ho
      refine ⟨fun _ _ _ _ => (children_isEmpty_iff hp).mp hc, fun r m' he => ?_,
        fun _ => ⟨(), _, ho⟩, hfails⟩
      rw [ho, Prod.mk.injEq] at he
      rw [← he.2, hp, Memory.view_without, Act.result, if_pos hview]
    · simp only [if_neg hc, FileError.isNotFound] at ho
      refine ⟨fun r m' he => ?_, fun r m' he => ?_, fun hpos => ?_, hfails⟩
      · simp [ho] at he
      · simp [ho] at he
      · exact absurd ((children_isEmpty_iff hp).mpr (hpos hview)) hc
  · have hnot : m.view root q ≠ some .dir := by
      rw [hview]
      intro he
      obtain ⟨node, hn, hi⟩ := Option.map_eq_some_iff.mp he
      cases node with
      | dir => exact hd hn
      | file content time => simp [Node.item] at hi
    simp only [Memory.removeDir_of_not_dir hd, FileError.isNotFound, if_true] at ho
    refine ⟨fun _ _ _ h => absurd h hnot, fun r m' he => ?_, fun _ => ⟨(), _, ho⟩, hfails⟩
    rw [ho, Prod.mk.injEq] at he
    rw [← he.2, Act.result, if_neg hnot]

/-! ## Making and writing -/

theorem performs_make (hp : path.resolved = root ++ q) (action : FileAction) (m : Memory) :
    Performs root (.make q) (tried action path (Files.createDir true path)) m := by
  have ho : outcome (tried action path (Files.createDir true path)) m = (.ok (), m.addDir path) := by
    rw [outcome_tried, Memory.outcome_createDir]
    rfl
  refine ⟨fun _ _ _ => trivial, fun r m' he => ?_, fun _ => ⟨(), _, ho⟩, fun error m' he => ?_⟩
  · rw [ho, Prod.mk.injEq] at he
    rw [← he.2, Memory.view_addDir m root q hp]
    rfl
  · exact absurd (ho.symm.trans he) (by simp)

theorem outcome_writeFile {text : String} (ht : Canonical text) (dir : Path) (content : ByteArray)
    (m : Memory) : ∃ parent : Path,
      parent.resolved = dir.resolved ++ (Text.split '/' text).dropLast ∧
      outcome (writeFile (dir.join ⟨text⟩) content) m =
        if (m.addDir parent).node? parent.resolved = some .dir then
          (.ok (), (m.addDir parent).put (dir.resolved ++ Text.split '/' text) content)
        else (.error (.failed .write (dir.join ⟨text⟩) (.notFound (dir.join ⟨text⟩))),
          m.addDir parent) := by
  obtain ⟨parent, hparent, hres⟩ := Path.parent?_join dir ht
  obtain ⟨init, name, hs⟩ :=
    List.eq_nil_or_concat' _ |>.resolve_left (Text.split_ne_nil '/' text)
  have hpath : (dir.join ⟨text⟩).resolved = parent.resolved ++ [name] := by
    rw [Path.resolved_join dir ht, hres, hs, List.dropLast_concat, List.append_assoc]
  refine ⟨parent, hres, ?_⟩
  have hmake : outcome (tried .createDir parent (Files.createDir true parent)) m =
      (.ok (), m.addDir parent) := by
    rw [outcome_tried, Memory.outcome_createDir]
    rfl
  rw [writeFile, hparent, outcome_bind_of_ok hmake, outcome_tried, Memory.outcome_write,
    Memory.write_of_parent hpath, Path.resolved_join dir ht]
  split <;> rfl

theorem performs_write {text : String} (ht : Canonical text) (dir : Path) (content : ByteArray)
    (m : Memory) :
    Performs dir.resolved (.write (Text.split '/' text) content)
      (writeFile (dir.join ⟨text⟩) content) m := by
  obtain ⟨parent, hres, ho⟩ := outcome_writeFile ht dir content m
  have hnode : (m.addDir parent).node? parent.resolved =
      some ((m.node? parent.resolved).getD .dir) := by
    rw [Memory.node?_addDir, if_pos (List.prefix_refl _)]
  have hview : m.view dir.resolved (Text.split '/' text).dropLast =
      (m.node? parent.resolved).map Node.item := by rw [Memory.view, hres]
  have hpossible : (m.addDir parent).node? parent.resolved = some .dir ↔
      (Act.write (Text.split '/' text) content).Possible (m.view dir.resolved) := by
    rw [hnode, Act.Possible, hview]
    cases m.node? parent.resolved with
    | none => simp
    | some node => cases node <;> simp [Node.item]
  refine ⟨fun r m' he => ?_, fun r m' he => ?_, fun hp => ?_, fun error m' he => ?_⟩
  · by_contra hnot
    rw [ho, if_neg (fun h => hnot (hpossible.mp h))] at he
    simp at he
  · rw [ho] at he
    split at he
    · rw [Prod.mk.injEq] at he
      rw [← he.2, Memory.view_put, Memory.view_addDir m dir.resolved _ hres]
      rfl
    · simp at he
  · exact ⟨(), _, by rw [ho, if_pos (hpossible.mpr hp)]⟩
  · rw [ho] at he
    split at he
    · simp at he
    · rw [← (Prod.mk.inj he).2, Memory.view_addDir m dir.resolved _ hres]
      rfl

/-! ## Copying and merging -/

theorem outcome_readFile {m : Memory} (action : FileAction) (path : Path) :
    (∃ content, m.bytes? path.resolved = some content ∧
      outcome (tried action path (Files.look (Files.read · path))) m = (.ok content, m)) ∨
    m.bytes? path.resolved = none ∧ ∃ e,
      outcome (tried action path (Files.look (Files.read · path))) m = (.error e, m) := by
  rw [outcome_tried, outcome_look]
  match hn : m.node? path.resolved with
  | some (.file content time) =>
      refine .inl ⟨content, by rw [Memory.bytes?, hn], ?_⟩
      rw [Memory.read_of_file hn]
      rfl
  | some .dir =>
      refine .inr ⟨by rw [Memory.bytes?, hn], ?_⟩
      simp [Files.read, Memory.read, Memory.get?_eq, hn, Except.mapError]
  | none =>
      refine .inr ⟨by rw [Memory.bytes?, hn], ?_⟩
      simp [Files.read, Memory.read, Memory.get?_eq, hn, Except.mapError]

theorem outcome_copyFile_of_some {source target : Path} {m : Memory} {content : ByteArray}
    (h : m.bytes? source.resolved = some content) :
    outcome (copyFile source target) m = outcome (writeFile target content) m := by
  rcases outcome_readFile (m := m) .read source with ⟨c, hc, ho⟩ | ⟨hnone, -⟩
  · rw [h, Option.some.injEq] at hc
    rw [copyFile, outcome_bind_of_ok ho, hc]
  · simp [h] at hnone

theorem outcome_copyFile_of_none {source target : Path} {m : Memory}
    (h : m.bytes? source.resolved = none) :
    ∃ e, outcome (copyFile source target) m = (.error e, m) := by
  rcases outcome_readFile (m := m) .read source with ⟨c, hc, ho⟩ | ⟨-, e, he⟩
  · simp [h] at hc
  · exact ⟨e, outcome_bind_of_error he _⟩

theorem outcome_readText (action : FileAction) (path : Path) (m : Memory) :
    (∃ text, m.text? path.resolved = some text ∧
      outcome (tried action path (Files.look (Files.readText · path))) m = (.ok text, m)) ∨
    m.text? path.resolved = none ∧ ∃ e,
      outcome (tried action path (Files.look (Files.readText · path))) m = (.error e, m) := by
  rw [outcome_tried, outcome_look, Memory.text?]
  simp only [Files.readText]
  cases hn : m.node? path.resolved with
  | none =>
      refine .inr ⟨by rw [Memory.bytes?, hn]; rfl, ?_⟩
      simp [Files.read, Memory.read, Memory.get?_eq, hn, Except.mapError]
  | some node =>
      cases node with
      | dir =>
          refine .inr ⟨by rw [Memory.bytes?, hn]; rfl, ?_⟩
          simp [Files.read, Memory.read, Memory.get?_eq, hn, Except.mapError]
      | file content time =>
          have hbytes : m.bytes? path.resolved = some content := by rw [Memory.bytes?, hn]
          rw [Memory.read_of_file hn, hbytes, Option.bind_some]
          cases hdec : Text.Utf8.decode content with
          | ok text => exact .inl ⟨text, rfl, by simp only [hdec]; rfl⟩
          | error fault => exact .inr ⟨rfl, _, by simp only [hdec]; rfl⟩

theorem outcome_mapM_readFragment {dir : Path} {names : List String}
    (hnames : ∀ name ∈ names, IsName name) (m : Memory) :
    (∃ texts, names.mapM (fun name => m.text? (dir.resolved ++ [name])) = some texts ∧
      outcome (names.mapM (readFragment dir)) m = (.ok texts, m)) ∨
    names.mapM (fun name => m.text? (dir.resolved ++ [name])) = none ∧
      ∃ e, outcome (names.mapM (readFragment dir)) m = (.error e, m) := by
  induction names with
  | nil => exact .inl ⟨[], rfl, rfl⟩
  | cons name names ih =>
      have hname := hnames name List.mem_cons_self
      have hpath : (dir.join ⟨name⟩).resolved = dir.resolved ++ [name] := by
        rw [Path.resolved_join dir hname.canonical, hname.split]
      have hfirst := outcome_readText .read (dir.join ⟨name⟩) m
      rw [hpath] at hfirst
      rw [List.mapM_cons, List.mapM_cons]
      rcases hfirst with ⟨text, ht, ho⟩ | ⟨ht, e, ho⟩
      · rw [ht, Option.bind_eq_bind, Option.bind_some, readFragment, outcome_bind_of_ok ho]
        rcases ih fun n hn => hnames n (List.mem_cons_of_mem _ hn) with ⟨texts, hts, hos⟩ | ⟨hts, e, hos⟩
        · rw [hts, outcome_bind_of_ok hos]
          exact .inl ⟨text :: texts, rfl, rfl⟩
        · rw [hts, outcome_bind_of_error hos]
          exact .inr ⟨rfl, e, rfl⟩
      · rw [ht, readFragment, outcome_bind_of_error ho]
        exact .inr ⟨rfl, e, rfl⟩

theorem fragmentNames_eq {m : Memory} (hm : m.Named) {dir : Path}
    (hd : m.node? dir.resolved = some .dir) (extension : String) :
    fragmentNames m dir extension = .ok (m.filesWith dir.resolved extension) := by
  rw [fragmentNames, Memory.names_of_dir hd, Memory.filesWith]
  refine congrArg Except.ok (List.filter_congr fun name hn => ?_)
  obtain ⟨node, hnode⟩ := Memory.mem_children.mp hn
  have hname : IsName name := hm _ node hnode name (by simp)
  congr 1
  rw [Bool.eq_iff_iff, Memory.isFile_iff, Option.isSome_iff_exists,
    Path.resolved_join dir hname.canonical, hname.split]
  simp only [Memory.bytes?_eq_some_iff]

variable (g : Merger) {m : Memory}

theorem outcome_fragments (hm : m.Named) (source : FragmentSource) :
    (∃ texts, m.fragments? (g.options.generatedDir.join ⟨source.subdir⟩).resolved
        source.extension = some texts ∧ outcome (g.fragments source) m = (.ok texts, m)) ∨
    m.fragments? (g.options.generatedDir.join ⟨source.subdir⟩).resolved source.extension = none ∧
      ∃ e, outcome (g.fragments source) m = (.error e, m) := by
  rw [fragments, outcome_bind_of_ok (outcome_get m), Memory.fragments?]
  by_cases hd : m.node? (g.options.generatedDir.join ⟨source.subdir⟩).resolved = some .dir
  · have hlook : outcome (tried .readDir (g.options.generatedDir.join ⟨source.subdir⟩)
        (Files.look (fragmentNames · (g.options.generatedDir.join ⟨source.subdir⟩)
          source.extension))) m =
        (.ok (m.filesWith (g.options.generatedDir.join ⟨source.subdir⟩).resolved
          source.extension), m) := by
      rw [outcome_tried, outcome_look, fragmentNames_eq hm hd]
      rfl
    rw [if_pos hd, if_pos (Memory.isDir_iff.mpr hd), outcome_bind_of_ok hlook]
    refine outcome_mapM_readFragment (fun name hn => ?_) m
    obtain ⟨node, hnode⟩ := Memory.mem_children.mp (List.mem_filter.mp hn).1
    exact hm _ node hnode name (by simp)
  · rw [if_neg hd, if_neg (by rwa [Memory.isDir_iff])]
    exact .inl ⟨[], rfl, rfl⟩

theorem outcome_bind_congr {ε α β : Type} {x y : Effect Memory ε α} (h : outcome x m = outcome y m)
    (f : α → Effect Memory ε β) : outcome (x >>= f) m = outcome (y >>= f) m := by
  rw [outcome_bind, outcome_bind, h]

/-- With a file in the build output, a target is written with what that and its fragments make. It
counts as a copy if there are none. -/
theorem outcome_regenerate_texts (hm : m.Named) {target : String} {source : FragmentSource}
    (ht : g.targets.get? target = some source) {content : ByteArray}
    (hf : m.bytes? (g.options.builtDir.join ⟨target⟩).resolved = some content) :
    (∃ texts bytes, m.fragments? (g.options.generatedDir.join ⟨source.subdir⟩).resolved
        source.extension = some texts ∧ g.options.made? m target source = some bytes ∧
      outcome (g.regenerate target) m =
        outcome (do
          writeFile (g.options.outputDir.join ⟨target⟩) bytes
          return if texts = [] then .copied else .merged) m) ∨
    g.options.made? m target source = none ∧
      ∃ e, outcome (g.regenerate target) m = (.error e, m) := by
  have hisFile : Files.isFile m (g.options.builtDir.join ⟨target⟩) = true := by
    rw [Memory.isFile_iff]
    obtain ⟨time, hn⟩ := Memory.bytes?_eq_some_iff.mp hf
    exact ⟨content, time, hn⟩
  rw [regenerate, outcome_bind_of_ok (outcome_get m), hisFile]
  simp only [Bool.not_true, Bool.false_eq_true, if_false, ht, MergeOptions.made?]
  rcases g.outcome_fragments hm source with ⟨texts, hfr, ho⟩ | ⟨hfr, e, ho⟩
  · rw [hfr, outcome_bind_of_ok ho, Option.bind_some]
    cases texts with
    | nil =>
        refine .inl ⟨[], content, rfl, by rw [if_pos rfl, hf], ?_⟩
        exact outcome_bind_congr (outcome_copyFile_of_some hf) _
    | cons text texts =>
        rw [if_neg (List.cons_ne_nil text texts)]
        rcases outcome_readText .read (g.options.builtDir.join ⟨target⟩) m with
          ⟨own, hown, hr⟩ | ⟨hown, e, hr⟩
        · exact .inl ⟨_, _, rfl, by rw [hown]; rfl, by simp only [outcome_bind_of_ok hr]; rfl⟩
        · exact .inr ⟨by rw [hown]; rfl, e, by simp only [outcome_bind_of_error hr]⟩
  · rw [hfr, outcome_bind_of_error ho]
    exact .inr ⟨rfl, e, rfl⟩

theorem outcome_regenerate (hm : m.Named) {target : String} {source : FragmentSource}
    (ht : g.targets.get? target = some source) {content : ByteArray}
    (hf : m.bytes? (g.options.builtDir.join ⟨target⟩).resolved = some content) :
    (∃ bytes s, g.options.made? m target source = some bytes ∧
      outcome (g.regenerate target) m =
        outcome (do writeFile (g.options.outputDir.join ⟨target⟩) bytes; return s) m) ∨
    g.options.made? m target source = none ∧
      ∃ e, outcome (g.regenerate target) m = (.error e, m) :=
  (g.outcome_regenerate_texts hm ht hf).imp_left fun ⟨_, bytes, _, hb, ho⟩ => ⟨bytes, _, hb, ho⟩

/-- With plain names it is written with its merged content. -/
theorem outcome_regenerate_of_file (hm : m.Named) {target : String} {source : FragmentSource}
    (ht : g.targets.get? target = some source) (hc : Canonical target)
    (hs : Canonical source.subdir) {content : ByteArray}
    (hf : m.bytes? (g.options.builtDir.resolved ++ Text.split '/' target) = some content) :
    (∃ bytes s, g.options.mergedBytes? m target source = some bytes ∧
      outcome (g.regenerate target) m =
        outcome (do writeFile (g.options.outputDir.join ⟨target⟩) bytes; return s) m) ∨
    g.options.mergedBytes? m target source = none ∧
      ∃ e, outcome (g.regenerate target) m = (.error e, m) := by
  rw [← g.options.made?_of_canonical m hc hs]
  exact g.outcome_regenerate hm ht (by rw [Path.resolved_join g.options.builtDir hc, hf])

/-- Without one, it is removed. -/
theorem outcome_regenerate_of_not_file {target : String} (hc : Canonical target)
    (hf : m.bytes? (g.options.builtDir.resolved ++ Text.split '/' target) = none) :
    outcome (g.regenerate target) m =
      outcome (do remove (g.options.outputDir.join ⟨target⟩) false; return .dropped) m := by
  have hisFile : Files.isFile m (g.options.builtDir.join ⟨target⟩) = false := by
    rw [← Bool.not_eq_true, Memory.isFile_iff, Path.resolved_join g.options.builtDir hc]
    rintro ⟨content, time, hn⟩
    simp [Memory.bytes?, hn] at hf
  rw [regenerate, outcome_bind_of_ok (outcome_get m), hisFile]
  rfl

end Merger

end VendorBundle
