import VendorBundle.ImportIndex
import VendorBundle.Proofs.Effect
import VendorBundle.Proofs.Table
import VendorBundle.Proofs.Tree.Diff

/-!
# Following a tree by patches

An index that knew the imports of a tree as it was knows, after it has followed the patch to a new
listing, the imports of every file that is listed now, although it has read only the files that the
patch names. It gives its list up exactly when the imports of some file are others than before.
-/

namespace VendorBundle.ImportIndex

open Effect Entry

variable {σ : Type} [Files σ] {files : σ} {index old : ImportIndex}

/-! ## What an index knows -/

/-- The imports that an index has for a file. -/
def known (index : ImportIndex) (path : String) : List Import := (index.perFile.get? path).getD []

/-- The files of a listing that are read. -/
def programs (index : ImportIndex) (entries : List Entry) : List String :=
  (entries.filter fun e => e.kind = .file ∧ index.package.matchesPath e.path).map (·.path)

theorem mem_programs {entries : List Entry} {path : String} : path ∈ index.programs entries ↔
    ∃ e ∈ entries, e.kind = .file ∧ index.package.matchesPath path ∧ e.path = path := by
  simp only [programs, List.mem_map, List.mem_filter, decide_eq_true_eq]
  constructor
  · rintro ⟨e, ⟨he, hk, hm⟩, rfl⟩
    exact ⟨e, he, hk, hm, rfl⟩
  · rintro ⟨e, he, hk, hm, rfl⟩
    exact ⟨e, ⟨he, hk, hm⟩, rfl⟩

/-- An index knows the imports of exactly the files of a listing. -/
structure Holds (files : σ) (index : ImportIndex) (entries : List Entry) : Prop where
  read : ∀ path ∈ index.programs entries, readFile files index path = .ok (index.known path)
  other : ∀ path, path ∉ index.programs entries → index.known path = []
  nonempty : ∀ path, index.perFile.get? path ≠ some []

/-- What an index knows of the files of its last listing still goes for those that are listed
unchanged in the new one. -/
structure Tracks (files : σ) (index : ImportIndex) (next : List Entry) : Prop where
  read : ∀ e ∈ index.snapshot.entries, e ∈ next → e.path ∈ index.programs next →
    readFile files index e.path = .ok (index.known e.path)
  other : ∀ path, path ∉ index.programs index.snapshot.entries → index.known path = []
  nonempty : ∀ path, index.perFile.get? path ≠ some []
  ascending : Ascending index.snapshot.entries

/-- The imports of a file by a new listing. -/
def current (files : σ) (index : ImportIndex) (next : List Entry) (path : String) : List Import :=
  if path ∈ index.programs next then (readFile files index path).toOption.getD [] else []

theorem current_of_read {next : List Entry} {path : String} (hp : path ∈ index.programs next)
    {imports : List Import} (h : readFile files index path = .ok imports) :
    current files index next path = imports := by
  rw [current, if_pos hp, h]
  rfl

/-! ## Setting files -/

theorem known_setFile (index : ImportIndex) (path : String) (imports : List Import) (p : String) :
    (index.setFile path imports).known p = if path = p then imports else index.known p := by
  rw [setFile]
  split
  · rename_i h
    by_cases hp : path = p
    · rw [if_pos hp, ← h, known, hp]
    · rw [if_neg hp]
  · simp only [known]
    split
    · rename_i hempty
      rw [Table.get?_erase]
      by_cases hp : path = p
      · simp [hp, List.isEmpty_iff.mp hempty]
      · simp [hp]
    · rw [Table.get?_insert]
      by_cases hp : path = p <;> simp [hp]

/-- Where no file has an empty list, none gets one. -/
theorem nonempty_setFile (h : ∀ p, index.perFile.get? p ≠ some []) (path : String)
    (imports : List Import) (p : String) : (index.setFile path imports).perFile.get? p ≠ some [] := by
  rw [setFile]
  split
  · exact h p
  · simp only
    split
    · rw [Table.get?_erase]
      split
      · simp
      · exact h p
    · rename_i hne
      rw [Table.get?_insert]
      split
      · simpa using hne
      · exact h p

/-- Some files have been set to what they have in the end, the others are as they were. -/
structure Adopts (final : String → List Import) (old : ImportIndex) (paths : List String)
    (index : ImportIndex) : Prop where
  package : index.package = old.package
  tree : index.tree = old.tree
  snapshot : index.snapshot = old.snapshot
  collections : index.collections = old.collections
  known : ∀ path, index.known path = if path ∈ paths then final path else old.known path
  nonempty : ∀ path, index.perFile.get? path ≠ some []
  /-- The list was given up for a file whose imports are others in the end. -/
  collected : index.collected = old.collected ∧ index.perFile = old.perFile ∨
    index.collected = old.collected.invalidate ∧ ∃ path ∈ paths, old.known path ≠ final path

namespace Adopts

variable {final : String → List Import} {paths : List String}

theorem start (final : String → List Import) (h : ∀ path, index.perFile.get? path ≠ some []) :
    Adopts final index [] index :=
  ⟨rfl, rfl, rfl, rfl, fun _ => rfl, h, .inl ⟨rfl, rfl⟩⟩

theorem congr (h : Adopts final old paths index) {paths' : List String}
    (hp : ∀ path, path ∈ paths ↔ path ∈ paths') : Adopts final old paths' index where
  package := h.package
  tree := h.tree
  snapshot := h.snapshot
  collections := h.collections
  known path := by simp only [h.known, hp]
  nonempty := h.nonempty
  collected := h.collected.imp_right fun ⟨hc, path, hpath, hne⟩ => ⟨hc, path, (hp path).mp hpath, hne⟩

theorem setFile (h : Adopts final old paths index) {path : String} {imports : List Import}
    (hf : final path = imports) : Adopts final old (path :: paths) (index.setFile path imports) := by
  subst hf
  have hknown : ∀ p, (index.setFile path (final path)).known p =
      if p ∈ path :: paths then final p else old.known p := fun p => by
    rw [known_setFile, h.known]
    by_cases hp : path = p
    · simp [hp]
    · simp [hp, Ne.symm hp]
  by_cases hsame : index.known path = final path
  · have hset : index.setFile path (final path) = index := if_pos hsame
    rw [hset] at hknown ⊢
    refine ⟨h.package, h.tree, h.snapshot, h.collections, hknown, h.nonempty, ?_⟩
    exact h.collected.imp_right fun ⟨hc, p, hp, hne⟩ => ⟨hc, p, List.mem_cons_of_mem _ hp, hne⟩
  · -- A file that is still to be changed has not been set before.
    have hdiffers : old.known path ≠ final path := fun he => hsame (by
      rw [h.known]
      split
      · rfl
      · exact he)
    have hnonempty := nonempty_setFile h.nonempty path (final path)
    have hset : index.setFile path (final path) = { index with
        perFile := if (final path).isEmpty then index.perFile.erase path
          else index.perFile.insert path (final path)
        collected := index.collected.invalidate } := if_neg hsame
    rw [hset] at hknown hnonempty ⊢
    refine ⟨h.package, h.tree, h.snapshot, h.collections, hknown, hnonempty, .inr ⟨?_, path,
      List.mem_cons_self, hdiffers⟩⟩
    rcases h.collected with ⟨hc, -⟩ | ⟨hc, -⟩ <;> rw [hc]
    rfl

theorem remove (h : Adopts final old paths index) (gone : List String)
    (hf : ∀ path ∈ gone, final path = []) : Adopts final old (gone.reverse ++ paths)
      (gone.foldl (ImportIndex.setFile · · []) index) := by
  induction gone generalizing paths index with
  | nil => exact h
  | cons path gone ih =>
      have hnext := ih (h.setFile (hf path List.mem_cons_self))
        fun p hp => hf p (List.mem_cons_of_mem _ hp)
      rw [List.reverse_cons, List.append_assoc]
      exact hnext

end Adopts

theorem readFile_congr (hp : index.package = old.package) (ht : index.tree = old.tree) :
    readFile files index = readFile files old := by
  funext path
  rw [readFile, readFile, hp, ht]

theorem outcome_refresh (path : String) (index : ImportIndex) :
    outcome (refresh files path) index = match readFile files index path with
      | .ok imports => (.ok (), index.setFile path imports)
      | .error e => (.error e, index) := by
  cases h : readFile files index path with
  | ok imports =>
      have hlook : outcome (Files.look (readFile files · path)) index = (.ok imports, index) := by
        rw [outcome_look, h]
      exact outcome_bind_of_ok hlook _
  | error e =>
      have hlook : outcome (Files.look (readFile files · path)) index = (.error e, index) := by
        rw [outcome_look, h]
      exact outcome_bind_of_error hlook _

/-- The first of some files is read, and then the others. -/
theorem outcome_forM_refresh_cons (path : String) (todo : List String) (index : ImportIndex) :
    outcome ((path :: todo).forM (refresh files)) index = match readFile files index path with
      | .ok imports => outcome (todo.forM (refresh files)) (index.setFile path imports)
      | .error e => (.error e, index) := by
  rw [List.forM_eq_forM, List.forM_cons]
  cases h : readFile files index path with
  | ok imports => exact outcome_bind_of_ok (by rw [outcome_refresh, h]) _
  | error e => exact outcome_bind_of_error (by rw [outcome_refresh, h]) _

namespace Adopts

variable {final : String → List Import} {paths : List String}

/-- Files are read successfully one after the other exactly when each of them can be read. -/
theorem refresh (h : Adopts final old paths index) (todo : List String)
    (hf : ∀ path ∈ todo, ∀ imports, readFile files old path = .ok imports → final path = imports) :
    (∀ index', outcome (todo.forM (ImportIndex.refresh files)) index = (.ok (), index') →
      Adopts final old (todo.reverse ++ paths) index' ∧
        ∀ path ∈ todo, readFile files old path = .ok (final path)) ∧
    ((∀ path ∈ todo, ∃ imports, readFile files old path = .ok imports) →
      ∃ index', outcome (todo.forM (ImportIndex.refresh files)) index = (.ok (), index')) := by
  induction todo generalizing paths index with
  | nil =>
      refine ⟨fun index' hi => ?_, fun _ => ⟨index, rfl⟩⟩
      obtain rfl := (Prod.mk.inj hi).2
      exact ⟨h, nofun⟩
  | cons path todo ih =>
      rw [outcome_forM_refresh_cons, readFile_congr h.package h.tree]
      cases hpath : readFile files old path with
      | error e =>
          refine ⟨fun _ hi => absurd (congrArg Prod.fst hi) nofun, fun hall => ?_⟩
          obtain ⟨imports, hi⟩ := hall path List.mem_cons_self
          exact absurd (hpath.symm.trans hi) nofun
      | ok imports =>
          have hfinal := hf path List.mem_cons_self imports hpath
          obtain ⟨hadopts, hsucceeds⟩ := ih (h.setFile hfinal)
            fun p hp => hf p (List.mem_cons_of_mem _ hp)
          refine ⟨fun index' hi => ?_, fun hall => hsucceeds fun p hp =>
            hall p (List.mem_cons_of_mem _ hp)⟩
          obtain ⟨ha, hr⟩ := hadopts index' hi
          rw [List.reverse_cons, List.append_assoc]
          exact ⟨ha, List.forall_mem_cons.mpr ⟨by rw [hpath, hfinal], hr⟩⟩

/-- However it ends to read files one after the other, some of them have been set. An error is that
of a file that cannot be read. -/
theorem refresh_some (h : Adopts final old paths index) (todo : List String)
    (hf : ∀ path ∈ todo, ∀ imports, readFile files old path = .ok imports → final path = imports) :
    (∃ done ⊆ todo, Adopts final old (done ++ paths)
      (outcome (todo.forM (ImportIndex.refresh files)) index).2) ∧
    ∀ e, (outcome (todo.forM (ImportIndex.refresh files)) index).1 = .error e →
      ∃ path ∈ todo, readFile files old path = .error e := by
  induction todo generalizing paths index with
  | nil => exact ⟨⟨[], List.nil_subset _, h⟩, nofun⟩
  | cons path todo ih =>
      rw [outcome_forM_refresh_cons, readFile_congr h.package h.tree]
      cases hpath : readFile files old path with
      | error e =>
          refine ⟨⟨[], List.nil_subset _, h⟩, fun e' he => ⟨path, List.mem_cons_self, ?_⟩⟩
          rw [hpath, Except.error.inj he]
      | ok imports =>
          obtain ⟨⟨done, hsub, hdone⟩, herror⟩ :=
            ih (h.setFile (hf path List.mem_cons_self imports hpath))
              fun p hp => hf p (List.mem_cons_of_mem _ hp)
          refine ⟨⟨path :: done, List.cons_subset_cons _ hsub, hdone.congr fun p => ?_⟩,
            fun e he => ?_⟩
          · simp only [List.mem_append, List.mem_cons]
            tauto
          · obtain ⟨p, hp, hunreadable⟩ := herror e he
            exact ⟨p, List.mem_cons_of_mem _ hp, hunreadable⟩

end Adopts

/-! ## Patches -/

section

variable {olds next : List Entry}

theorem not_mem_programs_of_removed (hn : Ascending next) (ho : Ascending olds) {path : String}
    (h : path ∈ index.removed (Patch.between olds next)) : path ∉ index.programs next := by
  intro hp
  obtain ⟨e, he, hk, -, rfl⟩ := mem_programs.mp hp
  obtain ⟨op, hop, hremoved⟩ := List.mem_filterMap.mp h
  rcases (Patch.mem_between ho hn).mp hop with ⟨old, -, hgone, rfl⟩ | ⟨new, -, ha⟩
  · rw [PatchOp.removal] at hremoved
    cases hkind : old.kind with
    | directory => simp [hkind] at hremoved
    | file =>
        simp only [hkind, Option.ite_none_right_eq_some, Option.some.injEq] at hremoved
        have hat : entryAt? next old.path = some e :=
          hn.entryAt?_eq_some_iff.mpr ⟨he, hremoved.2.symm⟩
        simp [Patch.isGone, hat, hkind, hk] at hgone
  · rcases Patch.op_of_arrival? ha with rfl | ⟨rfl, -⟩
    · rw [PatchOp.addition] at hremoved
      cases hkind : new.kind <;> simp [hkind] at hremoved
    · simp at hremoved

/-- The files that are read are the programs that arrive. -/
theorem mem_written (hn : Ascending next) (ho : Ascending olds) {path : String} :
    path ∈ index.written (Patch.between olds next) ↔
      ∃ e ∈ next, e.kind = .file ∧ index.package.matchesPath path ∧ e.path = path ∧
        (Patch.arrival? olds e).isSome := by
  constructor
  · intro h
    obtain ⟨op, hop, hwritten⟩ := List.mem_filterMap.mp h
    rcases (Patch.mem_between ho hn).mp hop with ⟨old, -, -, rfl⟩ | ⟨new, hnew, ha⟩
    · rw [PatchOp.removal] at hwritten
      cases hkind : old.kind <;> simp [hkind] at hwritten
    · refine ⟨new, hnew, ?_⟩
      rcases Patch.op_of_arrival? ha with rfl | ⟨rfl, hk⟩
      · rw [PatchOp.addition] at hwritten
        cases hkind : new.kind with
        | directory => simp [hkind] at hwritten
        | file =>
            simp only [hkind, Option.ite_none_right_eq_some, Option.some.injEq] at hwritten
            exact ⟨rfl, hwritten.2 ▸ hwritten.1, hwritten.2, by rw [ha]; rfl⟩
      · simp only [Option.ite_none_right_eq_some, Option.some.injEq] at hwritten
        exact ⟨hk, hwritten.2 ▸ hwritten.1, hwritten.2, by rw [ha]; rfl⟩
  · rintro ⟨e, he, hk, hm, rfl, harrives⟩
    obtain ⟨op, ha⟩ := Option.isSome_iff_exists.mp harrives
    refine List.mem_filterMap.mpr ⟨op, (Patch.mem_between ho hn).mpr (.inr ⟨e, he, ha⟩), ?_⟩
    rcases Patch.op_of_arrival? ha with rfl | ⟨rfl, -⟩
    · simp [PatchOp.addition, hk, hm]
    · simp [hm]

/-- A program that is not listed any more is removed. -/
theorem mem_removed (hn : Ascending next) (ho : Ascending olds) {path : String}
    (h : path ∈ index.programs olds) (hnew : path ∉ index.programs next) :
    path ∈ index.removed (Patch.between olds next) := by
  obtain ⟨e, he, hk, hm, rfl⟩ := mem_programs.mp h
  have hgone : Patch.isGone next e = true := by
    rw [Patch.isGone]
    split
    · rename_i new hat
      obtain ⟨hnext, hpath⟩ := hn.entryAt?_eq_some_iff.mp hat
      refine decide_eq_true fun hkind => hnew (mem_programs.mpr ⟨new, hnext, ?_, hm, hpath⟩)
      exact hkind.symm.trans hk
    · rfl
  refine List.mem_filterMap.mpr ⟨.removal e, (Patch.mem_between ho hn).mpr
    (.inl ⟨e, he, hgone, rfl⟩), ?_⟩
  simp [PatchOp.removal, hk, hm]

/-- A program that does not arrive was listed as it is. -/
theorem mem_of_not_written (hn : Ascending next) (ho : Ascending olds) {path : String}
    (h : path ∈ index.programs next) (hw : path ∉ index.written (Patch.between olds next)) :
    ∃ e ∈ olds, e ∈ next ∧ e.path = path := by
  obtain ⟨e, he, hk, hm, rfl⟩ := mem_programs.mp h
  have hnone : Patch.arrival? olds e = none := by
    rw [← Option.not_isSome_iff_eq_none]
    exact fun hs => hw ((mem_written hn ho).mpr ⟨e, he, hk, hm, rfl, hs⟩)
  obtain ⟨old, hat, hkind, htoken⟩ := Patch.arrival?_eq_none_iff.mp hnone
  obtain ⟨hold, hpath⟩ := ho.entryAt?_eq_some_iff.mp hat
  have hsame : old = e := by
    obtain ⟨path, kind, token⟩ := old
    obtain ⟨path', kind', token'⟩ := e
    obtain rfl : path = path' := hpath
    obtain rfl : kind = kind' := hkind
    obtain rfl : token = token' := htoken hk
    rfl
  exact ⟨e, hsame ▸ hold, he, rfl⟩

end

/-! ## Updates -/

/-- The files of the package that a patch names. -/
def touched (index : ImportIndex) (patch : Patch) : List String :=
  index.removed patch ++ index.written patch

/-- What an update leads to. -/
structure Updated (files : σ) (old : ImportIndex) (next : List Entry) (index : ImportIndex) :
    Prop where
  package : index.package = old.package
  tree : index.tree = old.tree
  collections : index.collections = old.collections
  snapshot : index.snapshot.entries = next
  holds : Holds files index next
  /-- The list was given up exactly when some file has other imports than before. -/
  collected : index.collected = old.collected ∧ index.perFile = old.perFile ∨
    index.collected = old.collected.invalidate ∧ ∃ path, old.known path ≠ index.known path

variable {next : List Entry}

theorem outcome_follow (patch : Patch) (index : ImportIndex) :
    outcome (follow files patch) index =
      outcome ((index.written patch).forM (refresh files))
        ((index.removed patch).foldl (setFile · · []) index) := by
  have hpackage : ∀ (gone : List String) (index : ImportIndex),
      (gone.foldl (setFile · · []) index).package = index.package := by
    intro gone
    induction gone with
    | nil => exact fun _ => rfl
    | cons path gone ih =>
        intro index
        rw [List.foldl_cons, ih, setFile]
        split <;> rfl
  have hwritten : (((index.removed patch).foldl (setFile · · []) index).written patch) =
      index.written patch := by
    rw [written, written, hpackage]
  rw [← hwritten]
  rfl

theorem outcome_update (hn : Ascending next) (index : ImportIndex) :
    outcome (update files next) index =
      match outcome (follow files (Patch.between index.snapshot.entries next)) index with
      | (.ok (), index') => (.ok (), { index' with snapshot := ⟨next⟩ })
      | (.error e, index') => (.error e, index') := by
  rw [update, outcome_bind_of_ok (outcome_get index)]
  simp only [Snapshot.prepare, normalize_of_ascending hn]
  rw [outcome_bind]
  rcases outcome (follow files (Patch.between index.snapshot.entries next)) index with ⟨_ | _, _⟩
  · rfl
  · rfl

/-- Every program of the new listing that is not read was known before. -/
theorem Tracks.current_eq (ht : Tracks files index next) (hn : Ascending next) {path : String}
    (hw : path ∉ index.written (Patch.between index.snapshot.entries next))
    (hr : path ∉ index.removed (Patch.between index.snapshot.entries next)) :
    index.known path = current files index next path ∧ (path ∈ index.programs next →
      readFile files index path = .ok (index.known path)) := by
  by_cases hp : path ∈ index.programs next
  · obtain ⟨e, hold, hnext, rfl⟩ := mem_of_not_written hn ht.ascending hp hw
    have hread := ht.read e hold hnext hp
    exact ⟨(current_of_read hp hread).symm, fun _ => hread⟩
  · have hold : path ∉ index.programs index.snapshot.entries := fun hold =>
      hr (mem_removed hn ht.ascending hold hp)
    exact ⟨by rw [current, if_neg hp, ht.other path hold], fun h => absurd h hp⟩

/-- When a patch was followed to its end, every program has its imports. -/
theorem Adopts.updated (hn : Ascending next) (ht : Tracks files index next)
    {followed : ImportIndex}
    (ha : Adopts (current files index next) index
      (index.touched (Patch.between index.snapshot.entries next)) followed)
    (hread : ∀ path ∈ index.written (Patch.between index.snapshot.entries next),
      readFile files index path = .ok (current files index next path)) :
    Updated files index next { followed with snapshot := ⟨next⟩ } := by
  have hknown : ∀ path, followed.known path = current files index next path := fun path => by
    rw [ha.known]
    split
    · rfl
    · rename_i hnot
      rw [touched, List.mem_append, not_or] at hnot
      exact (ht.current_eq hn hnot.2 hnot.1).1
  have hall : ∀ path ∈ index.programs next,
      readFile files index path = .ok (followed.known path) := fun path hp => by
    rw [hknown]
    by_cases hw : path ∈ index.written (Patch.between index.snapshot.entries next)
    · exact hread path hw
    · have hr := fun hr => not_mem_programs_of_removed hn ht.ascending hr hp
      obtain ⟨hcurrent, hold⟩ := ht.current_eq hn hw hr
      rw [← hcurrent]
      exact hold hp
  have hprograms : followed.programs next = index.programs next := by
    rw [programs, programs, ha.package]
  refine ⟨ha.package, ha.tree, ha.collections, rfl, ⟨fun path hp => ?_, fun path hp => ?_,
    ha.nonempty⟩, ha.collected.imp_right fun ⟨hc, path, hp, hne⟩ => ⟨hc, path, ?_⟩⟩
  · have hp : path ∈ followed.programs next := hp
    exact (congrFun (readFile_congr ha.package ha.tree) path).trans (hall path (hprograms ▸ hp))
  · have hp : path ∉ followed.programs next := hp
    exact (hknown path).trans (if_neg (hprograms ▸ hp))
  · exact fun he => hne (he.trans (hknown path))

section

variable (hn : Ascending next) (ho : Ascending index.snapshot.entries)
  (hne : ∀ path, index.perFile.get? path ≠ some [])

include hn ho

/-- What is read for a patch is a program of the new listing. -/
theorem mem_programs_of_written {path : String}
    (h : path ∈ index.written (Patch.between index.snapshot.entries next)) :
    path ∈ index.programs next := by
  obtain ⟨e, he, hk, hm, hpath, -⟩ := (mem_written hn ho).mp h
  exact mem_programs.mpr ⟨e, he, hk, hm, hpath⟩

include hne

theorem adopts_removed (files : σ) : Adopts (current files index next) index
    ((index.removed (Patch.between index.snapshot.entries next)).reverse ++ [])
    ((index.removed (Patch.between index.snapshot.entries next)).foldl (setFile · · []) index) :=
  (Adopts.start (current files index next) hne).remove _ fun _ hp =>
    if_neg (not_mem_programs_of_removed hn ho hp)

/-- A successful update has set the files that the patch names, and no others. -/
theorem update_ok {index' : ImportIndex}
    (hu : outcome (update files next) index = (.ok (), index')) :
    ∃ followed, Adopts (current files index next) index
        (index.touched (Patch.between index.snapshot.entries next)) followed ∧
      (∀ path ∈ index.written (Patch.between index.snapshot.entries next),
        readFile files index path = .ok (current files index next path)) ∧
      index' = { followed with snapshot := ⟨next⟩ } := by
  obtain ⟨hadopts, -⟩ := (adopts_removed hn ho hne files).refresh
    (index.written (Patch.between index.snapshot.entries next)) fun path hp imports hi =>
      current_of_read (mem_programs_of_written hn ho hp) hi
  rw [outcome_update hn, outcome_follow] at hu
  split at hu
  · rename_i followed hfollow
    obtain ⟨ha, hread⟩ := hadopts followed hfollow
    refine ⟨followed, ha.congr fun path => ?_, hread, (Prod.mk.inj hu).2.symm⟩
    simp [touched, or_comm]
  · simp at hu

/-- An update succeeds when all files that it has to read can be read. -/
theorem update_succeeds (hall : ∀ path ∈ index.written (Patch.between index.snapshot.entries next),
      ∃ imports, readFile files index path = .ok imports) :
    ∃ index', outcome (update files next) index = (.ok (), index') := by
  obtain ⟨-, hsucceeds⟩ := (adopts_removed hn ho hne files).refresh
    (index.written (Patch.between index.snapshot.entries next)) fun path hp imports hi =>
      current_of_read (mem_programs_of_written hn ho hp) hi
  obtain ⟨followed, hfollow⟩ := hsucceeds hall
  rw [outcome_update hn, outcome_follow, hfollow]
  exact ⟨_, rfl⟩

/-- A failed update has set some of the files that the patch names, and no others. It has failed for
a program of the new listing. -/
theorem update_error {e : AnalysisError} {index' : ImportIndex}
    (hu : outcome (update files next) index = (.error e, index')) :
    (∃ paths ⊆ index.touched (Patch.between index.snapshot.entries next),
      Adopts (current files index next) index paths index') ∧
    ∃ path ∈ index.programs next, readFile files index path = .error e := by
  obtain ⟨⟨done, hsub, ha⟩, herror⟩ := (adopts_removed hn ho hne files).refresh_some
    (index.written (Patch.between index.snapshot.entries next)) fun path hp imports hi =>
      current_of_read (mem_programs_of_written hn ho hp) hi
  rw [outcome_update hn, outcome_follow] at hu
  split at hu
  · simp at hu
  · rename_i e' followed hfollow
    obtain ⟨he, rfl⟩ := Prod.mk.inj hu
    obtain rfl := Except.error.inj he
    rw [hfollow] at ha herror
    obtain ⟨path, hp, hunreadable⟩ := herror e' rfl
    refine ⟨⟨_, fun path hp => ?_, ha⟩, path, mem_programs_of_written hn ho hp, hunreadable⟩
    simp only [List.append_nil, List.mem_append, List.mem_reverse] at hp
    rw [touched, List.mem_append]
    exact hp.symm.imp_right fun hp => hsub hp

end

/-- An index that tracks the tree and is brought to a new listing knows the imports of all files of
the listing. The update succeeds when all of them can be read. -/
theorem update_spec (hn : Ascending next) (ht : Tracks files index next) :
    (∀ index', outcome (update files next) index = (.ok (), index') →
      Updated files index next index') ∧
    ((∀ path ∈ index.programs next, ∃ imports, readFile files index path = .ok imports) →
      ∃ index', outcome (update files next) index = (.ok (), index')) := by
  constructor
  · intro index' hu
    obtain ⟨followed, ha, hread, rfl⟩ := update_ok hn ht.ascending ht.nonempty hu
    exact ha.updated hn ht hread
  · intro hall
    exact update_succeeds hn ht.ascending ht.nonempty fun path hp =>
      hall path (mem_programs_of_written hn ht.ascending hp)

end VendorBundle.ImportIndex
