import Mathlib.Logic.Relation
import VendorBundle.Proofs.Index.Scratch

/-!
# Sessions of an index

In a session the file system is edited, the index is updated by new listings and asked for the list
of all imports, in any order. An update reads only the files that the patch names, which is enough
because any other file stands there with the content it was taken over with.
-/

namespace VendorBundle

open Entry Memory Effect Relation

namespace IndexScope

variable {c : IndexScope} {contents : ByteArray → Prop} {faults : Prop}

/-! ## What an update leaves alone -/

/-- All files of the tree have known contents. -/
def Fits (c : IndexScope) (contents : ByteArray → Prop) (m : Memory) : Prop :=
  ∀ path content time, m.node? (c.place path) = some (.file content time) → contents content

/-- Listings with the hashes of contents tell the known contents apart. -/
def Hashes (c : IndexScope) (contents : ByteArray → Prop) : Prop :=
  c.options.tokenMode = .content →
    ∀ a b, contents a → contents b → Digest.hex a = Digest.hex b → a = b

/-- What two states have in common that one index has seen. -/
structure Between (c : IndexScope) (contents : ByteArray → Prop) (old new : Memory) : Prop where
  namedOld : old.Named
  named : new.Named
  datedOld : Dated (fun _ => True) old
  since : Since (fun _ => True) old new
  fitsOld : c.Fits contents old

/-- A file with the same token has the same content. -/
theorem Between.content_eq {old new : Memory} (h : c.Between contents old new)
    (hh : c.Hashes contents) (hf : c.Fits contents new) {path : String}
    {content content' : ByteArray} {time time' : UInt64}
    (hn : old.node? (c.place path) = some (.file content time))
    (hn' : new.node? (c.place path) = some (.file content' time'))
    (ht : c.options.tokenMode.token content time = c.options.tokenMode.token content' time') :
    content' = content := by
  cases hmode : c.options.tokenMode with
  | stat =>
      rw [hmode] at ht
      obtain rfl := TokenMode.time_eq_of_stat ht
      have hold := h.since.node?_of_same_time h.datedOld (UInt64.le_refl _) trivial trivial hn hn'
      rw [hn, Option.some.injEq, Node.file.injEq] at hold
      exact hold.1.symm
  | content =>
      rw [hmode] at ht
      simp only [TokenMode.token, ChangeToken.ofContent, ChangeToken.content.injEq] at ht
      exact (hh hmode _ _ (h.fitsOld _ _ _ hn) (hf _ _ _ hn') ht).symm

/-- The files of the package that the patch between two states names. -/
def touched (c : IndexScope) (old new : Memory) : List String :=
  c.create.touched (Patch.between (c.listing old) (c.listing new))

/-- A program that a patch does not name stands in both states with the same content. -/
theorem Between.same_content {old new : Memory} (h : c.Between contents old new)
    (hh : c.Hashes contents) (hf : c.Fits contents new) {path : String}
    (hp : path ∈ c.programs new) (ht : path ∉ c.touched old new) :
    path ∈ c.programs old ∧ Canonical path ∧ ∃ content time time',
      old.node? (c.place path) = some (.file content time) ∧
      new.node? (c.place path) = some (.file content time') := by
  rw [touched, ImportIndex.touched, List.mem_append, not_or] at ht
  obtain ⟨e, hold, hnew, rfl⟩ := ImportIndex.mem_of_not_written (ascending_listing h.named _ _)
    (ascending_listing h.namedOld _ _) (mem_programs_of_create.mp hp) ht.2
  obtain ⟨x, hx, hk, hmatch, hpath⟩ := mem_programs.mp hp
  obtain rfl : x = e := (ascending_listing h.named _ _).eq_of_path hx hnew hpath
  have hpold : x.path ∈ c.programs old := mem_programs.mpr ⟨x, hold, hk, hmatch, rfl⟩
  obtain ⟨content, time, hn, hc, hlisted⟩ := file_of_mem_programs h.namedOld hpold
  obtain ⟨content', time', hn', -, hlisted'⟩ := file_of_mem_programs h.named hp
  have htoken : c.options.tokenMode.token content time = c.options.tokenMode.token content' time' := by
    have he : Entry.file x.path (c.options.tokenMode.token content time) = x :=
      (ascending_listing h.namedOld _ _).eq_of_path hlisted hold rfl
    have he' : Entry.file x.path (c.options.tokenMode.token content' time') = x :=
      (ascending_listing h.named _ _).eq_of_path hlisted' hnew rfl
    simpa [Entry.file] using congrArg Entry.token (he.trans he'.symm)
  obtain rfl := h.content_eq hh hf hn hn' htoken
  exact ⟨hpold, hc, content', time, time', hn, hn'⟩

/-- A file that a patch does not name has the imports that it had. -/
theorem Between.fileImports_eq {old new : Memory} (h : c.Between contents old new)
    (hh : c.Hashes contents) (hf : c.Fits contents new) {path : String}
    (ht : path ∉ c.touched old new) : c.fileImports new path = c.fileImports old path := by
  by_cases hp : path ∈ c.programs new
  · obtain ⟨hold, -, content, time, time', hn, hn'⟩ := h.same_content hh hf hp ht
    rw [fileImports, fileImports, if_pos hp, if_pos hold, hn, hn']
  · rw [fileImports_of_not_mem hp, fileImports_of_not_mem fun hold => ht ?_]
    rw [touched, ImportIndex.touched, List.mem_append]
    refine .inl (ImportIndex.mem_removed (ascending_listing h.named _ _)
      (ascending_listing h.namedOld _ _) (mem_programs_of_create.mp hold) ?_)
    exact fun hnew => hp (mem_programs_of_create.mpr hnew)

/-! ## Runs -/

/-- An index at work in a file system. -/
structure Session where
  index : ImportIndex
  memory : Memory
  /-- The file system as it was when the index took a listing over last. -/
  taken : Memory

/-- A new index. -/
def start (c : IndexScope) (m : Memory) : Session := ⟨c.create, m, nothing⟩

/-- The same session after the list was handed out. -/
def Session.asked (s : Session) : Session := { s with index := s.index.imports.2 }

/-- What an index and the file system go through: the file system is edited, the index is updated
by the listing of the tree and asked for the list. Updates that fail only occur if `faults` holds. -/
inductive Step (c : IndexScope) (contents : ByteArray → Prop) (faults : Prop) :
    Session → Session → Prop where
  | edit {s} (op : Operation) (hc : s.memory.clock ≤ (op.run s.memory).clock) :
      Step c contents faults s { s with memory := op.run s.memory }
  | update {s entries index} (hl : listTree s.memory c.tree.root c.options = .ok entries)
      (hf : c.Fits contents s.memory)
      (ho : outcome (ImportIndex.update s.memory entries) s.index = (.ok (), index)) :
      Step c contents faults s ⟨index, s.memory, s.memory⟩
  | fail {s entries index e} (hf : faults)
      (hl : listTree s.memory c.tree.root c.options = .ok entries)
      (ho : outcome (ImportIndex.update s.memory entries) s.index = (.error e, index)) :
      Step c contents faults s { s with index }
  | ask {s} : Step c contents faults s s.asked

/-- A session that began with a new index. -/
def Run (c : IndexScope) (contents : ByteArray → Prop) (faults : Prop) (s : Session) : Prop :=
  ∃ m, m.Reachable ∧ ReflTransGen (Step c contents faults) (c.start m) s

/-- What holds in a session at any point. -/
structure Held (c : IndexScope) (contents : ByteArray → Prop) (s : Session) : Prop where
  package : s.index.package = c.package
  tree : s.index.tree = c.tree
  snapshot : s.index.snapshot.entries = c.listing s.taken
  nonempty : ∀ path, s.index.perFile.get? path ≠ some []
  sited : s.index.Sited
  handed : s.index.Collected ∨ s.index.collected.stale = true
  readable : ∀ path ∈ c.programs s.taken, ∃ imports,
    ImportIndex.readFile s.taken s.index path = .ok imports
  reachable : s.memory.Reachable
  between : c.Between contents s.taken s.memory

/-- The index knows every file as it was taken over. -/
def Exact (c : IndexScope) (s : Session) : Prop :=
  ∀ path, s.index.known path = c.fileImports s.taken path

/-! ## Handing the list out -/

/-- What an index hands out stays, or was given up for a file that has other imports. -/
def Retains (old index : ImportIndex) : Prop :=
  index.collections = old.collections ∧
    (index.collected = old.collected ∧ index.list = old.list ∨
      index.collected.stale = true ∧ ∃ path, index.known path ≠ old.known path)

section

variable {index : ImportIndex}

theorem value_imports (h : index.Collected ∨ index.collected.stale = true) :
    index.imports.1.value = index.list := by
  rcases h with h | h
  · rw [h.imports]
  · rw [ImportIndex.imports_of_stale h]

theorem collected_imports (h : index.Collected ∨ index.collected.stale = true) :
    index.imports.2.Collected := by
  rcases h with h | h
  · rw [h.imports]
    exact h
  · rw [ImportIndex.imports_of_stale h]
    rfl

end

namespace Held

variable {s : Session}

theorem start {m : Memory} (hm : m.Reachable) : Held c contents (c.start m) where
  package := rfl
  tree := rfl
  snapshot := (listing_nothing _ _).symm
  nonempty := fun _ => nofun
  sited := fun _ => nofun
  handed := .inr rfl
  readable := fun path hp => by
    obtain ⟨e, he, -⟩ := mem_programs.mp hp
    rw [listing, IndexScope.start, listing_nothing] at he
    exact absurd he List.not_mem_nil
  reachable := hm
  between := {
    namedOld := named_nothing
    named := hm.named
    datedOld := dated_nothing _
    since := since_nothing _ m
    fitsOld := fun _ _ _ hn => by simp [IndexScope.start, node?_nothing] at hn }

theorem edit (h : Held c contents s) (op : Operation)
    (hc : s.memory.clock ≤ (op.run s.memory).clock) :
    Held c contents { s with memory := op.run s.memory } :=
  { h with
    reachable := h.reachable.step op hc
    between := { h.between with
      named := (h.reachable.step op hc).named
      since := h.between.since.follows (op.follows _) hc } }

theorem ask (h : Held c contents s) : Held c contents s.asked := by
  have hcollected := collected_imports h.handed
  rcases h.handed with hc | hs
  · rw [Session.asked, hc.imports]
    exact h
  · rw [Session.asked]
    rw [ImportIndex.imports_of_stale hs] at hcollected ⊢
    exact { h with handed := .inl hcollected }

/-- The list of the tree is the listing that an update is given. -/
theorem entries_eq (h : Held c contents s) {entries : List Entry}
    (hl : listTree s.memory c.tree.root c.options = .ok entries) :
    entries = c.listing s.memory := by
  rw [listTree_eq_listing h.reachable.named] at hl
  exact (Except.ok.inj hl).symm

theorem touched_eq (h : Held c contents s) : s.index.touched
    (Patch.between s.index.snapshot.entries (c.listing s.memory)) =
      c.touched s.taken s.memory := by
  rw [touched, h.snapshot, ImportIndex.touched, ImportIndex.touched, ImportIndex.removed,
    ImportIndex.removed, ImportIndex.written, ImportIndex.written, h.package]
  rfl

theorem programs_eq (h : Held c contents s) (m : Memory) {path : String} :
    path ∈ s.index.programs (c.listing m) ↔ path ∈ c.programs m := by
  rw [mem_programs_of_create, ImportIndex.programs, ImportIndex.programs, h.package]
  rfl

theorem ascending_snapshot (h : Held c contents s) : Ascending s.index.snapshot.entries := by
  rw [h.snapshot]
  exact ascending_listing h.between.namedOld _ _

/-- What a file is set to has its sites. -/
theorem sited_of_adopts (h : Held c contents s) {paths : List String} {index : ImportIndex}
    (ha : ImportIndex.Adopts (ImportIndex.current s.memory s.index (c.listing s.memory)) s.index
      paths index) : index.Sited := by
  intro path i hi
  rw [ha.known] at hi
  rw [ha.tree]
  split at hi
  · rw [ImportIndex.current] at hi
    split at hi
    · cases hr : ImportIndex.readFile s.memory s.index path with
      | ok imports =>
          rw [hr] at hi
          exact ImportIndex.site_of_readFile hr i hi
      | error e =>
          rw [hr] at hi
          exact absurd hi List.not_mem_nil
    · exact absurd hi List.not_mem_nil
  · exact h.sited path i hi

/-- Where no file changes, what was handed out stays. -/
theorem handed_of_adopts {index old : ImportIndex} {final : String → List Import}
    {paths : List String} (h : old.Collected ∨ old.collected.stale = true)
    (ha : ImportIndex.Adopts final old paths index) :
    index.Collected ∨ index.collected.stale = true := by
  rcases ha.collected with ⟨hc, hp⟩ | ⟨hc, -⟩
  · rw [hc]
    refine h.imp_left fun h => ?_
    rw [ImportIndex.Collected, hc, h, ha.collections, ImportIndex.list, ImportIndex.list, hp]
  · rw [hc]
    exact .inr rfl

/-- What is given up has changed for a file that was set. -/
theorem retains_of_adopts {index old : ImportIndex} {final : String → List Import}
    {paths : List String} (ha : ImportIndex.Adopts final old paths index) : Retains old index := by
  refine ⟨ha.collections, ?_⟩
  rcases ha.collected with ⟨hc, hp⟩ | ⟨hc, path, hpath, hne⟩
  · exact .inl ⟨hc, congrArg (·.values.flatten) hp⟩
  · refine .inr ⟨congrArg Memo.stale hc, path, fun he => hne ?_⟩
    exact (he.symm.trans (ha.known path)).trans (if_pos hpath)

/-- What a file is set to is what stands there, when all programs can be read. -/
theorem current_eq_fileImports (h : Held c contents s)
    (hread : ∀ path ∈ c.programs s.memory, ∃ imports,
      ImportIndex.readFile s.memory s.index path = .ok imports) (path : String) :
    ImportIndex.current s.memory s.index (c.listing s.memory) path =
      c.fileImports s.memory path := by
  by_cases hp : path ∈ c.programs s.memory
  · obtain ⟨imports, hr⟩ := hread path hp
    rw [ImportIndex.current_of_read ((h.programs_eq _).mpr hp) hr,
      fileImports_of_readFile h.package h.tree h.reachable.named hp hr]
  · rw [fileImports_of_not_mem hp, ImportIndex.current, if_neg fun hp' => hp
      ((h.programs_eq _).mp hp')]

theorem fail (h : Held c contents s) {entries : List Entry} {e : AnalysisError}
    {index : ImportIndex} (hl : listTree s.memory c.tree.root c.options = .ok entries)
    (ho : outcome (ImportIndex.update s.memory entries) s.index = (.error e, index)) :
    Held c contents { s with index } := by
  obtain rfl := h.entries_eq hl
  obtain ⟨⟨paths, -, ha⟩, -⟩ := ImportIndex.update_error
    (ascending_listing h.reachable.named c.tree.root c.options) h.ascending_snapshot h.nonempty ho
  refine { h with
    package := ha.package.trans h.package
    tree := ha.tree.trans h.tree
    snapshot := ha.snapshot ▸ h.snapshot
    nonempty := ha.nonempty
    sited := h.sited_of_adopts ha
    handed := handed_of_adopts h.handed ha
    readable := fun path hp => ?_ }
  rw [ImportIndex.readFile_congr ha.package ha.tree]
  exact h.readable path hp

/-- An update fails for a program of the tree. -/
theorem exists_unreadable (h : Held c contents s) {entries : List Entry} {e : AnalysisError}
    {index : ImportIndex} (hl : listTree s.memory c.tree.root c.options = .ok entries)
    (ho : outcome (ImportIndex.update s.memory entries) s.index = (.error e, index)) :
    ∃ path ∈ c.programs s.memory, ImportIndex.readFile s.memory s.index path = .error e := by
  obtain rfl := h.entries_eq hl
  obtain ⟨-, path, hp, hr⟩ := ImportIndex.update_error
    (ascending_listing h.reachable.named c.tree.root c.options) h.ascending_snapshot h.nonempty ho
  exact ⟨path, (h.programs_eq _).mp hp, hr⟩

section

variable (hh : c.Hashes contents) (h : Held c contents s) (hf : c.Fits contents s.memory)

include hh h hf

/-- Every program that an update need not read can be read as before. -/
theorem readable_of_written
    (hread : ∀ path ∈ s.index.written (Patch.between s.index.snapshot.entries (c.listing s.memory)),
      ∃ imports, ImportIndex.readFile s.memory s.index path = .ok imports) :
    ∀ path ∈ c.programs s.memory, ∃ imports,
      ImportIndex.readFile s.memory s.index path = .ok imports := by
  intro path hp
  by_cases hw : path ∈ s.index.written
      (Patch.between s.index.snapshot.entries (c.listing s.memory))
  · exact hread path hw
  · have hnew : Ascending (c.listing s.memory) := ascending_listing h.reachable.named _ _
    have ht : path ∉ c.touched s.taken s.memory := by
      rw [← h.touched_eq, ImportIndex.touched, List.mem_append]
      exact fun hor => hor.elim (fun hr => ImportIndex.not_mem_programs_of_removed hnew
        h.ascending_snapshot hr ((h.programs_eq _).mpr hp)) hw
    obtain ⟨hold, hc, content, time, time', hn, hn'⟩ := h.between.same_content hh hf hp ht
    rw [readFile_of_content h.tree hc hn hn']
    exact h.readable path hold

/-- What a successful update leads to: the files that the patch names are known as they are, the
others as they were. -/
theorem update {entries : List Entry} {index : ImportIndex}
    (hl : listTree s.memory c.tree.root c.options = .ok entries)
    (ho : outcome (ImportIndex.update s.memory entries) s.index = (.ok (), index)) :
    Held c contents ⟨index, s.memory, s.memory⟩ ∧
      (∀ path, index.known path = if path ∈ c.touched s.taken s.memory then
        c.fileImports s.memory path else s.index.known path) ∧
      Retains s.index index := by
  obtain rfl := h.entries_eq hl
  have hm := h.reachable.named
  obtain ⟨followed, ha, hread, rfl⟩ := ImportIndex.update_ok
    (ascending_listing hm c.tree.root c.options) h.ascending_snapshot h.nonempty ho
  have hreadable := readable_of_written hh h hf fun path hp => ⟨_, hread path hp⟩
  have hretains : Retains s.index followed := retains_of_adopts ha
  have hsited : followed.Sited := h.sited_of_adopts ha
  have hhanded : followed.Collected ∨ followed.collected.stale = true :=
    handed_of_adopts h.handed ha
  refine ⟨?_, fun path => ?_, hretains⟩
  · exact {
      package := ha.package.trans h.package
      tree := ha.tree.trans h.tree
      snapshot := rfl
      nonempty := ha.nonempty
      sited := hsited
      handed := hhanded
      readable := fun path hp => by
        obtain ⟨imports, hr⟩ := hreadable path hp
        exact ⟨imports, (congrFun (ImportIndex.readFile_congr ha.package ha.tree) path).trans hr⟩
      reachable := h.reachable
      between := {
        namedOld := hm
        named := hm
        datedOld := h.reachable.dated
        since := Since.refl _ _
        fitsOld := hf } }
  · refine (ha.known path).trans ?_
    rw [← listing, h.touched_eq, h.current_eq_fileImports hreadable]

theorem exact_update (he : c.Exact s) {entries : List Entry} {index : ImportIndex}
    (hl : listTree s.memory c.tree.root c.options = .ok entries)
    (ho : outcome (ImportIndex.update s.memory entries) s.index = (.ok (), index)) :
    c.Exact ⟨index, s.memory, s.memory⟩ := by
  intro path
  obtain ⟨-, hknown, -⟩ := h.update hh hf hl ho
  refine (hknown path).trans ?_
  split
  · rfl
  · rename_i ht
    rw [he path]
    exact (h.between.fileImports_eq hh hf ht).symm

end

/-- Where an index was updated, a new one can be updated. -/
theorem fresh_succeeds {index : ImportIndex} (h : Held c contents s)
    (hnew : Held c contents ⟨index, s.memory, s.memory⟩) {entries : List Entry}
    (hl : listTree s.memory c.tree.root c.options = .ok entries) :
    ∃ fresh, outcome (ImportIndex.update s.memory entries) c.create = (.ok (), fresh) := by
  obtain rfl := h.entries_eq hl
  have hlisted : Ascending (c.listing s.memory) := ascending_listing h.reachable.named _ _
  have hnone : Ascending c.create.snapshot.entries := .nil
  refine ImportIndex.update_succeeds hlisted hnone (fun _ => nofun) fun path hp => ?_
  have hpath := ImportIndex.mem_programs_of_written hlisted hnone hp
  obtain ⟨imports, hr⟩ := hnew.readable path (mem_programs_of_create.mpr hpath)
  exact ⟨imports, (congrFun (ImportIndex.readFile_congr hnew.package.symm hnew.tree.symm) path).trans hr⟩

/-- The list that is handed out is the one from scratch exactly when every file is known as it
was taken over. -/
theorem value_eq_scratch_iff (h : Held c contents s) :
    s.index.imports.1.value = c.scratch s.taken ↔ c.Exact s := by
  rw [value_imports h.handed, list_eq_scratch_iff h.between.namedOld h.tree h.nonempty h.sited]
  rfl

end Held

variable {s s' : Session}

/-- The invariant of a session, and that it knows every file as long as no update fails. -/
theorem Held.step (hh : c.Hashes contents) (h : Held c contents s)
    (hstep : Step c contents faults s s') : Held c contents s' ∧
      (¬ faults → c.Exact s → c.Exact s') := by
  cases hstep with
  | edit op hc => exact ⟨h.edit op hc, fun _ he => he⟩
  | update hl hf ho => exact ⟨(h.update hh hf hl ho).1, fun _ he => h.exact_update hh hf he hl ho⟩
  | fail hf hl ho => exact ⟨h.fail hl ho, fun hno => absurd hf hno⟩
  | ask =>
      refine ⟨h.ask, fun _ he path => ?_⟩
      refine Eq.trans ?_ (he path)
      rw [Session.asked, ImportIndex.known, ImportIndex.known, ImportIndex.perFile_imports]

theorem Held.steps (hh : c.Hashes contents) (h : Held c contents s)
    (hsteps : ReflTransGen (Step c contents faults) s s') : Held c contents s' ∧
      (¬ faults → c.Exact s → c.Exact s') := by
  induction hsteps with
  | refl => exact ⟨h, fun _ => id⟩
  | tail _ hstep ih =>
      obtain ⟨hheld, hexact⟩ := ih.1.step hh hstep
      exact ⟨hheld, fun hf he => hexact hf (ih.2 hf he)⟩

theorem exact_start (c : IndexScope) (m : Memory) : c.Exact (c.start m) := by
  intro path
  rw [fileImports_of_not_mem fun hp => ?_]
  · rfl
  · obtain ⟨e, he, -⟩ := mem_programs.mp hp
    rw [listing, start, listing_nothing] at he
    exact absurd he List.not_mem_nil

/-- The invariant holds throughout a run. -/
theorem Run.held (hh : c.Hashes contents) (h : Run c contents faults s) :
    Held c contents s ∧ (¬ faults → c.Exact s) := by
  obtain ⟨m, hm, hsteps⟩ := h
  obtain ⟨hheld, hexact⟩ := (Held.start hm).steps hh hsteps
  exact ⟨hheld, fun hf => hexact hf (exact_start c m)⟩

end IndexScope

end VendorBundle
