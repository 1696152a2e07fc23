import VendorBundle.Merge.Overlay
import VendorBundle.Proofs.Tree.Listing
import VendorBundle.Proofs.Tree.Replay

/-!
# What is laid over a listing

The overlay of generated directories is a tree of its own, and a laid over file comes from the
generated file that its source names.
-/

namespace VendorBundle

open Entry

theorem canonical_append {front rest : String} :
    Canonical (front ++ "/" ++ rest) ↔ Canonical front ∧ Canonical rest := by
  simp only [Canonical, Text.split_append, List.mem_append, or_imp, forall_and]

theorem Below.canonical {dir path : String} (h : Below dir path) (hc : Canonical path) :
    Canonical dir := by
  obtain ⟨rest, rfl⟩ := h
  exact (canonical_append.mp hc).1

theorem Canonical.isName {path : String} (h : Canonical path) :
    ∀ n ∈ Text.split '/' path, IsName n := h

theorem Canonical.ne_empty {path : String} (h : Canonical path) : path ≠ "" := by
  rintro rfl
  exact absurd h (by decide)

namespace Overlay

theorem below?_eq_some_iff {dir path rest : String} :
    below? dir path = some rest ↔ path = dir ++ "/" ++ rest := by
  have htext : ∀ r : List Char, path.toList = dir.toList ++ '/' :: r ↔
      path = dir ++ "/" ++ String.ofList r := fun r => by
    constructor
    · intro h
      apply String.toList_injective
      simp [String.toList_append, h]
    · rintro rfl
      simp [String.toList_append]
  rw [below?]
  split
  · rename_i r hstrip
    rw [Text.stripStart?_eq_some_iff, htext] at hstrip
    subst hstrip
    simp only [Option.some.injEq, String.append_right_inj]
  · rename_i hstrip
    simp only [false_iff, reduceCtorEq]
    rintro rfl
    refine hstrip rest.toList ?_
    rw [Text.stripStart?_eq_some_iff]
    simp [String.toList_append]

/-! ## The entries -/

/-- The entries of a generated directory at their new places. -/
def relocated (generated : List Entry) (source target : String) : List Entry :=
  generated.filterMap fun e => (below? source e.path).map fun rest =>
    { e with path := place target rest }

/-- What passing one generated directory through lays over a listing. -/
def laid (generated : List Entry) (source target : String) : List Entry :=
  relocated generated source target ++
    if (relocated generated source target).isEmpty then [] else directories target

theorem foldl_addEntry_entries (target : String) (found : List (Entry × String)) (o : Overlay) :
    (found.foldl (fun o (e, rest) => o.addEntry e (place target rest)) o).entries =
      o.entries ++ found.map fun p => { p.1 with path := place target p.2 } := by
  induction found generalizing o with
  | nil => simp
  | cons p found ih =>
      rw [List.foldl_cons, ih]
      simp [addEntry]

theorem addTree_entries (generated : List Entry) (o : Overlay) (source target : String) :
    (addTree generated o source target).entries = o.entries ++ laid generated source target := by
  have hmap : (generated.filterMap fun e => (below? source e.path).map (e, ·)).map
      (fun p => { p.1 with path := place target p.2 }) = relocated generated source target := by
    rw [List.map_filterMap, relocated]
    congr 1
    funext e
    cases below? source e.path <;> rfl
  have hempty : (generated.filterMap fun e => (below? source e.path).map (e, ·)).isEmpty =
      (relocated generated source target).isEmpty := by
    rw [← hmap, List.isEmpty_map]
  rw [addTree]
  simp only [hempty]
  split
  · rename_i h
    rw [foldl_addEntry_entries, hmap, laid, if_pos h, List.append_nil]
  · rename_i h
    simp only [foldl_addEntry_entries, hmap, laid, if_neg h, List.append_assoc]

theorem ofListing_entries (passthrough : Table String String) (generated : List Entry) :
    (ofListing passthrough generated).entries = passthrough.entries.flatMap fun (source, target) =>
      laid generated (trimSlashes source) (trimSlashes target) := by
  have hfold : ∀ (pairs : List (String × String)) (o : Overlay),
      (pairs.foldl (fun o (source, target) =>
        addTree generated o (trimSlashes source) (trimSlashes target)) o).entries =
      o.entries ++ pairs.flatMap fun (source, target) =>
        laid generated (trimSlashes source) (trimSlashes target) := by
    intro pairs
    induction pairs with
    | nil => simp
    | cons pair pairs ih => simp [ih, addTree_entries]
  rw [ofListing, hfold]
  rfl

theorem mem_relocated {generated : List Entry} {source target : String} {e : Entry} :
    e ∈ relocated generated source target ↔ ∃ g ∈ generated, ∃ rest,
      g.path = source ++ "/" ++ rest ∧ e = { g with path := place target rest } := by
  simp only [relocated, List.mem_filterMap, Option.map_eq_some_iff, below?_eq_some_iff]
  constructor
  · rintro ⟨g, hm, rest, hp, rfl⟩
    exact ⟨g, hm, rest, hp, rfl⟩
  · rintro ⟨g, hm, rest, hp, rfl⟩
    exact ⟨g, hm, rest, hp, rfl⟩

/-! ## Directories on the way -/

theorem split_filter_isEmpty {path : String} (h : Canonical path) :
    (Text.split '/' path).filter (!·.isEmpty) = Text.split '/' path :=
  List.filter_eq_self.mpr fun n hn => by simpa using (h n hn).1

theorem mem_directories {target : String} (h : Canonical target) {e : Entry} :
    e ∈ directories target ↔
      ∃ front, front ≠ [] ∧ front <+: Text.split '/' target ∧ e = .dir (pathText front) := by
  simp only [directories, split_filter_isEmpty h, List.mem_map, List.mem_range]
  constructor
  · rintro ⟨n, hn, rfl⟩
    refine ⟨_, fun he => ?_, List.take_prefix _ _, rfl⟩
    have hlen := congrArg List.length he
    rw [List.length_take, List.length_nil] at hlen
    omega
  · rintro ⟨front, hne, ⟨rest, hrest⟩, rfl⟩
    have hpos := List.length_pos_iff.mpr hne
    refine ⟨front.length - 1, ?_, ?_⟩
    · rw [← hrest, List.length_append]
      omega
    · rw [Nat.sub_add_cancel hpos, ← hrest, List.take_left]
      rfl

@[simp] theorem directories_empty : directories "" = [] := by
  decide

/-- The place of a generated directory in the result: the root or a directory below it. -/
def IsPlace (target : String) : Prop := target = "" ∨ Canonical target

instance (target : String) : Decidable (IsPlace target) := inferInstanceAs (Decidable (_ ∨ _))

theorem canonical_place {target rest : String} (ht : IsPlace target) (hr : Canonical rest) :
    Canonical (place target rest) := by
  rcases ht with rfl | ht
  · exact hr
  · rw [place, if_neg (by simpa using ht.ne_empty)]
    exact canonical_append.mpr ⟨ht, hr⟩

/-- What is laid at a target is relocated, or a directory on the way to the target. -/
theorem mem_laid {generated : List Entry} {source target : String} (ht : IsPlace target)
    {e : Entry} (he : e ∈ laid generated source target) :
    e ∈ relocated generated source target ∨
      (relocated generated source target).isEmpty = false ∧ Canonical target ∧
        ∃ front, front ≠ [] ∧ front <+: Text.split '/' target ∧ e = .dir (pathText front) := by
  rcases List.mem_append.mp he with he | he
  · exact .inl he
  · split at he
    · exact absurd he List.not_mem_nil
    · rename_i hne
      rcases ht with rfl | ht
      · simp at he
      · exact .inr ⟨by simpa using hne, ht, (mem_directories ht).mp he⟩

theorem canonical_laid {generated : List Entry} (hg : ∀ g ∈ generated, Canonical g.path)
    {source target : String} (ht : IsPlace target) :
    ∀ e ∈ laid generated source target, Canonical e.path := by
  intro e he
  rcases mem_laid ht he with he | ⟨-, hc, front, hne, hf, rfl⟩
  · obtain ⟨g, hm, rest, hp, rfl⟩ := mem_relocated.mp he
    exact canonical_place ht (canonical_append.mp (hp ▸ hg g hm)).2
  · exact canonical_pathText hne fun n hn => hc n (hf.subset hn)

/-- A directory on the way to a relocated path is one of the given directory or on the way to the
new place. -/
theorem below_place {target rest dir : String} (ht : IsPlace target)
    (hb : Below dir (place target rest)) :
    (∃ rest', dir = place target rest' ∧ Below rest' rest) ∨
      Canonical target ∧ Text.split '/' dir <+: Text.split '/' target := by
  rcases ht with rfl | ht
  · exact .inl ⟨dir, rfl, hb⟩
  · have hplace : ∀ r, place target r = target ++ "/" ++ r := fun r => by
      rw [place, if_neg (by simpa using ht.ne_empty)]
    rw [hplace, below_iff_split, Text.split_append] at hb
    obtain ⟨back, hne, hs⟩ := hb
    rcases List.append_eq_append_iff.mp hs with ⟨middle, hd, hr⟩ | ⟨middle, hd, hr⟩
    · by_cases hm : middle = []
      · rw [hm, List.append_nil] at hd
        exact .inr ⟨ht, hd ▸ List.prefix_refl _⟩
      · refine .inl ⟨pathText middle, ?_, below_iff_split.mpr ⟨back, hne, ?_⟩⟩
        · rw [hplace]
          apply Text.split_injective
          rw [Text.split_append, hd, pathText, Text.split_intercalate hm]
          intro n hn
          exact Text.not_mem_of_mem_split (hr ▸ List.mem_append_left back hn)
        · rw [hr, pathText, Text.split_intercalate hm]
          intro n hn
          exact Text.not_mem_of_mem_split (hr ▸ List.mem_append_left back hn)
    · exact .inr ⟨ht, hd ▸ List.prefix_append _ _⟩

/-- When anything is laid at a target, all that leads to the target is a directory. -/
theorem exists_directory_laid {generated : List Entry} {source target dir : String}
    (hne : (relocated generated source target).isEmpty = false) (hc : Canonical target)
    (hp : Text.split '/' dir <+: Text.split '/' target) :
    ∃ d ∈ laid generated source target, d.path = dir ∧ d.kind = .directory := by
  refine ⟨.dir dir, List.mem_append_right _ ?_, rfl, rfl⟩
  rw [if_neg (by simp [hne])]
  exact (mem_directories hc).mpr ⟨_, Text.split_ne_nil '/' dir, hp, by rw [pathText_split]⟩

theorem isTree_laid {generated : List Entry} (hg : IsTree generated) {source target : String}
    (ht : IsPlace target) : IsTree (laid generated source target) := by
  refine ⟨fun e he dir hdir => ?_, fun e he hk => ?_⟩
  · have hb := mem_directoriesAbove.mp hdir
    rcases mem_laid ht he with he | ⟨hne, hc, front, hf, hpre, rfl⟩
    · have hne : (relocated generated source target).isEmpty = false := by
        simpa using List.ne_nil_of_mem he
      obtain ⟨g, hm, rest, hp, rfl⟩ := mem_relocated.mp he
      rcases below_place ht hb with ⟨rest', rfl, hr⟩ | ⟨hc, hpre⟩
      · obtain ⟨back, rfl⟩ := hr
        have hbelow : Below (source ++ "/" ++ rest') g.path :=
          ⟨back, by rw [hp]; simp [String.append_assoc]⟩
        obtain ⟨d, hd, hdp, hdk⟩ := hg.directory_of_below hm hbelow
        exact ⟨_, List.mem_append_left _ (mem_relocated.mpr ⟨d, hd, rest', hdp, rfl⟩), rfl, hdk⟩
      · exact exists_directory_laid hne hc hpre
    · obtain ⟨back, -, hs⟩ := below_iff_split.mp hb
      rw [Entry.dir, split_pathText hf fun n hn => hc n (hpre.subset hn)] at hs
      exact exists_directory_laid hne hc ((hs ▸ List.prefix_append _ _).trans hpre)
  · rcases mem_laid ht he with he | ⟨-, -, front, -, -, rfl⟩
    · obtain ⟨g, hm, rest, -, rfl⟩ := mem_relocated.mp he
      exact hg.2 g hm hk
    · rfl

theorem isTree_ofListing {generated : List Entry} (hg : IsTree generated)
    {passthrough : Table String String}
    (ht : ∀ e ∈ passthrough.entries, IsPlace (trimSlashes e.2)) :
    IsTree (ofListing passthrough generated).entries := by
  rw [ofListing_entries]
  refine ⟨fun e he dir hdir => ?_, fun e he hk => ?_⟩
  · obtain ⟨pair, hp, he⟩ := List.mem_flatMap.mp he
    obtain ⟨d, hd, hdp, hdk⟩ := (isTree_laid hg (ht pair hp)).1 e he dir hdir
    exact ⟨d, List.mem_flatMap.mpr ⟨pair, hp, hd⟩, hdp, hdk⟩
  · obtain ⟨pair, hp, he⟩ := List.mem_flatMap.mp he
    exact (isTree_laid hg (ht pair hp)).2 e he hk

theorem canonical_ofListing {generated : List Entry} (hg : ∀ g ∈ generated, Canonical g.path)
    {passthrough : Table String String}
    (ht : ∀ e ∈ passthrough.entries, IsPlace (trimSlashes e.2)) :
    ∀ e ∈ (ofListing passthrough generated).entries, Canonical e.path := by
  intro e he
  rw [ofListing_entries] at he
  obtain ⟨pair, hp, he⟩ := List.mem_flatMap.mp he
  exact canonical_laid hg (ht pair hp) e he

/-! ## The sources -/

/-- The entries of files. -/
def files (entries : List Entry) : List Entry := entries.filter (·.kind = .file)

/-- The last file that is laid over a path is the generated file that the sources name. -/
def Traced (generated : List Entry) (o : Overlay) : Prop :=
  ∀ path, match o.sources.get? path with
    | none => entryAt? (files o.entries) path = none
    | some source => ∃ g ∈ generated, g.path = source ∧ g.kind = .file ∧
        entryAt? (files o.entries) path = some { g with path }

theorem files_append (a b : List Entry) : files (a ++ b) = files a ++ files b :=
  List.filter_append a b

theorem Traced.addEntry {generated : List Entry} {o : Overlay} (h : Traced generated o) {g : Entry}
    (hg : g ∈ generated) (path : String) : Traced generated (o.addEntry g path) := by
  intro p
  have hp := h p
  simp only [Overlay.addEntry, files_append]
  by_cases hk : g.kind = .directory
  · have hnil : files [{ g with path }] = [] := by simp [files, hk]
    rw [if_pos hk, hnil, List.append_nil]
    exact hp
  · have hfile : g.kind = .file := by
      cases hc : g.kind with
      | file => rfl
      | directory => exact absurd hc hk
    have hone : files [{ g with path }] = [{ g with path }] := by simp [files, hfile]
    rw [if_neg hk, Table.get?_insert, hone, entryAt?_append, entryAt?_cons, entryAt?_nil]
    by_cases he : path = p
    · subst he
      simp only [if_true, Option.none_or, Option.some_or]
      exact ⟨g, hg, rfl, hfile, rfl⟩
    · simpa [he] using hp

theorem Traced.append {generated : List Entry} {o : Overlay} (h : Traced generated o)
    {entries : List Entry} (hd : ∀ e ∈ entries, e.kind = .directory) :
    Traced generated { o with entries := o.entries ++ entries } := by
  intro p
  have hnil : files entries = [] :=
    List.filter_eq_nil_iff.mpr fun e he => by simp [hd e he]
  simp only [files_append, hnil, List.append_nil]
  exact h p

theorem Traced.addTree {generated : List Entry} {o : Overlay} (h : Traced generated o)
    (source target : String) : Traced generated (addTree generated o source target) := by
  have hfold : ∀ (found : List (Entry × String)) (o : Overlay), (∀ p ∈ found, p.1 ∈ generated) →
      Traced generated o →
      Traced generated (found.foldl (fun o (e, rest) => o.addEntry e (place target rest)) o) := by
    intro found
    induction found with
    | nil => exact fun o _ ho => ho
    | cons p found ih =>
        intro o hm ho
        exact ih _ (fun q hq => hm q (List.mem_cons_of_mem _ hq))
          (ho.addEntry (hm p List.mem_cons_self) _)
  have hfound := hfold (generated.filterMap fun e => (below? source e.path).map (e, ·)) o
    (fun p hp => by
      obtain ⟨e, he, hr⟩ := List.mem_filterMap.mp hp
      obtain ⟨rest, -, rfl⟩ := Option.map_eq_some_iff.mp hr
      exact he) h
  rw [Overlay.addTree]
  simp only
  split
  · exact hfound
  · refine hfound.append fun e he => ?_
    obtain ⟨n, -, rfl⟩ := List.mem_map.mp he
    rfl

theorem traced_ofListing (passthrough : Table String String) (generated : List Entry) :
    Traced generated (ofListing passthrough generated) := by
  have hfold : ∀ (pairs : List (String × String)) (o : Overlay), Traced generated o →
      Traced generated (pairs.foldl (fun o (source, target) =>
        addTree generated o (trimSlashes source) (trimSlashes target)) o) := by
    intro pairs
    induction pairs with
    | nil => exact fun o ho => ho
    | cons pair pairs ih => exact fun o ho => ih _ (ho.addTree _ _)
  exact hfold _ _ fun p => by simp [files]

end Overlay

/-! ## Listings of one shape -/

namespace Overlay

def bare (o : Overlay) : Overlay := { o with entries := o.entries.map Entry.bare }

theorem bare_addEntry (o : Overlay) (e : Entry) (path : String) :
    (o.addEntry e path).bare = o.bare.addEntry e.bare path := by
  simp only [addEntry, bare, List.map_append, List.map_cons, List.map_nil]
  rfl

theorem bare_addTree (generated : List Entry) (o : Overlay) (source target : String) :
    (addTree generated o source target).bare =
      addTree (generated.map Entry.bare) o.bare source target := by
  have hfound : (generated.map Entry.bare).filterMap
      (fun e => (below? source e.path).map (e, ·)) =
      (generated.filterMap fun e => (below? source e.path).map (e, ·)).map
        fun p => (p.1.bare, p.2) := by
    rw [List.filterMap_map, List.map_filterMap]
    congr 1
    funext e
    simp [Entry.bare, Function.comp_def]
  have hfold : ∀ (found : List (Entry × String)) (o : Overlay),
      (found.foldl (fun o (e, rest) => o.addEntry e (place target rest)) o).bare =
        (found.map fun p => (p.1.bare, p.2)).foldl
          (fun o (e, rest) => o.addEntry e (place target rest)) o.bare := by
    intro found
    induction found with
    | nil => exact fun _ => rfl
    | cons p found ih =>
        intro o
        rw [List.foldl_cons, ih, bare_addEntry]
        rfl
  have hdirectories : (directories target).map Entry.bare = directories target := by
    simp [directories, Entry.bare, Entry.dir]
  simp only [addTree, hfound, List.isEmpty_map]
  rw [← hfold]
  split
  · rfl
  · simp [bare, hdirectories]

/-- What is laid over, and where it comes from, depends on the shape of the listing alone. -/
theorem bare_ofListing (passthrough : Table String String) (generated : List Entry) :
    (ofListing passthrough generated).bare = ofListing passthrough (generated.map Entry.bare) := by
  have hfold : ∀ (pairs : List (String × String)) (o : Overlay),
      (pairs.foldl (fun o (source, target) =>
        addTree generated o (trimSlashes source) (trimSlashes target)) o).bare =
      pairs.foldl (fun o (source, target) =>
        addTree (generated.map Entry.bare) o (trimSlashes source) (trimSlashes target)) o.bare := by
    intro pairs
    induction pairs with
    | nil => exact fun _ => rfl
    | cons pair pairs ih =>
        intro o
        rw [List.foldl_cons, ih, bare_addTree]
        rfl
  exact hfold _ _

end Overlay

/-! ## One listing over another -/

/-- No path is listed both as a file and as a directory. -/
def OneKind (entries : List Entry) : Prop :=
  ∀ a ∈ entries, ∀ b ∈ entries, a.path = b.path → a.kind = b.kind

theorem OneKind.kind_eq {entries : List Entry} (h : OneKind entries) {a e : Entry} {path : String}
    (ha : a ∈ entries) (hp : a.path = path) (he : entryAt? entries path = some e) :
    e.kind = a.kind :=
  h e (entryAt?_mem he) a ha ((entryAt?_path he).trans hp.symm)

theorem IsTree.append {a b : List Entry} (ha : IsTree a) (hb : IsTree b) : IsTree (a ++ b) := by
  refine ⟨fun e he dir hdir => ?_, fun e he hk => ?_⟩
  · rcases List.mem_append.mp he with he | he
    · obtain ⟨d, hd, h⟩ := ha.1 e he dir hdir
      exact ⟨d, List.mem_append_left _ hd, h⟩
    · obtain ⟨d, hd, h⟩ := hb.1 e he dir hdir
      exact ⟨d, List.mem_append_right _ hd, h⟩
  · rcases List.mem_append.mp he with he | he
    · exact ha.2 e he hk
    · exact hb.2 e he hk

theorem isTree_normalize {entries : List Entry} (h : IsTree entries) (hk : OneKind entries) :
    IsTree (normalize entries) := by
  have hm : ∀ e ∈ normalize entries, e ∈ entries := fun e he => entryAt?_mem (mem_normalize.mp he)
  refine ⟨fun e he dir hdir => ?_, fun e he => h.2 e (hm e he)⟩
  obtain ⟨d, hd, rfl, hdk⟩ := h.1 e (hm e he) dir hdir
  obtain ⟨x, hx⟩ := exists_entryAt?_of_mem hd
  have hxp := entryAt?_path hx
  refine ⟨x, ?_, hxp, (hk.kind_eq hd rfl hx).trans hdk⟩
  rw [mem_normalize, hxp, hx]

/-- Where each path is of one kind, the last entry of a path that is a file comes from the overlay
if that holds the path, and from what it is laid over otherwise. -/
theorem entryAt?_append_of_file {generated under : List Entry} {o : Overlay}
    (ho : o.Traced generated) (hk : OneKind (under ++ o.entries)) {path : String} {e : Entry}
    (he : entryAt? (under ++ o.entries) path = some e) (hf : e.kind = .file) :
    match o.sources.get? path with
    | none => entryAt? under path = some e
    | some source => ∃ g ∈ generated, g.path = source ∧ g.kind = .file ∧ e = { g with path } := by
  have hfiles : entryAt? (Overlay.files o.entries) path = entryAt? o.entries path := by
    rw [entryAt?_eq_getLast?, entryAt?_eq_getLast?, Overlay.files, List.filter_filter]
    congr 1
    refine List.filter_congr fun x hx => ?_
    by_cases hp : x.path = path
    · have := hk.kind_eq (List.mem_append_right _ hx) hp he
      simp [hp, ← this, hf]
    · simp [hp]
  have hp := ho path
  rw [entryAt?_append] at he
  split at hp
  · rename_i hs
    rw [hfiles] at hp
    simpa [hp] using he
  · rename_i source hs
    obtain ⟨g, hg, hgp, hgk, hat⟩ := hp
    rw [hfiles] at hat
    rw [hat, Option.some_or, Option.some.injEq] at he
    exact ⟨g, hg, hgp, hgk, he.symm⟩

end VendorBundle
