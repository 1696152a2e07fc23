import VendorBundle.Proofs.Memory.History
import VendorBundle.Proofs.Tree.Normal
import VendorBundle.Tree.Listing

/-!
# What a listing holds

On a file system in memory, listing a tree never fails and finds exactly the nodes that are reached
from the root through directories without passing an ignored name.
-/

namespace VendorBundle

/-- The relative path that names lead to. -/
def pathText (names : List String) : String := "/".intercalate names

theorem pathText_split (path : String) : pathText (Text.split '/' path) = path :=
  Text.intercalate_split path

theorem split_pathText {names : List String} (hne : names ≠ []) (h : ∀ n ∈ names, IsName n) :
    Text.split '/' (pathText names) = names :=
  Text.split_intercalate hne fun n hn => (h n hn).2.2.2

theorem canonical_pathText {names : List String} (hne : names ≠ []) (h : ∀ n ∈ names, IsName n) :
    Canonical (pathText names) := by
  rw [Canonical, split_pathText hne h]
  exact h

theorem pathText_isEmpty {names : List String} (h : ∀ n ∈ names, IsName n) :
    (pathText names).isEmpty = names.isEmpty := by
  cases names with
  | nil => rfl
  | cons name names =>
      have hc := canonical_pathText (List.cons_ne_nil name names) h
      have hne : pathText (name :: names) ≠ "" := fun he => by
        rw [he] at hc
        exact (hc "" (by decide)).1 rfl
      simpa using hne

namespace Listing

theorem child_pathText {names : List String} (h : ∀ n ∈ names, IsName n) (name : String) :
    child (pathText names) name = pathText (names ++ [name]) := by
  rw [child, pathText_isEmpty h]
  cases names with
  | nil => rfl
  | cons n names =>
      rw [pathText, pathText,
        String.intercalate_append_of_ne_nil (List.cons_ne_nil n names) (by simp)]
      simp

end Listing

/-! ## Entries of nodes -/

/-- The token of a file. -/
def TokenMode.token (content : ByteArray) (modified : UInt64) : TokenMode → ChangeToken
  | .stat => .stat content.size.toUInt64 (some modified)
  | .content => .ofContent content

theorem TokenMode.time_eq_of_stat {content content' : ByteArray} {time time' : UInt64}
    (h : TokenMode.stat.token content time = TokenMode.stat.token content' time') :
    time = time' := by
  obtain ⟨-, htime⟩ := ChangeToken.stat.inj h
  exact Option.some.inj htime

/-- The entry of a node in a listing. -/
def Node.entry (mode : TokenMode) (path : String) : Node → Entry
  | .dir => .dir path
  | .file content modified => .file path (mode.token content modified)

@[simp] theorem Node.entry_path (mode : TokenMode) (path : String) (node : Node) :
    (node.entry mode path).path = path := by
  cases node <;> rfl

/-! ## The walk -/

theorem mapM_eq_ok {ε α β : Type} {l : List α} {f : α → Except ε β} {g : α → β}
    (h : ∀ a ∈ l, f a = .ok (g a)) : l.mapM f = .ok (l.map g) := by
  induction l with
  | nil => rfl
  | cons a l ih =>
      rw [List.mapM_cons, h a List.mem_cons_self,
        ih fun b hb => h b (List.mem_cons_of_mem _ hb)]
      rfl

namespace Listing

/-- The entries of a member of a directory, given what is found inside it. -/
def memberEntries (mode : TokenMode) (path : String) (inside : List Entry) :
    Option Node → List Entry
  | none => []
  | some .dir => .dir path :: inside
  | some (.file content modified) => [.file path (mode.token content modified)]

/-- The entries that a walk to the given depth finds below a place. -/
def found (m : Memory) (options : ListOptions) (root : Place) : Nat → List String → List Entry
  | 0, _ => []
  | depth + 1, names =>
      ((m.children (root ++ names)).filter (!options.ignore.contains ·)).flatMap fun name =>
        memberEntries options.tokenMode (pathText (names ++ [name]))
          (found m options root depth (names ++ [name])) (m.node? (root ++ (names ++ [name])))

/-- The directory that a walk reads after some names. -/
theorem resolved_directory (root : Path) {names : List String} (hn : ∀ n ∈ names, IsName n) :
    (if (pathText names).isEmpty then root else root.join ⟨pathText names⟩).resolved =
      root.resolved ++ names := by
  rw [pathText_isEmpty hn]
  cases names with
  | nil => simp
  | cons n names =>
      have hne : n :: names ≠ [] := List.cons_ne_nil n names
      rw [List.isEmpty_cons, if_neg Bool.false_ne_true,
        Path.resolved_join _ (canonical_pathText hne hn), split_pathText hne hn]

theorem below_eq_ok {m : Memory} (hm : m.Named) (options : ListOptions) (root : Path) (depth : Nat)
    {names : List String} (hn : ∀ n ∈ names, IsName n)
    (hd : m.node? (root.resolved ++ names) = some .dir) :
    below m options root depth (pathText names) =
      .ok (found m options root.resolved depth names) := by
  induction depth generalizing names with
  | zero => rfl
  | succ depth ih =>
      have hdir := resolved_directory root hn
      rw [below]
      generalize (if (pathText names).isEmpty then root
          else root.join ⟨pathText names⟩) = dir at hdir
      simp only [Memory.names_of_dir (hdir ▸ hd), hdir, bind, Except.bind]
      rw [mapM_eq_ok (g := fun name => memberEntries options.tokenMode (pathText (names ++ [name]))
        (found m options root.resolved depth (names ++ [name]))
        (m.node? (root.resolved ++ (names ++ [name]))))]
      · rfl
      · intro name hname
        obtain ⟨node, hnode⟩ := Memory.mem_children.mp (List.mem_filter.mp hname).1
        rw [List.append_assoc] at hnode
        have hname : IsName name := hm _ node hnode name (by simp)
        have hnames : ∀ n ∈ names ++ [name], IsName n := fun n hn' => by
          rcases List.mem_append.mp hn' with h | h
          · exact hn n h
          · exact List.mem_singleton.mp h ▸ hname
        have hpath : (dir.join ⟨name⟩).resolved = root.resolved ++ (names ++ [name]) := by
          rw [Path.resolved_join dir hname.canonical, hname.split, hdir, List.append_assoc]
        rw [← hpath] at hnode ⊢
        simp only [child_pathText hn, hnode]
        match node with
        | .dir =>
            simp only [Memory.metadata_of_dir hnode, if_true, ih hnames (hpath ▸ hnode),
              memberEntries, Except.map]
        | .file content time =>
            simp only [Memory.metadata_of_file hnode, Bool.false_eq_true, if_false, token,
              memberEntries, TokenMode.token]
            cases options.tokenMode with
            | stat => rfl
            | content => simp only [Memory.read_of_file hnode, Except.map]

/-! ## What the walk finds -/

/-- A node is reached from a place without passing an ignored name. -/
inductive Reaches (m : Memory) (ignore : List String) : Place → List String → Node → Prop where
  | here {place name node} (hi : name ∉ ignore) (hn : m.node? (place ++ [name]) = some node) :
      Reaches m ignore place [name] node
  | inside {place name names node} (hi : name ∉ ignore) (hn : m.node? (place ++ [name]) = some .dir)
      (h : Reaches m ignore (place ++ [name]) names node) :
      Reaches m ignore place (name :: names) node

theorem mem_memberEntries {mode : TokenMode} {path : String} {inside : List Entry}
    {node? : Option Node} {e : Entry} :
    e ∈ memberEntries mode path inside node? ↔
      (∃ node, node? = some node ∧ e = node.entry mode path) ∨ node? = some .dir ∧ e ∈ inside := by
  match node? with
  | none => simp [memberEntries]
  | some .dir => simp [memberEntries, Node.entry]
  | some (.file content time) => simp [memberEntries, Node.entry]

theorem mem_found {m : Memory} {options : ListOptions} {root : Place} {depth : Nat}
    {names : List String} {e : Entry} :
    e ∈ found m options root depth names ↔
      ∃ rest node, Reaches m options.ignore (root ++ names) rest node ∧ rest.length ≤ depth ∧
        e = node.entry options.tokenMode (pathText (names ++ rest)) := by
  induction depth generalizing names with
  | zero =>
      simp only [found, List.not_mem_nil, false_iff, not_exists, not_and]
      rintro rest node (_ | _) hl <;> simp at hl
  | succ depth ih =>
      simp only [found, List.mem_flatMap, List.mem_filter, mem_memberEntries, ih]
      constructor
      · rintro ⟨name, ⟨-, hi⟩, ⟨node, hn, rfl⟩ | ⟨hn, rest, node, hr, hl, rfl⟩⟩
        · refine ⟨[name], node, .here (by simpa using hi) ?_, by simp, rfl⟩
          rwa [List.append_assoc]
        · refine ⟨name :: rest, node, .inside (by simpa using hi) ?_ ?_, by simpa using hl, ?_⟩
          · rwa [List.append_assoc]
          · rwa [List.append_assoc]
          · simp
      · rintro ⟨rest, node, hr, hl, rfl⟩
        cases hr with
        | here hi hn =>
            rename_i name
            refine ⟨name, ⟨Memory.mem_children.mpr ⟨node, hn⟩, by simpa using hi⟩, .inl ⟨node, ?_, rfl⟩⟩
            rwa [List.append_assoc] at hn
        | inside hi hn hr =>
            rename_i name rest
            rw [List.append_assoc] at hn hr
            refine ⟨name, ⟨Memory.mem_children.mpr ⟨.dir, by rwa [List.append_assoc]⟩,
              by simpa using hi⟩, .inr ⟨hn, rest, node, hr, by simpa using hl, by simp⟩⟩

theorem Reaches.ne_nil {m : Memory} {ignore : List String} {place : Place}
    {names : List String} {node : Node} (h : Reaches m ignore place names node) : names ≠ [] := by
  cases h <;> simp

theorem Reaches.exists_prefix {m : Memory} {ignore : List String} {place : Place}
    {names : List String} {node : Node} (h : Reaches m ignore place names node)
    {front : List String} (hf : front <+: names) (hne : front ≠ []) :
    ∃ node', m.node? (place ++ front) = some node' := by
  induction h generalizing front with
  | here hi hn =>
      rcases List.prefix_cons_iff.mp hf with rfl | ⟨rest, rfl, hr⟩
      · exact absurd rfl hne
      · exact ⟨_, List.prefix_nil.mp hr ▸ hn⟩
  | inside hi hn hr ih =>
      rcases List.prefix_cons_iff.mp hf with rfl | ⟨rest, rfl, hp⟩
      · exact absurd rfl hne
      · by_cases hrest : rest = []
        · exact ⟨_, hrest ▸ hn⟩
        · obtain ⟨node', hnode⟩ := ih hp hrest
          exact ⟨node', by rwa [List.append_assoc] at hnode⟩

theorem Reaches.node {m : Memory} {ignore : List String} {place : Place} {names : List String}
    {node : Node} (h : Reaches m ignore place names node) :
    m.node? (place ++ names) = some node := by
  induction h with
  | here hi hn => exact hn
  | inside hi hn hr ih => rwa [List.append_assoc] at ih

/-- All places on the way are different keys of the node table. -/
theorem Reaches.length_le {m : Memory} {ignore : List String} {place : Place}
    {names : List String} {node : Node} (h : Reaches m ignore place names node) :
    names.length ≤ m.nodes.size := by
  have hsub : (List.range names.length).map (fun i => place ++ names.take (i + 1)) ⊆
      m.nodes.keys := fun key hk => by
    obtain ⟨i, hi, rfl⟩ := List.mem_map.mp hk
    have hne : names.take (i + 1) ≠ [] := fun he => by
      have hlen := congrArg List.length he
      have hi := List.mem_range.mp hi
      rw [List.length_take, List.length_nil] at hlen
      omega
    exact Table.mem_keys.mpr (h.exists_prefix (List.take_prefix _ _) hne)
  have hnodup : ((List.range names.length).map (fun i => place ++ names.take (i + 1))).Nodup := by
    refine List.Nodup.map_on (fun i hi j hj he => ?_) List.nodup_range
    have hi := List.mem_range.mp hi
    have hj := List.mem_range.mp hj
    have := congrArg List.length (List.append_cancel_left he)
    simp only [List.length_take] at this
    omega
  have hlen := hnodup.length_le_of_subset hsub
  simpa [Table.keys, Table.size] using hlen

end Listing

/-! ## Trees -/

/-- Everything below a place stands in a directory. -/
def Memory.IsTreeAt (m : Memory) (root : Place) : Prop :=
  ∀ place name node, root <+: place → m.node? (place ++ [name]) = some node →
    m.node? place = some .dir

theorem Memory.isTreeAt_iff {m : Memory} {root : Place} : m.IsTreeAt root ↔
    ∀ key ∈ m.nodes.keys, key ≠ [] → root <+: key.dropLast →
      m.node? key.dropLast = some .dir := by
  constructor
  · intro h key hk hne hp
    obtain ⟨node, hn⟩ := Table.mem_keys.mp hk
    refine h key.dropLast (key.getLast hne) node hp ?_
    rwa [List.dropLast_append_getLast]
  · intro h place name node hp hn
    have hk := h _ (Table.mem_keys.mpr ⟨node, hn⟩) (by simp)
    rw [List.dropLast_concat] at hk
    exact hk hp

instance (m : Memory) (root : Place) : Decidable (m.IsTreeAt root) :=
  decidable_of_iff _ Memory.isTreeAt_iff.symm

theorem Memory.IsTreeAt.dir_above {m : Memory} {root : Place} (h : m.IsTreeAt root) {place : Place}
    (hp : root <+: place) {rest : List String} (hne : rest ≠ []) {node : Node}
    (hn : m.node? (place ++ rest) = some node) : m.node? place = some .dir := by
  induction rest generalizing place with
  | nil => exact absurd rfl hne
  | cons name rest ih =>
      by_cases hr : rest = []
      · exact h place name node hp (hr ▸ hn)
      · have hnext : m.node? (place ++ [name]) = some .dir :=
          ih (hp.trans (List.prefix_append _ _)) hr (by rwa [List.append_assoc])
        exact h place name .dir hp hnext

namespace Listing

theorem reaches_iff {m : Memory} {root : Place} (ht : m.IsTreeAt root) {ignore : List String}
    {place : Place} (hp : root <+: place) {names : List String} {node : Node} :
    Reaches m ignore place names node ↔
      names ≠ [] ∧ (∀ n ∈ names, n ∉ ignore) ∧ m.node? (place ++ names) = some node := by
  constructor
  · intro h
    induction h with
    | here hi hn => exact ⟨by simp, by simpa using hi, hn⟩
    | inside hi hn hr ih =>
        obtain ⟨-, hig, hnode⟩ := ih (hp.trans (List.prefix_append _ _))
        exact ⟨by simp, by simpa [hi] using hig, by rwa [List.append_assoc] at hnode⟩
  · rintro ⟨hne, hi, hn⟩
    induction names generalizing place with
    | nil => exact absurd rfl hne
    | cons name names ih =>
        by_cases hr : names = []
        · subst hr
          exact .here (hi name List.mem_cons_self) hn
        · have hn' : m.node? (place ++ [name] ++ names) = some node := by
            rwa [List.append_assoc]
          have hp' := hp.trans (List.prefix_append place [name])
          exact .inside (hi name List.mem_cons_self) (ht.dir_above hp' hr hn')
            (ih hp' hr (fun n hn => hi n (List.mem_cons_of_mem _ hn)) hn')

end Listing

/-- The entry of a path in the listing of a tree. -/
def Memory.listed? (m : Memory) (options : ListOptions) (root : Place) (path : String) :
    Option Entry :=
  if (Text.split '/' path).any (options.ignore.contains ·) then none
  else (m.node? (root ++ Text.split '/' path)).map (·.entry options.tokenMode path)

theorem Memory.listed?_eq_some_iff {m : Memory} {options : ListOptions} {root : Place}
    {path : String} {e : Entry} : m.listed? options root path = some e ↔
      (∀ n ∈ Text.split '/' path, n ∉ options.ignore) ∧
        ∃ node, m.node? (root ++ Text.split '/' path) = some node ∧
          e = node.entry options.tokenMode path := by
  rw [listed?]
  split
  · rename_i hig
    obtain ⟨n, hn, hc⟩ := List.any_eq_true.mp hig
    simp only [reduceCtorEq, false_iff, not_and]
    exact fun h => absurd (by simpa using hc) (h n hn)
  · rename_i hig
    have hall : ∀ n ∈ Text.split '/' path, n ∉ options.ignore := fun n hn hm =>
      hig (List.any_eq_true.mpr ⟨n, hn, by simpa using hm⟩)
    rw [Option.map_eq_some_iff]
    constructor
    · rintro ⟨node, hn, rfl⟩
      exact ⟨hall, node, hn, rfl⟩
    · rintro ⟨-, node, hn, rfl⟩
      exact ⟨node, hn, rfl⟩

theorem listTree_eq_ok {m : Memory} (hm : m.Named) (root : Path) (options : ListOptions) :
    listTree m root options = .ok (if m.node? root.resolved = some .dir then
      Entry.normalize (Listing.found m options root.resolved (m.nodes.size + 1) []) else []) := by
  rw [listTree]
  by_cases hd : m.node? root.resolved = some .dir
  · have hb := @Listing.below_eq_ok m hm options root (m.nodes.size + 1) [] (by simp)
      (by simpa using hd)
    have htext : pathText [] = "" := rfl
    rw [htext] at hb
    rw [if_pos (Memory.isDir_iff.mpr hd), if_pos hd]
    simp only [Files.depth, hb, Except.map]
  · rw [if_neg (by rwa [Memory.isDir_iff]), if_neg hd]

theorem mem_found_root {m : Memory} {options : ListOptions} {root : Place} (ht : m.IsTreeAt root)
    {e : Entry} :
    e ∈ Listing.found m options root (m.nodes.size + 1) [] ↔
      ∃ names node, names ≠ [] ∧ (∀ n ∈ names, n ∉ options.ignore) ∧
        m.node? (root ++ names) = some node ∧
        e = node.entry options.tokenMode (pathText names) := by
  simp only [Listing.mem_found, List.append_nil, List.nil_append]
  constructor
  · rintro ⟨names, node, hr, -, rfl⟩
    obtain ⟨hne, hi, hn⟩ := (Listing.reaches_iff ht (List.prefix_refl _)).mp hr
    exact ⟨names, node, hne, hi, hn, rfl⟩
  · rintro ⟨names, node, hne, hi, hn, rfl⟩
    have hr := (Listing.reaches_iff ht (List.prefix_refl _)).mpr ⟨hne, hi, hn⟩
    exact ⟨names, node, hr, Nat.le_succ_of_le hr.length_le, rfl⟩

theorem entryAt?_eq_some_of_forall {entries : List Entry} {path : String} {e : Entry}
    (hm : e ∈ entries) (hp : e.path = path) (h : ∀ x ∈ entries, x.path = path → x = e) :
    Entry.entryAt? entries path = some e := by
  obtain ⟨x, hx⟩ := Entry.exists_entryAt?_of_mem hm
  rw [hp] at hx
  rw [hx, h x (Entry.entryAt?_mem hx) (Entry.entryAt?_path hx)]

theorem entryAt?_found {m : Memory} (hm : m.Named) {options : ListOptions} {root : Place}
    (ht : m.IsTreeAt root) (path : String) :
    Entry.entryAt? (Listing.found m options root (m.nodes.size + 1) []) path =
      m.listed? options root path := by
  have hsplit : ∀ names node, names ≠ [] → m.node? (root ++ names) = some node →
      Text.split '/' (pathText names) = names := fun names node hne hn =>
    split_pathText hne fun n hn' => hm _ node hn n (List.mem_append_right _ hn')
  rw [Memory.listed?]
  split
  · rename_i hig
    rw [Entry.entryAt?_eq_none_iff]
    rintro e he rfl
    obtain ⟨names, node, hne, hi, hn, rfl⟩ := (mem_found_root ht).mp he
    rw [Node.entry_path, hsplit names node hne hn] at hig
    obtain ⟨n, hn', hc⟩ := List.any_eq_true.mp hig
    exact hi n hn' (by simpa using hc)
  · rename_i hig
    cases hn : m.node? (root ++ Text.split '/' path) with
    | none =>
        rw [Option.map_none, Entry.entryAt?_eq_none_iff]
        rintro e he rfl
        obtain ⟨names, node, hne, -, hn', rfl⟩ := (mem_found_root ht).mp he
        rw [Node.entry_path, hsplit names node hne hn', hn'] at hn
        exact absurd hn (by simp)
    | some node =>
        refine entryAt?_eq_some_of_forall (e := node.entry options.tokenMode path) ?_
          (Node.entry_path _ _ _) ?_
        · refine (mem_found_root ht).mpr ⟨_, node, Text.split_ne_nil '/' path, fun n hs => ?_, hn, ?_⟩
          · simp only [List.any_eq_true, not_exists, not_and] at hig
            simpa using hig n hs
          · rw [pathText_split]
        · rintro x hx rfl
          obtain ⟨names, node', hne, -, hn', rfl⟩ := (mem_found_root ht).mp hx
          rw [Node.entry_path, hsplit names node' hne hn', hn'] at hn
          rw [Node.entry_path, Option.some.inj hn]

/-- The listing of a tree holds for each path what stands there, unless a name on the way is
ignored. -/
theorem listTree_spec {m : Memory} (hm : m.Named) {root : Path} (ht : m.IsTreeAt root.resolved)
    (options : ListOptions) :
    ∃ entries, listTree m root options = .ok entries ∧ Entry.Ascending entries ∧
      ∀ path, Entry.entryAt? entries path = m.listed? options root.resolved path := by
  refine ⟨_, listTree_eq_ok hm root options, ?_, fun path => ?_⟩
  · split
    · exact Entry.normalize_ascending _
    · exact .nil
  · split
    · rw [Entry.entryAt?_normalize, entryAt?_found hm ht]
    · rename_i hd
      have hnone : m.node? (root.resolved ++ Text.split '/' path) = none := by
        by_contra hne
        obtain ⟨node, hn⟩ := Option.ne_none_iff_exists'.mp hne
        exact hd (ht.dir_above (List.prefix_refl _) (Text.split_ne_nil _ _) hn)
      rw [Memory.listed?, hnone]
      simp

/-! ## The listing of a state -/

open Entry Memory

/-- The listing of a tree, as a function of the file system. -/
def Memory.listing (m : Memory) (dir : Path) (options : ListOptions) : List Entry :=
  ((listTree m dir options).toOption).getD []

theorem listTree_eq_listing {m : Memory} (hm : m.Named) (dir : Path) (options : ListOptions) :
    listTree m dir options = .ok (m.listing dir options) := by
  rw [listing, listTree_eq_ok hm]
  rfl

/-- What a walk through a tree finds, in the order it does. -/
def Memory.walked (m : Memory) (dir : Path) (options : ListOptions) : List Entry :=
  if m.node? dir.resolved = some .dir then
    Listing.found m options dir.resolved (m.nodes.size + 1) []
  else []

/-- A listing needs no sorting when the walk finds the entries in order. -/
theorem listing_eq_walked {m : Memory} (hm : m.Named) {dir : Path} {options : ListOptions}
    (ha : Ascending (m.walked dir options)) : m.listing dir options = m.walked dir options := by
  rw [listing, listTree_eq_ok hm, walked]
  split
  · rename_i hd
    rw [walked, if_pos hd] at ha
    rw [normalize_of_ascending ha]
    rfl
  · rfl

theorem listTree_eq_walked {m : Memory} (hm : m.Named) {dir : Path} {options : ListOptions}
    (ha : Ascending (m.walked dir options)) :
    listTree m dir options = .ok (m.walked dir options) := by
  rw [listTree_eq_listing hm, listing_eq_walked hm ha]

theorem entryAt?_listing {m : Memory} (hm : m.Named) {dir : Path}
    (ht : m.IsTreeAt dir.resolved) (options : ListOptions) (path : String) :
    entryAt? (m.listing dir options) path = m.listed? options dir.resolved path := by
  obtain ⟨entries, he, -, hat⟩ := listTree_spec hm ht options
  rw [listing, he]
  exact hat path

theorem ascending_listing {m : Memory} (hm : m.Named) (dir : Path) (options : ListOptions) :
    Ascending (m.listing dir options) := by
  rw [listing, listTree_eq_ok hm]
  simp only [Except.toOption, Option.getD_some]
  split
  · exact normalize_ascending _
  · exact .nil

theorem pathText_injective {names names' : List String} (hne : names ≠ []) (hne' : names' ≠ [])
    (h : ∀ n ∈ names, IsName n) (h' : ∀ n ∈ names', IsName n)
    (he : pathText names = pathText names') : names = names' := by
  rw [← split_pathText hne h, he, split_pathText hne' h']

theorem Listing.Reaches.isName {m : Memory} (hm : m.Named) {ignore : List String} {place : Place}
    {names : List String} {node : Node} (h : Reaches m ignore place names node) :
    ∀ n ∈ names, IsName n := fun n hn => hm _ node h.node n (List.mem_append_right _ hn)

/-- The entries of a listing are the nodes that are reached from its root. -/
theorem mem_listing_iff {m : Memory} (hm : m.Named) {dir : Path} {options : ListOptions}
    {e : Entry} : e ∈ m.listing dir options ↔ m.node? dir.resolved = some .dir ∧
      ∃ names node, Listing.Reaches m options.ignore dir.resolved names node ∧
        e = node.entry options.tokenMode (pathText names) := by
  rw [listing, listTree_eq_ok hm]
  simp only [Except.toOption, Option.getD_some]
  by_cases hd : m.node? dir.resolved = some .dir
  · rw [if_pos hd, mem_normalize, and_iff_right hd]
    have hfound : ∀ x, x ∈ Listing.found m options dir.resolved (m.nodes.size + 1) [] ↔
        ∃ names node, Listing.Reaches m options.ignore dir.resolved names node ∧
          x = node.entry options.tokenMode (pathText names) := fun x => by
      rw [Listing.mem_found]
      simp only [List.append_nil, List.nil_append]
      constructor
      · rintro ⟨names, node, hr, -, rfl⟩
        exact ⟨names, node, hr, rfl⟩
      · rintro ⟨names, node, hr, rfl⟩
        exact ⟨names, node, hr, Nat.le_succ_of_le hr.length_le, rfl⟩
    constructor
    · exact fun he => (hfound e).mp (entryAt?_mem he)
    · intro he
      refine entryAt?_eq_some_of_forall ((hfound e).mpr he) rfl fun x hx hp => ?_
      -- A path tells the names on the way, and these the node.
      obtain ⟨names, node, hr, rfl⟩ := he
      obtain ⟨names', node', hr', rfl⟩ := (hfound x).mp hx
      rw [Node.entry_path, Node.entry_path] at hp
      obtain rfl := pathText_injective hr'.ne_nil hr.ne_nil (hr'.isName hm) (hr.isName hm) hp
      rw [Option.some.inj (hr'.node.symm.trans hr.node)]
  · simp [hd]

theorem canonical_listing {m : Memory} (hm : m.Named) (dir : Path) (options : ListOptions) :
    ∀ e ∈ m.listing dir options, Canonical e.path := by
  intro e he
  obtain ⟨-, names, node, hr, rfl⟩ := (mem_listing_iff hm).mp he
  rw [Node.entry_path]
  exact canonical_pathText hr.ne_nil (hr.isName hm)

/-- What is listed stands there. -/
theorem node_of_mem_listing {m : Memory} (hm : m.Named) {dir : Path} {options : ListOptions}
    {e : Entry} (he : e ∈ m.listing dir options) :
    ∃ node, m.node? (dir.resolved ++ Text.split '/' e.path) = some node ∧
      e = node.entry options.tokenMode e.path := by
  obtain ⟨-, names, node, hr, rfl⟩ := (mem_listing_iff hm).mp he
  rw [Node.entry_path, split_pathText hr.ne_nil (hr.isName hm)]
  exact ⟨node, hr.node, rfl⟩

/-! ## The empty file system -/

namespace Memory

/-- A file system without a single node. -/
def nothing : Memory := ⟨[], ∅, 0⟩

theorem node?_nothing (place : Place) : nothing.node? place = none := by
  simp [nothing, node?]

theorem named_nothing : nothing.Named := fun place node hn => by simp [node?_nothing] at hn

theorem dated_nothing (region : Place → Prop) : Dated region nothing :=
  ⟨fun _ _ _ _ hn => by simp [node?_nothing] at hn,
    fun _ _ _ _ _ _ _ hn => by simp [node?_nothing] at hn⟩

/-- Everything has been written since there was nothing. -/
theorem since_nothing (region : Place → Prop) (m : Memory) : Since region nothing m :=
  ⟨UInt64.zero_le, fun _ _ _ _ _ ht => absurd ht UInt64.not_lt_zero⟩

theorem listing_nothing (dir : Path) (options : ListOptions) : nothing.listing dir options = [] := by
  rw [listing, listTree_eq_ok named_nothing, node?_nothing]
  rfl

end Memory

end VendorBundle
