import VendorBundle.Proofs.Tree.Listing
import VendorBundle.Proofs.Tree.Replay

/-!
# Listings are complete

Every node that is reached from the root of a listing through directories only, without an ignored
name on the way, has exactly one entry, and there are no others. So a listing is a tree, whatever
stands in the file system: what a file hides is not found, and a root that is no directory has an
empty listing.
-/

namespace VendorBundle

open Entry

/-! ## Nodes below a root -/

/-- Names lead from a root to a node below it: whatever is passed on the way, from the root on, is a
directory, and none of the names is ignored. -/
structure Memory.Leads (m : Memory) (ignore : List String) (root : Place) (names : List String)
    (node : Node) : Prop where
  ne_nil : names ≠ []
  node : m.node? (root ++ names) = some node
  passed : ∀ front, front <+: names → front ≠ names → m.node? (root ++ front) = some .dir
  allowed : ∀ name ∈ names, name ∉ ignore

namespace Memory.Leads

variable {m : Memory} {ignore : List String} {root : Place} {names : List String} {node : Node}

theorem root_dir (h : m.Leads ignore root names node) : m.node? root = some .dir := by
  simpa using h.passed [] List.nil_prefix h.ne_nil.symm

/-- The names up to a directory that is passed lead to it. -/
theorem directory (h : m.Leads ignore root names node) {front : List String} (hf : front <+: names)
    (hne : front ≠ []) (hn : front ≠ names) : m.Leads ignore root front .dir where
  ne_nil := hne
  node := h.passed front hf hn
  passed := fun f hp hpn => h.passed f (hp.trans hf) fun he =>
    hpn (hp.eq_of_length_le (he ▸ hf.length_le))
  allowed := fun name hm => h.allowed name (hf.subset hm)

theorem cons_iff {name : String} : m.Leads ignore root (name :: names) node ↔
    m.node? root = some .dir ∧ name ∉ ignore ∧
      (names = [] ∧ m.node? (root ++ [name]) = some node ∨
        m.Leads ignore (root ++ [name]) names node) := by
  constructor
  · intro h
    refine ⟨h.root_dir, h.allowed name List.mem_cons_self, ?_⟩
    by_cases hne : names = []
    · exact .inl ⟨hne, hne ▸ h.node⟩
    · refine .inr ⟨hne, by simpa using h.node, fun front hf hn => ?_, fun n hn =>
        h.allowed n (List.mem_cons_of_mem _ hn)⟩
      simpa using h.passed (name :: front) (List.cons_prefix_cons.mpr ⟨rfl, hf⟩) (by simpa using hn)
  · rintro ⟨hroot, hi, ⟨rfl, hn⟩ | h⟩
    · refine ⟨by simp, hn, fun front hf hne => ?_, by simpa using hi⟩
      rcases List.prefix_cons_iff.mp hf with rfl | ⟨rest, rfl, hr⟩
      · simpa using hroot
      · exact absurd (List.prefix_nil.mp hr ▸ rfl) hne
    · refine ⟨by simp, by simpa using h.node, fun front hf hne => ?_, ?_⟩
      · rcases List.prefix_cons_iff.mp hf with rfl | ⟨rest, rfl, hr⟩
        · simpa using hroot
        · simpa using h.passed rest hr fun he => hne (he ▸ rfl)
      · exact List.forall_mem_cons.mpr ⟨hi, h.allowed⟩

end Memory.Leads

namespace Listing

/-- The walk reaches what names lead to. -/
theorem leads_iff {m : Memory} {ignore : List String} {root : Place} {names : List String}
    {node : Node} : m.Leads ignore root names node ↔
      m.node? root = some .dir ∧ Reaches m ignore root names node := by
  induction names generalizing root with
  | nil => exact ⟨fun h => absurd rfl h.ne_nil, fun h => absurd rfl h.2.ne_nil⟩
  | cons name names ih =>
      rw [Memory.Leads.cons_iff, ih]
      refine and_congr_right fun _ => ⟨?_, fun h => ?_⟩
      · rintro ⟨hi, ⟨rfl, hn⟩ | ⟨hn, hr⟩⟩
        · exact .here hi hn
        · exact .inside hi hn hr
      · cases h with
        | here hi hn => exact ⟨hi, .inl ⟨rfl, hn⟩⟩
        | inside hi hn hr => exact ⟨hi, .inr ⟨hn, hr⟩⟩

/-! ## How deep the walk goes -/

end Listing

/-! ## Complete listings -/

open Memory

variable {m : Memory} (hm : m.Named)

include hm

theorem mem_listing_iff_leads {root : Path} {options : ListOptions} {e : Entry} :
    e ∈ m.listing root options ↔ ∃ names node, m.Leads options.ignore root.resolved names node ∧
      e = node.entry options.tokenMode (pathText names) := by
  simp only [mem_listing_iff hm, Listing.leads_iff, and_assoc, exists_and_left]

theorem Memory.Leads.isName {ignore : List String} {root : Place} {names : List String}
    {node : Node} (h : m.Leads ignore root names node) : ∀ n ∈ names, IsName n :=
  (Listing.leads_iff.mp h).2.isName hm

/-- A listing is a tree. -/
theorem isTree_listing (root : Path) (options : ListOptions) : IsTree (m.listing root options) := by
  refine ⟨fun e he above habove => ?_, fun e he hk => ?_⟩
  · obtain ⟨names, node, hl, rfl⟩ := (mem_listing_iff_leads hm).mp he
    obtain ⟨rest, hne, hs⟩ := below_iff_split.mp (mem_directoriesAbove.mp habove)
    rw [Node.entry_path, split_pathText hl.ne_nil (hl.isName hm)] at hs
    have hdir := hl.directory (hs ▸ List.prefix_append _ _) (Text.split_ne_nil '/' above)
      (by simpa [hs] using hne)
    have hmem := (mem_listing_iff_leads hm (e := .dir above)).mpr
      ⟨_, _, hdir, by rw [pathText_split]; rfl⟩
    exact ⟨_, hmem, rfl, rfl⟩
  · obtain ⟨names, node, -, rfl⟩ := (mem_listing_iff_leads hm).mp he
    cases node with
    | dir => rfl
    | file content time => exact absurd hk (by simp [Node.entry, Entry.file])

/-- The path of an entry leads from the root to its node. -/
theorem resolved_join_entry {ignore : List String} {root : Path} {names : List String} {node : Node}
    (h : m.Leads ignore root.resolved names node) (mode : TokenMode) :
    (root.join ⟨(node.entry mode (pathText names)).path⟩).resolved = root.resolved ++ names := by
  rw [Node.entry_path, Path.resolved_join root (canonical_pathText h.ne_nil (h.isName hm)),
    split_pathText h.ne_nil (h.isName hm)]

omit hm

/-- Two directories, of which one is ignored, and a file with a file below it. -/
def nested : Memory :=
  (Memory.empty "/project").addFiles [("/project/app/a/c.js", "c".toUTF8),
    ("/project/app/node_modules/x.js", "x".toUTF8), ("/project/app/a-z", "z".toUTF8),
    ("/project/app/a-z/hidden.js", "h".toUTF8), ("/project/app/b.js", "b".toUTF8)]

end VendorBundle
