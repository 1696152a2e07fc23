import VendorBundle.Proofs.Path.Places

/-!
# Cleaned paths

An absolute path that never goes up is left as it is by cleaning, up to how it is written. So the
cleaned path of an entry that goes down from a directory by a name, and never up, stands below the
directory, and so does what is written right behind it.
-/

namespace VendorBundle

/-- No segment of the text goes up. -/
def NeverUp (text : String) : Prop := ".." ∉ Text.split '/' text

instance (text : String) : Decidable (NeverUp text) := inferInstanceAs (Decidable (_ ∉ _))

theorem neverUp_append {front rest : String} :
    NeverUp (front ++ "/" ++ rest) ↔ NeverUp front ∧ NeverUp rest := by
  simp [NeverUp, Text.split_append]

/-- A relative path goes down by some name, and never up. -/
structure Inward (text : String) : Prop where
  relative : Path.isAbsolute ⟨text⟩ = false
  neverUp : NeverUp text
  descends : ∃ segment ∈ Text.split '/' text, segment ≠ "" ∧ segment ≠ "."

theorem inward_iff {text : String} : Inward text ↔ Path.isAbsolute ⟨text⟩ = false ∧ NeverUp text ∧
    ∃ segment ∈ Text.split '/' text, segment ≠ "" ∧ segment ≠ "." :=
  ⟨fun h => ⟨h.relative, h.neverUp, h.descends⟩, fun h => ⟨h.1, h.2.1, h.2.2⟩⟩

instance (text : String) : Decidable (Inward text) := decidable_of_iff _ inward_iff.symm

/-- A relative path without dots as segments goes down, unless it is empty. -/
theorem inward_of_dotless {text : String} (hne : text ≠ "")
    (hr : Path.isAbsolute ⟨text⟩ = false) (hdot : "." ∉ Text.split '/' text) (hup : NeverUp text) :
    Inward text := by
  refine ⟨hr, hup, ?_⟩
  cases hsplit : Text.split '/' text with
  | nil => exact absurd hsplit (Text.split_ne_nil '/' text)
  | cons first rest =>
      refine ⟨first, List.mem_cons_self, fun hempty => ?_, fun hfirst => ?_⟩
      · -- A text whose first segment is empty is empty or begins with a slash.
        have htext := Text.intercalate_split text
        rw [hsplit, hempty] at htext
        cases rest with
        | nil => exact hne (by rw [← htext]; rfl)
        | cons next rest =>
            have habs : Path.isAbsolute ⟨text⟩ = true := by
              rw [← htext]
              simp [Path.isAbsolute, String.toList_intercalate]
            rw [hr] at habs
            cases habs
      · rw [hsplit, hfirst] at hdot
        exact hdot List.mem_cons_self

theorem IsName.inward {name : String} (h : IsName name) : Inward name := by
  have hsplit := h.split
  obtain ⟨hne, hdot, hup, hslash⟩ := h
  have hrel : Path.isAbsolute ⟨name⟩ = false := by
    rw [Path.isAbsolute]
    split
    · rename_i rest htext
      rw [htext] at hslash
      exact absurd List.mem_cons_self hslash
    · rfl
  refine ⟨hrel, ?_, name, ?_, hne, hdot⟩
  · rw [NeverUp, hsplit, List.mem_singleton]
    exact hup.symm
  · rw [hsplit]
    exact List.mem_singleton_self _

namespace Path

variable {p q dir : Path}

theorem isAbsolute_iff : p.isAbsolute ↔ p.components.head? = some .root := by
  rcases lead_cases p.text.toList with ⟨rest, ht⟩ | ht | ⟨rest, ht⟩ | ht
  · simp [isAbsolute, ht, components, parts_of_root ht, Component.ofLead]
  · simp [isAbsolute, ht, components, parts_of_dot ht, Component.ofLead]
  · simp [isAbsolute, ht, components, parts_of_here ht, Component.ofLead]
  · have hrel : p.isAbsolute = false := by
      rw [isAbsolute]
      split
      · rename_i rest heq
        exact absurd (by simp [heq]) ht.1
      · rfl
    rw [hrel, components_of_hasNoLead ht, List.head?_map]
    cases ((Text.pieces '/' p.text.toList).filter (!isBlank ·)).head? with
    | none => simp
    | some segment =>
        simp only [Bool.false_eq_true, Option.map_some, Option.some.injEq, false_iff,
          Component.ofSegment]
        split <;> simp

/-! ## Rooted paths -/

/-- An absolute path that never goes up. -/
def Rooted (p : Path) : Prop := p.isAbsolute ∧ .up ∉ p.components

instance (p : Path) : Decidable p.Rooted := inferInstanceAs (Decidable (_ ∧ _))

theorem Rooted.congr (h : p.Rooted) (hq : q.components = p.components) : q.Rooted :=
  ⟨isAbsolute_iff.mpr (hq ▸ isAbsolute_iff.mp h.1), hq ▸ h.2⟩

/-- Segments are names unless they go up. -/
theorem exists_names_of_segments {segments : List (List Char)}
    (h : .up ∉ segments.map Component.ofSegment) :
    ∃ names : List String, segments.map Component.ofSegment = names.map Component.name := by
  refine ⟨segments.map String.ofList, ?_⟩
  rw [List.map_map]
  refine List.map_congr_left fun segment hs => ?_
  have hdown : segment ≠ ['.', '.'] := by
    rintro rfl
    exact h (List.mem_map_of_mem hs)
  simp [Component.ofSegment, hdown]

/-- What a text that never goes up adds to a path are names. -/
theorem exists_names_of_neverUp {text : String} (h : NeverUp text) :
    ∃ names : List String, tailComponents text = names.map Component.name := by
  refine exists_names_of_segments fun hup => h ?_
  obtain ⟨segment, hs, hsegment⟩ := List.mem_map.mp hup
  obtain rfl : segment = ['.', '.'] := by
    by_contra hdown
    simp [Component.ofSegment, hdown] at hsegment
  exact List.mem_map.mpr ⟨_, List.mem_of_mem_filter hs, rfl⟩

theorem text_of_isAbsolute (h : p.isAbsolute) : ∃ rest, p.text.toList = '/' :: rest := by
  rw [isAbsolute] at h
  split at h
  · exact ⟨_, by assumption⟩
  · cases h

/-- A rooted path goes from the root down by names. -/
theorem rooted_iff : p.Rooted ↔
    ∃ names : List String, p.components = .root :: names.map Component.name := by
  constructor
  · rintro ⟨habs, hup⟩
    obtain ⟨rest, htext⟩ := text_of_isAbsolute habs
    have hsegments : p.components =
        .root :: ((Text.pieces '/' rest).filter (!isBlank ·)).map Component.ofSegment := by
      rw [components, parts_of_root htext]
      rfl
    rw [hsegments] at hup ⊢
    obtain ⟨names, hnames⟩ := exists_names_of_segments fun h => hup (List.mem_cons_of_mem _ h)
    exact ⟨names, by rw [hnames]⟩
  · rintro ⟨names, hnames⟩
    refine ⟨isAbsolute_iff.mpr (by rw [hnames]; rfl), ?_⟩
    rw [hnames]
    simp

theorem Rooted.text_ne (h : p.Rooted) : p.text ≠ "" := by
  intro htext
  obtain ⟨names, hnames⟩ := rooted_iff.mp h
  rw [components_eq_nil_iff.mpr htext] at hnames
  cases hnames

theorem Rooted.join (h : p.Rooted) {text : String} (hr : isAbsolute ⟨text⟩ = false)
    (hup : NeverUp text) : (p.join ⟨text⟩).Rooted := by
  obtain ⟨names, hnames⟩ := rooted_iff.mp h
  obtain ⟨more, hmore⟩ := exists_names_of_neverUp hup
  refine rooted_iff.mpr ⟨names ++ more, ?_⟩
  rw [components_join_of_relative h.text_ne hr, hnames, hmore]
  simp

/-- The place of a rooted path can be read off its components. -/
theorem Rooted.mem_resolved (h : p.Rooted) {name : String} (hname : .name name ∈ p.components) :
    name ∈ p.resolved := by
  obtain ⟨names, hnames⟩ := rooted_iff.mp h
  rw [hnames] at hname
  rw [resolved_eq, hnames, List.foldl_cons, foldl_follow_names]
  simpa [follow] using hname

theorem mem_components_of_mem_resolved {name : String} (h : name ∈ p.resolved) :
    .name name ∈ p.components := by
  rw [resolved_eq, List.mem_reverse] at h
  exact (mem_foldl_follow h).resolve_right List.not_mem_nil

/-- With a path all its ancestors are rooted. -/
theorem Rooted.of_mem_ancestors (h : p.Rooted) {a : Path} (ha : a ∈ p.ancestors) : a.Rooted := by
  have hinside := contains_of_mem_ancestors ha
  rw [contains, List.isPrefixOf_iff_prefix] at hinside
  refine ⟨isAbsolute_iff.mpr ?_, fun hup => h.2 (hinside.subset hup)⟩
  have hmem : a.components ∈ p.ancestors.map components := List.mem_map_of_mem ha
  obtain ⟨text, htext⟩ := text_of_isAbsolute h.1
  rw [components_ancestors_eq_tails, parts_of_root htext] at hmem
  obtain ⟨rest, -, hrest⟩ : ∃ rest, _ ∧ _ := by simpa using hmem
  rw [← hrest]
  rfl

/-! ## Containing -/

theorem contains_of_prefix (h : p.components <+: q.components) : p.contains q := by
  rwa [contains, List.isPrefixOf_iff_prefix]

theorem contains_trans {r : Path} (h : p.contains q) (h' : q.contains r) : p.contains r := by
  rw [contains, List.isPrefixOf_iff_prefix] at h h' ⊢
  exact h.trans h'

theorem contains_join (hp : p.text ≠ "") (hq : q.isAbsolute = false) : p.contains (p.join q) := by
  refine contains_of_prefix ?_
  rw [components_join_of_relative hp hq]
  exact List.prefix_append _ _

theorem isAbsolute_append_dot {text : String} (h : isAbsolute ⟨text⟩ = false) (suffix : String) :
    isAbsolute ⟨text ++ ("." ++ suffix)⟩ = false := by
  by_cases hne : text = ""
  · simp [hne, isAbsolute, String.toList_append]
  · rwa [isAbsolute_append hne]

/-- What is written right behind a relative path stays in the directory that it was joined to. -/
theorem contains_extend_join (hp : p.text ≠ "") (hq : q.isAbsolute = false) (suffix : String) :
    p.contains ((p.join q).extend ("." ++ suffix)) := by
  rw [extend_join hq]
  exact contains_join hp (isAbsolute_append_dot hq suffix)

/-! ## Cleaning -/

theorem foldl_cleanStep_names (kept : List Component) (names : List String) :
    (names.map Component.name).foldl cleanStep kept =
      (names.map Component.name).reverse ++ kept := by
  induction names generalizing kept with
  | nil => rfl
  | cons name names ih => simp [cleanStep, ih]

theorem ofComponents_append_singleton (cs : List Component) (c : Component) :
    ofComponents (cs ++ [c]) = (ofComponents cs).join ⟨c.text⟩ := by
  rw [ofComponents, List.foldl_append]
  rfl

/-- Names that are joined one by one can be read off the path. -/
theorem components_ofComponents {names : List String} (h : ∀ name ∈ names, IsName name) :
    (ofComponents (.root :: names.map Component.name)).components =
      .root :: names.map Component.name := by
  induction names using List.reverseRecOn with
  | nil => rfl
  | append_singleton names name ih =>
      have hname : Canonical name := (h name (by simp)).canonical
      have hrel : (parts ⟨name⟩).1 = [] := by
        rw [parts_of_hasNoLead (p := ⟨name⟩) (hasNoLead_of_canonical hname)]
      rw [List.map_append, ← List.cons_append, List.map_singleton, ofComponents_append_singleton,
        Component.text, components_join hrel, ih fun n hn => h n (by simp [hn]),
        components_of_canonical hname, (h name (by simp)).split]
      rfl

/-- A path that never goes up is cleaned by writing its components anew. -/
theorem Rooted.clean_eq (h : p.Rooted) : p.clean = ofComponents p.components := by
  obtain ⟨names, hnames⟩ := rooted_iff.mp h
  rw [clean, hnames, List.foldl_cons, foldl_cleanStep_names]
  simp [cleanStep]

theorem Rooted.components_clean (h : p.Rooted) : p.clean.components = p.components := by
  obtain ⟨names, hnames⟩ := rooted_iff.mp h
  rw [h.clean_eq, hnames, components_ofComponents fun name hname => ?_]
  exact isName_of_mem_components (p := p) (by simp [hnames, hname])

/-- The cleaned path of an entry is a name in a directory that is the first one or below it. -/
theorem Rooted.exists_clean_join (h : dir.Rooted) {entry : String} (he : Inward entry) :
    ∃ (above : Path) (name : String), (dir.join ⟨entry⟩).clean = above.join ⟨name⟩ ∧ Inward name ∧
      above.Rooted ∧ dir.contains above := by
  obtain ⟨names, hnames⟩ := rooted_iff.mp h
  obtain ⟨more, hmore⟩ := exists_names_of_neverUp he.neverUp
  have hjoin : (dir.join ⟨entry⟩).components = .root :: (names ++ more).map Component.name := by
    rw [components_join_of_relative h.text_ne he.relative, hnames, hmore]
    simp
  have hname : ∀ name ∈ names ++ more, IsName name := fun name hm =>
    isName_of_mem_components (p := dir.join ⟨entry⟩)
      (hjoin ▸ List.mem_cons_of_mem _ (List.mem_map_of_mem hm))
  obtain ⟨init, last, rfl⟩ := (List.eq_nil_or_concat' more).resolve_left <| by
    rintro rfl
    obtain ⟨segment, hs, hne, hdot⟩ := he.descends
    obtain ⟨word, hw, rfl⟩ := List.mem_map.mp hs
    have hblank : isBlank word = false := by
      simp only [isBlank, Bool.or_eq_false_iff, beq_eq_false_iff_ne]
      exact ⟨by rintro rfl; exact hne rfl, by rintro rfl; exact hdot rfl⟩
    rw [tailComponents, List.map_nil, List.map_eq_nil_iff] at hmore
    exact absurd hblank (by simpa using List.filter_eq_nil_iff.mp hmore word hw)
  rw [← List.append_assoc] at hjoin hname
  have habove : (ofComponents (.root :: (names ++ init).map Component.name)).components =
      .root :: (names ++ init).map Component.name :=
    components_ofComponents fun name hm => hname name (List.mem_append_left _ hm)
  refine ⟨ofComponents (.root :: (names ++ init).map Component.name), last, ?_,
    (hname last (by simp)).inward, rooted_iff.mpr ⟨_, habove⟩, contains_of_prefix ?_⟩
  · rw [(h.join he.relative he.neverUp).clean_eq, hjoin, List.map_append, ← List.cons_append,
      List.map_singleton, ofComponents_append_singleton]
    rfl
  · rw [habove, hnames, List.map_append, ← List.cons_append]
    exact List.prefix_append _ _

end Path

end VendorBundle
