import Mathlib.Data.List.Infix
import VendorBundle.Proofs.Path.Components

/-!
# Paths that denote the same

Paths with the same components cannot be told apart by what is done with them: what is joined to
them, what is left of them after taking names off and what cleaning gives has the same components
again.
-/

namespace VendorBundle.Path

variable {p q : Path}

theorem same_iff : p.same q = true ↔ p.components = q.components := beq_iff_eq

theorem resolved_congr (h : p.components = q.components) : p.resolved = q.resolved := by
  rw [resolved_eq, resolved_eq, h]

theorem clean_congr (h : p.components = q.components) : p.clean = q.clean := by
  rw [clean, clean, h]

/-! ## Joining -/

/-- The components that a text adds to the path that it is written behind. -/
def tailComponents (text : String) : List Component :=
  ((Text.pieces '/' text.toList).filter (!isBlank ·)).map Component.ofSegment

theorem components_behind {front : String} (h : front ≠ "") (rest : String) :
    components ⟨front ++ "/" ++ rest⟩ = components ⟨front⟩ ++ tailComponents rest := by
  simp [components, parts_append h, tailComponents]

theorem components_join_of_relative (hp : p.text ≠ "") {r : Path} (hr : r.isAbsolute = false) :
    (p.join r).components = p.components ++ tailComponents r.text := by
  obtain ⟨text⟩ := p
  rw [join, hr, if_neg Bool.false_ne_true]
  simp only
  split
  · rename_i hnone
    exact absurd (String.toList_injective (List.getLast?_eq_none_iff.mp hnone)) hp
  · rename_i hslash
    obtain ⟨front, rfl⟩ := eq_append_slash hslash
    by_cases hf : front = ""
    · subst hf
      have hroot : (Path.mk ("" ++ "/" ++ r.text)).text.toList = '/' :: r.text.toList := by
        simp [String.toList_append]
      rw [components, parts_of_root hroot]
      rfl
    · rw [components_behind hf, components_trailing_slash hf]
  · exact components_behind hp r.text

/-- A text without a lead whose segments are all blank is empty. -/
theorem HasNoLead.eq_nil {text : List Char} (h : HasNoLead text)
    (hb : (Text.pieces '/' text).filter (!isBlank ·) = []) : text = [] := by
  obtain ⟨hroot, hdot, hhere⟩ := h
  cases hp : Text.pieces '/' text with
  | nil => exact absurd hp (Text.pieces_ne_nil '/' text)
  | cons word words =>
      have htext := Text.intercalate_pieces '/' text
      rw [hp] at hb htext
      have hword : word = [] ∨ word = ['.'] := or_iff_not_imp_left.mpr <| by
        simpa [isBlank] using List.filter_eq_nil_iff.mp hb word List.mem_cons_self
      cases words with
      | nil =>
          rw [List.intercalate_singleton] at htext
          exact hword.elim (htext ▸ ·) fun hw => absurd (htext ▸ hw) hdot
      | cons next words =>
          rw [List.intercalate_cons_cons] at htext
          rcases hword with rfl | rfl
          · exact absurd (by rw [← htext]; rfl) hroot
          · exact absurd htext.symm (hhere _)

/-- Only the empty path has no components. -/
theorem components_eq_nil_iff : p.components = [] ↔ p.text = "" := by
  constructor
  · intro h
    obtain ⟨hlead, hrest⟩ := List.append_eq_nil_iff.mp h
    rcases lead_cases p.text.toList with ⟨rest, ht⟩ | ht | ⟨rest, ht⟩ | ht
    · simp [parts_of_root ht, Component.ofLead] at hlead
    · simp [parts_of_dot ht, Component.ofLead] at hlead
    · simp [parts_of_here ht, Component.ofLead] at hlead
    · rw [parts_of_hasNoLead ht, List.map_eq_nil_iff] at hrest
      exact String.toList_injective (ht.eq_nil hrest)
  · intro h
    obtain ⟨text⟩ := p
    obtain rfl : text = "" := h
    exact components_empty

theorem join_of_isAbsolute {r : Path} (hr : r.isAbsolute = true) : p.join r = r := by
  rw [join, if_pos hr]

theorem join_of_empty (hp : p.text = "") (r : Path) : p.join r = r := by
  rw [join]
  split
  · rfl
  · simp [hp]

theorem join_congr (h : p.components = q.components) (r : Path) :
    (p.join r).components = (q.join r).components := by
  cases hr : r.isAbsolute with
  | true => rw [join_of_isAbsolute hr, join_of_isAbsolute hr]
  | false =>
      by_cases hp : p.text = ""
      · have hq : q.text = "" := components_eq_nil_iff.mp (h ▸ components_eq_nil_iff.mpr hp)
        rw [join_of_empty hp, join_of_empty hq]
      · have hq : q.text ≠ "" := fun hq =>
          hp (components_eq_nil_iff.mp (h ▸ components_eq_nil_iff.mpr hq))
        rw [components_join_of_relative hp hr, components_join_of_relative hq hr, h]

theorem extend_join {r : Path} (hr : r.isAbsolute = false) (suffix : String) :
    (p.join r).extend ("." ++ suffix) = p.join ⟨r.text ++ ("." ++ suffix)⟩ := by
  have hs : isAbsolute ⟨r.text ++ ("." ++ suffix)⟩ = false := by
    rw [isAbsolute] at hr ⊢
    cases ht : r.text.toList with
    | nil => simp [String.toList_append, ht]
    | cons c cs =>
        rw [ht] at hr
        by_cases hc : c = '/'
        · simp [hc] at hr
        · simp [String.toList_append, ht, hc]
  rw [join, join, hr, hs, extend]
  simp only [Bool.false_eq_true, if_false]
  split <;> simp [String.append_assoc]

/-- Also what is written directly behind a joined path keeps to the components. -/
theorem extend_join_congr (h : p.components = q.components) (r : Path) (suffix : String) :
    ((p.join r).extend ("." ++ suffix)).components =
      ((q.join r).extend ("." ++ suffix)).components := by
  cases hr : r.isAbsolute with
  | true => rw [join_of_isAbsolute hr, join_of_isAbsolute hr]
  | false => rw [extend_join hr, extend_join hr, join_congr h]

/-! ## Ancestors -/

theorem Component.ofSegment_injective : Function.Injective Component.ofSegment := by
  intro a b h
  rw [Component.ofSegment, Component.ofSegment] at h
  by_cases ha : a = ['.', '.']
  · by_cases hb : b = ['.', '.']
    · rw [ha, hb]
    · simp [ha, hb] at h
  · by_cases hb : b = ['.', '.']
    · simp [ha, hb] at h
    · rw [if_neg ha, if_neg hb, Component.name.injEq] at h
      simpa using congrArg String.toList h

/-- The components tell the lead of a path and its segments that are not blank. -/
theorem parts_congr (h : p.components = q.components) : p.parts.1 = q.parts.1 ∧
    p.parts.2.filter (!isBlank ·) = q.parts.2.filter (!isBlank ·) := by
  have hlead : ∀ path : Path, path.parts.1 = ['/'] ∨ path.parts.1 = ['.'] ∨ path.parts.1 = [] :=
    fun path => by
      rcases lead_cases path.text.toList with ⟨rest, ht⟩ | ht | ⟨rest, ht⟩ | ht
      · exact .inl (by rw [parts_of_root ht])
      · exact .inr (.inl (by rw [parts_of_dot ht]))
      · exact .inr (.inl (by rw [parts_of_here ht]))
      · exact .inr (.inr (by rw [parts_of_hasNoLead ht]))
  have hsegment : ∀ segments : List (List Char), .root ∉ segments.map Component.ofSegment ∧
      .here ∉ segments.map Component.ofSegment := fun segments => by
    constructor <;> intro hm <;> obtain ⟨s, -, hs⟩ := List.mem_map.mp hm <;>
      rw [Component.ofSegment] at hs <;> split at hs <;> simp at hs
  have hp := hsegment (p.parts.2.filter (!isBlank ·))
  have hq := hsegment (q.parts.2.filter (!isBlank ·))
  have hsame : p.parts.1 = q.parts.1 := by
    rw [components, components] at h
    rcases hlead p with hl | hl | hl <;> rcases hlead q with hl' | hl' | hl' <;>
      rw [hl, hl'] at h ⊢ <;> simp only [Component.ofLead, List.nil_append] at h
    · simp at h
    · exact absurd (h ▸ by simp) hq.1
    · simp at h
    · exact absurd (h ▸ by simp) hq.2
    · exact absurd (h ▸ by simp) hp.1
    · exact absurd (h ▸ by simp) hp.2
  refine ⟨hsame, ?_⟩
  rw [components, components, hsame] at h
  exact List.map_injective_iff.mpr Component.ofSegment_injective (List.append_cancel_left h)

theorem filter_shortened (segments : List (List Char)) :
    (shortened segments).map (·.filter (!isBlank ·)) =
      shortened (segments.filter (!isBlank ·)) := by
  induction segments with
  | nil => rfl
  | cons segment rest ih =>
      cases hs : isBlank segment with
      | true => simp [shortened, hs, ih]
      | false =>
          have hrest : (rest.filter (!isBlank ·)).dropWhile isBlank = rest.filter (!isBlank ·) := by
            cases hf : rest.filter (!isBlank ·) with
            | nil => rfl
            | cons next more =>
                have hm := List.of_mem_filter (hf ▸ List.mem_cons_self : next ∈ rest.filter _)
                exact List.dropWhile_cons_of_neg (by simpa using hm)
          simp [shortened, hs, ih, hrest, filter_dropWhile_isBlank]

theorem mem_shortened {segments rest : List (List Char)} (h : rest ∈ shortened segments) :
    rest <:+ segments ∧ ∀ segment ∈ rest.head?, isBlank segment = false := by
  induction segments with
  | nil => exact absurd h List.not_mem_nil
  | cons segment segments ih =>
      have hlater : rest ∈ shortened segments → rest <:+ segment :: segments ∧
          ∀ segment ∈ rest.head?, isBlank segment = false := fun h =>
        ⟨(ih h).1.trans (List.suffix_cons _ _), (ih h).2⟩
      rw [shortened] at h
      split at h
      · exact hlater h
      · rcases List.mem_cons.mp h with rfl | h
        · refine ⟨(List.dropWhile_suffix _).trans (List.suffix_cons _ _), fun s hs => ?_⟩
          have := List.head?_dropWhile_not isBlank segments
          rw [Option.mem_def] at hs
          rw [hs] at this
          simpa using this
        · exact hlater h

/-- What the ancestors of a path denote, as a function of its components. -/
theorem components_ancestors (p : Path) : p.ancestors.map components =
    p.components :: ((shortened (p.parts.2.filter (!isBlank ·)).reverse).map (fun rest =>
      Component.ofLead p.parts.1 ++ rest.reverse.map Component.ofSegment)
        ++ if p.parts.1 = ['.'] then [[]] else []) := by
  have hshort : ((shortened p.parts.2.reverse).map (fun r => ofParts p.parts.1 r.reverse)).map
      components = (shortened (p.parts.2.filter (!isBlank ·)).reverse).map (fun rest =>
        Component.ofLead p.parts.1 ++ rest.reverse.map Component.ofSegment) := by
    rw [← List.filter_reverse, ← filter_shortened, List.map_map, List.map_map]
    refine List.map_congr_left fun rest hm => ?_
    obtain ⟨hsuffix, hhead⟩ := mem_shortened hm
    have hprefix : rest.reverse <+: p.parts.2 := by
      rwa [← List.reverse_suffix, List.reverse_reverse]
    rw [Function.comp, components_ofParts p hprefix fun s hs => hhead s (by simpa using hs)]
    simp [List.filter_reverse]
  rw [ancestors]
  simp only [List.map_cons, List.map_append, hshort]
  split <;> rfl

theorem ancestors_congr (h : p.components = q.components) :
    p.ancestors.map components = q.ancestors.map components := by
  obtain ⟨hlead, hrest⟩ := parts_congr h
  rw [components_ancestors, components_ancestors, h, hlead, hrest]

theorem shortened_eq_tails {segments : List (List Char)}
    (h : ∀ segment ∈ segments, isBlank segment = false) :
    segments :: shortened segments = segments.tails := by
  induction segments with
  | nil => rfl
  | cons segment rest ih =>
      obtain ⟨hsegment, hrest⟩ := List.forall_mem_cons.mp h
      have hdrop : rest.dropWhile isBlank = rest := by
        cases rest with
        | nil => rfl
        | cons next more => exact List.dropWhile_cons_of_neg (by simp [hrest next])
      rw [shortened, hsegment, if_neg Bool.false_ne_true, hdrop, List.tails, ih hrest]

/-- The ancestors denote the beginnings of the components of a path, the longest first. -/
theorem components_ancestors_eq_tails (p : Path) : p.ancestors.map components =
    ((p.parts.2.filter (!isBlank ·)).reverse.tails.map fun rest =>
      Component.ofLead p.parts.1 ++ rest.reverse.map Component.ofSegment)
        ++ if p.parts.1 = ['.'] then [[]] else [] := by
  have hblank : ∀ segment ∈ (p.parts.2.filter (!isBlank ·)).reverse, isBlank segment = false := by
    intro segment hs
    simpa using (List.mem_filter.mp (List.mem_reverse.mp hs)).2
  rw [components_ancestors, ← shortened_eq_tails hblank, List.map_cons, List.reverse_reverse,
    List.cons_append, components]

theorem pairwise_tails {α : Type} (l : List α) :
    l.tails.Pairwise fun a b => b.length < a.length := by
  induction l with
  | nil => simp
  | cons a l ih =>
      rw [List.tails, List.pairwise_cons]
      refine ⟨fun b hb => ?_, ih⟩
      have hlength := ((List.mem_tails b l).mp hb).length_le
      rw [List.length_cons]
      omega

/-- On the way up the paths get shorter. -/
theorem pairwise_ancestors (p : Path) :
    p.ancestors.Pairwise fun a b => b.components.length < a.components.length := by
  have htails := (pairwise_tails (p.parts.2.filter (!isBlank ·)).reverse).map
    (S := fun a b => b.length < a.length)
    (fun rest => Component.ofLead p.parts.1 ++ rest.reverse.map Component.ofSegment)
    (fun a b h => by simpa using h)
  rw [← List.pairwise_map (f := components) (R := fun a b => b.length < a.length),
    components_ancestors_eq_tails]
  split
  · rename_i hlead
    refine List.pairwise_append.mpr ⟨htails, List.pairwise_singleton _ _, fun a ha b hb => ?_⟩
    obtain ⟨rest, -, rfl⟩ := List.mem_map.mp ha
    simp [List.mem_singleton.mp hb, hlead, Component.ofLead]
  · rwa [List.append_nil]

/-- A path lies in each of its ancestors. -/
theorem contains_of_mem_ancestors {a : Path} (h : a ∈ p.ancestors) : a.contains p := by
  rw [contains, List.isPrefixOf_iff_prefix]
  have hmem : a.components ∈ p.ancestors.map components := List.mem_map.mpr ⟨a, h, rfl⟩
  rw [components_ancestors_eq_tails, List.mem_append] at hmem
  rcases hmem with hmem | hmem
  · obtain ⟨rest, hrest, ha⟩ := List.mem_map.mp hmem
    have hkept : rest.reverse <+: p.parts.2.filter (!isBlank ·) := by
      rw [← List.reverse_suffix, List.reverse_reverse]
      exact (List.mem_tails _ _).mp hrest
    rw [← ha, components]
    exact (List.prefix_append_right_inj _).mpr (hkept.map _)
  · split at hmem
    · rw [List.mem_singleton.mp hmem]
      exact List.nil_prefix
    · exact absurd hmem List.not_mem_nil

theorem length_ofLead (lead : List Char) : (Component.ofLead lead).length ≤ 1 := by
  unfold Component.ofLead
  split <;> simp

/-- Every directory that a path lies in is one of its ancestors, written in some way. -/
theorem exists_mem_ancestors {dir : Path} (hd : dir.components ≠ []) (h : dir.contains p) :
    ∃ a ∈ p.ancestors, a.components = dir.components := by
  rw [contains, List.isPrefixOf_iff_prefix] at h
  change dir.components <+: Component.ofLead p.parts.1 ++ _ at h
  suffices hmem : dir.components ∈ p.ancestors.map components from List.mem_map.mp hmem
  rw [components_ancestors_eq_tails]
  refine List.mem_append_left _ (List.mem_map.mpr ?_)
  -- A directory that is not the empty path begins with the lead.
  have hlead : Component.ofLead p.parts.1 <+: dir.components := by
    refine List.prefix_of_prefix_length_le (List.prefix_append _ _) h ?_
    have hpos := List.length_pos_iff.mpr hd
    have hone := length_ofLead p.parts.1
    omega
  obtain ⟨names, hnames⟩ := hlead
  rw [← hnames, List.prefix_append_right_inj, List.prefix_map_iff] at h
  obtain ⟨front, hfront, rfl⟩ := h
  refine ⟨front.reverse, (List.mem_tails _ _).mpr ?_, by rw [List.reverse_reverse, hnames]⟩
  rwa [List.reverse_suffix]

end VendorBundle.Path
