import Mathlib.Data.List.Induction
import VendorBundle.Path
import VendorBundle.Proofs.Text.Split

/-!
# What paths denote

Joining paths appends their components, whatever slashes and dots they are written with, and taking
the parent of a path drops its last name.
-/

namespace VendorBundle

/-- A text names a member of a directory. -/
def IsName (text : String) : Prop := text ≠ "" ∧ text ≠ "." ∧ text ≠ ".." ∧ '/' ∉ text.toList

instance (text : String) : Decidable (IsName text) := inferInstanceAs (Decidable (_ ∧ _))

/-- A relative path is written with names and single slashes only. -/
def Canonical (text : String) : Prop := ∀ segment ∈ Text.split '/' text, IsName segment

instance (text : String) : Decidable (Canonical text) := inferInstanceAs (Decidable (∀ _ ∈ _, _))

theorem IsName.split {name : String} (h : IsName name) : Text.split '/' name = [name] :=
  Text.split_of_not_mem h.2.2.2

theorem IsName.canonical {name : String} (h : IsName name) : Canonical name := by
  intro segment hs
  rw [h.split, List.mem_singleton] at hs
  exact hs ▸ h

theorem IsName.isBlank {name : String} (h : IsName name) : Path.isBlank name.toList = false := by
  obtain ⟨hne, hdot, -⟩ := h
  simp only [Path.isBlank, Bool.or_eq_false_iff, beq_eq_false_iff_ne]
  refine ⟨fun he => hne (String.toList_injective he), fun he => hdot (String.toList_injective he)⟩

namespace Path

/-! ## Components of joined paths -/

theorem parts_of_root {p : Path} {rest : List Char} (h : p.text.toList = '/' :: rest) :
    p.parts = (['/'], Text.pieces '/' rest) := by
  simp [parts, h]

theorem parts_of_dot {p : Path} (h : p.text.toList = ['.']) : p.parts = (['.'], [[]]) := by
  simp [parts, h]

theorem parts_of_here {p : Path} {rest : List Char} (h : p.text.toList = '.' :: '/' :: rest) :
    p.parts = (['.'], Text.pieces '/' ('/' :: rest)) := by
  simp [parts, h]

/-- A path begins with no slash and with no dot that is a segment of its own. -/
def HasNoLead (text : List Char) : Prop :=
  text.head? ≠ some '/' ∧ text ≠ ['.'] ∧ ∀ rest, text ≠ '.' :: '/' :: rest

theorem parts_of_hasNoLead {p : Path} (h : HasNoLead p.text.toList) :
    p.parts = ([], Text.pieces '/' p.text.toList) := by
  obtain ⟨hroot, hdot, hhere⟩ := h
  rw [parts]
  split
  · rename_i rest heq
    simp [heq] at hroot
  · rename_i heq
    exact absurd heq hdot
  · rename_i rest heq
    exact absurd heq (hhere rest)
  · rfl

theorem lead_cases (text : List Char) :
    (∃ rest, text = '/' :: rest) ∨ text = ['.'] ∨ (∃ rest, text = '.' :: '/' :: rest) ∨
      HasNoLead text := by
  by_cases hroot : text.head? = some '/'
  · exact .inl (List.head?_eq_some_iff.mp hroot)
  · by_cases hdot : text = ['.']
    · exact .inr (.inl hdot)
    · by_cases hhere : ∃ rest, text = '.' :: '/' :: rest
      · exact .inr (.inr (.inl hhere))
      · exact .inr (.inr (.inr ⟨hroot, hdot, not_exists.mp hhere⟩))

theorem parts_append {front : String} (h : front ≠ "") (rest : String) :
    parts ⟨front ++ "/" ++ rest⟩ =
      ((parts ⟨front⟩).1, (parts ⟨front⟩).2 ++ Text.pieces '/' rest.toList) := by
  have htext : (Path.mk (front ++ "/" ++ rest)).text.toList = front.toList ++ '/' :: rest.toList := by
    simp [String.toList_append]
  rcases lead_cases front.toList with ⟨more, hf⟩ | hf | ⟨more, hf⟩ | hf
  · rw [hf, List.cons_append] at htext
    rw [parts_of_root (p := ⟨front⟩) hf, parts_of_root htext, Text.pieces_append_cons]
  · rw [hf, List.cons_append, List.nil_append] at htext
    rw [parts_of_dot (p := ⟨front⟩) hf, parts_of_here htext]
    simp [Text.pieces]
  · rw [hf, List.cons_append, List.cons_append] at htext
    rw [parts_of_here (p := ⟨front⟩) hf, parts_of_here htext, ← List.cons_append,
      Text.pieces_append_cons]
  · have hlead : HasNoLead (front.toList ++ '/' :: rest.toList) := by
      obtain ⟨hroot, hdot, hhere⟩ := hf
      cases hc : front.toList with
      | nil => exact absurd (String.toList_injective hc) h
      | cons c cs =>
          rw [hc] at hroot hdot hhere
          refine ⟨by simpa using hroot, by simp, fun more he => ?_⟩
          cases cs with
          | nil =>
              simp only [List.cons_append, List.nil_append, List.cons.injEq] at he
              exact hdot (by rw [he.1])
          | cons d ds =>
              simp only [List.cons_append, List.cons.injEq] at he
              exact hhere ds (by rw [he.1, he.2.1])
    rw [parts_of_hasNoLead (p := ⟨front⟩) hf, parts_of_hasNoLead (htext ▸ hlead), htext,
      Text.pieces_append_cons]

theorem hasNoLead_of_parts {p : Path} (h : p.parts.1 = []) : HasNoLead p.text.toList := by
  rcases lead_cases p.text.toList with ⟨more, hl⟩ | hl | ⟨more, hl⟩ | hl
  · simp [parts_of_root hl] at h
  · simp [parts_of_dot hl] at h
  · simp [parts_of_here hl] at h
  · exact hl

theorem components_of_hasNoLead {p : Path} (h : HasNoLead p.text.toList) :
    p.components =
      ((Text.pieces '/' p.text.toList).filter (!isBlank ·)).map Component.ofSegment := by
  simp [components, parts_of_hasNoLead h, Component.ofLead]

/-- A path written after another one contributes only the components of its segments. -/
theorem components_append {front : String} (h : front ≠ "") (q : Path) (hq : q.parts.1 = []) :
    components ⟨front ++ "/" ++ q.text⟩ = components ⟨front⟩ ++ q.components := by
  rw [components_of_hasNoLead (hasNoLead_of_parts hq), components, parts_append h, components]
  simp

@[simp] theorem components_empty : components ⟨""⟩ = [] := rfl

theorem components_trailing_slash {front : String} (h : front ≠ "") :
    components ⟨front ++ "/"⟩ = components ⟨front⟩ := by
  have := components_append h ⟨""⟩ rfl
  simpa using this

theorem eq_append_slash {text : String} (h : text.toList.getLast? = some '/') :
    ∃ front, text = front ++ "/" := by
  refine ⟨String.ofList text.toList.dropLast, String.toList_injective ?_⟩
  rw [String.toList_append, String.toList_ofList]
  exact (List.dropLast_append_getLast? '/' h).symm

theorem components_join {p q : Path} (hq : q.parts.1 = []) :
    (p.join q).components = p.components ++ q.components := by
  have hlead := hasNoLead_of_parts hq
  have habs : q.isAbsolute = false := by
    rw [isAbsolute]
    split
    · rename_i rest heq
      exact absurd (by simp [heq]) hlead.1
    · rfl
  obtain ⟨text⟩ := p
  rw [join, habs, if_neg Bool.false_ne_true]
  simp only
  split
  · rename_i hnone
    have : text = "" := String.toList_injective (List.getLast?_eq_none_iff.mp hnone)
    simp [this]
  · rename_i hslash
    obtain ⟨front, rfl⟩ := eq_append_slash hslash
    by_cases hf : front = ""
    · subst hf
      have hroot : (Path.mk ("" ++ "/" ++ q.text)).text.toList = '/' :: q.text.toList := by
        simp [String.toList_append]
      rw [components_of_hasNoLead hlead, components, parts_of_root hroot]
      rfl
    · rw [components_append hf q hq, components_trailing_slash hf]
  · rename_i c hc hne
    have ht : text ≠ "" := by
      rintro rfl
      simp at hne
    exact components_append ht q hq

/-! ## Places -/

/-- Goes one component further from a reversed place. -/
def follow (kept : List String) : Component → List String
  | .name text => text :: kept
  | .up => kept.tail
  | _ => kept

theorem resolved_eq (p : Path) : p.resolved = (p.components.foldl follow []).reverse := by
  rfl

theorem foldl_follow_names (kept names : List String) :
    (names.map Component.name).foldl follow kept = names.reverse ++ kept := by
  induction names generalizing kept with
  | nil => rfl
  | cons name names ih => simp [follow, ih]

theorem hasNoLead_of_canonical {text : String} (h : Canonical text) : HasNoLead text.toList := by
  have hfirst : ∀ word words, Text.pieces '/' text.toList = word :: words →
      IsName (String.ofList word) := fun word words hp =>
    h _ (List.mem_map.mpr ⟨word, by simp [hp], rfl⟩)
  rcases lead_cases text.toList with ⟨rest, ht⟩ | ht | ⟨rest, ht⟩ | ht
  · exact absurd rfl (hfirst [] (Text.pieces '/' rest) (by rw [ht]; rfl)).1
  · exact absurd rfl (hfirst ['.'] [] (by rw [ht]; rfl)).2.1
  · have hp := Text.pieces_append_cons '/' ['.'] rest
    exact absurd rfl (hfirst ['.'] _ (by rw [ht]; exact hp)).2.1
  · exact ht

theorem components_of_canonical {text : String} (h : Canonical text) :
    components ⟨text⟩ = (Text.split '/' text).map Component.name := by
  have hname : ∀ word ∈ Text.pieces '/' text.toList, IsName (String.ofList word) :=
    fun word hw => h _ (List.mem_map_of_mem hw)
  have hkeep : (Text.pieces '/' text.toList).filter (!isBlank ·) = Text.pieces '/' text.toList :=
    List.filter_eq_self.mpr fun word hw => by simpa using (hname word hw).isBlank
  rw [components_of_hasNoLead (hasNoLead_of_canonical h), hkeep, Text.split, List.map_map]
  refine List.map_congr_left fun word hw => ?_
  have hup : word ≠ ['.', '.'] := fun he => (hname word hw).2.2.1 (by rw [he])
  simp [Component.ofSegment, hup]

theorem resolved_join (p : Path) {text : String} (h : Canonical text) :
    (p.join ⟨text⟩).resolved = p.resolved ++ Text.split '/' text := by
  have hrel : (parts ⟨text⟩).1 = [] := by rw [parts_of_hasNoLead (p := ⟨text⟩) (hasNoLead_of_canonical h)]
  rw [resolved_eq, components_join hrel, List.foldl_append, components_of_canonical h,
    foldl_follow_names, resolved_eq, List.reverse_append, List.reverse_reverse]

/-! ## Parents -/

theorem pieces_intercalate {p : Path} {front : List (List Char)} (hf : front <+: p.parts.2)
    (hne : front ≠ []) : Text.pieces '/' (['/'].intercalate front) = front := by
  rw [Text.pieces_eq_splitOn]
  refine List.splitOn_intercalate '/' (fun word hw => ?_) hne
  have hm := hf.subset hw
  rcases lead_cases p.text.toList with ⟨rest, ht⟩ | ht | ⟨rest, ht⟩ | ht
  · rw [parts_of_root ht] at hm
    exact Text.not_mem_of_mem_pieces hm
  · rw [parts_of_dot ht, List.mem_singleton] at hm
    simp [hm]
  · rw [parts_of_here ht] at hm
    exact Text.not_mem_of_mem_pieces hm
  · rw [parts_of_hasNoLead ht] at hm
    exact Text.not_mem_of_mem_pieces hm

theorem HasNoLead.of_prefix {text front : List Char} (h : HasNoLead text) (hf : front <+: text)
    (hdot : front ≠ ['.']) : HasNoLead front := by
  obtain ⟨rest, rfl⟩ := hf
  refine ⟨fun hr => h.1 ?_, hdot, fun more he => h.2.2 (more ++ rest) (by simp [he])⟩
  obtain ⟨more, rfl⟩ := List.head?_eq_some_iff.mp hr
  rfl

theorem intercalate_prefix {front segments : List (List Char)} (h : front <+: segments) :
    ['/'].intercalate front <+: ['/'].intercalate segments := by
  obtain ⟨rest, rfl⟩ := h
  induction front with
  | nil => simp
  | cons word front ih =>
      cases front with
      | nil =>
          cases rest with
          | nil => simp
          | cons next rest => simp [List.intercalate_cons_cons]
      | cons next front =>
          simp only [List.cons_append, List.intercalate_cons_cons] at ih ⊢
          simpa [List.append_assoc] using ih

section

variable (p : Path) {front : List (List Char)} (hf : front <+: p.parts.2)

include hf

theorem components_ofParts_root : (ofParts ['/'] front).components =
    Component.ofLead ['/'] ++ (front.filter (!isBlank ·)).map Component.ofSegment := by
  have htext : (ofParts ['/'] front).text.toList = '/' :: ['/'].intercalate front := by
    simp [ofParts]
  rw [components, parts_of_root htext]
  cases front with
  | nil => rfl
  | cons word front => rw [pieces_intercalate hf (by simp)]

variable (hlast : ∀ segment ∈ front.getLast?, isBlank segment = false)

include hlast

/-- Behind a leading dot stands a blank segment, so a name does not come first. -/
theorem components_ofParts_here {rest : List Char} (ht : p.text.toList = '.' :: '/' :: rest) :
    (ofParts ['.'] front).components =
      Component.ofLead ['.'] ++ (front.filter (!isBlank ·)).map Component.ofSegment := by
  have hpieces := pieces_intercalate hf
  rw [parts_of_here ht] at hf
  have hfirst : ∀ word more, front = word :: more → word = [] := by
    rintro word more rfl
    obtain ⟨behind, hbehind⟩ := hf
    have hhead := List.head?_eq_some_iff.mpr ⟨_, hbehind.symm⟩
    simpa [Text.pieces] using hhead.symm
  rcases front with _ | ⟨word, _ | ⟨next, front⟩⟩
  · exact (rfl : (ofParts ['.'] []).components = [.here])
  · exact absurd (hlast word rfl) (by simp [hfirst word [] rfl, isBlank])
  · have hword := hfirst word (next :: front) rfl
    have htext : (ofParts ['.'] (word :: next :: front)).text.toList =
        '.' :: '/' :: ['/'].intercalate (next :: front) := by
      simp [ofParts, hword, List.intercalate_cons_cons]
    have hsame : '/' :: ['/'].intercalate (next :: front) =
        ['/'].intercalate (word :: next :: front) := by
      simp [hword, List.intercalate_cons_cons]
    rw [components, parts_of_here htext, hsame, hpieces (by simp)]

theorem components_ofParts_hasNoLead (ht : HasNoLead p.text.toList) :
    (ofParts [] front).components =
      Component.ofLead [] ++ (front.filter (!isBlank ·)).map Component.ofSegment := by
  have hpieces := pieces_intercalate hf
  rw [parts_of_hasNoLead ht] at hf
  have htext : (ofParts [] front).text.toList = ['/'].intercalate front := by simp [ofParts]
  have hdot : ['/'].intercalate front ≠ ['.'] := fun hd => by
    cases front with
    | nil => simp at hd
    | cons word front =>
        have hp := hpieces (by simp)
        rw [hd] at hp
        rw [← hp] at hlast
        exact absurd (hlast ['.'] rfl) (by decide)
  have hpre : ['/'].intercalate front <+: p.text.toList := by
    have := intercalate_prefix hf
    rwa [Text.intercalate_pieces] at this
  rw [components_of_hasNoLead (htext ▸ ht.of_prefix hpre hdot), htext]
  cases front with
  | nil => rfl
  | cons word front => rw [hpieces (by simp)]; rfl

/-- Segments of a path up to a name still belong to its lead when they are written on their own. -/
theorem components_ofParts : (ofParts p.parts.1 front).components =
    Component.ofLead p.parts.1 ++ (front.filter (!isBlank ·)).map Component.ofSegment := by
  rcases lead_cases p.text.toList with ⟨rest, ht⟩ | ht | ⟨rest, ht⟩ | ht
  · rw [parts_of_root ht]
    exact components_ofParts_root p hf
  · rw [parts_of_dot ht] at hf ⊢
    cases front with
    | nil => rfl
    | cons word front =>
        obtain ⟨rest, hrest⟩ := hf
        simp only [List.cons_append, List.cons.injEq, List.append_eq_nil_iff] at hrest
        rw [hrest.1, hrest.2.1] at hlast
        exact absurd (hlast [] rfl) (by decide)
  · rw [parts_of_here ht]
    exact components_ofParts_here p hf hlast ht
  · rw [parts_of_hasNoLead ht]
    exact components_ofParts_hasNoLead p hf hlast ht

end

/-- The last name is taken off, with the blank segments before it. -/
theorem shortened_reverse {segments front : List (List Char)} {word : List Char}
    {blanks : List (List Char)} (hs : segments = front ++ word :: blanks)
    (hw : isBlank word = false) (hb : ∀ segment ∈ blanks, isBlank segment = true) :
    ∃ rest, shortened segments.reverse = front.reverse.dropWhile isBlank :: rest := by
  subst hs
  induction blanks using List.reverseRecOn with
  | nil => exact ⟨shortened front.reverse, by simp [shortened, hw]⟩
  | append_singleton blanks segment ih =>
      obtain ⟨rest, hrest⟩ := ih fun s hs => hb s (by simp [hs])
      refine ⟨rest, ?_⟩
      rw [← hrest]
      simp [shortened, hb segment (by simp)]

theorem filter_dropWhile_isBlank (segments : List (List Char)) :
    (segments.dropWhile isBlank).filter (!isBlank ·) = segments.filter (!isBlank ·) := by
  induction segments with
  | nil => rfl
  | cons segment segments ih =>
      cases h : isBlank segment <;> simp [h, ih]

/-- Up to blank segments, a path that ends in a name is what comes before and that name. -/
theorem exists_last_segment {segments : List (List Char)}
    (h : segments.filter (!isBlank ·) ≠ []) :
    ∃ front word blanks, segments = front ++ word :: blanks ∧ isBlank word = false ∧
      ∀ segment ∈ blanks, isBlank segment = true := by
  obtain ⟨init, word, hlast⟩ := List.eq_nil_or_concat' _ |>.resolve_left h
  obtain ⟨l₁, l₂, rfl, -, hl₂⟩ := List.filter_eq_append_iff.mp hlast
  obtain ⟨l₃, blanks, rfl, -, hw, hb⟩ := List.filter_eq_cons_iff.mp hl₂
  refine ⟨l₁ ++ l₃, word, blanks, by simp, by simpa using hw, fun segment hs => ?_⟩
  simpa using List.filter_eq_nil_iff.mp hb segment hs

/-- A path that ends in a name has a parent, which denotes the place without that name. -/
theorem parent?_components {p : Path} {cs : List Component} {name : String}
    (h : p.components = cs ++ [.name name]) :
    ∃ dir, p.parent? = some dir ∧ dir.components = cs := by
  have hname : p.parts.2.filter (!isBlank ·) ≠ [] := fun hnil => by
    rw [components, hnil, List.map_nil, List.append_nil] at h
    have hlead : Component.name name ∈ Component.ofLead p.parts.1 := by simp [h]
    unfold Component.ofLead at hlead
    split at hlead <;> simp at hlead
  obtain ⟨front, word, blanks, hs, hw, hb⟩ := exists_last_segment hname
  obtain ⟨rest, hrest⟩ := shortened_reverse hs hw hb
  refine ⟨ofParts p.parts.1 (front.reverse.dropWhile isBlank).reverse, ?_, ?_⟩
  · simp [parent?, ancestors, hrest]
  · have hpre : (front.reverse.dropWhile isBlank).reverse <+: p.parts.2 := by
      rw [hs]
      refine List.IsPrefix.trans ?_ (List.prefix_append front _)
      rw [← List.reverse_suffix, List.reverse_reverse]
      exact List.dropWhile_suffix _
    rw [components_ofParts p hpre fun segment hl => ?_]
    · rw [List.filter_reverse, filter_dropWhile_isBlank, ← List.filter_reverse,
        List.reverse_reverse]
      have hblanks : blanks.filter (!isBlank ·) = [] :=
        List.filter_eq_nil_iff.mpr fun segment hm => by simp [hb segment hm]
      rw [components, hs, List.filter_append, List.filter_cons_of_pos (by simp [hw]), hblanks,
        List.map_append, ← List.append_assoc] at h
      exact (List.append_inj' h rfl).1
    · rw [List.getLast?_reverse] at hl
      have := List.head?_dropWhile_not isBlank front.reverse
      simp only [Option.mem_def] at hl
      rw [hl] at this
      simpa using this

/-- What stands below a directory has a parent, which is at or below the directory. -/
theorem parent?_join (p : Path) {text : String} (h : Canonical text) :
    ∃ dir, (p.join ⟨text⟩).parent? = some dir ∧
      dir.resolved = p.resolved ++ (Text.split '/' text).dropLast := by
  obtain ⟨init, name, hsplit⟩ :=
    List.eq_nil_or_concat' _ |>.resolve_left (Text.split_ne_nil '/' text)
  have hcs : (p.join ⟨text⟩).components =
      (p.components ++ init.map Component.name) ++ [.name name] := by
    have hrel : (parts ⟨text⟩).1 = [] := by
      rw [parts_of_hasNoLead (p := ⟨text⟩) (hasNoLead_of_canonical h)]
    rw [components_join hrel, components_of_canonical h, hsplit]
    simp
  obtain ⟨dir, hd, hc⟩ := parent?_components hcs
  refine ⟨dir, hd, ?_⟩
  rw [resolved_eq, hc, List.foldl_append, foldl_follow_names, List.reverse_append,
    List.reverse_reverse, hsplit, List.dropLast_concat, resolved_eq]

/-! ## Names -/

theorem isName_of_mem_components {p : Path} {name : String} (h : .name name ∈ p.components) :
    IsName name := by
  rw [components, List.mem_append] at h
  rcases h with h | h
  · unfold Component.ofLead at h
    split at h <;> simp at h
  · obtain ⟨segment, hm, hs⟩ := List.mem_map.mp h
    obtain ⟨hm, hb⟩ := List.mem_filter.mp hm
    rw [Component.ofSegment] at hs
    split at hs
    · exact absurd hs (by simp)
    · rename_i hup
      obtain rfl := Component.name.inj hs
      simp only [isBlank, Bool.not_eq_true', Bool.or_eq_false_iff, beq_eq_false_iff_ne] at hb
      have hslash : '/' ∉ segment := by
        rcases lead_cases p.text.toList with ⟨rest, ht⟩ | ht | ⟨rest, ht⟩ | ht
        · exact Text.not_mem_of_mem_pieces (parts_of_root ht ▸ hm)
        · rw [parts_of_dot ht, List.mem_singleton] at hm
          simp [hm]
        · exact Text.not_mem_of_mem_pieces (parts_of_here ht ▸ hm)
        · exact Text.not_mem_of_mem_pieces (parts_of_hasNoLead ht ▸ hm)
      refine ⟨fun he => hb.1 ?_, fun he => hb.2 ?_, fun he => hup ?_, by simpa using hslash⟩
      · simpa using congrArg String.toList he
      · simpa using congrArg String.toList he
      · simpa using congrArg String.toList he

theorem mem_foldl_follow {cs : List Component} {kept : List String} {name : String}
    (h : name ∈ cs.foldl follow kept) : .name name ∈ cs ∨ name ∈ kept := by
  induction cs generalizing kept with
  | nil => exact .inr h
  | cons c cs ih =>
      rcases ih h with h | h
      · exact .inl (List.mem_cons_of_mem _ h)
      · cases c with
        | name text =>
            rcases List.mem_cons.mp h with rfl | h
            · exact .inl List.mem_cons_self
            · exact .inr h
        | up => exact .inr (List.mem_of_mem_tail h)
        | root => exact .inr h
        | here => exact .inr h

theorem isName_of_mem_resolved {p : Path} {name : String} (h : name ∈ p.resolved) :
    IsName name := by
  rw [resolved_eq, List.mem_reverse] at h
  rcases mem_foldl_follow h with h | h
  · exact isName_of_mem_components h
  · exact absurd h (List.not_mem_nil)

end Path

end VendorBundle
