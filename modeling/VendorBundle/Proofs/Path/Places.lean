import VendorBundle.Proofs.Path.Same

/-!
# Where joined paths lead

A relative path goes on from the place of the path it is joined to, dots and all, and an absolute
one starts again at the root. The parent of a path is the path without its last component, so the
two places lie on one way.
-/

namespace VendorBundle.Path

/-! ## Joining -/

/-- A lead adds nothing to the way of a relative path. -/
theorem foldl_follow_components {q : Path} (hq : q.isAbsolute = false) (kept : List String) :
    q.components.foldl follow kept = (tailComponents q.text).foldl follow kept := by
  rcases lead_cases q.text.toList with ⟨rest, ht⟩ | ht | ⟨rest, ht⟩ | ht
  · simp [isAbsolute, ht] at hq
  · rw [components, parts_of_dot ht, tailComponents, ht]
    rfl
  · have hpieces := Text.pieces_append_cons '/' ['.'] rest
    have hdot : (Text.pieces '/' ['.']).filter (!isBlank ·) = [] := by decide
    have hlead : Text.pieces '/' ('/' :: rest) = [] :: Text.pieces '/' rest := by
      simp [Text.pieces]
    rw [List.singleton_append] at hpieces
    rw [components, parts_of_here ht, tailComponents, ht, hpieces, List.filter_append, hdot, hlead]
    rfl
  · rw [components_of_hasNoLead ht, tailComponents]

/-- A relative path goes on from where the path it is joined to leads. -/
theorem resolved_join_of_relative (p : Path) {q : Path} (hq : q.isAbsolute = false) :
    (p.join q).resolved = ((tailComponents q.text).foldl follow p.resolved.reverse).reverse := by
  by_cases hp : p.text = ""
  · have hnil : p.resolved = [] := by
      rw [resolved_eq, components_eq_nil_iff.mpr hp]
      rfl
    rw [join_of_empty hp, resolved_eq, foldl_follow_components hq, hnil]
    rfl
  · rw [resolved_eq, components_join_of_relative hp hq, List.foldl_append, resolved_eq,
      List.reverse_reverse]

theorem tailComponents_append (front rest : String) :
    tailComponents (front ++ "/" ++ rest) = tailComponents front ++ tailComponents rest := by
  have htext : (front ++ "/" ++ rest).toList = front.toList ++ '/' :: rest.toList := by
    simp [String.toList_append]
  rw [tailComponents, htext, Text.pieces_append_cons, List.filter_append, List.map_append]
  rfl

theorem tailComponents_of_canonical {text : String} (h : Canonical text) :
    tailComponents text = (Text.split '/' text).map Component.name := by
  rw [← components_of_canonical h, components_of_hasNoLead (hasNoLead_of_canonical h)]
  rfl

theorem isAbsolute_append {front : String} (hne : front ≠ "") (rest : String) :
    isAbsolute ⟨front ++ rest⟩ = isAbsolute ⟨front⟩ := by
  rw [isAbsolute, isAbsolute]
  cases ht : front.toList with
  | nil => exact absurd (String.toList_injective ht) hne
  | cons c cs =>
      rw [String.toList_append, ht, List.cons_append]
      by_cases hc : c = '/' <;> simp [hc]

/-- What is written behind a path goes on from where the path leads. -/
theorem components_join_append (p : Path) {front : String} (hne : front ≠ "") (rest : String) :
    (p.join ⟨front ++ "/" ++ rest⟩).components =
      (p.join ⟨front⟩).components ++ tailComponents rest := by
  have habs : isAbsolute ⟨front ++ "/" ++ rest⟩ = isAbsolute ⟨front⟩ := by
    rw [String.append_assoc, isAbsolute_append hne]
  cases hf : isAbsolute ⟨front⟩ with
  | true =>
      rw [join_of_isAbsolute (habs.trans hf), join_of_isAbsolute hf, components_behind hne]
  | false =>
      by_cases hp : p.text = ""
      · rw [join_of_empty hp, join_of_empty hp, components_behind hne]
      · rw [components_join_of_relative hp (habs.trans hf), components_join_of_relative hp hf,
          tailComponents_append, List.append_assoc]

/-- Plain names behind a path lead below its place. -/
theorem resolved_join_append (p : Path) {front rest : String} (hne : front ≠ "")
    (hr : Canonical rest) : (p.join ⟨front ++ "/" ++ rest⟩).resolved =
      (p.join ⟨front⟩).resolved ++ Text.split '/' rest := by
  rw [resolved_eq, components_join_append p hne, List.foldl_append,
    tailComponents_of_canonical hr, foldl_follow_names, resolved_eq]
  simp

@[simp] theorem resolved_join_empty (p : Path) : (p.join ⟨""⟩).resolved = p.resolved := by
  rw [resolved_join_of_relative p rfl]
  simp [tailComponents, Text.pieces, isBlank]

/-! ## Parents -/

/-- The parent lacks the last component. -/
theorem components_of_parent? {p dir : Path} (h : p.parent? = some dir) :
    ∃ c, p.components = dir.components ++ [c] := by
  have hat : (p.ancestors.map components)[1]? = some dir.components := by
    rw [List.getElem?_map]
    exact congrArg _ h
  rw [components_ancestors, List.getElem?_cons_succ] at hat
  rcases List.eq_nil_or_concat' (p.parts.2.filter (!isBlank ·)) with hnil | ⟨init, last, hlast⟩
  · rw [hnil] at hat
    by_cases hdot : p.parts.1 = ['.']
    · refine ⟨.here, ?_⟩
      simp only [shortened, List.reverse_nil, List.map_nil, List.nil_append, if_pos hdot,
        List.getElem?_cons_zero, Option.some.injEq] at hat
      rw [components, hnil, hdot, ← hat]
      rfl
    · simp [shortened, hdot] at hat
  · have hkept : ∀ segment ∈ init ++ [last], isBlank segment = false := fun segment hs => by
      rw [← hlast] at hs
      simpa using List.of_mem_filter hs
    have hdrop : init.reverse.dropWhile isBlank = init.reverse := by
      cases hr : init.reverse with
      | nil => rfl
      | cons segment rest =>
          have hm : segment ∈ init := List.mem_reverse.mp (hr ▸ List.mem_cons_self)
          exact List.dropWhile_cons_of_neg (by simp [hkept segment (List.mem_append_left _ hm)])
    have hblank : isBlank last = false := hkept last (by simp)
    rw [hlast, List.reverse_append, List.reverse_singleton, List.singleton_append, shortened,
      hblank, if_neg Bool.false_ne_true, hdrop, List.map_cons, List.cons_append,
      List.getElem?_cons_zero, Option.some.injEq, List.reverse_reverse] at hat
    refine ⟨Component.ofSegment last, ?_⟩
    rw [components, hlast, ← hat]
    simp

/-- A path that ends in a plain name lies right below its parent. -/
theorem resolved_parent?_join_append (p : Path) {front rest : String} (hne : front ≠ "")
    (hr : Canonical rest) {dir : Path}
    (h : (p.join ⟨front ++ "/" ++ rest⟩).parent? = some dir) :
    dir.resolved <+: (p.join ⟨front ++ "/" ++ rest⟩).resolved := by
  obtain ⟨init, name, hsplit⟩ :=
    List.eq_nil_or_concat' _ |>.resolve_left (Text.split_ne_nil '/' rest)
  have hcs : (p.join ⟨front ++ "/" ++ rest⟩).components =
      ((p.join ⟨front⟩).components ++ init.map Component.name) ++ [.name name] := by
    rw [components_join_append p hne, tailComponents_of_canonical hr, hsplit]
    simp
  obtain ⟨c, hc⟩ := components_of_parent? h
  obtain ⟨hdir, -⟩ := List.append_inj' (hcs.symm.trans hc) rfl
  rw [resolved_eq, resolved_eq, hcs, ← hdir, List.foldl_append]
  simp [follow]

end VendorBundle.Path
