import Mathlib.Data.List.Forall2
import VendorBundle.Script.Imports

/-!
# The imports of a program, all and in order

A program's nodes are listed in pre-order: a node, then what lies in its parts, one part after the
other. The imports are collected from that list, each from its own node alone: the first call of
`import` that no import can be made of ends the collection with its fault, and without such a call
there is one import for each node that is one.
-/

namespace VendorBundle.Script

namespace Outline

/-! ## Nodes in pre-order -/

/-- The parts of a node, in the order of the text. -/
def parts : Outline → List Outline
  | identifier _ | string _ | hole | importFrom .. | exportAll .. | exportNames .. => []
  | template _ substitutions => substitutions.map Prod.fst
  | member o | privateMember o | optional o | paren o | spread o | prefixed o => [o]
  | array os _ | object os _ | arrow os | group os => os
  | call o os | typed o os | instantiation o os => o :: os
  | binary a b | logical _ a b | element a b | property _ a b | assign a b => [a, b]
  | importCall source options => source :: options.toList

theorem sizeOf_lt_of_mem_parts {o part : Outline} (h : part ∈ o.parts) :
    sizeOf part < sizeOf o := by
  cases o <;> simp only [parts, List.mem_cons, List.not_mem_nil, or_false, List.mem_map,
    Option.mem_toList] at h
  case template first substitutions =>
    obtain ⟨⟨part, text⟩, hmem, rfl⟩ := h
    have := List.sizeOf_lt_of_mem hmem
    simp only [template.sizeOf_spec, Prod.mk.sizeOf_spec] at this ⊢
    omega
  case importCall source options =>
    obtain rfl | rfl := h
    · simp only [importCall.sizeOf_spec]
      omega
    · simp only [importCall.sizeOf_spec, Option.some.sizeOf_spec]
      omega
  case array | object | arrow | group =>
    have := List.sizeOf_lt_of_mem h
    simp only [array.sizeOf_spec, object.sizeOf_spec, arrow.sizeOf_spec, group.sizeOf_spec]
    omega
  case call | typed | instantiation =>
    simp only [call.sizeOf_spec, typed.sizeOf_spec, instantiation.sizeOf_spec]
    obtain rfl | h := h
    · omega
    · have := List.sizeOf_lt_of_mem h
      omega
  case binary | logical | element | property | assign =>
    simp only [binary.sizeOf_spec, logical.sizeOf_spec, element.sizeOf_spec, property.sizeOf_spec,
      assign.sizeOf_spec]
    obtain rfl | rfl := h
    · omega
    · omega
  case member | privateMember | optional | paren | spread | prefixed =>
    subst h
    simp only [member.sizeOf_spec, privateMember.sizeOf_spec, optional.sizeOf_spec,
      paren.sizeOf_spec, spread.sizeOf_spec, prefixed.sizeOf_spec]
    omega

/-- A node and all that lies in it, in pre-order. -/
def preorder (o : Outline) : List Outline :=
  o :: o.parts.attach.flatMap fun part => part.val.preorder
termination_by o
decreasing_by exact sizeOf_lt_of_mem_parts part.property

theorem preorder_eq (o : Outline) : o.preorder = o :: o.parts.flatMap preorder := by
  rw [preorder, List.flatMap_subtype (g := preorder) fun part _ => rfl, List.unattach_attach]

/-- What holds of a node when it holds of all its parts holds of every node. -/
@[elab_as_elim]
theorem parts_induction {motive : Outline → Prop}
    (step : ∀ o, (∀ part ∈ o.parts, motive part) → motive o) (o : Outline) : motive o := by
  induction o using preorder.induct with
  | case1 o ih => exact step o fun part h => ih ⟨part, h⟩

/-- A node lies within another: it is that node, or it lies within a part of it. -/
inductive Within (item : Outline) : Outline → Prop where
  | here : Within item item
  | inside {o part : Outline} (hpart : part ∈ o.parts) (h : Within item part) : Within item o

theorem mem_preorder_iff {item o : Outline} : item ∈ o.preorder ↔ Within item o := by
  induction o using parts_induction with
  | step o ih =>
      rw [preorder_eq, List.mem_cons, List.mem_flatMap]
      constructor
      · rintro (rfl | ⟨part, hpart, h⟩)
        · exact .here
        · exact .inside hpart ((ih part hpart).mp h)
      · rintro (_ | ⟨hpart, h⟩)
        · exact .inl rfl
        · exact .inr ⟨_, hpart, (ih _ hpart).mpr h⟩

/-- What lies in a node is listed in one stretch. -/
theorem Within.preorder_infix {item o : Outline} (h : Within item o) :
    item.preorder <:+: o.preorder := by
  induction h with
  | here => exact List.infix_rfl
  | @inside o part hpart _ ih =>
      obtain ⟨before, later, hparts⟩ := List.append_of_mem hpart
      refine ih.trans ⟨o :: before.flatMap preorder, later.flatMap preorder, ?_⟩
      rw [preorder_eq o, hparts]
      simp

/-! ## Imports in pre-order -/

/-- A node that is an import of the running program. -/
def isImport : Outline → Bool
  | importFrom _ typeOnly | exportAll _ typeOnly | exportNames (some _) typeOnly => !typeOnly
  | importCall .. => true
  | _ => false

/-- The imports in an outline, in pre-order. -/
def listed (o : Outline) : List Outline := o.preorder.filter isImport

theorem mem_listed_iff {item o : Outline} : item ∈ o.listed ↔ item.isImport ∧ Within item o := by
  rw [listed, List.mem_filter, mem_preorder_iff, and_comm]

theorem listed_eq (o : Outline) :
    o.listed = (if o.isImport then [o] else []) ++ o.parts.flatMap listed := by
  have hparts : (o.parts.flatMap preorder).filter isImport = o.parts.flatMap listed := by
    rw [List.filter_flatMap]
    rfl
  rw [listed, preorder_eq, List.filter_cons, hparts]
  split <;> rfl

/-- A call of `import` with a template comes in front of the imports in the template. -/
theorem Within.call_infix {o : Outline} {first : String} {substitutions : List (Outline × String)}
    (h : Within (importCall (template first substitutions) none) o) :
    importCall (template first substitutions) none :: substitutions.flatMap (·.1.listed) <:+:
      o.listed := by
  have hcall : (importCall (template first substitutions) none).listed =
      importCall (template first substitutions) none :: substitutions.flatMap (·.1.listed) := by
    rw [listed_eq, if_pos (by rfl)]
    simp [parts, listed_eq (template first substitutions), isImport, List.flatMap_map]
  rw [← hcall]
  exact h.preorder_infix.filter _

/-! ## What an import is -/

/-- A name for an expression, when the expression is that name. -/
def Hints (o : Outline) (hint : Option String) : Prop :=
  ∀ name, hint = some name ↔ o = identifier name

theorem hints_hint (o : Outline) : Hints o o.hint := by
  intro name
  cases o <;> simp [hint]

theorem forall₂_hints (substitutions : List (Outline × String)) :
    List.Forall₂ Hints (substitutions.map Prod.fst) (substitutions.map (·.1.hint)) := by
  induction substitutions with
  | nil => exact .nil
  | cons substitution substitutions ih => exact .cons (hints_hint _) ih

/-- A call of `import` that no import can be made of. -/
inductive Faulty : Outline → CallFault → Prop where
  | arity (source options : Outline) : Faulty (importCall source (some options)) .arity
  | argument (source : Outline) (hstring : ∀ value, source ≠ string value)
      (htemplate : ∀ first substitutions, source ≠ template first substitutions) :
      Faulty (importCall source none) (.argument source.description)

/-- The import that a node is. -/
inductive Records : Outline → ImportForm → Prop where
  | importFrom (specifier : String) :
      Records (importFrom specifier false) (.literal specifier false)
  | exportAll (specifier : String) :
      Records (exportAll specifier false) (.literal specifier false)
  | exportNames (specifier : String) :
      Records (exportNames (some specifier) false) (.literal specifier false)
  | string (value : String) : Records (importCall (string value) none) (.literal value true)
  | text (text : String) : Records (importCall (template text []) none) (.literal text true)
  | template (first : String) (substitutions : List (Outline × String))
      (hints : List (Option String)) (hne : substitutions ≠ [])
      (hhints : List.Forall₂ Hints (substitutions.map Prod.fst) hints) :
      Records (importCall (template first substitutions) none)
        (.template (first :: substitutions.map Prod.snd) hints)

/-- There is one text more than there are expressions, and there is an expression. -/
theorem Records.length_texts {o : Outline} {texts : List String} {hints : List (Option String)}
    (h : Records o (.template texts hints)) : hints ≠ [] ∧ texts.length = hints.length + 1 := by
  cases h with
  | template first substitutions hints hne hhints =>
      have hlength := hhints.length_eq
      rw [List.length_map] at hlength
      refine ⟨?_, by simp [hlength]⟩
      rintro rfl
      exact hne (List.eq_nil_of_length_eq_zero hlength)

/-! ## Collecting -/

/-- The import that a node is by itself. -/
def own : Outline → Except CallFault (List ImportForm)
  | importFrom specifier typeOnly | exportAll specifier typeOnly
  | exportNames (some specifier) typeOnly => .ok (declaredImport specifier typeOnly)
  | importCall source options => do pure [← calledImport source options]
  | _ => .ok []

theorem own_of_not_isImport {o : Outline} (h : o.isImport = false) : o.own = .ok [] := by
  cases o with
  | importFrom specifier typeOnly | exportAll specifier typeOnly =>
      cases typeOnly with
      | true => rfl
      | false => cases h
  | exportNames specifier typeOnly =>
      cases specifier with
      | none => rfl
      | some specifier =>
          cases typeOnly with
          | true => rfl
          | false => cases h
  | importCall source options => cases h
  | _ => rfl

theorem Faulty.own_eq {o : Outline} {fault : CallFault} (h : Faulty o fault) :
    o.own = .error fault := by
  cases h with
  | arity source options => rfl
  | argument source hstring htemplate =>
      cases source with
      | string value => exact absurd rfl (hstring value)
      | template first substitutions => exact absurd rfl (htemplate first substitutions)
      | _ => rfl

/-- There is one import for a node that is one, unless the node is faulty. -/
theorem exists_records {o : Outline} (himport : o.isImport) (hsound : ∀ fault, ¬ Faulty o fault) :
    ∃ form, Records o form ∧ o.own = .ok [form] := by
  cases o with
  | importFrom specifier typeOnly =>
      cases typeOnly with
      | true => cases himport
      | false => exact ⟨_, .importFrom specifier, rfl⟩
  | exportAll specifier typeOnly =>
      cases typeOnly with
      | true => cases himport
      | false => exact ⟨_, .exportAll specifier, rfl⟩
  | exportNames specifier typeOnly =>
      cases specifier with
      | none => cases himport
      | some specifier =>
          cases typeOnly with
          | true => cases himport
          | false => exact ⟨_, .exportNames specifier, rfl⟩
  | importCall source options =>
      cases options with
      | some options => exact absurd (.arity source options) (hsound _)
      | none =>
          by_cases hstring : ∃ value, source = string value
          · obtain ⟨value, rfl⟩ := hstring
            exact ⟨_, .string value, rfl⟩
          by_cases htemplate : ∃ first substitutions, source = template first substitutions
          · obtain ⟨first, substitutions, rfl⟩ := htemplate
            cases substitutions with
            | nil => exact ⟨_, .text first, rfl⟩
            | cons substitution substitutions =>
                refine ⟨_, .template first (substitution :: substitutions) _ (by simp) ?_, rfl⟩
                exact forall₂_hints (substitution :: substitutions)
          · refine absurd (.argument source ?_ ?_) (hsound _)
            · exact fun value h => hstring ⟨value, h⟩
            · exact fun first substitutions h => htemplate ⟨first, substitutions, h⟩
  | _ => cases himport

/-- The imports of one part, then those of another. -/
def both (x y : Except CallFault (List ImportForm)) : Except CallFault (List ImportForm) := do
  pure ((← x) ++ (← y))

@[simp] theorem ok_nil_both (x : Except CallFault (List ImportForm)) : both (.ok []) x = x := by
  cases x <;> rfl

@[simp] theorem both_ok_nil (x : Except CallFault (List ImportForm)) : both x (.ok []) = x := by
  cases x with
  | error fault => rfl
  | ok forms => exact congrArg Except.ok forms.append_nil

theorem both_assoc (x y z : Except CallFault (List ImportForm)) :
    both (both x y) z = both x (both y z) := by
  cases x with
  | error fault => rfl
  | ok forms =>
      cases y with
      | error fault => rfl
      | ok forms' =>
          cases z with
          | error fault => rfl
          | ok forms'' => exact congrArg Except.ok (List.append_assoc forms forms' forms'')

/-- The imports that nodes are by themselves, one node after the other. -/
def collect : List Outline → Except CallFault (List ImportForm)
  | [] => .ok []
  | o :: os => both o.own (collect os)

theorem collect_append (os os' : List Outline) :
    collect (os ++ os') = both (collect os) (collect os') := by
  induction os with
  | nil => simp [collect]
  | cons o os ih => rw [List.cons_append, collect, collect, ih, both_assoc]

theorem collect_filter (os : List Outline) : collect (os.filter isImport) = collect os := by
  induction os with
  | nil => rfl
  | cons o os ih =>
      rw [List.filter_cons]
      split
      · rw [collect, collect, ih]
      · rename_i h
        rw [collect, ih, own_of_not_isImport (by simpa using h), ok_nil_both]

theorem importsOf_cons (o : Outline) (os : List Outline) :
    importsOf (o :: os) = both o.imports (importsOf os) := by
  rw [importsOf, both]

theorem importsOfParts_eq (substitutions : List (Outline × String)) :
    importsOfParts substitutions = importsOf (substitutions.map Prod.fst) := by
  induction substitutions with
  | nil => rfl
  | cons substitution substitutions ih => simp only [importsOfParts, importsOf, List.map_cons, ih]

/-- The imports of a node are its own, then those of its parts. -/
theorem imports_eq (o : Outline) : o.imports = both o.own (importsOf o.parts) := by
  cases o with
  | importCall source options =>
      cases options with
      | some options => rfl
      | none =>
          rw [imports, own, parts, Option.toList_none, importsOf_cons, importsOf, both_ok_nil]
          cases calledImport source none with
          | error fault => rfl
          | ok form => rfl
  | exportNames specifier typeOnly => cases specifier <;> simp [imports, own, parts, importsOf]
  | call o os | typed o os | instantiation o os =>
      rw [imports, own_of_not_isImport rfl, parts, importsOf_cons, ok_nil_both, both]
  | binary a b | logical _ a b | element a b | property _ a b | assign a b =>
      rw [imports, own_of_not_isImport rfl, parts, importsOf_cons, importsOf_cons, importsOf,
        both_ok_nil, ok_nil_both, both]
  | _ => simp [imports, own, parts, importsOf_cons, importsOf, importsOfParts_eq]

/-- The imports of an outline are those that its nodes are by themselves, in pre-order. -/
theorem imports_eq_collect (o : Outline) : o.imports = collect o.preorder := by
  induction o using parts_induction with
  | step o ih =>
      have hparts : ∀ os, (∀ part ∈ os, part.imports = collect part.preorder) →
          importsOf os = collect (os.flatMap preorder) := by
        intro os h
        induction os with
        | nil => rfl
        | cons part os ihos =>
            rw [importsOf_cons, h part (by simp), ihos fun p hp => h p (by simp [hp]),
              List.flatMap_cons, collect_append]
      rw [imports_eq, hparts o.parts ih, preorder_eq, collect]

/-! ## What is collected -/

/-- What becomes of imports that are collected in turn. -/
inductive Collected : List Outline → Except CallFault (List ImportForm) → Prop where
  /-- The first call that no import can be made of ends the collection with its fault. -/
  | stops {before later : List Outline} {item : Outline} {fault : CallFault}
      (hbefore : ∀ o ∈ before, ∀ f, ¬ Faulty o f) (hfault : Faulty item fault) :
      Collected (before ++ item :: later) (.error fault)
  /-- Without such a call there is one import for each item, in their order. -/
  | ends {items : List Outline} {forms : List ImportForm}
      (hsound : ∀ item ∈ items, ∀ fault, ¬ Faulty item fault)
      (hforms : List.Forall₂ Records items forms) : Collected items (.ok forms)

theorem Collected.cons {item : Outline} {items : List Outline}
    {result : Except CallFault (List ImportForm)} {form : ImportForm}
    (h : Collected items result) (hsound : ∀ fault, ¬ Faulty item fault)
    (hform : Records item form) : Collected (item :: items) (both (.ok [form]) result) := by
  cases h with
  | @stops before later bad fault hbefore hfault =>
      have hbefore := List.forall_mem_cons.mpr ⟨hsound, hbefore⟩
      exact @Collected.stops (item :: before) later bad fault hbefore hfault
  | ends hitems hforms =>
      exact .ends (List.forall_mem_cons.mpr ⟨hsound, hitems⟩) (.cons hform hforms)

theorem collected_collect {items : List Outline} (himport : ∀ item ∈ items, item.isImport) :
    Collected items (collect items) := by
  induction items with
  | nil => exact .ends (by simp) .nil
  | cons item items ih =>
      rw [List.forall_mem_cons] at himport
      rw [collect]
      by_cases hfault : ∃ fault, Faulty item fault
      · obtain ⟨fault, hfault⟩ := hfault
        rw [hfault.own_eq]
        exact @Collected.stops [] items item fault (by simp) hfault
      · have hsound := not_exists.mp hfault
        obtain ⟨form, hform, hown⟩ := exists_records himport.1 hsound
        rw [hown]
        exact (ih himport.2).cons hsound hform

theorem Collected.length_texts {items : List Outline} {forms : List ImportForm}
    (h : Collected items (.ok forms)) {texts : List String} {hints : List (Option String)}
    (hmem : .template texts hints ∈ forms) : hints ≠ [] ∧ texts.length = hints.length + 1 := by
  cases h with
  | ends hsound hforms =>
      clear hsound
      induction hforms with
      | nil => cases hmem
      | cons hitem _ ih =>
          obtain rfl | hmem := List.mem_cons.mp hmem
          · exact hitem.length_texts
          · exact ih hmem

end Outline

open Outline

/-- The imports of a source file that is a program are the imports that lie in it, in pre-order, up
to the first call of `import` that no import can be made of. -/
theorem imports_collected (path source : String) :
    (parse? (Language.ofPath path) source = none →
      imports path source = .error (.malformed path)) ∧
    ∀ outline, parse? (Language.ofPath path) source = some outline →
      imports path source = outline.imports.mapError (CallFault.inFile path) ∧
      Collected outline.listed outline.imports ∧
      (∀ item, item ∈ outline.listed ↔ item.isImport ∧ Within item outline) ∧
      (∀ first substitutions, Within (importCall (template first substitutions) none) outline →
        importCall (template first substitutions) none :: substitutions.flatMap (·.1.listed) <:+:
          outline.listed) ∧
      ∀ forms, outline.imports = .ok forms → ∀ texts hints, .template texts hints ∈ forms →
        hints ≠ [] ∧ texts.length = hints.length + 1 := by
  refine ⟨fun hnone => ?_, fun outline hsome => ?_⟩
  -- Unfolded, since it takes seconds to make the equation of `imports`.
  · unfold imports
    rw [hnone]
  · have hcollected : Collected outline.listed outline.imports := by
      rw [imports_eq_collect, ← collect_filter]
      exact collected_collect fun item hitem => (mem_listed_iff.mp hitem).1
    refine ⟨?_, hcollected, fun item => mem_listed_iff, fun _ _ h => h.call_infix, ?_⟩
    · unfold imports
      rw [hsome]
    · intro forms hforms texts hints hmem
      rw [hforms] at hcollected
      exact hcollected.length_texts hmem

example :
    imports "a.js" "import(`x/$\x7bimport(`y`)\x7d/$\x7bn\x7d`); export * from 'z'" = .ok
      [.template ["x/", "/", ""] [none, some "n"], .literal "y" true, .literal "z" false] := by
  decide +kernel

end VendorBundle.Script
