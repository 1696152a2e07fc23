import VendorBundle.Proofs.Memory.Nodes

/-!
# Acts on a tree

A build changes the result by a few kinds of acts. What a sequence of them leaves at one place
depends only on the acts that are about the place and on whether something is made below it.
-/

namespace VendorBundle

/-- What a place of a tree holds, whenever it was written. -/
inductive Item where
  | file (content : ByteArray)
  | dir

instance : DecidableEq Item
  | .dir, .dir => .isTrue rfl
  | .dir, .file _ | .file _, .dir => .isFalse nofun
  | .file a, .file b =>
      decidable_of_iff (a.data = b.data)
        ⟨fun h => ByteArray.ext h ▸ rfl, fun h => by cases h; rfl⟩

theorem Item.eq_none_of_ne {item : Option Item} (hd : item ≠ some .dir)
    (hf : ∀ content, item ≠ some (.file content)) : item = none := by
  cases item with
  | none => rfl
  | some item =>
      cases item with
      | file content => exact absurd rfl (hf content)
      | dir => exact absurd rfl hd

def Node.item : Node → Item
  | .file content _ => .file content
  | .dir => .dir

/-- What each place below the root of a tree holds. -/
abbrev View := Place → Option Item

namespace View

def put (v : View) (place : Place) (item : Option Item) : View :=
  fun q => if place = q then item else v q

/-- Makes a directory of a place and of those above it where there is nothing yet. -/
def fill (v : View) (place : Place) : View :=
  fun q => (v q).or (if q <+: place then some .dir else none)

@[simp] theorem put_self (v : View) (place : Place) (item : Option Item) :
    v.put place item place = item := if_pos rfl

theorem put_of_ne (v : View) {place q : Place} (item : Option Item) (h : place ≠ q) :
    v.put place item q = v q := if_neg h

end View

/-- The tree below a root. -/
def Memory.view (m : Memory) (root : Place) : View := fun q => (m.node? (root ++ q)).map Node.item

/-! ## Acts -/

inductive Act where
  /-- A file goes, if it is there. -/
  | drop (place : Place)
  /-- A directory goes, if it is there. -/
  | clear (place : Place)
  | make (place : Place)
  | write (place : Place) (content : ByteArray)

namespace Act

def place : Act → Place
  | drop place | clear place | make place | write place _ => place

/-- The act does not fail. -/
def Possible (v : View) : Act → Prop
  | drop place => v place ≠ some .dir
  | clear place => v place = some .dir → ∀ name, v (place ++ [name]) = none
  | make _ => True
  | write place _ => ∀ content, v place.dropLast ≠ some (.file content)

def result (v : View) : Act → View
  | drop place => v.put place none
  | clear place => if v place = some .dir then v.put place none else v
  | make place => v.fill place
  | write place content => (v.fill place.dropLast).put place (some (.file content))

/-- What an act leaves that fails: directories above a file that was to be written. -/
def remains (v : View) : Act → View
  | write place _ => v.fill place.dropLast
  | drop _ | clear _ | make _ => v

/-- The act makes a directory of a place that holds nothing. -/
def fills (q : Place) : Act → Bool
  | make place => q.isPrefixOf place
  | write place _ => q.isPrefixOf place.dropLast
  | drop _ | clear _ => false

def isRemoval : Act → Bool
  | drop _ | clear _ => true
  | make _ | write _ _ => false

/-- The act changes its place even when that holds something. -/
def replaces (q : Place) : Act → Bool
  | drop place | clear place | write place _ => place == q
  | make _ => false

theorem replaces_of_place_ne {a : Act} {q : Place} (h : a.place ≠ q) : a.replaces q = false := by
  cases a with
  | make place => rfl
  | drop place => simpa [replaces, Act.place] using h
  | clear place => simpa [replaces, Act.place] using h
  | write place content => simpa [replaces, Act.place] using h

theorem place_of_replaces {a : Act} {q : Place} (h : a.replaces q = true) : a.place = q := by
  by_contra hne
  simp [replaces_of_place_ne hne] at h

theorem result_of_not_replaces {v : View} {a : Act} {q : Place} (h : a.replaces q = false) :
    a.result v q = (v q).or (if a.fills q then some .dir else none) := by
  cases a with
  | drop place =>
      have hne : place ≠ q := by simpa [replaces] using h
      simp [result, fills, v.put_of_ne none hne]
  | clear place =>
      have hne : place ≠ q := by simpa [replaces] using h
      rw [result]
      split <;> simp [fills, v.put_of_ne none hne]
  | make place => simp [result, fills, View.fill]
  | write place content =>
      have hne : place ≠ q := by simpa [replaces] using h
      rw [result, View.put_of_ne _ _ hne]
      simp [fills, View.fill]

/-- What an act leaves at a place: what was there or a directory made of it, nothing when the act
removes it, or the file that the act writes. -/
theorem result_cases (a : Act) (v : View) (q : Place) :
    a.result v q = (v q).or (if a.fills q then some .dir else none) ∨
    a.isRemoval = true ∧ a.place = q ∧ a.result v q = none ∨
    ∃ content, a = .write q content ∧ a.result v q = some (.file content) := by
  cases hreplaces : a.replaces q with
  | false => exact .inl (result_of_not_replaces hreplaces)
  | true =>
      obtain rfl := place_of_replaces hreplaces
      cases a with
      | drop place => exact .inr (.inl ⟨rfl, rfl, View.put_self _ _ _⟩)
      | clear place =>
          by_cases hd : v place = some .dir
          · exact .inr (.inl ⟨rfl, rfl, by rw [result, if_pos hd, Act.place, View.put_self]⟩)
          · exact .inl (by simp [result, hd, fills, Act.place])
      | make place => exact absurd hreplaces Bool.false_ne_true
      | write place content => exact .inr (.inr ⟨content, rfl, View.put_self _ _ _⟩)

theorem fills_of_isRemoval {a : Act} (h : a.isRemoval = true) (q : Place) :
    a.fills q = false := by
  cases a <;> simp_all [isRemoval, fills]

/-- A removal empties places only. -/
theorem result_of_isRemoval {a : Act} (h : a.isRemoval = true) (v : View) (q : Place) :
    a.result v q = v q ∨ a.place = q ∧ a.result v q = none := by
  rcases a.result_cases v q with hkept | ⟨-, hgone⟩ | ⟨content, rfl, -⟩
  · exact .inl (by simpa [fills_of_isRemoval h] using hkept)
  · exact .inr hgone
  · exact absurd h Bool.false_ne_true

end Act

/-- Acts carried out one after the other, none of which fails. -/
inductive Runs : View → List Act → View → Prop where
  | done (v) : Runs v [] v
  | step {v w a acts} : a.Possible v → Runs (a.result v) acts w → Runs v (a :: acts) w

theorem Runs.append {u v w : View} {acts acts' : List Act} (h : Runs u acts v)
    (h' : Runs v acts' w) : Runs u (acts ++ acts') w := by
  induction h with
  | done v => exact h'
  | step hp _ ih => exact .step hp (ih h')

/-- A directory, if one of the acts makes one of a free place. -/
def opened (q : Place) (acts : List Act) : Option Item :=
  if acts.any (·.fills q) then some .dir else none

theorem opened_cons (q : Place) (a : Act) (acts : List Act) :
    opened q (a :: acts) = (if a.fills q then some Item.dir else none).or (opened q acts) := by
  cases h : a.fills q <;> simp [opened, h]

/-! ## What is left at a place -/

/-- A place that no act is about keeps what it holds, or becomes a directory. -/
theorem Runs.of_not_replaces {v w : View} {acts : List Act} (h : Runs v acts w) {q : Place}
    (hq : ∀ a ∈ acts, a.replaces q = false) : w q = (v q).or (opened q acts) := by
  induction h with
  | done v => simp [opened]
  | step hp _ ih =>
      rw [ih fun a ha => hq a (List.mem_cons_of_mem _ ha),
        Act.result_of_not_replaces (hq _ List.mem_cons_self), opened_cons, Option.or_assoc]

theorem opened_of_isRemoval {acts : List Act} (h : ∀ a ∈ acts, a.isRemoval = true) (q : Place) :
    opened q acts = none := by
  rw [opened, if_neg]
  simp only [List.any_eq_true, not_exists, not_and, Bool.not_eq_true]
  exact fun a ha => Act.fills_of_isRemoval (h a ha) q

/-- Removals of other places leave a place alone. -/
theorem Runs.of_removals {v w : View} {acts : List Act} (h : Runs v acts w)
    (hr : ∀ a ∈ acts, a.isRemoval = true) {q : Place} (hd : .drop q ∉ acts)
    (hc : .clear q ∉ acts) : w q = v q := by
  rw [h.of_not_replaces, opened_of_isRemoval hr, Option.or_none]
  intro a ha
  cases a with
  | drop place => simpa [Act.replaces] using fun he : place = q => hd (he ▸ ha)
  | clear place => simpa [Act.replaces] using fun he : place = q => hc (he ▸ ha)
  | make place => rfl
  | write place content => exact absurd (hr _ ha) (by simp [Act.isRemoval])

theorem Runs.none_of_none {v w : View} {acts : List Act} (h : Runs v acts w)
    (hr : ∀ a ∈ acts, a.isRemoval = true) {q : Place} (hv : v q = none) : w q = none := by
  induction h with
  | done v => exact hv
  | step hp _ ih =>
      refine ih (fun b hb => hr b (List.mem_cons_of_mem _ hb)) ?_
      rcases Act.result_of_isRemoval (hr _ List.mem_cons_self) _ q with hkept | ⟨-, hgone⟩
      · exact hkept.trans hv
      · exact hgone

theorem Runs.of_drop {v w : View} {acts : List Act} (h : Runs v acts w)
    (hr : ∀ a ∈ acts, a.isRemoval = true) {q : Place} (hd : .drop q ∈ acts) : w q = none := by
  induction h with
  | done v => exact absurd hd List.not_mem_nil
  | step hp hrest ih =>
      have hr' := fun b hb => hr b (List.mem_cons_of_mem _ hb)
      rcases List.mem_cons.mp hd with rfl | hd
      · exact hrest.none_of_none hr' (by simp [Act.result])
      · exact ih hr' hd

theorem Runs.of_clear {v w : View} {acts : List Act} (h : Runs v acts w)
    (hr : ∀ a ∈ acts, a.isRemoval = true) {q : Place} (hd : .drop q ∉ acts)
    (hc : .clear q ∈ acts) : w q = if v q = some .dir then none else v q := by
  induction h with
  | done v => exact absurd hc List.not_mem_nil
  | step hp hrest ih =>
      rename_i v w a acts
      have hr' := fun b hb => hr b (List.mem_cons_of_mem _ hb)
      have hd' : .drop q ∉ acts := fun hm => hd (List.mem_cons_of_mem _ hm)
      by_cases ha : a = .clear q
      · subst ha
        by_cases hv : v q = some .dir
        · rw [if_pos hv]
          exact hrest.none_of_none hr' (by simp [Act.result, hv])
        · rw [if_neg hv]
          by_cases hc' : .clear q ∈ acts
          · rw [ih hr' hd' hc']
            simp [Act.result, hv]
          · rw [hrest.of_removals hr' hd' hc']
            simp [Act.result, hv]
      · have hkeep : a.result v q = v q := by
          have hne : a.replaces q = false := by
            cases a with
            | drop place => simpa [Act.replaces] using fun he : place = q => hd (by simp [he])
            | clear place => simpa [Act.replaces] using fun he : place = q => ha (by rw [he])
            | make place => rfl
            | write place content =>
                exact absurd (hr _ List.mem_cons_self) (by simp [Act.isRemoval])
          rw [Act.result_of_not_replaces hne,
            Act.fills_of_isRemoval (hr _ List.mem_cons_self)]
          simp
        rw [ih hr' hd' ((List.mem_cons.mp hc).resolve_left fun he => ha he.symm), hkeep]

/-- The last write to a place counts. -/
theorem Runs.of_write {v w : View} {acts : List Act} (h : Runs v acts w) {q : Place}
    {content : ByteArray} (hm : .write q content ∈ acts)
    (hq : ∀ a ∈ acts, a.replaces q = true → a = .write q content) :
    w q = some (.file content) := by
  induction h with
  | done v => exact absurd hm List.not_mem_nil
  | step hp hrest ih =>
      rename_i v w a acts
      have hq' := fun b hb => hq b (List.mem_cons_of_mem _ hb)
      by_cases hm' : .write q content ∈ acts
      · exact ih hm' hq'
      · have ha := (List.mem_cons.mp hm).resolve_right hm'
        subst ha
        have hnot : ∀ b ∈ acts, b.replaces q = false := fun b hb => by
          by_contra hne
          exact hm' (hq' b hb (by simpa using hne) ▸ hb)
        rw [hrest.of_not_replaces hnot]
        simp [Act.result]

/-- An act fills places on the way to its own only. -/
theorem Act.fills_of_not_above {a : Act} {q : Place} (h : ¬ q <+: a.place) :
    a.fills q = false := by
  cases a with
  | drop place => rfl
  | clear place => rfl
  | make place => simpa [Act.fills, Act.place, ← Bool.not_eq_true] using h
  | write place content =>
      have hn : ¬ q <+: place.dropLast := fun hp => h (hp.trans (List.dropLast_prefix place))
      simpa [Act.fills, ← Bool.not_eq_true] using hn

/-- A file that goes before anything is made below its place. -/
theorem Runs.of_drop_of_pairwise {v w : View} {acts : List Act} (h : Runs v acts w) {q : Place}
    (hp : acts.Pairwise fun a b => ¬ b.place <+: a.place) (hm : .drop q ∈ acts) :
    v q ≠ some .dir ∧ w q = opened q acts := by
  induction h with
  | done v => exact absurd hm List.not_mem_nil
  | step hpos hrest ih =>
      rename_i v w a acts
      obtain ⟨hfirst, hp'⟩ := List.pairwise_cons.mp hp
      by_cases ha : a = .drop q
      · subst ha
        refine ⟨hpos, ?_⟩
        rw [hrest.of_not_replaces, opened_cons]
        · simp [Act.result, Act.fills]
        · intro b hb
          refine Act.replaces_of_place_ne fun he => hfirst b hb ?_
          rw [he]
          exact List.prefix_refl q
      · have hm' := (List.mem_cons.mp hm).resolve_left fun he => ha he.symm
        have hnot : ¬ q <+: a.place := hfirst _ hm'
        have hfills := Act.fills_of_not_above hnot
        have hreplaces : a.replaces q = false :=
          Act.replaces_of_place_ne fun he => hnot (he ▸ List.prefix_refl _)
        have hkeep : a.result v q = v q := by
          rw [Act.result_of_not_replaces hreplaces, hfills]
          simp
        obtain ⟨hv, hw⟩ := ih hp' hm'
        rw [hkeep] at hv
        refine ⟨hv, ?_⟩
        rw [hw, opened_cons, hfills]
        simp

/-! ## Which acts can be carried out -/

/-- A file that goes was no directory. -/
theorem Runs.ne_dir_of_drop {v w : View} {acts : List Act} (h : Runs v acts w)
    (hr : ∀ a ∈ acts, a.isRemoval = true) {q : Place} (hd : .drop q ∈ acts)
    (hc : .clear q ∉ acts) : v q ≠ some .dir := by
  induction h with
  | done v => exact absurd hd List.not_mem_nil
  | @step v w a acts hp hrest ih =>
      by_cases ha : a = .drop q
      · subst ha
        exact hp
      · have hnext := ih (fun b hb => hr b (List.mem_cons_of_mem _ hb))
          ((List.mem_cons.mp hd).resolve_left fun he => ha he.symm)
          fun hm => hc (List.mem_cons_of_mem _ hm)
        have hkept : a.result v q = v q := by
          refine (Act.result_of_isRemoval (hr a List.mem_cons_self) v q).resolve_right ?_
          rintro ⟨rfl, -⟩
          cases a with
          | drop place => exact ha rfl
          | clear place => exact hc List.mem_cons_self
          | make place => exact absurd (hr _ List.mem_cons_self) Bool.false_ne_true
          | write place content => exact absurd (hr _ List.mem_cons_self) Bool.false_ne_true
        rwa [hkept] at hnext

/-- Removals of which deeper ones come first, no file to go is a directory, and whatever a directory
to go holds goes as well. -/
structure Removals (v : View) (acts : List Act) : Prop where
  removal : ∀ a ∈ acts, a.isRemoval = true
  deepest : acts.Pairwise fun a b => ¬ a.place <+: b.place
  files : ∀ q, .drop q ∈ acts → v q ≠ some .dir
  held : ∀ q, .clear q ∈ acts → v q = some .dir → ∀ name, v (q ++ [name]) = none ∨
    .drop (q ++ [name]) ∈ acts ∨
    .clear (q ++ [name]) ∈ acts ∧ v (q ++ [name]) = some .dir

namespace Removals

variable {v : View} {a : Act} {acts : List Act}

theorem possible (h : Removals v (a :: acts)) : a.Possible v := by
  cases a with
  | drop place => exact h.files place List.mem_cons_self
  | clear place =>
      -- What the directory holds would have gone before.
      have hlater : ∀ b ∈ acts, ∀ name, b.place ≠ place ++ [name] := fun b hb name he =>
        List.rel_of_pairwise_cons h.deepest hb (he ▸ List.prefix_append _ _)
      intro hv name
      rcases h.held place List.mem_cons_self hv name with hnone | hdrop | ⟨hclear, -⟩
      · exact hnone
      · exact absurd rfl (hlater _ ((List.mem_cons.mp hdrop).resolve_left nofun) name)
      · refine absurd rfl (hlater _ ((List.mem_cons.mp hclear).resolve_left ?_) name)
        simp
  | make place => trivial
  | write place content => exact absurd (h.removal _ List.mem_cons_self) Bool.false_ne_true

theorem rest (h : Removals v (a :: acts)) : Removals (a.result v) acts := by
  have hstep : ∀ q, a.result v q = v q ∨ a.result v q = none := fun q =>
    (Act.result_of_isRemoval (h.removal a List.mem_cons_self) v q).imp_right And.right
  have hdir : ∀ q, a.result v q = some .dir → v q = some .dir := fun q he =>
    (hstep q).elim (fun hkept => hkept ▸ he) fun hnone => absurd (hnone.symm.trans he) nofun
  refine ⟨fun b hb => h.removal b (List.mem_cons_of_mem _ hb), h.deepest.of_cons,
    fun q hq he => h.files q (List.mem_cons_of_mem _ hq) (hdir q he), fun q hq he name => ?_⟩
  rcases h.held q (List.mem_cons_of_mem _ hq) (hdir q he) name with
    hnone | hdrop | ⟨hclear, hchild⟩
  · exact .inl ((hstep _).elim (fun hkept => hkept.trans hnone) id)
  · rcases List.mem_cons.mp hdrop with rfl | hdrop
    · exact .inl (View.put_self _ _ _)
    · exact .inr (.inl hdrop)
  · rcases List.mem_cons.mp hclear with rfl | hclear
    · exact .inl (by rw [Act.result, if_pos hchild, View.put_self])
    · exact (hstep _).symm.imp_right fun hkept => .inr ⟨hclear, hkept.trans hchild⟩

theorem exists_runs (h : Removals v acts) : ∃ w, Runs v acts w := by
  induction acts generalizing v with
  | nil => exact ⟨v, .done v⟩
  | cons a acts ih =>
      obtain ⟨w, hw⟩ := ih h.rest
      exact ⟨w, .step h.possible hw⟩

end Removals

/-- Directories that are made, files that are written, but none below a file, and files to go that
are no directories and do not become ones. -/
structure Unhindered (v : View) (acts : List Act) : Prop where
  drops : ∀ a ∈ acts, a.isRemoval = true →
    ∃ q, a = .drop q ∧ v q ≠ some .dir ∧ ∀ b ∈ acts, b.fills q = false
  writes : ∀ q content, .write q content ∈ acts → ∀ content',
    v q.dropLast ≠ some (.file content') ∧ .write q.dropLast content' ∉ acts

namespace Unhindered

variable {v : View} {a : Act} {acts : List Act}

theorem possible (h : Unhindered v (a :: acts)) : a.Possible v := by
  cases a with
  | drop place =>
      obtain ⟨q, hq, hv, -⟩ := h.drops _ List.mem_cons_self rfl
      exact Act.drop.inj hq ▸ hv
  | clear place =>
      obtain ⟨q, hq, -⟩ := h.drops _ List.mem_cons_self rfl
      exact absurd hq nofun
  | make place => trivial
  | write place content =>
      exact fun content' => (h.writes place content List.mem_cons_self content').1

theorem rest (h : Unhindered v (a :: acts)) : Unhindered (a.result v) acts := by
  refine ⟨fun b hb hremoval => ?_, fun q content hq content' => ?_⟩
  · obtain ⟨q, rfl, hv, hfills⟩ := h.drops b (List.mem_cons_of_mem _ hb) hremoval
    refine ⟨q, rfl, ?_, fun c hc => hfills c (List.mem_cons_of_mem _ hc)⟩
    rcases a.result_cases v q with hkept | ⟨-, -, hgone⟩ | ⟨content, -, hwritten⟩
    · simpa [hkept, hfills a List.mem_cons_self] using hv
    · simp [hgone]
    · simp [hwritten]
  · obtain ⟨hv, hnot⟩ := h.writes q content (List.mem_cons_of_mem _ hq) content'
    refine ⟨?_, fun hm => hnot (List.mem_cons_of_mem _ hm)⟩
    rcases a.result_cases v q.dropLast with hkept | ⟨-, -, hgone⟩ | ⟨c, rfl, -⟩
    · rw [hkept]
      cases hvq : v q.dropLast with
      | none => split <;> simp
      | some item => rwa [Option.some_or, ← hvq]
    · simp [hgone]
    · exact absurd List.mem_cons_self (h.writes q content (List.mem_cons_of_mem _ hq) c).2

theorem exists_runs (h : Unhindered v acts) : ∃ w, Runs v acts w := by
  induction acts generalizing v with
  | nil => exact ⟨v, .done v⟩
  | cons a acts ih =>
      obtain ⟨w, hw⟩ := ih h.rest
      exact ⟨w, .step h.possible hw⟩

end Unhindered

/-- Files that are not there go without anything being done. -/
theorem Runs.of_drops {v : View} {acts : List Act}
    (h : ∀ a ∈ acts, ∃ q, a = .drop q ∧ v q = none) : Runs v acts v := by
  induction acts with
  | nil => exact .done v
  | cons a acts ih =>
      obtain ⟨q, rfl, hq⟩ := h a List.mem_cons_self
      have hkept : (Act.drop q).result v = v := by
        funext p
        by_cases hp : q = p
        · rw [Act.result, ← hp, View.put_self, hq]
        · exact View.put_of_ne _ _ hp
      refine .step (by simp [Act.Possible, hq]) ?_
      rw [hkept]
      exact ih fun b hb => h b (List.mem_cons_of_mem _ hb)

end VendorBundle
