import Mathlib.Tactic.Common
import VendorBundle.Json.Codec
import VendorBundle.Json.Overlay
import VendorBundle.Proofs.Effect
import VendorBundle.Proofs.Table

/-!
# What is seen in values laid over one another

Members laid over others are looked up above first. Where both bind a key, objects are merged and
everything else gives way. So a field that the upper members leave out keeps the value below it, and
a field that they have is read as it stands, unless both values are objects.
-/

namespace VendorBundle.Json

variable {key : String} {value : Json} {under upper members : List (String × Json)}

/-! ## Members -/

theorem lookup_cons (key : String) (m : String × Json) (members : List (String × Json)) :
    lookup key (m :: members) =
      (lookup key members).or (if m.1 = key then some m.2 else none) := by
  rw [lookup]
  cases lookup key members <;> rfl

theorem lookup_append (key : String) (under upper : List (String × Json)) :
    lookup key (under ++ upper) = (lookup key upper).or (lookup key under) := by
  induction under with
  | nil => simp [lookup]
  | cons m under ih => rw [List.cons_append, lookup_cons, ih, lookup_cons, Option.or_assoc]

theorem lookup_eq_none_iff : lookup key members = none ↔ ∀ m ∈ members, m.1 ≠ key := by
  induction members with
  | nil => simp [lookup]
  | cons m members ih => simp [lookup_cons, ih, and_comm]

theorem lookup_filter_ne (key k : String) (members : List (String × Json)) :
    lookup k (members.filter fun m => !(m.1 == key)) =
      if key = k then none else lookup k members := by
  induction members with
  | nil => simp [lookup]
  | cons m members ih =>
      rw [List.filter_cons, lookup_cons]
      by_cases hk : key = k
      · subst hk
        by_cases hm : m.1 = key <;> simp_all [lookup_cons]
      · rw [if_neg hk] at ih ⊢
        by_cases hm : m.1 = key
        · simp [hm, hk, ih]
        · simp [hm, lookup_cons, ih]

theorem lookup_bind (key k : String) (value : Json) (members : List (String × Json)) :
    lookup k (bind key value members) = if key = k then some value else lookup k members := by
  rw [bind, lookup_append, lookup_filter_ne, lookup_cons]
  by_cases hk : key = k <;> simp [hk, lookup]

/-- What is seen of a value that lies over what is there of its key, if anything is. -/
def seen (value : Json) : Option Json → Json
  | some covered => overlay covered value
  | none => value

theorem overlayMembers_cons (m : String × Json) (under upper : List (String × Json)) :
    overlayMembers under (m :: upper) =
      if lookup m.1 upper = none
      then overlayMembers (bind m.1 (seen m.2 (lookup m.1 under)) under) upper
      else overlayMembers under upper := by
  have hany : upper.any (fun n => n.1 == m.1) = true ↔ ¬ lookup m.1 upper = none := by
    rw [lookup_eq_none_iff]
    simp
  rw [overlayMembers]
  by_cases h : lookup m.1 upper = none
  · rw [if_neg fun ha => hany.mp ha h, if_pos h]
    cases lookup m.1 under <;> rfl
  · rw [if_pos (hany.mpr h), if_neg h]

theorem lookup_overlayMembers (key : String) (under upper : List (String × Json)) :
    lookup key (overlayMembers under upper) = match lookup key upper with
      | some value => some (seen value (lookup key under))
      | none => lookup key under := by
  induction upper generalizing under with
  | nil => rw [overlayMembers, lookup]
  | cons m upper ih =>
      rw [overlayMembers_cons, lookup_cons]
      by_cases hm : lookup m.1 upper = none
      · rw [if_pos hm, ih, lookup_bind]
        by_cases hk : m.1 = key
        · subst hk
          simp [hm]
        · rw [if_neg hk, if_neg hk, Option.or_none]
      · rw [if_neg hm, ih]
        by_cases hk : m.1 = key
        · subst hk
          obtain ⟨v, hv⟩ := Option.ne_none_iff_exists'.mp hm
          simp [hv]
        · rw [if_neg hk, Option.or_none]

/-! ## Values -/

theorem overlay_object (under upper : List (String × Json)) :
    (object under).overlay (.object upper) = .object (overlayMembers under upper) := by
  rw [overlay]

theorem overlay_nothing (under : List (String × Json)) :
    (object under).overlay (.object []) = .object under := by
  rw [overlay_object, overlayMembers]

/-- Only an object does not give way. -/
theorem overlay_of_not_object {under : Json} (h : under.object? = none) (upper : Json) :
    under.overlay upper = upper := by
  cases upper with
  | object upper =>
      cases under with
      | object under => cases h
      | _ => rfl
  | _ => rfl

/-- Members that are not over others stand as they are, the last one of each key. -/
theorem mem_of_mem_overlayMembers {n : String × Json}
    (hnew : ∀ m ∈ upper, lookup m.1 under = none) (h : n ∈ overlayMembers under upper) :
    n ∈ under ∨ n ∈ upper := by
  induction upper generalizing under with
  | nil =>
      rw [overlayMembers] at h
      exact .inl h
  | cons m upper ih =>
      obtain ⟨hm, hupper⟩ := List.forall_mem_cons.mp hnew
      rw [overlayMembers_cons] at h
      by_cases hlast : lookup m.1 upper = none
      · rw [if_pos hlast, hm, seen] at h
        have hrest : ∀ n ∈ upper, lookup n.1 (bind m.1 m.2 under) = none := by
          intro n hn
          rw [lookup_bind, if_neg (lookup_eq_none_iff.mp hlast n hn).symm, hupper n hn]
        rcases ih hrest h with h | h
        · rcases List.mem_append.mp h with h | h
          · exact .inl (List.mem_filter.mp h).1
          · exact .inr (List.mem_singleton.mp h ▸ List.mem_cons_self)
        · exact .inr (List.mem_cons_of_mem _ h)
      · rw [if_neg hlast] at h
        exact (ih hupper h).imp_right (List.mem_cons_of_mem _)

end VendorBundle.Json

namespace VendorBundle.JsonForm

open Effect Json

variable {α : Type} [JsonForm α] {key : String} {under upper members : List (String × Json)}

/-! ## Tables -/

/-- A table is read from the last value of each key, provided that all values can be read. -/
theorem ofJson?_table_eq_some_iff {t : Table String α} : ofJson? (.object members) = some t ↔
    (∀ m ∈ members, (ofJson? m.2 : Option α).isSome) ∧
      ∀ k, t.get? k = (lookup k members).bind ofJson? := by
  have hread : (∀ m ∈ members, (ofJson? m.2 : Option α).isSome) → ∀ k,
      (Table.ofList (members.filterMap fun m => (ofJson? m.2 : Option α).map (m.1, ·))).get? k =
        (lookup k members).bind ofJson? := by
    intro hall k
    induction members using List.reverseRecOn with
    | nil => rfl
    | append_singleton members m ih =>
        obtain ⟨hmembers, hm⟩ := List.forall_mem_append.mp hall
        obtain ⟨a, ha⟩ := Option.isSome_iff_exists.mp (hm m List.mem_cons_self)
        have hlast : [m].filterMap (fun m => (ofJson? m.2 : Option α).map (m.1, ·)) =
            [(m.1, a)] := by
          rw [List.filterMap_cons_some (by rw [ha]; rfl), List.filterMap_nil]
        rw [List.filterMap_append, hlast, Table.ofList_append_singleton, Table.get?_insert,
          lookup_append, lookup_cons, ih hmembers]
        by_cases hk : m.1 = k <;> simp [hk, ha, lookup]
  change (members.mapM fun m => (ofJson? m.2 : Option α).map (m.1, ·)).map Table.ofList = some t ↔ _
  simp only [Option.map_eq_some_iff, mapM_eq_some_iff, Option.isSome_map]
  constructor
  · rintro ⟨_, ⟨hall, rfl⟩, rfl⟩
    exact ⟨hall, hread hall⟩
  · rintro ⟨hall, ht⟩
    exact ⟨_, ⟨hall, rfl⟩, Table.ext_get? fun k => (hread hall k).trans (ht k).symm⟩

/-- Nothing is changed by an empty table below. -/
theorem ofJson?_overlay_empty {v : Json} {t : Table String α} (h : ofJson? v = some t) :
    ofJson? ((object []).overlay v) = some t := by
  cases v with
  | object members =>
      obtain ⟨hall, hget⟩ := ofJson?_table_eq_some_iff.mp h
      rw [overlay_object]
      refine ofJson?_table_eq_some_iff.mpr ⟨fun m hm => ?_, fun k => ?_⟩
      · exact hall m ((mem_of_mem_overlayMembers (fun _ _ => rfl) hm).resolve_left List.not_mem_nil)
      · rw [hget, lookup_overlayMembers]
        cases lookup k members <;> rfl
  | _ => cases h

end VendorBundle.JsonForm

namespace VendorBundle

open Json

/-! ## Records -/

/-- The value is an object without the key. -/
def Json.leavesOut (key : String) : Json → Bool
  | .object members => (lookup key members).isNone
  | _ => false

namespace Record

/-- The record names its fields, and this one is not among them. -/
def leavesOut (key : String) : Record → Bool
  | named members => (lookup key members).isNone
  | listed _ => false

/-- The second record is the first one, or that one laid over others when it names its fields. -/
inductive Over (under : List (String × Json)) : Record → Record → Prop where
  | listed (items : List Json) : Over under (listed items) (listed items)
  | named (upper : List (String × Json)) :
      Over under (named upper) (named (overlayMembers under upper))

variable {under : List (String × Json)} {r r' : Record} {key : String} {covered : Json}

theorem Over.field?_of_leavesOut (h : Over under r r') (hl : r.leavesOut key) (index : Nat) :
    r'.field? index key = lookup key under := by
  cases h with
  | listed items => cases hl
  | named upper => rw [field?, lookup_overlayMembers, Option.isNone_iff_eq_none.mp hl]

/-- What gives way is not seen. -/
theorem Over.field?_of_given (h : Over under r r') (hl : r.leavesOut key = false)
    (hc : lookup key under = some covered) (ho : covered.object? = none) (index : Nat) :
    r'.field? index key = r.field? index key := by
  cases h with
  | listed items => rfl
  | named upper =>
      rw [field?, field?, lookup_overlayMembers]
      cases hk : lookup key upper with
      | none => simp [leavesOut, hk] at hl
      | some v =>
          rw [hc]
          exact congrArg some (overlay_of_not_object ho v)

theorem field?_eq_none (hl : r.leavesOut key) (index : Nat) : r.field? index key = none := by
  cases r with
  | listed items => cases hl
  | named members => exact Option.isNone_iff_eq_none.mp hl

variable {α : Type} [JsonForm α]

/-- A field whose default is what lies below is read as it is alone. -/
theorem Over.withDefault (h : Over under r r') (index : Nat) (key : String) (default : α)
    (hc : lookup key under = some covered) (ho : covered.object? = none)
    (hd : JsonForm.ofJson? covered = some default) :
    r'.withDefault index key default = r.withDefault index key default := by
  rw [Record.withDefault, Record.withDefault]
  cases hl : r.leavesOut key with
  | true =>
      rw [h.field?_of_leavesOut hl, field?_eq_none hl, hc]
      exact hd
  | false => rw [h.field?_of_given hl hc ho]

/-- So is a table over an empty one, if it can be read. -/
theorem Over.withDefault_table (h : Over under r r') {index : Nat} {key : String}
    (hc : lookup key under = some (.object [])) {t : Table String α}
    (hr : r.withDefault index key ∅ = some t) :
    r'.withDefault index key (∅ : Table String α) = r.withDefault index key ∅ := by
  cases h with
  | listed items => rfl
  | named upper =>
      rw [hr]
      rw [Record.withDefault, field?] at hr ⊢
      rw [lookup_overlayMembers, hc]
      cases hk : lookup key upper with
      | none =>
          rw [hk] at hr
          exact hr
      | some v =>
          rw [hk] at hr
          exact JsonForm.ofJson?_overlay_empty hr

end Record

end VendorBundle
