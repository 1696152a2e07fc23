import VendorBundle.Proofs.Json.Overlay
import VendorBundle.Proofs.Json.Text

/-!
# Forms that are read back

What is written of a value is read as that value again. This passes from the members of a record to
the record: an object is read by the names of its members, whatever their order and whatever stands
beside them, and an array by their places.
-/

namespace VendorBundle

open Effect Json

/-- Types whose values are read back as they were written. -/
class LawfulForm (α : Type) [JsonForm α] : Prop where
  ofJson?_toJson (a : α) : ofJson? (toJson a) = some a

export LawfulForm (ofJson?_toJson)

attribute [simp] ofJson?_toJson

variable {α : Type} [JsonForm α]

/-! ## Simple values -/

instance : LawfulForm String := ⟨fun _ => rfl⟩

instance : LawfulForm Path := ⟨fun _ => rfl⟩

instance : LawfulForm UInt64 where
  ofJson?_toJson n := by
    have hn : n.toNat < UInt64.size := n.toNat_lt_size
    have hread : nat? (.ofNat n.toNat) = some n.toNat := by
      rw [ofNat, nat?, if_pos (by simpa using Int.ofNat_lt.mpr hn), Int.toNat_natCast]
    change (nat? (.ofNat n.toNat)).map Nat.toUInt64 = some n
    rw [hread]
    simp

/-- An optional value is read back unless what is written of it is null. -/
theorem ofJson?_toJson_option [LawfulForm α] (h : ∀ a : α, toJson a ≠ .null) (o : Option α) :
    ofJson? (toJson o) = some o := by
  cases o with
  | none => rfl
  | some a =>
      have hread : ofJson? (toJson a) = some a := ofJson?_toJson a
      change ofJson? (toJson a) = some (some a)
      cases hv : toJson a with
      | null => exact absurd hv (h a)
      | _ =>
          rw [hv] at hread
          exact congrArg (Option.map some) hread

/-! ## Lists and tables -/

instance [LawfulForm α] : LawfulForm (List α) where
  ofJson?_toJson items := by
    change (items.map toJson).mapM ofJson? = some items
    simp [mapM_eq_some_iff, Function.comp_def]

theorem Json.lookup_of_mem {members : List (String × Json)} (hn : (members.map (·.1)).Nodup)
    {m : String × Json} (hm : m ∈ members) : lookup m.1 members = some m.2 := by
  obtain ⟨front, rest, rfl⟩ := List.append_of_mem hm
  rw [List.map_append, List.map_cons, List.nodup_append] at hn
  have hrest : lookup m.1 rest = none := lookup_eq_none_iff.mpr fun n hn' he =>
    (List.nodup_cons.mp hn.2.1).1 (he ▸ List.mem_map_of_mem hn')
  rw [lookup_append, lookup_cons, hrest, if_pos rfl]
  rfl

instance [LawfulForm α] : LawfulForm (Table String α) where
  ofJson?_toJson t := by
    have hkeys : ((t.entries.map fun e => (e.1, toJson e.2)).map (·.1)).Nodup := by
      rw [List.map_map]
      exact t.keys_nodup
    refine JsonForm.ofJson?_table_eq_some_iff.mpr ⟨fun m hm => ?_, fun k => ?_⟩
    · obtain ⟨e, -, rfl⟩ := List.mem_map.mp hm
      simp
    · cases hk : t.get? k with
      | none =>
          have hnone : lookup k (t.entries.map fun e => (e.1, toJson e.2)) = none := by
            refine lookup_eq_none_iff.mpr fun m hm he => ?_
            obtain ⟨e, hmem, rfl⟩ := List.mem_map.mp hm
            exact Table.get?_eq_none_iff.mp hk (he ▸ List.mem_map_of_mem hmem)
          rw [hnone]
          rfl
      | some a =>
          have hmem := List.mem_map_of_mem (f := fun e => (e.1, toJson e.2))
            (Table.get?_eq_some_iff.mp hk)
          rw [lookup_of_mem hkeys hmem]
          simp

/-! ## Records -/

/-- The members that are written of a value. -/
def written (a : α) : List (String × Json) := (toJson a).object?.getD []

namespace Record

/-- The record gives what is written: each member by its name, or its value by its place. -/
def Gives (r : Record) (written : List (String × Json)) : Prop :=
  ∀ i m, written[i]? = some m → r.field? i m.1 = some m.2

variable {r : Record} {members missing written : List (String × Json)} {index : Nat} {key : String}

theorem gives_named (h : ∀ m ∈ written, lookup m.1 members = some m.2) :
    (named members).Gives written :=
  fun _ m hm => h m (List.mem_of_getElem? hm)

theorem gives_listed (written : List (String × Json)) :
    (listed (written.map (·.2))).Gives written := by
  intro i m hm
  simp [field?, hm]

theorem Gives.items_eq {items : List Json} (h : (listed items).Gives written)
    (hl : items.length ≤ written.length) : items = written.map (·.2) := by
  refine List.ext_getElem? fun i => ?_
  rw [List.getElem?_map]
  cases hm : written[i]? with
  | none => exact List.getElem?_eq_none (Nat.le_trans hl (List.getElem?_eq_none_iff.mp hm))
  | some m => exact h i m hm

/-! ### Members that are given -/

theorem required_of_field? [LawfulForm α] {a : α} (h : r.field? index key = some (toJson a)) :
    r.required index key = some a := by
  rw [required, h]
  simp

theorem withDefault_of_field? [LawfulForm α] {a : α} (h : r.field? index key = some (toJson a))
    (default : α) : r.withDefault index key default = some a := by
  rw [withDefault, h]
  simp

theorem optional_of_field? [LawfulForm α] (hnull : ∀ a : α, toJson a ≠ .null) {o : Option α}
    (h : r.field? index key = some (toJson o)) : r.optional index key = some o := by
  simp only [optional, h, ofJson?_toJson_option hnull]

/-! ### Members that are missing -/

/-- Members in front of others are seen where those leave out the key. -/
theorem field?_missing : (named (missing ++ members)).field? index key =
    ((named members).field? index key).or (lookup key missing) :=
  lookup_append key missing members

theorem required_missing (h : lookup key missing = none) :
    (named (missing ++ members)).required index key =
      ((named members).required index key : Option α) := by
  rw [required, field?_missing, h, Option.or_none, required]

theorem withDefault_missing [LawfulForm α] {default : α}
    (h : lookup key missing = some (toJson default)) :
    (named (missing ++ members)).withDefault index key default =
      (named members).withDefault index key default := by
  rw [withDefault, field?_missing, h, withDefault]
  cases (named members).field? index key <;> simp

theorem optional_missing (h : lookup key missing = some .null) :
    (named (missing ++ members)).optional index key =
      ((named members).optional index key : Option (Option α)) := by
  simp only [optional, field?_missing, h]
  cases (named members).field? index key <;> rfl

end Record

/-- Types whose values are written as objects, and read from each record that gives what is written.
Of an object the `missing` members may be left out. -/
structure RecordForm (α : Type) [JsonForm α] (missing : List (String × Json)) : Prop where
  toJson_eq (a : α) : toJson a = .object (written a)
  nodup (a : α) : ((written a).map (·.1)).Nodup
  ofJson?_of_gives (a : α) {v : Json} {r : Record} :
    Record.ofJson? (written a).length v = some r → r.Gives (written a) → ofJson? v = some a
  ofJson?_missing (members : List (String × Json)) :
    ofJson? (.object (missing ++ members)) = (ofJson? (.object members) : Option α)

namespace RecordForm

variable {missing : List (String × Json)}

theorem ofJson?_object (h : RecordForm α missing) (a : α) {members : List (String × Json)}
    (hm : ∀ m ∈ written a, lookup m.1 (missing ++ members) = some m.2) :
    ofJson? (.object members) = some a := by
  rw [← h.ofJson?_missing]
  exact h.ofJson?_of_gives a rfl (Record.gives_named hm)

theorem ofJson?_array (h : RecordForm α missing) (a : α) :
    ofJson? (.array ((written a).map (·.2))) = some a :=
  h.ofJson?_of_gives a (if_pos (by simp)) (Record.gives_listed _)

theorem lawful (h : RecordForm α missing) : LawfulForm α where
  ofJson?_toJson a := by
    rw [h.toJson_eq]
    exact h.ofJson?_of_gives a rfl (Record.gives_named fun m hm => lookup_of_mem (h.nodup a) hm)

end RecordForm

/-! ## Forms as text -/

/-- Types whose values are written with numbers that fit in 64 bits, and in which arrays and objects
nest at most `depth` deep. -/
class PlainForm (α : Type) [JsonForm α] (depth : Nat) : Prop where
  plain (a : α) : Plain depth (toJson a)

export PlainForm (plain)

attribute [simp] plain

variable {depth : Nat}

instance : PlainForm String depth := ⟨.string⟩

instance : PlainForm Path depth := ⟨fun p => .string p.text⟩

instance : PlainForm UInt64 depth := ⟨fun n => .number n.toNat_lt_size⟩

instance [PlainForm α depth] : PlainForm (Option α) depth where
  plain
    | none => .null
    | some a => plain a

instance [PlainForm α depth] : PlainForm (List α) (depth + 1) :=
  ⟨fun _ => .array (List.forall_mem_map.mpr fun a _ => plain a)⟩

instance [PlainForm α depth] : PlainForm (Table String α) (depth + 1) :=
  ⟨fun _ => .object (List.forall_mem_map.mpr fun e _ => plain e.2)⟩

/-- The text of what is written is read back. -/
theorem ofJson?_render [LawfulForm α] [PlainForm α 127] (a : α) :
    (parse? (toJson a).render).bind ofJson? = some a := by
  rw [parse?_render (plain a), Option.bind_some, ofJson?_toJson]

end VendorBundle
