/-!
# Tables

A table maps keys to values and lists its entries in strictly ascending key order, so two tables
with the same entries are equal and every walk over a table visits its keys in that order.
-/

namespace VendorBundle

variable {κ : Type} {α β : Type} [Ord κ]

/-- A finite map whose entries stand in strictly ascending key order. -/
structure Table (κ α : Type) [Ord κ] where
  entries : List (κ × α)
  ascending : entries.Pairwise (fun a b => compare a.1 b.1 = .lt)

namespace Table

theorem ext_entries {s t : Table κ α} (h : s.entries = t.entries) : s = t := by
  cases s; cases t; cases h; rfl

instance [DecidableEq κ] [DecidableEq α] : DecidableEq (Table κ α) := fun s t =>
  if h : s.entries = t.entries then isTrue (ext_entries h)
  else isFalse (fun he => h (he ▸ rfl))

def empty : Table κ α := ⟨[], .nil⟩

instance : EmptyCollection (Table κ α) := ⟨empty⟩
instance : Inhabited (Table κ α) := ⟨empty⟩

/-! ## Operations on the entries -/

/-- The entries with `k` bound to `v`, in the place its order gives it. -/
def place (k : κ) (v : α) : List (κ × α) → List (κ × α)
  | [] => [(k, v)]
  | (k', v') :: rest =>
      match compare k k' with
      | .lt => (k, v) :: (k', v') :: rest
      | .eq => (k, v) :: rest
      | .gt => (k', v') :: place k v rest

/-- The value of the first entry whose key compares equal to `k`. -/
def find? (k : κ) : List (κ × α) → Option α
  | [] => none
  | (k', v) :: rest => if compare k k' = .eq then some v else find? k rest

theorem mem_place {k : κ} {v : α} {e : κ × α} {es : List (κ × α)} (h : e ∈ place k v es) :
    e = (k, v) ∨ e ∈ es := by
  induction es with
  | nil => simpa [place] using h
  | cons hd rest ih =>
      obtain ⟨k', v'⟩ := hd
      simp only [place] at h
      split at h
      · simpa using h
      · rcases List.mem_cons.mp h with h | h
        · exact .inl h
        · exact .inr (List.mem_cons_of_mem _ h)
      · rcases List.mem_cons.mp h with h | h
        · exact .inr (h ▸ List.mem_cons_self)
        · exact (ih h).imp_right (List.mem_cons_of_mem _)

theorem place_ascending [Std.TransOrd κ] [Std.LawfulEqOrd κ] {k : κ} {v : α}
    {es : List (κ × α)} (h : es.Pairwise (fun a b => compare a.1 b.1 = .lt)) :
    (place k v es).Pairwise (fun a b => compare a.1 b.1 = .lt) := by
  induction es with
  | nil => simp [place]
  | cons hd rest ih =>
      obtain ⟨k', v'⟩ := hd
      obtain ⟨hh, ht⟩ := List.pairwise_cons.mp h
      simp only [place]
      split
      · rename_i hlt
        refine List.pairwise_cons.mpr ⟨fun e he => ?_, h⟩
        rcases List.mem_cons.mp he with rfl | he
        · exact hlt
        · exact Std.TransCmp.lt_trans hlt (hh e he)
      · rename_i heq
        have := Std.LawfulEqCmp.eq_of_compare heq
        subst this
        exact List.pairwise_cons.mpr ⟨hh, ht⟩
      · rename_i hgt
        refine List.pairwise_cons.mpr ⟨fun e he => ?_, ih ht⟩
        rcases mem_place he with rfl | he
        · exact Std.OrientedCmp.gt_iff_lt.mp hgt
        · exact hh e he

/-! ## The public interface -/

def get? (t : Table κ α) (k : κ) : Option α := find? k t.entries

def contains (t : Table κ α) (k : κ) : Bool := (t.get? k).isSome

def insert [Std.TransOrd κ] [Std.LawfulEqOrd κ] (t : Table κ α) (k : κ) (v : α) : Table κ α :=
  ⟨place k v t.entries, place_ascending t.ascending⟩

/-- Binds `k` to `v` unless `k` is bound already. -/
def insertIfNew [Std.TransOrd κ] [Std.LawfulEqOrd κ] (t : Table κ α) (k : κ) (v : α) :
    Table κ α :=
  if t.contains k then t else t.insert k v

/-- The entries that satisfy `p`. -/
def filter (t : Table κ α) (p : κ → α → Bool) : Table κ α :=
  ⟨t.entries.filter (fun e => p e.1 e.2), t.ascending.sublist List.filter_sublist⟩

def erase (t : Table κ α) (k : κ) : Table κ α :=
  t.filter (fun k' _ => compare k k' != .eq)

def map (t : Table κ α) (f : α → β) : Table κ β :=
  ⟨t.entries.map (fun e => (e.1, f e.2)),
    List.pairwise_map.mpr t.ascending⟩

def keys (t : Table κ α) : List κ := t.entries.map (·.1)

def values (t : Table κ α) : List α := t.entries.map (·.2)

def size (t : Table κ α) : Nat := t.entries.length

def isEmpty (t : Table κ α) : Bool := t.entries.isEmpty

/-- Later bindings of a key replace earlier ones. -/
def ofList [Std.TransOrd κ] [Std.LawfulEqOrd κ] (es : List (κ × α)) : Table κ α :=
  es.foldl (fun t e => t.insert e.1 e.2) empty

end Table

end VendorBundle
