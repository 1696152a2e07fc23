import VendorBundle.Proofs.Memory.Effect

/-!
# What a program may alter

A program owns the places that it removes or writes. On the way to these it may make directories,
but only where nothing stands. Everything else is as it was, whether the program fails or not.
-/

namespace VendorBundle

open Effect

namespace Memory

/-- Only places that are owned differ, and places on the way where a directory was made. -/
def Alters (own way : Place → Prop) (m m' : Memory) : Prop :=
  ∀ place, m'.node? place = m.node? place ∨ own place ∨
    way place ∧ m.node? place = none ∧ m'.node? place = some .dir

variable {own own' way way' : Place → Prop} {m m' m'' : Memory}

theorem Alters.refl (own way : Place → Prop) (m : Memory) : Alters own way m m :=
  fun _ => .inl rfl

theorem Alters.trans (h : Alters own way m m') (h' : Alters own way m' m'') :
    Alters own way m m'' := by
  intro place
  rcases h' place with hk | ho | ⟨hw, hn, hd⟩
  · rw [hk]
    exact h place
  · exact .inr (.inl ho)
  · rcases h place with hk | ho | ⟨-, -, hd'⟩
    · exact .inr (.inr ⟨hw, hk ▸ hn, hd⟩)
    · exact .inr (.inl ho)
    · rw [hd'] at hn
      exact absurd hn nofun

theorem Alters.mono (h : Alters own way m m') (ho : ∀ place, own place → own' place)
    (hw : ∀ place, way place → way' place) : Alters own' way' m m' := by
  intro place
  rcases h place with hk | hown | ⟨hway, hd⟩
  · exact .inl hk
  · exact .inr (.inl (ho place hown))
  · exact .inr (.inr ⟨hw place hway, hd⟩)

/-- What stands at a place that is not owned stays. -/
theorem Alters.node?_of_some (h : Alters own way m m') {place : Place} (ho : ¬ own place)
    {node : Node} (hn : m.node? place = some node) : m'.node? place = some node := by
  rcases h place with hk | hown | ⟨-, hnone, -⟩
  · exact hk.trans hn
  · exact absurd hown ho
  · rw [hn] at hnone
    exact absurd hnone nofun

theorem Alters.node?_of_not (h : Alters own way m m') {place : Place} (ho : ¬ own place)
    (hw : ¬ way place) : m'.node? place = m.node? place := by
  rcases h place with hk | hown | ⟨hway, -⟩
  · exact hk
  · exact absurd hown ho
  · exact absurd hway hw

/-- Names are kept when what is owned and what is on the way has names. -/
theorem Alters.named (h : Alters own way m m') (hm : m.Named)
    (ho : ∀ place, own place → ∀ n ∈ place, IsName n)
    (hw : ∀ place, way place → ∀ n ∈ place, IsName n) : m'.Named := by
  intro place node hn
  rcases h place with hk | hown | ⟨hway, -⟩
  · exact hm place node (hk ▸ hn)
  · exact ho place hown
  · exact hw place hway

/-! ## Operations -/

theorem alters_addDir (own : Place → Prop) (m : Memory) (path : Path) :
    Alters own (· <+: path.resolved) m (m.addDir path) := by
  intro place
  rw [node?_addDir]
  by_cases hp : place <+: path.resolved
  · rw [if_pos hp]
    cases m.node? place with
    | none => exact .inr (.inr ⟨hp, rfl, rfl⟩)
    | some node => exact .inl rfl
  · rw [if_neg hp]
    exact .inl rfl

theorem alters_without (way : Place → Prop) (m : Memory) (place : Place) :
    Alters (place = ·) way m (m.without place) := by
  intro p
  rw [node?_without]
  by_cases hp : place = p
  · exact .inr (.inl hp)
  · rw [if_neg hp]
    exact .inl rfl

theorem alters_put (way : Place → Prop) (m : Memory) (place : Place) (content : ByteArray) :
    Alters (place = ·) way m (m.put place content) := by
  intro p
  rw [node?_put]
  by_cases hp : place = p
  · exact .inr (.inl hp)
  · rw [if_neg hp]
    exact .inl rfl

theorem alters_write (way : Place → Prop) (m : Memory) (path : Path) (content : ByteArray) :
    Alters (path.resolved = ·) way m (m.settle (m.write path content)) := by
  rw [write]
  split
  · exact alters_put way m path.resolved content
  · exact .refl _ _ m

theorem alters_removeFile (way : Place → Prop) (m : Memory) (path : Path) :
    Alters (path.resolved = ·) way m (m.settle (m.removeFile path)) := by
  rw [removeFile]
  split
  · exact alters_without way m path.resolved
  · exact .refl _ _ m
  · exact .refl _ _ m

theorem alters_removeDir (way : Place → Prop) (m : Memory) (path : Path) :
    Alters (path.resolved = ·) way m (m.settle (m.removeDir path)) := by
  rw [removeDir]
  split
  · split
    · exact alters_without way m path.resolved
    · exact .refl _ _ m
  · exact .refl _ _ m

end Memory

namespace Effect

open Memory

variable {own own' way way' : Place → Prop} {ε α β : Type}

theorem keeps_alters_bind {x : Effect Memory ε α} {f : α → Effect Memory ε β}
    (hx : Keeps (Alters own way) x) (hf : ∀ a, Keeps (Alters own way) (f a)) :
    Keeps (Alters own way) (x >>= f) :=
  .bind (r := Alters own way) Alters.trans hx hf

theorem keeps_alters_pure (a : α) : Keeps (Alters own way) (pure a : Effect Memory ε α) :=
  .pure (Alters.refl own way) a

theorem keeps_alters_get : Keeps (Alters own way) (get : Effect Memory ε Memory) :=
  .get (Alters.refl own way)

theorem keeps_alters_look (f : Memory → Except ε α) : Keeps (Alters own way) (Files.look f) :=
  .look (Alters.refl own way) f

theorem keeps_alters_mapM {f : α → Effect Memory ε β} (h : ∀ a, Keeps (Alters own way) (f a))
    (items : List α) : Keeps (Alters own way) (items.mapM f) :=
  .mapM (r := Alters own way) (Alters.refl own way) Alters.trans h items

theorem Keeps.mono_alters {x : Effect Memory ε α} (hx : Keeps (Alters own way) x)
    (ho : ∀ place, own place → own' place) (hw : ∀ place, way place → way' place) :
    Keeps (Alters own' way') x :=
  fun m => (hx m).mono ho hw

end Effect

end VendorBundle
