import VendorBundle.Merge.Build
import VendorBundle.Proofs.Memory.History
import VendorBundle.Proofs.Merge.View

/-!
# What a file of the result is made of

The content that a build gives a file is a function of the two input trees. It fails only where a
text or a fragment of it is not valid or a file is missing.
-/

namespace VendorBundle

theorem mapM_eq_of_forall {μ : Type → Type} [Monad μ] [LawfulMonad μ] {α β : Type} {l : List α}
    {f g : α → μ β} (h : ∀ a ∈ l, f a = g a) : l.mapM f = l.mapM g := by
  induction l with
  | nil => rfl
  | cons a l ih =>
      rw [List.mapM_cons, List.mapM_cons, h a List.mem_cons_self,
        ih fun b hb => h b (List.mem_cons_of_mem _ hb)]

namespace Memory

/-- The content of the file at a place. -/
def bytes? (m : Memory) (place : Place) : Option ByteArray :=
  match m.node? place with
  | some (.file content _) => some content
  | _ => none

/-- The text of the file at a place. -/
def text? (m : Memory) (place : Place) : Option String :=
  (m.bytes? place).bind fun bytes => (Text.Utf8.decode bytes).toOption

/-- The names of the files with an extension in a directory. -/
def filesWith (m : Memory) (dir : Place) (extension : String) : List String :=
  (m.children dir).filter fun name =>
    extensionOf? name == some extension && (m.bytes? (dir ++ [name])).isSome

/-- The texts of the files with an extension in a directory, in the order of their names. -/
def fragments? (m : Memory) (dir : Place) (extension : String) : Option (List String) :=
  if m.node? dir = some .dir then
    (m.filesWith dir extension).mapM fun name => m.text? (dir ++ [name])
  else some []

theorem bytes?_eq_some_iff {m : Memory} {place : Place} {content : ByteArray} :
    m.bytes? place = some content ↔ ∃ time, m.node? place = some (.file content time) := by
  rw [bytes?]
  split
  · rename_i c t h
    simp [h]
  · rename_i h
    simp only [reduceCtorEq, false_iff, not_exists]
    exact fun t hn => h content t hn

theorem bytes?_congr {m m' : Memory} {place : Place} (h : m'.node? place = m.node? place) :
    m'.bytes? place = m.bytes? place := by
  rw [bytes?, bytes?, h]

theorem text?_congr {m m' : Memory} {place : Place} (h : m'.bytes? place = m.bytes? place) :
    m'.text? place = m.text? place := by
  rw [text?, text?, h]

theorem ascending_filesWith (m : Memory) (dir : Place) (extension : String) :
    (m.filesWith dir extension).Pairwise fun a b => compare a b = .lt :=
  (children_ascending m dir).sublist List.filter_sublist

theorem mem_filesWith {m : Memory} {dir : Place} {extension name : String} :
    name ∈ m.filesWith dir extension ↔
      extensionOf? name = some extension ∧ (m.bytes? (dir ++ [name])).isSome := by
  rw [filesWith, List.mem_filter, mem_children]
  simp only [Bool.and_eq_true, beq_iff_eq]
  constructor
  · exact fun h => h.2
  · rintro ⟨he, hb⟩
    obtain ⟨content, hc⟩ := Option.isSome_iff_exists.mp hb
    obtain ⟨time, hn⟩ := bytes?_eq_some_iff.mp hc
    exact ⟨⟨_, hn⟩, he, hb⟩

/-- The order of names makes the files of a directory a function of their contents. -/
theorem filesWith_congr {m m' : Memory} {dir : Place} {extension : String}
    (h : ∀ name, extensionOf? name = some extension →
      m'.bytes? (dir ++ [name]) = m.bytes? (dir ++ [name])) :
    m'.filesWith dir extension = m.filesWith dir extension := by
  refine eq_of_ascending (ascending_filesWith m' dir extension) (ascending_filesWith m dir extension)
    fun name => ?_
  rw [mem_filesWith, mem_filesWith]
  constructor
  · rintro ⟨he, hb⟩
    exact ⟨he, h name he ▸ hb⟩
  · rintro ⟨he, hb⟩
    exact ⟨he, (h name he).symm ▸ hb⟩

theorem fragments?_congr {m m' : Memory} {dir : Place} {extension : String}
    (hd : m'.node? dir = some .dir ↔ m.node? dir = some .dir)
    (h : ∀ name, extensionOf? name = some extension →
      m'.bytes? (dir ++ [name]) = m.bytes? (dir ++ [name])) :
    m'.fragments? dir extension = m.fragments? dir extension := by
  rw [fragments?, fragments?, filesWith_congr h]
  have htexts : (m.filesWith dir extension).mapM (fun name => m'.text? (dir ++ [name])) =
      (m.filesWith dir extension).mapM (fun name => m.text? (dir ++ [name])) :=
    mapM_eq_of_forall fun name hn => text?_congr (h name (mem_filesWith.mp hn).1)
  simp only [hd, htexts]

end Memory

namespace MergeOptions

variable (o : MergeOptions) (m : Memory)

/-- What a file of the build output becomes when the fragments from a source are added to it. -/
def mergedBytes? (target : String) (source : FragmentSource) : Option ByteArray :=
  let built := o.builtDir.resolved ++ Text.split '/' target
  (m.fragments? (o.generatedDir.resolved ++ Text.split '/' source.subdir) source.extension).bind
    fun fragments =>
      if fragments = [] then m.bytes? built
      else (m.text? built).map fun text =>
        (splice text fragments (separatorFor source.extension)).toUTF8

/-- The same, wherever the spelling of the file and of the mapped directory leads: what making the
file anew reads. -/
def made? (target : String) (source : FragmentSource) : Option ByteArray :=
  let built := (o.builtDir.join ⟨target⟩).resolved
  (m.fragments? (o.generatedDir.join ⟨source.subdir⟩).resolved source.extension).bind
    fun fragments =>
      if fragments = [] then m.bytes? built
      else (m.text? built).map fun text =>
        (splice text fragments (separatorFor source.extension)).toUTF8

theorem made?_of_canonical {target : String} {source : FragmentSource} (hc : Canonical target)
    (hs : Canonical source.subdir) : o.made? m target source = o.mergedBytes? m target source := by
  rw [made?, Path.resolved_join o.builtDir hc, Path.resolved_join o.generatedDir hs, mergedBytes?]

/-- The content of a file of the result. -/
def content? (overlay : Overlay) (path : String) : Option ByteArray :=
  match o.targets.get? path with
  | some source => o.mergedBytes? m path source
  | none =>
      match overlay.sources.get? path with
      | some source => m.bytes? (o.generatedDir.resolved ++ Text.split '/' source)
      | none => m.bytes? (o.builtDir.resolved ++ Text.split '/' path)

/-- The places of the two input trees. -/
def IsInput (place : Place) : Prop :=
  o.builtDir.resolved <+: place ∨ o.generatedDir.resolved <+: place

theorem content?_congr {m m' : Memory} (h : ∀ place, o.IsInput place → m'.node? place = m.node? place)
    (overlay : Overlay) (path : String) : o.content? m' overlay path = o.content? m overlay path := by
  have hbuilt : ∀ rest, m'.bytes? (o.builtDir.resolved ++ rest) =
      m.bytes? (o.builtDir.resolved ++ rest) := fun rest =>
    Memory.bytes?_congr (h _ (.inl (List.prefix_append _ _)))
  have hgenerated : ∀ rest, o.IsInput (o.generatedDir.resolved ++ rest) := fun rest =>
    .inr (List.prefix_append _ _)
  rw [content?, content?]
  split
  · rename_i source _
    rw [mergedBytes?, mergedBytes?, Memory.fragments?_congr (by rw [h _ (hgenerated _)])
      (fun name _ => Memory.bytes?_congr (h _ (by rw [List.append_assoc]; exact hgenerated _)))]
    simp only [hbuilt, Memory.text?_congr (hbuilt _)]
  · split
    · exact Memory.bytes?_congr (h _ (hgenerated _))
    · exact hbuilt _

end MergeOptions

end VendorBundle
