import VendorBundle.Proofs.Memory.Written
import VendorBundle.Proofs.Tree.Complete
import VendorBundle.Proofs.Tree.Diff

/-!
# Equal tokens mean equal contents

Two listings of a tree may be taken at any two moments of a run. Files that have one token in them
hold the same bytes, even at different paths: a time of modification belongs to one write, and a
digest to one content. So a file that the patch between the listings is not about is as it was.
-/

namespace VendorBundle

open Entry Memory

/-- What tells contents apart: there are more ticks of the clock than writes, or no two of the
contents have one digest. -/
def TokenMode.TellsApart (contents : List ByteArray) : TokenMode → Prop
  | .stat => contents.length < UInt64.size
  | .content => ∀ a ∈ contents, ∀ b ∈ contents, Digest.hex a = Digest.hex b → a = b

/-- Both file systems hold the same bytes at a path and at another. -/
def SameBytes (m m' : Memory) (path path' : Path) : Prop :=
  ∃ bytes, Files.read m path = .ok bytes ∧ Files.read m' path' = .ok bytes

/-- What two listings of a tree, in two states, tell of the contents of its files. -/
structure TokensTell (m m' : Memory) (root : Path) (entries entries' : List Entry) : Prop where
  /-- Files with one token hold the same bytes. -/
  same : ∀ e ∈ entries, ∀ e' ∈ entries', e.kind = .file → e'.kind = .file → e.token = e'.token →
    SameBytes m m' (root.join ⟨e.path⟩) (root.join ⟨e'.path⟩)
  /-- A path that the patch is not about is listed as the same kind, or not at all, and a file at it
  holds the same bytes. -/
  untouched : ∀ path, (∀ op ∈ Patch.between entries entries', op.path ≠ path) →
    kindAt? entries path = kindAt? entries' path ∧
      (kindAt? entries path = some .file →
        SameBytes m m' (root.join ⟨path⟩) (root.join ⟨path⟩))

namespace Memory

theorem named_ran (cwd : Path) (ops : List Operation) : (ran cwd ops).Named :=
  named_history cwd ops

/-- A file that is listed stands below the root, and its token is that of its content and time. -/
theorem file_of_mem_listing {m : Memory} (hm : m.Named) {root : Path} {options : ListOptions}
    {e : Entry} (he : e ∈ m.listing root options) (hk : e.kind = .file) :
    ∃ content time, m.node? (root.join ⟨e.path⟩).resolved = some (.file content time) ∧
      e.token = options.tokenMode.token content time := by
  obtain ⟨names, node, hl, rfl⟩ := (mem_listing_iff_leads hm).mp he
  rw [resolved_join_entry hm hl]
  cases node with
  | dir => cases hk
  | file content time => exact ⟨content, time, hl.node, rfl⟩

section

variable {cwd : Path} {ops first second : List Operation} {options options' : ListOptions}

/-- Files with one token hold the same, at any two moments of a run. -/
theorem content_of_same_token (ht : options.tokenMode.TellsApart ((empty cwd).log ops))
    (hf : first <+: ops) (hs : second <+: ops) {place place' : Place}
    {content content' : ByteArray} {time time' : UInt64}
    (hn : (ran cwd first).node? place = some (.file content time))
    (hn' : (ran cwd second).node? place' = some (.file content' time'))
    (h : options.tokenMode.token content time = options'.tokenMode.token content' time') :
    content = content' := by
  cases hmode : options.tokenMode with
  | stat =>
      rw [hmode] at ht h
      cases hmode' : options'.tokenMode with
      | stat =>
          rw [hmode'] at h
          obtain rfl := TokenMode.time_eq_of_stat h
          exact content_of_same_time ht hf hs hn hn'
      | content =>
          rw [hmode'] at h
          cases h
  | content =>
      rw [hmode] at ht h
      cases hmode' : options'.tokenMode with
      | stat =>
          rw [hmode'] at h
          cases h
      | content =>
          rw [hmode'] at h
          exact ht _ (content_mem_log hf hn) _ (content_mem_log hs hn') (ChangeToken.content.inj h)

/-- At any two moments of a run, files that are listed with one token hold the same bytes, and so
does a file that the patch between the listings is not about. -/
theorem same_tokens_same_bytes (ht : options.tokenMode.TellsApart ((empty cwd).log ops))
    (hf : first <+: ops) (hs : second <+: ops) (root : Path) :
    ∃ entries entries', listTree (ran cwd first) root options = .ok entries ∧
      listTree (ran cwd second) root options' = .ok entries' ∧
      TokensTell (ran cwd first) (ran cwd second) root entries entries' := by
  have hm := named_ran cwd first
  have hm' := named_ran cwd second
  have hsame : ∀ e ∈ (ran cwd first).listing root options,
      ∀ e' ∈ (ran cwd second).listing root options', e.kind = .file → e'.kind = .file →
      e.token = e'.token →
        SameBytes (ran cwd first) (ran cwd second) (root.join ⟨e.path⟩) (root.join ⟨e'.path⟩) := by
    intro e he e' he' hk hk' htoken
    obtain ⟨content, time, hn, htime⟩ := file_of_mem_listing hm he hk
    obtain ⟨content', time', hn', htime'⟩ := file_of_mem_listing hm' he' hk'
    rw [htime, htime'] at htoken
    obtain rfl := content_of_same_token ht hf hs hn hn' htoken
    exact ⟨content, read_of_file hn, read_of_file hn'⟩
  refine ⟨_, _, listTree_eq_listing hm root options, listTree_eq_listing hm' root options', hsame,
    fun path hno => ?_⟩
  rcases Patch.same_of_no_op (ascending_listing hm root options)
    (ascending_listing hm' root options') hno with ⟨hold, hnew⟩ | ⟨old, new, hold, hnew, hk, htoken⟩
  · simp [kindAt?, hold, hnew]
  · rw [kindAt?, kindAt?, hold, hnew, Option.map_some, Option.map_some, hk]
    refine ⟨rfl, fun hfile => ?_⟩
    have hfile := Option.some.inj hfile
    have hbytes := hsame old (entryAt?_mem hold) new (entryAt?_mem hnew) (hk.trans hfile) hfile
      (htoken (hk.trans hfile))
    rwa [entryAt?_path hold, entryAt?_path hnew] at hbytes

end

/-! ## A file that is copied and written again -/

/-- A file is copied and then written again, with as many bytes as it had. -/
def rewriting : List Operation :=
  [.addFile "/src/a.js" "old".toUTF8, .copy "/src/a.js" "/src/b.js",
    .write "/src/a.js" "new".toUTF8]

/-- The patch over the last write is not about the copy, which holds what it held. -/
theorem rewriting_same_bytes :
    TokenMode.stat.TellsApart ((empty "/").log rewriting) ∧ rewriting.take 2 <+: rewriting ∧
    ∃ entries entries', listTree (ran "/" (rewriting.take 2)) "/src" {} = .ok entries ∧
      listTree (ran "/" rewriting) "/src" {} = .ok entries' ∧
      TokensTell (ran "/" (rewriting.take 2)) (ran "/" rewriting) "/src" entries entries' ∧
      (Patch.between entries entries').map PatchOp.path = ["a.js"] ∧
      SameBytes (ran "/" (rewriting.take 2)) (ran "/" rewriting) "/src/b.js" "/src/b.js" := by
  have ht : TokenMode.stat.TellsApart ((empty "/").log rewriting) := by
    rw [TokenMode.TellsApart]
    decide +kernel
  have hf : rewriting.take 2 <+: rewriting := List.take_prefix 2 rewriting
  obtain ⟨entries, entries', he, he', htell⟩ :=
    @same_tokens_same_bytes _ _ _ _ {} {} ht hf List.prefix_rfl "/src"
  have hwalked : Ascending ((ran "/" (rewriting.take 2)).walked "/src" {}) := by decide +kernel
  have hwalked' : Ascending ((ran "/" rewriting).walked "/src" {}) := by decide +kernel
  obtain rfl := Except.ok.inj (he.symm.trans (listTree_eq_walked (named_ran _ _) hwalked))
  obtain rfl := Except.ok.inj (he'.symm.trans (listTree_eq_walked (named_ran _ _) hwalked'))
  have hpatch : (Patch.between ((ran "/" (rewriting.take 2)).walked "/src" {})
      ((ran "/" rewriting).walked "/src" {})).map PatchOp.path = ["a.js"] := by decide +kernel
  refine ⟨ht, hf, _, _, he, he', htell, hpatch, (htell.untouched "b.js" ?_).2 (by decide +kernel)⟩
  intro op hop hpath
  have hmem : op.path ∈ _ := List.mem_map_of_mem hop
  rw [hpatch, hpath] at hmem
  simp at hmem

end Memory

end VendorBundle
