import VendorBundle.Proofs.Memory.Housed

/-!
# What was written when

Each write takes the next tick of the clock as its time, and nothing else makes a file. So a run is
known by the contents that it writes, one after the other: a file that was written at a tick holds
the content that was the one to be written then. As long as there are fewer writes than ticks, the
time of modification tells the content, wherever the file stands and whenever it is looked at.
-/

namespace VendorBundle.Memory

open Effect

/-! ## One operation -/

namespace Operation

/-- What an operation is to write, unless it fails. -/
def content? (m : Memory) : Operation → Option ByteArray
  | addFile _ content | write _ content => some content
  | copy source _ => (m.read source).toOption
  | _ => none

/-- What an operation writes: one content, or nothing. -/
def written (m : Memory) (op : Operation) : List ByteArray :=
  match op.result m with
  | .ok _ => (op.content? m).toList
  | .error _ => []

end Operation

/-- A state follows from another one by writing the given contents: the clock ticks once for each,
and a file is an old one or holds one of them, at the present tick. -/
structure Writes (m m' : Memory) (contents : List ByteArray) : Prop where
  clock : m'.clock = m.clock + .ofNat contents.length
  old_or_new : ∀ place content time, m'.node? place = some (.file content time) →
    m.node? place = some (.file content time) ∨ contents = [content] ∧ time = m.clock

variable {m m' : Memory} {place : Place} {path : Path}

theorem writes_nothing (hc : m'.clock = m.clock)
    (hf : ∀ place content time, m'.node? place = some (.file content time) →
      m.node? place = some (.file content time)) : Writes m m' [] where
  clock := by simp [hc]
  old_or_new place content time hn := .inl (hf place content time hn)

theorem file_of_getD {node : Option Node} {content : ByteArray} {time : UInt64}
    (h : some (node.getD .dir) = some (.file content time)) : node = some (.file content time) := by
  cases node with
  | none => cases h
  | some node => exact h

theorem writes_addDir (m : Memory) (path : Path) : Writes m (m.addDir path) [] := by
  refine writes_nothing rfl fun place content time hn => ?_
  rw [node?_addDir] at hn
  split at hn
  · exact file_of_getD hn
  · exact hn

theorem writes_remove (m : Memory) (path : Path) : Writes m (m.remove path) [] := by
  refine writes_nothing rfl fun place content time hn => ?_
  rw [node?_remove] at hn
  split at hn
  · cases hn
  · exact hn

theorem writes_without (m : Memory) (place : Place) : Writes m (m.without place) [] := by
  refine writes_nothing rfl fun p content time hn => ?_
  rw [node?_without] at hn
  split at hn
  · cases hn
  · exact hn

theorem writes_put (m : Memory) (place : Place) (content : ByteArray) :
    Writes m (m.put place content) [content] where
  clock := rfl
  old_or_new p c time hn := by
    rw [node?_put] at hn
    split at hn
    · cases hn
      exact .inr ⟨rfl, rfl⟩
    · exact .inl hn

theorem writes_addFile (m : Memory) (path : Path) (content : ByteArray) :
    Writes m (m.addFile path content) [content] where
  clock := clock_addFile m path content
  old_or_new p c time hn := by
    rw [node?_addFile] at hn
    split at hn
    · cases hn
      exact .inr ⟨rfl, rfl⟩
    · split at hn
      · exact .inl (file_of_getD hn)
      · exact .inl hn

theorem writes_write {content : ByteArray} (hw : m.write path content = .ok m') :
    Writes m m' [content] := by
  obtain ⟨-, -, -, -, rfl⟩ := write_eq_ok hw
  exact writes_put m path.resolved content

/-- Each operation writes what it is to write, unless it fails. -/
theorem Operation.writes (m : Memory) (op : Operation) : Writes m (op.run m) (op.written m) := by
  rw [written]
  cases hr : op.result m with
  | error error =>
      rw [run_of_error hr]
      exact writes_nothing rfl fun _ _ _ hn => hn
  | ok m' =>
      rw [run_of_ok hr]
      cases op with
      | addFile path content =>
          obtain rfl := Except.ok.inj hr
          exact writes_addFile m path content
      | addDir path =>
          obtain rfl := Except.ok.inj hr
          exact writes_addDir m path
      | remove path =>
          obtain rfl := Except.ok.inj hr
          exact writes_remove m path
      | write path content => exact writes_write hr
      | createDir recursive path =>
          obtain rfl := createDir_eq_ok hr
          exact writes_addDir m path
      | removeFile path =>
          obtain ⟨content, time, -, rfl⟩ := removeFile_eq_ok hr
          exact writes_without m path.resolved
      | removeDir path =>
          obtain ⟨-, rfl⟩ := removeDir_eq_ok hr
          exact writes_without m path.resolved
      | copy source path =>
          obtain ⟨content, hread, hw⟩ := bind_eq_ok_iff.mp hr
          simpa [content?, hread, Except.toOption] using writes_write hw

/-! ## Runs -/

/-- What operations write, one after the other. -/
def log (m : Memory) : List Operation → List ByteArray
  | [] => []
  | op :: ops => op.written m ++ log (op.run m) ops

theorem log_append (m : Memory) (ops more : List Operation) :
    m.log (ops ++ more) = m.log ops ++ (ops.foldl Operation.run m).log more := by
  induction ops generalizing m with
  | nil => rfl
  | cons op ops ih => simp [log, ih]

/-- A file that was written at a tick holds what was to be written then, and the clock shows the
tick after the last write. -/
structure Logged (contents : List ByteArray) (m : Memory) : Prop where
  clock : m.clock = .ofNat (contents.length + 1)
  file : ∀ place content time, m.node? place = some (.file content time) →
    ∃ i, time = .ofNat (i + 1) ∧ contents[i]? = some content

theorem logged_empty (cwd : Path) : Logged [] (empty cwd) where
  clock := rfl
  file place content time hn := by
    rw [empty, node?_addDir] at hn
    split at hn
    · cases file_of_getD hn
    · cases hn

theorem Logged.writes {contents more : List ByteArray} (h : Logged contents m)
    (hw : Writes m m' more) : Logged (contents ++ more) m' where
  clock := by
    rw [hw.clock, h.clock, List.length_append, ← UInt64.ofNat_add]
    congr 1
    omega
  file place content time hn := by
    rcases hw.old_or_new place content time hn with hold | ⟨rfl, rfl⟩
    · obtain ⟨i, ht, hi⟩ := h.file place content time hold
      obtain ⟨hlt, -⟩ := List.getElem?_eq_some_iff.mp hi
      exact ⟨i, ht, by rwa [List.getElem?_append_left hlt]⟩
    · exact ⟨contents.length, h.clock, by simp⟩

/-- The state after a run is known by what the run writes. -/
theorem logged_ran (cwd : Path) (ops : List Operation) :
    Logged ((empty cwd).log ops) (ran cwd ops) := by
  induction ops using List.reverseRecOn with
  | nil => exact logged_empty cwd
  | append_singleton ops op ih =>
      have hlog : (empty cwd).log (ops ++ [op]) =
          (empty cwd).log ops ++ op.written (ran cwd ops) := by
        rw [log_append, log, log, List.append_nil, ran]
      rw [hlog, ran_concat]
      exact ih.writes (op.writes (ran cwd ops))

/-- What is written up to a moment of a run comes first in all that the run writes. -/
theorem getElem?_log {done ops : List Operation} (h : done <+: ops) {i : Nat} {content : ByteArray}
    (hi : (m.log done)[i]? = some content) : (m.log ops)[i]? = some content := by
  obtain ⟨rest, rfl⟩ := h
  obtain ⟨hlt, -⟩ := List.getElem?_eq_some_iff.mp hi
  rwa [log_append, List.getElem?_append_left hlt]

theorem ofNat_succ_inj {i j n : Nat} (hn : n < UInt64.size) (hi : i < n) (hj : j < n)
    (h : UInt64.ofNat (i + 1) = .ofNat (j + 1)) : i = j := by
  have he := congrArg UInt64.toNat h
  rw [UInt64.toNat_ofNat_of_lt' (by omega), UInt64.toNat_ofNat_of_lt' (by omega)] at he
  omega

/-- Files with one time of modification hold the same, at any two moments of a run with fewer
writes than ticks. -/
theorem content_of_same_time {cwd : Path} {ops first second : List Operation}
    (hw : ((empty cwd).log ops).length < UInt64.size) (hf : first <+: ops) (hs : second <+: ops)
    {place place' : Place} {content content' : ByteArray} {time : UInt64}
    (hn : (ran cwd first).node? place = some (.file content time))
    (hn' : (ran cwd second).node? place' = some (.file content' time)) : content = content' := by
  obtain ⟨i, ht, hi⟩ := (logged_ran cwd first).file place content time hn
  obtain ⟨j, ht', hj⟩ := (logged_ran cwd second).file place' content' time hn'
  have hi := getElem?_log hf hi
  have hj := getElem?_log hs hj
  obtain ⟨hil, -⟩ := List.getElem?_eq_some_iff.mp hi
  obtain ⟨hjl, -⟩ := List.getElem?_eq_some_iff.mp hj
  obtain rfl := ofNat_succ_inj hw hil hjl (ht.symm.trans ht')
  exact Option.some.inj (hi.symm.trans hj)

/-- A file holds one of the contents that were written. -/
theorem content_mem_log {cwd : Path} {ops done : List Operation} (hd : done <+: ops)
    {place : Place} {content : ByteArray} {time : UInt64}
    (hn : (ran cwd done).node? place = some (.file content time)) :
    content ∈ (empty cwd).log ops := by
  obtain ⟨i, -, hi⟩ := (logged_ran cwd done).file place content time hn
  exact List.mem_of_getElem? (getElem?_log hd hi)

end VendorBundle.Memory
