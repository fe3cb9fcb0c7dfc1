import DvivonOS.Ext2.DirCalls

/-!
# Directories as maps

`ext2_add_dir_entry` does not look for its name. Where no name is added that is already there, a
directory is a map from names to entries.
-/

namespace DvivonOS

open Function List

/-- The entry that is found for a name. -/
def mapOf (es : List Entry) (name : Name) : Option Entry := es.find? (·.name = name)

theorem mapOf_insert {l₁ l₂ : List Entry} {x : Entry} (h : mapOf (l₁ ++ l₂) x.name = none) :
    mapOf (l₁ ++ x :: l₂) = update (mapOf (l₁ ++ l₂)) x.name (some x) := by
  funext b
  unfold mapOf at h ⊢
  rw [List.find?_append, Option.or_eq_none_iff] at h
  rw [update_apply, List.find?_append, List.find?_append, List.find?_cons]
  split_ifs with hb
  · simp [hb, h.1]
  · simp [Ne.symm hb]

theorem mapOf_eraseP {es : List Entry} (h : (es.map Entry.name).Nodup) (name : Name) :
    mapOf (es.eraseP (·.name = name)) = update (mapOf es) name none := by
  funext b
  rw [update_apply]
  unfold mapOf
  induction es with
  | nil => simp
  | cons y es ih =>
    obtain ⟨hy, hes⟩ := nodup_cons.mp h
    by_cases hyn : y.name = name
    · rw [eraseP_cons_of_pos (by simpa using hyn)]
      split_ifs with hb
      · refine List.find?_eq_none.mpr fun z hz hzb => hy ?_
        rw [hyn, ← hb, ← of_decide_eq_true hzb]
        exact mem_map_of_mem hz
      · rw [List.find?_cons_of_neg (by simpa [hyn] using Ne.symm hb)]
    · rw [eraseP_cons_of_neg (by simpa using hyn), List.find?_cons, List.find?_cons, ih hes]
      by_cases hyb : y.name = b
      · simp [hyb, show b ≠ name from hyb ▸ hyn]
      · simp [hyb]

namespace DirCall

/-- The map after a call with the result `ret`. -/
def onMap (m : Name → Option Entry) (ret : ℤ) : DirCall → Name → Option Entry
  | add name ino type => if ret = 0 then update m name (some ⟨name, ino, type⟩) else m
  | remove name => update m name none

/-- A name that is added is not there. -/
def New (m : Name → Option Entry) : DirCall → Prop
  | add name _ _ => m name = none
  | remove _ => True

theorem Lists.on_map {c : DirCall} {ret : ℤ} {es es' : List Entry} (h : c.Lists ret es es')
    (hnames : (es.map Entry.name).Nodup) (hnew : c.New (mapOf es)) :
    mapOf es' = c.onMap (mapOf es) ret ∧ (es'.map Entry.name).Nodup := by
  cases c with
  | add name ino type =>
    obtain ⟨hret, l₁, l₂, rfl, rfl⟩ | ⟨hret, rfl⟩ := h
    · rw [onMap, if_pos hret, (perm_middle.map _).nodup_iff, map_cons, nodup_cons]
      refine ⟨mapOf_insert hnew, fun hmem => ?_, hnames⟩
      obtain ⟨x, hx, hxn⟩ := mem_map.mp hmem
      exact absurd (List.find?_eq_none.mp hnew x hx) (by simpa using hxn)
    · exact ⟨(if_neg hret).symm, hnames⟩
  | remove name =>
    obtain rfl : es' = es.eraseP (·.name = name) := by
      obtain ⟨-, -, rfl⟩ | ⟨-, hno, rfl⟩ := h
      · rfl
      · rw [eraseP_of_forall_not (by simpa using hno)]
    exact ⟨mapOf_eraseP hnames name, hnames.sublist ((eraseP_sublist ..).map _)⟩

end DirCall

/-- What `ext2_find_dir_entry` finds. -/
def lookups (s : Vol × Inode) (name : Name) : Option Entry :=
  ((ext2FindDirEntry s.2 name).run s.1).1.map DirEntry.entry

/-- Calls on a directory that stays below `2 ^ 32` bytes, and on a map. -/
inductive MapRun (bs : ℕ) (s₀ : Vol × Inode) : Vol × Inode → (Name → Option Entry) → Prop
  | start : MapRun bs s₀ s₀ (lookups s₀)
  | call {s s' : Vol × Inode} {m : Name → Option Entry} {ret : ℤ} (h : MapRun bs s₀ s m)
    (c : DirCall) (hc : c.Ok) (hnew : c.New m) (hsize : s.2.size + bs < 2 ^ 32)
    (hrun : (c.exec s.2).run s.1 = ((ret, s'.2), s'.1)) : MapRun bs s₀ s' (c.onMap m ret)

/-- **Directories are maps.** Where no name is added that is there, the names stay different, and
after every run of additions and removals the lookups find what the map says. -/
theorem directory_is_map {s₀ s : Vol × Inode} {G : Geo} {e : ℕ → Bytes} {m : Name → Option Entry}
    (h : ListDir s₀.1 G e s₀.2) (hnames : ((s₀.1.entries G s₀.2).map Entry.name).Nodup)
    (hrun : MapRun G.bs s₀ s m) :
    lookups s = m ∧ ((s.1.entries G s.2).map Entry.name).Nodup := by
  obtain ⟨⟨e', h'⟩, rfl, hnames'⟩ : (∃ e', ListDir s.1 G e' s.2) ∧ m = mapOf (s.1.entries G s.2) ∧
      ((s.1.entries G s.2).map Entry.name).Nodup := by
    induction hrun with
    | start => exact ⟨⟨e, h⟩, funext fun name => (h.find name).1, hnames⟩
    | @call s _ _ _ _ c hc hnew hsize hrun ih =>
      obtain ⟨⟨e', h'⟩, rfl, hnames'⟩ := ih
      obtain ⟨hd, hfails, hlists⟩ := h'.call hc hrun
      have hfits : c.Fits G s.1 s.2 := by
        cases c with
        | add => exact .inr hsize
        | remove => trivial
      obtain ⟨hmap, hnodup⟩ := ((em _).elim (fun hret => (hlists hret).mpr hfits) hfails).on_map
        hnames' hnew
      exact ⟨hd, hmap.symm, hnodup⟩
  exact ⟨funext fun name => (h'.find name).1, hnames'⟩

theorem MapRun.step {bs : ℕ} {s₀ s : Vol × Inode} {m : Name → Option Entry}
    (h : MapRun bs s₀ s m) (c : DirCall) (hc : c.Ok) (hnew : c.New m)
    (hsize : s.2.size + bs < 2 ^ 32) :
    MapRun bs s₀ (((c.exec s.2).run s.1).2, ((c.exec s.2).run s.1).1.2)
      (c.onMap m ((c.exec s.2).run s.1).1.1) := .call h c hc hnew hsize rfl

theorem fileVol_entries :
    fileVol.entries sampleVol.geo fileVol.root = blockEntries 1024 (fileDisk 7) := by
  unfold Vol.entries dirEntries
  rw [fileVol_rootDir.1, range_one, flatMap_singleton, fileVol_rootBlock]
  rfl

def removeA : (ℤ × Inode) × Vol := (DirCall.exec addB.1.2 (.remove [97])).run addB.2

/-- A file is added to a directory with another one, and the other one is removed. -/
theorem directory_is_map_file : lookups (removeA.2, removeA.1.2) =
    DirCall.onMap (DirCall.onMap (lookups (fileVol, fileVol.root)) addB.1.1 (.add [98] 12 1))
      removeA.1.1 (.remove [97]) := by
  have hnames : ((fileVol.entries sampleVol.geo fileVol.root).map Entry.name).Nodup := by
    rw [fileVol_entries]
    decide +kernel
  have hnew : lookups (fileVol, fileVol.root) [98] = none := by
    refine (fileVol_listDir.find _).1.trans ?_
    rw [fileVol_entries]
    decide +kernel
  have hadd : MapRun sampleVol.geo.bs (fileVol, fileVol.root) (addB.2, addB.1.2)
      (DirCall.onMap (lookups (fileVol, fileVol.root)) addB.1.1 (.add [98] 12 1)) :=
    MapRun.start.step (.add [98] 12 1) ⟨by decide, by decide, by decide, by decide, by decide⟩ hnew
      (by decide +kernel)
  have hremove : MapRun sampleVol.geo.bs (fileVol, fileVol.root) (removeA.2, removeA.1.2)
      (DirCall.onMap (DirCall.onMap (lookups (fileVol, fileVol.root)) addB.1.1 (.add [98] 12 1))
        removeA.1.1 (.remove [97])) :=
    hadd.step (.remove [97]) ⟨by decide, by decide⟩ trivial (by decide +kernel)
  have hdir : ListDir (fileVol, fileVol.root).1 sampleVol.geo fileVol.core.ino
      (fileVol, fileVol.root).2 := fileVol_listDir
  exact (directory_is_map hdir hnames hremove).1

end DvivonOS
