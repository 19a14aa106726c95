/-
Sources that list no path twice.

A workspace numbers the paths that its source finds, and a path that is found twice would have its
symbols listed twice.  In memory the buffers stand in the order of their paths, which each change
keeps, so no two of them have the same one.  On disk the listing goes to each entry of a directory
once and entries of one directory differ in name.  So what is listed differs in its names, and
joining the directory in front, once or twice, does not make different names the same.
-/
import OverlayIndex.Proofs.Source.Disk
import OverlayIndex.Proofs.Source.Memory
import Mathlib.Data.List.Basic

namespace OverlayIndex

/-- No path is found twice, as the paths are numbered. -/
def Source.FindsOnce {σ : Type} [Source σ] (s : σ) : Prop :=
  ∀ pattern paths, Source.find s pattern = .ok paths →
    paths.Pairwise fun p q =>
      (Source.normalize (Source.searched s pattern) p).same
        (Source.normalize (Source.searched s pattern) q) = false

/-! ### The order of paths -/

theorem compareLists_eq_compareLex {α : Type} (cmp : α → α → Ordering) (as bs : List α) :
    compareLists cmp as bs = as.compareLex cmp bs := by
  induction as generalizing bs with
  | nil => cases bs <;> rfl
  | cons a as ih =>
      cases bs with
      | nil => rfl
      | cons b bs =>
          rw [compareLists, List.compareLex_cons_cons, ih]

/-- The name of a step, which is empty for the other sorts. -/
def Component.spelling : Component → String
  | name s => s
  | _ => ""

theorem Component.compare_eq :
    compare = compareLex (compareOn rank) (compareOn spelling) := by
  funext a b
  cases a <;> cases b <;> rfl

instance : Std.TransCmp Component.compare := by
  rw [Component.compare_eq]
  infer_instance

namespace Path

theorem compare_eq_compareLex (p q : Path) :
    p.compare q = p.components.compareLex Component.compare q.components :=
  compareLists_eq_compareLex _ _ _

theorem compare_trans {p q r : Path} (hpq : p.compare q = .lt) (hqr : q.compare r = .lt) :
    p.compare r = .lt := by
  rw [compare_eq_compareLex] at *
  exact Std.TransCmp.lt_trans hpq hqr

theorem compare_eq_gt_iff {p q : Path} : p.compare q = .gt ↔ q.compare p = .lt := by
  rw [compare_eq_compareLex, compare_eq_compareLex]
  exact Std.OrientedCmp.gt_iff_lt

end Path

/-! ### In memory -/

namespace MemorySource

/-- The texts were put in and taken out one at a time. -/
inductive IsBuilt : MemorySource → Prop
  | empty : IsBuilt empty
  | insert {m : MemorySource} (h : IsBuilt m) (p : Path) (text : String) : IsBuilt (m.insert p text)
  | erase {m : MemorySource} (h : IsBuilt m) (p : Path) : IsBuilt (m.erase p)

/-- Each buffer comes before those behind it. -/
def IsOrdered (buffers : List Buffer) : Prop :=
  buffers.Pairwise fun a b => a.path.compare b.path = .lt

/-- The paths after a buffer is put in are its own and those that were there. -/
theorem path_mem_insertBuffer {p : Path} {text : String} {buffers : List Buffer} {b : Buffer}
    (h : b ∈ insertBuffer p text buffers) : b.path = p ∨ ∃ b' ∈ buffers, b'.path = b.path := by
  induction buffers with
  | nil => exact Or.inl (by rw [List.mem_singleton.1 h])
  | cons c rest ih =>
      rw [insertBuffer] at h
      split at h
      · rcases List.mem_cons.1 h with rfl | h
        · exact Or.inl rfl
        · exact Or.inr ⟨b, h, rfl⟩
      · rcases List.mem_cons.1 h with rfl | h
        · exact Or.inr ⟨c, List.mem_cons_self, rfl⟩
        · exact Or.inr ⟨b, List.mem_cons_of_mem _ h, rfl⟩
      · rcases List.mem_cons.1 h with rfl | h
        · exact Or.inr ⟨b, List.mem_cons_self, rfl⟩
        · rcases ih h with h | ⟨b', hb', h⟩
          · exact Or.inl h
          · exact Or.inr ⟨b', List.mem_cons_of_mem _ hb', h⟩

theorem IsOrdered.insertBuffer {buffers : List Buffer} (h : IsOrdered buffers) (p : Path)
    (text : String) : IsOrdered (insertBuffer p text buffers) := by
  induction buffers with
  | nil => exact List.pairwise_singleton _ _
  | cons b rest ih =>
      obtain ⟨hfirst, hrest⟩ := List.pairwise_cons.1 h
      rw [MemorySource.insertBuffer]
      cases hcompare : p.compare b.path with
      | lt =>
          refine List.pairwise_cons.2 ⟨fun c hc => ?_, h⟩
          rcases List.mem_cons.1 hc with rfl | hc
          · exact hcompare
          · exact Path.compare_trans hcompare (hfirst c hc)
      | eq => exact List.pairwise_cons.2 ⟨hfirst, hrest⟩
      | gt =>
          refine List.pairwise_cons.2 ⟨fun c hc => ?_, ih hrest⟩
          rcases path_mem_insertBuffer hc with hp | ⟨b', hb', hp⟩
          · rw [hp]
            exact Path.compare_eq_gt_iff.1 hcompare
          · rw [← hp]
            exact hfirst b' hb'

theorem IsBuilt.isOrdered {m : MemorySource} (h : m.IsBuilt) : IsOrdered m.buffers := by
  induction h with
  | empty => exact List.Pairwise.nil
  | insert _ p text ih => exact ih.insertBuffer p text
  | erase _ p ih => exact List.Pairwise.filter _ ih

/-- **Texts in memory are found once each.** -/
theorem IsBuilt.findsOnce {m : MemorySource} (h : m.IsBuilt) : Source.FindsOnce m := by
  intro pattern paths hfind
  change (pattern.compile.map fun p => (m.buffers.map (·.path)).filter p.acceptsPath) = _ at hfind
  cases hcompile : pattern.compile with
  | error e => rw [hcompile] at hfind; cases hfind
  | ok p =>
      rw [hcompile] at hfind
      cases hfind
      refine List.Pairwise.filter _ (List.pairwise_map.2 (h.isOrdered.imp fun {a b} hlt => ?_))
      change a.path.same b.path = false
      rw [← Bool.not_eq_true, ← Path.compare_eq_iff, hlt]
      decide

end MemorySource

/-! ### On disk -/

namespace FileSystem

variable {fs : FileSystem} {root : Path} {fuel : Nat} {chain : List Address} {here : Reached}
  {ns : List String}

/-- An entry as one of a directory, by its name there. -/
def childOf? (dir : Address) (e : Address × FileEntry) : Option (String × FileEntry) :=
  e.1.getLast?.bind fun name => if e.1 = dir ++ [name] then some (name, e.2) else none

theorem children_eq (fs : FileSystem) (dir : Address) :
    fs.children dir = fs.entries.filterMap (childOf? dir) := by
  refine List.filterMap_congr fun e _ => ?_
  unfold childOf?
  cases e.1.getLast? <;> rfl

theorem address_of_childOf? {dir : Address} {e : Address × FileEntry} {c : String × FileEntry}
    (h : childOf? dir e = some c) : e.1 = dir ++ [c.1] := by
  obtain ⟨name, -, hname⟩ := Option.bind_eq_some_iff.1 h
  rw [Option.ite_none_right_eq_some] at hname
  cases hname.2
  exact hname.1

/-- Entries of one directory differ in name. -/
theorem children_differ (fs : FileSystem) (dir : Address) :
    (fs.children dir).Pairwise fun a b => a.1 ≠ b.1 := by
  rw [children_eq]
  refine List.pairwise_filterMap.2 ((List.pairwise_map.1 fs.distinct).imp ?_)
  intro e e' hne c hc c' hc' heq
  exact hne (by rw [address_of_childOf? hc, address_of_childOf? hc', heq])

/-- What a listing gives for one entry of a directory. -/
def filesBehind (fs : FileSystem) (root : Path) (fuel : Nat) (chain : List Address) (here : Reached)
    (ns : List String) (c : String × FileEntry) : List Listed :=
  match fs.step? (root.join (pathOf (ns ++ [c.1]))) chain here c.1 c.2 with
  | none => []
  | some r =>
    match fs.entry? r.address with
    | some (.file _) => [⟨ns ++ [c.1], r.address⟩]
    | some .directory => fs.filesBelow root fuel (r.address :: chain) r (ns ++ [c.1])
    | _ => []

theorem filesBelow_succ :
    fs.filesBelow root (fuel + 1) chain here ns =
      (fs.children here.address).flatMap (fs.filesBehind root fuel chain here ns) :=
  rfl

/-- The entry is a file by itself, or a directory that is listed, or nothing is listed. -/
theorem filesBehind_cases (fs : FileSystem) (root : Path) (fuel : Nat) (chain : List Address)
    (here : Reached) (ns : List String) (c : String × FileEntry) :
    fs.filesBehind root fuel chain here ns c = [] ∨
      (∃ a, fs.filesBehind root fuel chain here ns c = [⟨ns ++ [c.1], a⟩]) ∨
      ∃ r, fs.filesBehind root fuel chain here ns c =
        fs.filesBelow root fuel (r.address :: chain) r (ns ++ [c.1]) := by
  unfold filesBehind
  split
  · exact Or.inl rfl
  · split
    · exact Or.inr (Or.inl ⟨_, rfl⟩)
    · exact Or.inr (Or.inr ⟨_, rfl⟩)
    · exact Or.inl rfl

/-- The names of what is listed for an entry go on with the name of the entry. -/
theorem names_of_mem_filesBehind {c : String × FileEntry} {file : Listed}
    (h : file ∈ fs.filesBehind root fuel chain here ns c) :
    ∃ more, file.names = ns ++ c.1 :: more := by
  rcases fs.filesBehind_cases root fuel chain here ns c with hnil | ⟨a, hfile⟩ | ⟨r, hbelow⟩
  · rw [hnil] at h
    cases h
  · rw [hfile] at h
    exact ⟨[], by rw [List.mem_singleton.1 h]⟩
  · rw [hbelow] at h
    obtain ⟨more, hnames, -⟩ := leads_of_mem_filesBelow h
    exact ⟨more, by rw [hnames, List.append_assoc]; rfl⟩

/-- **No names are listed twice.** -/
theorem filesBelow_differ : (fs.filesBelow root fuel chain here ns).Pairwise
    fun a b => a.names ≠ b.names := by
  induction fuel generalizing chain here ns with
  | zero => exact List.Pairwise.nil
  | succ fuel ih =>
      rw [filesBelow_succ, List.pairwise_flatMap]
      refine ⟨fun c _ => ?_, (fs.children_differ here.address).imp ?_⟩
      · rcases fs.filesBehind_cases root fuel chain here ns c with hnil | ⟨a, hfile⟩ | ⟨r, hbelow⟩
        · rw [hnil]
          exact List.Pairwise.nil
        · rw [hfile]
          exact List.pairwise_singleton _ _
        · rw [hbelow]
          exact ih
      · intro c c' hne x hx y hy heq
        obtain ⟨more, hx⟩ := names_of_mem_filesBehind hx
        obtain ⟨more', hy⟩ := names_of_mem_filesBehind hy
        rw [hx, hy] at heq
        exact hne (List.cons.inj (List.append_cancel_left heq)).1

theorem ofSegment?_of_isFileName {name : String} (h : isFileName name = true) :
    Component.ofSegment? name.toList = some (.name name) := by
  obtain ⟨⟨hpoint, hup, -⟩, hempty, -⟩ := isFileName_iff.1 h
  have hempty' : name.toList ≠ [] := fun heq => hempty (String.toList_eq_nil_iff.1 heq)
  have hpoint' : name.toList ≠ ['.'] := fun heq => hpoint (String.toList_inj.1 heq)
  have hup' : name.toList ≠ ['.', '.'] := fun heq => hup (String.toList_inj.1 heq)
  unfold Component.ofSegment?
  rw [if_neg (not_or.2 ⟨hempty', hpoint'⟩), if_neg hup', String.ofList_toList]

theorem inner_eq_names (p : Path) :
    p.inner = (names p.text).filterMap fun s => Component.ofSegment? s.toList := by
  unfold Path.inner names
  rw [List.filterMap_map, List.filterMap_filter]
  refine List.filterMap_congr fun s _ => ?_
  by_cases hs : s = []
  · simp [hs, Component.ofSegment?]
  · simp [hs]

/-- The steps of a path of names are these. -/
theorem inner_pathOf (h : ∀ name ∈ ns, isFileName name = true) :
    (pathOf ns).inner = ns.map .name := by
  rw [inner_eq_names, names_pathOf h, ← List.filterMap_eq_map]
  exact List.filterMap_congr fun name hname => ofSegment?_of_isFileName (h name hname)

end FileSystem

namespace DiskSource

variable {d : DiskSource}

/-- Paths from the directory that are normalized to the same have the same steps. -/
theorem inner_eq_of_same (h : d.fs.isDirectory d.root = true) {p q : Path}
    (hp : p.isAbsolute = false) (hq : q.isAbsolute = false)
    (hsame : (d.normalize (d.root.join p)).same (d.normalize (d.root.join q)) = true) :
    p.inner = q.inner := by
  have hroot := root_ne_empty h
  have hp' := Path.isAbsolute_join hroot hp
  have hq' := Path.isAbsolute_join hroot hq
  rw [Path.same_iff] at hsame
  cases habsolute : d.root.isAbsolute with
  | true =>
      rw [normalize_of_isAbsolute (hp'.trans habsolute),
        normalize_of_isAbsolute (hq'.trans habsolute), Path.components_join hroot hp,
        Path.components_join hroot hq] at hsame
      exact List.append_cancel_left hsame
  | false =>
      rw [normalize, normalize, Path.components_join hroot (hp'.trans habsolute),
        Path.components_join hroot (hq'.trans habsolute), Path.inner_join hroot hp,
        Path.inner_join hroot hq] at hsame
      exact List.append_cancel_left (List.append_cancel_left hsame)

/-- The names that are listed are names of entries. -/
theorem isFileName_of_mem_files {file : FileSystem.Listed} (hfile : file ∈ d.files) :
    ∀ name ∈ file.names, FileSystem.isFileName name = true := by
  unfold files at hfile
  split at hfile
  · cases hfile
  · obtain ⟨more, hnames, -, hlegal, -⟩ := FileSystem.leads_of_mem_filesBelow hfile
    rw [hnames]
    exact hlegal

/-- Files whose paths are normalized to the same have the same names. -/
theorem names_eq_of_same (h : d.fs.isDirectory d.root = true) {a b : FileSystem.Listed}
    (ha : a ∈ d.files) (hb : b ∈ d.files)
    (hsame : (d.normalize (d.root.join (FileSystem.pathOf a.names))).same
      (d.normalize (d.root.join (FileSystem.pathOf b.names))) = true) : a.names = b.names := by
  have hlegal := isFileName_of_mem_files ha
  have hlegal' := isFileName_of_mem_files hb
  have hinner := inner_eq_of_same h (FileSystem.isAbsolute_pathOf hlegal)
    (FileSystem.isAbsolute_pathOf hlegal') hsame
  rw [FileSystem.inner_pathOf hlegal, FileSystem.inner_pathOf hlegal'] at hinner
  exact (List.map_inj_right fun _ _ => Component.name.inj).1 hinner

theorem files_differ (d : DiskSource) : d.files.Pairwise fun a b => a.names ≠ b.names := by
  unfold files
  split
  · exact List.Pairwise.nil
  · exact FileSystem.filesBelow_differ

/-- **Files on disk are found once each.** -/
theorem findsOnce (h : d.fs.isDirectory d.root = true) : Source.FindsOnce d := by
  intro pattern paths hfind
  change d.find pattern = _ at hfind
  unfold find at hfind
  cases hcompile : pattern.compile with
  | error e => rw [hcompile] at hfind; cases hfind
  | ok matcher =>
      rw [hcompile] at hfind
      cases hfind
      have hsymm : ∀ {p q : Path}, (d.normalize p).same (d.normalize q) = false →
          (d.normalize q).same (d.normalize p) = false := by
        intro p q hne
        rw [← Bool.not_eq_true, Path.same_iff] at *
        exact fun heq => hne heq.symm
      refine List.Pairwise.perm ?_ (List.mergeSort_perm _ _).symm hsymm
      refine List.pairwise_map.2 (List.Pairwise.filter _ (List.pairwise_map.2 ?_))
      refine d.files_differ.imp_of_mem fun {a b} ha hb hne => ?_
      exact Bool.eq_false_iff.2 fun hsame => hne (names_eq_of_same h ha hb hsame)

end DiskSource

end OverlayIndex
