/-
The spellings of paths on disk.

A relative path is joined to the directory of the source, and this happens again whenever a path
comes back to the source: to the paths that a search gives, and to the paths that the workspace
keeps.  Joining twice must not change the path, and it does not exactly if the directory is
absolute or a point.  Then a listed path also reads as the file that the listing came to.

Paths are told apart by their components alone.  So two spellings have one number only if these
agree, even if both lead to one file.
-/
import OverlayIndex.Proofs.Source.FileSystem
import OverlayIndex.Proofs.Workspace.Readings
import OverlayIndex.Source.Disk

namespace OverlayIndex

open FileSystem (pathOf maxPath)

namespace DiskSource

variable {d : DiskSource} {p r : Path} {file : FileSystem.Listed}

theorem calm (d : DiskSource) : Source.Calm d :=
  ⟨fun _ => rfl, fun _ => ⟨rfl, rfl⟩⟩

theorem ofDirectory_eq_ok_iff {fs : FileSystem} {root : Path} :
    ofDirectory fs root = .ok d ↔ fs.isDirectory root = true ∧ d = ⟨fs, root⟩ := by
  unfold ofDirectory
  by_cases hdir : fs.isDirectory root = true
  · simp [hdir, eq_comm]
  · simp [hdir]

/-- The directory of the source is there. -/
theorem exists_located (h : d.fs.isDirectory d.root = true) :
    ∃ here, d.fs.locate d.root = .ok here ∧ d.fs.isDirectoryAt here.address = true := by
  unfold FileSystem.isDirectory at h
  cases hlocate : d.fs.locate d.root with
  | error f => rw [hlocate] at h; cases h
  | ok here =>
      rw [hlocate] at h
      exact ⟨here, rfl, h⟩

theorem root_ne_empty (h : d.fs.isDirectory d.root = true) : d.root.text ≠ "" := by
  obtain ⟨here, hlocate, -⟩ := exists_located h
  exact (FileSystem.leads_of_locate hlocate).1

/-! ### Normalizing twice -/

theorem normalize_of_isAbsolute (hp : p.isAbsolute = true) : d.normalize p = p :=
  Path.join_of_isAbsolute hp d.root

theorem normalize_normalize_iff (h : d.fs.isDirectory d.root = true) :
    (∀ p, (d.normalize (d.normalize p)).same (d.normalize p) = true) ↔ d.root.Settled := by
  constructor
  · intro hall
    exact (Path.same_join_join_iff (root_ne_empty h) rfl).1 (hall ⟨""⟩)
  · intro hsettled p
    cases hp : p.isAbsolute with
    | true =>
        rw [normalize_of_isAbsolute hp, normalize_of_isAbsolute hp]
        exact Path.same_iff.2 rfl
    | false => exact (Path.same_join_join_iff (root_ne_empty h) hp).2 hsettled

theorem normalize_join_iff (h : d.fs.isDirectory d.root = true) :
    (∀ r : Path, r.isAbsolute = false →
      (d.normalize (d.root.join r)).same (d.normalize r) = true) ↔ d.root.Settled := by
  constructor
  · intro hall
    exact (Path.same_join_join_iff (root_ne_empty h) rfl).1 (hall ⟨""⟩ rfl)
  · intro hsettled r hr
    exact (Path.same_join_join_iff (root_ne_empty h) hr).2 hsettled

/-! ### What is listed -/

/-- What is found is the path of a file that is listed. -/
theorem exists_listed {pattern : FilePattern} {paths : List Path} (h : d.find pattern = .ok paths)
    (hp : p ∈ paths) : ∃ file ∈ d.files, p = d.root.join (pathOf file.names) := by
  unfold find at h
  cases hcompile : pattern.compile with
  | error e => rw [hcompile] at h; cases h
  | ok matcher =>
      rw [hcompile] at h
      cases h
      obtain ⟨relative, hrelative, rfl⟩ := List.mem_map.1 (List.mem_mergeSort.1 hp)
      obtain ⟨file, hfile, rfl⟩ := List.mem_map.1 (List.mem_filter.1 hrelative).1
      exact ⟨file, hfile, rfl⟩

/-- A listed file is a file, its names are names, and its path leads to it. -/
theorem leadsTo_listed (h : d.fs.isDirectory d.root = true) (hfile : file ∈ d.files) :
    (pathOf file.names).isAbsolute = false ∧
      (∃ bytes, d.fs.entry? file.address = some (.file bytes)) ∧
      d.fs.LeadsTo (d.root.join (pathOf file.names)) file.address := by
  obtain ⟨here, hlocate, hdir⟩ := exists_located h
  unfold files at hfile
  rw [hlocate] at hfile
  obtain ⟨more, hnames, hne, hlegal, links, bytes, hleads, hbytes⟩ :=
    FileSystem.leads_of_mem_filesBelow hfile
  rw [List.nil_append] at hnames
  rw [hnames]
  exact ⟨FileSystem.isAbsolute_pathOf hlegal, ⟨bytes, hbytes⟩,
    FileSystem.leadsTo_pathOf hlocate hdir hlegal hne hleads⟩

/-- Where a path below a settled directory leads, its normalized spelling leads too. -/
theorem leadsTo_normalize (h : d.fs.isDirectory d.root = true) (hsettled : d.root.Settled)
    (hr : r.isAbsolute = false) {a : Address} (hleads : d.fs.LeadsTo (d.root.join r) a) :
    d.fs.LeadsTo (d.normalize (d.root.join r)) a := by
  have hjoined := Path.isAbsolute_join (root_ne_empty h) hr
  cases habsolute : d.root.isAbsolute with
  | true =>
      rw [normalize_of_isAbsolute (hjoined.trans habsolute)]
      exact hleads
  | false =>
      have hpoint : d.root.components = [.here] := by
        rcases hsettled with habsolute' | hpoint
        · rw [habsolute] at habsolute'
          cases habsolute'
        · exact hpoint
      obtain ⟨here, hlocate, -⟩ := exists_located h
      obtain ⟨hne, hnul, -⟩ := FileSystem.leads_of_locate hlocate
      exact hleads.join (hjoined.trans habsolute) hpoint habsolute hne hnul

/-- Reading a listed path gives the listed file, unless the path has become too long. -/
theorem read_listed (h : d.fs.isDirectory d.root = true) (hsettled : d.root.Settled)
    (hfile : file ∈ d.files) {bytes : ByteArray}
    (hbytes : d.fs.entry? file.address = some (.file bytes))
    (hp : p = d.root.join (pathOf file.names)) :
    d.read p =
      if byteLength (d.normalize p).text.toList ≤ maxPath then decode (d.normalize p) bytes
      else .error (.unreadable (d.normalize p) .nameTooLong) := by
  obtain ⟨hrelative, -, hleads⟩ := leadsTo_listed h hfile
  subst hp
  have hread := (leadsTo_normalize h hsettled hrelative hleads).readBytes hbytes
  unfold read
  by_cases hlong : byteLength (d.normalize (d.root.join (pathOf file.names))).text.toList ≤ maxPath
  · rw [if_pos hlong] at hread ⊢
    simp only [hread]
  · rw [if_neg hlong] at hread ⊢
    simp only [hread]

end DiskSource

section

open DiskSource Workspace

/-- **Normalizing settles the spelling of a path exactly if the directory is absolute or a point.**
Only then does normalizing again change nothing, is a relative path the same as the joined one, and
is a path that a search gives the one that it is normalized to.  Reading the latter then gives the
file that the search came to, unless the path is too long.  Two paths have one number exactly if
they are normalized to the same, so a relative path and the joined one have one in these
directories. -/
theorem disk_spelling_settled_iff {fs : FileSystem} {root : Path} {d : DiskSource}
    (h : DiskSource.ofDirectory fs root = .ok d) :
    ((∀ p, (d.normalize (d.normalize p)).same (d.normalize p) = true) ↔ root.Settled) ∧
    ((∀ r : Path, r.isAbsolute = false →
      (d.normalize (root.join r)).same (d.normalize r) = true) ↔ root.Settled) ∧
    (∀ pattern paths, d.find pattern = .ok paths → ∀ p ∈ paths,
      ((d.normalize p).same p = true ↔ root.Settled) ∧
      ∃ file ∈ d.files, p = root.join (pathOf file.names) ∧
        ∃ bytes, fs.entry? file.address = some (.file bytes) ∧
          (root.Settled → d.read p =
            if byteLength (d.normalize p).text.toList ≤ maxPath then decode (d.normalize p) bytes
            else .error (.unreadable (d.normalize p) .nameTooLong))) ∧
    (∀ w v : Workspace DiskSource, w.Current → w.source = d → v.Current →
      ∀ p, Later (after (fileId p) w) v →
        (∀ q, answer (fileId q) v = answer (fileId p) w ↔
          (d.normalize p).same (d.normalize q) = true) ∧
        (p.isAbsolute = false →
          (answer (fileId (root.join p)) v = answer (fileId p) w ↔ root.Settled))) := by
  obtain ⟨hdir, rfl⟩ := ofDirectory_eq_ok_iff.1 h
  refine ⟨normalize_normalize_iff hdir, normalize_join_iff hdir, ?_, ?_⟩
  · intro pattern paths hfind p hp
    obtain ⟨file, hfile, rfl⟩ := exists_listed hfind hp
    obtain ⟨hrelative, ⟨bytes, hbytes⟩, -⟩ := leadsTo_listed hdir hfile
    refine ⟨Path.same_join_join_iff (root_ne_empty hdir) hrelative, file, hfile, rfl, bytes, hbytes,
      ?_⟩
    intro hsettled
    exact read_listed hdir hsettled hfile hbytes rfl
  · intro w v hw hsource hv p hlater
    have hnumber : ∀ q, answer (fileId q) v = answer (fileId p) w ↔
        (DiskSource.normalize ⟨fs, root⟩ p).same (DiskSource.normalize ⟨fs, root⟩ q) = true := by
      intro q
      rw [hw.fileId_eq_iff hv hlater q, hsource]
      rfl
    refine ⟨hnumber, fun hp => ?_⟩
    rw [hnumber, Path.same_iff, eq_comm, ← Path.same_iff]
    exact Path.same_join_join_iff (root_ne_empty hdir) hp

/-- A directory with a file in a directory `lib`, to which a link `stock` leads. -/
def stockDisk : FileSystem :=
  (((FileSystem.empty.put ["ws"] .directory).put ["ws", "lib"] .directory).put
    ["ws", "lib", "STOCK.rtm"] (.file "$NAME S".toUTF8)).put ["ws", "stock"] (.link "./lib/")

theorem ofDirectory_stockDisk :
    ofDirectory stockDisk ⟨"/ws"⟩ = .ok ⟨stockDisk, ⟨"/ws"⟩⟩ ∧
      ofDirectory stockDisk ⟨"ws"⟩ = .ok ⟨stockDisk, ⟨"ws"⟩⟩ := by
  have hdir : stockDisk.isDirectory ⟨"/ws"⟩ = true ∧ stockDisk.isDirectory ⟨"ws"⟩ = true := by
    decide +kernel
  exact ⟨ofDirectory_eq_ok_iff.2 ⟨hdir.1, rfl⟩, ofDirectory_eq_ok_iff.2 ⟨hdir.2, rfl⟩⟩

/-- The workspace over the absolute directory. -/
def stockWorkspace : Workspace DiskSource :=
  .ofSource ⟨stockDisk, ⟨"/ws"⟩⟩ .standard

/-- From a relative directory a search gives a path that normalizing changes, and that nothing is
read from.  From an absolute one a file has two numbers if it is named by way of a directory that is
left again. -/
theorem relative_directory_is_joined_twice :
    (ofDirectory stockDisk ⟨"ws"⟩ = .ok ⟨stockDisk, ⟨"ws"⟩⟩ ∧
      ((DiskSource.mk stockDisk ⟨"ws"⟩).find ⟨"lib/*", false⟩).toOption =
        some [⟨"ws/lib/STOCK.rtm"⟩] ∧
      ((DiskSource.mk stockDisk ⟨"ws"⟩).normalize ⟨"ws/lib/STOCK.rtm"⟩).same
        ⟨"ws/lib/STOCK.rtm"⟩ = false ∧
      ((DiskSource.mk stockDisk ⟨"ws"⟩).read ⟨"ws/lib/STOCK.rtm"⟩).toOption = none) ∧
    (stockWorkspace.source.read ⟨"/ws/lib/STOCK.rtm"⟩).toOption = some "$NAME S" ∧
      (stockWorkspace.source.read ⟨"lib/../lib/STOCK.rtm"⟩).toOption = some "$NAME S" ∧
      answer (fileId ⟨"/ws/lib/STOCK.rtm"⟩) stockWorkspace = ⟨0⟩ ∧
      answer (fileId ⟨"lib/../lib/STOCK.rtm"⟩)
        (after (fileId ⟨"/ws/lib/STOCK.rtm"⟩) stockWorkspace) = ⟨1⟩ := by
  refine ⟨⟨ofDirectory_stockDisk.2, ?_⟩, ?_⟩
  · decide +kernel
  · decide +kernel

/-- From the absolute directory the path that is found by way of the link is settled, and it reads
as the file behind the link. -/
theorem linked_path_is_settled :
    ∃ d, ofDirectory stockDisk ⟨"/ws"⟩ = .ok d ∧
      ∃ paths, d.find ⟨"stock/*", false⟩ = .ok paths ∧ ⟨"/ws/stock/STOCK.rtm"⟩ ∈ paths ∧
        (d.normalize ⟨"/ws/stock/STOCK.rtm"⟩).same ⟨"/ws/stock/STOCK.rtm"⟩ = true ∧
        (∃ file ∈ d.files, ∃ bytes, stockDisk.entry? file.address = some (.file bytes) ∧
          d.read ⟨"/ws/stock/STOCK.rtm"⟩ = decode ⟨"/ws/stock/STOCK.rtm"⟩ bytes) ∧
        (∀ p, (d.normalize (d.normalize p)).same (d.normalize p) = true) ∧
        answer (fileId ⟨"/ws/stock/STOCK.rtm"⟩)
            (after (fileId ⟨"stock/STOCK.rtm"⟩) stockWorkspace) =
          answer (fileId ⟨"stock/STOCK.rtm"⟩) stockWorkspace := by
  have hsettled : Path.Settled ⟨"/ws"⟩ := Or.inl (by decide +kernel)
  have hfound : ((DiskSource.mk stockDisk ⟨"/ws"⟩).find ⟨"stock/*", false⟩).toOption =
      some [⟨"/ws/stock/STOCK.rtm"⟩] := by
    decide +kernel
  have hcurrent : stockWorkspace.Current := Current.ofSource (DiskSource.calm _) .standard
  have hlater := hcurrent.after_fileId ⟨"stock/STOCK.rtm"⟩
  cases hfind : (DiskSource.mk stockDisk ⟨"/ws"⟩).find ⟨"stock/*", false⟩ with
  | error e => rw [hfind] at hfound; cases hfound
  | ok paths =>
      rw [hfind] at hfound
      cases hfound
      obtain ⟨htwice, -, hlisted, hnumbers⟩ := disk_spelling_settled_iff ofDirectory_stockDisk.1
      obtain ⟨hfixed, file, hfile, -, bytes, hbytes, hread⟩ :=
        hlisted _ _ hfind _ (List.mem_singleton_self _)
      have hshort : byteLength "/ws/stock/STOCK.rtm".toList ≤ maxPath := by decide +kernel
      have hjoined := (hnumbers stockWorkspace _ hcurrent rfl hlater.1 ⟨"stock/STOCK.rtm"⟩
        (Later.refl _)).2 (by decide +kernel)
      exact ⟨_, ofDirectory_stockDisk.1, _, hfind, List.mem_singleton_self _, hfixed.2 hsettled,
        ⟨file, hfile, bytes, hbytes, (hread hsettled).trans (if_pos hshort)⟩, htwice.2 hsettled,
        hjoined.2 hsettled⟩

end

end OverlayIndex
