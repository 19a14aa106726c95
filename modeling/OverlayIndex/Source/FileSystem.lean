/-
A file system: directories, files and symbolic links.

An address is the list of names from the root of the file system to an entry.  A path is
followed step by step, from the root or from the working directory, and every step needs a
directory to start from.  A link met on the way is replaced by the path it holds, which is
relative to the directory the link stands in, and two points lead to the directory above the one
reached, wherever the path came from.  No more than forty links are followed for a path.

Changes never fail: a change that the file system refuses does nothing, or only the part that
comes before the refusal.
-/
import OverlayIndex.Source.Error

namespace OverlayIndex

/-- The names from the root of the file system to an entry. -/
abbrev Address := List String

/-- What stands at an address. -/
inductive FileEntry where
  | file (bytes : ByteArray)
  | directory
  /-- A symbolic link, which holds a path. -/
  | link (target : String)

/-- Why a path leads nowhere. -/
inductive LookupFault where
  | missing
  | fault (f : ReadFault)
  deriving DecidableEq, Repr

namespace FileSystem

/-- The most bytes of a name. -/
def maxName : Nat := 255

/-- The name has more bytes than a name may have. -/
def isTooLong (name : String) : Bool :=
  maxName < byteLength name.toList

/-- The name is one that an entry can have. -/
def isFileName (name : String) : Bool :=
  name ≠ "" && name ≠ "." && name ≠ ".." && !isTooLong name &&
    !name.toList.contains '/' && !name.toList.contains '\x00'

end FileSystem

/-- The entries of a file system, one at an address, and the address that relative paths start
from.  The root is always a directory and is not listed. -/
structure FileSystem where
  entries : List (Address × FileEntry)
  workingDirectory : Address
  distinct : (entries.map Prod.fst).Nodup
  legal : ∀ e ∈ entries, ∀ name ∈ e.1, FileSystem.isFileName name = true

namespace FileSystem

/-- A file system with nothing in it. -/
def empty : FileSystem where
  entries := []
  workingDirectory := []
  distinct := List.nodup_nil
  legal _ he := absurd he List.not_mem_nil

/-- What stands at an address. -/
def entry? (fs : FileSystem) (a : Address) : Option FileEntry :=
  if a = [] then some .directory else (fs.entries.find? (·.1 = a)).map (·.2)

/-- The names in a path. -/
def names (path : String) : List String :=
  ((splitOn '/' path.toList).filter (· ≠ [])).map String.ofList

/-- The path ends in a slash. -/
def endsInSlash (path : String) : Bool :=
  path.toList.getLast? = some '/'

/-- The steps of a path.  A slash at its end asks for a directory, as a point there does. -/
def steps (path : String) : List String :=
  if endsInSlash path then names path ++ ["."] else names path

/-- Where a path starts from: the root, or the directory that it is seen from. -/
def base (dir : Address) (path : String) : Address :=
  if path.toList.head? = some '/' then [] else dir

/-- The most links that are followed for a path. -/
def maxLinks : Nat := 40

/-- The most bytes of a path. -/
def maxPath : Nat := 4095

/-- Why a path is not even looked up. -/
def refusal? (path : String) : Option LookupFault :=
  if path = "" then some .missing
  else if path.toList.contains '\x00' then some (.fault .nulInPath)
  else if maxPath < byteLength path.toList then some (.fault .nameTooLong)
  else none

/-- Where a path leads, and how many more links may be followed from there. -/
structure Reached where
  address : Address
  links : Nat
  deriving DecidableEq, Repr

/-- Where steps from a directory lead.  What a link holds, and the steps after it, are followed by
`jump`. -/
def followBy (fs : FileSystem) (jump : Address → List String → Except LookupFault Reached)
    (links : Nat) (dir : Address) : List String → Except LookupFault Reached
  | [] => .ok ⟨dir, links⟩
  | s :: rest =>
    if s = "." then fs.followBy jump links dir rest
    else if s = ".." then fs.followBy jump links dir.dropLast rest
    else if isTooLong s then .error (.fault .nameTooLong)
    else match fs.entry? (dir ++ [s]) with
      | none => .error .missing
      | some .directory => fs.followBy jump links (dir ++ [s]) rest
      | some (.file _) =>
        if rest = [] then .ok ⟨dir ++ [s], links⟩ else .error (.fault .notDirectory)
      | some (.link target) => jump (base dir target) (steps target ++ rest)

/-- Where steps from a directory lead, with links followed to the end. -/
def follow (fs : FileSystem) : Nat → Address → List String → Except LookupFault Reached
  | 0 => fs.followBy (fun _ _ => .error (.fault .tooManyLinks)) 0
  | links + 1 => fs.followBy (fs.follow links) (links + 1)

/-- Where a path starts from. -/
def start (fs : FileSystem) (path : String) : Address :=
  base fs.workingDirectory path

/-- Where a path leads. -/
def locate (fs : FileSystem) (path : Path) : Except LookupFault Reached :=
  match refusal? path.text with
  | some f => .error f
  | none => fs.follow maxLinks (fs.start path.text) (steps path.text)

/-- A directory stands at the address. -/
def isDirectoryAt (fs : FileSystem) (a : Address) : Bool :=
  match fs.entry? a with
  | some .directory => true
  | _ => false

/-- The path leads to a directory. -/
def isDirectory (fs : FileSystem) (path : Path) : Bool :=
  match fs.locate path with
  | .ok r => fs.isDirectoryAt r.address
  | .error _ => false

/-- The bytes of the file that a path leads to. -/
def readBytes (fs : FileSystem) (path : Path) : Except LookupFault ByteArray :=
  match fs.locate path with
  | .error e => .error e
  | .ok r =>
    match fs.entry? r.address with
    | some (.file bytes) => .ok bytes
    | some .directory => .error (.fault .isDirectory)
    | _ => .error .missing

/-- The entries directly in a directory. -/
def children (fs : FileSystem) (dir : Address) : List (String × FileEntry) :=
  fs.entries.filterMap fun e =>
    match e.1.getLast? with
    | some name => if e.1 = dir ++ [name] then some (name, e.2) else none
    | none => none

/-- The path of the names. -/
def pathOf (names : List String) : Path :=
  ⟨"/".intercalate names⟩

/-- A file that a listing has come to: the names that lead to it from where the listing began, and
where it stands. -/
structure Listed where
  names : List String
  address : Address
  deriving DecidableEq, Repr

/-- Where a listing gets by an entry of a directory, of which `path` is the whole path.  What is in
a directory or behind a link is looked up by that path.  No link is followed to a directory that is
being listed, which `chain` holds, and none that would be one link too many for the path. -/
def step? (fs : FileSystem) (path : Path) (chain : List Address) (dir : Reached) (name : String) :
    FileEntry → Option Reached
  | .file _ => some ⟨dir.address ++ [name], dir.links⟩
  | .directory =>
    if (refusal? path.text).isSome then none else some ⟨dir.address ++ [name], dir.links⟩
  | .link _ =>
    if (refusal? path.text).isSome then none
    else match fs.follow dir.links dir.address [name] with
      | .error _ => none
      | .ok r => if chain.contains r.address then none else some r

/-- The files below a directory that `names` lead to from the directory `root`. -/
def filesBelow (fs : FileSystem) (root : Path) :
    Nat → List Address → Reached → List String → List Listed
  | 0, _, _, _ => []
  | fuel + 1, chain, dir, names =>
    (fs.children dir.address).flatMap fun (name, entry) =>
      let names := names ++ [name]
      match fs.step? (root.join (pathOf names)) chain dir name entry with
      | none => []
      | some r =>
        match fs.entry? r.address with
        | some (.file _) => [⟨names, r.address⟩]
        | some .directory => fs.filesBelow root fuel (r.address :: chain) r names
        | _ => []

/-- The files below the directory `root`, which leads to `dir`.  Between two links a listing only
goes down, so it is never deeper than the number of entries, once for each link that may be followed
and once more. -/
def files (fs : FileSystem) (root : Path) (dir : Reached) : List Listed :=
  fs.filesBelow root ((maxLinks + 1) * (fs.entries.length + 1) + 1) [dir.address] dir []

/-- The address of the directory that steps from a directory lead to. -/
def directoryAt? (fs : FileSystem) (dir : Address) (path : List String) : Option Address :=
  match fs.follow maxLinks dir path with
  | .ok r => if fs.isDirectoryAt r.address then some r.address else none
  | .error _ => none

/-- Takes away the entries at all other addresses. -/
def keep (fs : FileSystem) (stays : Address → Bool) : FileSystem where
  entries := fs.entries.filter fun e => stays e.1
  workingDirectory := fs.workingDirectory
  distinct := fs.distinct.sublist (List.filter_sublist.map _)
  legal e he := fs.legal e (List.mem_filter.1 he).1

/-- Puts an entry at an address, if that is one that an entry can have. -/
def put (fs : FileSystem) (a : Address) (e : FileEntry) : FileSystem :=
  if h : ∀ name ∈ a, isFileName name = true then
    { fs.keep (· ≠ a) with
      entries := (fs.keep (· ≠ a)).entries ++ [(a, e)]
      distinct := by
        rw [List.map_append, List.nodup_append]
        refine ⟨(fs.keep (· ≠ a)).distinct, List.pairwise_singleton _ a, ?_⟩
        intro b hb c hc heq
        obtain ⟨x, hx, rfl⟩ := List.mem_map.1 hb
        have hne := (List.mem_filter.1 hx).2
        rw [heq, List.mem_singleton.1 hc] at hne
        simp at hne
      legal := by
        intro x hx
        rcases List.mem_append.1 hx with hx | hx
        · exact (fs.keep (· ≠ a)).legal x hx
        · rw [List.mem_singleton.1 hx]
          exact h }
  else fs

/-- The address of the entry that the last step names, whether or not there is one.  Links are
followed on the way only. -/
def place? (fs : FileSystem) (dir : Address) (path : List String) : Option Address :=
  match path.getLast? with
  | none => none
  | some name =>
    if name = "." ∨ name = ".." ∨ isTooLong name then none
    else (fs.directoryAt? dir path.dropLast).map (· ++ [name])

/-- The address of the file that is written at the end of the steps.  The file need not be there,
but all directories on the way must. -/
def fileAddress? (fs : FileSystem) (links : Nat) (dir : Address) : List String → Option Address
  | [] => none
  | s :: rest =>
    if s = "." then fs.fileAddress? links dir rest
    else if s = ".." then fs.fileAddress? links dir.dropLast rest
    else if isTooLong s then none
    else match fs.entry? (dir ++ [s]) with
      | some .directory => fs.fileAddress? links (dir ++ [s]) rest
      | some (.link target) =>
        match links with
        | 0 => none
        | links + 1 => fs.fileAddress? links (base dir target) (steps target ++ rest)
      | _ => if rest = [] then some (dir ++ [s]) else none
termination_by path => (links, path.length)

/-- The file system with a directory at the end of the steps, unless something else stands there
or the way there is missing. -/
def makeDirectory? (fs : FileSystem) (dir : Address) (path : List String) : Option FileSystem :=
  match fs.directoryAt? dir path with
  | some _ => some fs
  | none =>
    match fs.place? dir path with
    | some a => if (fs.entry? a).isSome then none else some (fs.put a .directory)
    | none => none

/-- Makes directories, up to the first that cannot be made. -/
def makeDirectories (fs : FileSystem) (dir : Address) : List (List String) → FileSystem
  | [] => fs
  | path :: paths =>
    match fs.makeDirectory? dir path with
    | some fs => fs.makeDirectories dir paths
    | none => fs

/-- The steps to the directories above a path, shortest first.  A single point is no step of its
own here. -/
def above (path : String) : List (List String) :=
  let parts := (names path).filter (· ≠ ".")
  (List.range parts.length).map parts.take

/-- Makes the directories above a path. -/
def makeParents (fs : FileSystem) (path : String) : FileSystem :=
  let parent := "/".intercalate ((names path).filter (· ≠ ".")).dropLast
  if (refusal? parent).isSome then fs else fs.makeDirectories (fs.start path) (above path)

/-- Writes a file.  Directories above it are made, and a link is followed. -/
def write (fs : FileSystem) (path : Path) (bytes : ByteArray) : FileSystem :=
  let fs := fs.makeParents path.text
  if (refusal? path.text).isSome then fs
  else match fs.fileAddress? maxLinks (fs.start path.text) (steps path.text) with
    | none => fs
    | some a => fs.put a (.file bytes)

/-- Makes a directory, and those above it. -/
def writeDirectory (fs : FileSystem) (path : Path) : FileSystem :=
  let fs := fs.makeParents path.text
  if (refusal? path.text).isSome then fs
  else (fs.makeDirectory? (fs.start path.text) (names path.text)).getD fs

/-- Makes a symbolic link where nothing is.  Directories above it are made. -/
def writeLink (fs : FileSystem) (path : Path) (target : String) : FileSystem :=
  let fs := fs.makeParents path.text
  if (refusal? path.text).isSome ∨ (refusal? target).isSome then fs
  else match fs.place? (fs.start path.text) (steps path.text) with
    | none => fs
    | some a => if (fs.entry? a).isSome then fs else fs.put a (.link target)

/-- Takes away an entry and all below it. -/
def remove (fs : FileSystem) (a : Address) : FileSystem :=
  fs.keep fun b => !a.isPrefixOf b

/-- Takes away all below the directory that the steps lead to, and leaves the directory. -/
def clear (fs : FileSystem) (dir : Address) (path : List String) : FileSystem :=
  match fs.directoryAt? dir path with
  | some a => fs.keep fun b => !a.isPrefixOf b || a = b
  | none => fs

/-- Takes away what a path names.  A link is taken away, not what it leads to.  A path that only
leads to a directory, by a point at its end or by a link with a slash after it, does not name the
directory: all below it goes, and it stays. -/
def erase (fs : FileSystem) (path : Path) : FileSystem :=
  if (refusal? path.text).isSome then fs
  else match fs.place? (fs.start path.text) (names path.text) with
    | none => fs.clear (fs.start path.text) (steps path.text)
    | some a =>
      match fs.entry? a with
      | none => fs
      | some .directory => fs.remove a
      | some (.file _) => if endsInSlash path.text then fs else fs.remove a
      | some (.link _) =>
        if endsInSlash path.text then fs.clear (fs.start path.text) (steps path.text)
        else fs.remove a

end FileSystem

end OverlayIndex
