/-
Where paths lead in a file system.

`Leads` says step by step where a path leads, and `follow` finds it.  The relation is what proofs
go by: a path that leads to a directory can be continued there, since what is behind a link is
followed together with the steps after it.

A listing goes down one name at a time and remembers where it stands, while reading a listed path
starts from the root again.  Both lead to the same file, whatever links are on the way.
-/
import OverlayIndex.Proofs.Source.Path
import OverlayIndex.Source.FileSystem

namespace OverlayIndex

namespace FileSystem

variable {fs : FileSystem} {links : Nat} {dir : Address} {name : String}
  {path xs ys : List String} {r r' : Reached}

/-! ### Following a path -/

/-- The step is a name, and not too long for one. -/
structure IsNamed (s : String) : Prop where
  not_point : s ≠ "."
  not_up : s ≠ ".."
  short : isTooLong s = false

/-- The steps lead from the directory to what is reached, and there are so many links to follow. -/
inductive Leads (fs : FileSystem) : Nat → Address → List String → Reached → Prop
  | nil {links : Nat} {dir : Address} : Leads fs links dir [] ⟨dir, links⟩
  | point {links : Nat} {dir : Address} {rest : List String} {r : Reached}
      (h : Leads fs links dir rest r) : Leads fs links dir ("." :: rest) r
  | up {links : Nat} {dir : Address} {rest : List String} {r : Reached}
      (h : Leads fs links dir.dropLast rest r) : Leads fs links dir (".." :: rest) r
  | directory {links : Nat} {dir : Address} {s : String} {rest : List String} {r : Reached}
      (hs : IsNamed s) (he : fs.entry? (dir ++ [s]) = some .directory)
      (h : Leads fs links (dir ++ [s]) rest r) : Leads fs links dir (s :: rest) r
  | file {links : Nat} {dir : Address} {s : String} {bytes : ByteArray} (hs : IsNamed s)
      (he : fs.entry? (dir ++ [s]) = some (.file bytes)) :
      Leads fs links dir [s] ⟨dir ++ [s], links⟩
  | link {links : Nat} {dir : Address} {s : String} {rest : List String} {r : Reached}
      {target : String} (hs : IsNamed s) (he : fs.entry? (dir ++ [s]) = some (.link target))
      (h : Leads fs links (base dir target) (steps target ++ rest) r) :
      Leads fs (links + 1) dir (s :: rest) r

/-- What a link leads to, with one link less to follow. -/
def jump (fs : FileSystem) : Nat → Address → List String → Except LookupFault Reached
  | 0 => fun _ _ => .error (.fault .tooManyLinks)
  | links + 1 => fs.follow links

theorem follow_eq (fs : FileSystem) (links : Nat) :
    fs.follow links = fs.followBy (fs.jump links) links := by
  cases links <;> rfl

/-- What is found by way of a link is led to, if that is so for one link less. -/
theorem leads_of_followBy
    (hjump : ∀ dir path r, fs.jump links dir path = .ok r →
      ∃ l, links = l + 1 ∧ fs.Leads l dir path r) :
    ∀ {path : List String} {dir : Address} {r : Reached},
      fs.followBy (fs.jump links) links dir path = .ok r → fs.Leads links dir path r := by
  intro path
  induction path with
  | nil =>
      intro dir r h
      cases h
      exact .nil
  | cons s rest ih =>
      intro dir r h
      unfold followBy at h
      by_cases hpoint : s = "."
      · rw [if_pos hpoint] at h
        exact hpoint ▸ .point (ih h)
      rw [if_neg hpoint] at h
      by_cases hup : s = ".."
      · rw [if_pos hup] at h
        exact hup ▸ .up (ih h)
      rw [if_neg hup] at h
      by_cases hlong : isTooLong s = true
      · rw [if_pos hlong] at h
        cases h
      rw [if_neg hlong] at h
      have hs : IsNamed s := ⟨hpoint, hup, Bool.eq_false_iff.2 hlong⟩
      cases he : fs.entry? (dir ++ [s]) with
      | none => rw [he] at h; cases h
      | some e =>
          rw [he] at h
          cases e with
          | directory => exact .directory hs he (ih h)
          | file bytes =>
              by_cases hrest : rest = []
              · subst hrest
                cases h
                exact .file hs he
              · simp only [hrest, if_false] at h
                cases h
          | link target =>
              obtain ⟨l, rfl, hl⟩ := hjump _ _ _ h
              exact .link hs he hl

theorem leads_of_follow : ∀ {links : Nat} {dir : Address} {path : List String} {r : Reached},
    fs.follow links dir path = .ok r → fs.Leads links dir path r := by
  intro links
  induction links with
  | zero =>
      intro dir path r h
      rw [follow_eq] at h
      refine leads_of_followBy ?_ h
      intro dir path r h
      cases h
  | succ l ih =>
      intro dir path r h
      rw [follow_eq] at h
      refine leads_of_followBy ?_ h
      intro dir path r h
      exact ⟨l, rfl, ih h⟩

theorem follow_of_leads (h : fs.Leads links dir path r) : fs.follow links dir path = .ok r := by
  induction h with
  | nil => rw [follow_eq]; rfl
  | point _ ih =>
      rw [follow_eq] at ih ⊢
      rw [followBy, if_pos rfl, ih]
  | up _ ih =>
      rw [follow_eq] at ih ⊢
      rw [followBy, if_neg (by decide), if_pos rfl, ih]
  | directory hs he _ ih =>
      rw [follow_eq] at ih ⊢
      rw [followBy, if_neg hs.not_point, if_neg hs.not_up, if_neg (by simp [hs.short]), he]
      exact ih
  | file hs he =>
      rw [follow_eq, followBy, if_neg hs.not_point, if_neg hs.not_up, if_neg (by simp [hs.short]),
        he]
      rfl
  | link hs he _ ih =>
      rw [follow_eq, followBy, if_neg hs.not_point, if_neg hs.not_up, if_neg (by simp [hs.short]),
        he]
      exact ih

theorem follow_eq_ok_iff : fs.follow links dir path = .ok r ↔ fs.Leads links dir path r :=
  ⟨leads_of_follow, follow_of_leads⟩

/-- **A path that leads to a directory can be continued from there.** -/
theorem Leads.append (h : fs.Leads links dir xs r) (hr : fs.isDirectoryAt r.address = true)
    (h' : fs.Leads r.links r.address ys r') : fs.Leads links dir (xs ++ ys) r' := by
  induction h with
  | nil => exact h'
  | point _ ih => exact .point (ih hr h')
  | up _ ih => exact .up (ih hr h')
  | directory hs he _ ih => exact .directory hs he (ih hr h')
  | file hs he =>
      unfold isDirectoryAt at hr
      rw [he] at hr
      cases hr
  | link hs he _ ih =>
      have hrest := ih hr h'
      rw [List.append_assoc] at hrest
      exact .link hs he hrest

/-- Points lead nowhere. -/
theorem Leads.points (h : fs.Leads links dir ys r) (hxs : ∀ s ∈ xs, s = ".") :
    fs.Leads links dir (xs ++ ys) r := by
  induction xs with
  | nil => exact h
  | cons s xs ih =>
      rw [hxs s (List.mem_cons_self ..)]
      exact .point (ih fun t ht => hxs t (List.mem_cons_of_mem _ ht))

/-- Where a path with a point at its end leads, it leads without the point. -/
theorem Leads.of_concat_point (h : fs.Leads links dir path r) :
    ∀ {xs : List String}, path = xs ++ ["."] → fs.Leads links dir xs r := by
  induction h with
  | nil => intro xs hxs; simp at hxs
  | point h ih =>
      intro xs hxs
      cases xs with
      | nil => cases hxs; exact h
      | cons x xs => cases hxs; exact .point (ih rfl)
  | up h ih =>
      intro xs hxs
      cases xs with
      | nil => simp at hxs
      | cons x xs => cases hxs; exact .up (ih rfl)
  | directory hs he h ih =>
      intro xs hxs
      cases xs with
      | nil => cases hxs; exact absurd rfl hs.not_point
      | cons x xs => cases hxs; exact .directory hs he (ih rfl)
  | file hs he =>
      intro xs hxs
      cases xs with
      | nil => cases hxs; exact absurd rfl hs.not_point
      | cons x xs => simp at hxs
  | link hs he h ih =>
      intro xs hxs
      cases xs with
      | nil => cases hxs; exact absurd rfl hs.not_point
      | cons x xs =>
          cases hxs
          exact .link hs he (ih (List.append_assoc ..).symm)

/-- A slash at the end of a path that leads somewhere makes no difference. -/
theorem Leads.names {text : String} (h : fs.Leads links dir (steps text) r) :
    fs.Leads links dir (names text) r := by
  unfold steps at h
  split at h
  · exact h.of_concat_point rfl
  · exact h

/-! ### Names in paths -/

theorem isFileName_iff :
    isFileName name = true ↔
      IsNamed name ∧ name ≠ "" ∧ '/' ∉ name.toList ∧ '\x00' ∉ name.toList := by
  unfold isFileName
  simp only [Bool.and_eq_true, decide_eq_true_eq, Bool.not_eq_true', List.contains_eq_mem,
    decide_eq_false_iff_not]
  constructor
  · rintro ⟨⟨⟨⟨⟨hempty, hpoint⟩, hup⟩, hlong⟩, hslash⟩, hnul⟩
    exact ⟨⟨hpoint, hup, hlong⟩, hempty, hslash, hnul⟩
  · rintro ⟨⟨hpoint, hup, hlong⟩, hempty, hslash, hnul⟩
    exact ⟨⟨⟨⟨⟨hempty, hpoint⟩, hup⟩, hlong⟩, hslash⟩, hnul⟩

theorem names_eq {text : String} {as bs : List Char} (h : text.toList = as ++ '/' :: bs) :
    names text = names (String.ofList as) ++ names (String.ofList bs) := by
  unfold names
  rw [h, splitOn_append, List.filter_append, List.map_append, String.toList_ofList,
    String.toList_ofList]

theorem names_join {dir p : Path} (hdir : dir.text ≠ "") (hp : p.isAbsolute = false) :
    names (dir.join p).text = names dir.text ++ names p.text := by
  obtain ⟨stem, hjoin, hstem⟩ := Path.exists_stem hdir hp
  rw [names_eq hjoin, String.ofList_toList]
  congr 1
  rcases hstem with ⟨hstem, -⟩ | hstem
  · rw [← hstem, String.ofList_toList]
  · rw [names_eq hstem]
    exact (List.append_nil _).symm

theorem names_of_isFileName (h : isFileName name = true) : names name = [name] := by
  obtain ⟨-, hempty, hslash, -⟩ := isFileName_iff.1 h
  have hne : name.toList ≠ [] := fun hnil => hempty (String.toList_eq_nil_iff.1 hnil)
  unfold names
  rw [splitOn_of_not_mem hslash]
  simp [hne]

theorem toList_pathOf_cons (name next : String) (rest : List String) :
    (pathOf (name :: next :: rest)).text.toList =
      name.toList ++ '/' :: (pathOf (next :: rest)).text.toList := by
  unfold pathOf
  rw [String.toList_intercalate, String.toList_intercalate, List.map_cons, List.map_cons,
    List.intercalate_cons_cons]
  simp

theorem pathOf_singleton (name : String) : (pathOf [name]).text = name := by
  rw [← String.toList_inj, pathOf, String.toList_intercalate]
  simp

theorem endsInSlash_of_append {text rest : String} {as : List Char}
    (h : text.toList = as ++ '/' :: rest.toList) (hrest : rest ≠ "") :
    endsInSlash text = endsInSlash rest := by
  have hne : rest.toList ≠ [] := fun hnil => hrest (String.toList_eq_nil_iff.1 hnil)
  have hlast := List.getLast?_eq_some_getLast hne
  unfold endsInSlash
  rw [h, List.getLast?_append, List.getLast?_cons, hlast]
  rfl

/-- The names of a path of names are these. -/
theorem names_pathOf {ns : List String} (h : ∀ name ∈ ns, isFileName name = true) :
    names (pathOf ns).text = ns := by
  induction ns with
  | nil => rfl
  | cons name rest ih =>
      have hname := names_of_isFileName (h name (List.mem_cons_self ..))
      cases rest with
      | nil => rw [pathOf_singleton, hname]
      | cons next rest =>
          have hrest := ih fun n hn => h n (List.mem_cons_of_mem _ hn)
          rw [names_eq (toList_pathOf_cons name next rest), String.ofList_toList,
            String.ofList_toList, hname, hrest]
          rfl

/-- A path of names begins with the first of them. -/
theorem exists_toList_pathOf (name : String) (rest : List String) :
    ∃ more, (pathOf (name :: rest)).text.toList = name.toList ++ more := by
  cases rest with
  | nil => exact ⟨[], by rw [pathOf_singleton, List.append_nil]⟩
  | cons next rest => exact ⟨_, toList_pathOf_cons name next rest⟩

theorem pathOf_ne_empty {ns : List String} {name : String}
    (h : ∀ n ∈ name :: ns, isFileName n = true) : (pathOf (name :: ns)).text ≠ "" := by
  obtain ⟨-, hempty, -, -⟩ := isFileName_iff.1 (h name (List.mem_cons_self ..))
  obtain ⟨more, hmore⟩ := exists_toList_pathOf name ns
  intro heq
  rw [heq] at hmore
  have hnil := List.append_eq_nil_iff.1 hmore.symm
  exact hempty (String.toList_eq_nil_iff.1 hnil.1)

theorem isAbsolute_pathOf {ns : List String} (h : ∀ name ∈ ns, isFileName name = true) :
    (pathOf ns).isAbsolute = false := by
  cases ns with
  | nil => rfl
  | cons name rest =>
      obtain ⟨-, hempty, hslash, -⟩ := isFileName_iff.1 (h name (List.mem_cons_self ..))
      obtain ⟨more, hmore⟩ := exists_toList_pathOf name rest
      rw [Path.isAbsolute_eq_false_iff, hmore]
      cases hcs : name.toList with
      | nil => exact absurd (String.toList_eq_nil_iff.1 hcs) hempty
      | cons c cs =>
          intro hhead
          rw [hcs, ← Option.some.inj hhead] at hslash
          exact hslash (List.mem_cons_self ..)

/-- A path of names does not end in a slash. -/
theorem endsInSlash_pathOf {ns : List String} (h : ∀ name ∈ ns, isFileName name = true) :
    endsInSlash (pathOf ns).text = false := by
  induction ns with
  | nil => rfl
  | cons name rest ih =>
      obtain ⟨-, -, hslash, -⟩ := isFileName_iff.1 (h name (List.mem_cons_self ..))
      cases rest with
      | nil =>
          rw [pathOf_singleton, endsInSlash, decide_eq_false_iff_not]
          exact fun hlast => hslash (List.mem_of_getLast? hlast)
      | cons next rest =>
          have hrest := fun n hn => h n (List.mem_cons_of_mem _ hn)
          rw [endsInSlash_of_append (toList_pathOf_cons name next rest) (pathOf_ne_empty hrest)]
          exact ih hrest

theorem steps_pathOf {ns : List String} (h : ∀ name ∈ ns, isFileName name = true) :
    steps (pathOf ns).text = ns := by
  unfold steps
  rw [if_neg (by simp [endsInSlash_pathOf h]), names_pathOf h]

/-- The steps of a joined path are the names of the directory and the steps of the other path. -/
theorem steps_join {dir p : Path} (hdir : dir.text ≠ "") (hp : p.isAbsolute = false)
    (hne : p.text ≠ "") : steps (dir.join p).text = names dir.text ++ steps p.text := by
  obtain ⟨stem, hjoin, -⟩ := Path.exists_stem hdir hp
  unfold steps
  rw [names_join hdir hp, endsInSlash_of_append hjoin hne]
  split
  · exact List.append_assoc ..
  · rfl

/-- A path without steps has only points for names. -/
theorem eq_point_of_mem_names {p : Path} (hp : p.inner = []) {s : String} (hs : s ∈ names p.text) :
    s = "." := by
  obtain ⟨cs, hcs, rfl⟩ := List.mem_map.1 hs
  obtain ⟨hmem, hne⟩ := List.mem_filter.1 hcs
  have hnone := List.filterMap_eq_nil_iff.1 hp cs hmem
  rcases Component.ofSegment?_eq_none_iff.1 hnone with rfl | rfl
  · simp at hne
  · rfl

theorem nul_not_mem_pathOf {ns : List String} (h : ∀ name ∈ ns, isFileName name = true) :
    '\x00' ∉ (pathOf ns).text.toList := by
  induction ns with
  | nil => simp [pathOf]
  | cons name rest ih =>
      obtain ⟨-, -, -, hnul⟩ := isFileName_iff.1 (h name (List.mem_cons_self ..))
      cases rest with
      | nil => rw [pathOf_singleton]; exact hnul
      | cons next rest =>
          have hrest := ih fun n hn => h n (List.mem_cons_of_mem _ hn)
          rw [toList_pathOf_cons]
          simp only [List.mem_append, List.mem_cons, not_or]
          exact ⟨hnul, by decide, hrest⟩

/-! ### Listing -/

theorem entry?_of_mem {a : Address} {e : FileEntry} (h : (a, e) ∈ fs.entries) (ha : a ≠ []) :
    fs.entry? a = some e := by
  unfold entry?
  rw [if_neg ha, Option.map_eq_some_iff]
  obtain ⟨before, behind, hsplit⟩ := List.append_of_mem h
  refine ⟨(a, e), List.find?_eq_some_iff_append.2 ⟨by simp, before, behind, hsplit, ?_⟩, rfl⟩
  intro x hx
  have hdistinct := fs.distinct
  rw [hsplit, List.map_append, List.map_cons, List.nodup_append] at hdistinct
  have hne := hdistinct.2.2 x.1 (List.mem_map_of_mem hx) a (List.mem_cons_self ..)
  simp [hne]

theorem entry?_of_mem_children {e : FileEntry} (h : (name, e) ∈ fs.children dir) :
    fs.entry? (dir ++ [name]) = some e ∧ isFileName name = true := by
  obtain ⟨⟨a, e'⟩, hmem, hsome⟩ := List.mem_filterMap.1 h
  cases hlast : a.getLast? with
  | none => simp [hlast] at hsome
  | some n =>
      simp only [hlast, Option.ite_none_right_eq_some, Option.some.injEq, Prod.mk.injEq] at hsome
      obtain ⟨ha, rfl, rfl⟩ := hsome
      refine ⟨entry?_of_mem (ha ▸ hmem) (by simp), ?_⟩
      exact fs.legal _ hmem n (List.mem_of_getLast? hlast)

/-- The step of a listing is one of a path. -/
theorem leads_of_step? {p : Path} {chain : List Address} {here : Reached} {e : FileEntry}
    (he : fs.entry? (here.address ++ [name]) = some e) (hname : isFileName name = true)
    (h : fs.step? p chain here name e = some r) : fs.Leads here.links here.address [name] r := by
  have hs := (isFileName_iff.1 hname).1
  cases e with
  | file bytes =>
      cases h
      exact .file hs he
  | directory =>
      rw [step?, Option.ite_none_left_eq_some] at h
      cases h.2
      exact .directory hs he .nil
  | link target =>
      rw [step?, Option.ite_none_left_eq_some] at h
      cases hfollow : fs.follow here.links here.address [name] with
      | error f => simp [hfollow] at h
      | ok r' =>
          simp only [hfollow, Option.ite_none_left_eq_some, Option.some.injEq] at h
          rw [← h.2.2]
          exact follow_eq_ok_iff.1 hfollow

/-- **The names that a listing gives lead to the file that it has come to.** -/
theorem leads_of_mem_filesBelow {root : Path} : ∀ {fuel : Nat} {chain : List Address}
    {here : Reached} {ns : List String} {file : Listed},
    file ∈ fs.filesBelow root fuel chain here ns →
      ∃ more, file.names = ns ++ more ∧ more ≠ [] ∧ (∀ n ∈ more, isFileName n = true) ∧
        ∃ links bytes, fs.Leads here.links here.address more ⟨file.address, links⟩ ∧
          fs.entry? file.address = some (.file bytes) := by
  intro fuel
  induction fuel with
  | zero => intro chain here ns file h; simp [filesBelow] at h
  | succ fuel ih =>
      intro chain here ns file h
      unfold filesBelow at h
      obtain ⟨⟨name, e⟩, hchild, h⟩ := List.mem_flatMap.1 h
      obtain ⟨he, hname⟩ := entry?_of_mem_children hchild
      cases hstep : fs.step? (root.join (pathOf (ns ++ [name]))) chain here name e with
      | none => simp [hstep] at h
      | some r =>
          have hleads := leads_of_step? he hname hstep
          cases hr : fs.entry? r.address with
          | none => simp [hstep, hr] at h
          | some found =>
              simp only [hstep, hr] at h
              cases found with
              | file bytes =>
                  rw [List.mem_singleton.1 h]
                  exact ⟨[name], rfl, by simp, by simpa using hname, r.links, bytes, hleads, hr⟩
              | directory =>
                  obtain ⟨more, hnames, -, hmore, links, bytes, hbelow, hfile⟩ := ih h
                  have hdir : fs.isDirectoryAt r.address = true := by rw [isDirectoryAt, hr]
                  refine ⟨name :: more, by rw [hnames]; simp, by simp, ?_, links, bytes,
                    hleads.append hdir hbelow, hfile⟩
                  intro n hn
                  rcases List.mem_cons.1 hn with rfl | hn
                  · exact hname
                  · exact hmore n hn
              | link target => simp at h

/-! ### Looking up -/

theorem start_join (fs : FileSystem) {dir p : Path} (hdir : dir.text ≠ "")
    (hp : p.isAbsolute = false) : fs.start (dir.join p).text = fs.start dir.text := by
  have habsolute := Path.isAbsolute_join hdir hp
  unfold Path.isAbsolute at habsolute
  rw [decide_eq_decide] at habsolute
  unfold start base
  simp only [habsolute]

theorem start_of_relative (fs : FileSystem) {p : Path} (hp : p.isAbsolute = false) :
    fs.start p.text = fs.workingDirectory := by
  unfold start base
  rw [if_neg (Path.isAbsolute_eq_false_iff.1 hp)]

theorem refusal?_of_noNul {text : String} (hne : text ≠ "") (hnul : '\x00' ∉ text.toList) :
    refusal? text =
      if byteLength text.toList ≤ maxPath then none else some (.fault .nameTooLong) := by
  unfold refusal?
  rw [if_neg hne, if_neg (by simpa using hnul)]
  by_cases hlong : byteLength text.toList ≤ maxPath
  · rw [if_pos hlong, if_neg (Nat.not_lt.2 hlong)]
  · rw [if_neg hlong, if_pos (Nat.not_le.1 hlong)]

/-- The path could be looked up, were it not for its length, and leads to this address then. -/
structure LeadsTo (fs : FileSystem) (p : Path) (a : Address) : Prop where
  nonempty : p.text ≠ ""
  noNul : '\x00' ∉ p.text.toList
  leads : ∃ links, fs.Leads maxLinks (fs.start p.text) (steps p.text) ⟨a, links⟩

theorem leads_of_locate {p : Path} (h : fs.locate p = .ok r) :
    p.text ≠ "" ∧ '\x00' ∉ p.text.toList ∧
      fs.Leads maxLinks (fs.start p.text) (steps p.text) r := by
  unfold locate at h
  cases hrefusal : refusal? p.text with
  | some f => rw [hrefusal] at h; cases h
  | none =>
      rw [hrefusal] at h
      unfold refusal? at hrefusal
      split at hrefusal
      · cases hrefusal
      · rename_i hne
        split at hrefusal
        · cases hrefusal
        · rename_i hnul
          exact ⟨hne, by simpa using hnul, leads_of_follow h⟩

theorem noNul_join {dir p : Path} (hdir : dir.text ≠ "") (hnul : '\x00' ∉ dir.text.toList)
    (hp : p.isAbsolute = false) (hnul' : '\x00' ∉ p.text.toList) :
    '\x00' ∉ (dir.join p).text.toList := by
  obtain ⟨stem, hjoin, hstem⟩ := Path.exists_stem hdir hp
  have hfront : '\x00' ∉ stem := by
    intro hmem
    rcases hstem with ⟨hstem, -⟩ | hstem
    · exact hnul (hstem ▸ hmem)
    · exact hnul (hstem ▸ List.mem_append_left _ hmem)
  rw [hjoin]
  simp only [List.mem_append, List.mem_cons, not_or]
  exact ⟨hfront, by decide, hnul'⟩

/-- Reading a path gives the file that it leads to, unless the path is too long. -/
theorem LeadsTo.readBytes {p : Path} {a : Address} {bytes : ByteArray} (h : fs.LeadsTo p a)
    (ha : fs.entry? a = some (.file bytes)) :
    fs.readBytes p =
      if byteLength p.text.toList ≤ maxPath then .ok bytes else .error (.fault .nameTooLong) := by
  obtain ⟨links, hleads⟩ := h.leads
  unfold FileSystem.readBytes locate
  rw [refusal?_of_noNul h.nonempty h.noNul]
  by_cases hlong : byteLength p.text.toList ≤ maxPath
  · rw [if_pos hlong, if_pos hlong]
    simp only [follow_of_leads hleads, ha]
  · rw [if_neg hlong, if_neg hlong]

/-- Names below a directory lead on from it. -/
theorem leadsTo_pathOf {dir : Path} {ns : List String} {file : Reached}
    (hdir : fs.locate dir = .ok r) (hr : fs.isDirectoryAt r.address = true)
    (hns : ∀ n ∈ ns, isFileName n = true) (hne : ns ≠ [])
    (h : fs.Leads r.links r.address ns file) : fs.LeadsTo (dir.join (pathOf ns)) file.address := by
  obtain ⟨hempty, hnul, hleads⟩ := leads_of_locate hdir
  have hrelative := isAbsolute_pathOf hns
  obtain ⟨name, rest, rfl⟩ := List.exists_cons_of_ne_nil hne
  refine ⟨Path.text_join_ne_empty hempty hrelative,
    noNul_join hempty hnul hrelative (nul_not_mem_pathOf hns), file.links, ?_⟩
  rw [fs.start_join hempty hrelative, steps_join hempty hrelative (pathOf_ne_empty hns),
    steps_pathOf hns]
  exact hleads.names.append hr h

/-- A relative path leads to the same from where it starts and from a point there. -/
theorem LeadsTo.join {dir p : Path} {a : Address} (h : fs.LeadsTo p a)
    (hp : p.isAbsolute = false) (hdir : dir.components = [.here])
    (hdir' : dir.isAbsolute = false) (hne : dir.text ≠ "") (hnul : '\x00' ∉ dir.text.toList) :
    fs.LeadsTo (dir.join p) a := by
  obtain ⟨links, hleads⟩ := h.leads
  refine ⟨Path.text_join_ne_empty hne hp, noNul_join hne hnul hp h.noNul, links, ?_⟩
  rw [fs.start_join hne hp, fs.start_of_relative hdir', steps_join hne hp h.nonempty]
  rw [fs.start_of_relative hp] at hleads
  have hinner := (Path.inner_eq_nil_iff hne hdir').2 hdir
  exact hleads.points fun s hs => eq_point_of_mem_names hinner hs

end FileSystem

end OverlayIndex
