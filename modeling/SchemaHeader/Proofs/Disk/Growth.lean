import SchemaHeader.Proofs.Disk.Trimmed
import SchemaHeader.Proofs.Disk.Within

/-! When the directories of a path can be added, and a file written. A disk that can still grow into
one where the path leads there has nothing in the way, and then both succeed. -/
namespace SchemaHeader.Disk

variable {disk mid later final : Disk} {place next target : Place} {node other : Node}
  {p q : Path} {segment name : String} {segments : List String} {bytes : List UInt8}

section Reach

/-- The path leads to `target`, and all that there is on the way to it is there. -/
theorem findLast_eq_ok {init : List String} (hchecked : checked p = .ok ())
    (hsegments : p.segments = init ++ [name])
    (hway : init.foldlM disk.step (disk.start p) = .ok place)
    (hdir : disk.node? place = some .directory) (hidle : ¬ Path.isIdle name) (hup : name ≠ "..")
    (hsize : name.utf8ByteSize ≤ nameLimit) : disk.findLast p = .ok (place, some name) := by
  rw [findLast, bind_eq_ok_iff]
  refine ⟨(), hchecked, ?_⟩
  rw [hsegments, List.dropLast_concat, bind_eq_ok_iff]
  refine ⟨place, hway, ?_⟩
  simp [hdir, hidle, hup, Nat.not_lt.mpr hsize]

/-- A step fails for want of something to lead to only where a name could be added. -/
theorem step_eq_notFound (h : disk.step place segment = .error .notFound) :
    disk.node? place = some .directory ∧ ¬ Path.isIdle segment ∧ segment ≠ ".." ∧
      segment.utf8ByteSize ≤ nameLimit ∧ disk.node? (segment :: place) = none := by
  rw [step] at h
  split at h
  · cases h
  · next hdir =>
    split at h
    · cases h
    · next hidle =>
      split at h
      · cases h
      · next hup =>
        split at h
        · cases h
        · next hsize =>
          split at h
          · next hnode =>
            exact ⟨by simpa using hdir, hidle, hup, Nat.le_of_not_lt hsize, by simpa using hnode⟩
          · cases h

/-- Where only the last segment of a path leads to nothing, a directory is added for it. -/
theorem exists_makeDirectory_eq_ok {init : List String} (hchecked : checked p = .ok ())
    (hsegments : p.segments = init ++ [name])
    (hway : init.foldlM disk.step (disk.start p) = .ok place)
    (hmissing : disk.step place name = .error .notFound) :
    ∃ later, disk.makeDirectory p = .ok later := by
  obtain ⟨hdir, hidle, hup, hsize, hnode⟩ := step_eq_notFound hmissing
  have hlast := findLast_eq_ok hchecked hsegments hway hdir hidle hup hsize
  refine ⟨disk.put (name :: place) .directory, ?_⟩
  simp [makeDirectory, hlast, hnode, bind, Except.bind]

/-- A missing directory can be made, or one above it is missing too. -/
theorem makeDirectory_cases (hchecked : checked p = .ok ())
    (h : p.segments.foldlM disk.step (disk.start p) = .error .notFound) :
    disk.makeDirectory p = .error .notFound ∨ ∃ later, disk.makeDirectory p = .ok later := by
  obtain hnil | ⟨init, name, hsegments⟩ := List.eq_nil_or_concat p.segments
  · rw [hnil] at h
    cases h
  · rw [List.concat_eq_append] at hsegments
    rw [hsegments, List.foldlM_append] at h
    cases hway : init.foldlM disk.step (disk.start p) with
    | ok place =>
      rw [hway] at h
      have hmissing : [name].foldlM disk.step place = .error .notFound := h
      simp only [List.foldlM_cons, List.foldlM_nil, bind_pure] at hmissing
      exact Or.inr (exists_makeDirectory_eq_ok hchecked hsegments hway hmissing)
    | error fault =>
      rw [hway] at h
      left
      obtain rfl : fault = .notFound := Except.error.inj h
      simp [makeDirectory, findLast, hchecked, hsegments, hway, bind, Except.bind]

theorem makeDirectory_ne_notFound (hchecked : checked p = .ok ()) (hnil : p.segments = []) :
    disk.makeDirectory p ≠ .error .notFound := by
  rw [makeDirectory, findLast, hchecked, hnil]
  by_cases hdir : disk.node? (disk.start p) = some .directory
  · simp [hdir, bind, Except.bind, pure, Except.pure]
  · simp [hdir, bind, Except.bind, pure, Except.pure]

theorem isDirectory_of_foldlM_step (hchecked : checked p = .ok ())
    (hway : p.segments.foldlM disk.step (disk.start p) = .ok target)
    (hdir : disk.node? target = some .directory) : disk.isDirectory p = true := by
  have hfind : disk.find p = .ok target := find_eq_ok_iff.mpr ⟨hchecked, hway⟩
  simp [isDirectory, nodeAt?, hfind, hdir]

theorem foldlM_step_trimmed (h : p.segments.foldlM disk.step place = .ok target) :
    p.trimmed.segments.foldlM disk.step place = .ok target := by
  obtain ⟨idle, hidle, hsegments⟩ := Path.exists_segments_eq_trimmed_append p
  rw [hsegments, foldlM_step_append] at h
  obtain ⟨via, hway, hrest⟩ := h
  rwa [eq_of_foldlM_step_idle hidle hrest]

theorem foldlM_step_of_trimmed (h : p.trimmed.segments.foldlM disk.step place = .ok target)
    (hdir : disk.node? target = some .directory) :
    p.segments.foldlM disk.step place = .ok target := by
  obtain ⟨idle, hidle, hsegments⟩ := Path.exists_segments_eq_trimmed_append p
  rw [hsegments, foldlM_step_append]
  exact ⟨target, h, foldlM_step_idle hidle hdir⟩

/-- A path is taken that is not empty, has no null character and is not too long. -/
theorem checked_eq_ok_iff : checked p = .ok () ↔
    '\x00' ∉ p.text.toList ∧ p.text.isEmpty = false ∧ p.text.utf8ByteSize ≤ pathLimit := by
  rw [checked]
  by_cases hnul : '\x00' ∈ p.text.toList
  · simp [hnul]
  · cases hempty : p.text.isEmpty with
    | true => simp [hnul]
    | false =>
      by_cases hsize : p.text.utf8ByteSize ≤ pathLimit
      · simp [hnul, hsize, Nat.not_lt.mpr hsize]
      · simp [hnul, hsize, Nat.lt_of_not_le hsize]

/-- The system takes a path if it takes one that goes on from it. -/
theorem checked_of_prefix (hrooted : q.rooted = p.rooted) (hsegments : q.segments <+: p.segments)
    (hne : q.text.isEmpty = false) (h : checked p = .ok ()) : checked q = .ok () := by
  obtain ⟨rest, htext⟩ := Path.exists_text_eq_append hrooted hsegments
  rw [checked_eq_ok_iff, htext, String.toList_append, List.mem_append, not_or,
    String.utf8ByteSize_append] at h
  obtain ⟨⟨hnul, -⟩, -, hsize⟩ := h
  exact checked_eq_ok_iff.mpr ⟨hnul, hne, by omega⟩

end Reach

section Directories

/-- A directory that was added is where its path leads. -/
theorem Within.makeDirectory (h : disk.Within final) (hmake : disk.makeDirectory p = .ok later)
    (hway : p.segments.foldlM final.step (final.start p) = .ok target)
    (hdir : final.node? target = some .directory) :
    later.Within final ∧ p.segments.foldlM later.step (later.start p) = .ok target := by
  have hkept := kept_makeDirectory hmake
  obtain ⟨place, name, hlast, -, rfl⟩ := makeDirectory_of_ok hmake
  have htarget : target = name :: place := by
    rw [placeOf_of_findLast hlast, foldlM_step_eq_walk hway, h.start_eq]
    rfl
  have hself : (disk.put (name :: place) .directory).node? (name :: place) = some .directory :=
    node?_put_self (by simp)
  rw [htarget] at hdir ⊢
  refine ⟨h.put hdir Iff.rfl, ?_⟩
  exact (find_eq_ok_iff.mp (hkept.find_of_findLast hlast (by simp [hself]))).2

/-- With its parent in place, a directory is there or can be added. -/
theorem Within.makeDirectory_cases {init : List String} (h : disk.Within final)
    (htree : disk.IsTree) (hchecked : checked p = .ok ()) (hsegments : p.segments = init ++ [name])
    (hinit : init.foldlM disk.step (disk.start p) = .ok place)
    (hway : p.segments.foldlM final.step (final.start p) = .ok target) :
    p.segments.foldlM disk.step (disk.start p) = .ok target ∨
      ∃ later, disk.makeDirectory p = .ok later := by
  rw [h.start_eq] at hway
  refine (h.foldlM_cases htree htree.isSome_start hway).imp_right fun hmissing => ?_
  have hstep : [name].foldlM disk.step place = .error .notFound := by
    rw [hsegments, List.foldlM_append, hinit] at hmissing
    exact hmissing
  simp only [List.foldlM_cons, List.foldlM_nil, bind_pure] at hstep
  exact exists_makeDirectory_eq_ok hchecked hsegments hinit hstep

theorem start_eq_of_rooted_eq (h : q.rooted = p.rooted) : disk.start q = disk.start p := by
  rw [start, start, h]

/-- The way to a path goes through the directory of its parent. -/
theorem exists_way_to_parent (htrimmed : p.trimmed = p) (hparent : p.parent? = some q)
    (hchecked : checked p = .ok ())
    (hway : p.segments.foldlM final.step (final.start p) = .ok target) :
    ∃ init name via, p.segments = init ++ [name] ∧ final.node? via = some .directory ∧
      q.trimmed = q ∧ (q.text.isEmpty = false → checked q = .ok ()) ∧
      q.segments.foldlM final.step (final.start q) = .ok via ∧
      ∀ {disk : Disk}, q.segments.foldlM disk.step (disk.start q) = .ok via →
        disk.node? via = some .directory → init.foldlM disk.step (disk.start p) = .ok via := by
  obtain hnil | ⟨init, name, hsegments⟩ := List.eq_nil_or_concat p.segments
  · rw [Path.parent?, htrimmed, hnil] at hparent
    cases hparent
  · rw [List.concat_eq_append] at hsegments
    rw [Path.parent?_eq_some htrimmed hsegments] at hparent
    obtain rfl := Option.some.inj hparent
    rw [hsegments, foldlM_step_append] at hway
    obtain ⟨via, hinit, hname⟩ := hway
    have hrooted : (Path.trimmed { p with segments := init }).rooted = p.rooted :=
      Path.rooted_trimmed _
    have hprefix : (Path.trimmed { p with segments := init }).segments <+: p.segments := by
      rw [hsegments]
      exact (Path.prefix_segments_trimmed { p with segments := init }).trans
        (List.prefix_append init [name])
    refine ⟨init, name, via, hsegments, directory_of_foldlM_step (by simp) hname,
      Path.trimmed_trimmed _, fun hne => checked_of_prefix hrooted hprefix hne hchecked, ?_, ?_⟩
    · rw [start_eq_of_rooted_eq hrooted]
      exact foldlM_step_trimmed (p := { p with segments := init }) hinit
    · intro disk hvia hdir
      rw [start_eq_of_rooted_eq hrooted] at hvia
      exact foldlM_step_of_trimmed (p := { p with segments := init }) hvia hdir

theorem Within.isDirectory (h : disk.Within final) (htree : disk.IsTree)
    (hchecked : checked p = .ok ()) (hway : p.segments.foldlM disk.step (disk.start p) = .ok target)
    (hdir : final.node? target = some .directory) : disk.isDirectory p = true :=
  isDirectory_of_foldlM_step hchecked hway
    (h.directory_of_isSome (htree.isSome_foldlM htree.isSome_start hway) hdir)

/-- A directory that the disk can grow is there after it was asked for. -/
theorem Within.makeDirectories (h : disk.Within final) (htree : disk.IsTree)
    (htrimmed : p.trimmed = p) (hchecked : p.text.isEmpty = false → checked p = .ok ())
    (hway : p.segments.foldlM final.step (final.start p) = .ok target)
    (hdir : final.node? target = some .directory) :
    ∃ later, Disk.makeDirectories p disk = (later, none) ∧ later.Within final ∧
      p.segments.foldlM later.step (later.start p) = .ok target := by
  have hmakes := makes_makeDirectories p disk
  generalize Disk.makeDirectories p disk = made at hmakes ⊢
  induction hmakes generalizing target with
  | unnamed hempty =>
    have hnil := Path.segments_eq_nil_of_text htrimmed hempty
    rw [hnil, h.start_eq] at hway
    refine ⟨_, rfl, h, ?_⟩
    rw [hnil]
    exact hway
  | made hempty hmake => exact ⟨_, rfl, h.makeDirectory hmake hway hdir⟩
  | topMissing hempty hmissing hparent =>
    have hnil := Path.segments_eq_nil_of_parent? htrimmed hparent
    exact (makeDirectory_ne_notFound (hchecked hempty) hnil hmissing).elim
  | parentFailed hempty hmissing hparent hmid ih =>
    obtain ⟨init, name, via, -, hvia, hqtrimmed, hqchecked, hqway, -⟩ :=
      exists_way_to_parent htrimmed hparent (hchecked hempty) hway
    obtain ⟨_, hmade, -⟩ := ih h htree hqtrimmed hqchecked hqway hvia
    cases hmade
  | madeLater hempty hmissing hparent hmid hmake ih =>
    obtain ⟨init, name, via, -, hvia, hqtrimmed, hqchecked, hqway, -⟩ :=
      exists_way_to_parent htrimmed hparent (hchecked hempty) hway
    obtain ⟨_, ⟨⟩, hwithin, -⟩ := ih h htree hqtrimmed hqchecked hqway hvia
    exact ⟨_, rfl, hwithin.makeDirectory hmake hway hdir⟩
  | @failedLater p parent disk mid fault hempty hmissing hparent hmid hmake ih =>
    have hok := hchecked hempty
    obtain ⟨init, name, via, hsegments, hvia, hqtrimmed, hqchecked, hqway, hback⟩ :=
      exists_way_to_parent htrimmed hparent hok hway
    obtain ⟨_, ⟨⟩, hwithin, hqmid⟩ := ih h htree hqtrimmed hqchecked hqway hvia
    have hmidtree : mid.IsTree := htree.of_makes hmid
    have hmidvia : mid.node? via = some .directory :=
      hwithin.directory_of_isSome (hmidtree.isSome_foldlM hmidtree.isSome_start hqmid) hvia
    obtain hnow | ⟨later, hlater⟩ :=
      hwithin.makeDirectory_cases hmidtree hok hsegments (hback hqmid hmidvia) hway
    · have hthere := hwithin.isDirectory hmidtree hok hnow hdir
      exact ⟨mid, by simp [hthere], hwithin, hnow⟩
    · cases hmake.symm.trans hlater
  | failed hempty hother hmake =>
    have hok := hchecked hempty
    rw [h.start_eq] at hway
    obtain hnow | hmissing := h.foldlM_cases htree htree.isSome_start hway
    · have hthere := h.isDirectory htree hok hnow hdir
      exact ⟨_, by simp [hthere], h, hnow⟩
    · obtain hnone | ⟨later, hlater⟩ := Disk.makeDirectory_cases hok hmissing
      · exact (hother (Except.error.inj (hmake.symm.trans hnone))).elim
      · cases hmake.symm.trans hlater

theorem way_of_isDirectory (h : disk.isDirectory p = true) :
    ∃ target, p.segments.foldlM disk.step (disk.start p) = .ok target ∧
      disk.node? target = some .directory := by
  rw [Disk.isDirectory, nodeAt?] at h
  cases hfind : disk.find p with
  | error fault => simp [hfind] at h
  | ok target => exact ⟨target, (find_eq_ok_iff.mp hfind).2, by simpa [hfind] using h⟩

theorem way_of_makeDirectory (hmake : disk.makeDirectory p = .ok later) :
    ∃ target, p.segments.foldlM later.step (later.start p) = .ok target ∧
      later.node? target = some .directory := by
  have hkept := kept_makeDirectory hmake
  obtain ⟨place, name, hlast, -, rfl⟩ := makeDirectory_of_ok hmake
  have hself : (disk.put (name :: place) .directory).node? (name :: place) = some .directory :=
    node?_put_self (by simp)
  exact ⟨name :: place,
    (find_eq_ok_iff.mp (hkept.find_of_findLast hlast (by simp [hself]))).2, hself⟩

/-- Where nothing is reported the directory is there. -/
theorem way_of_makeDirectories (htree : disk.IsTree) (htrimmed : p.trimmed = p)
    (hmade : makeDirectories p disk = (later, none)) :
    ∃ target, p.segments.foldlM later.step (later.start p) = .ok target ∧
      later.node? target = some .directory := by
  have hthere {mid : Disk} {fault : DiskFault}
      (h : (mid, if mid.isDirectory p then none else some fault) = (later, none)) :
      ∃ target, p.segments.foldlM later.step (later.start p) = .ok target ∧
        later.node? target = some .directory := by
    obtain ⟨rfl, hnone⟩ := Prod.mk.inj h
    refine way_of_isDirectory ?_
    by_contra hnot
    simp [hnot] at hnone
  have hmakes := makes_makeDirectories p disk
  generalize makeDirectories p disk = made at hmakes hmade
  cases hmakes with
  | unnamed hempty =>
    cases hmade
    rw [Path.segments_eq_nil_of_text htrimmed hempty]
    exact ⟨_, rfl, htree.directory_start⟩
  | made hempty hmake =>
    cases hmade
    exact way_of_makeDirectory hmake
  | topMissing hempty hmissing hparent => cases hmade
  | parentFailed hempty hmissing hparent hmid => cases hmade
  | madeLater hempty hmissing hparent hmid hmake =>
    cases hmade
    exact way_of_makeDirectory hmake
  | failedLater hempty hmissing hparent hmid hmake => exact hthere hmade
  | failed hempty hother hmake => exact hthere hmade

/-- The way to a path goes through directories. -/
theorem directory_placeOf (hq : q.IsAncestor p) (hfind : disk.find p = .ok target) :
    disk.node? (disk.placeOf q) = some .directory := by
  obtain ⟨hrooted, below, hbelow, hsegments⟩ := hq
  obtain ⟨-, hway⟩ := find_eq_ok_iff.mp hfind
  rw [hsegments, foldlM_step_append, ← start_eq_of_rooted_eq hrooted] at hway
  obtain ⟨via, hvia, hrest⟩ := hway
  rw [placeOf, ← foldlM_step_eq_walk hvia]
  exact directory_of_foldlM_step hbelow hrest

/-- A path goes through the directory `q` where it goes on from the segments of `q` that lead
somewhere. -/
theorem AtOrAbove.directory {above idle : List String} (h : disk.AtOrAbove q.trimmed place)
    (hidle : ∀ segment ∈ idle, Path.isIdle segment) (hsegments : q.segments = above ++ idle)
    (hgoes : Path.IsAncestor ⟨q.rooted, above⟩ p) (hfind : disk.find p = .ok target) :
    disk.node? place = some .directory := by
  obtain ⟨r, hr, rfl⟩ := h
  have hrooted : r.rooted = q.rooted := by
    rcases hr with rfl | hr
    · exact Path.rooted_trimmed q
    · exact hr.1.trans (Path.rooted_trimmed q)
  have htrimmed : r.segments <+: q.trimmed.segments := by
    rcases hr with rfl | ⟨-, below, -, hbelow⟩
    · exact List.prefix_refl _
    · exact ⟨below, hbelow.symm⟩
  have hprefix : r.segments <+: above ++ idle :=
    hsegments ▸ htrimmed.trans (Path.prefix_segments_trimmed q)
  rcases List.prefix_or_prefix_of_prefix hprefix (List.prefix_append above idle) with
    ⟨more, hmore⟩ | ⟨more, hmore⟩
  · obtain ⟨hsame, below, hne, hbelow⟩ := hgoes
    refine directory_placeOf ⟨hrooted.trans hsame, more ++ below, by simp [hne], ?_⟩ hfind
    rw [hbelow, ← List.append_assoc, hmore]
  · -- What `r` has beyond `above` leads nowhere.
    have hmoreIdle : ∀ segment ∈ more, Path.isIdle segment := fun segment hsegment =>
      hidle segment (((List.prefix_append_right_inj above).mp (hmore ▸ hprefix)).subset hsegment)
    have hplace : disk.placeOf r = disk.placeOf ⟨q.rooted, above⟩ := by
      rw [placeOf, placeOf, ← hmore, Path.walk_append, Path.walk_of_idle hmoreIdle,
        start_eq_of_rooted_eq hrooted]
      rfl
    rw [hplace]
    exact directory_placeOf hgoes hfind

section Made

variable {fault? : Option DiskFault} (hmade : Disk.makeDirectories p disk = (later, fault?))

include hmade

theorem changes_of_makeDirectories :
    Changes (disk.AtOrAbove p) (fun _ => False) disk later := by
  have hchanges : Changes (disk.AtOrAbove p) (fun _ => False) disk (makeDirectories p disk).1 :=
    changes_makeDirectories p disk
  rwa [hmade] at hchanges

theorem within_of_makeDirectories : disk.Within later := by
  have hkept := kept_makeDirectories p disk
  rw [hmade] at hkept
  exact .of_kept_changes hkept (changes_of_makeDirectories hmade)

/-- Directories that are there in the end may be added at any time before. -/
theorem Within.of_makeDirectories (h : disk.Within final)
    (hdirs : ∀ place, disk.AtOrAbove p place → final.node? place = some .directory) :
    later.Within final where
  current := h.current.trans (within_of_makeDirectories hmade).current.symm
  kind {place node} hnode := by
    by_cases hsame : later.node? place = disk.node? place
    · exact h.kind (hsame.symm.trans hnode)
    · obtain ⟨-, hdir, hplace⟩ | ⟨-, hwritten⟩ := changes_of_makeDirectories hmade place hsame
      · obtain rfl : Node.directory = node := Option.some.inj (hdir.symm.trans hnode)
        exact ⟨.directory, hdirs place hplace, Iff.rfl⟩
      · exact hwritten.elim

end Made

end Directories

section Files

/-- The way to a file ends in a name. -/
theorem exists_name_of_file (hstart : disk.node? (disk.start p) = some .directory)
    (hway : p.segments.foldlM disk.step (disk.start p) = .ok target)
    (hfile : disk.node? target = some (.file bytes)) :
    ∃ init name via, p.segments = init ++ [name] ∧ ¬ Path.isIdle name ∧
      init.foldlM disk.step (disk.start p) = .ok via ∧ disk.step via name = .ok target := by
  obtain hnil | ⟨init, name, hsegments⟩ := List.eq_nil_or_concat p.segments
  · rw [hnil] at hway
    obtain rfl := Except.ok.inj hway
    cases hstart.symm.trans hfile
  · rw [List.concat_eq_append] at hsegments
    rw [hsegments, foldlM_step_append] at hway
    obtain ⟨via, hinit, hname⟩ := hway
    simp only [List.foldlM_cons, List.foldlM_nil, bind_pure] at hname
    refine ⟨init, name, via, hsegments, fun hidle => ?_, hinit, hname⟩
    obtain ⟨hdir, ⟨-, rfl⟩ | ⟨hno, -⟩ | ⟨hno, -⟩⟩ := step_eq_ok_iff.mp hname
    · cases hdir.symm.trans hfile
    · exact hno hidle
    · exact hno hidle

/-- A file that the disk can grow can be written once its directory is there. -/
theorem Within.writeFile (h : disk.Within final) (htree : disk.IsTree)
    (hchecked : checked p = .ok ()) (hsegments : p.segments = init ++ [name])
    (hidle : ¬ Path.isIdle name) (hinit : init.foldlM disk.step (disk.start p) = .ok via)
    (hstep : final.step via name = .ok target) (hfile : final.node? target = some (.file more)) :
    ∃ later, disk.writeFile p bytes = .ok later ∧ later.Within final := by
  have hvia : disk.node? via = some .directory :=
    h.directory_of_isSome (htree.isSome_foldlM htree.isSome_start hinit)
      (step_eq_ok_iff.mp hstep).1
  have hup : name ≠ ".." := by
    rintro rfl
    have htail := h.directory (htree.directory_tail hvia)
    have htarget : target = via.tail := step_eq_advance hstep
    rw [← htarget] at htail
    cases htail.symm.trans hfile
  obtain ⟨-, ⟨hyes, -⟩ | ⟨-, heq, -⟩ | ⟨-, -, hsize, -, rfl⟩⟩ := step_eq_ok_iff.mp hstep
  · exact (hidle hyes).elim
  · exact (hup heq).elim
  · have hlast := findLast_eq_ok hchecked hsegments hinit hvia hidle hup hsize
    have hfree : disk.node? (name :: via) ≠ some .directory := fun hdir => by
      cases (h.directory hdir).symm.trans hfile
    refine ⟨disk.put (name :: via) (.file bytes), ?_, h.put hfile (by simp)⟩
    simp [Disk.writeFile, hlast, hfree, bind, Except.bind]

theorem file?_eq_some_iff : disk.file? p = some bytes ↔
    ∃ target, disk.find p = .ok target ∧ disk.node? target = some (.file bytes) := by
  constructor
  · intro h
    rw [file?, nodeAt?] at h
    cases hfind : disk.find p with
    | error fault => simp [hfind] at h
    | ok target =>
      rw [hfind] at h
      refine ⟨target, rfl, ?_⟩
      dsimp only at h
      split at h
      · next hnode => rw [hnode, Option.some.inj h]
      · cases h
  · rintro ⟨target, hfind, hfile⟩
    exact file?_of_find hfind hfile

end Files

end SchemaHeader.Disk
