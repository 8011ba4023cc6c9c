import Mathlib.Data.List.Infix
import SchemaHeader.Proofs.CommandLine.Confinement
import SchemaHeader.Proofs.Disk.Growth

/-! When all headers of a batch find room below their directory. -/
namespace SchemaHeader

namespace Disk

variable {disk : Disk} {place : Place}

/-- One node in many places. -/
def putAll (places : List Place) (node : Node) (disk : Disk) : Disk :=
  places.foldl (fun disk place => disk.put place node) disk

theorem current_putAll (places : List Place) (node : Node) :
    (disk.putAll places node).current = disk.current := by
  induction places generalizing disk with
  | nil => rfl
  | cons first rest ih => exact ih

/-- Putting a node at many places changes those places and no other. -/
theorem node?_putAll {places : List Place} {node : Node} (hne : place ≠ []) :
    (disk.putAll places node).node? place =
      if place ∈ places then some node else disk.node? place := by
  induction places generalizing disk with
  | nil => rfl
  | cons first rest ih =>
    have hfold : disk.putAll (first :: rest) node = (disk.put first node).putAll rest node := rfl
    rw [hfold, ih]
    by_cases hrest : place ∈ rest
    · simp [hrest]
    · by_cases hfirst : place = first
      · subst hfirst
        simp [hrest, node?_put_self hne]
      · simp [hrest, hfirst, node?_put_of_ne hfirst]

end Disk

/-- The name of the header stays below the directory, and its path is made of both. -/
def Placement.IsBelow (p : Placement) (directory : String) : Prop :=
  Batch.escapes p.header.name = false ∧
    p.destination = Batch.destination directory p.header.name

namespace Batch

variable {disk ready final later : Disk} {root target : Place} {p q : Placement}
  {ps : List Placement} {bytes : List UInt8} {directory : String} {above : List String}

section Tree

variable {disk : Disk}

theorem isTree_makeWay (htree : disk.IsTree) (p : Placement) : (makeWay p disk).1.IsTree := by
  rw [makeWay_eq]
  cases p.path.parent? with
  | none => exact htree
  | some parent => exact htree.makeDirectories parent

theorem isTree_store (htree : disk.IsTree) (p : Placement) : (store p disk).1.IsTree := by
  have hmid := isTree_makeWay htree p
  rw [store_eq]
  cases (makeWay p disk).2 with
  | some refusal => exact hmid
  | none =>
    dsimp only
    cases hwrite : (makeWay p disk).1.writeFile p.path p.bytes with
    | error fault => exact hmid
    | ok later => exact hmid.writeFile hwrite

theorem isTree_storeAll (htree : disk.IsTree) (ps : List Placement) :
    (storeAll ps disk).1.IsTree := by
  induction ps generalizing disk with
  | nil => exact htree
  | cons p rest ih =>
    have hmid := isTree_store htree p
    rw [storeAll_cons]
    split
    · next hstore => simpa only [hstore] using hmid
    · next mid hstore =>
      rw [hstore] at hmid
      exact ih hmid

end Tree

/-- A header can be stored where the final disk has a file for it. -/
theorem store_of_within (h : disk.Within final) (htree : disk.IsTree)
    (hfind : final.find p.path = .ok target) (hfile : final.node? target = some (.file bytes)) :
    ∃ later, store p disk = (later, none) ∧ later.Within final := by
  obtain ⟨hchecked, hway⟩ := Disk.find_eq_ok_iff.mp hfind
  have hstart : final.node? (final.start p.path) = some .directory := by
    rw [h.start_eq]
    exact h.directory htree.directory_start
  obtain ⟨init, name, via, hsegments, hidle, hinit, hstep⟩ :=
    Disk.exists_name_of_file hstart hway hfile
  have hself := Path.trimmed_eq_self hsegments hidle
  obtain ⟨parent, hparent⟩ : ∃ parent, p.path.parent? = some parent :=
    ⟨_, Path.parent?_eq_some hself hsegments⟩
  obtain ⟨init', name', via', hsegments', hvia, htrimmed, hparentChecked, hparentWay, hback⟩ :=
    Disk.exists_way_to_parent hself hparent hchecked hway
  obtain ⟨rfl, -⟩ : init = init' ∧ name = name' := by
    simpa using hsegments.symm.trans hsegments'
  obtain rfl : via = via' := Except.ok.inj (hinit.symm.trans (hback hparentWay hvia))
  obtain ⟨mid, hmade, hmid, hmidWay⟩ :=
    h.makeDirectories htree htrimmed hparentChecked hparentWay hvia
  have hmidTree : mid.IsTree := by simpa only [hmade] using htree.makeDirectories parent
  have hmidVia : mid.node? via = some .directory :=
    hmid.directory_of_isSome (hmidTree.isSome_foldlM hmidTree.isSome_start hmidWay) hvia
  obtain ⟨later, hwrite, hlater⟩ : ∃ later, mid.writeFile p.path p.bytes = .ok later ∧
      later.Within final :=
    hmid.writeFile hmidTree hchecked hsegments hidle (hback hmidWay hmidVia) hstep hfile
  have hmakeWay : makeWay p disk = (mid, none) := by simp [makeWay_eq, hparent, hmade]
  exact ⟨later, by simp [store_eq, hmakeWay, hwrite], hlater⟩

/-- A batch is stored to its end on a disk that can grow into one with all the files of it. -/
theorem storeAll_of_within (h : disk.Within final) (htree : disk.IsTree)
    (hfiles : ∀ p ∈ ps, ∃ target bytes, final.find p.path = .ok target ∧
      final.node? target = some (.file bytes)) :
    ∃ later, storeAll ps disk = (later, ps, none) := by
  induction ps generalizing disk with
  | nil => exact ⟨disk, rfl⟩
  | cons p rest ih =>
    obtain ⟨⟨target, bytes, hfind, hfile⟩, hrest⟩ := List.forall_mem_cons.mp hfiles
    obtain ⟨mid, hstore, hmid⟩ := store_of_within h htree hfind hfile
    have hmidTree : mid.IsTree := by simpa only [hstore] using isTree_store htree p
    obtain ⟨later, hall⟩ := ih hmid hmidTree hrest
    exact ⟨later, by simp [storeAll_cons, hstore, hall]⟩

/-- All of these headers can be in their files at once, below the place of their directory. -/
structure HasRoom (root : Place) (ps : List Placement) (disk : Disk) : Prop where
  /-- Every path ends in a name. -/
  named : ∀ p ∈ ps, ∃ init name, p.path.segments = init ++ [name] ∧ ¬ Path.isIdle name
  short : ∀ p ∈ ps, Disk.checked p.path = .ok () ∧
    ∀ step ∈ p.steps, step.utf8ByteSize ≤ Disk.nameLimit
  /-- No directory stands where a file goes. -/
  free : ∀ p ∈ ps, disk.node? (p.steps.reverse ++ root) ≠ some .directory
  /-- No file stands where a directory goes. -/
  passable : ∀ p ∈ ps, ∀ above, above <+: p.steps → above ≠ p.steps →
    ∀ bytes, disk.node? (above.reverse ++ root) ≠ some (.file bytes)
  /-- No header goes where another one needs a directory. -/
  apart : ∀ p ∈ ps, ∀ q ∈ ps, p.steps <+: q.steps → p.steps = q.steps

/-- The disk with a file for each header and all the directories on the way to it. -/
def furnished (root : Place) (ps : List Placement) (disk : Disk) : Disk :=
  (disk.putAll (ps.flatMap fun p => p.steps.inits.map (·.reverse ++ root)) .directory).putAll
    (ps.map fun p => p.steps.reverse ++ root) (.file [])

section Furnished

theorem node?_furnished_file (hp : p ∈ ps) (hne : p.steps ≠ []) :
    (furnished root ps disk).node? (p.steps.reverse ++ root) = some (.file []) := by
  have hplace : p.steps.reverse ++ root ∈ ps.map fun p => p.steps.reverse ++ root :=
    List.mem_map_of_mem hp
  rw [furnished, Disk.node?_putAll (by simp [hne]), if_pos hplace]

/-- A place on the way to a header is none that a header goes to. -/
theorem HasRoom.not_mem (h : HasRoom root ps disk) (hp : p ∈ ps) (habove : above <+: p.steps)
    (hne : above ≠ p.steps) :
    above.reverse ++ root ∉ ps.map fun p => p.steps.reverse ++ root := by
  intro hmem
  obtain ⟨q, hq, hplace⟩ := List.mem_map.mp hmem
  have hsteps : q.steps = above := by simpa using hplace
  exact hne (hsteps.symm.trans (h.apart q hq p hp (hsteps ▸ habove)))

theorem HasRoom.node?_furnished_directory (h : HasRoom root ps disk) (hp : p ∈ ps)
    (habove : above <+: p.steps) (hne : above ≠ p.steps) :
    (furnished root ps disk).node? (above.reverse ++ root) = some .directory := by
  by_cases hnil : above.reverse ++ root = []
  · rw [hnil]
    rfl
  · have hplace : above.reverse ++ root ∈
        ps.flatMap fun p => p.steps.inits.map (·.reverse ++ root) :=
      List.mem_flatMap.mpr ⟨p, hp, List.mem_map.mpr ⟨above, (List.mem_inits _ _).mpr habove, rfl⟩⟩
    rw [furnished, Disk.node?_putAll hnil, if_neg (h.not_mem hp habove hne),
      Disk.node?_putAll hnil, if_pos hplace]

/-- A disk with room can grow into the furnished one. -/
theorem HasRoom.within_furnished (h : HasRoom root ps disk) :
    disk.Within (furnished root ps disk) where
  current := by rw [furnished, Disk.current_putAll, Disk.current_putAll]
  kind {place node} hnode := by
    by_cases hnil : place = []
    · subst hnil
      obtain rfl : Node.directory = node := Option.some.inj hnode
      exact ⟨.directory, rfl, Iff.rfl⟩
    · rw [furnished, Disk.node?_putAll hnil, Disk.node?_putAll hnil]
      split
      · next hfile =>
        obtain ⟨p, hp, rfl⟩ := List.mem_map.mp hfile
        have hfree : node ≠ .directory := fun hdir => h.free p hp (by rw [hnode, hdir])
        exact ⟨.file [], rfl, by simp, fun hdir => (hfree hdir).elim⟩
      · next hfile =>
        split
        · next hway =>
          obtain ⟨p, hp, hinit⟩ := List.mem_flatMap.mp hway
          obtain ⟨above, habove, rfl⟩ := List.mem_map.mp hinit
          have hne : above ≠ p.steps := by
            rintro rfl
            exact hfile (List.mem_map_of_mem hp)
          have hdir : node = .directory := by
            cases node with
            | directory => rfl
            | file bytes =>
              exact (h.passable p hp above ((List.mem_inits _ _).mp habove) hne bytes hnode).elim
          exact ⟨.directory, rfl, by simp [hdir]⟩
        · exact ⟨node, hnode, Iff.rfl⟩

end Furnished

/-- The paths of the headers go on from that of the directory. -/
theorem exists_paths (hdirectory : directory ≠ "")
    (hps : ∀ p ∈ ps, p.IsBelow directory) :
    ∃ rooted above idle, (∀ segment ∈ idle, Path.isIdle segment) ∧
      Path.ofText directory = ⟨rooted, above ++ idle⟩ ∧
      ∀ p ∈ ps, ∃ segments, segments ≠ [] ∧ ".." ∉ segments ∧
        p.steps = segments.filter (!Path.isIdle ·) ∧ p.path = ⟨rooted, above ++ segments⟩ := by
  obtain ⟨rooted, above, halone, habove⟩ := exists_ofText_destination directory
  obtain ⟨idle, hidle, hpath⟩ := halone hdirectory
  refine ⟨rooted, above, idle, hidle, hpath, fun p hp => ?_⟩
  obtain ⟨hstays, hdestination⟩ := hps p hp
  have hne : (Path.ofText p.header.name).segments ≠ [] := by
    rw [Path.ofText_of_not_rooted (not_rooted_of_not_escapes hstays), ne_eq, List.map_eq_nil_iff]
    exact List.splitOn_ne_nil _ _
  refine ⟨_, hne, up_not_mem_of_not_escapes hstays, rfl, ?_⟩
  rw [Placement.path, hdestination, habove _ hstays]

section Room

/-- A segment that is not idle comes after every part of the way. -/
theorem filter_ne_nil_of_named {segments front back init : List String} {name : String}
    (hsegments : above ++ segments = init ++ [name]) (hname : ¬ Path.isIdle name)
    (hsplit : segments = front ++ back) (hback : back ≠ []) :
    back.filter (!Path.isIdle ·) ≠ [] := by
  have hlast : back.getLast? = some name := by
    have hboth := congrArg List.getLast? hsegments
    rwa [hsplit, ← List.append_assoc, List.getLast?_append_of_ne_nil _ hback,
      List.getLast?_concat] at hboth
  have hmem : name ∈ back.filter (!Path.isIdle ·) :=
    List.mem_filter.mpr ⟨List.mem_of_getLast? hlast, by simpa using hname⟩
  exact List.ne_nil_of_mem hmem

/-- Each header has its place on the disk that has everything. -/
theorem HasRoom.find_furnished {segments : List String} (h : HasRoom root ps disk) (hp : p ∈ ps)
    (hne : segments ≠ []) (hup : ".." ∉ segments)
    (hsteps : p.steps = segments.filter (!Path.isIdle ·))
    (hsegments : p.path.segments = above ++ segments)
    (hway : above.foldlM disk.step (disk.start p.path) = .ok root) :
    (furnished root ps disk).find p.path = .ok (p.steps.reverse ++ root) ∧
      (furnished root ps disk).node? (p.steps.reverse ++ root) = some (.file []) := by
  obtain ⟨init, name, hnamed, hname⟩ := h.named p hp
  obtain ⟨hchecked, hshort⟩ := h.short p hp
  have hlong : p.steps ≠ [] := by
    rw [hsteps]
    exact filter_ne_nil_of_named (hsegments.symm.trans hnamed) hname
      (List.nil_append segments).symm hne
  have hfile : (furnished root ps disk).node? (p.steps.reverse ++ root) = some (.file []) :=
    node?_furnished_file hp hlong
  refine ⟨Disk.find_eq_ok_iff.mpr ⟨hchecked, ?_⟩, hfile⟩
  have hwithin := h.within_furnished
  rw [hsegments, Disk.foldlM_step_append, hwithin.start_eq]
  refine ⟨root, hwithin.foldlM_step hway, ?_⟩
  have hwalk : Path.walk root segments = p.steps.reverse ++ root := by
    rw [Path.walk_eq hup, hsteps]
  rw [← hwalk]
  refine Disk.foldlM_step_down hup (fun segment hsegment => ?_) (fun front back hsplit hback => ?_)
    ?_
  · by_cases hidle : Path.isIdle segment
    · exact Disk.size_le_of_isIdle hidle
    · exact hshort segment (by simp [hsteps, hsegment, hidle])
  · rw [Path.walk_eq fun hmem => hup (by simp [hsplit, hmem])]
    have hcut : p.steps = front.filter (!Path.isIdle ·) ++ back.filter (!Path.isIdle ·) := by
      rw [hsteps, hsplit, List.filter_append]
    have hrest := filter_ne_nil_of_named (hsegments.symm.trans hnamed) hname hsplit hback
    refine h.node?_furnished_directory hp ⟨_, hcut.symm⟩ fun heq => hrest ?_
    simpa [heq] using hcut
  · rw [hwalk, hfile]
    rfl

/-- Every header that was stored is in a file. -/
theorem Stored.exists_file (h : Stored ps disk later) (hp : p ∈ ps) :
    ∃ target bytes, later.find p.path = .ok target ∧
      later.node? target = some (.file bytes) := by
  obtain ⟨before, last, after, hsplit, heq, hafter⟩ :=
    exists_last_of_mem (fun p : Placement => later.find p.path) hp
  have hfile : later.file? p.path = some last.bytes :=
    h.file?_eq (fun _ _ _ _ => Iff.rfl) hsplit hafter hp heq
  obtain ⟨target, hfind, hnode⟩ := Disk.file?_eq_some_iff.mp hfile
  exact ⟨target, last.bytes, hfind, hnode⟩

theorem stored_of_storeAll (h : storeAll ps disk = (later, ps, none)) : Stored ps disk later := by
  obtain ⟨mid, written, hstored, ⟨rfl, hall⟩ | ⟨p, after, refusal, -, -, hall⟩⟩ :=
    storeAll_cases ps disk
  · obtain ⟨rfl, -⟩ := Prod.mk.inj (hall.symm.trans h)
    exact hstored
  · rw [h] at hall
    cases hall

/-- The directory that was made is where the segments of its path lead. -/
theorem way_of_made {rooted : Bool} {idle : List String} (htree : disk.IsTree)
    (hready : Disk.makeDirectories (Path.ofText directory).trimmed disk = (ready, none))
    (hpath : Path.ofText directory = ⟨rooted, above ++ idle⟩)
    (hidle : ∀ segment ∈ idle, Path.isIdle segment) :
    above.foldlM ready.step (ready.start (Path.ofText directory)) =
      .ok (ready.placeOf (Path.ofText directory)) := by
  obtain ⟨target, htrimmed, hdir⟩ :=
    Disk.way_of_makeDirectories htree (Path.trimmed_trimmed _) hready
  rw [Disk.start_eq_of_rooted_eq (Path.rooted_trimmed _)] at htrimmed
  have hway := Disk.foldlM_step_of_trimmed htrimmed hdir
  obtain rfl : target = ready.placeOf (Path.ofText directory) := Disk.foldlM_step_eq_walk hway
  have hsegments : (Path.ofText directory).segments = above ++ idle := by rw [hpath]
  rw [hsegments] at hway
  obtain ⟨via, hvia, hrest⟩ := Disk.foldlM_step_append.mp hway
  rwa [Disk.eq_of_foldlM_step_idle hidle hrest]

section Directory

variable (hdirectory : directory ≠ "")
  (hps : ∀ p ∈ ps, p.IsBelow directory)
  (hready : Disk.makeDirectories (Path.ofText directory).trimmed disk = (ready, none))

include hdirectory hps hready

/-- What was added for the directory is there after the headers were stored. -/
theorem within_of_storeAll (hp : p ∈ ps) (hall : storeAll ps disk = (later, ps, none)) :
    ready.Within later := by
  have hstored := stored_of_storeAll hall
  have hchanges := changes_storeAll ps disk
  rw [hall] at hchanges
  have hwithin : disk.Within later := .of_kept_changes hstored.kept hchanges
  obtain ⟨rooted, above, idle, hidle, hpath, hpaths⟩ := exists_paths hdirectory hps
  obtain ⟨segments, hne, -, -, hsegments⟩ := hpaths p hp
  obtain ⟨target, bytes, hfind, -⟩ := hstored.exists_file hp
  have hgoes : Path.IsAncestor ⟨(Path.ofText directory).rooted, above⟩ p.path := by
    rw [hpath, hsegments]
    exact ⟨rfl, segments, hne, rfl⟩
  refine Disk.Within.of_makeDirectories hready hwithin fun place hplace => ?_
  exact (hplace.of_current_eq hwithin.current).directory hidle (by rw [hpath]) hgoes hfind

/-- When a whole batch is stored, each header is found below the directory by its own steps. -/
theorem find_of_storeAll (hp : p ∈ ps) (hall : storeAll ps disk = (later, ps, none)) :
    ∃ bytes, later.find p.path =
        .ok (p.steps.reverse ++ ready.placeOf (Path.ofText directory)) ∧
      later.node? (p.steps.reverse ++ ready.placeOf (Path.ofText directory)) =
        some (.file bytes) := by
  have hcurrent := (within_of_storeAll hdirectory hps hready hp hall).current
  obtain ⟨target, bytes, hfind, hnode⟩ := (stored_of_storeAll hall).exists_file hp
  obtain ⟨hstays, hdestination⟩ := hps p hp
  have hplace := placeOf_destination later hdirectory hstays
  rw [← hdestination, Disk.placeOf_eq_of_current_eq (p := Path.ofText directory) hcurrent] at hplace
  have htarget : target = p.steps.reverse ++ ready.placeOf (Path.ofText directory) :=
    (Disk.find_eq_placeOf hfind).trans hplace
  exact ⟨bytes, htarget ▸ hfind, htarget ▸ hnode⟩

variable (htree : disk.IsTree)

include htree

/-- A batch that was stored to its end had room. -/
theorem hasRoom_of_storeAll (hall : storeAll ps disk = (later, ps, none)) :
    HasRoom (ready.placeOf (Path.ofText directory)) ps ready := by
  have hwithin {p : Placement} (hp : p ∈ ps) : ready.Within later :=
    within_of_storeAll hdirectory hps hready hp hall
  have hfile {p : Placement} (hp : p ∈ ps) := find_of_storeAll hdirectory hps hready hp hall
  have hlater : later.IsTree := by simpa only [hall] using isTree_storeAll htree ps
  have hdir {p : Placement} (hp : p ∈ ps) {above : List String} (habove : above <+: p.steps)
      (hne : above ≠ p.steps) :
      later.node? (above.reverse ++ ready.placeOf (Path.ofText directory)) = some .directory := by
    obtain ⟨bytes, -, hnode⟩ := hfile hp
    exact hlater.directory_above habove hne (by simp [hnode])
  constructor
  case named =>
    intro p hp
    obtain ⟨bytes, hfind, hnode⟩ := hfile hp
    obtain ⟨init, name, via, hsegments, hidle, -, -⟩ :=
      Disk.exists_name_of_file hlater.directory_start (Disk.find_eq_ok_iff.mp hfind).2 hnode
    exact ⟨init, name, hsegments, hidle⟩
  case short =>
    intro p hp
    obtain ⟨bytes, hfind, -⟩ := hfile hp
    obtain ⟨hchecked, hway⟩ := Disk.find_eq_ok_iff.mp hfind
    refine ⟨hchecked, fun step hstep => Disk.size_le_of_foldlM_step hway ?_⟩
    obtain ⟨rooted, above, idle, -, -, hpaths⟩ := exists_paths hdirectory hps
    obtain ⟨segments, -, -, hsteps, hsegments⟩ := hpaths p hp
    rw [hsteps] at hstep
    simp [hsegments, List.mem_of_mem_filter hstep]
  case free =>
    intro p hp hfree
    obtain ⟨bytes, -, hnode⟩ := hfile hp
    cases hnode.symm.trans ((hwithin hp).directory hfree)
  case passable =>
    intro p hp above habove hne bytes hblocked
    obtain ⟨other, hother, hkind⟩ := (hwithin hp).kind hblocked
    obtain rfl := Option.some.inj (hother.symm.trans (hdir hp habove hne))
    cases hkind.mp rfl
  case apart =>
    intro p hp q hq hsteps
    by_contra hne
    obtain ⟨bytes, -, hnode⟩ := hfile hp
    cases hnode.symm.trans (hdir hq hsteps hne)

/-- A batch for which there is room is stored to its end. -/
theorem HasRoom.storeAll_eq (h : HasRoom (ready.placeOf (Path.ofText directory)) ps ready) :
    ∃ later, storeAll ps disk = (later, ps, none) := by
  obtain ⟨rooted, above, idle, hidle, hpath, hpaths⟩ := exists_paths hdirectory hps
  have hway := way_of_made htree hready hpath hidle
  have hgrows : disk.Within (furnished (ready.placeOf (Path.ofText directory)) ps ready) :=
    (Disk.within_of_makeDirectories hready).trans h.within_furnished
  refine storeAll_of_within hgrows htree fun p hp => ?_
  obtain ⟨segments, hne, hup, hsteps, hsegments⟩ := hpaths p hp
  have hstart : ready.start p.path = ready.start (Path.ofText directory) :=
    Disk.start_eq_of_rooted_eq (by rw [hsegments, hpath])
  rw [← hstart] at hway
  obtain ⟨hfind, hfile⟩ := h.find_furnished hp hne hup hsteps (by rw [hsegments]) hway
  exact ⟨_, [], hfind, hfile⟩

/-- A batch is stored to its end exactly where there is room for all of it. -/
theorem storeAll_eq_iff : (∃ later, storeAll ps disk = (later, ps, none)) ↔
    HasRoom (ready.placeOf (Path.ofText directory)) ps ready :=
  ⟨fun ⟨_, hall⟩ => hasRoom_of_storeAll hdirectory hps hready htree hall,
    fun h => h.storeAll_eq hdirectory hps hready htree⟩

end Directory

end Room

end Batch

end SchemaHeader
