import SchemaHeader.Proofs.Disk

/-! Where a path leads by its text alone. Without links a path that leads anywhere leads there, so
nothing but its segments decides in which directories it can end. -/
namespace SchemaHeader

namespace Path

/-- Where one segment leads from a place, whether or not anything is there. -/
def advance (place : Place) (segment : String) : Place :=
  if isIdle segment then place else if segment = ".." then place.tail else segment :: place

def walk (place : Place) (segments : List String) : Place := segments.foldl advance place

/-- The path goes on below `q`. -/
def IsAncestor (q p : Path) : Prop :=
  q.rooted = p.rooted ∧ ∃ below, below ≠ [] ∧ p.segments = q.segments ++ below

variable {place : Place} {segments above : List String} {p q r : Path}

theorem walk_append (place : Place) (segments more : List String) :
    walk place (segments ++ more) = walk (walk place segments) more :=
  List.foldl_append

/-- Segments that do not lead up lead down by one name each, or nowhere. -/
theorem walk_eq (hup : ".." ∉ segments) :
    walk place segments = (segments.filter (!isIdle ·)).reverse ++ place := by
  induction segments generalizing place with
  | nil => rfl
  | cons segment rest ih =>
    obtain ⟨hne, hrest⟩ := not_or.mp (mt List.mem_cons.mpr hup)
    have hwalk : walk place (segment :: rest) = walk (advance place segment) rest := rfl
    rw [hwalk, ih hrest]
    by_cases hidle : isIdle segment
    · simp [advance, hidle]
    · simp [advance, hidle, Ne.symm hne]

theorem walk_of_idle (hidle : ∀ segment ∈ segments, isIdle segment) :
    walk place segments = place := by
  rw [walk_eq fun hup => absurd (hidle _ hup) (by decide)]
  simpa using hidle

/-- Such segments never leave the directory that they start from, not even on the way. -/
theorem suffix_walk (hup : ".." ∉ segments) (habove : above <+: segments) :
    place <:+ walk place above := by
  rw [walk_eq fun hmem => hup (habove.subset hmem)]
  exact List.suffix_append _ _

theorem prefix_segments_trimmed (p : Path) : p.trimmed.segments <+: p.segments := by
  have hdrop (segments : List String) : dropIdleEnd segments <+: segments := by
    rw [dropIdleEnd, ← List.reverse_suffix, List.reverse_reverse]
    exact List.dropWhile_suffix isIdle
  unfold trimmed
  split
  · exact (List.prefix_cons_inj _).mpr (hdrop _)
  · exact hdrop _

theorem rooted_trimmed (p : Path) : p.trimmed.rooted = p.rooted := by
  unfold trimmed
  split
  · rfl
  · rfl

theorem isAncestor_of_parent? (h : p.parent? = some q) : q.IsAncestor p := by
  have hlength := length_lt_of_parent? h
  unfold parent? at h
  split at h
  · cases h
  · cases h
    refine ⟨rooted_trimmed _, ?_⟩
    obtain ⟨below, hbelow⟩ :=
      (prefix_segments_trimmed { p with segments := p.trimmed.segments.dropLast }).trans
        ((List.dropLast_prefix p.trimmed.segments).trans (prefix_segments_trimmed p))
    refine ⟨below, ?_, hbelow.symm⟩
    rintro rfl
    rw [← hbelow] at hlength
    simp at hlength

theorem IsAncestor.trans (h : q.IsAncestor p) (hr : r.IsAncestor q) : r.IsAncestor p := by
  obtain ⟨hrooted, below, hbelow, hsegments⟩ := h
  obtain ⟨hrooted', more, -, hmore⟩ := hr
  exact ⟨hrooted'.trans hrooted, more ++ below, by simp [hbelow], by
    rw [hsegments, hmore, List.append_assoc]⟩

end Path

namespace Disk

variable {disk : Disk} {place next target : Place} {segment : String} {segments : List String}
  {p : Path}

/-- The place that the text of a path names. -/
def placeOf (disk : Disk) (p : Path) : Place := Path.walk (disk.start p) p.segments

/-- A step on the disk that succeeds goes where the segment points. -/
theorem step_eq_advance (h : disk.step place segment = .ok next) :
    next = Path.advance place segment := by
  obtain ⟨-, ⟨hidle, rfl⟩ | ⟨hidle, rfl, rfl⟩ | ⟨hidle, hup, -, -, rfl⟩⟩ := step_eq_ok_iff.mp h
  · simp [Path.advance, hidle]
  · simp [Path.advance, hidle]
  · simp [Path.advance, hidle, hup]

theorem foldlM_step_eq_walk (h : segments.foldlM disk.step place = .ok target) :
    target = Path.walk place segments := by
  induction segments generalizing place with
  | nil => exact (Except.ok.inj h).symm
  | cons segment rest ih =>
    rw [List.foldlM_cons, bind_eq_ok_iff] at h
    obtain ⟨via, hstep, hrest⟩ := h
    obtain rfl := step_eq_advance hstep
    exact ih hrest

/-- A path that leads somewhere leads to its place. -/
theorem find_eq_placeOf (h : disk.find p = .ok target) : target = disk.placeOf p :=
  foldlM_step_eq_walk (find_eq_ok_iff.mp h).2

theorem placeOf_of_findLast {name : String} (h : disk.findLast p = .ok (place, some name)) :
    name :: place = disk.placeOf p := by
  obtain ⟨-, hway, -, hlast, hidle, hup, -⟩ := findLast_of_ok h
  rw [placeOf, ← List.dropLast_append_getLast? name hlast, Path.walk_append,
    ← foldlM_step_eq_walk hway]
  simp [Path.walk, Path.advance, hidle, hup]

end Disk

end SchemaHeader
