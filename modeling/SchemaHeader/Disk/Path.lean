/-! Paths as they are written: what stands between the slashes, and whether a slash comes first. -/
namespace SchemaHeader

structure Path where
  rooted : Bool
  segments : List String
  deriving DecidableEq

namespace Path

def ofText (s : String) : Path :=
  match s.toList with
  | '/' :: rest => ⟨true, (rest.splitOn '/').map String.ofList⟩
  | cs => ⟨false, (cs.splitOn '/').map String.ofList⟩

def text (p : Path) : String :=
  (if p.rooted then "/" else "") ++ String.intercalate "/" p.segments

/-- A segment that leads nowhere else. -/
def isIdle (segment : String) : Bool := segment.isEmpty || segment = "."

def dropIdleEnd (segments : List String) : List String :=
  (segments.reverse.dropWhile isIdle).reverse

/-- The path without idle segments at its end; one that begins with a dot keeps it. -/
def trimmed : Path → Path
  | ⟨false, "." :: rest⟩ => ⟨false, "." :: dropIdleEnd rest⟩
  | ⟨rooted, segments⟩ => ⟨rooted, dropIdleEnd segments⟩

/-- The path of the directory that the last segment is in. -/
def parent? (p : Path) : Option Path :=
  if p.trimmed.segments.isEmpty then none
  else some (trimmed { p with segments := p.trimmed.segments.dropLast })

theorem length_dropIdleEnd_le (segments : List String) :
    (dropIdleEnd segments).length ≤ segments.length := by
  simpa [dropIdleEnd] using (List.dropWhile_sublist isIdle (l := segments.reverse)).length_le

theorem length_trimmed_le (p : Path) : p.trimmed.segments.length ≤ p.segments.length := by
  unfold trimmed
  split
  · simpa using length_dropIdleEnd_le _
  · exact length_dropIdleEnd_le _

/-- A parent has fewer segments, so the way up through parents ends. -/
theorem length_lt_of_parent? {p q : Path} (h : p.parent? = some q) :
    q.segments.length < p.segments.length := by
  unfold parent? at h
  split at h
  · cases h
  · rename_i hne
    cases h
    have hpos : p.trimmed.segments.length ≠ 0 := by simpa [List.isEmpty_iff] using hne
    have hp := length_trimmed_le p
    have hq := length_trimmed_le { p with segments := p.trimmed.segments.dropLast }
    simp only [List.length_dropLast] at hq
    omega

end Path

end SchemaHeader
