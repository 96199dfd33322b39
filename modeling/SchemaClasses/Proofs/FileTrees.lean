import SchemaClasses.FileTree
import SchemaClasses.Proofs.Success

/-!
# Reading and writing files

Where paths lead, and what reading and writing a file has to do with the files of the tree.
-/

namespace SchemaClasses.FileTree

variable {tree : FileTree} {start place : List String} {path : FilePath}
  {bytes : List UInt8}

/-! ## Places -/

/-- Where a name leads to from a place. -/
def enter (place : List String) (name : String) : List String :=
  if name = ".." then place.dropLast else place ++ [name]

/-- Names that can be walked lead where they say. -/
theorem walk_eq_ok {names : List String} (h : tree.walk start names = .ok place) :
    place = names.foldl enter start := by
  induction names generalizing start with
  | nil =>
    cases h
    rfl
  | cons name rest ih =>
    simp only [walk] at h
    split at h
    next => cases h
    next =>
      split at h
      next => cases h
      next =>
        rw [List.foldl_cons, enter]
        split at h
        next hup => rw [if_pos hup]; exact ih h
        next hdown => rw [if_neg hdown]; exact ih h

/-- A place that is found is the one that the path spells. -/
theorem locate_eq_ok (h : tree.locate start path = .ok place) : place = path.resolve start := by
  simp only [locate] at h
  split at h
  next => cases h
  next => exact walk_eq_ok (Success.mapError_eq_ok.mp h)

/-! ## Reading -/

/-- A path that can be read leads to a file of the tree. -/
theorem read_eq_ok (h : tree.read start path = .ok bytes) :
    tree.file? (path.resolve start) = some bytes := by
  simp only [read, Success.bind_eq_ok] at h
  obtain ⟨place, hplace, h⟩ := h
  rw [← locate_eq_ok hplace]
  split at h
  next => cases h
  next =>
    split at h
    next hfile =>
      cases h
      exact hfile
    next => cases h

/-! ## Writing -/

theorem lookup_cons_eq_ite (place other : List String) (bytes : List UInt8)
    (files : List (List String × List UInt8)) :
    ((place, bytes) :: files).lookup other =
      if other = place then some bytes else files.lookup other := by
  by_cases h : other = place
  · rw [h, List.lookup_cons_self, if_pos rfl]
  · rw [List.lookup_cons, beq_eq_false_iff_ne.mpr h, if_neg h]

/-- Writing a file changes that one only. -/
theorem lookup_setFile (place other : List String) (bytes : List UInt8)
    (files : List (List String × List UInt8)) :
    (setFile place bytes files).lookup other =
      if other = place then some bytes else files.lookup other := by
  induction files with
  | nil => exact lookup_cons_eq_ite place other bytes []
  | cons file rest ih =>
    obtain ⟨name, old⟩ := file
    rw [setFile]
    split
    next hname =>
      -- The file was there and keeps its position.
      subst hname
      rw [lookup_cons_eq_ite, lookup_cons_eq_ite]
      split <;> rfl
    next hname =>
      rw [lookup_cons_eq_ite, lookup_cons_eq_ite, ih]
      split
      next hother => rw [if_neg (hother ▸ hname)]
      next => rfl

/-- A path that can be written leads where it says. -/
theorem target_eq_ok (h : tree.target start path = .ok place) : place = path.resolve start := by
  simp only [target, Success.bind_eq_ok] at h
  obtain ⟨found, hfound, h⟩ := h
  rw [← locate_eq_ok hfound]
  split at h
  next => cases h
  next => exact (Success.pure_eq_ok.mp h).symm

/-- The file that is put has the bytes, and all other files stay as they are. -/
theorem file?_put (tree : FileTree) (place other : List String) (bytes : List UInt8) :
    (tree.put place bytes).file? other = if other = place then some bytes else tree.file? other :=
  lookup_setFile place other bytes tree.files

@[simp] theorem put_directories (tree : FileTree) (place : List String) (bytes : List UInt8) :
    (tree.put place bytes).directories = tree.directories := rfl

end SchemaClasses.FileTree
