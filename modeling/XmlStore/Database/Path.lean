import XmlStore.Text.Utf8

/-!
# Paths

A document is stored under a path: segments separated by slashes.

* `Path.normalize` brings a path into normal form: backslashes become slashes, empty segments
  vanish, and a slash at the end stays.  The segments `.` and `..` are refused.
* `Path.splitLast` cuts a path behind its last slash into a directory and a file name.
-/

namespace XmlStore.Path

/-- The separator of segments. -/
def slash : UInt8 := 0x2F

/-- What is read as a separator, too. -/
def backslash : UInt8 := 0x5C

/-- The path with every backslash turned into a slash. -/
def unify (path : Bytes) : Bytes :=
  path.map fun b => if b = backslash then slash else b

/-- The stretches between slashes, at least one. -/
def segments : Bytes → List Bytes
  | [] => [[]]
  | b :: rest =>
    if b = slash then [] :: segments rest
    else match segments rest with
      | [] => [[b]]
      | s :: others => (b :: s) :: others

/-- Whether a segment stands for a place instead of naming one. -/
def isRelative (segment : Bytes) : Bool :=
  segment == [0x2E] || segment == [0x2E, 0x2E]

/-- Segments with a slash between them. -/
def join (segments : List Bytes) : Bytes := [slash].intercalate segments

/-- Whether a path ends with a slash. -/
def endsWithSlash (path : Bytes) : Bool := path.getLast? == some slash

/-- The normal form of a path; of a path that is refused, the path with slashes only. -/
def normalize (path : Bytes) : Except Bytes Bytes :=
  let path := unify path
  if (segments path).any isRelative then .error path
  else
    let normal := join ((segments path).filter (!·.isEmpty))
    .ok (if endsWithSlash path && !normal.isEmpty then normal ++ [slash] else normal)

/-- The path up to its last slash, and the rest. -/
def splitLast (path : Bytes) : Bytes × Bytes :=
  let file := path.reverse.takeWhile (· != slash)
  let directory := path.reverse.dropWhile (· != slash)
  (directory.reverse, file.reverse)

/-- The two parts of a path make it up. -/
theorem append_splitLast (path : Bytes) : (splitLast path).1 ++ (splitLast path).2 = path := by
  simp [splitLast, ← List.reverse_append, List.takeWhile_append_dropWhile]

end XmlStore.Path
