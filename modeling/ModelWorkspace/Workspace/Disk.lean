import ModelWorkspace.Text.LocationMap
import ModelWorkspace.Text.Range
import ModelWorkspace.Workspace.Attempt

/-!
# The disk

The files that a workspace reads, with aliases: directories or files that stand for
others.  A directory exists while there is a file in it.  A location below an alias
leads to the same place below the alias's target; of several aliases around a
location the deepest one counts, and what it leads to is not resolved again.

What follows the name of an alias in a location is cut off by its width in bytes, and
one byte more for the separator.  Behind the root there is no separator, so an alias
for the root takes the first byte of a name away; where a character has more than that
one byte, there is no answer.
-/

namespace ModelWorkspace

/-- Files by their locations, aliases with what they stand for, and of some files what
keeps their texts from being read. -/
structure Disk where
  files : LocationMap String
  aliases : LocationMap Location
  unreadable : LocationMap String
deriving Repr

/-- Why a file cannot be read. -/
inductive DiskError where
  | missing (location : Location)
  /-- It is there, but something keeps its text from being read. -/
  | unreadable (location : Location) (reason : String)
deriving DecidableEq, Repr

/-- The error in words. -/
def DiskError.message : DiskError → String
  | .missing l => l.path ++ " does not exist"
  | .unreadable _ reason => reason

namespace Disk

/-- The disk without files. -/
def empty : Disk :=
  ⟨LocationMap.empty, LocationMap.empty, LocationMap.empty⟩

instance : Inhabited Disk := ⟨empty⟩

/-- The disk with a text in a file. -/
def write (disk : Disk) (l : Location) (text : String) : Disk :=
  { disk with files := disk.files.insert l text }

/-- The disk without a file, or without the files below a directory. -/
def remove (disk : Disk) (l : Location) : Disk :=
  { disk with files := disk.files.filter fun file _ => !file.isWithin l }

/-- The disk with an alias. -/
def addAlias (disk : Disk) (name target : Location) : Disk :=
  { disk with aliases := disk.aliases.insert name target }

/-- Where a location leads. -/
def resolve (disk : Disk) (l : Location) : Attempt Location :=
  match disk.aliases.deepest? l.isWithin with
  | none => .ok l
  | some (name, target) =>
    if name = l then .ok target
    else
      match takeBytes (byteWidth name.chars + 1) l.chars with
      | some front => .ok (target.join (String.ofList (l.chars.drop front.length)))
      | none => .error (.cut l)

/-- Where a location leads; one that cannot be cut stands for itself. -/
def canonical (disk : Disk) (l : Location) : Location :=
  (disk.resolve l).toOption.getD l

/-- The text of a file, given where its location leads. -/
def textAt (disk : Disk) (l place : Location) : Except DiskError String :=
  match disk.files.get? place, disk.unreadable.get? place with
  | none, _ => .error (.missing l)
  | some _, some reason => .error (.unreadable l reason)
  | some text, none => .ok text

/-- The files below a place, in order. -/
def filesBelow (disk : Disk) (place : Location) : List Location :=
  disk.files.keys.filter (·.isBelow place)

/-- The text of a file. -/
def read (disk : Disk) (l : Location) : Attempt (Except DiskError String) :=
  (disk.resolve l).map (disk.textAt l)

/-- The files below a directory, in order. -/
def walk (disk : Disk) (directory : Location) : Attempt (List Location) :=
  (disk.resolve directory).map disk.filesBelow

/-- Whether there are files below a location. -/
def isDirectory (disk : Disk) (l : Location) : Attempt Bool :=
  (disk.resolve l).map fun place => disk.files.keys.any (·.isBelow place)

/-- Whether a location is that of a file or a directory. -/
def doesExist (disk : Disk) (l : Location) : Attempt Bool :=
  (disk.resolve l).map fun place => disk.files.keys.any (·.isWithin place)

end Disk

end ModelWorkspace
