/-
Listings of a directory: `ReadDir`, and `ReadDirFrom` with the loop of its callers.

The names of a directory are rows of the database under `/ns/<parent>/`, and a listing
walks over them in the order of their bytes.  `ReadDirFrom` starts behind the name of the
last entry that was read; how a row's value is decoded is given from outside.
-/
import Nufs.Metadata.KvStream

namespace Nufs.Metadata.Pebble

open ByteOrder

/-- `DirEntry`: its name is any string of bytes. -/
structure DirEntry where
  inodeID : UInt64
  type : UInt8
  name : List UInt8
  deriving DecidableEq, Repr

/-- The database as an iterator walks over it. -/
structure Table where
  rows : List Row
  sorted : rows.Pairwise fun r r' => rank r.1 < rank r'.1

/-- The rows between the bounds of an iterator. -/
def Table.newIter (db : Table) (lower : List UInt8) (upper : Option (List UInt8)) : List Row :=
  db.rows.filter fun r => inRange lower upper r.1

def maxReadDirEntries : Nat := 10000

def capLimit (limit : Int) : Nat :=
  if limit ≤ 0 ∨ limit > maxReadDirEntries then maxReadDirEntries else limit.toNat

/-- The front of the keys of a directory. -/
def nsPrefix (parent : UInt64) : List UInt8 := ascii "/ns/" ++ ascii (toString parent) ++ [47]

/-- `strings.TrimPrefix`. -/
def trimPrefix (key front : List UInt8) : List UInt8 :=
  if front <+: key then key.drop front.length else key

section
variable (unmarshalValue : List UInt8 → Option DirEntry)

/-- The loop of both listings; `ReadDirFrom` has no rows to skip. -/
def collect (front : List UInt8) (limit : Nat) (offset : Int) :
    List Row → (skipped : Nat) → List DirEntry → List DirEntry
  | [], _, entries => entries
  | (key, val) :: rows, skipped, entries =>
      if limit ≤ entries.length then entries
      else if trimPrefix key front = [] then collect front limit offset rows skipped entries
      else if skipped < offset then collect front limit offset rows (skipped + 1) entries
      else
        match unmarshalValue val with
        | none => collect front limit offset rows skipped entries
        | some entry =>
            collect front limit offset rows skipped
              (entries ++ [{ entry with name := trimPrefix key front }])

variable (db : Table) (parent : UInt64)

/-- `ReadDir`. -/
def readDir (offset limit : Int) : List DirEntry :=
  let front := nsPrefix parent
  collect unmarshalValue front (capLimit limit) offset (db.newIter front (upperBound front)) 0 []

/-- `ReadDirFrom`. -/
def readDirFrom (afterName : List UInt8) (limit : Int) : List DirEntry :=
  let front := nsPrefix parent
  let rows := db.newIter (front ++ afterName) (upperBound front)
  let rows :=
    if afterName ≠ [] ∧ (rows.head?.map Prod.fst = some (front ++ afterName)) then rows.tail
    else rows
  collect unmarshalValue front (capLimit limit) 0 rows 0 []

/--
The loop of the callers, which ends at a page with fewer than `full` entries; none, if it
is not at its end after `fuel` pages or asks an empty page for its last entry.
-/
def readdir (pageSize : Int) (full : Nat) :
    (fuel : Nat) → (cursor : List UInt8) → List DirEntry → Option (List DirEntry)
  | 0, _, _ => none
  | fuel + 1, cursor, entries =>
      let page := readDirFrom unmarshalValue db parent cursor pageSize
      if page.length < full then some (entries ++ page)
      else do
        let last ← page.getLast?
        readdir pageSize full fuel last.name (entries ++ page)

end

end Nufs.Metadata.Pebble
