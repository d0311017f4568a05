import Relational.IntMap.Basic

/-!
# Handles of maps

A handle is a map together with the making that produced it. Copies of a handle come from the
same making; every update is a making of its own, even one that changes nothing. All empty
maps count as one.
-/
namespace Relational.IntMap

universe u

/-- A map and the number of the making that produced it. -/
structure Handle (V : Type u) where
  /-- What was made. -/
  map : IntMap V
  /-- Which making it was. -/
  making : Nat

/-- Whether two handles share one map: both are empty, or both come from one making. -/
def Handle.same {V : Type u} (left right : Handle V) : Bool :=
  if left.map.isEmpty || right.map.isEmpty then left.map.isEmpty && right.map.isEmpty
  else left.making == right.making

/-!
## Histories of maps

A map is never changed. Every operation makes a new version from versions made before, and all of
them stay. A history says what was made, in order. It is read twice: as maps, and as partial
functions from keys to values, which say what each version has to hold without saying how.
-/

variable {V : Type u}

/-- What a map has to hold: for every key a value, or none. -/
abbrev Contents (V : Type u) := UInt64 → Option V

namespace Contents

/-- No key has a value. -/
def none : Contents V := fun _ => .none

/-- One key has the given value, or none, and every other key is as before. -/
def write (contents : Contents V) (key : UInt64) (value : Option V) : Contents V :=
  fun other => if other = key then value else contents other

/-- Every key has the value that is listed for it last. -/
def last (entries : List (UInt64 × V)) : Contents V :=
  fun key => entries.reverse.lookup key

end Contents

/-- The making of a version. The versions made before are known by their numbers, and a number
that is not in use stands for the version without entries. -/
inductive Making (V : Type u) where
  /-- Another value, or none, for a key of a version. -/
  | set (version : Nat) (key : UInt64) (value : Option V)
  /-- Another value for a key of a version. -/
  | insert (version : Nat) (key : UInt64) (value : V)
  /-- No value for a key of a version. -/
  | erase (version : Nat) (key : UInt64)
  /-- A version once more. -/
  | clone (version : Nat)
  /-- A version with these entries only. -/
  | collect (entries : List (UInt64 × V))

namespace Making

/-- The map that is made. -/
def map (before : List (IntMap V)) : Making V → IntMap V
  | set version key value => (before.getD version .empty).set key value
  | insert version key value => (before.getD version .empty).insert key value
  | erase version key => (before.getD version .empty).erase key
  | clone version => before.getD version .empty
  | collect entries => .ofList entries

/-- What the map that is made has to hold. -/
def contents (before : List (Contents V)) : Making V → Contents V
  | set version key value => (before.getD version .none).write key value
  | insert version key value => (before.getD version .none).write key (some value)
  | erase version key => (before.getD version .none).write key none
  | clone version => before.getD version .none
  | collect entries => .last entries

end Making

/-- The versions after some makings and before them, first things first. -/
def versionsFrom (before : List (IntMap V)) (makings : List (Making V)) : List (IntMap V) :=
  makings.foldl (fun before making => before ++ [making.map before]) before

/-- What the versions after some makings and before them have to hold. -/
def contentsFrom (before : List (Contents V)) (makings : List (Making V)) : List (Contents V) :=
  makings.foldl (fun before making => before ++ [making.contents before]) before

/-- All versions of a history. The first one has no entries. -/
def versions (makings : List (Making V)) : List (IntMap V) := versionsFrom [.empty] makings

/-- What all versions of a history have to hold. -/
def versionContents (makings : List (Making V)) : List (Contents V) :=
  contentsFrom [.none] makings

end Relational.IntMap
