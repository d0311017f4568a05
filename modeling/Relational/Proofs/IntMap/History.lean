import Mathlib.Data.List.Forall2
import Relational.IntMap.Handle
import Relational.Proofs.IntMap.Contents

/-!
# Maps are partial functions

Whatever versions are made from whatever versions, each of them holds what the partial function
made in the same way holds: one key is written at a time and no other key is touched, and the
entries of a list are written one after another, so that the last one of a key stays.
-/
namespace Relational.IntMap

universe u

variable {V : Type u}

/-- A map holds what a partial function says, and its size counts the keys that have a value. -/
structure Holds (map : IntMap V) (contents : Contents V) : Prop where
  /-- Every key has its value, or none. -/
  get? : ∀ key, map.get? key = contents key
  /-- Whether a key has a value is known. -/
  contains : ∀ key, map.contains key = (contents key).isSome
  /-- The size is the number of keys with a value. -/
  size : map.size = {key | (contents key).isSome}.ncard
  /-- The map is empty if no key has a value, and only then. -/
  isEmpty : map.isEmpty = true ↔ ∀ key, contents key = none

/-- A map is empty if and only if no key has a value. -/
theorem isEmpty_iff (map : IntMap V) : map.isEmpty = true ↔ ∀ key, map.get? key = none := by
  constructor
  · intro nothing key
    have root : map.root = .empty := by
      rw [isEmpty] at nothing
      cases shape : map.root with
      | empty => rfl
      | node => simp [shape] at nothing
    rw [IntMap.get?, root, Trie.get?_empty]
  · intro absent
    have none : {key | (map.get? key).isSome} = (∅ : Set UInt64) := by
      ext key
      simp [absent key]
    have counted : map.root.size = 0 := by
      show map.size = 0
      rw [size_eq_ncard, none, Set.ncard_empty]
    rw [isEmpty, Trie.eq_empty_of_size_eq_zero map.sound counted]

/-- It is enough to look at every key. -/
theorem Holds.of_get? {map : IntMap V} {contents : Contents V}
    (same : ∀ key, map.get? key = contents key) : map.Holds contents where
  get? := same
  contains key := by rw [IntMap.contains, same]
  size := by simp only [size_eq_ncard, same]
  isEmpty := by simp only [isEmpty_iff, same]

/-- The map without entries holds nothing. -/
theorem holds_empty : (empty : IntMap V).Holds .none :=
  .of_get? get?_empty

/-- An update of a map is an update of what it holds. -/
theorem Holds.set {map : IntMap V} {contents : Contents V} (holds : map.Holds contents)
    (key : UInt64) (value : Option V) : (map.set key value).Holds (contents.write key value) :=
  .of_get? fun other => by rw [get?_set, Contents.write, holds.get?]

/-- Entries that are inserted one after another come before what was there, the last one of a key
first. -/
theorem get?_foldl_insert (entries : List (UInt64 × V)) (map : IntMap V) (key : UInt64) :
    (entries.foldl (fun map entry => map.insert entry.1 entry.2) map).get? key =
      (Contents.last entries key).or (map.get? key) := by
  induction entries generalizing map with
  | nil => rfl
  | cons entry entries later =>
    rw [List.foldl_cons, later, get?_insert, Contents.last, Contents.last, List.reverse_cons,
      List.lookup_append, Option.or_assoc]
    by_cases same : key = entry.1
    · rw [if_pos same, List.lookup_cons, same, beq_self_eq_true]
      rfl
    · rw [if_neg same, List.lookup_cons, beq_eq_false_iff_ne.mpr same]
      rfl

/-- The map of a list holds the last value of every key. -/
theorem holds_ofList (entries : List (UInt64 × V)) : (ofList entries).Holds (.last entries) :=
  .of_get? fun key => by rw [ofList, get?_foldl_insert, get?_empty, Option.or_none]

/-- An entry of a map of listed entries is listed. -/
theorem mem_of_get?_ofList {entries : List (UInt64 × V)} {key : UInt64} {value : V}
    (found : (ofList entries).get? key = some value) : (key, value) ∈ entries := by
  rw [(holds_ofList entries).get?, Contents.last, List.lookup_eq_some_iff] at found
  obtain ⟨front, back, same, _⟩ := found
  rw [← List.mem_reverse, same]
  simp

/-- A key that is listed has a value. -/
theorem get?_ofList_ne_none {entries : List (UInt64 × V)} {key : UInt64} {value : V}
    (member : (key, value) ∈ entries) : (ofList entries).get? key ≠ none := by
  rw [(holds_ofList entries).get?, Contents.last]
  intro absent
  have apart := List.lookup_eq_none_iff.mp absent (key, value) (List.mem_reverse.mpr member)
  simp at apart

/-- A version that is made holds what it has to hold, if this is so of the versions before. A number
that is not in use stands for no entries on both sides. -/
theorem Making.holds {maps : List (IntMap V)} {held : List (Contents V)}
    (before : List.Forall₂ Holds maps held) (making : Making V) :
    (making.map maps).Holds (making.contents held) := by
  have known (version : Nat) : (maps.getD version .empty).Holds (held.getD version .none) := by
    rw [List.getD_eq_getElem?_getD, List.getD_eq_getElem?_getD]
    by_cases within : version < maps.length
    · have there : version < held.length := before.length_eq ▸ within
      rw [List.getElem?_eq_getElem within, List.getElem?_eq_getElem there]
      exact before.get within there
    · have beyond : held.length ≤ version := before.length_eq ▸ Nat.le_of_not_lt within
      rw [List.getElem?_eq_none (Nat.le_of_not_lt within), List.getElem?_eq_none beyond]
      exact holds_empty
  cases making with
  | set version key value => exact (known version).set key value
  | insert version key value => exact (known version).set key (some value)
  | erase version key => exact (known version).set key none
  | clone version => exact known version
  | collect entries => exact holds_ofList entries

/-- Versions that are made one after another hold what they have to hold, if this is so of the
versions before. -/
theorem versionsFrom_hold {maps : List (IntMap V)} {held : List (Contents V)}
    (before : List.Forall₂ Holds maps held) (makings : List (Making V)) :
    List.Forall₂ Holds (versionsFrom maps makings) (contentsFrom held makings) := by
  induction makings generalizing maps held with
  | nil => exact before
  | cons making makings later =>
    exact later (List.rel_append before (.cons (making.holds before) .nil))

/-- Every version of every history holds what the partial function made in the same way says: every
key has the value last given to it and not taken away since, whether it has one is known, the size
counts the keys that have one, and a map without any is empty and no other map is. -/
theorem versions_hold (makings : List (Making V)) :
    List.Forall₂ Holds (versions makings) (versionContents makings) :=
  versionsFrom_hold (.cons holds_empty .nil) makings

/-- Of two values for one key the later one stays, and a copy keeps its value when the key, whose
path goes through the slot of another one, is taken away from the map it was made of. -/
example : (versions [.collect [(5, "a"), (0, "b"), (5, "c")], .clone 1, .erase 1 5]).map
    (fun map => (map.size, map.get? 5)) = [(0, none), (2, some "c"), (2, some "c"), (1, none)] := by
  cbv

end Relational.IntMap
