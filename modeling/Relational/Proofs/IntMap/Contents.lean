import Mathlib.Data.FinEnum
import Mathlib.Data.Set.Card
import Relational.IntMap.Basic

/-!
# What a map holds

Distinct keys have distinct paths, so an update of one key leaves every other key alone. The
size that a trie caches counts the paths at which it stores values, and the paths of a map are
those of its keys; so the size of a map is the number of its keys.
-/
namespace Relational.IntMap

universe u

variable {V : Type u}

/-- A key other than zero is given by its branch and the key below it. -/
theorem eq_of_branchOf_eq {left right : UInt64} (leftNonzero : left ≠ 0) (rightNonzero : right ≠ 0)
    (branches : branchOf left = branchOf right) (inner : below left = below right) :
    left = right := by
  have remainder : (left.toNat - 1) % 4 = (right.toNat - 1) % 4 := by
    have same := congrArg Fin.val branches
    simp only [branchOf, UInt64.toNat_mod, toNat_sub_one leftNonzero,
      toNat_sub_one rightNonzero] at same
    exact same
  have quotient : (left.toNat - 1) / 4 = (right.toNat - 1) / 4 := by
    rw [← toNat_below leftNonzero, ← toNat_below rightNonzero, inner]
  have leftPositive : left.toNat ≠ 0 := fun zero => leftNonzero (UInt64.toNat_inj.mp zero)
  have rightPositive : right.toNat ≠ 0 := fun zero => rightNonzero (UInt64.toNat_inj.mp zero)
  apply UInt64.toNat_inj.mp
  omega

/-- Distinct keys have distinct paths. -/
theorem path_injective : Function.Injective path := by
  intro left
  induction size : left.toNat using Nat.strong_induction_on generalizing left with
  | _ bound ih =>
    intro right same
    by_cases leftZero : left = 0
    · by_cases rightZero : right = 0
      · rw [leftZero, rightZero]
      · rw [leftZero, path_zero, path_of_ne_zero rightZero] at same
        cases same
    · by_cases rightZero : right = 0
      · rw [rightZero, path_zero, path_of_ne_zero leftZero] at same
        cases same
      · rw [path_of_ne_zero leftZero, path_of_ne_zero rightZero] at same
        injection same with first rest
        have inner := ih _ (size ▸ toNat_below_lt leftZero) rfl rest
        exact eq_of_branchOf_eq leftZero rightZero first inner

/-- An update changes what is found for its key and for no other key. -/
theorem get?_set (map : IntMap V) (key other : UInt64) (value : Option V) :
    (map.set key value).get? other = if other = key then value else map.get? other := by
  rw [get?, set, Trie.get?_set value _ _ map.sound]
  by_cases same : other = key
  · rw [if_pos same, if_pos (congrArg path same)]
  · rw [if_neg same, if_neg (fun paths => same (path_injective paths))]
    rfl

/-- A key has the value it was given, and no other key is changed. -/
theorem get?_insert (map : IntMap V) (key other : UInt64) (value : V) :
    (map.insert key value).get? other = if other = key then some value else map.get? other :=
  get?_set map key other (some value)

namespace Trie

/-- The paths at which a trie stores values. -/
def slots : Trie V → List (List Branch)
  | empty => []
  | node value _ zero one two three =>
    (if value.isSome then [[]] else []) ++
      (branches.zipWith (fun branch inner => inner.map (branch :: ·))
        [zero.slots, one.slots, two.slots, three.slots]).flatten

/-- The slots of a node are its own and those below its branches in order. -/
theorem slots_node (value : Option V) (size : Nat) (zero one two three : Trie V) :
    (node value size zero one two three).slots =
      (if value.isSome then [[]] else []) ++ (zero.slots.map (0 :: ·) ++
        (one.slots.map (1 :: ·) ++ (two.slots.map (2 :: ·) ++ three.slots.map (3 :: ·)))) := by
  rw [slots, branches, List.zipWith_cons_cons, List.zipWith_cons_cons, List.zipWith_cons_cons,
    List.zipWith_cons_cons, List.zipWith_nil_left, List.flatten_cons, List.flatten_cons,
    List.flatten_cons, List.flatten_cons, List.flatten_nil, List.append_nil]

/-- A path is a slot if a value is found there. -/
theorem mem_slots (trie : Trie V) (path : List Branch) :
    path ∈ trie.slots ↔ (trie.get? path).isSome := by
  induction trie generalizing path with
  | empty => simp [slots, get?_empty]
  | node value size zero one two three first second third fourth =>
    rw [slots_node]
    cases path with
    | nil =>
      cases value <;> simp [get?, value?]
    | cons branch path =>
      have inner :
          branch :: path ∈ (if value.isSome then [([] : List Branch)] else []) ↔ False := by
        split <;> simp
      have below : ∀ branch : Branch, branch = 0 ∨ branch = 1 ∨ branch = 2 ∨ branch = 3 := by
        decide
      simp only [List.mem_append, inner, false_or, get?]
      rcases below branch with rfl | rfl | rfl | rfl
      · simpa [child] using first path
      · simpa [child] using second path
      · simpa [child] using third path
      · simpa [child] using fourth path

/-- Slots below different branches are different. -/
theorem disjoint_slots {left right : Branch} (different : left ≠ right)
    (lefts rights : List (List Branch)) :
    List.Disjoint (lefts.map (left :: ·)) (rights.map (right :: ·)) := by
  intro path first second
  obtain ⟨_, _, rfl⟩ := List.mem_map.mp first
  obtain ⟨_, _, same⟩ := List.mem_map.mp second
  injection same with same
  exact different same.symm

/-- No slot is listed twice. -/
theorem nodup_slots (trie : Trie V) : trie.slots.Nodup := by
  induction trie with
  | empty => exact List.nodup_nil
  | node value size zero one two three first second third fourth =>
    have under {inner : List (List Branch)} (branch : Branch) (once : inner.Nodup) :
        (inner.map (branch :: ·)).Nodup :=
      once.map fun _ _ same => (List.cons.inj same).2
    rw [slots_node]
    have own : (if value.isSome then [([] : List Branch)] else []).Nodup := by
      split <;> simp
    refine own.append ?_ ?_
    · refine (under 0 first).append ((under 1 second).append
        ((under 2 third).append (under 3 fourth) ?_) ?_) ?_
      · exact disjoint_slots (by decide) _ _
      · exact List.disjoint_append_right.mpr
          ⟨disjoint_slots (by decide) _ _, disjoint_slots (by decide) _ _⟩
      · refine List.disjoint_append_right.mpr ⟨disjoint_slots (by decide) _ _, ?_⟩
        exact List.disjoint_append_right.mpr
          ⟨disjoint_slots (by decide) _ _, disjoint_slots (by decide) _ _⟩
    · intro path here there
      have root : path = [] := by
        split at here
        · simpa using here
        · simp at here
      simp [root] at there

/-- The cached size of a sound trie is the number of its slots. -/
theorem length_slots {trie : Trie V} (sound : trie.Sound) : trie.slots.length = trie.size := by
  induction trie with
  | empty => rfl
  | node value size zero one two three first second third fourth =>
    obtain ⟨counted, _, zeroSound, oneSound, twoSound, threeSound⟩ := sound
    have own : (if value.isSome then [([] : List Branch)] else []).length = held value := by
      cases value <;> rfl
    rw [slots_node, List.length_append, List.length_append, List.length_append, List.length_append,
      List.length_map, List.length_map, List.length_map, List.length_map, own, first zeroSound,
      second oneSound, third twoSound, fourth threeSound]
    change _ = size
    omega

/-- The size of a sound trie is the number of paths at which it stores values. -/
theorem Sound.size_eq_ncard {trie : Trie V} (sound : trie.Sound) :
    trie.size = {slot | (trie.get? slot).isSome}.ncard := by
  have slots : {slot | (trie.get? slot).isSome} = {slot | slot ∈ trie.slots} := by
    ext slot
    exact (trie.mem_slots slot).symm
  calc
    trie.size = trie.slots.length := (length_slots sound).symm
    _ = trie.slots.toFinset.card := (List.toFinset_card_of_nodup trie.nodup_slots).symm
    _ = {slot | slot ∈ trie.slots}.ncard := by
      rw [← Set.ncard_coe_finset, List.coe_toFinset]
    _ = {slot | (trie.get? slot).isSome}.ncard := by rw [slots]

end Trie

/-- The size of a map is the number of its keys. -/
theorem size_eq_ncard (map : IntMap V) : map.size = {key | (map.get? key).isSome}.ncard := by
  have paths : path '' {key | (map.get? key).isSome} = {slot | (map.root.get? slot).isSome} := by
    ext slot
    rw [Set.mem_image, Set.mem_ofPred_eq]
    constructor
    · rintro ⟨key, found, rfl⟩
      exact found
    · intro found
      obtain ⟨key, rfl⟩ := map.keyed slot found
      exact ⟨key, found, rfl⟩
  rw [size, map.sound.size_eq_ncard, ← paths, Set.ncard_image_of_injective _ path_injective]

/-- A key without a value makes a map larger by one. -/
theorem size_insert_of_get?_eq_none {map : IntMap V} {key : UInt64} (absent : map.get? key = none)
    (value : V) : (map.insert key value).size = map.size + 1 := by
  have keys : {other | ((map.insert key value).get? other).isSome} =
      Insert.insert key {other | (map.get? other).isSome} := by
    ext other
    rw [Set.mem_ofPred_eq, get?_insert, Set.mem_insert_iff, Set.mem_ofPred_eq]
    by_cases same : other = key
    · simp [same]
    · simp [same]
  have outside : key ∉ {other | (map.get? other).isSome} := by simp [absent]
  rw [size_eq_ncard, size_eq_ncard, keys, Set.ncard_insert_of_notMem outside]

end Relational.IntMap
