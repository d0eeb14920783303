import TemplateColoring.Proofs.Session.Highlight

/-!
# What a pass adds to the tally

A pass looks up one region after the other. The tokens of a region are found if its key was held
before the pass or was met earlier in it, and this is counted as a hit. Every other region is
counted as a miss and colored. What is left in the cache are the keys of the regions and no others,
so the cache has no more entries than the template has regions, and the same pass right afterwards
finds the tokens of all of them (`Session.highlight_tally`).
-/

set_option autoImplicit false

namespace TemplateColoring

/-! ## The keys of a cache -/

namespace TokenCache

variable {d : Dialect} {c : TokenCache} {key key' : CacheKey}

def keys (c : TokenCache) : List CacheKey := c.entries.map (·.1)

theorem size_eq_length_keys (c : TokenCache) : c.size = c.keys.length :=
  (List.length_map _).symm

theorem isSome_lookup_iff : (c.entries.lookup key).isSome = true ↔ key ∈ c.keys := by
  simp only [List.lookup_isSome_iff, keys, List.mem_map, beq_iff_eq]
  exact exists_congr fun e => and_congr_right fun _ => eq_comm

theorem mem_keys_put : key' ∈ (c.put d key).keys ↔ key' = key ∨ key' ∈ c.keys := by
  simp only [keys, put, List.map_cons, List.mem_cons, List.mem_map, List.mem_filter, bne_iff_ne]
  constructor
  · rintro (rfl | ⟨e, ⟨he, -⟩, rfl⟩)
    · exact .inl rfl
    · exact .inr ⟨e, he, rfl⟩
  · rintro (rfl | ⟨e, he, rfl⟩)
    · exact .inl rfl
    · by_cases hkey : e.1 = key
      · exact .inl hkey
      · exact .inr ⟨e, ⟨he, hkey⟩, rfl⟩

theorem nodup_filter {p : CacheKey × List Token → Bool} (h : c.keys.Nodup) :
    ((c.entries.filter p).map (·.1)).Nodup :=
  h.sublist (List.filter_sublist.map _)

end TokenCache

/-! ## Known places and new ones -/

namespace CacheKey

variable {held held' keys : List CacheKey} {key : CacheKey}

/-- Whether the key at a place is held before, or stands at an earlier place too. -/
def isKnown (held keys : List CacheKey) (i : Nat) : Bool :=
  keys[i]?.any fun key => held.contains key || (keys.take i).contains key

def knownPlaces (held keys : List CacheKey) : List Nat :=
  (List.range keys.length).filter (isKnown held keys)

def newPlaces (held keys : List CacheKey) : List Nat :=
  (List.range keys.length).filter fun i => !isKnown held keys i

theorem filter_range_succ (p : Nat → Bool) (n : Nat) :
    (List.range (n + 1)).filter p =
      (if p 0 then [0] else []) ++ ((List.range n).filter fun i => p (i + 1)).map (· + 1) := by
  rw [List.range_succ_eq_map, List.filter_cons, List.filter_map]
  split <;> rfl

theorem isKnown_zero : isKnown held (key :: keys) 0 = held.contains key := by
  simp [isKnown]

/-- Behind the first key, this key is held as well. -/
theorem isKnown_succ (h : ∀ k, k ∈ held' ↔ k ∈ held ∨ k = key) (i : Nat) :
    isKnown held (key :: keys) (i + 1) = isKnown held' keys i := by
  have hcontains (k : CacheKey) : held'.contains k = (held.contains k || k == key) := by
    rw [Bool.eq_iff_iff, List.contains_iff_mem, h, Bool.or_eq_true, List.contains_iff_mem,
      beq_iff_eq]
  simp only [isKnown, List.getElem?_cons_succ, List.take_succ_cons, List.contains_cons, hcontains,
    Bool.or_assoc]

theorem knownPlaces_cons (h : ∀ k, k ∈ held' ↔ k ∈ held ∨ k = key) :
    knownPlaces held (key :: keys) =
      (if held.contains key then [0] else []) ++ (knownPlaces held' keys).map (· + 1) := by
  rw [knownPlaces, List.length_cons, filter_range_succ, isKnown_zero]
  simp only [isKnown_succ h]
  rfl

theorem newPlaces_cons (h : ∀ k, k ∈ held' ↔ k ∈ held ∨ k = key) :
    newPlaces held (key :: keys) =
      (if held.contains key then [] else [0]) ++ (newPlaces held' keys).map (· + 1) := by
  rw [newPlaces, List.length_cons, filter_range_succ, isKnown_zero]
  simp only [isKnown_succ h]
  cases held.contains key <;> rfl

end CacheKey

namespace Template

variable {t : Template} {d : Dialect} {r : Region}

/-- The key of a region: its kind and its text. -/
def keyOf (t : Template) (r : Region) : CacheKey :=
  .ofText r.kind (t.bytes.extract r.start r.stop).toList

/-- The keys of the regions of a template. -/
def keys (t : Template) (d : Dialect) : List CacheKey := (t.regions d).map t.keyOf

/-- The number of tokens of the region at a place, and of the regions at some places. -/
def tokensAt (t : Template) (d : Dialect) (regions : List Region) (i : Nat) : Nat :=
  (regions[i]?.map fun r => (t.color d r).length).getD 0

end Template

/-! ## A pass -/

namespace Session

open CacheKey

variable {d : Dialect} {s s' s'' : Session} {t : Template}

/-- The regions that were left in a pass are done, and `s'` is the session before the cache is
swept. -/
structure Passed (d : Dialect) (t : Template) (regions : List Region) (s s' : Session) : Prop where
  adds : s.tally.Adds s'.tally (knownPlaces s.cache.keys (regions.map t.keyOf)).length
    (newPlaces s.cache.keys (regions.map t.keyOf)).length
    (totalOf (t.tokensAt d regions) (newPlaces s.cache.keys (regions.map t.keyOf)))
  held : ∀ key, key ∈ s'.cache.keys ↔ key ∈ s.cache.keys ∨ key ∈ regions.map t.keyOf

/-- The tally has no room for the regions that are left: for those that are known, for those that
are new or for the tokens of these. -/
def Full (d : Dialect) (t : Template) (regions : List Region) (s : Session) : Prop :=
  s.tally.Full (knownPlaces s.cache.keys (regions.map t.keyOf)).length
    (newPlaces s.cache.keys (regions.map t.keyOf)).length
    (totalOf (t.tokensAt d regions) (newPlaces s.cache.keys (regions.map t.keyOf)))

section Step

variable {r : Region} {rest : List Region} {tally : Tally} {c : TokenCache}

theorem totalOf_tokensAt_cons (places : List Nat) :
    totalOf (t.tokensAt d (r :: rest)) (places.map (· + 1)) =
      totalOf (t.tokensAt d rest) places := by
  rw [totalOf_map]
  rfl

/-- A region whose key is held is known. -/
theorem known_cons (d : Dialect) (h : t.keyOf r ∈ c.keys) (rest : List Region) :
    (knownPlaces c.keys ((r :: rest).map t.keyOf)).length =
        1 + (knownPlaces c.keys (rest.map t.keyOf)).length ∧
      (newPlaces c.keys ((r :: rest).map t.keyOf)).length =
        0 + (newPlaces c.keys (rest.map t.keyOf)).length ∧
      totalOf (t.tokensAt d (r :: rest)) (newPlaces c.keys ((r :: rest).map t.keyOf)) =
        0 + totalOf (t.tokensAt d rest) (newPlaces c.keys (rest.map t.keyOf)) := by
  have hheld (k : CacheKey) : k ∈ c.keys ↔ k ∈ c.keys ∨ k = t.keyOf r := by
    refine ⟨.inl, ?_⟩
    rintro (hk | rfl)
    · exact hk
    · exact h
  rw [List.map_cons, knownPlaces_cons hheld, newPlaces_cons hheld, List.contains_iff_mem.mpr h]
  simp only [if_true, List.nil_append, List.singleton_append, List.length_cons, List.length_map,
    totalOf_tokensAt_cons, Nat.zero_add, Nat.add_comm 1, and_self]

/-- A region whose key is not held is new, and its key is held from then on. -/
theorem new_cons (d : Dialect) (h : t.keyOf r ∉ c.keys) (rest : List Region) :
    (knownPlaces c.keys ((r :: rest).map t.keyOf)).length =
        0 + (knownPlaces (c.put d (t.keyOf r)).keys (rest.map t.keyOf)).length ∧
      (newPlaces c.keys ((r :: rest).map t.keyOf)).length =
        1 + (newPlaces (c.put d (t.keyOf r)).keys (rest.map t.keyOf)).length ∧
      totalOf (t.tokensAt d (r :: rest)) (newPlaces c.keys ((r :: rest).map t.keyOf)) =
        (t.color d r).length + totalOf (t.tokensAt d rest)
          (newPlaces (c.put d (t.keyOf r)).keys (rest.map t.keyOf)) := by
  have hheld (k : CacheKey) : k ∈ (c.put d (t.keyOf r)).keys ↔ k ∈ c.keys ∨ k = t.keyOf r := by
    rw [TokenCache.mem_keys_put, or_comm]
  have hno : c.keys.contains (t.keyOf r) = false := by simpa using h
  have hcount : t.tokensAt d (r :: rest) 0 = (t.color d r).length := rfl
  rw [List.map_cons, knownPlaces_cons hheld, newPlaces_cons hheld, hno]
  simp only [Bool.false_eq_true, if_false, List.nil_append, List.singleton_append, List.length_cons,
    List.length_map, totalOf_cons, totalOf_tokensAt_cons, hcount, Nat.zero_add, Nat.add_comm 1,
    and_self]

theorem Passed.found (h : t.keyOf r ∈ s.cache.keys) (hadds : s.tally.Adds tally 1 0 0)
    (hrest : Passed d t rest { s with tally } s') : Passed d t (r :: rest) s s' := by
  obtain ⟨hknown, hnew, hmade⟩ := known_cons d h rest
  constructor
  · rw [hknown, hnew, hmade]
    exact hadds.trans hrest.adds
  · intro key
    rw [hrest.held, List.map_cons, List.mem_cons]
    constructor
    · exact Or.imp_right .inr
    · rintro (hkey | rfl | hkey)
      · exact .inl hkey
      · exact .inl h
      · exact .inr hkey

theorem Passed.missed (h : t.keyOf r ∉ s.cache.keys)
    (hadds : s.tally.Adds tally 0 1 (t.color d r).length)
    (hrest : Passed d t rest ⟨s.cache.put d (t.keyOf r), tally⟩ s') :
    Passed d t (r :: rest) s s' := by
  obtain ⟨hknown, hnew, hmade⟩ := new_cons d h rest
  constructor
  · rw [hknown, hnew, hmade]
    exact hadds.trans hrest.adds
  · intro key
    rw [hrest.held, TokenCache.mem_keys_put, List.map_cons, List.mem_cons, or_assoc, or_left_comm]

theorem Full.found (h : t.keyOf r ∈ s.cache.keys) (hadds : s.tally.Adds tally 1 0 0)
    (hrest : Full d t rest { s with tally }) : Full d t (r :: rest) s := by
  obtain ⟨hknown, hnew, hmade⟩ := known_cons d h rest
  rw [Full, hknown, hnew, hmade]
  exact hadds.full hrest

theorem Full.missed (h : t.keyOf r ∉ s.cache.keys)
    (hadds : s.tally.Adds tally 0 1 (t.color d r).length)
    (hrest : Full d t rest ⟨s.cache.put d (t.keyOf r), tally⟩) : Full d t (r :: rest) s := by
  obtain ⟨hknown, hnew, hmade⟩ := new_cons d h rest
  rw [Full, hknown, hnew, hmade]
  exact hadds.full hrest

end Step

end Session

end TemplateColoring
