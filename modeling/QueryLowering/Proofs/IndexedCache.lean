import Mathlib
import QueryLowering.Proofs.CacheHistory

/-!
A cache in two structures: a map in which values are looked up, and a queue of keys that says which
entry goes next. Neither says anything about the other, so they could get out of step: a key could
stand in the queue twice, or stay there after its entry is gone. Over every history the two together
are what the one list of a cache is.
-/

namespace QueryLowering.Cache

/-- A cache that keeps its values and the order of its keys apart. -/
structure Indexed (κ ν : Type) where
  capacity : Nat
  entries : Finmap fun _ : κ => ν
  order : List κ
  stats : CacheStats

namespace Indexed

variable {κ ν : Type} [DecidableEq κ]

def ofCapacity (capacity : Nat) : Indexed κ ν := ⟨max capacity 1, ∅, [], {}⟩

/-- Looks a key up in the map and counts the hit or miss. -/
def get (q : Indexed κ ν) (key : κ) : Option ν × Indexed κ ν :=
  match q.entries.lookup key with
  | some v => (some v, { q with stats := { q.stats with hits := q.stats.hits + 1 } })
  | none => (none, { q with stats := { q.stats with misses := q.stats.misses + 1 } })

/-- While the map is full, takes a key off the front of the queue and its entry out of the map. Gives
what is left of both, and how many entries went. -/
def evict (capacity : Nat) :
    List κ → (Finmap fun _ : κ => ν) → List κ × (Finmap fun _ : κ => ν) × Nat
  | [], entries => ([], entries, 0)
  | oldest :: order, entries =>
    if capacity ≤ entries.keys.card then
      let (order, entries, evicted) := evict capacity order (entries.erase oldest)
      (order, entries, evicted + 1)
    else (oldest :: order, entries, 0)

/-- Replaces the value of a key that is in the map; otherwise makes room, and puts the key into the
map and at the end of the queue. -/
def insert (q : Indexed κ ν) (key : κ) (value : ν) : Indexed κ ν :=
  if (q.entries.lookup key).isSome then { q with entries := q.entries.insert key value }
  else
    let (order, entries, evicted) := evict q.capacity q.order q.entries
    { q with
      entries := entries.insert key value
      order := order ++ [key]
      stats := { q.stats with evictions := q.stats.evictions + evicted } }

def clear (q : Indexed κ ν) : Indexed κ ν := { q with entries := ∅, order := [] }

def access (q : Indexed κ ν) : Access κ ν → Indexed κ ν
  | .get key => (q.get key).2
  | .insert key value => q.insert key value
  | .clear => q.clear

/-- The two structures after a history of accesses, the first access first. -/
def after (capacity : Nat) (history : List (Access κ ν)) : Indexed κ ν :=
  history.foldl access (ofCapacity capacity)

/-- The queue and the map are the keys and the look-up of a cache with the same counters. -/
structure Represents (q : Indexed κ ν) (c : Cache κ ν) : Prop where
  capacity : q.capacity = c.capacity
  order : q.order = c.keys
  lookup : ∀ key, q.entries.lookup key = c.find? key
  stats : q.stats = c.stats

variable {q : Indexed κ ν} {c : Cache κ ν}

/-- A map that finds what a list of entries with distinct keys holds has the keys of the list. -/
theorem keys_of_lookup {entries : Finmap fun _ : κ => ν} {es : List (κ × ν)}
    (h : ∀ key, entries.lookup key = es.lookup key) :
    entries.keys = (es.map Prod.fst).toFinset := by
  ext key
  have hlist : (es.lookup key).isSome = true ↔ key ∈ es.map Prod.fst :=
    isSome_find?_iff (c := { capacity := 0, entries := es })
  rw [Finmap.mem_keys, ← Finmap.lookup_isSome, h key, hlist, List.mem_toFinset]

theorem Represents.keys (h : q.Represents c) : q.entries.keys = q.order.toFinset := by
  rw [h.order]
  exact keys_of_lookup h.lookup

/-- Taking the oldest out of the map leaves what the rest of the list holds. -/
theorem lookup_erase_oldest {entries : Finmap fun _ : κ => ν} {e : κ × ν} {es : List (κ × ν)}
    (hnodup : ((e :: es).map Prod.fst).Nodup)
    (h : ∀ key, entries.lookup key = (e :: es).lookup key) (key : κ) :
    (entries.erase e.1).lookup key = es.lookup key := by
  rw [List.map_cons, List.nodup_cons] at hnodup
  by_cases hkey : key = e.1
  · have habsent : es.lookup e.1 = none :=
      find?_eq_none (c := { capacity := 0, entries := es }) hnodup.1
    rw [hkey, Finmap.lookup_erase, habsent]
  · rw [Finmap.lookup_erase_ne hkey, h key, List.lookup_cons, beq_false_of_ne hkey]

/-- The loop of evictions, run on a queue and a map that are in step, takes off as many keys as are in
the way, and leaves the two in step. -/
theorem evict_eq {capacity : Nat} (hroom : 0 < capacity) {es : List (κ × ν)}
    (hnodup : (es.map Prod.fst).Nodup) {entries : Finmap fun _ : κ => ν}
    (h : ∀ key, entries.lookup key = es.lookup key) :
    ∃ left, evict capacity (es.map Prod.fst) entries =
        ((es.map Prod.fst).drop (es.length + 1 - capacity), left, es.length + 1 - capacity) ∧
      ∀ key, left.lookup key = (es.drop (es.length + 1 - capacity)).lookup key := by
  induction es generalizing entries with
  | nil =>
    have hnone : ([] : List (κ × ν)).length + 1 - capacity = 0 := by
      rw [List.length_nil]
      omega
    rw [hnone]
    exact ⟨entries, rfl, h⟩
  | cons e es ih =>
    have hcard : entries.keys.card = es.length + 1 := by
      rw [keys_of_lookup h, List.toFinset_card_of_nodup hnodup, List.length_map, List.length_cons]
    rw [List.map_cons, evict, hcard]
    split
    · -- The map is full: its oldest entry goes, and the loop goes on with the rest.
      rename_i hfull
      obtain ⟨left, hevict, hleft⟩ := ih (List.nodup_cons.mp hnodup).2 (lookup_erase_oldest hnodup h)
      have hone : (e :: es).length + 1 - capacity = es.length + 1 - capacity + 1 := by
        rw [List.length_cons]
        omega
      refine ⟨left, ?_, ?_⟩
      · rw [hevict, hone, List.drop_succ_cons]
      · intro key
        rw [hleft key, hone, List.drop_succ_cons]
    · rename_i hspare
      have hnone : (e :: es).length + 1 - capacity = 0 := by
        rw [List.length_cons]
        omega
      rw [hnone]
      exact ⟨entries, rfl, h⟩

theorem represents_ofCapacity (capacity : Nat) :
    (ofCapacity capacity : Indexed κ ν).Represents (Cache.ofCapacity capacity) where
  capacity := rfl
  order := rfl
  lookup key := Finmap.lookup_empty key
  stats := rfl

/-- A look-up answers the same in both, and leaves the two in step. -/
theorem Represents.get (h : q.Represents c) (key : κ) :
    (q.get key).1 = (c.get key).1 ∧ (q.get key).2.Represents (c.get key).2 := by
  have hlookup := h.lookup key
  unfold Indexed.get Cache.get
  rw [hlookup]
  cases c.find? key with
  | some v => exact ⟨rfl, h.capacity, h.order, h.lookup, by rw [h.stats]⟩
  | none => exact ⟨rfl, h.capacity, h.order, h.lookup, by rw [h.stats]⟩

theorem Represents.insert (h : q.Represents c) (hc : c.Sound) (key : κ) (value : ν) :
    (q.insert key value).Represents (c.insert key value) := by
  by_cases hmem : key ∈ c.keys
  · have hsome : (q.entries.lookup key).isSome = true := by
      rw [h.lookup key]
      exact isSome_find?_iff.mpr hmem
    rw [Indexed.insert, if_pos hsome]
    refine ⟨h.capacity.trans capacity_insert.symm, ?_, ?_, ?_⟩
    · rw [keys_insert_of_mem hmem]
      exact h.order
    · intro k
      rw [find?_insert_of_mem hmem]
      split
      · rename_i hk
        subst hk
        exact Finmap.lookup_insert q.entries
      · rename_i hk
        rw [Finmap.lookup_insert_of_ne q.entries hk]
        exact h.lookup k
    · rw [stats_insert_of_mem hmem]
      exact h.stats
  · have hnone : ¬ (q.entries.lookup key).isSome = true := by
      rw [h.lookup key]
      exact mt isSome_find?_iff.mp hmem
    -- The loop leaves of the queue and of the map what the list keeps.
    obtain ⟨left, hevict, hleft⟩ := evict_eq hc.room hc.nodup h.lookup
    have hkeys : c.entries.map Prod.fst = q.order := h.order.symm
    rw [hkeys, ← h.capacity] at hevict
    rw [Indexed.insert, if_neg hnone, hevict, insert_of_not_mem hmem]
    refine ⟨h.capacity, ?_, ?_, ?_⟩
    · rw [Cache.keys, List.map_append, List.map_drop, hkeys, excess, Cache.size, h.capacity]
      rfl
    · intro k
      dsimp only [find?]
      rw [List.lookup_append]
      by_cases hk : k = key
      · subst hk
        rw [Finmap.lookup_insert, lookup_drop_eq_none hmem]
        simp
      · rw [Finmap.lookup_insert_of_ne left hk, hleft k, List.lookup_cons, beq_false_of_ne hk]
        simp [excess, Cache.size]
    · dsimp only
      rw [h.stats, h.capacity, excess, Cache.size]

theorem Represents.access (h : q.Represents c) (hc : c.Sound) (a : Access κ ν) :
    (q.access a).Represents (c.access a) := by
  cases a with
  | get key => exact (h.get key).2
  | insert key value => exact h.insert hc key value
  | clear =>
    refine ⟨h.capacity, rfl, ?_, h.stats⟩
    intro key
    exact Finmap.lookup_empty key

/-- After every history the two structures are in step with the one list. -/
theorem represents_after (capacity : Nat) (history : List (Access κ ν)) :
    (after capacity history).Represents (Cache.after capacity history) := by
  induction history using List.reverseRecOn with
  | nil => exact represents_ofCapacity capacity
  | append_singleton history a ih =>
    have hstep : after capacity (history ++ [a]) = (after capacity history).access a := by
      simp [after]
    rw [hstep, after_concat]
    exact ih.access (sound_after capacity history) a

end Indexed

variable {κ ν : Type} [DecidableEq κ]

/-- A full cache lets the key go that became present first, and no other. -/
theorem insert_into_full {capacity : Nat} {history : List (Access κ ν)} {key : κ}
    (habsent : key ∉ (after capacity history).keys)
    (hfull : (after capacity history).size = max capacity 1) (value : ν) :
    ∃ oldest rest, (after capacity history).keys = oldest :: rest ∧
      Oldest capacity history oldest ∧
      ((after capacity history).insert key value).keys = rest ++ [key] ∧
      ∀ k ∈ rest, ((after capacity history).insert key value).find? k =
        (after capacity history).find? k := by
  have hsound := sound_after capacity history
  -- There is one entry too many for another one to fit in.
  have hexcess : (after capacity history).excess = 1 := by
    rw [excess, hfull, capacity_after]
    omega
  cases hkeys : (after capacity history).keys with
  | nil =>
    have hsize : (after capacity history).size = 0 := by
      rw [← length_keys, hkeys]
      rfl
    omega
  | cons oldest rest =>
    have hnew : ((after capacity history).insert key value).keys = rest ++ [key] := by
      rw [keys_insert_of_not_mem habsent, hexcess, hkeys]
      rfl
    refine ⟨oldest, rest, rfl, oldest_of_keys_eq hkeys, hnew, ?_⟩
    intro k hk
    apply hsound.find?_insert
    · rintro rfl
      rw [hkeys] at habsent
      exact habsent (List.mem_cons_of_mem _ hk)
    · rw [hnew]
      exact List.mem_append_left _ hk

/-- What holds of a cache after every history of accesses, whatever capacity was asked for. The queue
of keys has no duplicates and is in step with the map; there is no more in them than there is room
for; a look-up gives what was put in last for a key that is present; an insertion replaces the value
of a present key and moves nothing, and one of an absent key into a full cache lets the key go that
became present first; and the counters account for all look-ups and all entries. -/
theorem fifo_after_history (capacity : Nat) (history : List (Access κ ν)) :
    let c := after capacity history
    let q := Indexed.after capacity history
    q.Represents c ∧ q.order.Nodup ∧ q.entries.keys = q.order.toFinset ∧
      q.entries.keys.card ≤ max capacity 1 ∧
      (∀ key, (c.get key).1 = if key ∈ c.keys then lastInserted key history else none) ∧
      (∀ key, key ∈ c.keys ↔ ∃ i, PresentSince capacity history key i) ∧
      (∀ key value, key ∈ c.keys →
        (c.insert key value).keys = c.keys ∧ (c.insert key value).stats = c.stats ∧
          ∀ k, (c.insert key value).find? k = if k = key then some value else c.find? k) ∧
      (∀ key value, key ∉ c.keys → c.size = max capacity 1 →
        ∃ oldest rest, c.keys = oldest :: rest ∧ Oldest capacity history oldest ∧
          (c.insert key value).keys = rest ++ [key] ∧
          ∀ k ∈ rest, (c.insert key value).find? k = c.find? k) ∧
      c.stats.hits + c.stats.misses = history.countP Access.isGet ∧
      c.stats.evictions + c.size + total clearedBy (ofCapacity capacity) history =
        total addedBy (ofCapacity capacity) history := by
  intro c q
  have hsound : c.Sound := sound_after capacity history
  have hq : q.Represents c := Indexed.represents_after capacity history
  have hnodup : q.order.Nodup := by
    rw [hq.order]
    exact hsound.nodup
  have hcard : q.entries.keys.card ≤ max capacity 1 := by
    calc
      q.entries.keys.card = q.order.length := by
        rw [hq.keys, List.toFinset_card_of_nodup hnodup]
      _ = c.size := by rw [hq.order, length_keys]
      _ ≤ c.capacity := hsound.size_le
      _ = max capacity 1 := capacity_after capacity history
  have hvalue (key : κ) :
      (c.get key).1 = if key ∈ c.keys then lastInserted key history else none := by
    rw [get_fst]
    split
    · rename_i hmem
      exact find?_after capacity history hmem
    · rename_i hmem
      exact find?_eq_none hmem
  refine ⟨hq, hnodup, hq.keys, hcard, hvalue, fun key => mem_keys_iff_presentSince, ?_, ?_,
    lookups_after capacity history, entries_after capacity history⟩
  · intro key value hmem
    exact ⟨keys_insert_of_mem hmem, stats_insert_of_mem hmem, find?_insert_of_mem hmem⟩
  · intro key value habsent hfull
    exact insert_into_full habsent hfull value

/-- Two keys for a cache of two, the first of them put in again and looked up after the second. -/
def renewedHistory : List (Access Nat String) :=
  [.insert 1 "a", .insert 2 "b", .insert 1 "c", .get 1, .get 3]

/-- To be put in again and to be looked up does not save the first key from a third one. -/
theorem fifo_after_renewedHistory :
    1 ∈ (after 2 renewedHistory).keys ∧ 3 ∉ (after 2 renewedHistory).keys ∧
      (after 2 renewedHistory).size = max 2 1 ∧
      ((after 2 renewedHistory).get 1).1 = some "c" ∧
      Oldest 2 renewedHistory 1 ∧
      ((after 2 renewedHistory).insert 3 "d").keys = [2, 3] ∧
      ((after 2 renewedHistory).insert 1 "d").keys = [1, 2] ∧
      (after 2 renewedHistory).stats.hits + (after 2 renewedHistory).stats.misses = 2 := by
  have hkeys : (after 2 renewedHistory).keys = [1, 2] := by decide
  have hpresent : 1 ∈ (after 2 renewedHistory).keys := by decide
  have habsent : 3 ∉ (after 2 renewedHistory).keys := by decide
  have hfull : (after 2 renewedHistory).size = max 2 1 := by decide
  obtain ⟨-, -, -, -, hvalue, -, hreplace, hevict, hlookups, -⟩ :=
    fifo_after_history 2 renewedHistory
  obtain ⟨oldest, rest, hcons, holdest, hnew, -⟩ := hevict 3 "d" habsent hfull
  obtain ⟨rfl, rfl⟩ : 1 = oldest ∧ [2] = rest := List.cons.inj (hkeys.symm.trans hcons)
  refine ⟨hpresent, habsent, hfull, ?_, holdest, hnew, ?_, hlookups⟩
  · rw [hvalue 1, if_pos hpresent]
    rfl
  · rw [(hreplace 1 "d" hpresent).1]
    exact hkeys

end QueryLowering.Cache
