import Mathlib
import QueryLowering.Proofs.CacheTransparency
import QueryLowering.Proofs.Steps

/-!
Histories of a cache. Whatever series of look-ups, insertions and clearings a cache has seen, its keys
are distinct and stand in the order in which they became present, so that the key which makes room
is the one that has been there for longest; and its counters account for every access.

The one list of entries stands for two structures, a map in which values are looked up and a queue
of keys that says what to evict. A cache that keeps the two apart stays in step with it.
-/

namespace QueryLowering.Cache

variable {κ ν : Type}

/-- What a client can do with a cache. -/
inductive Access (κ ν : Type) where
  | get (key : κ)
  | insert (key : κ) (value : ν)
  | clear

def Access.isGet : Access κ ν → Bool
  | .get _ => true
  | _ => false

variable [DecidableEq κ]

/-- The value that an access puts in for a key. -/
def Access.inserted? (key : κ) : Access κ ν → Option ν
  | .insert k value => if k = key then some value else none
  | _ => none

/-- The value that was put in last for a key, whatever has become of it since. -/
def lastInserted (key : κ) (history : List (Access κ ν)) : Option ν :=
  history.reverse.findSome? (Access.inserted? key)

/-- The cache that an access leaves behind. -/
def access (c : Cache κ ν) : Access κ ν → Cache κ ν
  | .get key => (c.get key).2
  | .insert key value => c.insert key value
  | .clear => c.clear

/-- A cache of the requested capacity after a history of accesses, the first access first. -/
def after (capacity : Nat) (history : List (Access κ ν)) : Cache κ ν :=
  history.foldl access (ofCapacity capacity)

theorem after_concat (capacity : Nat) (history : List (Access κ ν)) (a : Access κ ν) :
    after capacity (history ++ [a]) = (after capacity history).access a := by
  simp [after]

variable {c : Cache κ ν} {key : κ} {value : ν}

theorem isSome_find?_iff : (c.find? key).isSome = true ↔ key ∈ c.keys := by
  unfold find? keys
  rw [← not_iff_not, Bool.not_eq_true, Option.isSome_eq_false_iff, Option.isNone_iff_eq_none,
    List.lookup_eq_none_iff]
  simp only [List.mem_map, not_exists, not_and, bne_iff_ne]
  constructor
  · intro h e he heq
    exact h e he heq.symm
  · intro h e he heq
    exact h e he heq.symm

theorem find?_eq_none (h : key ∉ c.keys) : c.find? key = none := by
  rw [← Option.not_isSome_iff_eq_none, isSome_find?_iff]
  exact h

/-- With distinct keys, an entry is found exactly if it is there. -/
theorem lookup_eq_some_iff_mem {es : List (κ × ν)} (h : (es.map Prod.fst).Nodup) :
    es.lookup key = some value ↔ (key, value) ∈ es := by
  constructor
  · exact mem_of_lookup
  · intro hmem
    obtain ⟨before, rest, rfl⟩ := List.append_of_mem hmem
    apply List.lookup_eq_some_iff.mpr
    refine ⟨before, rest, rfl, ?_⟩
    -- An earlier entry with the key would be a second one.
    intro e he
    rw [List.map_append, List.map_cons, List.nodup_middle, List.nodup_cons] at h
    apply bne_iff_ne.mpr
    intro heq
    apply h.1
    apply List.mem_append_left
    exact List.mem_map.mpr ⟨e, he, heq.symm⟩

theorem keys_replace (es : List (κ × ν)) :
    (replace key value es).map Prod.fst = es.map Prod.fst := by
  induction es with
  | nil => rfl
  | cons e es ih =>
    rw [replace]
    split
    · rename_i heq
      rw [List.map_cons, List.map_cons, heq]
    · rw [List.map_cons, List.map_cons, ih]

theorem lookup_replace {es : List (κ × ν)} (h : key ∈ es.map Prod.fst) (k : κ) :
    (replace key value es).lookup k = if k = key then some value else es.lookup k := by
  induction es with
  | nil => exact absurd h List.not_mem_nil
  | cons e es ih =>
    rw [replace]
    split
    · rename_i heq
      by_cases hk : k = key
      · simp [hk]
      · have hfirst : (k == e.1) = false := beq_false_of_ne (heq ▸ hk)
        rw [if_neg hk, List.lookup_cons, List.lookup_cons, beq_false_of_ne hk, hfirst]
    · rename_i hne
      have hrest : key ∈ es.map Prod.fst := by
        rcases List.mem_cons.mp h with heq | hrest
        · exact absurd heq.symm hne
        · exact hrest
      by_cases hk : k = e.1
      · subst hk
        rw [if_neg hne, List.lookup_cons, List.lookup_cons]
        simp
      · rw [List.lookup_cons, List.lookup_cons, beq_false_of_ne hk]
        exact ih hrest

theorem keys_insert_of_mem (h : key ∈ c.keys) : (c.insert key value).keys = c.keys := by
  rw [insert, if_pos (isSome_find?_iff.mpr h)]
  exact keys_replace c.entries

theorem find?_insert_of_mem (h : key ∈ c.keys) (k : κ) :
    (c.insert key value).find? k = if k = key then some value else c.find? k := by
  rw [insert, if_pos (isSome_find?_iff.mpr h)]
  exact lookup_replace h k

theorem stats_insert_of_mem (h : key ∈ c.keys) : (c.insert key value).stats = c.stats := by
  rw [insert, if_pos (isSome_find?_iff.mpr h)]

/-- How many entries have to go before there is room for one more. -/
def excess (c : Cache κ ν) : Nat := c.size + 1 - c.capacity

theorem insert_of_not_mem (h : key ∉ c.keys) :
    c.insert key value =
      { c with
        entries := c.entries.drop c.excess ++ [(key, value)]
        stats := { c.stats with evictions := c.stats.evictions + c.excess } } := by
  rw [insert, if_neg (mt isSome_find?_iff.mp h)]
  rfl

theorem keys_insert_of_not_mem (h : key ∉ c.keys) :
    (c.insert key value).keys = c.keys.drop c.excess ++ [key] := by
  rw [insert_of_not_mem h]
  simp [keys, List.map_drop]

/-- Nothing is found for an absent key in what is left of the entries. -/
theorem lookup_drop_eq_none (h : key ∉ c.keys) (n : Nat) :
    (c.entries.drop n).lookup key = none := by
  apply List.lookup_eq_none_iff.mpr
  intro e he
  apply bne_iff_ne.mpr
  rintro rfl
  exact h (List.mem_map_of_mem (List.mem_of_mem_drop he))

theorem capacity_insert : (c.insert key value).capacity = c.capacity := by
  by_cases h : key ∈ c.keys
  · rw [insert, if_pos (isSome_find?_iff.mpr h)]
  · rw [insert_of_not_mem h]

omit [DecidableEq κ] in
@[simp] theorem length_keys (c : Cache κ ν) : c.keys.length = c.size := by
  simp [keys, size]

@[simp] theorem keys_get (c : Cache κ ν) (k : κ) : (c.get k).2.keys = c.keys := by
  simp [keys]

@[simp] theorem capacity_get (c : Cache κ ν) (k : κ) : (c.get k).2.capacity = c.capacity := by
  unfold get
  split <;> rfl

@[simp] theorem capacity_access (c : Cache κ ν) (a : Access κ ν) :
    (c.access a).capacity = c.capacity := by
  cases a with
  | get k => exact capacity_get c k
  | insert k v => exact capacity_insert
  | clear => rfl

/-- An access takes keys off the front and puts at most one behind the others, which was absent. -/
theorem keys_access (c : Cache κ ν) (a : Access κ ν) :
    ∃ n fresh, (c.access a).keys = c.keys.drop n ++ fresh ∧
      (fresh = [] ∨ ∃ k, fresh = [k] ∧ k ∉ c.keys) := by
  cases a with
  | get k => exact ⟨0, [], by simp [access], Or.inl rfl⟩
  | insert k v =>
    by_cases h : k ∈ c.keys
    · refine ⟨0, [], ?_, Or.inl rfl⟩
      rw [List.drop_zero, List.append_nil]
      exact keys_insert_of_mem h
    · exact ⟨c.excess, [k], keys_insert_of_not_mem h, Or.inr ⟨k, rfl, h⟩⟩
  | clear => exact ⟨c.size, [], by simp [access, clear, keys, size], Or.inl rfl⟩

/-- What every cache has that a history leads to: distinct keys, no more than there is room for. -/
structure Sound (c : Cache κ ν) : Prop where
  nodup : c.keys.Nodup
  room : 0 < c.capacity
  size_le : c.size ≤ c.capacity

omit [DecidableEq κ] in
theorem sound_ofCapacity (capacity : Nat) : (ofCapacity capacity : Cache κ ν).Sound where
  nodup := List.nodup_nil
  room := Nat.lt_of_lt_of_le Nat.one_pos (Nat.le_max_right capacity 1)
  size_le := Nat.zero_le _

/-- An access keeps a cache sound. -/
theorem Sound.access (hc : c.Sound) (a : Access κ ν) : (c.access a).Sound := by
  have hcapacity := capacity_access c a
  have hroom : 0 < (c.access a).capacity := by
    rw [hcapacity]
    exact hc.room
  refine ⟨?_, hroom, ?_⟩
  · obtain ⟨n, fresh, hkeys, hfresh⟩ := keys_access c a
    have hdrop : (c.keys.drop n).Nodup := hc.nodup.sublist (List.drop_sublist n c.keys)
    rw [hkeys]
    rcases hfresh with rfl | ⟨k, rfl, hk⟩
    · rw [List.append_nil]
      exact hdrop
    · apply List.nodup_append.mpr
      refine ⟨hdrop, List.nodup_singleton k, ?_⟩
      intro x hx y hy
      rw [List.mem_singleton.mp hy]
      rintro rfl
      exact hk (List.mem_of_mem_drop hx)
  · rw [hcapacity, ← length_keys]
    have hsize := hc.size_le
    have hpos := hc.room
    cases a with
    | get k =>
      rw [Cache.access, keys_get, length_keys]
      exact hsize
    | insert k v =>
      by_cases h : k ∈ c.keys
      · rw [Cache.access, keys_insert_of_mem h, length_keys]
        exact hsize
      · -- Before a new key is put in, the oldest go until there is room for one more.
        rw [Cache.access, keys_insert_of_not_mem h, List.length_append, List.length_drop,
          length_keys, List.length_singleton, excess]
        omega
    | clear => exact Nat.zero_le _

theorem Sound.foldl (hc : c.Sound) (history : List (Access κ ν)) :
    (history.foldl Cache.access c).Sound ∧
      (history.foldl Cache.access c).capacity = c.capacity := by
  induction history generalizing c with
  | nil => exact ⟨hc, rfl⟩
  | cons a history ih =>
    obtain ⟨hsound, hcapacity⟩ := ih (hc.access a)
    exact ⟨hsound, hcapacity.trans (capacity_access c a)⟩

theorem sound_after (capacity : Nat) (history : List (Access κ ν)) :
    (after capacity history).Sound := ((sound_ofCapacity capacity).foldl history).1

theorem capacity_after (capacity : Nat) (history : List (Access κ ν)) :
    (after capacity history).capacity = max capacity 1 :=
  ((sound_ofCapacity capacity).foldl history).2

/-- Entries that an insertion does not evict keep their values. -/
theorem Sound.find?_insert (hc : c.Sound) {k : κ} (hne : k ≠ key)
    (hk : k ∈ (c.insert key value).keys) : (c.insert key value).find? k = c.find? k := by
  by_cases h : key ∈ c.keys
  · rw [find?_insert_of_mem h, if_neg hne]
  · have hsound : (c.insert key value).Sound := hc.access (.insert key value)
    obtain ⟨v, hv⟩ := Option.isSome_iff_exists.mp (isSome_find?_iff.mpr hk)
    have hmem : (k, v) ∈ (c.insert key value).entries :=
      (lookup_eq_some_iff_mem hsound.nodup).mp hv
    have hold : (k, v) ∈ c.entries := by
      rw [insert_of_not_mem h] at hmem
      rcases List.mem_append.mp hmem with hmem | hmem
      · exact List.mem_of_mem_drop hmem
      · exact absurd (Prod.mk.inj (List.mem_singleton.mp hmem)).1 hne
    rw [hv]
    exact ((lookup_eq_some_iff_mem hc.nodup).mpr hold).symm

theorem find?_insert_self (c : Cache κ ν) (key : κ) (value : ν) :
    (c.insert key value).find? key = some value := by
  by_cases h : key ∈ c.keys
  · rw [find?_insert_of_mem h, if_pos rfl]
  · rw [insert_of_not_mem h]
    simp [find?, List.lookup_append, lookup_drop_eq_none h]

theorem lastInserted_concat (key : κ) (history : List (Access κ ν)) (a : Access κ ν) :
    lastInserted key (history ++ [a]) = (a.inserted? key).or (lastInserted key history) := by
  simp only [lastInserted, List.reverse_append, List.reverse_singleton, List.singleton_append,
    List.findSome?_cons]
  cases a.inserted? key <;> rfl

/-- A present key has the value that was put in last. -/
theorem find?_after (capacity : Nat) (history : List (Access κ ν))
    (h : key ∈ (after capacity history).keys) :
    (after capacity history).find? key = lastInserted key history := by
  induction history using List.reverseRecOn with
  | nil => exact absurd h List.not_mem_nil
  | append_singleton history a ih =>
    rw [after_concat] at h ⊢
    rw [lastInserted_concat]
    cases a with
    | get k =>
      rw [access, keys_get] at h
      rw [access, find?, entries_get]
      exact ih h
    | insert k v =>
      by_cases hk : key = k
      · subst hk
        rw [access, find?_insert_self]
        simp [Access.inserted?]
      · -- Another key was present before already, and has kept its value.
        have hold : key ∈ (after capacity history).keys := by
          by_cases hpresent : k ∈ (after capacity history).keys
          · rwa [access, keys_insert_of_mem hpresent] at h
          · rw [access, keys_insert_of_not_mem hpresent] at h
            rcases List.mem_append.mp h with h | h
            · exact List.mem_of_mem_drop h
            · exact absurd (List.mem_singleton.mp h) hk
        rw [access, (sound_after capacity history).find?_insert hk h, ih hold]
        simp [Access.inserted?, Ne.symm hk]
    | clear => exact absurd h List.not_mem_nil

/-- The key became present with the access of this number and has been present ever since. -/
def PresentSince (capacity : Nat) (history : List (Access κ ν)) (key : κ) (i : Nat) : Prop :=
  i < history.length ∧ key ∉ (after capacity (history.take i)).keys ∧
    ∀ j, i < j → j ≤ history.length → key ∈ (after capacity (history.take j)).keys

/-- The key became present before all others that are present. -/
def Oldest (capacity : Nat) (history : List (Access κ ν)) (key : κ) : Prop :=
  ∃ i, PresentSince capacity history key i ∧
    ∀ other j, PresentSince capacity history other j → other ≠ key → i < j

variable {capacity : Nat} {history : List (Access κ ν)}

theorem PresentSince.mem {i : Nat} (h : PresentSince capacity history key i) :
    key ∈ (after capacity history).keys := by
  have hmem := h.2.2 history.length h.1 (Nat.le_refl _)
  rwa [List.take_length] at hmem

/-- A key has been present since one access only. -/
theorem PresentSince.unique {i j : Nat} (hi : PresentSince capacity history key i)
    (hj : PresentSince capacity history key j) : i = j := by
  rcases Nat.lt_trichotomy i j with hlt | heq | hgt
  · exact absurd (hi.2.2 j hlt hj.1.le) hj.2.1
  · exact heq
  · exact absurd (hj.2.2 i hgt hi.1.le) hi.2.1

/-- A key that outlasts an access has been present since the same access as before. -/
theorem PresentSince.concat {i : Nat} (h : PresentSince capacity history key i) {a : Access κ ν}
    (hkey : key ∈ (after capacity (history ++ [a])).keys) :
    PresentSince capacity (history ++ [a]) key i := by
  refine ⟨by rw [List.length_append]; exact Nat.lt_add_right _ h.1, ?_, ?_⟩
  · rw [List.take_append_of_le_length h.1.le]
    exact h.2.1
  · intro j hij hj
    rcases Nat.lt_or_ge history.length j with hlt | hle
    · have hlen : j = (history ++ [a]).length := by
        rw [List.length_append, List.length_singleton] at hj ⊢
        omega
      rw [hlen, List.take_length]
      exact hkey
    · rw [List.take_append_of_le_length hle]
      exact h.2.2 j hij hle

theorem presentSince_concat_of_not_mem {a : Access κ ν}
    (hold : key ∉ (after capacity history).keys)
    (hkey : key ∈ (after capacity (history ++ [a])).keys) :
    PresentSince capacity (history ++ [a]) key history.length := by
  refine ⟨by simp, ?_, ?_⟩
  · rw [List.take_left]
    exact hold
  · intro j hlt hj
    have hlen : j = (history ++ [a]).length := by
      rw [List.length_append, List.length_singleton] at hj ⊢
      omega
    rw [hlen, List.take_length]
    exact hkey

/-- The keys stand in the order in which they became present. -/
theorem exists_times (capacity : Nat) (history : List (Access κ ν)) :
    ∃ times : List Nat, times.Pairwise (· < ·) ∧
      List.Forall₂ (PresentSince capacity history) (after capacity history).keys times := by
  induction history using List.reverseRecOn with
  | nil => exact ⟨[], .nil, .nil⟩
  | append_singleton history a ih =>
    obtain ⟨times, hsorted, htimes⟩ := ih
    obtain ⟨n, fresh, hkeys, hfresh⟩ := keys_access (after capacity history) a
    rw [← after_concat] at hkeys
    -- What is left of the old keys keeps its times.
    have hkept : List.Forall₂ (PresentSince capacity (history ++ [a]))
        ((after capacity history).keys.drop n) (times.drop n) := by
      refine forall₂_imp_of_mem (List.forall₂_drop n htimes) ?_
      intro k hk i hi
      apply hi.concat
      rw [hkeys]
      exact List.mem_append_left _ hk
    have hdrop : (times.drop n).Pairwise (· < ·) := hsorted.sublist (List.drop_sublist n times)
    rcases hfresh with rfl | ⟨k, rfl, hk⟩
    · refine ⟨times.drop n, hdrop, ?_⟩
      rw [hkeys, List.append_nil]
      exact hkept
    · -- A new key gets the time of this access, which is later than all others.
      refine ⟨times.drop n ++ [history.length], ?_, ?_⟩
      · apply List.pairwise_append.mpr
        refine ⟨hdrop, List.pairwise_singleton _ _, ?_⟩
        intro i hi j hj
        rw [List.mem_singleton.mp hj]
        exact forall_mem_of_forall₂ htimes (fun _ _ _ h => h.1) i (List.mem_of_mem_drop hi)
      · rw [hkeys]
        refine List.rel_append hkept (.cons ?_ .nil)
        apply presentSince_concat_of_not_mem hk
        rw [hkeys]
        exact List.mem_append_right _ (List.mem_singleton_self k)

theorem mem_keys_iff_presentSince :
    key ∈ (after capacity history).keys ↔ ∃ i, PresentSince capacity history key i := by
  constructor
  · intro h
    obtain ⟨times, -, htimes⟩ := exists_times capacity history
    obtain ⟨i, -, hi⟩ := exists_mem_of_forall₂ htimes h
    exact ⟨i, hi⟩
  · rintro ⟨i, hi⟩
    exact hi.mem

/-- The key at the front is the oldest. -/
theorem oldest_of_keys_eq {rest : List κ} (h : (after capacity history).keys = key :: rest) :
    Oldest capacity history key := by
  obtain ⟨times, hsorted, htimes⟩ := exists_times capacity history
  rw [h] at htimes
  obtain ⟨i, later, hi, hlater, rfl⟩ := List.forall₂_cons_left_iff.mp htimes
  refine ⟨i, hi, ?_⟩
  intro other j hj hne
  have hother : other ∈ key :: rest := h ▸ hj.mem
  rcases List.mem_cons.mp hother with heq | hother
  · exact absurd heq hne
  · -- Its own time is one of the later ones.
    obtain ⟨j', hj', hsince⟩ := exists_mem_of_forall₂ hlater hother
    rw [hj.unique hsince]
    exact (List.pairwise_cons.mp hsorted).1 j' hj'

/-- How many entries an access drops without making room. -/
def clearedBy (c : Cache κ ν) : Access κ ν → Nat
  | .clear => c.size
  | _ => 0

/-- One for an insertion of an absent key. -/
def addedBy (c : Cache κ ν) : Access κ ν → Nat
  | .insert key _ => if key ∈ c.keys then 0 else 1
  | _ => 0

/-- The sum of what the accesses of a history count for, each in the cache that it meets. -/
def total (count : Cache κ ν → Access κ ν → Nat) : Cache κ ν → List (Access κ ν) → Nat
  | _, [] => 0
  | c, a :: history => count c a + total count (c.access a) history

/-- Every look-up is a hit or a miss. -/
theorem lookups_access (c : Cache κ ν) (a : Access κ ν) :
    (c.access a).stats.hits + (c.access a).stats.misses =
      c.stats.hits + c.stats.misses + if a.isGet then 1 else 0 := by
  cases a with
  | get k =>
    cases hfind : c.find? k with
    | some v =>
      simp only [access, get, hfind, Access.isGet, ↓reduceIte]
      omega
    | none =>
      simp only [access, get, hfind, Access.isGet, ↓reduceIte]
      omega
  | insert k v =>
    by_cases h : k ∈ c.keys
    · simp only [access, stats_insert_of_mem h, Access.isGet, Bool.false_eq_true, ↓reduceIte,
        Nat.add_zero]
    · simp only [access, insert_of_not_mem h, Access.isGet, Bool.false_eq_true, ↓reduceIte,
        Nat.add_zero]
  | clear => rfl

theorem lookups_after (capacity : Nat) (history : List (Access κ ν)) :
    (after capacity history).stats.hits + (after capacity history).stats.misses =
      history.countP Access.isGet := by
  induction history using List.reverseRecOn with
  | nil => rfl
  | append_singleton history a ih =>
    rw [after_concat, lookups_access, ih, List.countP_append, List.countP_singleton]

/-- An entry that was added is there, or has been evicted, or has been dropped by clearing. -/
theorem entries_access (hroom : 0 < c.capacity) (a : Access κ ν) :
    (c.access a).stats.evictions + (c.access a).size + c.clearedBy a =
      c.stats.evictions + c.size + c.addedBy a := by
  rw [← length_keys, ← length_keys c]
  cases a with
  | get k =>
    have hstats : (c.access (.get k)).stats.evictions = c.stats.evictions := evictions_get c k
    rw [hstats, access, keys_get]
    rfl
  | insert k v =>
    by_cases h : k ∈ c.keys
    · rw [access, stats_insert_of_mem h, keys_insert_of_mem h, addedBy, if_pos h]
      rfl
    · rw [access, keys_insert_of_not_mem h, insert_of_not_mem h, addedBy, if_neg h,
        List.length_append, List.length_drop, length_keys, List.length_singleton]
      dsimp only [clearedBy]
      -- No more entries have to go than there are, since there is room for one.
      have hexcess : c.excess ≤ c.size := by
        unfold excess
        omega
      omega
  | clear =>
    rw [length_keys c]
    rfl

theorem entries_foldl (hroom : 0 < c.capacity) (history : List (Access κ ν)) :
    (history.foldl access c).stats.evictions + (history.foldl access c).size +
        total clearedBy c history =
      c.stats.evictions + c.size + total addedBy c history := by
  induction history generalizing c with
  | nil => rfl
  | cons a history ih =>
    have hstep := entries_access hroom a
    have hrest := ih (c := c.access a) (by rw [capacity_access]; exact hroom)
    rw [List.foldl_cons, total, total]
    omega

theorem entries_after (capacity : Nat) (history : List (Access κ ν)) :
    (after capacity history).stats.evictions + (after capacity history).size +
        total clearedBy (ofCapacity capacity) history =
      total addedBy (ofCapacity capacity) history := by
  have h := entries_foldl (sound_ofCapacity (κ := κ) (ν := ν) capacity).room history
  have hempty : (ofCapacity capacity : Cache κ ν).size = 0 := rfl
  have hstats : (ofCapacity capacity : Cache κ ν).stats.evictions = 0 := rfl
  rw [hempty, hstats] at h
  unfold after
  omega

end QueryLowering.Cache
