import QueryLowering.Pass.Navigation
import QueryLowering.Proofs.Steps

/-!
What validation of a model establishes: every entity has a key of properties, and every navigation
leads to an entity of the model along a foreign key whose columns exist on both sides.
-/

namespace QueryLowering

/-- A check of every member of a list succeeds exactly if it does so for each of them. -/
theorem forM_eq_ok {α : Type} {f : α → Except Failure Unit} {xs : List α} :
    xs.forM f = .ok () ↔ ∀ x ∈ xs, f x = .ok () := by
  induction xs with
  | nil => exact ⟨fun _ => List.forall_mem_nil _, fun _ => rfl⟩
  | cons x xs ih =>
    rw [List.forall_mem_cons, ← ih]
    change (f x >>= fun _ => xs.forM f) = .ok () ↔ _
    rw [bind_eq_ok]
    constructor
    · rintro ⟨⟨⟩, hx, hxs⟩
      exact ⟨hx, hxs⟩
    · rintro ⟨hx, hxs⟩
      exact ⟨(), hx, hxs⟩

/-- A guard lets a check go on exactly if its condition does not hold. -/
theorem guard_eq_ok {α β : Type} {c : Prop} [Decidable c] {e : Failure} {f : α → Except Failure β}
    {x : Except Failure β} {b : β} :
    (if c then throw e >>= f else x) = .ok b ↔ ¬ c ∧ x = .ok b := by
  by_cases hc : c
  · rw [if_pos hc]
    constructor
    · intro h
      cases h
    · exact fun h => absurd hc h.1
  · rw [if_neg hc]
    exact ⟨fun h => ⟨hc, h⟩, fun h => h.2⟩

namespace Model

variable {m : Model} {e dependent principal target : Entity} {n : Navigation}

/-- The foreign key covers the key of the principal entity, by properties of the dependent one. -/
structure ForeignKeyFits (dependent principal : Entity) (columns : List ForeignKeyColumn) : Prop where
  length : columns.length = principal.key.length
  dependent : ∀ c ∈ columns, (dependent.property? c.dependent).isSome = true
  principal : ∀ c ∈ columns, c.principal ∈ principal.key

/-- What the checks of an entity establish. -/
structure ValidEntity (m : Model) (e : Entity) : Prop where
  key : e.key ≠ []
  keyProperties : ∀ k ∈ e.key, (e.property? k).isSome = true
  navigations : ∀ n ∈ e.navigations, ∃ target, m.entity? n.target = some target ∧
    ForeignKeyFits (if n.foreignKeyOnSource then e else target)
      (if n.foreignKeyOnSource then target else e) n.foreignKey

theorem checkColumn_eq_ok {c : ForeignKeyColumn} (h : checkColumn dependent principal c = .ok ()) :
    (dependent.property? c.dependent).isSome = true ∧ c.principal ∈ principal.key := by
  unfold checkColumn at h
  cases hdependent : dependent.property? c.dependent with
  | none =>
    rw [hdependent] at h
    cases h
  | some p =>
    cases hprincipal : principal.key.contains c.principal with
    | false =>
      rw [hdependent, hprincipal] at h
      cases h
    | true => exact ⟨rfl, List.contains_iff_mem.mp hprincipal⟩

theorem foreignKeyFits_of_checks {columns : List ForeignKeyColumn}
    (h : ¬ columns.length ≠ principal.key.length ∧
      columns.forM (checkColumn dependent principal) = .ok ()) :
    ForeignKeyFits dependent principal columns :=
  ⟨not_ne_iff.mp h.1, fun c hc => (checkColumn_eq_ok (forM_eq_ok.mp h.2 c hc)).1,
    fun c hc => (checkColumn_eq_ok (forM_eq_ok.mp h.2 c hc)).2⟩

theorem checkNavigation_eq_ok (h : m.checkNavigation e n = .ok ()) :
    ∃ target, m.entity? n.target = some target ∧
      ForeignKeyFits (if n.foreignKeyOnSource then e else target)
        (if n.foreignKeyOnSource then target else e) n.foreignKey := by
  unfold checkNavigation at h
  split at h
  · rename_i target htarget
    obtain ⟨-, h⟩ := guard_eq_ok.mp h
    refine ⟨target, htarget, ?_⟩
    -- The side that holds the key is the dependent one.
    cases hside : n.foreignKeyOnSource with
    | true =>
      rw [hside] at h
      exact foreignKeyFits_of_checks (guard_eq_ok.mp h)
    | false =>
      rw [hside] at h
      exact foreignKeyFits_of_checks (guard_eq_ok.mp h)
  · cases h

theorem validEntity_of_checkEntity (h : m.checkEntity e = .ok ()) : ValidEntity m e := by
  obtain ⟨⟨⟩, hkey, hnavigations⟩ := bind_eq_ok.mp h
  obtain ⟨hnonempty, hproperties⟩ := guard_eq_ok.mp hkey
  refine ⟨fun hnil => ?_, fun k hk => ?_,
    fun n hn => checkNavigation_eq_ok (forM_eq_ok.mp hnavigations n hn)⟩
  · rw [hnil] at hnonempty
    exact hnonempty rfl
  · have hk := forM_eq_ok.mp hproperties k hk
    by_contra hnone
    rw [if_neg hnone] at hk
    cases hk

/-- All entities of a validated model are valid. -/
theorem validEntity_of_ofEntities {entities : List Entity} (h : ofEntities entities = .ok m) :
    ∀ e ∈ m.entities, ValidEntity m e := by
  obtain ⟨sorted, -, h⟩ := bind_eq_ok.mp h
  obtain ⟨⟨⟩, hchecks, h⟩ := bind_eq_ok.mp h
  cases h
  intro e he
  exact validEntity_of_checkEntity (mapError_eq_ok.mp (forM_eq_ok.mp hchecks e he))

theorem name_of_entity? {name : String} (h : m.entity? name = some e) : e.name = name := by
  simpa using List.find?_some h

/-- An entity is found under its own name. -/
theorem entity?_name {name : String} (h : m.entity? name = some e) : m.entity? e.name = some e := by
  rw [name_of_entity? h]
  exact h

/-- The columns of a join along a navigation of a valid entity exist on both sides, and there is at
least one of them. -/
theorem columns_of_valid (hm : ∀ e ∈ m.entities, ValidEntity m e) (he : e ∈ m.entities)
    (hn : n ∈ e.navigations) :
    ∃ target, m.entity? n.target = some target ∧ n.foreignKey ≠ [] ∧
      (∀ c ∈ Pass.Navigation.sourceColumns n, (e.property? c.2).isSome = true) ∧
      ∀ c ∈ Pass.Navigation.targetColumns n, (target.property? c.2).isSome = true := by
  obtain ⟨target, htarget, hfits⟩ := (hm e he).navigations n hn
  have hkey : ∀ principal ∈ m.entities, ForeignKeyFits (if n.foreignKeyOnSource then e else target)
      principal n.foreignKey →
        n.foreignKey ≠ [] ∧ ∀ c ∈ n.foreignKey, (principal.property? c.principal).isSome = true := by
    intro principal hprincipal hfits
    refine ⟨fun hnil => ?_, fun c hc => ?_⟩
    · apply (hm principal hprincipal).key
      rw [← List.length_eq_zero_iff, ← hfits.length, hnil, List.length_nil]
    · exact (hm principal hprincipal).keyProperties _ (hfits.principal c hc)
  have hmem : target ∈ m.entities := List.mem_of_find?_eq_some htarget
  refine ⟨target, htarget, ?_⟩
  unfold Pass.Navigation.sourceColumns Pass.Navigation.targetColumns
  cases hside : n.foreignKeyOnSource with
  | true =>
    simp only [hside, if_true] at hfits hkey
    obtain ⟨hnonempty, hprincipal⟩ := hkey target hmem hfits
    exact ⟨hnonempty, List.forall_mem_map.mpr hfits.dependent, List.forall_mem_map.mpr hprincipal⟩
  | false =>
    simp only [hside, Bool.false_eq_true, if_false] at hfits hkey
    obtain ⟨hnonempty, hprincipal⟩ := hkey e he hfits
    exact ⟨hnonempty, List.forall_mem_map.mpr hprincipal, List.forall_mem_map.mpr hfits.dependent⟩

end Model

end QueryLowering
