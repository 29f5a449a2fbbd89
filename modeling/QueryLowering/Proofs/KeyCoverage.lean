import Mathlib
import QueryLowering.Proofs.ValidModel
import QueryLowering.Sample

/-!
Foreign keys and the keys that they refer to. Validation counts the columns of a foreign key and
looks each of them up in the key of the principal entity, so a foreign key that names one key
property twice passes, and another property is then left without a column. A validated foreign key
covers the whole key exactly if it names as many different properties as the key has.
-/

namespace QueryLowering.Model

variable {m : Model} {e f dependent principal : Entity} {n : Navigation}
  {entities sorted : List Entity}

theorem mem_insertEntity : e ∈ insertEntity f sorted ↔ e = f ∨ e ∈ sorted := by
  induction sorted with
  | nil => simp [insertEntity]
  | cons g sorted ih =>
    rw [insertEntity]
    split
    · exact List.mem_cons
    · rw [List.mem_cons, ih, List.mem_cons]
      exact or_left_comm

theorem mem_of_collect {collected : List Entity} (h : collect sorted entities = .ok collected) :
    e ∈ collected ↔ e ∈ sorted ∨ e ∈ entities := by
  induction entities generalizing sorted with
  | nil =>
    cases h
    simp
  | cons f entities ih =>
    rw [collect] at h
    split at h
    · cases h
    · rw [ih h, mem_insertEntity, List.mem_cons]
      tauto

/-- A model has the entities that it was built from. -/
theorem mem_entities_iff (h : ofEntities entities = .ok m) : e ∈ m.entities ↔ e ∈ entities := by
  obtain ⟨collected, hcollected, h⟩ := bind_eq_ok.mp h
  obtain ⟨⟨⟩, -, h⟩ := bind_eq_ok.mp h
  cases h
  simpa using mem_of_collect hcollected

/-- The side of a navigation whose key the foreign key refers to. -/
def principalSide (n : Navigation) (declaring target : Entity) : Entity :=
  if n.foreignKeyOnSource then target else declaring

/-- The key properties that a foreign key names. -/
def namedKeys (n : Navigation) : List String := n.foreignKey.map ForeignKeyColumn.principal

/-- Every key property of the entity is named by a column of the foreign key. -/
def CoversKey (n : Navigation) (principal : Entity) : Prop :=
  ∀ k ∈ principal.key, ∃ c ∈ n.foreignKey, c.principal = k

theorem coversKey_iff_subset : CoversKey n principal ↔ principal.key ⊆ namedKeys n := by
  unfold CoversKey namedKeys
  simp only [List.subset_def, List.mem_map]

section Fits

variable (hfits : ForeignKeyFits dependent principal n.foreignKey)
include hfits

theorem ForeignKeyFits.namedKeys_subset : namedKeys n ⊆ principal.key := by
  intro k hk
  obtain ⟨c, hc, rfl⟩ := List.mem_map.mp hk
  exact hfits.principal c hc

theorem ForeignKeyFits.length_namedKeys : (namedKeys n).length = principal.key.length := by
  rw [namedKeys, List.length_map, hfits.length]

/-- All that a foreign key names belongs to the key, so it is enough to count. -/
theorem ForeignKeyFits.coversKey_iff_card :
    CoversKey n principal ↔ (namedKeys n).toFinset.card = principal.key.toFinset.card := by
  have hsub : (namedKeys n).toFinset ⊆ principal.key.toFinset := by
    intro k hk
    rw [List.mem_toFinset] at hk ⊢
    exact hfits.namedKeys_subset hk
  rw [coversKey_iff_subset]
  constructor
  · intro hcovers
    have hback : principal.key.toFinset ⊆ (namedKeys n).toFinset := by
      intro k hk
      rw [List.mem_toFinset] at hk ⊢
      exact hcovers hk
    rw [hsub.antisymm hback]
  · intro hcard k hk
    have heq := Finset.eq_of_subset_of_card_le hsub hcard.ge
    rw [← List.mem_toFinset, heq, List.mem_toFinset]
    exact hk

/-- A foreign key that names no property twice leaves out none. -/
theorem ForeignKeyFits.coversKey_of_nodup (hnodup : (namedKeys n).Nodup) :
    CoversKey n principal := by
  have hsub := hnodup.subperm hfits.namedKeys_subset
  have hperm := hsub.perm_of_length_le hfits.length_namedKeys.ge
  exact coversKey_iff_subset.mpr hperm.symm.subset

/-- In a key without repetitions, every property that is named twice leaves another one out. -/
theorem ForeignKeyFits.nodup_of_coversKey (hkey : principal.key.Nodup)
    (hcovers : CoversKey n principal) : (namedKeys n).Nodup := by
  have hsub := hkey.subperm (coversKey_iff_subset.mp hcovers)
  have hperm := hsub.perm_of_length_le hfits.length_namedKeys.le
  exact hperm.nodup_iff.mp hkey

end Fits

/-- In a validated model, a foreign key covers the key of the principal entity exactly if it names
as many different properties as the key has. It does so if it names none twice, and if the key has
no repetitions, only then. -/
theorem coversKey_iff_of_ofEntities (h : ofEntities entities = .ok m) (he : e ∈ entities)
    (hn : n ∈ e.navigations) :
    ∃ target ∈ entities, m.entity? n.target = some target ∧
      (CoversKey n (principalSide n e target) ↔
        (namedKeys n).toFinset.card = (principalSide n e target).key.toFinset.card) ∧
      ((namedKeys n).Nodup → CoversKey n (principalSide n e target)) ∧
      ((principalSide n e target).key.Nodup → CoversKey n (principalSide n e target) →
        (namedKeys n).Nodup) := by
  have hvalid := validEntity_of_ofEntities h e ((mem_entities_iff h).mpr he)
  obtain ⟨target, htarget, hfits⟩ := hvalid.navigations n hn
  have hmem : target ∈ entities := (mem_entities_iff h).mp (List.mem_of_find?_eq_some htarget)
  exact ⟨target, hmem, htarget, hfits.coversKey_iff_card, hfits.coversKey_of_nodup,
    hfits.nodup_of_coversKey⟩

/-- Order lines by themselves. -/
def bareLine : Entity := { Sample.orderLine with navigations := [] }

/-- The way from a shipment to its line, through the given columns. -/
def lineBy (columns : List ForeignKeyColumn) : Navigation :=
  ⟨"Line", "OrderLine", .one, false, columns, true⟩

def shipmentBy (columns : List ForeignKeyColumn) : Entity :=
  { Sample.shipment with navigations := [lineBy columns] }

/-- The columns of a shipment that name the two key properties of its line. -/
def byLine : List ForeignKeyColumn := [⟨"LineNo", "LineNo"⟩, ⟨"OrderId", "OrderId"⟩]

theorem coversKey_byLine :
    ofEntities [shipmentBy byLine, bareLine] = .ok ⟨[bareLine, shipmentBy byLine]⟩ ∧
      lineBy byLine ∈ (shipmentBy byLine).navigations ∧ CoversKey (lineBy byLine) bareLine := by
  have hmodel : ofEntities [shipmentBy byLine, bareLine] =
      .ok ⟨[bareLine, shipmentBy byLine]⟩ := by cbv
  have hline : lineBy byLine ∈ (shipmentBy byLine).navigations := List.mem_cons_self
  refine ⟨hmodel, hline, ?_⟩
  obtain ⟨target, -, htarget, -, hcovers, -⟩ :=
    coversKey_iff_of_ofEntities hmodel List.mem_cons_self hline
  have hfound : Model.entity? ⟨[bareLine, shipmentBy byLine]⟩ "OrderLine" = some bareLine := by
    decide
  obtain rfl : target = bareLine := Option.some.inj (htarget.symm.trans hfound)
  exact hcovers (by decide)

/-- The columns of a shipment that name the order of its line twice. -/
def byOrderTwice : List ForeignKeyColumn := [⟨"OrderId", "OrderId"⟩, ⟨"LineNo", "OrderId"⟩]

/-- A foreign key that names one key property twice passes validation, and no column refers to the
other. -/
theorem not_coversKey_byOrderTwice :
    ofEntities [shipmentBy byOrderTwice, bareLine] =
        .ok ⟨[bareLine, shipmentBy byOrderTwice]⟩ ∧
      lineBy byOrderTwice ∈ (shipmentBy byOrderTwice).navigations ∧
      principalSide (lineBy byOrderTwice) (shipmentBy byOrderTwice) bareLine = bareLine ∧
      "LineNo" ∈ bareLine.key ∧ (∀ c ∈ byOrderTwice, c.principal ≠ "LineNo") ∧
      ¬ CoversKey (lineBy byOrderTwice) bareLine := by
  have hkey : "LineNo" ∈ bareLine.key := by decide
  have hmissing : ∀ c ∈ byOrderTwice, c.principal ≠ "LineNo" := by decide
  refine ⟨by cbv, List.mem_cons_self, rfl, hkey, hmissing, ?_⟩
  intro hcovers
  obtain ⟨c, hc, hname⟩ := hcovers "LineNo" hkey
  exact hmissing c hc hname

end QueryLowering.Model
