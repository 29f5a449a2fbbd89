import QueryLowering.Expr.Basic

/-!
Laws of children. Putting children into a node and reading them off again are inverse to each other
for lists of the right length, and a node keeps its kind.
-/

namespace QueryLowering.Expr

theorem zipWith_snd {α : Type} (ms : List (String × α)) (cs : List α) (h : cs.length = ms.length) :
    (List.zipWith (fun m c => (m.1, c)) ms cs).map (·.2) = cs := by
  induction ms generalizing cs with
  | nil => simp_all
  | cons m ms ih =>
    cases cs with
    | nil => simp at h
    | cons c cs => simp [ih cs (by simpa using h)]

theorem zipWith_self {α : Type} (ms : List (String × α)) :
    List.zipWith (fun m c => (m.1, c)) ms (ms.map (·.2)) = ms := by
  induction ms with
  | nil => rfl
  | cons m ms ih => simp [ih]

theorem exists_of_length_two {α : Type} {xs : List α} (h : xs.length = 2) :
    ∃ a b, xs = [a, b] := by
  obtain ⟨a, ys, rfl⟩ := List.exists_cons_of_length_eq_add_one h
  obtain ⟨b, rfl⟩ := List.length_eq_one_iff.1 (Nat.succ.inj h)
  exact ⟨a, b, rfl⟩

theorem exists_of_length_three {α : Type} {xs : List α} (h : xs.length = 3) :
    ∃ a b c, xs = [a, b, c] := by
  obtain ⟨a, ys, rfl⟩ := List.exists_cons_of_length_eq_add_one h
  obtain ⟨b, c, rfl⟩ := exists_of_length_two (Nat.succ.inj h)
  exact ⟨a, b, c, rfl⟩

theorem exists_of_length_four {α : Type} {xs : List α} (h : xs.length = 4) :
    ∃ a b c d, xs = [a, b, c, d] := by
  obtain ⟨a, ys, rfl⟩ := List.exists_cons_of_length_eq_add_one h
  obtain ⟨b, c, d, rfl⟩ := exists_of_length_three (Nat.succ.inj h)
  exact ⟨a, b, c, d, rfl⟩

theorem children_setChildren {e : Expr} {cs : List Expr} (h : cs.length = e.children.length) :
    (e.setChildren cs).children = cs := by
  cases e with
  | const | param | baseTable | sourceRef =>
    simp only [children, List.length_nil, List.length_eq_zero_iff] at h
    subst h; rfl
  | call m receiver args type =>
    cases receiver with
    | none => simp [setChildren, children]
    | some r =>
      cases cs with
      | nil => simp [children] at h
      | cons c cs => simp [setChildren, children]
  | member | lambda | quote | unary | derivedTable =>
    obtain ⟨c, rfl⟩ := List.length_eq_one_iff.1 h
    rfl
  | invoke callee args type =>
    cases cs with
    | nil => simp [children] at h
    | cons c cs => simp [setChildren, children]
  | binary =>
    obtain ⟨l, r, rfl⟩ := exists_of_length_two h
    rfl
  | cond =>
    obtain ⟨t, a, b, rfl⟩ := exists_of_length_three h
    rfl
  | object members =>
    exact zipWith_snd members cs (by simpa [children] using h)
  | functionCall | tableFunction => rfl
  | navigationJoin =>
    obtain ⟨o, i, ok, ik, rfl⟩ := exists_of_length_four h
    rfl
  | pivotTable row s k a selector =>
    cases selector with
    | none =>
      obtain ⟨s', k', a', rfl⟩ := exists_of_length_three h
      rfl
    | some r =>
      obtain ⟨s', k', a', r', rfl⟩ := exists_of_length_four h
      rfl

theorem setChildren_children (e : Expr) : e.setChildren e.children = e := by
  cases e with
  | call m receiver args type => cases receiver <;> simp [setChildren, children]
  | object members => exact congrArg object (zipWith_self members)
  | pivotTable row s k a selector => cases selector <;> rfl
  | _ => rfl

/-- A node stays as it is when each of its children is put in for itself. -/
theorem setChildren_map_eq_self {e : Expr} {f : Expr → Expr} (h : ∀ c ∈ e.children, f c = c) :
    e.setChildren (e.children.map f) = e := by
  have hmap : e.children.map f = e.children.map id := List.map_congr_left h
  rw [hmap, List.map_id, setChildren_children]

/-- Children that are put in twice are those that were put in last. -/
theorem setChildren_setChildren {e : Expr} {cs ds : List Expr}
    (hcs : cs.length = e.children.length) (hds : ds.length = e.children.length) :
    (e.setChildren cs).setChildren ds = e.setChildren ds := by
  cases e with
  | const | param | baseTable | sourceRef | functionCall | tableFunction => rfl
  | call m receiver args type =>
    cases receiver with
    | none => rfl
    | some r =>
      cases cs with
      | nil => simp [children] at hcs
      | cons c cs =>
        cases ds with
        | nil => simp [children] at hds
        | cons d ds => rfl
  | member | lambda | quote | unary | derivedTable =>
    obtain ⟨c, rfl⟩ := List.length_eq_one_iff.1 hcs
    obtain ⟨d, rfl⟩ := List.length_eq_one_iff.1 hds
    rfl
  | invoke callee args type =>
    cases cs with
    | nil => simp [children] at hcs
    | cons c cs =>
      cases ds with
      | nil => simp [children] at hds
      | cons d ds => rfl
  | binary =>
    obtain ⟨l, r, rfl⟩ := exists_of_length_two hcs
    obtain ⟨l', r', rfl⟩ := exists_of_length_two hds
    rfl
  | cond =>
    obtain ⟨t, a, b, rfl⟩ := exists_of_length_three hcs
    obtain ⟨t', a', b', rfl⟩ := exists_of_length_three hds
    rfl
  | object members =>
    simp only [setChildren, object.injEq]
    simp only [children, List.length_map] at hcs hds
    refine List.ext_getElem (by simp [hcs]) fun i _ _ => ?_
    simp
  | navigationJoin =>
    obtain ⟨o, i, ok, ik, rfl⟩ := exists_of_length_four hcs
    obtain ⟨o', i', ok', ik', rfl⟩ := exists_of_length_four hds
    rfl
  | pivotTable row s k a selector =>
    cases selector with
    | none =>
      obtain ⟨s, k, a, rfl⟩ := exists_of_length_three hcs
      obtain ⟨s', k', a', rfl⟩ := exists_of_length_three hds
      rfl
    | some r =>
      obtain ⟨s, k, a, r, rfl⟩ := exists_of_length_four hcs
      obtain ⟨s', k', a', r', rfl⟩ := exists_of_length_four hds
      rfl

theorem kindName_setChildren (e : Expr) (cs : List Expr) :
    (e.setChildren cs).kindName = e.kindName := by
  unfold setChildren
  split <;> rfl

end QueryLowering.Expr
