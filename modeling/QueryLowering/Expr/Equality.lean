import QueryLowering.Expr.Basic

/-!
Structural equality of expressions is decidable. Bodies of delegates count.
-/

namespace QueryLowering.Expr

mutual

/-- Structural equality test. -/
def same : Expr → Expr → Bool
  | const v t, const w u => sameConstant v w && t == u
  | param p, param q => p == q
  | call m r xs t, call n s ys u => m == n && sameOption r s && sameList xs ys && t == u
  | member x n t, member y m u => same x y && n == m && t == u
  | lambda ps x, lambda qs y => ps == qs && same x y
  | quote x, quote y => same x y
  | invoke x xs t, invoke y ys u => same x y && sameList xs ys && t == u
  | unary o x, unary p y => o == p && same x y
  | binary o x y, binary p z w => o == p && same x z && same y w
  | cond x y z t, cond x' y' z' u => same x x' && same y y' && same z z' && t == u
  | object xs, object ys => sameMembers xs ys
  | baseTable a s n e, baseTable b t m f => a == b && s == t && n == m && e == f
  | derivedTable a x, derivedTable b y => a == b && same x y
  | functionCall f xs, functionCall g ys => f == g && sameList xs ys
  | tableFunction a f xs, tableFunction b g ys => a == b && f == g && sameList xs ys
  | navigationJoin l x y z w, navigationJoin l' x' y' z' w' =>
    l == l' && same x x' && same y y' && same z z' && same w w'
  | pivotTable a x y z s, pivotTable b x' y' z' s' =>
    a == b && same x x' && same y y' && same z z' && sameOption s s'
  | sourceRef a e, sourceRef b f => a == b && e == f
  | _, _ => false
termination_by structural x => x

def sameOption : Option Expr → Option Expr → Bool
  | none, none => true
  | some x, some y => same x y
  | _, _ => false
termination_by structural x => x

def sameList : List Expr → List Expr → Bool
  | [], [] => true
  | x :: xs, y :: ys => same x y && sameList xs ys
  | _, _ => false
termination_by structural x => x

def sameMembers : List (String × Expr) → List (String × Expr) → Bool
  | [], [] => true
  | (n, x) :: xs, (m, y) :: ys => n == m && same x y && sameMembers xs ys
  | _, _ => false
termination_by structural x => x

def sameConstant : Constant Expr → Constant Expr → Bool
  | .scalar v, .scalar w => v == w
  | .list vs, .list ws => vs == ws
  | .entitySet e, .entitySet f => e == f
  | .delegate n b, .delegate m c => n == m && sameOption b c
  | _, _ => false
termination_by structural x => x

end

mutual

theorem same_refl : ∀ x : Expr, same x x = true
  | const v _ => by simp [same, sameConstant_refl v]
  | param _ => by simp [same]
  | call _ r xs _ => by simp [same, sameOption_refl r, sameList_refl xs]
  | member x _ _ => by simp [same, same_refl x]
  | lambda _ x => by simp [same, same_refl x]
  | quote x => by simp [same, same_refl x]
  | invoke x xs _ => by simp [same, same_refl x, sameList_refl xs]
  | unary _ x => by simp [same, same_refl x]
  | binary _ x y => by simp [same, same_refl x, same_refl y]
  | cond x y z _ => by simp [same, same_refl x, same_refl y, same_refl z]
  | object xs => by simp [same, sameMembers_refl xs]
  | baseTable _ _ _ _ => by simp [same]
  | derivedTable _ x => by simp [same, same_refl x]
  | functionCall _ xs => by simp [same, sameList_refl xs]
  | tableFunction _ _ xs => by simp [same, sameList_refl xs]
  | navigationJoin _ x y z w => by simp [same, same_refl x, same_refl y, same_refl z, same_refl w]
  | pivotTable _ x y z s => by
    simp [same, same_refl x, same_refl y, same_refl z, sameOption_refl s]
  | sourceRef _ _ => by simp [same]

theorem sameOption_refl : ∀ x : Option Expr, sameOption x x = true
  | none => rfl
  | some x => by simp [sameOption, same_refl x]

theorem sameList_refl : ∀ xs : List Expr, sameList xs xs = true
  | [] => rfl
  | x :: xs => by simp [sameList, same_refl x, sameList_refl xs]

theorem sameMembers_refl : ∀ xs : List (String × Expr), sameMembers xs xs = true
  | [] => rfl
  | (_, x) :: xs => by simp [sameMembers, same_refl x, sameMembers_refl xs]

theorem sameConstant_refl : ∀ v : Constant Expr, sameConstant v v = true
  | .scalar _ => by simp [sameConstant]
  | .list _ => by simp [sameConstant]
  | .entitySet _ => by simp [sameConstant]
  | .delegate _ b => by simp [sameConstant, sameOption_refl b]

end

mutual

theorem eq_of_same : ∀ x y : Expr, same x y = true → x = y := by
  intro x y h
  unfold same at h
  split at h <;> try simp only [Bool.and_eq_true, beq_iff_eq, Bool.false_eq_true] at h
  case h_1 v t w u => rw [eq_of_sameConstant v w h.1, h.2]
  case h_2 => rw [h]
  case h_3 m r xs t n s ys u =>
    rw [h.1.1.1, eq_of_sameOption r s h.1.1.2, eq_of_sameList xs ys h.1.2, h.2]
  case h_4 x n t y m u => rw [eq_of_same x y h.1.1, h.1.2, h.2]
  case h_5 ps x qs y => rw [h.1, eq_of_same x y h.2]
  case h_6 x y => rw [eq_of_same x y h]
  case h_7 x xs t y ys u => rw [eq_of_same x y h.1.1, eq_of_sameList xs ys h.1.2, h.2]
  case h_8 o x p y => rw [h.1, eq_of_same x y h.2]
  case h_9 o x y p z w => rw [h.1.1, eq_of_same x z h.1.2, eq_of_same y w h.2]
  case h_10 x y z t x' y' z' u =>
    rw [eq_of_same x x' h.1.1.1, eq_of_same y y' h.1.1.2, eq_of_same z z' h.1.2, h.2]
  case h_11 xs ys => rw [eq_of_sameMembers xs ys h]
  case h_12 => rw [h.1.1.1, h.1.1.2, h.1.2, h.2]
  case h_13 a x b y => rw [h.1, eq_of_same x y h.2]
  case h_14 f xs g ys => rw [h.1, eq_of_sameList xs ys h.2]
  case h_15 a f xs b g ys => rw [h.1.1, h.1.2, eq_of_sameList xs ys h.2]
  case h_16 l x y z w l' x' y' z' w' =>
    rw [h.1.1.1.1, eq_of_same x x' h.1.1.1.2, eq_of_same y y' h.1.1.2, eq_of_same z z' h.1.2,
      eq_of_same w w' h.2]
  case h_17 a x y z s b x' y' z' s' =>
    rw [h.1.1.1.1, eq_of_same x x' h.1.1.1.2, eq_of_same y y' h.1.1.2, eq_of_same z z' h.1.2,
      eq_of_sameOption s s' h.2]
  case h_18 => rw [h.1, h.2]

theorem eq_of_sameOption : ∀ x y : Option Expr, sameOption x y = true → x = y
  | none, none, _ => rfl
  | some x, some y, h => by rw [eq_of_same x y (by simpa [sameOption] using h)]
  | none, some _, h => by simp [sameOption] at h
  | some _, none, h => by simp [sameOption] at h

theorem eq_of_sameList : ∀ xs ys : List Expr, sameList xs ys = true → xs = ys
  | [], [], _ => rfl
  | x :: xs, y :: ys, h => by
    simp only [sameList, Bool.and_eq_true] at h
    rw [eq_of_same x y h.1, eq_of_sameList xs ys h.2]
  | [], _ :: _, h => by simp [sameList] at h
  | _ :: _, [], h => by simp [sameList] at h

theorem eq_of_sameMembers : ∀ xs ys : List (String × Expr), sameMembers xs ys = true → xs = ys
  | [], [], _ => rfl
  | (n, x) :: xs, (m, y) :: ys, h => by
    simp only [sameMembers, Bool.and_eq_true, beq_iff_eq] at h
    rw [h.1.1, eq_of_same x y h.1.2, eq_of_sameMembers xs ys h.2]
  | [], _ :: _, h => by simp [sameMembers] at h
  | _ :: _, [], h => by simp [sameMembers] at h

theorem eq_of_sameConstant : ∀ v w : Constant Expr, sameConstant v w = true → v = w := by
  intro v w h
  unfold sameConstant at h
  split at h <;> simp only [Bool.and_eq_true, beq_iff_eq, Bool.false_eq_true] at h
  case h_4 n b m c => rw [h.1, eq_of_sameOption b c h.2]
  all_goals rw [h]

end

theorem same_iff (x y : Expr) : same x y = true ↔ x = y :=
  ⟨eq_of_same x y, fun h => h ▸ same_refl x⟩

instance : DecidableEq Expr := fun x y => decidable_of_iff _ (same_iff x y)

end QueryLowering.Expr
