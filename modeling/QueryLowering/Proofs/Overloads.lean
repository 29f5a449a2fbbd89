import Mathlib.Data.List.MinMax
import Mathlib.Data.List.Perm.Basic
import QueryLowering.Function

/-!
The choice among overloads. An argument scores 800 if its parameter has exactly its type and less
otherwise, so the exact matches are the overloads with the greatest score that there can be. If there
is none, the one overload that scores better than all others is chosen. What is chosen depends on the
order of the overloads only where several of them match exactly.
-/

namespace QueryLowering

theorem castTargetScore_lt (want : TypeTag) : castTargetScore want < sameTypeScore := by
  cases want <;> decide

theorem castScore?_le {given want : TypeTag} {k : Nat} (h : castScore? given want = some k) :
    k ≤ sameTypeScore := by
  unfold castScore? at h
  split at h
  · exact (Option.some.inj h).ge
  · split at h
    · exact Option.some.inj h ▸ (castTargetScore_lt want).le
    · cases h

/-- Only an argument that needs no cast has the score of one. -/
theorem castScore?_eq_some_iff {given want : TypeTag} :
    castScore? given want = some sameTypeScore ↔ given = want := by
  unfold castScore?
  split
  · rename_i heq
    exact ⟨fun _ => heq, fun _ => rfl⟩
  · rename_i hne
    refine ⟨fun h => ?_, fun h => absurd h hne⟩
    split at h
    · exact absurd (Option.some.inj h) (castTargetScore_lt want).ne
    · cases h

namespace Signature

variable {s : Signature} {i k : Nat} {input : DataType} {inputs : List DataType}

theorem scoreAt?_le (h : s.scoreAt? i input = some k) : k ≤ sameTypeScore := by
  unfold scoreAt? at h
  split at h
  · cases h
  · cases h
    decide
  · exact castScore?_le h

theorem scoreAt?_eq_some_iff : s.scoreAt? i input = some sameTypeScore ↔ s.exactAt i input = true := by
  unfold scoreAt? exactAt
  cases s.expected? i with
  | none => simp
  | some want =>
    cases want with
    | any => simp [anyTypeScore, sameTypeScore]
    | _ => exact castScore?_eq_some_iff.trans beq_iff_eq.symm

theorem scoreFrom?_cons_eq_some_iff :
    s.scoreFrom? i (input :: inputs) = some k ↔
      ∃ a b, s.scoreAt? i input = some a ∧ s.scoreFrom? (i + 1) inputs = some b ∧ a + b = k := by
  simp [scoreFrom?, Option.bind_eq_some_iff]

theorem scoreFrom?_le (h : s.scoreFrom? i inputs = some k) : k ≤ sameTypeScore * inputs.length := by
  induction inputs generalizing i k with
  | nil => exact (Option.some.inj h).ge
  | cons input inputs ih =>
    obtain ⟨a, b, ha, hb, rfl⟩ := scoreFrom?_cons_eq_some_iff.mp h
    rw [List.length_cons, Nat.mul_succ, Nat.add_comm]
    exact Nat.add_le_add (ih hb) (scoreAt?_le ha)

/-- The sum of the scores is as great as it can be exactly if every score is. -/
theorem scoreFrom?_eq_some_iff :
    s.scoreFrom? i inputs = some (sameTypeScore * inputs.length) ↔ s.exactFrom i inputs = true := by
  induction inputs generalizing i with
  | nil => simp [scoreFrom?, exactFrom]
  | cons input inputs ih =>
    rw [exactFrom, Bool.and_eq_true, ← scoreAt?_eq_some_iff, ← ih, scoreFrom?_cons_eq_some_iff,
      List.length_cons, Nat.mul_succ]
    constructor
    · rintro ⟨a, b, ha, hb, hsum⟩
      have hale := scoreAt?_le ha
      have hble := scoreFrom?_le hb
      obtain rfl : a = sameTypeScore := by omega
      obtain rfl : b = sameTypeScore * inputs.length := by omega
      exact ⟨ha, hb⟩
    · rintro ⟨ha, hb⟩
      exact ⟨_, _, ha, hb, Nat.add_comm _ _⟩

theorem score?_le (h : s.score? inputs = some k) : k ≤ sameTypeScore * inputs.length := by
  unfold score? at h
  split at h
  · exact scoreFrom?_le h
  · cases h

/-- An exact match is a match with the greatest score that there can be. -/
theorem exactMatch_iff :
    s.exactMatch inputs = true ↔ s.score? inputs = some (sameTypeScore * inputs.length) := by
  unfold exactMatch score?
  rw [Bool.and_eq_true, ← scoreFrom?_eq_some_iff]
  split
  · rename_i harity
    exact and_iff_right harity
  · rename_i harity
    exact ⟨fun h => absurd h.1 harity, nofun⟩

end Signature

namespace FunctionSet

/-- The greatest score, or zero if there is none. -/
def top (scored : List (Nat × DbFunction)) : Nat := (scored.map Prod.fst).foldr max 0

theorem le_top {scored : List (Nat × DbFunction)} {c : Nat × DbFunction} (h : c ∈ scored) :
    c.1 ≤ top scored := by
  induction scored with
  | nil => cases h
  | cons d scored ih =>
    change c.1 ≤ max d.1 (top scored)
    rcases List.mem_cons.mp h with rfl | h
    · exact Nat.le_max_left _ _
    · exact (ih h).trans (Nat.le_max_right _ _)

/-- If there is a score, then the greatest is one. -/
theorem exists_top {scored : List (Nat × DbFunction)} (h : scored ≠ []) :
    ∃ f, (top scored, f) ∈ scored := by
  induction scored with
  | nil => exact absurd rfl h
  | cons c scored ih =>
    by_cases hrest : scored = []
    · subst hrest
      exact ⟨c.2, by simp [top]⟩
    · obtain ⟨f, hf⟩ := ih hrest
      change ∃ f, (max c.1 (top scored), f) ∈ c :: scored
      rcases Nat.le_total (top scored) c.1 with hle | hle
      · rw [Nat.max_eq_left hle]
        exact ⟨c.2, List.mem_cons_self⟩
      · rw [Nat.max_eq_right hle]
        exact ⟨f, List.mem_cons_of_mem _ hf⟩

/-- The best are those that reach the greatest score. -/
theorem best_eq (scored : List (Nat × DbFunction)) :
    best scored = (top scored, (scored.filter fun c => c.1 == top scored).map Prod.snd) := by
  induction scored with
  | nil => rfl
  | cons c scored ih =>
    obtain ⟨score, f⟩ := c
    have htop : top ((score, f) :: scored) = max score (top scored) := rfl
    rw [best, ih, htop]
    by_cases hrest : scored = []
    · subst hrest
      simp [top]
    · -- Among the others there is one with the greatest score, so the list of the best is not empty.
      obtain ⟨g, hg⟩ := exists_top hrest
      have hmem : g ∈ (scored.filter fun c => c.1 == top scored).map Prod.snd :=
        List.mem_map.mpr ⟨_, List.mem_filter.mpr ⟨hg, beq_self_eq_true _⟩, rfl⟩
      split
      · rename_i heq
        rw [(Prod.mk.inj heq).2] at hmem
        cases hmem
      · rename_i heq
        obtain ⟨rfl, rfl⟩ := Prod.mk.inj heq
        rcases Nat.lt_trichotomy (top scored) score with hlt | heq | hgt
        · have hnone : scored.filter (fun c => c.1 == score) = [] := by
            refine List.filter_eq_nil_iff.mpr fun c hc => ?_
            have := le_top hc
            simp only [beq_iff_eq]
            omega
          rw [if_pos hlt, Nat.max_eq_left hlt.le, List.filter_cons_of_pos (by simp), hnone]
          rfl
        · subst heq
          simp
        · rw [if_neg hgt.asymm, if_pos hgt, Nat.max_eq_right hgt.le,
            List.filter_cons_of_neg (by simpa using hgt.ne)]

variable {s t : FunctionSet} {inputs : List DataType} {f : DbFunction}

/-- The overloads that reach the greatest score, in declared order. -/
def leaders (s : FunctionSet) (inputs : List DataType) : List DbFunction :=
  s.overloads.filter fun f => f.signature.score? inputs == some (top (s.scored inputs))

theorem filter_scored (overloads : List DbFunction) (score? : DbFunction → Option Nat) (k : Nat) :
    ((overloads.filterMap fun f => (score? f).map (·, f)).filter fun c => c.1 == k).map Prod.snd =
      overloads.filter fun f => score? f == some k := by
  induction overloads with
  | nil => rfl
  | cons f overloads ih =>
    rw [List.filterMap_cons, List.filter_cons]
    cases hf : score? f with
    | none => simpa using ih
    | some score =>
      by_cases hscore : score = k
      · simpa [hscore] using ih
      · simpa [hscore] using ih

theorem best_scored : (best (s.scored inputs)).2 = s.leaders inputs := by
  rw [best_eq]
  exact filter_scored _ _ _

theorem mem_scored {k : Nat} :
    (k, f) ∈ s.scored inputs ↔ f ∈ s.overloads ∧ f.signature.score? inputs = some k := by
  simp only [scored, List.mem_filterMap, Option.map_eq_some_iff, Prod.mk.injEq]
  constructor
  · rintro ⟨g, hg, _, hk, rfl, rfl⟩
    exact ⟨hg, hk⟩
  · rintro ⟨hf, hk⟩
    exact ⟨f, hf, k, hk, rfl, rfl⟩

theorem score_le_top {k : Nat} (hf : f ∈ s.overloads) (hk : f.signature.score? inputs = some k) :
    k ≤ top (s.scored inputs) :=
  le_top (mem_scored.mpr ⟨hf, hk⟩)

theorem leaders_eq_nil_iff :
    s.leaders inputs = [] ↔ ∀ f ∈ s.overloads, f.signature.score? inputs = none := by
  unfold leaders
  rw [List.filter_eq_nil_iff]
  constructor
  · intro h f hf
    by_contra hscore
    obtain ⟨k, hk⟩ := Option.ne_none_iff_exists'.mp hscore
    obtain ⟨g, hg⟩ := exists_top (List.ne_nil_of_mem (mem_scored.mpr ⟨hf, hk⟩))
    obtain ⟨hmem, htop⟩ := mem_scored.mp hg
    exact h g hmem (beq_iff_eq.mpr htop)
  · intro h f hf
    simp [h f hf]

/-- The first exact match is chosen; if there is none, the choice is among the best. -/
theorem resolve_eq :
    s.resolve inputs =
      match s.overloads.find? fun f => f.signature.exactMatch inputs with
      | some f => .ok f
      | none =>
        match s.leaders inputs with
        | [] => .error (s.unmatched inputs)
        | [f] => .ok f
        | _ => .error (s.ambiguous inputs) := by
  rw [← best_scored]
  rfl

theorem ambiguous_ne_unmatched : s.ambiguous inputs ≠ s.unmatched inputs := by
  intro h
  have hfields : (s.ambiguous inputs).fields = (s.unmatched inputs).fields := congrArg _ h
  simp [ambiguous, unmatched] at hfields

/-- No overload has the score of an exact match. -/
def NoExact (s : FunctionSet) (inputs : List DataType) : Prop :=
  ∀ f ∈ s.overloads, f.signature.score? inputs ≠ some (800 * inputs.length)

/-- The first overload with the score of an exact match. -/
def FirstExact (s : FunctionSet) (inputs : List DataType) (f : DbFunction) : Prop :=
  ∃ before after, s.overloads = before ++ f :: after ∧
    f.signature.score? inputs = some (800 * inputs.length) ∧
    ∀ g ∈ before, g.signature.score? inputs ≠ some (800 * inputs.length)

/-- An overload that scores better than every other one that has a score. -/
def StrictlyBest (s : FunctionSet) (inputs : List DataType) (f : DbFunction) : Prop :=
  ∃ before after k, s.overloads = before ++ f :: after ∧ f.signature.score? inputs = some k ∧
    ∀ g ∈ before ++ after, ∀ l, g.signature.score? inputs = some l → l < k

/-- The greatest score is that of two overloads at least. -/
def Tied (s : FunctionSet) (inputs : List DataType) : Prop :=
  ∃ before f between g after k, s.overloads = before ++ f :: (between ++ g :: after) ∧
    f.signature.score? inputs = some k ∧ g.signature.score? inputs = some k ∧
    ∀ h ∈ s.overloads, ∀ l, h.signature.score? inputs = some l → l ≤ k

theorem exactMatch_eq_false_iff :
    f.signature.exactMatch inputs = false ↔
      f.signature.score? inputs ≠ some (800 * inputs.length) := by
  rw [← Bool.not_eq_true, Signature.exactMatch_iff]
  rfl

theorem find?_eq_none_iff :
    s.overloads.find? (fun f => f.signature.exactMatch inputs) = none ↔ s.NoExact inputs := by
  simp only [List.find?_eq_none, Bool.not_eq_true, exactMatch_eq_false_iff, NoExact]

theorem find?_eq_some_iff :
    s.overloads.find? (fun f => f.signature.exactMatch inputs) = some f ↔
      s.FirstExact inputs f := by
  simp only [List.find?_eq_some_iff_append, Signature.exactMatch_iff, Bool.not_eq_true',
    exactMatch_eq_false_iff, FirstExact]
  constructor
  · rintro ⟨hf, before, after, heq, hbefore⟩
    exact ⟨before, after, heq, hf, hbefore⟩
  · rintro ⟨before, after, heq, hf, hbefore⟩
    exact ⟨hf, before, after, heq, hbefore⟩

/-- If an overload scores as well as any other, then its score is the greatest. -/
theorem top_eq {k : Nat} (hf : f ∈ s.overloads) (hk : f.signature.score? inputs = some k)
    (hle : ∀ g ∈ s.overloads, ∀ l, g.signature.score? inputs = some l → l ≤ k) :
    top (s.scored inputs) = k := by
  have hmem := mem_scored.mpr ⟨hf, hk⟩
  obtain ⟨g, hg⟩ := exists_top (List.ne_nil_of_mem hmem)
  obtain ⟨hgmem, hgtop⟩ := mem_scored.mp hg
  exact (hle g hgmem _ hgtop).antisymm (le_top hmem)

theorem leaders_eq_singleton_iff : s.leaders inputs = [f] ↔ s.StrictlyBest inputs f := by
  unfold leaders
  rw [List.filter_eq_cons_iff]
  constructor
  · rintro ⟨before, after, heq, hbefore, hf, hafter⟩
    rw [List.filter_eq_nil_iff] at hafter
    refine ⟨before, after, _, heq, beq_iff_eq.mp hf, fun g hg l hl => ?_⟩
    -- Another one does not reach the greatest score, so it stays below.
    have hmem : g ∈ s.overloads := by
      rw [heq]
      exact (List.mem_append.mp hg).elim (List.mem_append_left _)
        fun hg => List.mem_append_right _ (List.mem_cons_of_mem _ hg)
    have hne : l ≠ top (s.scored inputs) := by
      rintro rfl
      rcases List.mem_append.mp hg with hg | hg
      · exact hbefore g hg (beq_iff_eq.mpr hl)
      · exact hafter g hg (beq_iff_eq.mpr hl)
    exact (score_le_top hmem hl).lt_of_ne hne
  · rintro ⟨before, after, k, heq, hf, hless⟩
    have htop : top (s.scored inputs) = k := by
      refine top_eq (heq ▸ List.mem_append_cons_self) hf fun g hg l hl => ?_
      rw [heq, List.mem_append, List.mem_cons] at hg
      rcases hg with hg | rfl | hg
      · exact (hless g (List.mem_append_left _ hg) l hl).le
      · exact (Option.some.inj (hl.symm.trans hf)).le
      · exact (hless g (List.mem_append_right _ hg) l hl).le
    have hother : ∀ g ∈ before ++ after,
        ¬ (g.signature.score? inputs == some (top (s.scored inputs))) = true := by
      intro g hg hreach
      rw [htop] at hreach
      exact lt_irrefl k (hless g hg k (beq_iff_eq.mp hreach))
    exact ⟨before, after, heq, fun g hg => hother g (List.mem_append_left _ hg),
      beq_iff_eq.mpr (htop ▸ hf),
      List.filter_eq_nil_iff.mpr fun g hg => hother g (List.mem_append_right _ hg)⟩

theorem two_le_leaders_iff : 2 ≤ (s.leaders inputs).length ↔ s.Tied inputs := by
  unfold leaders
  constructor
  · intro h
    obtain ⟨f, rest, hrest⟩ := List.exists_cons_of_length_pos (Nat.lt_of_lt_of_le Nat.zero_lt_two h)
    obtain ⟨g, rest', rfl⟩ : ∃ g rest', rest = g :: rest' := by
      refine List.exists_cons_of_length_pos ?_
      rw [hrest, List.length_cons] at h
      omega
    obtain ⟨before, _, heq, -, hf, hafter⟩ := List.filter_eq_cons_iff.mp hrest
    obtain ⟨between, after, rfl, -, hg, -⟩ := List.filter_eq_cons_iff.mp hafter
    exact ⟨before, f, between, g, after, _, heq, beq_iff_eq.mp hf, beq_iff_eq.mp hg,
      fun h hh l hl => score_le_top hh hl⟩
  · rintro ⟨before, f, between, g, after, k, heq, hf, hg, hle⟩
    have htop : top (s.scored inputs) = k :=
      top_eq (heq ▸ List.mem_append_cons_self) hf hle
    rw [htop, heq]
    simp [List.filter_append, hf, hg]
    omega

theorem resolve_eq_ok_iff :
    s.resolve inputs = .ok f ↔
      s.FirstExact inputs f ∨ s.NoExact inputs ∧ s.StrictlyBest inputs f := by
  rw [← find?_eq_some_iff, ← find?_eq_none_iff, ← leaders_eq_singleton_iff, resolve_eq]
  cases s.overloads.find? fun f => f.signature.exactMatch inputs with
  | some g => simp
  | none =>
    rcases s.leaders inputs with _ | ⟨g, _ | ⟨h, rest⟩⟩
    · simp
    · simp
    · simp

theorem resolve_eq_ambiguous_iff :
    s.resolve inputs = .error (s.ambiguous inputs) ↔ s.NoExact inputs ∧ s.Tied inputs := by
  rw [← find?_eq_none_iff, ← two_le_leaders_iff, resolve_eq]
  cases s.overloads.find? fun f => f.signature.exactMatch inputs with
  | some g => simp
  | none =>
    rcases s.leaders inputs with _ | ⟨g, _ | ⟨h, rest⟩⟩
    · simp [ambiguous_ne_unmatched.symm]
    · simp
    · simp

/-- Without any match there is no exact match in particular. -/
theorem resolve_eq_unmatched_iff :
    s.resolve inputs = .error (s.unmatched inputs) ↔
      ∀ f ∈ s.overloads, f.signature.score? inputs = none := by
  rw [← leaders_eq_nil_iff, resolve_eq]
  cases hfind : s.overloads.find? fun f => f.signature.exactMatch inputs with
  | some g =>
    obtain ⟨before, after, heq, hg, -⟩ := find?_eq_some_iff.mp hfind
    have hne : s.leaders inputs ≠ [] := by
      intro hnil
      rw [leaders_eq_nil_iff.mp hnil g (heq ▸ List.mem_append_cons_self)] at hg
      cases hg
    simp [hne]
  | none =>
    rcases s.leaders inputs with _ | ⟨g, _ | ⟨h, rest⟩⟩
    · simp
    · simp
    · simp [ambiguous_ne_unmatched]

/-- What a pass remembers of the overloads that it has met: the first one with the best score so far,
and whether another one has reached that score since. -/
structure Tally where
  best : Option (Nat × DbFunction)
  tied : Bool

def Tally.start : Tally := ⟨none, false⟩

/-- Meets one more overload that has a score. -/
def Tally.add (t : Tally) (c : Nat × DbFunction) : Tally :=
  match t.best with
  | none => ⟨some c, false⟩
  | some (score, f) =>
    if c.1 < score then t
    else if c.1 = score then ⟨some (score, f), true⟩
    else ⟨some c, false⟩

/-- What a pass has to remember of the overloads, told from the list of the best. -/
def Tally.of (scored : List (Nat × DbFunction)) : Tally :=
  match FunctionSet.best scored with
  | (_, []) => .start
  | (score, f :: rest) => ⟨some (score, f), !rest.isEmpty⟩

theorem best_ne_nil {scored : List (Nat × DbFunction)} (h : scored ≠ []) :
    ∃ f rest, best scored = (top scored, f :: rest) := by
  obtain ⟨f, hf⟩ := exists_top h
  have hmem : f ∈ (best scored).2 := by
    rw [best_eq]
    exact List.mem_map.mpr ⟨_, List.mem_filter.mpr ⟨hf, beq_self_eq_true _⟩, rfl⟩
  obtain ⟨g, rest, hrest⟩ := List.exists_cons_of_ne_nil (List.ne_nil_of_mem hmem)
  have htop : (best scored).1 = top scored := by rw [best_eq]
  exact ⟨g, rest, Prod.ext htop hrest⟩

theorem top_concat (scored : List (Nat × DbFunction)) (c : Nat × DbFunction) :
    top (scored ++ [c]) = max (top scored) c.1 := by
  induction scored with
  | nil => simp [top]
  | cons d scored ih =>
    change max d.1 (top (scored ++ [c])) = max (max d.1 (top scored)) c.1
    rw [ih, max_assoc]

/-- A further overload changes nothing, joins the best, or becomes the only one of them. -/
theorem best_concat (scored : List (Nat × DbFunction)) (c : Nat × DbFunction) :
    best (scored ++ [c]) =
      if c.1 < top scored then best scored
      else if c.1 = top scored then (top scored, (best scored).2 ++ [c.2])
      else (c.1, [c.2]) := by
  rw [best_eq, best_eq, top_concat]
  rcases Nat.lt_trichotomy c.1 (top scored) with hlt | heq | hgt
  · simp [hlt, hlt.le, hlt.ne, List.filter_append]
  · simp [heq, List.filter_append]
  · have hnone : scored.filter (fun d => d.1 == c.1) = [] := by
      refine List.filter_eq_nil_iff.mpr fun d hd => ?_
      have := le_top hd
      simp only [beq_iff_eq]
      omega
    simp [hgt.asymm, hgt.ne', hgt.le, List.filter_append, hnone]

/-- One step of the pass. -/
theorem Tally.add_of (scored : List (Nat × DbFunction)) (c : Nat × DbFunction) :
    (Tally.of scored).add c = Tally.of (scored ++ [c]) := by
  by_cases hscored : scored = []
  · subst hscored
    rfl
  · obtain ⟨f, rest, hbest⟩ := best_ne_nil hscored
    rw [Tally.of, Tally.of, best_concat, hbest]
    rcases Nat.lt_trichotomy c.1 (top scored) with hlt | heq | hgt
    · simp [Tally.add, hlt]
    · simp [Tally.add, heq]
    · simp [Tally.add, hgt.asymm, hgt.ne']

/-- The whole pass. -/
theorem Tally.foldl_add (scored : List (Nat × DbFunction)) :
    scored.foldl Tally.add .start = Tally.of scored := by
  induction scored using List.reverseRecOn with
  | nil => rfl
  | append_singleton scored c ih => rw [List.foldl_concat, ih, Tally.add_of]

/-- If no overload matches exactly, a single pass with a flag for ties tells what is chosen. -/
theorem resolve_eq_of_noExact (h : s.NoExact inputs) :
    s.resolve inputs =
      match (s.scored inputs).foldl Tally.add .start with
      | ⟨none, _⟩ => .error (s.unmatched inputs)
      | ⟨some (_, f), false⟩ => .ok f
      | ⟨some _, true⟩ => .error (s.ambiguous inputs) := by
  rw [resolve, find?_eq_none_iff.mpr h, Tally.foldl_add, Tally.of]
  rcases best (s.scored inputs) with ⟨score, _ | ⟨f, _ | ⟨g, rest⟩⟩⟩
  · rfl
  · rfl
  · rfl

/-- Two sets choose the same overload, or fail in the same way; the failure may list the overloads in
another order. -/
inductive SameChoice (s t : FunctionSet) (inputs : List DataType) : Prop
  | chosen {f : DbFunction} :
      s.resolve inputs = .ok f → t.resolve inputs = .ok f → SameChoice s t inputs
  | ambiguous : s.resolve inputs = .error (s.ambiguous inputs) →
      t.resolve inputs = .error (t.ambiguous inputs) → SameChoice s t inputs
  | unmatched : s.resolve inputs = .error (s.unmatched inputs) →
      t.resolve inputs = .error (t.unmatched inputs) → SameChoice s t inputs

theorem top_perm (h : t.overloads.Perm s.overloads) :
    top (t.scored inputs) = top (s.scored inputs) :=
  ((h.filterMap _).map _).foldr_eq _

theorem leaders_perm (h : t.overloads.Perm s.overloads) (inputs : List DataType) :
    (t.leaders inputs).Perm (s.leaders inputs) := by
  unfold leaders
  rw [top_perm h]
  exact h.filter _

/-- The first of at most one is the same in every order. -/
theorem find?_perm {α : Type} {p : α → Bool} {xs ys : List α} (h : xs.Perm ys)
    (hone : ys.countP p ≤ 1) : xs.find? p = ys.find? p := by
  have hfilter := h.filter p
  rw [← List.head?_filter, ← List.head?_filter]
  rw [List.countP_eq_length_filter] at hone
  rcases hys : ys.filter p with _ | ⟨y, _ | ⟨z, rest⟩⟩
  · rw [hys] at hfilter
    rw [List.perm_nil.mp hfilter]
  · rw [hys] at hfilter
    rw [List.perm_singleton.mp hfilter]
  · rw [hys] at hone
    simp at hone

theorem sameChoice_of_perm (h : t.overloads.Perm s.overloads)
    (hone : (s.overloads.countP fun f => f.signature.exactMatch inputs) ≤ 1) :
    SameChoice s t inputs := by
  have hfind := find?_perm h hone
  have hleaders := leaders_perm h inputs
  cases hexact : s.overloads.find? fun f => f.signature.exactMatch inputs with
  | some f =>
    refine .chosen (f := f) ?_ ?_
    · rw [resolve_eq, hexact]
    · rw [resolve_eq, hfind, hexact]
  | none =>
    rcases hs : s.leaders inputs with _ | ⟨f, _ | ⟨g, rest⟩⟩
    · rw [hs] at hleaders
      refine .unmatched ?_ ?_
      · rw [resolve_eq, hexact, hs]
      · rw [resolve_eq, hfind, hexact, List.perm_nil.mp hleaders]
    · rw [hs] at hleaders
      refine .chosen (f := f) ?_ ?_
      · rw [resolve_eq, hexact, hs]
      · rw [resolve_eq, hfind, hexact, List.perm_singleton.mp hleaders]
    · -- Two or more stay two or more.
      refine .ambiguous ?_ ?_
      · rw [resolve_eq, hexact, hs]
      · have hlen := hleaders.length_eq
        rw [hs] at hlen
        rw [resolve_eq, hfind, hexact]
        rcases ht : t.leaders inputs with _ | ⟨f', _ | ⟨g', rest'⟩⟩
        · rw [ht] at hlen
          simp at hlen
        · rw [ht] at hlen
          simp at hlen
        · rfl

/-- Resolution of overloads, said by scores. An overload matches exactly if it scores 800 for every
input, and no score is greater, so the sums stay below 2 ^ 32 where 800 times the number of inputs does. The
first exact match is chosen; otherwise the one overload that scores better than all others; a tie for
the greatest score is ambiguous, and without a score there is no match. If at most one overload matches
exactly, the order of the overloads plays no part. -/
theorem resolution_by_scores (s : FunctionSet) (inputs : List DataType) :
    (∀ sig : Signature,
      (sig.exactMatch inputs = true ↔ sig.score? inputs = some (800 * inputs.length)) ∧
        ∀ k, sig.score? inputs = some k → k ≤ 800 * inputs.length) ∧
      (∀ f, s.resolve inputs = .ok f ↔
        s.FirstExact inputs f ∨ s.NoExact inputs ∧ s.StrictlyBest inputs f) ∧
      (s.resolve inputs = .error (s.ambiguous inputs) ↔ s.NoExact inputs ∧ s.Tied inputs) ∧
      (s.resolve inputs = .error (s.unmatched inputs) ↔
        ∀ f ∈ s.overloads, f.signature.score? inputs = none) ∧
      ∀ overloads : List DbFunction, overloads.Perm s.overloads →
        (s.overloads.countP fun f => f.signature.exactMatch inputs) ≤ 1 →
          SameChoice s ⟨s.method, overloads⟩ inputs :=
  ⟨fun _ => ⟨Signature.exactMatch_iff, fun _ => Signature.score?_le⟩, fun _ => resolve_eq_ok_iff,
    resolve_eq_ambiguous_iff, resolve_eq_unmatched_iff,
    fun _ hperm hone => sameChoice_of_perm hperm hone⟩

/-- A function of one argument. -/
def unary (name : String) (param : TypeTag) : DbFunction :=
  ⟨name, none, .scalar, ⟨[param], none, .float64⟩⟩

/-- Two overloads tie for a 32-bit integer, until a third one turns out to be better. -/
def widen : FunctionSet :=
  ⟨⟨"DbFunctions", "Widen", []⟩,
    [unary "to_float" .float64, unary "to_double" .float64, unary "to_long" .int64]⟩

theorem resolution_by_scores_of_widen :
    [unary "to_long" .int64, unary "to_double" .float64, unary "to_float" .float64].Perm
        widen.overloads ∧
      (widen.overloads.countP fun f => f.signature.exactMatch [.int32]) ≤ 1 ∧
      widen.resolve [.int32] = .ok (unary "to_long" .int64) ∧
      SameChoice widen ⟨widen.method,
        [unary "to_long" .int64, unary "to_double" .float64, unary "to_float" .float64]⟩ [.int32] := by
  have hperm : [unary "to_long" .int64, unary "to_double" .float64, unary "to_float" .float64].Perm
      widen.overloads := by decide
  have hone : (widen.overloads.countP fun f => f.signature.exactMatch [.int32]) ≤ 1 := by decide
  obtain ⟨-, hchosen, -, -, horder⟩ := resolution_by_scores widen [.int32]
  refine ⟨hperm, hone, (hchosen _).mpr (.inr ⟨by unfold NoExact; decide, ?_⟩), horder _ hperm hone⟩
  exact ⟨[unary "to_float" .float64, unary "to_double" .float64], [], 161, rfl, rfl, by decide⟩

end FunctionSet

end QueryLowering
