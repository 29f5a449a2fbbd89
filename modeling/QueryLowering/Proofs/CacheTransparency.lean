import Mathlib
import QueryLowering.Compiler
import QueryLowering.Proofs.Steps

/-!
The cache of a compiler cannot be seen in its answers. Every entry is what its own shape is lowered
to under the settings of the compiler, and this stays so through look-ups, insertions, evictions and
clearing.
-/

namespace QueryLowering

namespace Cache

variable {κ ν : Type} [DecidableEq κ]

theorem mem_of_find? {c : Cache κ ν} {key : κ} {value : ν} (h : c.find? key = some value) :
    (key, value) ∈ c.entries :=
  mem_of_lookup h

theorem mem_replace {key : κ} {value : ν} {es : List (κ × ν)} {p : κ × ν}
    (h : p ∈ replace key value es) : p = (key, value) ∨ p ∈ es := by
  induction es with
  | nil => exact Or.inr h
  | cons e es ih =>
    unfold replace at h
    split at h
    · rcases List.mem_cons.mp h with rfl | h
      · exact Or.inl rfl
      · exact Or.inr (List.mem_cons_of_mem _ h)
    · rcases List.mem_cons.mp h with rfl | h
      · exact Or.inr List.mem_cons_self
      · exact (ih h).imp id (List.mem_cons_of_mem _)

/-- Insertion puts in nothing but the entry that it is given, whether or not it has to make room. -/
theorem mem_insert {c : Cache κ ν} {key : κ} {value : ν} {p : κ × ν}
    (h : p ∈ (c.insert key value).entries) : p = (key, value) ∨ p ∈ c.entries := by
  unfold insert at h
  split at h
  · exact mem_replace h
  · rcases List.mem_append.mp h with h | h
    · exact Or.inr (List.mem_of_mem_drop h)
    · exact Or.inl (List.mem_singleton.mp h)

@[simp] theorem get_fst (c : Cache κ ν) (key : κ) : (c.get key).1 = c.find? key := by
  unfold get
  split <;> simp_all

@[simp] theorem entries_get (c : Cache κ ν) (key : κ) : (c.get key).2.entries = c.entries := by
  unfold get
  split <;> rfl

@[simp] theorem evictions_get (c : Cache κ ν) (key : κ) :
    (c.get key).2.stats.evictions = c.stats.evictions := by
  unfold get
  split <;> rfl

theorem hits_get_of_find?_eq_none {c : Cache κ ν} {key : κ} (h : c.find? key = none) :
    (c.get key).2.stats.hits = c.stats.hits := by
  unfold get
  rw [h]

end Cache

namespace Compiler

/-- What a client can ask of a compiler. -/
inductive Request where
  | compile (query : Expr)
  | clearCache

/-- The compiler that a request leaves behind. -/
def serve (c : Compiler) : Request → Compiler
  | .compile e => (c.compile e).2
  | .clearCache => c.clearCache

/-- The compiler that a series of requests leaves behind. -/
def serveAll (c : Compiler) (requests : List Request) : Compiler := requests.foldl serve c

/-- An answer without the note whether it came out of the cache. -/
def outcome (answer : Except Failure Compiled) :
    Except Failure (Entry × List QueryParameter) :=
  answer.map fun a => (a.entry, a.parameters)

/-- Every entry of the cache is what its shape is lowered to. -/
def Faithful (c : Compiler) : Prop :=
  ∀ p ∈ c.cache.entries, lowerShape c.context c.settings p.1 = .ok p.2

/-- The outcome of a query without any cache. -/
def plainOutcome (context : Context) (settings : Settings) (e : Expr) :
    Except Failure (Entry × List QueryParameter) :=
  (lowerShape context settings (shapeOf settings e).1).map fun entry =>
    (entry, (shapeOf settings e).2)

theorem compile_of_not_cacheQueries {c : Compiler} (h : c.settings.cacheQueries = false)
    (e : Expr) :
    c.compile e =
      ((lowerShape c.context c.settings (shapeOf c.settings e).1).map fun entry =>
        ⟨entry, (shapeOf c.settings e).2, false⟩, c) := by
  simp only [compile, h, Bool.false_eq_true, ↓reduceIte]

/-- The ways in which a compiler with a cache can answer: from the cache, by lowering the shape and
keeping it, or by failing to lower it. -/
theorem compile_cases {c : Compiler} (h : c.settings.cacheQueries = true) (e : Expr) :
    ∃ shape parameters, shapeOf c.settings e = (shape, parameters) ∧
      ((∃ entry, c.cache.find? shape = some entry ∧
          c.compile e =
            (.ok ⟨entry, parameters, true⟩, { c with cache := (c.cache.get shape).2 })) ∨
        (∃ entry, lowerShape c.context c.settings shape = .ok entry ∧
          c.compile e =
            (.ok ⟨entry, parameters, false⟩,
              { c with cache := (c.cache.get shape).2.insert shape entry })) ∨
        (∃ f, c.cache.find? shape = none ∧ lowerShape c.context c.settings shape = .error f ∧
          c.compile e = (.error f, { c with cache := (c.cache.get shape).2 }))) := by
  rcases hs : shapeOf c.settings e with ⟨shape, parameters⟩
  refine ⟨shape, parameters, rfl, ?_⟩
  have hget := Cache.get_fst c.cache shape
  cases hfound : c.cache.get shape with
  | mk found cache =>
    rw [hfound] at hget
    cases found with
    | some entry =>
      refine Or.inl ⟨entry, hget.symm, ?_⟩
      simp only [compile, hs, h, ↓reduceIte, hfound]
    | none =>
      cases hlower : lowerShape c.context c.settings shape with
      | ok entry =>
        refine Or.inr (Or.inl ⟨entry, rfl, ?_⟩)
        simp only [compile, hs, h, ↓reduceIte, hfound, hlower]
      | error f =>
        refine Or.inr (Or.inr ⟨f, hget.symm, rfl, ?_⟩)
        simp only [compile, hs, h, ↓reduceIte, hfound, hlower]

theorem context_compile (c : Compiler) (e : Expr) : (c.compile e).2.context = c.context := by
  cases h : c.settings.cacheQueries with
  | false => rw [compile_of_not_cacheQueries h]
  | true =>
    obtain ⟨_, _, _, ⟨_, _, hc⟩ | ⟨_, _, hc⟩ | ⟨_, _, _, hc⟩⟩ := compile_cases h e <;> rw [hc]

theorem settings_compile (c : Compiler) (e : Expr) : (c.compile e).2.settings = c.settings := by
  cases h : c.settings.cacheQueries with
  | false => rw [compile_of_not_cacheQueries h]
  | true =>
    obtain ⟨_, _, _, ⟨_, _, hc⟩ | ⟨_, _, hc⟩ | ⟨_, _, _, hc⟩⟩ := compile_cases h e <;> rw [hc]

theorem faithful_new (context : Context) (settings : Settings) :
    Faithful (Compiler.new context settings) := by
  intro p hp
  exact absurd hp List.not_mem_nil

theorem Faithful.compile {c : Compiler} (hc : c.Faithful) (e : Expr) :
    (c.compile e).2.Faithful := by
  cases h : c.settings.cacheQueries with
  | false =>
    rw [compile_of_not_cacheQueries h]
    exact hc
  | true =>
    obtain ⟨shape, parameters, -, ⟨entry, -, ha⟩ | ⟨entry, hlower, ha⟩ | ⟨f, -, -, ha⟩⟩ :=
      compile_cases h e
    · rw [ha]
      intro p hp
      exact hc p (by simpa only [Cache.entries_get] using hp)
    · rw [ha]
      intro p hp
      rcases Cache.mem_insert hp with rfl | hp
      · exact hlower
      · exact hc p (by simpa only [Cache.entries_get] using hp)
    · rw [ha]
      intro p hp
      exact hc p (by simpa only [Cache.entries_get] using hp)

theorem Faithful.serve {c : Compiler} (hc : c.Faithful) (r : Request) : (c.serve r).Faithful := by
  cases r with
  | compile e => exact hc.compile e
  | clearCache =>
    intro p hp
    exact absurd hp List.not_mem_nil

theorem serve_fixed (c : Compiler) (r : Request) :
    (c.serve r).context = c.context ∧ (c.serve r).settings = c.settings := by
  cases r with
  | compile e => exact ⟨context_compile c e, settings_compile c e⟩
  | clearCache => exact ⟨rfl, rfl⟩

/-- After any series of requests, the cache is faithful to the context and the settings that the
compiler was made with. -/
theorem Faithful.serveAll {c : Compiler} (hc : c.Faithful) (requests : List Request) :
    (c.serveAll requests).Faithful ∧ (c.serveAll requests).context = c.context ∧
      (c.serveAll requests).settings = c.settings := by
  induction requests generalizing c with
  | nil => exact ⟨hc, rfl, rfl⟩
  | cons r rs ih =>
    have hstep := serve_fixed c r
    have hrest := ih (hc.serve r)
    exact ⟨hrest.1, hrest.2.1.trans hstep.1, hrest.2.2.trans hstep.2⟩

/-- A faithful compiler answers as if it had no cache. -/
theorem Faithful.outcome_compile {c : Compiler} (hc : c.Faithful) (e : Expr) :
    outcome (c.compile e).1 = plainOutcome c.context c.settings e := by
  cases h : c.settings.cacheQueries with
  | false =>
    rw [compile_of_not_cacheQueries h, plainOutcome, outcome]
    cases lowerShape c.context c.settings (shapeOf c.settings e).1 <;> rfl
  | true =>
    obtain ⟨shape, parameters, hs, ⟨entry, hfind, ha⟩ | ⟨entry, hlower, ha⟩ | ⟨f, -, hlower, ha⟩⟩ :=
      compile_cases h e
    · -- The answer comes from the cache: it is what lowering the shape gave when it was kept.
      have hlower := hc _ (Cache.mem_of_find? hfind)
      rw [ha, plainOutcome, hs, hlower]
      rfl
    · rw [ha, plainOutcome, hs, hlower]
      rfl
    · rw [ha, plainOutcome, hs, hlower]
      rfl

/-- What a compiler answers, after any series of requests, is what the shape of the query is lowered
to, and the parameters of the query. -/
theorem lowerShape_of_answer {context : Context} {settings : Settings} {requests : List Request}
    {e : Expr} {a : Compiled}
    (h : (((Compiler.new context settings).serveAll requests).compile e).1 = .ok a) :
    lowerShape context settings (shapeOf settings e).1 = .ok a.entry ∧
      a.parameters = (shapeOf settings e).2 := by
  obtain ⟨hc, hcontext, hsettings⟩ := (faithful_new context settings).serveAll requests
  have houtcome : .ok (a.entry, a.parameters) = plainOutcome context settings e := by
    have houtcome := hc.outcome_compile e
    rwa [h, hcontext, hsettings] at houtcome
  rw [plainOutcome] at houtcome
  cases hlower : lowerShape context settings (shapeOf settings e).1 with
  | error f =>
    rw [hlower] at houtcome
    cases houtcome
  | ok entry =>
    rw [hlower] at houtcome
    injection houtcome with houtcome
    obtain ⟨hentry, hparameters⟩ := Prod.mk.inj houtcome
    exact ⟨congrArg Except.ok hentry.symm, hparameters⟩

/-- Lowering does not look at the settings of the cache. -/
theorem plainOutcome_cacheQueries (context : Context) (settings : Settings) (b : Bool) (e : Expr) :
    plainOutcome context { settings with cacheQueries := b } e =
      plainOutcome context settings e := rfl

/-- A query that fails to compile leaves the entries, their order, and the counters of hits and
evictions as they were. -/
theorem cache_compile_of_error {c : Compiler} {e : Expr} {f : Failure}
    (h : (c.compile e).1 = .error f) :
    (c.compile e).2.cache.entries = c.cache.entries ∧
      (c.compile e).2.cache.stats.hits = c.cache.stats.hits ∧
      (c.compile e).2.cache.stats.evictions = c.cache.stats.evictions := by
  cases hs : c.settings.cacheQueries with
  | false =>
    rw [compile_of_not_cacheQueries hs]
    exact ⟨rfl, rfl, rfl⟩
  | true =>
    obtain ⟨_, _, _, ⟨_, _, ha⟩ | ⟨_, _, ha⟩ | ⟨_, hfind, _, ha⟩⟩ := compile_cases hs e
    · rw [ha] at h
      cases h
    · rw [ha] at h
      cases h
    · rw [ha]
      exact ⟨Cache.entries_get _ _, Cache.hits_get_of_find?_eq_none hfind,
        Cache.evictions_get _ _⟩

/-- Whatever a compiler was asked before, it answers a query as a new compiler without a cache does,
and if that answer is a failure, then the cache stays as it was up to its counter of misses. -/
theorem compile_after_requests (context : Context) (settings : Settings)
    (requests : List Request) (e : Expr) :
    let c := (Compiler.new context settings).serveAll requests
    outcome (c.compile e).1 =
        outcome ((Compiler.new context { settings with cacheQueries := false }).compile e).1 ∧
      ∀ f, (c.compile e).1 = .error f →
        (c.compile e).2.cache.entries = c.cache.entries ∧
          (c.compile e).2.cache.stats.hits = c.cache.stats.hits ∧
          (c.compile e).2.cache.stats.evictions = c.cache.stats.evictions := by
  intro c
  obtain ⟨hc, hcontext, hsettings⟩ := (faithful_new context settings).serveAll requests
  refine ⟨?_, fun f hf => cache_compile_of_error hf⟩
  rw [hc.outcome_compile e, hcontext, hsettings, (faithful_new _ _).outcome_compile e]
  exact (plainOutcome_cacheQueries context settings false e).symm

/-- Two queries, the first of them asked for twice. -/
def crowdingRequests : List Request :=
  [.compile (.entitySet "A"), .compile (.entitySet "A"), .compile (.entitySet "B")]

/-- A new compiler that keeps one query at most. -/
def narrow (cacheQueries : Bool) : Compiler :=
  .new ⟨.empty, .empty⟩ { cacheQueries := cacheQueries, cacheCapacity := 1 }

/-- The invocation of a parameter, which is never known. -/
def unresolvable : Expr := .invoke (.param ⟨"f", .null⟩) [] .null

/-- A cache for one query has been hit once and has evicted a query when it meets one that cannot be
lowered. -/
theorem compile_unresolvable_after_crowding :
    ((narrow true).serveAll crowdingRequests).cache.stats = ⟨1, 2, 1⟩ ∧
      (∃ f, (((narrow true).serveAll crowdingRequests).compile unresolvable).1 = .error f) ∧
      outcome (((narrow true).serveAll crowdingRequests).compile unresolvable).1 =
        outcome ((narrow false).compile unresolvable).1 ∧
      (((narrow true).serveAll crowdingRequests).compile unresolvable).2.cache.entries =
        ((narrow true).serveAll crowdingRequests).cache.entries := by
  have hstats : ((narrow true).serveAll crowdingRequests).cache.stats = ⟨1, 2, 1⟩ := by cbv
  have hfail : (((narrow true).serveAll crowdingRequests).compile unresolvable).1 =
      .error ((Pass.Inlining.unresolved unresolvable).withField Failure.passField
        Pass.inlining.name) := by cbv
  have h := compile_after_requests ⟨.empty, .empty⟩ { cacheCapacity := 1 } crowdingRequests
    unresolvable
  exact ⟨hstats, ⟨_, hfail⟩, h.1, (h.2 _ hfail).1⟩

end Compiler

end QueryLowering
