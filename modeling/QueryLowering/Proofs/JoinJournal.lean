import QueryLowering.Proofs.Expansion
import QueryLowering.Proofs.Pipeline

/-!
A journal of what the expansion of navigations changes. The expansion does three things to what it
keeps: it registers a root, it makes a join, and it takes the joins of a root off those that wait. The
expansion that writes down each of these as it does it gives the same results, so the states after the
beginnings of its journal are all the states that the expansion goes through, also if it fails.
-/

namespace QueryLowering.Pass.Navigation

open QueryLowering.Expr StateStep

/-- What the expansion can do to what it keeps. -/
inductive Change where
  | root (element : DataType)
  | join (key : SourceKey) (n : QueryLowering.Navigation) (parts : JoinParts)
  | attach (anchor : SourceKey)

/-- What is kept after a change. -/
def Expansion.after (x : Expansion) : Change → Expansion
  | .root element => { x with state := (x.state.addRoot element).2 }
  | .join key n parts => (addJoin key n parts x).2
  | .attach anchor => { x with pending := x.pending.filter fun j => !(j.anchor == anchor) }

/-- May the change be made? A join is made for a navigation of the model that has none yet, and its
parts are those that the navigation asks for. -/
def Change.Allowed (model : Model) (x : Expansion) : Change → Prop
  | .join key n parts =>
    x.state.findJoin? key n.name = none ∧
      ∃ declaring ∈ model.entities, n ∈ declaring.navigations ∧
        ∃ node, joinParts model x.state key declaring n node = .ok parts
  | _ => True

/-- The changes may be made one after the other, and they lead from the one to the other. -/
inductive Becomes (model : Model) : Expansion → List Change → Expansion → Prop
  | nil (x : Expansion) : Becomes model x [] x
  | cons {x x' : Expansion} {c : Change} {cs : List Change} (hc : c.Allowed model x)
      (hcs : Becomes model (x.after c) cs x') : Becomes model x (c :: cs) x'

variable {model : Model} {x t x' : Expansion} {cs cs' : List Change}

theorem Becomes.append (h : Becomes model x cs t) (h' : Becomes model t cs' x') :
    Becomes model x (cs ++ cs') x' := by
  induction h with
  | nil => exact h'
  | cons hc _ ih => exact .cons hc (ih h')

/-- The changes alone tell where they lead. -/
theorem Becomes.eq_foldl (h : Becomes model x cs x') : x' = cs.foldl Expansion.after x := by
  induction h with
  | nil => rfl
  | cons _ _ ih => exact ih

/-- The beginning of changes that may be made may be made. -/
theorem Becomes.of_append (h : Becomes model x (cs ++ cs') x') :
    Becomes model x cs (cs.foldl Expansion.after x) := by
  induction cs generalizing x with
  | nil => exact .nil x
  | cons c cs ih =>
    cases h with
    | cons hc hcs => exact .cons hc (ih hcs)

/-- A step that writes down what it changes. -/
abbrev Noted := StateStep (Expansion × List Change)

def look : Noted Expansion := do return (← get).1

/-- Makes a change and writes it down. -/
def make {α : Type} (f : Expansion → α × Change) : Noted α :=
  modifyGet fun p => ((f p.1).1, (p.1.after (f p.1).2, p.2 ++ [(f p.1).2]))

def noteRoot (element : DataType) : Noted SourceKey :=
  make fun x => (.root x.state.roots.length, .root element)

def noteReference (model : Model) (key : SourceKey) (declaring : Entity)
    (n : QueryLowering.Navigation) (node : Expr) : Noted Expr := do
  let x ← look
  match x.state.findJoin? key n.name with
  | some j => return .sourceRef j.row j.target
  | none =>
    let parts ← StateStep.ofExcept (joinParts model x.state key declaring n node)
    let a ← make fun x => (⟨x.state.nextAlias⟩, .join key n parts)
    return .sourceRef a parts.target.name

def noteMember (model : Model) (Γ : Scope) (row : Expr) (name : String) (type : DataType) :
    Noted Expr :=
  let node := Expr.member row name type
  match row.type.entityName?.bind model.entity? with
  | none => return node
  | some declaring =>
    match declaring.navigation? name with
    | none => return node
    | some n =>
      match n.cardinality, rowKey? Γ row with
      | .one, some key => noteReference model key declaring n node
      | .one, none => return node
      | .many, _ => StateStep.ofExcept (expandCollection model row declaring n node)

def noteAttach (key : SourceKey) (source : Expr) : Noted Expr :=
  make fun x =>
    let anchor := (x.state.anchor? key).getD key
    (attachAll source (x.pending.filter fun j => j.anchor == anchor), .attach anchor)

def noteSource : Expr × Option SourceKey → Noted (Expr × SourceKey)
  | (e, some key) => return (e, key)
  | (e, none) => do return (e, ← noteRoot (e.type.element?.getD .null))

def noteResultKey (name : String) (first : Option SourceKey) (e : Expr) :
    Noted (Option SourceKey) :=
  if name ∈ Operator.rowPreserving then return first
  else
    match e.type.element? with
    | some element => some <$> noteRoot element
    | none => return none

def noteRebuild (call : Expr) (name : String) (args : List Expr) (first : Option SourceKey) :
    Noted (Expr × Option SourceKey) :=
  match args with
  | source :: _ =>
    if name = "AsQueryable" ∧ source.type.isQueryable then return (source, first) else finish
  | [] => finish
where
  finish : Noted (Expr × Option SourceKey) := do
    let e ← StateStep.ofExcept (call.withChildren args)
    return (e, ← noteResultKey name first e)

/-- Expands all navigations of an expression and writes down all changes. -/
def expandNoted (model : Model) (Γ : Scope) (bound : Nat → Option SourceKey) (e : Expr) :
    Noted (Expr × Option SourceKey) :=
  match e with
  | .call m receiver args type =>
    if (Operator.findFor? m args).isSome then do
      let sources ← args.attach.mapM fun a =>
        if (ArgShape.of a.1).isSource then do
          return some (← noteSource (← expandNoted model Γ (fun _ => none) a.1))
        else return none
      let keys := sources.filterMap fun s => s.map (·.2)
      let args' ← (args.attach.zip sources).zipIdx.mapM fun a =>
        match a.1.2 with
        | some (source, _) => return source
        | none => do
          return (← expandNoted model Γ (argSources m.name keys a.2 a.1.1.1) a.1.1.1).1
      let args'' ← (args'.zip sources).mapM fun a =>
        match a.2 with
        | some (_, key) => noteAttach key a.1
        | none => return a.1
      noteRebuild (.call m receiver args type) m.name args'' keys.head?
    else do
      let e ← (Expr.call m receiver args type).traverse fun c _ =>
        Prod.fst <$> expandNoted model Γ (fun _ => none) c
      return (e, none)
  | .quote inner => do
    return (.quote (← expandNoted model Γ bound inner).1, none)
  | .lambda params body => do
    return (.lambda params (← expandNoted model (Γ.bind params bound) (fun _ => none) body).1, none)
  | .member row name type => do
    let row ← expandNoted model Γ (fun _ => none) row
    return (← noteMember model Γ row.1 name type, none)
  | e => do
    return (← e.traverse fun c _ => Prod.fst <$> expandNoted model Γ (fun _ => none) c, none)
termination_by e
decreasing_by
  · exact Expr.sizeOf_lt_of_mem_children (List.mem_append_right _ a.2)
  · exact Expr.sizeOf_lt_of_mem_children (List.mem_append_right _ a.1.1.2)
  · exact Expr.sizeOf_lt_of_mem_children ‹_›
  · exact Expr.sizeOf_lt_of_mem_children (by simp [Expr.children])
  · exact Expr.sizeOf_lt_of_mem_children (by simp [Expr.children])
  · exact Expr.sizeOf_lt_of_mem_children (by simp [Expr.children])
  · exact Expr.sizeOf_lt_of_mem_children ‹_›

section Journals

variable {α β γ : Type}

/-- Begun at `x`, the second step does what the first one does, and what it writes down are the
changes, all of which may be made. -/
def JournalsAt (model : Model) (x : Expansion) (step : Step α) (noted : Noted α) : Prop :=
  ∀ js, ∃ cs, noted.run.run (x, js) =
      ((step.run.run x).1, ((step.run.run x).2, js ++ cs)) ∧
    Becomes model x cs (step.run.run x).2

/-- The same, wherever they are begun. -/
def Journals (model : Model) (step : Step α) (noted : Noted α) : Prop :=
  ∀ x, JournalsAt model x step noted

/-- Steps that change nothing write nothing down. -/
theorem journalsAt_of_idle {step : Step α} {noted : Noted α} {result : Except Failure α}
    (hstep : step.run.run x = (result, x))
    (hnoted : ∀ js, noted.run.run (x, js) = (result, (x, js))) : JournalsAt model x step noted := by
  intro js
  refine ⟨[], ?_, ?_⟩
  · rw [hnoted, hstep, List.append_nil]
  · rw [hstep]
    exact .nil x

theorem journals_pure (a : α) : Journals model (pure a) (pure a) :=
  fun _ => journalsAt_of_idle rfl fun _ => rfl

theorem journals_ofExcept (result : Except Failure α) :
    Journals model (StateStep.ofExcept result) (StateStep.ofExcept result) :=
  fun _ => journalsAt_of_idle rfl fun _ => rfl

theorem journals_look : Journals model get look :=
  fun _ => journalsAt_of_idle rfl fun _ => rfl

/-- A change that may be made is written down. -/
theorem journalsAt_make {f : Expansion → α × Expansion} {g : Expansion → α × Change}
    (hresult : (g x).1 = (f x).1) (hafter : x.after (g x).2 = (f x).2)
    (hallowed : (g x).2.Allowed model x) : JournalsAt model x (modifyGet f) (make g) := by
  intro js
  have hstep : (modifyGet f : Step α).run.run x = (.ok (f x).1, (f x).2) := rfl
  have hnoted : (make g).run.run (x, js) = (.ok (g x).1, (x.after (g x).2, js ++ [(g x).2])) := rfl
  refine ⟨[(g x).2], ?_, ?_⟩
  · rw [hnoted, hstep, hresult, hafter]
  · rw [hstep, ← hafter]
    exact .cons hallowed (.nil _)

theorem JournalsAt.bind {step : Step α} {noted : Noted α} {f : α → Step β} {g : α → Noted β}
    (h : JournalsAt model x step noted)
    (hfg : ∀ a t, step.Gives x a t → JournalsAt model t (f a) (g a)) :
    JournalsAt model x (step >>= f) (noted >>= g) := by
  intro js
  obtain ⟨cs, hrun, hbecomes⟩ := h js
  rw [run_bind, run_bind, hrun]
  rcases hstep : step.run.run x with ⟨f' | a, t⟩
  · rw [hstep] at hbecomes
    exact ⟨cs, rfl, hbecomes⟩
  · rw [hstep] at hbecomes
    obtain ⟨cs', hrun', hbecomes'⟩ := hfg a t hstep (js ++ cs)
    refine ⟨cs ++ cs', ?_, hbecomes.append hbecomes'⟩
    rw [← List.append_assoc]
    exact hrun'

theorem Journals.bind {step : Step α} {noted : Noted α} {f : α → Step β} {g : α → Noted β}
    (h : Journals model step noted) (hfg : ∀ a, Journals model (f a) (g a)) :
    Journals model (step >>= f) (noted >>= g) :=
  fun x => (h x).bind fun a t _ => hfg a t

theorem Journals.map {step : Step α} {noted : Noted α} (h : Journals model step noted) (f : α → β) :
    Journals model (f <$> step) (f <$> noted) := by
  rw [map_eq_pure_bind, map_eq_pure_bind]
  exact h.bind fun a => journals_pure (f a)

theorem journals_mapM {f : α → Step β} {g : α → Noted β} {xs : List α}
    (h : ∀ a ∈ xs, Journals model (f a) (g a)) : Journals model (xs.mapM f) (xs.mapM g) := by
  induction xs with
  | nil => exact journals_pure []
  | cons a xs ih =>
    rw [List.mapM_cons, List.mapM_cons]
    refine (h a List.mem_cons_self).bind fun b => ?_
    refine (ih fun a ha => h a (List.mem_cons_of_mem _ ha)).bind fun bs => ?_
    exact journals_pure (b :: bs)

theorem journals_noteRoot (element : DataType) :
    Journals model (updateState fun s => s.addRoot element) (noteRoot element) :=
  fun _ => journalsAt_make rfl rfl trivial

theorem journals_noteReference {key : SourceKey} {declaring : Entity}
    {n : QueryLowering.Navigation} (hdeclaring : declaring ∈ model.entities)
    (hn : n ∈ declaring.navigations) (node : Expr) :
    Journals model (expandReference model key declaring n node)
      (noteReference model key declaring n node) := by
  intro x
  unfold expandReference noteReference
  apply (journals_look x).bind
  intro y t hy
  obtain ⟨rfl, rfl⟩ := gives_get.mp hy
  cases hfind : t.state.findJoin? key n.name with
  | some j => exact journals_pure _ t
  | none =>
    apply (journals_ofExcept _ t).bind
    intro parts u hparts
    obtain ⟨hparts, rfl⟩ := gives_ofExcept.mp hparts
    refine JournalsAt.bind (journalsAt_make rfl rfl ?_) fun a v _ => journals_pure _ v
    exact ⟨hfind, declaring, hdeclaring, hn, node, hparts⟩

theorem journals_noteMember (Γ : Scope) (row : Expr) (name : String) (type : DataType) :
    Journals model (expandMember model Γ row name type) (noteMember model Γ row name type) := by
  unfold expandMember noteMember
  dsimp only
  cases hdeclaring : row.type.entityName?.bind model.entity? with
  | none => exact journals_pure _
  | some declaring =>
    obtain ⟨entityName, -, hentity⟩ := Option.bind_eq_some_iff.mp hdeclaring
    dsimp only
    cases hn : declaring.navigation? name with
    | none => exact journals_pure _
    | some n =>
      dsimp only
      cases n.cardinality with
      | many => exact journals_ofExcept _
      | one =>
        cases rowKey? Γ row with
        | none => exact journals_pure _
        | some key =>
          exact journals_noteReference (List.mem_of_find?_eq_some hentity)
            (List.mem_of_find?_eq_some hn) _

theorem journals_noteAttach (key : SourceKey) (source : Expr) :
    Journals model (attach key source) (noteAttach key source) :=
  fun _ => journalsAt_make rfl rfl trivial

theorem journals_noteSource (p : Expr × Option SourceKey) :
    Journals model (asSource p) (noteSource p) := by
  obtain ⟨e, key?⟩ := p
  cases key? with
  | none => exact (journals_noteRoot _).bind fun key => journals_pure (e, key)
  | some key => exact journals_pure (e, key)

theorem journals_noteResultKey (name : String) (first : Option SourceKey) (e : Expr) :
    Journals model (resultKey name first e) (noteResultKey name first e) := by
  unfold resultKey noteResultKey
  split
  · exact journals_pure first
  · cases e.type.element? with
    | none => exact journals_pure none
    | some element => exact (journals_noteRoot element).map some

theorem journals_noteRebuild (call : Expr) (name : String) (args : List Expr)
    (first : Option SourceKey) :
    Journals model (rebuild call name args first) (noteRebuild call name args first) := by
  have hfinish : Journals model (rebuild.finish call name args first)
      (noteRebuild.finish call name args first) := by
    unfold rebuild.finish noteRebuild.finish
    refine (journals_ofExcept _).bind fun e => ?_
    exact (journals_noteResultKey name first e).bind fun key => journals_pure (e, key)
  cases args with
  | nil => exact hfinish
  | cons source args =>
    unfold rebuild noteRebuild
    dsimp only
    split
    · exact journals_pure _
    · exact hfinish

theorem journals_traverse {e : Expr} {f : Expr → Step Expr} {g : Expr → Noted Expr}
    (h : ∀ c ∈ e.children, Journals model (f c) (g c)) :
    Journals model (e.traverse fun c _ => f c) (e.traverse fun c _ => g c) := by
  rw [traverse_eq, traverse_eq]
  exact (journals_mapM h).map _

/-- The journal of an expansion has all that it changes, and otherwise does not matter. -/
theorem journals_expand (e : Expr) (Γ : Scope) (bound : Nat → Option SourceKey) :
    Journals model (expand model Γ bound e) (expandNoted model Γ bound e) := by
  induction e using childInduction generalizing Γ bound with
  | step e ih =>
    have htraverse : Journals model
        (e.traverse fun c _ => Prod.fst <$> expand model Γ (fun _ => none) c)
        (e.traverse fun c _ => Prod.fst <$> expandNoted model Γ (fun _ => none) c) :=
      journals_traverse fun c hc => (ih c hc Γ _).map _
    cases e with
    | call m receiver args type =>
      have harg : ∀ a ∈ args, ∀ bound,
          Journals model (expand model Γ bound a) (expandNoted model Γ bound a) :=
        fun a ha bound => ih a (List.mem_append_right _ ha) Γ bound
      rw [expand, expandNoted]
      split
      · -- Noted are the sources, then what is attached to them, and last how the call is rebuilt.
        refine (journals_mapM fun a _ => ?_).bind fun sources => ?_
        · split
          · apply (harg a.1 a.2 _).bind
            intro p
            exact (journals_noteSource p).bind fun source => journals_pure (some source)
          · exact journals_pure none
        refine (journals_mapM fun a _ => ?_).bind fun args' => ?_
        · cases a.1.2 with
          | some source => exact journals_pure source.1
          | none => exact (harg a.1.1.1 a.1.1.2 _).bind fun p => journals_pure p.1
        refine (journals_mapM fun a _ => ?_).bind fun args'' => journals_noteRebuild _ _ _ _
        cases a.2 with
        | some source => exact journals_noteAttach source.2 a.1
        | none => exact journals_pure a.1
      · exact htraverse.bind fun e => journals_pure (e, none)
    | quote inner =>
      rw [expand, expandNoted]
      exact (ih inner List.mem_cons_self Γ bound).bind fun p => journals_pure (Expr.quote p.1, none)
    | lambda params body =>
      rw [expand, expandNoted]
      apply (ih body List.mem_cons_self _ _).bind
      exact fun p => journals_pure (Expr.lambda params p.1, none)
    | member row name type =>
      rw [expand, expandNoted]
      apply (ih row List.mem_cons_self Γ _).bind
      intro p
      exact (journals_noteMember Γ p.1 name type).bind fun e => journals_pure (e, none)
    | _ =>
      rw [expand, expandNoted]
      · exact htraverse.bind fun e => journals_pure (e, none)
      all_goals
        intros
        contradiction

end Journals

/-- The changes that the expansion of a whole query makes, up to its end or its failure. -/
def journal (model : Model) (e : Expr) : List Change :=
  ((expandNoted model [] (fun _ => none) e).run.run ({ state := .fresh }, [])).2.2

/-- What is kept after changes from the start of a query on. -/
def keptAfter (cs : List Change) : Expansion :=
  cs.foldl Expansion.after { state := .fresh }

/-- The journal ends in the state that the expansion of the query leaves, and every change in it may be
made where it is made. -/
theorem becomes_journal (model : Model) (e : Expr) :
    Becomes model { state := .fresh } (journal model e)
      ((expand model [] (fun _ => none) e).run.run { state := .fresh }).2 := by
  have hjournals : Journals model (expand model [] (fun _ => none) e)
      (expandNoted model [] (fun _ => none) e) := journals_expand e [] _
  obtain ⟨cs, hrun, hbecomes⟩ := hjournals { state := .fresh } []
  have hjournal : journal model e = cs := by
    unfold journal
    rw [hrun, List.nil_append]
  rw [hjournal]
  exact hbecomes

end QueryLowering.Pass.Navigation
