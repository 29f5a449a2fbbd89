import Mathlib.Data.List.Induction
import QueryLowering.Proofs.Steps
import QueryLowering.Settings

/-!
Settings under changes. Whatever is set and reset, in whatever order and by whatever names and texts,
the capacity stays in its range, a change that fails does nothing, and one that succeeds touches the
named setting alone. Numbers and flags are read as they are written, so what is shown of a setting can
be set again, and a reset, which sets the text of the default, always succeeds.
-/

namespace QueryLowering

namespace Text.Unsigned

variable {bound acc n : Nat} {c : Char} {cs : List Char}

theorem toNat_of_isDigit (h : c.isDigit = true) : '0'.toNat ≤ c.toNat ∧ c.toNat ≤ '9'.toNat := by
  simp only [Char.isDigit, Bool.and_eq_true, decide_eq_true_eq] at h
  exact h

theorem isBlank_of_isDigit (h : c.isDigit = true) : isBlank c = false := by
  have hnat : 48 ≤ c.toNat ∧ c.toNat ≤ 57 := toNat_of_isDigit h
  simp only [isBlank, blanks, List.contains_eq_mem, decide_eq_false_iff_not, List.mem_cons,
    List.not_mem_nil, or_false]
  omega

theorem digit?_of_isDigit (h : c.isDigit = true) : digit? c = some (c.toNat - '0'.toNat) :=
  if_pos (toNat_of_isDigit h)

theorem le_ofDigitChars (acc : Nat) (cs : List Char) : acc ≤ Nat.ofDigitChars 10 cs acc := by
  induction cs generalizing acc with
  | nil => exact Nat.le_refl acc
  | cons c cs ih =>
    rw [Nat.ofDigitChars_cons]
    exact Nat.le_trans (by omega) (ih _)

/-- Digits are read as the number that they stand for, if it is below the bound. What has been read of
it never exceeds it, so no digit is refused. -/
theorem readDigits_eq_ok (hcs : ∀ c ∈ cs, c.isDigit = true)
    (hbound : Nat.ofDigitChars 10 cs acc < bound) :
    readDigits bound acc cs = .ok (Nat.ofDigitChars 10 cs acc) := by
  induction cs generalizing acc with
  | nil => rfl
  | cons c cs ih =>
    rw [Nat.ofDigitChars_cons, Nat.mul_comm] at hbound ⊢
    have hlt : acc * 10 + (c.toNat - '0'.toNat) < bound :=
      Nat.lt_of_le_of_lt (le_ofDigitChars _ cs) hbound
    simp only [readDigits, digit?_of_isDigit (hcs c List.mem_cons_self), if_pos hlt]
    exact ih (fun d hd => hcs d (List.mem_cons_of_mem _ hd)) hbound

theorem toList_toString (n : Nat) : (toString n).toList = Nat.toDigits 10 n := by
  rw [Nat.toString_eq_repr, Nat.toList_repr]

theorem isDigit_of_mem_toString (h : c ∈ (toString n).toList) : c.isDigit = true := by
  rw [toList_toString] at h
  exact Nat.isDigit_of_mem_toDigits (by decide) (by decide) h

/-- A number is read as it is written. -/
theorem readWord_toString (h : n < wordBound) : readWord (toString n) = .ok n := by
  have hread : readDigits wordBound 0 (toString n).toList = .ok n := by
    rw [readDigits_eq_ok fun c => isDigit_of_mem_toString]
    · rw [toList_toString, Nat.ofDigitChars_ten_toDigits]
    · rwa [toList_toString, Nat.ofDigitChars_ten_toDigits]
  have hplus : '+' ∉ (toString n).toList := fun hmem =>
    absurd (isDigit_of_mem_toString hmem) (by decide)
  unfold readWord Unsigned.read
  split
  · rename_i hnil
    rw [toList_toString] at hnil
    exact absurd hnil Nat.toDigits_ne_nil
  · rename_i heq
    rw [heq] at hplus
    exact absurd List.mem_cons_self hplus
  · rename_i heq
    rw [heq] at hplus
    exact absurd List.mem_cons_self hplus
  · exact hread

theorem trim_toString (n : Nat) : trim (toString n) = toString n := by
  rw [trim, trimChars_eq_self fun c hc => isBlank_of_isDigit (isDigit_of_mem_toString hc),
    String.ofList_toList]

end Text.Unsigned

namespace Setting

/-- The type of what a setting holds. -/
abbrev Holds : Setting → Type
  | cacheCapacity => Nat
  | _ => Bool

/-- Reads what a setting is to hold. -/
def read : (k : Setting) → String → Except Failure k.Holds
  | cacheQueries, text => Settings.readBool cacheQueries text
  | parameterizeLiterals, text => Settings.readBool parameterizeLiterals text
  | profilePasses, text => Settings.readBool profilePasses text
  | cacheCapacity, text => Settings.readCapacity text
  | verifyResult, text => Settings.readBool verifyResult text

/-- Writes what a setting holds. -/
def write : (k : Setting) → k.Holds → String
  | cacheQueries, b | parameterizeLiterals, b | profilePasses, b | verifyResult, b =>
    Settings.boolText b
  | cacheCapacity, n => toString n

/-- May the setting hold the value? -/
def Accepts : (k : Setting) → k.Holds → Prop
  | cacheCapacity, n => Settings.minCapacity ≤ n ∧ n ≤ Settings.maxCapacity
  | _, _ => True

theorem readBool_boolText (k : Setting) (b : Bool) :
    Settings.readBool k (Settings.boolText b) = .ok b := by
  cases b <;> rfl

theorem readCapacity_toString {n : Nat} (h : cacheCapacity.Accepts n) :
    Settings.readCapacity (toString n) = .ok n := by
  have hword : n < Text.Unsigned.wordBound := Nat.lt_of_le_of_lt h.2 (by decide)
  rw [Settings.readCapacity, Text.Unsigned.trim_toString, Text.Unsigned.readWord_toString hword]
  simp only
  rw [if_neg (Nat.not_lt.mpr h.1), if_neg (Nat.not_lt.mpr h.2)]

theorem accepts_of_readCapacity {text : String} {n : Nat} (h : Settings.readCapacity text = .ok n) :
    cacheCapacity.Accepts n := by
  unfold Settings.readCapacity at h
  split at h
  · cases h
  · split at h
    · cases h
    · rename_i hmin
      split at h
      · cases h
      · rename_i hmax
        cases h
        exact ⟨Nat.not_lt.mp hmin, Nat.not_lt.mp hmax⟩

/-- What a setting accepts is read as it is written. -/
theorem read_write {k : Setting} {v : k.Holds} (h : k.Accepts v) : k.read (k.write v) = .ok v := by
  cases k with
  | cacheCapacity =>
    unfold read write
    exact readCapacity_toString h
  | cacheQueries => exact readBool_boolText cacheQueries v
  | parameterizeLiterals => exact readBool_boolText parameterizeLiterals v
  | profilePasses => exact readBool_boolText profilePasses v
  | verifyResult => exact readBool_boolText verifyResult v

theorem accepts_of_read {k : Setting} {text : String} {v : k.Holds} (h : k.read text = .ok v) :
    k.Accepts v := by
  cases k with
  | cacheCapacity =>
    unfold read at h
    exact accepts_of_readCapacity h
  | _ => trivial

theorem ofName_name (k : Setting) : ofName k.name = .ok k := by
  cases k <;> rfl

theorem name_of_ofName {name : String} {k : Setting} (h : ofName name = .ok k) : k.name = name := by
  unfold ofName at h
  split at h
  · rename_i found hfound
    cases h
    simpa using List.find?_some hfound
  · cases h

end Setting

namespace Settings

open StateStep

variable {s s' : Settings} {k : Setting}

/-- What a setting holds. -/
def value (s : Settings) : (k : Setting) → k.Holds
  | .cacheQueries => s.cacheQueries
  | .parameterizeLiterals => s.parameterizeLiterals
  | .profilePasses => s.profilePasses
  | .cacheCapacity => s.cacheCapacity
  | .verifyResult => s.verifyResult

/-- The settings with another value of one. -/
def put (s : Settings) : (k : Setting) → k.Holds → Settings
  | .cacheQueries, b => { s with cacheQueries := b }
  | .parameterizeLiterals, b => { s with parameterizeLiterals := b }
  | .profilePasses, b => { s with profilePasses := b }
  | .cacheCapacity, n => { s with cacheCapacity := n }
  | .verifyResult, b => { s with verifyResult := b }

theorem get_eq_write (s : Settings) (k : Setting) : s.get k = k.write (s.value k) := by
  cases k <;> rfl

theorem set_eq_put (s : Settings) (k : Setting) (text : String) :
    s.set k text = s.put k <$> k.read text := by
  cases k <;> exact (map_eq_pure_bind _ _).symm

@[simp] theorem value_put_self (s : Settings) (k : Setting) (v : k.Holds) :
    (s.put k v).value k = v := by
  cases k <;> rfl

theorem value_put_of_ne {j : Setting} (h : j ≠ k) (v : k.Holds) : (s.put k v).value j = s.value j := by
  cases k <;> cases j <;> first | rfl | exact absurd rfl h

@[simp] theorem put_value (s : Settings) (k : Setting) : s.put k (s.value k) = s := by
  cases k <;> rfl

/-- Reads the text and then lets the setting hold what was read. -/
def assign (k : Setting) (text : String) : StateStep Settings Unit := do
  let v ← StateStep.ofExcept (k.read text)
  modify fun s => s.put k v

/-- A change of the settings. -/
inductive Change where
  | set (name text : String)
  | reset (name : String)
  | resetAll

namespace Change

/-- The name of the setting that is to be changed. -/
def name? : Change → Option String
  | set name _ => some name
  | reset name => some name
  | resetAll => none

/-- Makes the change in place, as `setByName` and `resetByName` do on settings that are stored: what is
assigned before a failure stays assigned. -/
def make : Change → StateStep Settings Unit
  | set name text => do
    let k ← StateStep.ofExcept (Setting.ofName name)
    assign k text
  | reset name => do
    let k ← StateStep.ofExcept (Setting.ofName name)
    assign k (Settings.get {} k)
  | resetAll => MonadStateOf.set defaults

/-- The settings after the change, if it succeeds. -/
def result (s : Settings) : Change → Except Failure Settings
  | set name text => s.setByName name text
  | reset name => s.resetByName name
  | resetAll => .ok defaults

end Change

/-- What is left of settings by a computation of new ones: these, or the old ones if it fails. -/
def committed (s : Settings) : Except Failure Settings → Except Failure Unit × Settings
  | .ok s' => (.ok (), s')
  | .error f => (.error f, s)

theorem run_ofExcept_bind {α : Type} (x : Except Failure α) (f : α → StateStep Settings Unit)
    (s : Settings) : (StateStep.ofExcept x >>= f).run.run s =
      match x with
      | .ok a => (f a).run.run s
      | .error e => (.error e, s) := by
  rw [run_bind]
  cases x <;> rfl

theorem run_assign (s : Settings) (k : Setting) (text : String) :
    (assign k text).run.run s = s.committed (s.set k text) := by
  rw [set_eq_put, assign, run_ofExcept_bind]
  cases k.read text <;> rfl

/-- A change in place ends as the computation of its result does: every text is read, or refused,
before anything is assigned. -/
theorem run_make (s : Settings) (c : Change) : c.make.run.run s = s.committed (c.result s) := by
  cases c with
  | set name text =>
    rw [Change.make, Change.result, setByName, run_ofExcept_bind]
    cases Setting.ofName name with
    | ok k => exact run_assign s k text
    | error f => rfl
  | reset name =>
    rw [Change.make, Change.result, resetByName, run_ofExcept_bind]
    cases Setting.ofName name with
    | ok k => exact run_assign s k _
    | error f => rfl
  | resetAll => rfl

theorem gives_make_iff {c : Change} : c.make.Gives s () s' ↔ c.result s = .ok s' := by
  rw [Gives, run_make]
  constructor
  · intro h
    cases hresult : c.result s with
    | ok t =>
      rw [hresult] at h
      cases h
      rfl
    | error f =>
      rw [hresult] at h
      cases h
  · intro h
    rw [h]
    rfl

theorem set_eq_ok {text : String} (h : s.set k text = .ok s') : ∃ v, k.Accepts v ∧ s' = s.put k v := by
  rw [set_eq_put, map_eq_ok] at h
  obtain ⟨v, hv, rfl⟩ := h
  exact ⟨v, Setting.accepts_of_read hv, rfl⟩

/-- What a change that succeeds has done: it has gone back to the defaults, or it has let the named
setting hold something that it accepts. -/
theorem result_eq_ok {c : Change} (h : c.result s = .ok s') :
    c = .resetAll ∧ s' = defaults ∨
      ∃ (k : Setting) (v : k.Holds), c.name? = some k.name ∧ k.Accepts v ∧ s' = s.put k v := by
  cases c with
  | set name text =>
    obtain ⟨k, hk, hset⟩ := bind_eq_ok.mp h
    obtain ⟨v, hv, rfl⟩ := set_eq_ok hset
    exact .inr ⟨k, v, congrArg some (Setting.name_of_ofName hk).symm, hv, rfl⟩
  | reset name =>
    obtain ⟨k, hk, hset⟩ := bind_eq_ok.mp h
    obtain ⟨v, hv, rfl⟩ := set_eq_ok hset
    exact .inr ⟨k, v, congrArg some (Setting.name_of_ofName hk).symm, hv, rfl⟩
  | resetAll =>
    cases h
    exact .inl ⟨rfl, rfl⟩

/-- A change that fails leaves the settings alone. -/
theorem eq_of_run_make_error {c : Change} {f : Failure} (h : c.make.run.run s = (.error f, s')) :
    s' = s := by
  rw [run_make] at h
  cases hresult : c.result s with
  | ok t =>
    rw [hresult] at h
    cases h
  | error g =>
    rw [hresult] at h
    cases h
    rfl

/-- A change of one setting leaves all others alone. -/
theorem value_of_gives_make {c : Change} {name : String} (hname : c.name? = some name)
    (h : c.make.Gives s () s') (hk : k.name ≠ name) : s'.value k = s.value k := by
  rcases result_eq_ok (gives_make_iff.mp h) with ⟨rfl, -⟩ | ⟨j, v, hj, -, rfl⟩
  · cases hname
  · rw [hname] at hj
    cases hj
    exact value_put_of_ne (fun heq => hk (congrArg Setting.name heq)) v

/-- Every setting holds something that it accepts. -/
def Valid (s : Settings) : Prop := ∀ k : Setting, k.Accepts (s.value k)

theorem valid_defaults : Valid defaults := by
  intro k
  cases k with
  | cacheCapacity => exact ⟨by decide, by decide⟩
  | _ => trivial

theorem Valid.put (h : s.Valid) {v : k.Holds} (hv : k.Accepts v) : (s.put k v).Valid := by
  intro j
  by_cases hj : j = k
  · subst hj
    rwa [value_put_self]
  · rw [value_put_of_ne hj]
    exact h j

/-- A change keeps settings valid, whether it succeeds or not. -/
theorem Valid.make (h : s.Valid) (c : Change) : (c.make.run.run s).2.Valid := by
  rw [run_make]
  cases hresult : c.result s with
  | error f => exact h
  | ok s' =>
    rcases result_eq_ok hresult with ⟨-, rfl⟩ | ⟨k, v, -, hv, rfl⟩
    · exact valid_defaults
    · exact h.put hv

/-- The settings after changes of the defaults, one after the other. -/
def after (changes : List Change) : Settings :=
  changes.foldl (fun s c => (c.make.run.run s).2) defaults

theorem valid_after (changes : List Change) : (after changes).Valid := by
  induction changes using List.reverseRecOn with
  | nil => exact valid_defaults
  | append_singleton changes c ih =>
    rw [after, List.foldl_append]
    exact ih.make c

theorem result_set_name (s : Settings) (k : Setting) (text : String) :
    (Change.set k.name text).result s = s.set k text := by
  rw [Change.result, setByName, Setting.ofName_name]
  rfl

theorem result_reset_name (s : Settings) (k : Setting) :
    (Change.reset k.name).result s = s.set k (defaults.get k) := by
  rw [Change.result, resetByName, Setting.ofName_name]
  rfl

/-- To set a setting to the text of what it may hold succeeds. -/
theorem set_write {v : k.Holds} (hv : k.Accepts v) (s : Settings) :
    s.set k (k.write v) = .ok (s.put k v) := by
  rw [set_eq_put, Setting.read_write hv]
  rfl

/-- After any sequence of changes, successful or not, the capacity is in its range. From there, a
change that fails does nothing, one of a named setting leaves all others alone, to set a setting to its
own text changes nothing, and to reset it brings its default back.

`Change.make` is the in-place form of `setByName` and `resetByName`: it looks up the name and reads the
text, and refuses them if need be, before it assigns. `run_make` ties the two. Whatever the change, it
ends as the computation in `Change.result` does, with the settings that this gives or, if it fails, with
the old ones. -/
theorem settings_after_changes (changes : List Change) :
    (1 ≤ (after changes).cacheCapacity ∧ (after changes).cacheCapacity ≤ 65536) ∧
    (∀ (c : Change) f s', c.make.run.run (after changes) = (.error f, s') → s' = after changes) ∧
    (∀ (c : Change) name s', c.name? = some name → c.make.Gives (after changes) () s' →
      ∀ k : Setting, k.name ≠ name → s'.value k = (after changes).value k) ∧
    (∀ k : Setting, ∃ text, (after changes).getByName k.name = .ok text ∧
      (Change.set k.name text).make.Gives (after changes) () (after changes)) ∧
    ∀ k : Setting, ∃ s', (Change.reset k.name).make.Gives (after changes) () s' ∧
      s'.value k = defaults.value k := by
  have hvalid := valid_after changes
  generalize after changes = s at hvalid
  refine ⟨hvalid .cacheCapacity, fun c f s' h => eq_of_run_make_error h,
    fun c name s' hname h k hk => value_of_gives_make hname h hk, fun k => ?_, fun k => ?_⟩
  · refine ⟨s.get k, ?_, gives_make_iff.mpr ?_⟩
    · rw [getByName, Setting.ofName_name]
      rfl
    · rw [result_set_name, get_eq_write, set_write (hvalid k), put_value]
  · refine ⟨s.put k (defaults.value k), gives_make_iff.mpr ?_, value_put_self s k _⟩
    rw [result_reset_name, get_eq_write, set_write (valid_defaults k)]

/-- The capacity is changed, blanks around the number being ignored, and then out of its range. -/
def resizings : List Change :=
  [.set "query_cache_capacity" " 12 ", .set "query_cache_capacity" "65537"]

theorem settings_after_resizings :
    (after resizings).cacheCapacity = 12 ∧
      (∃ f, (Change.set "query_cache_capacity" "0").make.run.run (after resizings) =
        (.error f, after resizings)) ∧
      ∃ s', (Change.reset "query_cache_capacity").make.Gives (after resizings) () s' ∧
        s'.cacheCapacity = 256 := by
  have hcapacity : after resizings = { cacheCapacity := 12 } := by decide
  obtain ⟨-, hfailed, -, -, hreset⟩ := settings_after_changes resizings
  refine ⟨by rw [hcapacity], ?_, hreset .cacheCapacity⟩
  have hzero : ∃ f s', (Change.set "query_cache_capacity" "0").make.run.run (after resizings) =
      (.error f, s') := by
    rw [hcapacity]
    exact ⟨.internalError "Query cache capacity cannot be less than 1", _, rfl⟩
  obtain ⟨f, s', h⟩ := hzero
  exact ⟨f, by rw [h, hfailed _ f s' h]⟩

end Settings

end QueryLowering
