import Mathlib
import WorkflowLoops.Settings

/-!
# The last accepted change of a setting counts

Settings that are changed in place are a state, and a change that is refused could leave them half
changed. It does not, since every value is read before it is assigned (`run_assign`). So each
setting holds what the latest change to its key that was accepted says, whatever was asked for in between,
and changes to different keys can trade places (`latest_change_counts`).

The texts that are accepted for the number of steps are described apart from the way they are read
(`DenotesLimit`, `parseMaxSteps?_eq_some_iff`).
-/

namespace WorkflowLoops.Settings

/-- A change that is asked for, by key and value. -/
structure Change where
  key : String
  value : String
deriving DecidableEq, Repr

/-- Change one setting in place. -/
def assign (c : Change) : EStateM SettingError Settings Unit :=
  if c.key = "failure-stop" then
    match StopRule.parse c.value with
    | .ok stop => modify fun s => { s with failureStop := stop }
    | .error cause => throw (.unknownStopRule cause)
  else if c.key = "dedup-failure-targets" then
    match parseFlag? c.value with
    | some flag => modify fun s => { s with dedupFailureTargets := flag }
    | none => throw (.invalidValue c.key c.value)
  else if c.key = "max-steps" then
    match parseMaxSteps? c.value with
    | some limit => modify fun s => { s with maxSteps := limit }
    | none => throw (.invalidValue c.key c.value)
  else throw (.unknownKey c.key)

/-- The settings after a change in place, whether it was accepted or refused. -/
def after (s : Settings) (c : Change) : Settings :=
  match (assign c).run s with
  | .ok _ t => t
  | .error _ t => t

/-- The settings after a row of changes, from the default on. -/
def afterAll (cs : List Change) : Settings := cs.foldl after {}

/-- What the caller of a change is told. -/
def outcome (s : Settings) (c : Change) : Except SettingError Unit := (s.set c.key c.value).map fun _ => ()

/-- Whether a change is accepted. It does not matter by which settings (`outcome_eq`). -/
def Change.accepted (c : Change) : Bool := (outcome {} c).isOk

/-- The value of the latest change to a key that was accepted. -/
def latest (key : String) (cs : List Change) : Option String :=
  ((cs.filter fun c => c.key = key ∧ c.accepted).getLast?).map Change.value

/-- Whether a setting holds what the latest accepted change to its key says, or else what it held at
first. -/
def HoldsLatest {α : Type} (key : String) (Says : String → α → Prop) (first : α) (cs : List Change)
    (held : α) : Prop :=
  match latest key cs with
  | some value => Says value held
  | none => held = first

/-- How a change in place ends that is answered in a certain way: one that is accepted leaves the new
settings, and one that is refused leaves the settings as they were. -/
def ended (s : Settings) : Except SettingError Settings → EStateM.Result SettingError Settings Unit
  | .ok t => .ok () t
  | .error err => .error err s

variable {c c' : Change} {cs : List Change}

/-! ## Changes in place -/

/-- A change in place ends as `set` answers it: no field is assigned before a change is refused. -/
theorem run_assign (s : Settings) (c : Change) :
    (assign c).run s = ended s (s.set c.key c.value) := by
  unfold assign set
  split_ifs with hstop hflag hsteps
  · cases StopRule.parse c.value <;> rfl
  · cases parseFlag? c.value <;> rfl
  · cases parseMaxSteps? c.value <;> rfl
  · rfl

/-- What a change makes of each field. -/
theorem after_eq (s : Settings) (c : Change) : s.after c =
    { failureStop :=
        if c.key = "failure-stop" then (StopRule.parse c.value).toOption.getD s.failureStop
        else s.failureStop
      dedupFailureTargets :=
        if c.key = "dedup-failure-targets" then (parseFlag? c.value).getD s.dedupFailureTargets
        else s.dedupFailureTargets
      maxSteps :=
        if c.key = "max-steps" then (parseMaxSteps? c.value).getD s.maxSteps else s.maxSteps } := by
  rw [after, run_assign, set]
  by_cases hstop : c.key = "failure-stop"
  · rw [if_pos hstop]
    cases StopRule.parse c.value <;> simp [ended, hstop, Except.toOption]
  rw [if_neg hstop]
  by_cases hflag : c.key = "dedup-failure-targets"
  · rw [if_pos hflag]
    cases parseFlag? c.value <;> simp [ended, hflag]
  rw [if_neg hflag]
  by_cases hsteps : c.key = "max-steps"
  · rw [if_pos hsteps]
    cases parseMaxSteps? c.value <;> simp [ended, hsteps]
  · simp [ended, hstop, hflag, hsteps]

/-- What the caller is told does not depend on the settings. -/
theorem outcome_eq (s t : Settings) (c : Change) : s.outcome c = t.outcome c := by
  unfold outcome set
  split_ifs
  · cases StopRule.parse c.value <;> rfl
  · cases parseFlag? c.value <;> rfl
  · cases parseMaxSteps? c.value <;> rfl
  · rfl

/-! ## Entries -/

/-- A setting: the key of its changes, the field that holds it, and how its values are read. -/
structure Entry (α : Type) where
  key : String
  held : Settings → α
  read? : String → Option α
  /-- A change to the key assigns what its value says, and no other change touches the field. -/
  held_after : ∀ (s : Settings) (c : Change),
    held (s.after c) = if c.key = key then (read? c.value).getD (held s) else held s
  /-- A change to the key is accepted if its value can be read. -/
  accepted_iff : ∀ c : Change, c.key = key → (c.accepted = true ↔ ∃ a, read? c.value = some a)

/-- Where the routes of a failure end. -/
def stopEntry : Entry StopRule where
  key := "failure-stop"
  held := failureStop
  read? value := (StopRule.parse value).toOption
  held_after s c := by rw [after_eq]
  accepted_iff c hkey := by
    rw [Change.accepted, outcome, set, if_pos hkey]
    cases StopRule.parse c.value <;> simp [Except.map, Except.isOk, Except.toBool, Except.toOption]

/-- Whether repeated routes of a failure are dropped. -/
def dedupEntry : Entry Bool where
  key := "dedup-failure-targets"
  held := dedupFailureTargets
  read? := parseFlag?
  held_after s c := by rw [after_eq]
  accepted_iff c hkey := by
    rw [Change.accepted, outcome, set, hkey, if_neg (by decide), if_pos rfl]
    cases parseFlag? c.value <;> simp [Except.map, Except.isOk, Except.toBool]

/-- How many steps a query may take. -/
def stepsEntry : Entry (Option Nat) where
  key := "max-steps"
  held := maxSteps
  read? := parseMaxSteps?
  held_after s c := by rw [after_eq]
  accepted_iff c hkey := by
    rw [Change.accepted, outcome, set, hkey, if_neg (by decide), if_neg (by decide), if_pos rfl]
    cases parseMaxSteps? c.value <;> simp [Except.map, Except.isOk, Except.toBool]

lemma latest_concat (key : String) (cs : List Change) (c : Change) :
    latest key (cs ++ [c]) = if c.key = key ∧ c.accepted = true then some c.value else latest key cs := by
  rw [latest, List.filter_append, List.filter_singleton]
  by_cases h : c.key = key ∧ c.accepted = true
  · simp [h]
  · simp [h, latest]

lemma afterAll_concat (cs : List Change) (c : Change) : afterAll (cs ++ [c]) = (afterAll cs).after c := by
  rw [afterAll, List.foldl_append]
  rfl

namespace Entry

variable {α : Type} (f : Entry α)

/-- A setting holds what the latest accepted change to its key says. -/
theorem holdsLatest (cs : List Change) :
    HoldsLatest f.key (fun value a => f.read? value = some a) (f.held {}) cs (f.held (afterAll cs)) := by
  induction cs using List.reverseRecOn with
  | nil => rfl
  | append_singleton cs c ih =>
    rw [HoldsLatest, latest_concat, afterAll_concat, f.held_after]
    by_cases hkey : c.key = f.key
    · have haccepted := f.accepted_iff c hkey
      cases hread : f.read? c.value with
      | some a =>
        rw [if_pos ⟨hkey, haccepted.2 ⟨a, hread⟩⟩, if_pos hkey]
        exact hread
      | none =>
        have hrefused : ¬ (c.key = f.key ∧ c.accepted = true) := fun h => by
          obtain ⟨a, ha⟩ := haccepted.1 h.2
          rw [hread] at ha
          cases ha
        rw [if_neg hrefused, if_pos hkey]
        exact ih
    · rw [if_neg fun h => hkey h.1, if_neg hkey]
      exact ih

/-- Changes to different keys leave the same value, whichever of them comes first. -/
theorem held_after_comm (s : Settings) (h : c.key ≠ c'.key) :
    f.held ((s.after c).after c') = f.held ((s.after c').after c) := by
  simp only [f.held_after]
  by_cases hkey : c.key = f.key
  · have hkey' : c'.key ≠ f.key := fun h' => h (hkey.trans h'.symm)
    rw [if_neg hkey', if_pos hkey, if_pos hkey, if_neg hkey']
  · rw [if_neg hkey, if_neg hkey]

end Entry

/-- Changes to different keys can trade places. -/
theorem after_comm (s : Settings) (h : c.key ≠ c'.key) :
    (s.after c).after c' = (s.after c').after c := by
  have hstop := stopEntry.held_after_comm s h
  have hdedup := dedupEntry.held_after_comm s h
  have hsteps := stepsEntry.held_after_comm s h
  generalize (s.after c).after c' = t at hstop hdedup hsteps ⊢
  generalize (s.after c').after c = t' at hstop hdedup hsteps ⊢
  obtain ⟨stop, dedup, steps⟩ := t
  obtain ⟨stop', dedup', steps'⟩ := t'
  obtain rfl : stop = stop' := hstop
  obtain rfl : dedup = dedup' := hdedup
  obtain rfl : steps = steps' := hsteps
  rfl

/-! ## Numbers of steps -/

/-- The number that decimal digits stand for, the last one counting ones. -/
def decimal (digits : List Char) : Nat :=
  Nat.ofDigits 10 (digits.reverse.map fun c => c.toNat - '0'.toNat)

/-- Whether a text stands for a limit on steps: the word for no number, or one or more decimal digits
with at most one plus sign in front of them, whose number fits into 64 bits. -/
def DenotesLimit (text : String) (limit : Option Nat) : Prop :=
  text = "auto" ∧ limit = none ∨
    ∃ digits, (text.toList = digits ∨ text.toList = '+' :: digits) ∧ digits ≠ [] ∧
      (∀ c ∈ digits, '0' ≤ c ∧ c ≤ '9') ∧ decimal digits < 2 ^ 64 ∧ limit = some (decimal digits)

lemma ofDigits_eq_decimal (digits : List Char) : ofDigits digits = decimal digits := by
  induction digits using List.reverseRecOn with
  | nil => rfl
  | append_singleton digits c ih =>
    calc ofDigits (digits ++ [c]) = 10 * ofDigits digits + (c.toNat - '0'.toNat) := by
          rw [ofDigits, List.foldl_append]
          rfl
      _ = (c.toNat - '0'.toNat) + 10 * decimal digits := by rw [ih, Nat.add_comm]
      _ = decimal (digits ++ [c]) := by
          rw [decimal, decimal, List.reverse_concat, List.map_cons, Nat.ofDigits_cons]

lemma all_isDigit_iff (digits : List Char) :
    digits.all Char.isDigit = true ↔ ∀ c ∈ digits, '0' ≤ c ∧ c ≤ '9' := by
  rw [List.all_eq_true]
  refine forall₂_congr fun c _ => ?_
  simp [Char.isDigit, Char.le_def, UInt32.le_iff_toNat_le]

/-- A plus sign in front is dropped, and no digit is one. -/
lemma unsigned_eq_iff {chars digits : List Char} (hdigits : ∀ c ∈ digits, '0' ≤ c ∧ c ≤ '9') :
    unsigned chars = digits ↔ chars = digits ∨ chars = '+' :: digits := by
  unfold unsigned
  split
  · rename_i rest
    constructor
    · rintro rfl
      exact .inr rfl
    · rintro (rfl | h)
      · exact absurd (hdigits '+' List.mem_cons_self).1 (by decide)
      · exact (List.cons.inj h).2
  · rename_i hplus
    exact ⟨.inl, fun h => h.resolve_right fun h => hplus _ h⟩

/-- A number that fits is read from the texts that stand for one. -/
lemma parseCount?_eq_some_iff {text : String} {n : Nat} :
    parseCount? text = some n ↔
      ∃ digits, (text.toList = digits ∨ text.toList = '+' :: digits) ∧ digits ≠ [] ∧
        (∀ c ∈ digits, '0' ≤ c ∧ c ≤ '9') ∧ decimal digits < 2 ^ 64 ∧ n = decimal digits := by
  have hsize : UInt64.size = 2 ^ 64 := rfl
  simp only [parseCount?, Option.ite_none_right_eq_some, Option.some.injEq, all_isDigit_iff,
    ofDigits_eq_decimal, hsize]
  constructor
  · rintro ⟨⟨hne, hdigits, hlt⟩, hn⟩
    exact ⟨unsigned text.toList, (unsigned_eq_iff hdigits).1 rfl, hne, hdigits, hlt, hn.symm⟩
  · rintro ⟨digits, htext, hne, hdigits, hlt, hn⟩
    rw [(unsigned_eq_iff hdigits).2 htext]
    exact ⟨⟨hne, hdigits, hlt⟩, hn.symm⟩

/-- A limit is read from the texts that stand for one. -/
theorem parseMaxSteps?_eq_some_iff {text : String} {limit : Option Nat} :
    parseMaxSteps? text = some limit ↔ DenotesLimit text limit := by
  rw [parseMaxSteps?, DenotesLimit]
  by_cases hauto : text = "auto"
  · -- the word for no number does not start with a digit, nor with a plus sign
    have hword : ∀ digits : List Char, digits ≠ [] → (∀ c ∈ digits, '0' ≤ c ∧ c ≤ '9') →
        ¬ (text.toList = digits ∨ text.toList = '+' :: digits) := by
      subst hauto
      rintro digits - hdigits (h | h)
      · exact absurd (hdigits 'a' (h ▸ by decide)).2 (by decide)
      · exact absurd (List.cons.inj h).1 (by decide)
    rw [if_pos hauto]
    constructor
    · intro h
      exact .inl ⟨hauto, (Option.some.inj h).symm⟩
    · rintro (⟨-, rfl⟩ | ⟨digits, htext, hne, hdigits, -, -⟩)
      · rfl
      · exact absurd htext (hword digits hne hdigits)
  · rw [if_neg hauto, Option.map_eq_some_iff]
    simp only [parseCount?_eq_some_iff]
    constructor
    · rintro ⟨n, ⟨digits, htext, hne, hdigits, hlt, rfl⟩, rfl⟩
      exact .inr ⟨digits, htext, hne, hdigits, hlt, rfl⟩
    · rintro (⟨h, -⟩ | ⟨digits, htext, hne, hdigits, hlt, rfl⟩)
      · exact absurd h hauto
      · exact ⟨_, ⟨digits, htext, hne, hdigits, hlt, rfl⟩, rfl⟩

theorem set_maxSteps_eq_ok_iff {s t : Settings} {value : String} :
    s.set "max-steps" value = .ok t ↔
      ∃ limit, DenotesLimit value limit ∧ t = { s with maxSteps := limit } := by
  rw [set, if_neg (by decide), if_neg (by decide), if_pos rfl]
  simp only [← parseMaxSteps?_eq_some_iff]
  cases parseMaxSteps? value with
  | none => simp
  | some limit => simp [eq_comm]

theorem set_maxSteps_eq_error_iff {s : Settings} {value : String} {err : SettingError} :
    s.set "max-steps" value = .error err ↔
      err = .invalidValue "max-steps" value ∧ ¬ ∃ limit, DenotesLimit value limit := by
  rw [set, if_neg (by decide), if_neg (by decide), if_pos rfl]
  simp only [← parseMaxSteps?_eq_some_iff]
  cases parseMaxSteps? value with
  | none => simp [eq_comm]
  | some limit => simp

/-! ## Runs of changes -/

lemma HoldsLatest.mono {α : Type} {key : String} {Says Says' : String → α → Prop} {first held : α}
    (h : HoldsLatest key Says first cs held) (hmono : ∀ value a, Says value a → Says' value a) :
    HoldsLatest key Says' first cs held := by
  unfold HoldsLatest at h ⊢
  cases hlatest : latest key cs with
  | none =>
    rw [hlatest] at h
    exact h
  | some value =>
    rw [hlatest] at h
    exact hmono value held h

lemma toOption_eq_some_iff {ε α : Type} {x : Except ε α} {a : α} : x.toOption = some a ↔ x = .ok a := by
  cases x <;> simp [Except.toOption]

lemma parseFlag?_eq_some_iff {value : String} {flag : Bool} :
    parseFlag? value = some flag ↔ value = if flag then "true" else "false" := by
  unfold parseFlag?
  split_ifs with htrue hfalse hflag hflag <;> simp_all

/-- A change in place that is refused leaves the settings as they were, and else it leaves those that
`set` answers; which of the two it is does not depend on them. After a row of changes each setting holds
what the latest accepted change to its key says, and changes to different keys can trade places. A number
of steps is accepted if its text stands for a limit, and any other text is refused by name. -/
theorem latest_change_counts :
    (∀ (s : Settings) (c : Change),
      (∀ t, s.set c.key c.value = .ok t → (assign c).run s = .ok () t) ∧
      (∀ err, s.set c.key c.value = .error err → (assign c).run s = .error err s)) ∧
    (∀ (s t : Settings) (c : Change), s.outcome c = t.outcome c) ∧
    (∀ cs : List Change,
      HoldsLatest "failure-stop" (fun value stop => StopRule.parse value = .ok stop)
        .governingDriver cs (afterAll cs).failureStop ∧
      HoldsLatest "dedup-failure-targets" (fun value flag => value = if flag then "true" else "false")
        false cs (afterAll cs).dedupFailureTargets ∧
      HoldsLatest "max-steps" DenotesLimit none cs (afterAll cs).maxSteps) ∧
    (∀ (s : Settings) (c c' : Change), c.key ≠ c'.key → (s.after c).after c' = (s.after c').after c) ∧
    ∀ (s : Settings) (value : String),
      (∀ t, s.set "max-steps" value = .ok t ↔
        ∃ limit, DenotesLimit value limit ∧ t = { s with maxSteps := limit }) ∧
      ∀ err, s.set "max-steps" value = .error err ↔
        err = .invalidValue "max-steps" value ∧ ¬ ∃ limit, DenotesLimit value limit := by
  refine ⟨fun s c => ⟨fun t h => ?_, fun err h => ?_⟩, outcome_eq, fun cs => ⟨?stop, ?dedup, ?steps⟩,
    fun s c c' h => after_comm s h, fun s value => ⟨fun t => set_maxSteps_eq_ok_iff,
      fun err => set_maxSteps_eq_error_iff⟩⟩
  · rw [run_assign, h]
    rfl
  · rw [run_assign, h]
    rfl
  case stop => exact (stopEntry.holdsLatest cs).mono fun value stop => toOption_eq_some_iff.1
  case dedup => exact (dedupEntry.holdsLatest cs).mono fun value flag => parseFlag?_eq_some_iff.1
  case steps => exact (stepsEntry.holdsLatest cs).mono fun value limit => parseMaxSteps?_eq_some_iff.1

/-- Repeated and refused changes to one key and to a key that does not exist, with other keys between
them: a plus sign and zeros in front of a number are accepted, a blank in it is not. -/
theorem latest_change_counts_mixed :
    let cs : List Change :=
      [⟨"max-steps", "12"⟩, ⟨"failure-stop", "sink"⟩, ⟨"max-steps", "+007"⟩, ⟨"max-steps", "1 0"⟩,
        ⟨"colour", "red"⟩, ⟨"dedup-failure-targets", "true"⟩, ⟨"dedup-failure-targets", "yes"⟩]
    (afterAll cs).failureStop = .sink ∧
      (afterAll cs).dedupFailureTargets = true ∧
      (afterAll cs).maxSteps = some 7 ∧
      ((afterAll cs).after ⟨"max-steps", "auto"⟩).after ⟨"failure-stop", "driver"⟩ =
        ((afterAll cs).after ⟨"failure-stop", "driver"⟩).after ⟨"max-steps", "auto"⟩ ∧
      (assign ⟨"max-steps", "1 0"⟩).run (afterAll cs) =
        .error (.invalidValue "max-steps" "1 0") (afterAll cs) := by
  intro cs
  obtain ⟨hrun, -, hlatest, hcomm, -⟩ := latest_change_counts
  obtain ⟨hstop, hdedup, hsteps⟩ := hlatest cs
  have hlatestStop : latest "failure-stop" cs = some "sink" := by
    decide
  have hlatestDedup : latest "dedup-failure-targets" cs = some "true" := by
    decide
  have hlatestSteps : latest "max-steps" cs = some "+007" := by
    decide
  rw [HoldsLatest, hlatestStop] at hstop
  rw [HoldsLatest, hlatestDedup] at hdedup
  rw [HoldsLatest, hlatestSteps] at hsteps
  refine ⟨?_, ?_, ?_, hcomm _ _ _ (by decide), (hrun _ _).2 _ ?_⟩
  · exact Except.ok.inj (hstop.symm.trans (by decide))
  · cases hflag : (afterAll cs).dedupFailureTargets with
    | true => rfl
    | false =>
      rw [hflag] at hdedup
      exact absurd hdedup (by decide)
  · exact Option.some.inj ((parseMaxSteps?_eq_some_iff.2 hsteps).symm.trans (by decide))
  · rfl

end WorkflowLoops.Settings
