import Mathlib.Data.List.Induction
import Simplicity.CommandLine
import Simplicity.Proofs.Dag

/-!
# The order of arguments

A command line that is accepted is a row of settings: flags with a value after them, and switches that
stand alone. Reading it is a left-to-right pass in which the strict profile overwrites limits that a
budget may have been set in, and takes a budget over that may be the one it has brought itself. The place
of a switch does not matter all the same, for turning a switch commutes with setting a value, and turning
it again changes nothing. So all switches can be turned at the end, after the values have been set, and of
these the last one of each kind remains.

Therefore everything can be read off the bare arguments. It helps that no value that is accepted looks
like a flag: wherever the text of a flag stands, it is that flag.
-/

namespace Simplicity.CommandLine

/-- The flags that a value comes after. -/
inductive Flag where
  | program
  | witness
  | sample
  | budget
  deriving DecidableEq

def Flag.name : Flag → String
  | .program => "--program"
  | .witness => "--witness"
  | .sample => "--fixture"
  | .budget => "--budget"

/-- The flags that stand alone. -/
inductive Switch where
  | strict
  | verbose
  /-- Another name for `verbose`. -/
  | brief
  deriving DecidableEq

def Switch.name : Switch → String
  | .strict => "--strict"
  | .verbose => "--verbose"
  | .brief => "-v"

/-- One step of a command line. -/
inductive Setting where
  | given (flag : Flag) (value : String)
  | turned (switch : Switch)
  deriving DecidableEq

/-- The options after a flag and its value. -/
def Flag.set : Flag → String → Options → Except UsageError Options
  | .program, value, options => do
      let bytes ← bytesArgument "--program" value
      return { options with program := some bytes }
  | .witness, value, options => do
      let bytes ← bytesArgument "--witness" value
      return { options with witness := bytes }
  | .sample, value, options =>
      if value = "type-skip" then .ok options.useSample else .error (.unknownSample value)
  | .budget, value, options => do
      let budget ← budgetArgument value
      return { options with limits := options.limits.withBudget budget }

/-- The options after a switch. -/
def Switch.turn : Switch → Options → Options
  | .strict, options => options.makeStrict
  | .verbose, options | .brief, options => { options with verbose := true }

namespace Setting

def arguments : Setting → List String
  | given flag value => [flag.name, value]
  | turned switch => [switch.name]

def apply : Setting → Options → Except UsageError Options
  | given flag value, options => flag.set value options
  | turned switch, options => .ok (switch.turn options)

/-- The flag and the value of a setting that has one. -/
def given? : Setting → Option (Flag × String)
  | given flag value => some (flag, value)
  | turned _ => none

end Setting

/-- The settings as arguments. -/
def written (settings : List Setting) : List String :=
  settings.flatMap Setting.arguments

/-- The flags and values among the settings. -/
def givens (settings : List Setting) : List (Flag × String) :=
  settings.filterMap Setting.given?

/-- The options after flags and values, one after another. -/
def setAll (given : List (Flag × String)) (options : Options) : Except UsageError Options :=
  given.foldlM (fun options (flag, value) => flag.set value options) options

/-- The options after the switches among the settings. -/
def turnAll (settings : List Setting) (options : Options) : Options where
  program := options.program
  witness := options.witness
  limits := if .turned .strict ∈ settings then options.makeStrict.limits else options.limits
  verbose := options.verbose || .turned .verbose ∈ settings || .turned .brief ∈ settings

variable {settings settings' : List Setting} {arguments : List String} {start options : Options}

section Reading

theorem parseFrom_append (setting : Setting) (rest : List String) (options : Options) :
    parseFrom (setting.arguments ++ rest) options = setting.apply options >>= parseFrom rest := by
  cases setting with
  | given flag value =>
      cases flag with
      | program | witness | budget =>
          simp only [Setting.arguments, Setting.apply, Flag.name, Flag.set, List.cons_append,
            List.nil_append, parseFrom, bind_assoc, pure_bind]
      | sample =>
          simp only [Setting.arguments, Setting.apply, Flag.name, Flag.set, List.cons_append,
            List.nil_append, parseFrom]
          split <;> rfl
  | turned switch =>
      cases switch <;>
        simp only [Setting.arguments, Setting.apply, Switch.name, Switch.turn, List.cons_append,
          List.nil_append, parseFrom] <;> rfl

/-- Reading a row of settings applies one after another. -/
theorem parseFrom_written (settings : List Setting) (start : Options) :
    parseFrom (written settings) start =
      settings.foldlM (fun options setting => setting.apply options) start := by
  induction settings generalizing start with
  | nil => rfl
  | cons setting rest ih =>
      rw [written, List.flatMap_cons, parseFrom_append, List.foldlM_cons]
      congr 1
      funext options
      exact ih options

theorem exists_written_append (setting : Setting) {rest : List String}
    (split : ∃ settings, written settings = rest) :
    ∃ settings, written settings = setting.arguments ++ rest := by
  rcases split with ⟨settings, rfl⟩
  exact ⟨setting :: settings, rfl⟩

/-- What is accepted is a row of settings. -/
theorem exists_written_eq (accepted : parseFrom arguments start = .ok options) :
    ∃ settings, written settings = arguments := by
  fun_induction parseFrom arguments start with
  | case1 => exact ⟨[], rfl⟩
  | case2 | case4 | case6 | case8 | case10 | case14 => cases accepted
  | case3 _ value rest ih =>
      rcases exists_ok_of_bind accepted with ⟨bytes, -, accepted⟩
      exact exists_written_append (.given .program value) (ih bytes accepted)
  | case5 _ value rest ih =>
      rcases exists_ok_of_bind accepted with ⟨bytes, -, accepted⟩
      exact exists_written_append (.given .witness value) (ih bytes accepted)
  | case7 _ rest ih => exact exists_written_append (.given .sample "type-skip") (ih accepted)
  | case9 rest _ ih => exact exists_written_append (.turned .strict) (ih accepted)
  | case11 _ value rest ih =>
      rcases exists_ok_of_bind accepted with ⟨budget, -, accepted⟩
      exact exists_written_append (.given .budget value) (ih budget accepted)
  | case12 rest _ ih => exact exists_written_append (.turned .verbose) (ih accepted)
  | case13 rest _ ih => exact exists_written_append (.turned .brief) (ih accepted)

end Reading

section Switches

@[simp]
theorem Options.program_makeStrict (options : Options) : options.makeStrict.program = options.program :=
  rfl

@[simp]
theorem Options.witness_makeStrict (options : Options) : options.makeStrict.witness = options.witness :=
  rfl

@[simp]
theorem Options.verbose_makeStrict (options : Options) : options.makeStrict.verbose = options.verbose :=
  rfl

/-- A budget counts whether it is set before the strict profile or after it. -/
theorem Options.makeStrict_withBudget (options : Options) (budget : Nat) :
    makeStrict { options with limits := options.limits.withBudget budget } =
      { options.makeStrict with limits := options.makeStrict.limits.withBudget budget } := by
  unfold makeStrict
  cases options.limits.costBudget <;> rfl

/-- The budget that a second strict profile takes over is the one that it would have brought. -/
@[simp]
theorem Options.makeStrict_makeStrict (options : Options) :
    options.makeStrict.makeStrict = options.makeStrict := by
  unfold makeStrict
  cases options.limits.costBudget <;> rfl

theorem Flag.set_turn (flag : Flag) (value : String) (switch : Switch) (options : Options) :
    flag.set value (switch.turn options) = (flag.set value options).map switch.turn := by
  cases flag with
  | program =>
      simp only [set]
      cases bytesArgument "--program" value with
      | error => rfl
      | ok bytes => cases switch <;> rfl
  | witness =>
      simp only [set]
      cases bytesArgument "--witness" value with
      | error => rfl
      | ok bytes => cases switch <;> rfl
  | sample =>
      simp only [set]
      split
      · cases switch <;> rfl
      · rfl
  | budget =>
      simp only [set]
      cases budgetArgument value with
      | error => rfl
      | ok budget =>
          cases switch with
          | strict => exact congrArg Except.ok (options.makeStrict_withBudget budget).symm
          | verbose | brief => rfl

theorem setAll_turn (given : List (Flag × String)) (switch : Switch) (options : Options) :
    setAll given (switch.turn options) = (setAll given options).map switch.turn := by
  induction given generalizing options with
  | nil => rfl
  | cons first rest ih =>
      change first.1.set first.2 (switch.turn options) >>= setAll rest =
        (first.1.set first.2 options >>= setAll rest).map switch.turn
      rw [Flag.set_turn]
      cases first.1.set first.2 options with
      | error => rfl
      | ok options => exact ih options

theorem turnAll_turned (switch : Switch) (settings : List Setting) (options : Options) :
    turnAll (.turned switch :: settings) options = turnAll settings (switch.turn options) := by
  cases switch with
  | strict => simp [turnAll, Switch.turn]
  | verbose | brief => simp [turnAll, Switch.turn, Options.makeStrict]

theorem turnAll_nil (options : Options) : turnAll [] options = options := by
  simp [turnAll]

theorem turnAll_given (flag : Flag) (value : String) (settings : List Setting) (options : Options) :
    turnAll (.given flag value :: settings) options = turnAll settings options := by
  simp [turnAll]

/-- Switches can wait until all values have been set. -/
theorem parseFrom_written_eq_turnAll (settings : List Setting) (start : Options) :
    parseFrom (written settings) start = (setAll (givens settings) start).map (turnAll settings) := by
  rw [parseFrom_written]
  induction settings generalizing start with
  | nil => exact congrArg Except.ok (turnAll_nil start).symm
  | cons setting rest ih =>
      rw [List.foldlM_cons]
      cases setting with
      | given flag value =>
          change flag.set value start >>= _ =
            (flag.set value start >>= setAll (givens rest)).map (turnAll (.given flag value :: rest))
          cases flag.set value start with
          | error => rfl
          | ok options =>
              rw [funext (turnAll_given flag value rest)]
              exact ih options
      | turned switch =>
          change List.foldlM _ (switch.turn start) rest = (setAll (givens rest) start).map _
          rw [ih, setAll_turn, funext (turnAll_turned switch rest)]
          cases setAll (givens rest) start <;> rfl

end Switches

section Values

variable {flag : Flag} {value : String} {options' : Options} {given : List (Flag × String)}

/-- What a flag and its value have done if they were accepted. -/
theorem Flag.cases_of_set (accepted : flag.set value options = .ok options') :
    (flag = .program ∧ ∃ bytes, bytesArgument "--program" value = .ok bytes ∧
      options' = { options with program := some bytes }) ∨
    (flag = .witness ∧ ∃ bytes, bytesArgument "--witness" value = .ok bytes ∧
      options' = { options with witness := bytes }) ∨
    (flag = .sample ∧ value = "type-skip" ∧ options' = options.useSample) ∨
    (flag = .budget ∧ ∃ budget, budgetArgument value = .ok budget ∧
      options' = { options with limits := options.limits.withBudget budget }) := by
  cases flag with
  | program =>
      rcases exists_ok_of_bind accepted with ⟨bytes, read, ⟨⟩⟩
      exact .inl ⟨rfl, bytes, read, rfl⟩
  | witness =>
      rcases exists_ok_of_bind accepted with ⟨bytes, read, ⟨⟩⟩
      exact .inr (.inl ⟨rfl, bytes, read, rfl⟩)
  | sample =>
      simp only [set] at accepted
      split at accepted
      · cases accepted
        exact .inr (.inr (.inl ⟨rfl, by assumption, rfl⟩))
      · cases accepted
  | budget =>
      rcases exists_ok_of_bind accepted with ⟨budget, read, ⟨⟩⟩
      exact .inr (.inr (.inr ⟨rfl, budget, read, rfl⟩))

/-- The texts of all flags. -/
def reserved : List String :=
  ["--program", "--witness", "--fixture", "--budget", "--strict", "--verbose", "-v"]

theorem Flag.name_mem_reserved (flag : Flag) : flag.name ∈ reserved := by
  cases flag <;> decide

theorem Switch.name_mem_reserved (switch : Switch) : switch.name ∈ reserved := by
  cases switch <;> decide

theorem Flag.name_ne_name (flag : Flag) (switch : Switch) : flag.name ≠ switch.name := by
  cases flag <;> cases switch <;> decide

theorem bytesArgument_ne_ok {flag : String} {bytes : ByteArray} (member : value ∈ reserved) :
    bytesArgument flag value ≠ .ok bytes := by
  have unread : ∀ text ∈ reserved, (Hex.decode (Text.trim text)).toOption = none := by decide
  intro read
  have none := unread value member
  unfold bytesArgument at read
  split at read
  case h_1 decoded => simp [decoded, Except.toOption] at none
  case h_2 => cases read

theorem budgetArgument_ne_ok {budget : Nat} (member : value ∈ reserved) :
    budgetArgument value ≠ .ok budget := by
  have unread : ∀ text ∈ reserved, (budgetArgument text).toOption = none := by decide
  intro read
  have none := unread value member
  simp [read, Except.toOption] at none

/-- No value that is accepted is the text of a flag. -/
theorem Flag.notMem_reserved_of_set (accepted : flag.set value options = .ok options') :
    value ∉ reserved := by
  intro member
  rcases cases_of_set accepted with
    ⟨-, bytes, read, -⟩ | ⟨-, bytes, read, -⟩ | ⟨-, rfl, -⟩ | ⟨-, budget, read, -⟩
  · exact bytesArgument_ne_ok member read
  · exact bytesArgument_ne_ok member read
  · revert member
    decide
  · exact budgetArgument_ne_ok member read

theorem notMem_reserved_of_setAll (accepted : setAll given start = .ok options) :
    ∀ pair ∈ given, pair.2 ∉ reserved := by
  induction given generalizing start with
  | nil =>
      intro pair member
      cases member
  | cons first rest ih =>
      rcases exists_ok_of_bind accepted with ⟨middle, acceptedFirst, acceptedRest⟩
      intro pair member
      rcases List.mem_cons.mp member with rfl | member
      · exact Flag.notMem_reserved_of_set acceptedFirst
      · exact ih acceptedRest pair member

end Values

section Arguments

/-- The arguments that come right after one of the flags, each with its flag. -/
def followers (flags arguments : List String) : List (String × String) :=
  (arguments.zip arguments.tail).filter (·.1 ∈ flags)

/-- The result is what is read from the last flag and its value, or that of the start if there is none. -/
def Latest {α : Type} (given : List (String × String))
    (read : String → String → Except UsageError α) (start result : α) : Prop :=
  match given.getLast? with
  | none => result = start
  | some (flag, value) => read flag value = .ok result

theorem followers_cons {flags : List String} {argument : String} (other : argument ∉ flags)
    (rest : List String) : followers flags (argument :: rest) = followers flags rest := by
  cases rest with
  | nil => rfl
  | cons next rest => simp [followers, other]

theorem followers_cons_cons {flags : List String} {flag value : String} (member : flag ∈ flags)
    (other : value ∉ flags) (rest : List String) :
    followers flags (flag :: value :: rest) = (flag, value) :: followers flags rest := by
  rw [← followers_cons other rest]
  simp [followers, member]

theorem mem_map_name_iff {flag : Flag} {flags : List Flag} :
    flag.name ∈ flags.map Flag.name ↔ flag ∈ flags := by
  have injective : Function.Injective Flag.name := by
    intro flag flag' same
    cases flag <;> cases flag' <;> first | rfl | exact absurd same (by decide)
  exact List.mem_map_of_injective injective

/-- The values of flags are those that come right after them. -/
theorem followers_written (flags : List Flag)
    (free : ∀ pair ∈ givens settings, pair.2 ∉ reserved) :
    followers (flags.map Flag.name) (written settings) =
      ((givens settings).filter (·.1 ∈ flags)).map fun pair => (pair.1.name, pair.2) := by
  have among : ∀ text, text ∉ reserved → text ∉ flags.map Flag.name := by
    intro text other member
    rcases List.mem_map.mp member with ⟨flag, -, rfl⟩
    exact other flag.name_mem_reserved
  induction settings with
  | nil => rfl
  | cons setting rest ih =>
      cases setting with
      | given flag value =>
          change ∀ pair ∈ (flag, value) :: givens rest, _ at free
          have other := among value (free _ (.head _))
          have ih := ih fun pair member => free pair (.tail _ member)
          change followers _ (flag.name :: value :: written rest) =
            (((flag, value) :: givens rest).filter _).map _
          by_cases member : flag ∈ flags
          · rw [followers_cons_cons (mem_map_name_iff.mpr member) other, ih]
            simp [member]
          · rw [followers_cons (mt mem_map_name_iff.mp member), followers_cons other, ih]
            simp [member]
      | turned switch =>
          change followers _ (switch.name :: written rest) = ((givens rest).filter _).map _
          rw [followers_cons, ih free]
          intro member
          rcases List.mem_map.mp member with ⟨flag, -, same⟩
          exact flag.name_ne_name switch same

/-- A switch is turned exactly if its text is among the arguments. -/
theorem name_mem_written_iff (switch : Switch)
    (free : ∀ pair ∈ givens settings, pair.2 ∉ reserved) :
    switch.name ∈ written settings ↔ .turned switch ∈ settings := by
  rw [written, List.mem_flatMap]
  constructor
  · rintro ⟨setting, member, named⟩
    cases setting with
    | given flag value =>
        rcases List.mem_pair.mp named with same | same
        · exact absurd same.symm (flag.name_ne_name switch)
        · have given : (flag, value) ∈ givens settings := List.mem_filterMap.mpr ⟨_, member, rfl⟩
          exact absurd (same ▸ switch.name_mem_reserved) (free _ given)
    | turned switch' =>
        have same : switch = switch' := by
          cases switch <;> cases switch' <;> first | rfl | exact absurd named (by decide)
        rwa [same]
  · intro member
    exact ⟨_, member, .head _⟩

end Arguments

section Requests

variable {α β : Type} {given : List (Flag × String)}

/-- What no flag changes stays as it is. -/
theorem register_eq_of_setAll (register : Options → α)
    (keeps : ∀ {flag : Flag} {value : String} {options options' : Options},
      flag.set value options = .ok options' → register options' = register options)
    (accepted : setAll given start = .ok options) : register options = register start := by
  induction given generalizing start with
  | nil =>
      cases accepted
      rfl
  | cons first rest ih =>
      rcases exists_ok_of_bind accepted with ⟨middle, acceptedFirst, acceptedRest⟩
      exact (ih acceptedRest).trans (keeps acceptedFirst)

/-- What some of the flags determine, and the others leave alone, is determined by the last of them. -/
theorem latest_of_setAll (register : Options → α) (flags : List Flag)
    {read : String → String → Except UsageError α}
    (sets : ∀ {flag : Flag} {value : String} {options options' : Options},
      flag.set value options = .ok options' →
        if flag ∈ flags then read flag.name value = .ok (register options')
        else register options' = register options)
    (accepted : setAll (givens settings) start = .ok options) :
    Latest (followers (flags.map Flag.name) (written settings)) read
      (register start) (register options) := by
  rw [followers_written flags (notMem_reserved_of_setAll accepted)]
  -- The induction is on the values set so far, the last of which is set last.
  generalize givens settings = given at accepted ⊢
  induction given using List.reverseRecOn generalizing options with
  | nil =>
      cases accepted
      rfl
  | append_singleton given last ih =>
      rw [setAll, List.foldlM_append] at accepted
      rcases exists_ok_of_bind accepted with ⟨middle, acceptedGiven, acceptedLast⟩
      simp only [List.foldlM_cons, List.foldlM_nil, bind_pure] at acceptedLast
      have set := sets acceptedLast
      by_cases member : last.1 ∈ flags
      · rw [if_pos member] at set
        simpa [Latest, member] using set
      · rw [if_neg member] at set
        rw [set]
        simpa [member] using ih acceptedGiven

/-- The bytes that a flag asks for: those of the sample by that name, or those written after it. -/
def bytesAfter (sample : ByteArray) (flag value : String) : Except UsageError ByteArray :=
  if flag = "--fixture" then
    if value = "type-skip" then .ok sample else .error (.unknownSample value)
  else
    bytesArgument flag value

/-- The limits that a budget is set in. -/
def profile (arguments : List String) : Limits :=
  if "--strict" ∈ arguments then .strict else .standard

/-- The options are those that can be read off the arguments without going through them in order. -/
structure Requested (arguments : List String) (options : Options) : Prop where
  limits : Latest (followers ["--budget"] arguments)
    (fun _ value => (budgetArgument value).map (profile arguments).withBudget)
    (profile arguments) options.limits
  program : Latest (followers ["--program", "--fixture"] arguments)
    (fun flag value => (bytesAfter Sample.program flag value).map some) none options.program
  witness : Latest (followers ["--witness", "--fixture"] arguments)
    (bytesAfter Sample.witness) .empty options.witness
  verbose : options.verbose = true ↔ "--verbose" ∈ arguments ∨ "-v" ∈ arguments

theorem bytesAfter_eq_bytesArgument {sample : ByteArray} {flag : String} (other : flag ≠ "--fixture")
    (value : String) : bytesAfter sample flag value = bytesArgument flag value :=
  if_neg other

theorem latest_program (accepted : setAll (givens settings) start = .ok options) :
    Latest (followers ["--program", "--fixture"] (written settings))
      (fun flag value => (bytesAfter Sample.program flag value).map some) start.program
      options.program := by
  refine latest_of_setAll Options.program [.program, .sample] (fun {_ value _ _} set => ?_) accepted
  rcases Flag.cases_of_set set with
    ⟨rfl, bytes, read, rfl⟩ | ⟨rfl, bytes, -, rfl⟩ | ⟨rfl, rfl, rfl⟩ | ⟨rfl, budget, -, rfl⟩
  · change (bytesAfter Sample.program "--program" value).map some = _
    rw [bytesAfter_eq_bytesArgument (by decide), read]
    rfl
  all_goals rfl

theorem latest_witness (accepted : setAll (givens settings) start = .ok options) :
    Latest (followers ["--witness", "--fixture"] (written settings))
      (bytesAfter Sample.witness) start.witness options.witness := by
  refine latest_of_setAll Options.witness [.witness, .sample] (fun {_ value _ _} set => ?_) accepted
  rcases Flag.cases_of_set set with
    ⟨rfl, bytes, -, rfl⟩ | ⟨rfl, bytes, read, rfl⟩ | ⟨rfl, rfl, rfl⟩ | ⟨rfl, budget, -, rfl⟩
  · rfl
  · change bytesAfter Sample.witness "--witness" value = _
    rw [bytesAfter_eq_bytesArgument (by decide), read]
  all_goals rfl

theorem latest_budget (accepted : setAll (givens settings) start = .ok options) :
    Latest (followers ["--budget"] (written settings))
      (fun _ value => (budgetArgument value).map some) start.limits.costBudget
      options.limits.costBudget := by
  refine latest_of_setAll (·.limits.costBudget) [.budget] (fun {_ value _ _} set => ?_) accepted
  rcases Flag.cases_of_set set with
    ⟨rfl, bytes, -, rfl⟩ | ⟨rfl, bytes, -, rfl⟩ | ⟨rfl, rfl, rfl⟩ | ⟨rfl, budget, read, rfl⟩
  · rfl
  · rfl
  · rfl
  · change (budgetArgument value).map some = _
    rw [read]
    rfl

/-- Setting values leaves all limits as they are but the budget. -/
theorem limits_of_setAll (accepted : setAll given start = .ok options) :
    options.limits = { start.limits with costBudget := options.limits.costBudget } := by
  have kept : { options.limits with costBudget := none } = { start.limits with costBudget := none } := by
    refine register_eq_of_setAll (fun options => { options.limits with costBudget := none })
      (fun set => ?_) accepted
    rcases Flag.cases_of_set set with
      ⟨-, bytes, -, rfl⟩ | ⟨-, bytes, -, rfl⟩ | ⟨-, -, rfl⟩ | ⟨-, budget, -, rfl⟩ <;> rfl
  exact congrArg (fun limits => { limits with costBudget := options.limits.costBudget }) kept

theorem verbose_of_setAll (accepted : setAll given start = .ok options) :
    options.verbose = start.verbose := by
  refine register_eq_of_setAll Options.verbose (fun set => ?_) accepted
  rcases Flag.cases_of_set set with
    ⟨-, bytes, -, rfl⟩ | ⟨-, bytes, -, rfl⟩ | ⟨-, -, rfl⟩ | ⟨-, budget, -, rfl⟩ <;> rfl

/-- Under either profile the budget that was set counts, and the one of the profile if none was. -/
theorem limits_turnAll {values : Options}
    (standard : values.limits = { Limits.standard with costBudget := values.limits.costBudget })
    (settings : List Setting) :
    (turnAll settings values).limits =
      let profile := if .turned .strict ∈ settings then Limits.strict else Limits.standard
      values.limits.costBudget.elim profile profile.withBudget := by
  by_cases strict : .turned .strict ∈ settings
  · simp only [turnAll, strict, if_true, Options.makeStrict]
    cases values.limits.costBudget <;> rfl
  · simp only [turnAll, strict, if_false]
    rw [standard]
    cases values.limits.costBudget <;> rfl

theorem Latest.map {given : List (String × String)} {read : String → String → Except UsageError α}
    {start result : α} (latest : Latest given read start result) (f : α → β) :
    Latest given (fun flag value => (read flag value).map f) (f start) (f result) := by
  unfold Latest at latest ⊢
  split at latest
  · rw [latest]
  · simp only [latest]
    rfl

theorem latest_limits {values : Options} (accepted : setAll (givens settings) .initial = .ok values) :
    Latest (followers ["--budget"] (written settings))
      (fun _ value => (budgetArgument value).map (profile (written settings)).withBudget)
      (profile (written settings)) (turnAll settings values).limits := by
  have strict : "--strict" ∈ written settings ↔ _ :=
    name_mem_written_iff .strict (notMem_reserved_of_setAll accepted)
  have composed : ∀ text, ((budgetArgument text).map some).map (fun budget =>
      budget.elim (profile (written settings)) (profile (written settings)).withBudget) =
        (budgetArgument text).map (profile (written settings)).withBudget := by
    intro text
    cases budgetArgument text <;> rfl
  rw [limits_turnAll (limits_of_setAll accepted)]
  simp only [← strict, ← composed]
  exact (latest_budget accepted).map _

theorem exists_setAll_of_parse (accepted : parse (written settings) = .ok options) :
    ∃ values, setAll (givens settings) .initial = .ok values ∧ options = turnAll settings values := by
  rw [parse, parseFrom_written_eq_turnAll] at accepted
  cases set : setAll (givens settings) .initial with
  | error =>
      rw [set] at accepted
      cases accepted
  | ok values =>
      rw [set] at accepted
      cases accepted
      exact ⟨values, rfl, rfl⟩

/-- Everything that a row of settings asks for can be seen in its arguments. -/
theorem requested_of_parse (accepted : parse (written settings) = .ok options) :
    Requested (written settings) options := by
  rcases exists_setAll_of_parse accepted with ⟨values, set, rfl⟩
  have free := notMem_reserved_of_setAll set
  refine ⟨latest_limits set, latest_program set, latest_witness set, ?_⟩
  have verbose : "--verbose" ∈ written settings ↔ _ := name_mem_written_iff .verbose free
  have brief : "-v" ∈ written settings ↔ _ := name_mem_written_iff .brief free
  rw [verbose, brief]
  simp [turnAll, verbose_of_setAll set, Options.initial]

/-- Two rows of settings have the same values in the same order, and the same switches in any place and
any number. -/
structure Rearranged (settings settings' : List Setting) : Prop where
  givens : givens settings = givens settings'
  strict : .turned .strict ∈ settings ↔ .turned .strict ∈ settings'
  verbose : (.turned .verbose ∈ settings ∨ .turned .brief ∈ settings) ↔
    .turned .verbose ∈ settings' ∨ .turned .brief ∈ settings'

theorem parse_written_eq_of_rearranged (rearranged : Rearranged settings settings') :
    parse (written settings) = parse (written settings') := by
  have turned : turnAll settings = turnAll settings' := by
    funext options
    have verbose := rearranged.verbose
    simp only [turnAll, rearranged.strict, Options.mk.injEq, true_and, Bool.or_assoc, ← Bool.decide_or]
    simp only [verbose]
  rw [parse, parse, parseFrom_written_eq_turnAll, parseFrom_written_eq_turnAll, rearranged.givens, turned]

/-- The options that are accepted do not depend on the order in which different kinds of arguments come.
The limits are those of the strict profile or of the standard one, with the last budget that is given;
the program and the witness are the last ones that are given, be it as bytes or as a sample. Every
accepted command line is a row of settings, and moving or repeating its switches changes nothing. -/
theorem parse_independent_of_order (accepted : parse arguments = .ok options) :
    Requested arguments options ∧
    (∃ settings, written settings = arguments) ∧
    ∀ settings settings', written settings = arguments → Rearranged settings settings' →
      parse (written settings') = .ok options := by
  rcases exists_written_eq accepted with ⟨settings, rfl⟩
  refine ⟨requested_of_parse accepted, ⟨settings, rfl⟩, ?_⟩
  intro split settings' same rearranged
  rw [← parse_written_eq_of_rearranged rearranged, same, accepted]

theorem parse_independent_of_order_strictTwice :
    parse ["--strict", "--budget", "5", "--fixture", "type-skip", "--strict", "-v"] =
        .ok ⟨some Sample.program, Sample.witness, Limits.strict.withBudget 5, true⟩ ∧
      parse (written [.given .budget "5", .turned .verbose, .given .sample "type-skip",
        .turned .strict]) =
        .ok ⟨some Sample.program, Sample.witness, Limits.strict.withBudget 5, true⟩ := by
  have accepted : parse ["--strict", "--budget", "5", "--fixture", "type-skip", "--strict", "-v"] =
      .ok ⟨some Sample.program, Sample.witness, Limits.strict.withBudget 5, true⟩ := rfl
  refine ⟨accepted, (parse_independent_of_order accepted).2.2 [.turned .strict, .given .budget "5",
    .given .sample "type-skip", .turned .strict, .turned .brief] _ rfl ?_⟩
  exact ⟨rfl, by decide, by decide⟩

end Requests

end Simplicity.CommandLine
