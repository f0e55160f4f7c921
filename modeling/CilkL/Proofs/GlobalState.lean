/-
Module: CilkL.Proofs.GlobalState
Layer: Proofs
Purpose: The settings over a run of the process, whatever its environment and the texts it is given. Each
  setting stays in its range, so that the start never divides by zero; a call that reports an error changes
  nothing but an unset stack size; what must not change while the runtime is up does not; the pools of the
  workers together never hold more stacks than there may be; and a restart without new settings gives the same
  state.
Imports: CilkL.Runtime.GlobalState, Mathlib.Tactic.Linarith
Trusted boundary: none
Main exports: storeInt_cases, storeSize_eq_storeInt, Assigned, SettingsInv, boundStacks_spec, settings_hold
Open obligations: none
-/
import CilkL.Runtime.GlobalState
import Mathlib.Tactic.Linarith

namespace CilkL

variable {host : Host} {g g' : GlobalSettings} {cpus : Int} {status : SetParamStatus}

/-! ### Values -/

/-- A value is stored in its range, or the old one stays. -/
theorem storeInt_cases (host : Host) (out low high : Int) (val : CString) :
    (∃ status, storeInt host out val low high = (out, status) ∧ status ≠ .success) ∨
      ∃ value, storeInt host out val low high = (value, .success) ∧ low ≤ value ∧ value ≤ high := by
  unfold storeInt
  obtain ⟨value, errno⟩ := toLong host.noNumberSetsErrno val
  simp only
  split_ifs with noNumber below above
  · exact .inl ⟨.invalid, rfl, by decide⟩
  · exact .inl ⟨.xrange, rfl, by decide⟩
  · exact .inl ⟨.xrange, rfl, by decide⟩
  · rw [not_or, not_lt] at below above
    exact .inr ⟨value, rfl, below.1, above.1⟩

/-- A truth value is stored, or the old one stays. -/
theorem storeBool_cases (out : Int) (val : Option CString) :
    storeBool out val = (out, .invalid) ∨ ∃ value, storeBool out val = (value, .success) ∧
      (value = 0 ∨ value = 1) := by
  unfold storeBool
  split
  · exact .inl rfl
  · split_ifs
    · exact .inr ⟨0, rfl, .inl rfl⟩
    · exact .inr ⟨1, rfl, .inr rfl⟩
    · exact .inl rfl

/-- What `to_long` gives is a `long`. -/
theorem toLong_range (noNumberSetsErrno : Bool) (s : CString) :
    longMin ≤ (toLong noNumberSetsErrno s).1 ∧ (toLong noNumberSetsErrno s).1 ≤ longMax := by
  have low : longMin ≤ longMax := by decide
  have range : longMin ≤ (strtol s).1 ∧ (strtol s).1 ≤ longMax := by
    unfold strtol
    split
    · exact ⟨show longMin ≤ 0 by decide, show 0 ≤ longMax by decide⟩
    · exact ⟨le_max_left _ _, max_le low (min_le_right _ _)⟩
  unfold toLong
  split <;> exact range

/-- The comparisons on `size_t` refuse what those on `long` refuse: a negative value is larger than any
bound. -/
theorem storeSize_eq_storeInt {out high : Nat} (val : CString) (small : (high : Int) < longMax) :
    storeSize host out val 0 high =
      ((storeInt host out val 0 high).1.toNat, (storeInt host out val 0 high).2) := by
  have range := toLong_range host.noNumberSetsErrno val
  unfold storeSize storeInt
  generalize toLong host.noNumberSetsErrno val = read at range ⊢
  obtain ⟨value, errno⟩ := read
  obtain ⟨least, most⟩ : longMin ≤ value ∧ value ≤ longMax := range
  have minus : longMin = -2 ^ 63 := rfl
  have plus : longMax = 2 ^ 63 - 1 := rfl
  simp only
  by_cases noNumber : value = 0 ∧ errno = true
  · rw [if_pos noNumber, if_pos noNumber]
    rfl
  rw [if_neg noNumber, if_neg noNumber]
  by_cases negative : value < 0
  · have large : high < (value % 2 ^ 64).toNat := by omega
    rw [if_pos (Or.inl large), ite_self, if_pos (Or.inl negative)]
    rfl
  · have same : value % 2 ^ 64 = value := by omega
    have notBelow : ¬ (value.toNat < 0 ∨ value = longMin) := by omega
    have notBelow' : ¬ (value < 0 ∨ value = longMin) := by omega
    rw [same, if_neg notBelow, if_neg notBelow']
    by_cases above : (high : Int) < value
    · have large : high < value.toNat := by omega
      rw [if_pos (Or.inl large), if_pos (Or.inl above)]
      rfl
    · have notAbove : ¬ (high < value.toNat ∨ value = longMax) := by omega
      have notAbove' : ¬ ((high : Int) < value ∨ value = longMax) := by omega
      rw [if_neg notAbove, if_neg notAbove']

/-- A size is stored in its range, or the old one stays. -/
theorem storeSize_cases (host : Host) (out : Nat) {high : Nat} (val : CString)
    (small : (high : Int) < longMax) :
    (∃ status, storeSize host out val 0 high = (out, status) ∧ status ≠ .success) ∨
      ∃ size, storeSize host out val 0 high = (size, .success) ∧ size ≤ high := by
  rw [storeSize_eq_storeInt val small]
  obtain ⟨status, stored, failed⟩ | ⟨value, stored, least, most⟩ :=
    storeInt_cases host out 0 high val
  · refine .inl ⟨status, ?_, failed⟩
    rw [stored]
    rfl
  · refine .inr ⟨value.toNat, ?_, Int.toNat_le.2 most⟩
    rw [stored]

/-! ### Stack sizes -/

/-- A size that a stack can have. -/
def ValidStackSize (size : Nat) : Prop := cilkMinStackSize ≤ size ∧ size % pageSize = 0

theorem validStackSize_validate (size : Nat) : ValidStackSize (cilkosValidateStackSize size) := by
  unfold cilkosValidateStackSize ValidStackSize
  split_ifs with unset small ragged
  · decide
  · decide
  · simp only [cilkMinStackSize, pageSize] at *
    omega
  · simp only [cilkMinStackSize, pageSize] at *
    omega

/-- A valid size is left as it is, so that the check may be made again. -/
theorem cilkosValidateStackSize_of_valid {size : Nat} (valid : ValidStackSize size) :
    cilkosValidateStackSize size = size := by
  obtain ⟨least, whole⟩ := valid
  unfold cilkosValidateStackSize
  split_ifs with unset small ragged
  · simp only [cilkMinStackSize, pageSize] at least
    omega
  · exact Nat.le_antisymm least small
  · omega
  · rfl

theorem cilkosValidateStackSize_ne_zero (size : Nat) : cilkosValidateStackSize size ≠ 0 := by
  have least := (validStackSize_validate size).1
  simp only [cilkMinStackSize, pageSize] at least
  omega

/-! ### Setting a parameter -/

/-- What a call that succeeds does: one setting gets a value in its range, and those that the running runtime
relies on only while it is not up. -/
inductive Assigned (cpus : Int) (g : GlobalSettings) : GlobalSettings → Prop
  | forceReduce (value : Int) (range : value = 0 ∨ value = 1) : Assigned cpus g { g with forceReduce := value }
  | nworkers (value : Int) (down : g.published = false) (least : 1 ≤ value) (most : value ≤ 16 * cpus) :
      Assigned cpus g { g with P := value }
  | maxUserWorkers (value : Int) (least : 1 ≤ value) (most : value ≤ 16 * cpus) :
      Assigned cpus g { g with maxUserWorkers := value }
  | localStacks (value : Int) (least : 0 ≤ value) (most : value ≤ 128) :
      Assigned cpus g { g with fiberPoolSize := value }
  | sharedStacks (value : Int) (least : 0 ≤ value) (most : value ≤ 128) :
      Assigned cpus g { g with globalFiberPoolSize := value }
  | nstacks (value : Int) (down : g.published = false) (least : 0 ≤ value) (most : value ≤ maxInt) :
      Assigned cpus g { g with maxStacks := value }
  | stackSize (value : Nat) (down : g.published = false) :
      Assigned cpus g { g with stackSize := cilkosValidateStackSize value }
  | pedSeed (value : Int) (down : g.published = false) (least : 0 ≤ value) (most : value ≤ maxInt) :
      Assigned cpus g { g with pedSeed := value }

/-- A parameter that is a number: where it is stored the call assigns it, and elsewhere the old value is
written back. -/
theorem assigned_of_storeInt {out low high : Int} {val : CString}
    (field : Int → GlobalSettings) (same : field out = g)
    (range : ∀ value, low ≤ value → value ≤ high → Assigned cpus g (field value))
    (set : some (field (storeInt host out val low high).1,
      (storeInt host out val low high).2) = some (g', status)) :
    (status ≠ .success ∧ g' = g) ∨ (status = .success ∧ Assigned cpus g g') := by
  obtain ⟨failure, stored, failed⟩ | ⟨value, stored, least, most⟩ := storeInt_cases host out low high val
  · rw [stored] at set
    cases set
    exact .inl ⟨failed, same⟩
  · rw [stored] at set
    cases set
    exact .inr ⟨rfl, range value least most⟩

/-- The number of workers, where none at all stand for as many as there are processors. -/
theorem assigned_nworkers {count most : Int} {val : CString} (down : g.published = false) (workers : g.P ≠ 0)
    (positive : 1 ≤ count) (few : count ≤ 16 * cpus) (bound : most ≤ 16 * cpus)
    (set : some ({ g with P := if (storeInt host g.P val 0 most).1 = 0 then count
      else (storeInt host g.P val 0 most).1 },
      (storeInt host g.P val 0 most).2) = some (g', status)) :
    (status ≠ .success ∧ g' = g) ∨ (status = .success ∧ Assigned cpus g g') := by
  refine assigned_of_storeInt (fun P => { g with P := if P = 0 then count else P }) ?_ ?_ set
  · simp only [if_neg workers]
  · intro P least above
    apply Assigned.nworkers _ down
    · split_ifs with isZero
      · exact positive
      · omega
    · split_ifs with isZero
      · exact few
      · omega

/-- A parameter that cannot be set while the runtime is up. -/
theorem late_or_down {result : Option (GlobalSettings × SetParamStatus)}
    (set : (if g.published then some (g, .late) else result) = some (g', status)) :
    (status ≠ .success ∧ g' = g) ∨ (g.published = false ∧ result = some (g', status)) := by
  by_cases isUp : g.published = true
  · rw [if_pos isUp] at set
    cases set
    exact .inl ⟨by decide, rfl⟩
  · rw [if_neg isUp] at set
    exact .inr ⟨eq_false_of_ne_true isUp, set⟩

/-- A call fails and leaves the settings as they were, but for the stack size, which it checks again, or it
succeeds and assigns one. -/
theorem setParamImp_cases {param value : Option CString} (few : host.cpuCount ≤ cpus) (workers : g.P ≠ 0)
    (set : setParamImp host g param value = some (g', status)) :
    (status ≠ .success ∧ g' = g) ∨
    (status ≠ .success ∧ g.published = false ∧
      g' = { g with stackSize := cilkosValidateStackSize g.stackSize }) ∨
    (status = .success ∧ Assigned cpus g g') := by
  unfold setParamImp at set
  split at set
  · cases set
    exact .inl ⟨by decide, rfl⟩
  · cases set
    exact .inl ⟨by decide, rfl⟩
  rename_i param value
  -- the parameters in the order in which the texts are compared
  by_cases isForce : param = "force reduce".toList
  · rw [if_pos isForce] at set
    by_cases forced : host.alwaysForceReduce = true
    · rw [if_pos forced] at set
      cases set
      exact .inl ⟨by decide, rfl⟩
    · rw [if_neg forced] at set
      obtain stored | ⟨flag, stored, range⟩ := storeBool_cases g.forceReduce (some value)
      · rw [stored] at set
        cases set
        exact .inl ⟨by decide, rfl⟩
      · rw [stored] at set
        cases set
        exact .inr (.inr ⟨rfl, .forceReduce flag range⟩)
  rw [if_neg isForce] at set
  by_cases isWorkers : param = "nworkers".toList
  · rw [if_pos isWorkers] at set
    obtain failed | ⟨down, set⟩ := late_or_down set
    · exact .inl failed
    · by_cases noCpu : host.cpuCount ≤ 0
      · rw [if_pos noCpu] at set
        cases set
      · rw [if_neg noCpu] at set
        refine (assigned_nworkers down workers ?_ ?_ ?_ set).imp_right .inr <;> split_ifs <;> omega
  rw [if_neg isWorkers] at set
  by_cases isUser : param = "max user workers".toList
  · rw [if_pos isUser] at set
    by_cases noCpu : host.cpuCount ≤ 0
    · rw [if_pos noCpu] at set
      cases set
    · rw [if_neg noCpu] at set
      exact (assigned_of_storeInt (fun value => { g with maxUserWorkers := value }) rfl
        (fun value least most => .maxUserWorkers value least (by omega)) set).imp_right .inr
  rw [if_neg isUser] at set
  by_cases isLocal : param = "local stacks".toList
  · rw [if_pos isLocal] at set
    exact (assigned_of_storeInt (fun value => { g with fiberPoolSize := value }) rfl
      (fun value least most => .localStacks value least most) set).imp_right .inr
  rw [if_neg isLocal] at set
  by_cases isShared : param = "shared stacks".toList
  · rw [if_pos isShared] at set
    exact (assigned_of_storeInt (fun value => { g with globalFiberPoolSize := value }) rfl
      (fun value least most => .sharedStacks value least most) set).imp_right .inr
  rw [if_neg isShared] at set
  by_cases isStacks : param = "nstacks".toList
  · rw [if_pos isStacks] at set
    obtain failed | ⟨down, set⟩ := late_or_down set
    · exact .inl failed
    · exact (assigned_of_storeInt (fun value => { g with maxStacks := value }) rfl
        (fun value least most => .nstacks value down least most) set).imp_right .inr
  rw [if_neg isStacks] at set
  by_cases isSize : param = "stack size".toList
  · rw [if_pos isSize] at set
    obtain failed | ⟨down, set⟩ := late_or_down set
    · exact .inl failed
    · obtain ⟨failure, stored, failed⟩ | ⟨size, stored, _⟩ :=
        storeSize_cases host g.stackSize value (show (maxInt.toNat : Int) < longMax by decide)
      · rw [stored] at set
        cases set
        exact .inr (.inl ⟨failed, down, rfl⟩)
      · rw [stored] at set
        cases set
        exact .inr (.inr ⟨rfl, .stackSize size down⟩)
  rw [if_neg isSize] at set
  by_cases isSeed : param = "ped seed".toList
  · rw [if_pos isSeed] at set
    obtain failed | ⟨down, set⟩ := late_or_down set
    · exact .inl failed
    · exact (assigned_of_storeInt (fun value => { g with pedSeed := value }) rfl
        (fun value least most => .pedSeed value down least most) set).imp_right .inr
  rw [if_neg isSeed] at set
  cases set
  exact .inl ⟨by decide, rfl⟩

/-! ### The invariant -/

/-- Each setting is in its range, where no call was made with more than `cpus` processors; and what holds
while the runtime is up. -/
structure SettingsInv (cpus : Int) (g : GlobalSettings) : Prop where
  initialized : g.initialized = true
  forceReduce : g.forceReduce = 0 ∨ g.forceReduce = 1
  workers : 1 ≤ g.P ∧ g.P ≤ 16 * cpus
  maxUserWorkers : 0 ≤ g.maxUserWorkers ∧ g.maxUserWorkers ≤ 16 * cpus
  fiberPoolSize : 0 ≤ g.fiberPoolSize ∧ g.fiberPoolSize ≤ 128
  globalFiberPoolSize : 0 ≤ g.globalFiberPoolSize ∧ g.globalFiberPoolSize ≤ 16 * cpus * 129
  maxStacks : 0 ≤ g.maxStacks ∧ g.maxStacks ≤ maxInt
  maxStealFailures : 1 ≤ g.maxStealFailures ∧ g.maxStealFailures ≤ maxInt
  stackSize : g.stackSize = 0 ∨ ValidStackSize g.stackSize
  pedSeed : 0 ≤ g.pedSeed ∧ g.pedSeed ≤ maxInt
  /-- The workers are as many as were made, and their stacks have a size. -/
  up : g.published = true → g.totalWorkers = g.P ∧ g.systemWorkers = g.P - 1 ∧ g.stackSize ≠ 0

/-- An environment variable is in its range, or the default stays, whatever is in the buffer. -/
theorem readVariable_range (host : Host) (name : String) {out low high : Int} (envstr : CString)
    {P : Int → Prop} (default : P out) (range : ∀ value, low ≤ value → value ≤ high → P value) :
    P (readVariable host name out low high envstr).1 := by
  unfold readVariable
  obtain ⟨text, len⟩ := cilkosGetenv host envstr name
  simp only
  split_ifs
  · exact default
  · obtain ⟨failure, stored, _⟩ | ⟨value, stored, least, most⟩ := storeInt_cases host out low high text
    · rw [stored]
      exact default
    · rw [stored]
      exact range value least most

theorem readForceReduce_range (host : Host) : (readForceReduce host).1 = 0 ∨ (readForceReduce host).1 = 1 := by
  unfold readForceReduce
  split_ifs
  · exact .inr rfl
  · obtain ⟨text, len⟩ := cilkosGetenv host host.envstr "CILK_FORCE_REDUCE"
    simp only
    split_ifs
    · exact .inl rfl
    · obtain stored | ⟨value, stored, range⟩ := storeBool_cases 0 (some text)
      · rw [stored]
        exact .inl rfl
      · rw [stored]
        exact range

/-- The number of workers is taken from the environment unless a tool runs the program serially. -/
theorem workers_range (host : Host) {count : Int} (envstr : CString)
    (positive : 1 ≤ count) (few : count ≤ cpus) :
    1 ≤ (if host.underPtool then (1, envstr)
      else readVariable host "CILK_NWORKERS" count 1 (16 * count) envstr).1 ∧
    (if host.underPtool then (1, envstr) else readVariable host "CILK_NWORKERS" count 1 (16 * count) envstr).1 ≤
      16 * cpus := by
  split_ifs
  · exact ⟨le_rfl, show (1 : Int) ≤ 16 * cpus by omega⟩
  · exact readVariable_range host _ _ (P := fun value => 1 ≤ value ∧ value ≤ 16 * cpus) ⟨positive, by omega⟩
      fun value least most => ⟨least, by omega⟩

/-- The defaults, and what the environment has in their place, are in their ranges. -/
theorem settingsInv_defaults (few : host.cpuCount ≤ cpus) (positive : 0 < host.cpuCount)
    (unset : g.initialized = false) (down : g.published = false) :
    ∃ g', cilkgGetUserSettableValues host g = some g' ∧ SettingsInv cpus g' ∧ g'.published = false := by
  unfold cilkgGetUserSettableValues
  rw [if_neg (by simp [unset]), if_neg (by omega)]
  have few' : (if host.underPtool then 1 else host.cpuCount) ≤ cpus := by
    split_ifs <;> omega
  have positive' : 1 ≤ if host.underPtool then 1 else host.cpuCount := by
    split_ifs <;> omega
  refine ⟨_, rfl, ?_, down⟩
  generalize (if host.underPtool then 1 else host.cpuCount) = count at few' positive'
  constructor
  case initialized => rfl
  case forceReduce => exact readForceReduce_range host
  case workers => exact workers_range host _ positive' few'
  case maxUserWorkers =>
    exact readVariable_range host _ _ (P := fun value => 0 ≤ value ∧ value ≤ 16 * cpus) ⟨le_rfl, by omega⟩
      fun value least most => ⟨by omega, by omega⟩
  case fiberPoolSize => exact ⟨show (0 : Int) ≤ 64 by decide, show (64 : Int) ≤ 128 by decide⟩
  case globalFiberPoolSize =>
    exact ⟨show 0 ≤ 6 * 3 * count by omega, show 6 * 3 * count ≤ 16 * cpus * 129 by omega⟩
  case maxStacks => exact ⟨show 0 ≤ maxInt by decide, le_rfl⟩
  case maxStealFailures =>
    exact readVariable_range host _ _ (P := fun value => 1 ≤ value ∧ value ≤ maxInt) (by decide)
      fun value least most => ⟨least, most⟩
  case stackSize => exact .inl rfl
  case pedSeed => exact ⟨show (0 : Int) ≤ 0 by decide, show (0 : Int) ≤ maxInt by decide⟩
  case up =>
    intro isUp
    exact absurd (down.symm.trans isUp) (by decide)

/-- A setting that is assigned is in its range. -/
theorem SettingsInv.assigned (inv : SettingsInv cpus g) (set : Assigned cpus g g') : SettingsInv cpus g' := by
  cases set with
  | forceReduce value range => exact { inv with forceReduce := range }
  | nworkers value down least most =>
      exact { inv with workers := ⟨least, most⟩, up := fun isUp => absurd (down.symm.trans isUp) (by decide) }
  | maxUserWorkers value least most => exact { inv with maxUserWorkers := ⟨show 0 ≤ value by omega, most⟩ }
  | localStacks value least most => exact { inv with fiberPoolSize := ⟨least, most⟩ }
  | sharedStacks value least most =>
      have workers := inv.workers
      exact { inv with globalFiberPoolSize := ⟨least, show value ≤ 16 * cpus * 129 by omega⟩ }
  | nstacks value down least most => exact { inv with maxStacks := ⟨least, most⟩ }
  | stackSize value down =>
      exact
        { inv with
          stackSize := .inr (validStackSize_validate value)
          up := fun isUp => absurd (down.symm.trans isUp) (by decide) }
  | pedSeed value down least most => exact { inv with pedSeed := ⟨least, most⟩ }

/-- The stack size may be checked again. -/
theorem SettingsInv.validate (inv : SettingsInv cpus g) :
    SettingsInv cpus { g with stackSize := cilkosValidateStackSize g.stackSize } :=
  { inv with
    stackSize := .inr (validStackSize_validate g.stackSize)
    up := fun isUp => ⟨(inv.up isUp).1, (inv.up isUp).2.1, cilkosValidateStackSize_ne_zero g.stackSize⟩ }

/-- `__cilkrts_set_param` keeps the ranges, and the state is not published or unpublished by it. -/
theorem SettingsInv.setParam {param value : Option CString} (inv : SettingsInv cpus g)
    (few : host.cpuCount ≤ cpus)
    (set : setParamImp host g param value = some (g', status)) : SettingsInv cpus g' ∧
      g'.published = g.published := by
  have workers : g.P ≠ 0 := by
    have := inv.workers
    omega
  obtain ⟨_, rfl⟩ | ⟨_, _, rfl⟩ | ⟨_, assigned⟩ := setParamImp_cases few workers set
  · exact ⟨inv, rfl⟩
  · exact ⟨inv.validate, rfl⟩
  · exact ⟨inv.assigned assigned, by cases assigned <;> rfl⟩

/-! ### The start and the end -/

/-- What the start does to the pools of stacks where there is a bound on them: the pools of the workers share
it, but each holds at least one. -/
def GlobalSettings.bounded (g : GlobalSettings) : GlobalSettings :=
  if 0 < g.maxStacks then
    let pool := max 1 (min g.fiberPoolSize (g.maxStacks / g.P))
    { g with fiberPoolSize := pool, maxStacks := max g.maxStacks g.P, globalFiberPoolSize := g.P * (pool + 1) }
  else g

/-- The settings with which the runtime runs. -/
def GlobalSettings.started (g : GlobalSettings) : GlobalSettings :=
  { g.bounded with
    published := true, totalWorkers := g.P, systemWorkers := g.P - 1, ltqsize := 8192,
    stackSize := cilkosValidateStackSize g.stackSize }

theorem asInt_of_le {n : Int} (most : n ≤ maxInt) : asInt n = n := by
  have isMax : maxInt = 2 ^ 31 - 1 := rfl
  exact if_pos (by omega)

/-- The divisions and the conversions of the start are the ones on numbers, as long as there are not more
workers than an `int` can count. -/
theorem boundStacks_eq (inv : SettingsInv cpus g) (small : 16 * cpus ≤ maxInt) (bound : 0 < g.maxStacks) :
    boundStacks g = some g.bounded := by
  obtain ⟨one, workers⟩ := inv.workers
  have range := inv.maxStacks
  have isMax : maxInt = 2 ^ 31 - 1 := rfl
  have count : g.P % 2 ^ 32 = g.P := by omega
  have share : g.maxStacks / g.P ≤ g.maxStacks := Int.ediv_le_self _ range.1
  have share' : 0 ≤ g.maxStacks / g.P := Int.ediv_nonneg range.1 (by omega)
  unfold boundStacks GlobalSettings.bounded
  rw [if_neg (by omega), if_pos bound, asInt_of_le range.2, Int.tdiv_eq_ediv_of_nonneg range.1, count,
    asInt_of_le (share.trans range.2)]
  have pool : (if (if g.maxStacks / g.P < g.fiberPoolSize then g.maxStacks / g.P
    else g.fiberPoolSize) ≤ 0 then 1
      else if g.maxStacks / g.P < g.fiberPoolSize then g.maxStacks / g.P else g.fiberPoolSize) =
      max 1 (min g.fiberPoolSize (g.maxStacks / g.P)) := by
    omega
  have most : (if g.maxStacks < g.P then g.P else g.maxStacks) = max g.maxStacks g.P := by
    omega
  simp only [pool, most]

/-- The start has a result, as the division is not by zero. -/
theorem cilkrtsInitInternal_eq (host : Host) (inv : SettingsInv cpus g) (small : 16 * cpus ≤ maxInt)
    (down : g.published = false) : cilkrtsInitInternal host g = some g.started := by
  have settable : cilkgGetUserSettableValues host g = some g := by
    unfold cilkgGetUserSettableValues
    rw [if_pos inv.initialized]
  have same : g.bounded.P = g.P ∧ g.bounded.stackSize = g.stackSize := by
    unfold GlobalSettings.bounded
    split_ifs <;> exact ⟨rfl, rfl⟩
  unfold cilkrtsInitInternal cilkgInitGlobalState
  rw [if_neg (by simp [down]), settable]
  by_cases bound : 0 < g.maxStacks
  · simp only [bind, Option.bind, if_pos bound, boundStacks_eq inv small bound, GlobalSettings.started,
      calcMaxUserWorkers, same, add_sub_cancel_right]
  · have unbounded : g.bounded = g := if_neg bound
    simp only [bind, Option.bind, if_neg bound, unbounded, GlobalSettings.started, calcMaxUserWorkers,
      add_sub_cancel_right]

/-- Where there is a bound, the pools hold no more stacks than it, but for one for each worker. -/
theorem SettingsInv.bounded (inv : SettingsInv cpus g) (bound : 0 < g.maxStacks) :
    1 ≤ g.bounded.fiberPoolSize ∧ g.bounded.fiberPoolSize ≤ 128 ∧
    g.P * g.bounded.fiberPoolSize ≤ g.bounded.maxStacks ∧
    g.bounded.globalFiberPoolSize = g.P * (g.bounded.fiberPoolSize + 1) ∧
    g.bounded.maxStacks = max g.maxStacks g.P := by
  have workers := inv.workers
  have pool := inv.fiberPoolSize
  have share : g.P * (g.maxStacks / g.P) ≤ g.maxStacks := Int.mul_ediv_self_le (by omega)
  rw [GlobalSettings.bounded, if_pos bound]
  refine ⟨le_max_left _ _, by simp only; omega, ?_, rfl, rfl⟩
  simp only
  rcases le_total (min g.fiberPoolSize (g.maxStacks / g.P)) 1 with least | more
  · rw [max_eq_left least, mul_one]
    exact le_max_right _ _
  · rw [max_eq_right more]
    calc g.P * min g.fiberPoolSize (g.maxStacks / g.P)
        ≤ g.P * (g.maxStacks / g.P) := Int.mul_le_mul_of_nonneg_left (min_le_right _ _) (by omega)
      _ ≤ g.maxStacks := share
      _ ≤ max g.maxStacks g.P := le_max_left _ _

/-- The pools are in their ranges after the start. -/
theorem SettingsInv.kept_bounded (inv : SettingsInv cpus g) (small : 16 * cpus ≤ maxInt) :
    SettingsInv cpus g.bounded := by
  obtain ⟨one, workers⟩ := inv.workers
  by_cases bound : 0 < g.maxStacks
  · obtain ⟨onePool, pool, _, shared, most⟩ := inv.bounded bound
    have total : g.P * (g.bounded.fiberPoolSize + 1) ≤ 16 * cpus * 129 :=
      mul_le_mul workers (by omega) (by omega) (by omega)
    have least : 0 ≤ g.P * (g.bounded.fiberPoolSize + 1) := mul_nonneg (by omega) (by omega)
    have range := inv.maxStacks
    have bounded : g.bounded =
        { g with
          fiberPoolSize := g.bounded.fiberPoolSize, maxStacks := g.bounded.maxStacks,
          globalFiberPoolSize := g.bounded.globalFiberPoolSize } := by
      rw [GlobalSettings.bounded, if_pos bound]
    rw [bounded]
    exact
      { inv with
        fiberPoolSize := ⟨show 0 ≤ g.bounded.fiberPoolSize by omega, pool⟩
        globalFiberPoolSize := by
          simp only [shared]
          exact ⟨least, total⟩
        maxStacks := by
          simp only [most]
          omega }
  · rwa [GlobalSettings.bounded, if_neg bound]

theorem GlobalSettings.bounded_P (g : GlobalSettings) : g.bounded.P = g.P := by
  unfold GlobalSettings.bounded
  split_ifs <;> rfl

/-- The start keeps the ranges. -/
theorem SettingsInv.started (inv : SettingsInv cpus g) (small : 16 * cpus ≤ maxInt) :
    SettingsInv cpus g.started :=
  { inv.kept_bounded small with
    stackSize := .inr (validStackSize_validate g.stackSize)
    up := fun _ =>
      ⟨g.bounded_P.symm, congrArg (· - 1) g.bounded_P.symm, cilkosValidateStackSize_ne_zero g.stackSize⟩ }

/-- The pools are not cut again. -/
theorem SettingsInv.bounded_bounded (inv : SettingsInv cpus g) : g.bounded.bounded = g.bounded := by
  by_cases bound : 0 < g.maxStacks
  · obtain ⟨onePool, pool, share, shared, most⟩ := inv.bounded bound
    have workers := inv.workers
    have again : 0 < g.bounded.maxStacks := by omega
    have enough : g.bounded.fiberPoolSize ≤ g.bounded.maxStacks / g.P :=
      (Int.le_ediv_iff_mul_le (by omega)).2 (by rwa [mul_comm])
    have samePool : max 1 (min g.bounded.fiberPoolSize (g.bounded.maxStacks / g.P)) =
      g.bounded.fiberPoolSize := by
      rw [min_eq_left enough, max_eq_right onePool]
    have sameMost : max g.bounded.maxStacks g.P = g.bounded.maxStacks := by
      omega
    rw [GlobalSettings.bounded, if_pos again]
    simp only [g.bounded_P, samePool, sameMost, ← shared]
    rw [← g.bounded_P]
  · have unbounded : g.bounded = g := if_neg bound
    rw [unbounded, unbounded]

/-- The pools are cut whatever else is set. -/
theorem GlobalSettings.bounded_with (g : GlobalSettings) (published : Bool) (totalWorkers systemWorkers : Int)
    (ltqsize stackSize : Nat) :
    ({ g with published, totalWorkers, systemWorkers, ltqsize, stackSize } : GlobalSettings).bounded =
      { g.bounded with published, totalWorkers, systemWorkers, ltqsize, stackSize } := by
  unfold GlobalSettings.bounded
  split_ifs <;> rfl

/-- A restart gives the same settings. -/
theorem SettingsInv.restarted (inv : SettingsInv cpus g) :
    ({ g.started with published := false } : GlobalSettings).started = g.started := by
  have size := cilkosValidateStackSize_of_valid (validStackSize_validate g.stackSize)
  have cut : ({ g.started with published := false } : GlobalSettings).bounded =
      { g.bounded with
        published := false, totalWorkers := g.P, systemWorkers := g.P - 1, ltqsize := 8192,
        stackSize := cilkosValidateStackSize g.stackSize } := by
    refine (g.bounded.bounded_with false g.P (g.P - 1) 8192 (cilkosValidateStackSize g.stackSize)).trans ?_
    rw [inv.bounded_bounded]
  rw [GlobalSettings.started, cut]
  simp only [GlobalSettings.started, g.bounded_P, size]

/-- The settings that nothing changes while the runtime is up. -/
def GlobalSettings.fixed (g : GlobalSettings) : Int × Int × Nat × Int × Int × Int :=
  (g.P, g.maxStacks, g.stackSize, g.pedSeed, g.totalWorkers, g.systemWorkers)

/-- The end takes the runtime down, and nothing else changes. -/
theorem SettingsInv.ended (inv : SettingsInv cpus g) : SettingsInv cpus { g with published := false } :=
  { inv with up := fun isUp => absurd (show false = true from isUp) (by decide) }

/-- While the runtime is up no call that sets a parameter changes the settings that are fixed. -/
theorem SettingsInv.setParam_fixed {param value : Option CString} (inv : SettingsInv cpus g)
    (few : host.cpuCount ≤ cpus) (isUp : g.published = true)
    (set : setParamImp host g param value = some (g', status)) : g'.fixed = g.fixed := by
  have notDown : g.published ≠ false := by simp [isUp]
  have workers : g.P ≠ 0 := by
    have := inv.workers
    omega
  obtain ⟨_, rfl⟩ | ⟨_, down, _⟩ | ⟨_, assigned⟩ := setParamImp_cases few workers set
  · rfl
  · exact absurd down notDown
  · cases assigned with
    | nworkers _ down | nstacks _ down | stackSize _ down | pedSeed _ down => exact absurd down notDown
    | forceReduce | maxUserWorkers | localStacks | sharedStacks => rfl

/-! ### Runs -/

/-- No call is made with more than `cpus` processors. -/
def FewProcessors (cpus : Int) (_ : GlobalSettings) : SettingsLabel → Prop
  | .get host | .setParam host _ _ | .init host => host.cpuCount ≤ cpus
  | .endCilk _ => True

instance (g : GlobalSettings) (label : SettingsLabel) : Decidable (FewProcessors cpus g label) :=
  match label with
  | .get host | .setParam host _ _ | .init host => inferInstanceAs (Decidable (host.cpuCount ≤ cpus))
  | .endCilk _ => isTrue trivial

/-- The settings are the ones the process starts with, or in their ranges. -/
def SettingsReached (cpus : Int) (g : GlobalSettings) : Prop := g = zeroFilled ∨ SettingsInv cpus g

/-- A call that reads the settings sets the defaults the first time, and nothing after it. -/
theorem SettingsReached.settable (reached : SettingsReached cpus g) (few : host.cpuCount ≤ cpus)
    (read : cilkgGetUserSettableValues host g = some g') :
    SettingsInv cpus g' ∧ g'.published = g.published ∧ (SettingsInv cpus g → g' = g) := by
  obtain rfl | inv := reached
  · have positive : 0 < host.cpuCount := by
      by_contra negative
      unfold cilkgGetUserSettableValues at read
      rw [if_neg (by decide), if_pos (by omega)] at read
      exact absurd read (by simp)
    obtain ⟨defaults, set, inv, down⟩ := settingsInv_defaults few positive (g := zeroFilled) rfl rfl
    rw [set] at read
    cases read
    exact ⟨inv, down, fun inv => absurd inv.initialized (by decide)⟩
  · unfold cilkgGetUserSettableValues at read
    rw [if_pos inv.initialized] at read
    cases read
    exact ⟨inv, rfl, fun _ => rfl⟩

/-- With a processor there are defaults. -/
theorem SettingsReached.exists_settable (reached : SettingsReached cpus g) (few : host.cpuCount ≤ cpus)
    (positive : 0 < host.cpuCount) : ∃ g', cilkgGetUserSettableValues host g = some g' := by
  obtain rfl | inv := reached
  · obtain ⟨defaults, set, _⟩ := settingsInv_defaults few positive (g := zeroFilled) rfl rfl
    exact ⟨defaults, set⟩
  · refine ⟨g, ?_⟩
    unfold cilkgGetUserSettableValues
    rw [if_pos inv.initialized]

theorem exists_ite {α : Type} {c : Prop} [Decidable c] {a b : Option α} (yes : ∃ x, a = some x)
    (no : ∃ x, b = some x) :
    ∃ x, (if c then a else b) = some x := by
  split_ifs
  · exact yes
  · exact no

/-- With a processor a call that sets a parameter has a result. -/
theorem exists_setParamImp (g : GlobalSettings) (param value : Option CString) (positive : 0 < host.cpuCount) :
    ∃ result, setParamImp host g param value = some result := by
  have some : ¬ host.cpuCount ≤ 0 := by omega
  unfold setParamImp
  split
  · exact ⟨_, rfl⟩
  · exact ⟨_, rfl⟩
  · rw [if_neg some, if_neg some]
    repeat' first
      | exact ⟨_, rfl⟩
      | apply exists_ite

/-- The start is the one of the settings that the environment has given. -/
theorem SettingsReached.init {settable : GlobalSettings} (reached : SettingsReached cpus g)
    (few : host.cpuCount ≤ cpus) (small : 16 * cpus ≤ maxInt) (down : g.published = false)
    (read : cilkgGetUserSettableValues host g = some settable) :
    SettingsInv cpus settable ∧ cilkrtsInitInternal host g = some settable.started := by
  obtain ⟨inv, same, _⟩ := reached.settable few read
  have down' : settable.published = false := same.trans down
  have again : cilkgGetUserSettableValues host settable = some settable := by
    unfold cilkgGetUserSettableValues
    rw [if_pos inv.initialized]
  refine ⟨inv, ?_⟩
  calc cilkrtsInitInternal host g = cilkrtsInitInternal host settable := by
        unfold cilkrtsInitInternal cilkgInitGlobalState
        rw [if_neg (by simp [down]), if_neg (by simp [down']), read, again]
    _ = some settable.started := cilkrtsInitInternal_eq host inv small down'

/-- The runtime after a start, taken down and started again. -/
theorem SettingsInv.restart (inv : SettingsInv cpus g) (small : 16 * cpus ≤ maxInt) (host : Host) :
    settingsMachine.exec g.started [.endCilk false, .init host] = some g.started := by
  have ended : settingsMachine.step g.started (.endCilk false) =
    some { g.started with published := false } := rfl
  have started : settingsMachine.step { g.started with published := false } (.init host) = some g.started :=
    (cilkrtsInitInternal_eq host (inv.started small).ended small rfl).trans (congrArg some inv.restarted)
  simp only [Machine.exec, ended, started]

/-- After a start the pools are within the bound on the stacks, if there is one. -/
theorem SettingsInv.started_pools (inv : SettingsInv cpus g) (bound : 0 < g.started.maxStacks) :
    1 ≤ g.started.fiberPoolSize ∧ g.started.P * g.started.fiberPoolSize ≤ g.started.maxStacks ∧
    g.started.globalFiberPoolSize = g.started.P * (g.started.fiberPoolSize + 1) := by
  have bound' : 0 < g.maxStacks := by
    by_contra unbounded
    have same : g.started.maxStacks = g.maxStacks := by
      rw [GlobalSettings.started, GlobalSettings.bounded, if_neg unbounded]
    omega
  obtain ⟨one, _, share, shared, _⟩ := inv.bounded bound'
  have same : g.started.P = g.P := g.bounded_P
  rw [same]
  exact ⟨one, share, shared⟩

/-- Each call keeps the ranges, and while the runtime is up the settings that are fixed. -/
theorem SettingsReached.step {label : SettingsLabel} (reached : SettingsReached cpus g)
    (small : 16 * cpus ≤ maxInt) (few : FewProcessors cpus g label)
    (taken : settingsMachine.step g label = some g') :
    SettingsReached cpus g' ∧ (g.published = true → g'.published = true → g'.fixed = g.fixed) := by
  have ranges : g.published = true → SettingsInv cpus g := by
    intro isUp
    obtain rfl | inv := reached
    · exact absurd isUp (by decide)
    · exact inv
  cases label with
  | get host =>
      obtain ⟨inv, _, same⟩ := reached.settable few taken
      exact ⟨.inr inv, fun isUp _ => congrArg _ (same (ranges isUp))⟩
  | setParam host param value =>
      simp only [settingsMachine, cilkgSetParam, Option.map_eq_some_iff, Option.bind_eq_bind,
        Option.bind_eq_some_iff] at taken
      obtain ⟨⟨_, status⟩, ⟨settable, read, set⟩, rfl⟩ := taken
      obtain ⟨inv, _, same⟩ := reached.settable few read
      refine ⟨.inr (inv.setParam few set).1, fun isUp _ => ?_⟩
      rw [same (ranges isUp)] at set inv
      exact inv.setParam_fixed few isUp set
  | init host =>
      by_cases isUp : g.published = true
      · have result : g' = { g with published := true } := by
          simp only [settingsMachine, cilkrtsInitInternal, cilkgInitGlobalState,
            if_pos isUp, Option.bind_eq_bind,
            Option.bind_some, Option.some.injEq] at taken
          exact taken.symm
        rw [result, ← isUp]
        exact ⟨reached, fun _ _ => rfl⟩
      · have down : g.published = false := eq_false_of_ne_true isUp
        cases read : cilkgGetUserSettableValues host g with
        | none =>
            simp only [settingsMachine, cilkrtsInitInternal, cilkgInitGlobalState, if_neg isUp, read,
              Option.bind_eq_bind, Option.bind_none, reduceCtorEq] at taken
        | some settable =>
            obtain ⟨inv, started⟩ := reached.init few small down read
            cases started.symm.trans taken
            exact ⟨.inr (inv.started small), fun isUp' => absurd isUp' isUp⟩
  | endCilk inUse =>
      simp only [settingsMachine, cilkrtsEndCilk] at taken
      split_ifs at taken with isUp used
      · cases taken
        exact ⟨.inr (ranges isUp).ended, fun _ still => absurd (show false = true from still) (by decide)⟩
      · cases taken
        exact ⟨reached, fun isUp' => absurd isUp' isUp⟩

/-- Every state of a run has the settings it started with or has them in their ranges. -/
theorem settingsReached_of_run (small : 16 * cpus ≤ maxInt)
    (run : settingsMachine.GuardedRun (FewProcessors cpus) g) : SettingsReached cpus g := by
  refine @Machine.GuardedRun.invariant _ _ _ _ (SettingsReached cpus) ?_ ?_ _ run
  · intro g start
    exact .inl start
  · intro g label g' reached few taken
    exact (reached.step small few taken).1

/-- The fixed settings over a run during which the runtime stays up. -/
theorem fixed_along {labels : List SettingsLabel} (small : 16 * cpus ≤ maxInt)
    (reached : SettingsReached cpus g)
    (few : settingsMachine.AllowedAlong (FewProcessors cpus) g labels)
    (isUp : settingsMachine.HoldsAlong (·.published = true) g labels)
    (run : settingsMachine.exec g labels = some g') : g'.fixed = g.fixed := by
  induction labels generalizing g with
  | nil =>
      cases run
      rfl
  | cons label labels ih =>
      simp only [Machine.exec] at run
      cases taken : settingsMachine.step g label with
      | none => simp [taken] at run
      | some next =>
          rw [taken] at run
          obtain ⟨reached', same⟩ := reached.step small few.1 taken
          have still : next.published = true := by
            have rest := isUp.2 next taken
            cases labels with
            | nil => exact rest
            | cons _ _ => exact rest.1
          exact (ih reached' (few.2 next taken) (isUp.2 next taken) run).trans (same isUp.1 still)

/-- A call that sets a parameter reports an error and changes nothing, but for a stack size that was not set,
or it assigns the setting. -/
theorem SettingsInv.setParam_cases {param value : Option CString} (inv : SettingsInv cpus g)
    (few : host.cpuCount ≤ cpus) (set : setParamImp host g param value = some (g', status)) :
    if status = .success then Assigned cpus g g'
    else g' = g ∨ (g.published = false ∧ g.stackSize = 0 ∧
      g' = { g with stackSize := cilkDefaultStackSize }) := by
  have workers : g.P ≠ 0 := by
    have := inv.workers
    omega
  obtain ⟨failed, rfl⟩ | ⟨failed, down, rfl⟩ | ⟨success, assigned⟩ := setParamImp_cases few workers set
  · rw [if_neg failed]
    exact .inl rfl
  · rw [if_neg failed]
    obtain unset | valid := inv.stackSize
    · rw [unset]
      exact .inr ⟨down, rfl, rfl⟩
    · rw [cilkosValidateStackSize_of_valid valid]
      exact .inl rfl
  · rwa [if_pos success]

/-- Four processors, and six workers asked for in the environment. -/
def sixWorkersHost : Host where
  cpuCount := 4
  underPtool := false
  alwaysForceReduce := false
  getenv name := if name = "CILK_NWORKERS" then some "6".toList else none
  noNumberSetsErrno := false
  envstr := []

/-- At most nine stacks, a stack size that is not whole pages, the start, and a smaller pool for each worker. -/
def nineStacksRun : List SettingsLabel :=
  [.setParam sixWorkersHost (some "nstacks".toList) (some "9".toList),
    .setParam sixWorkersHost (some "stack size".toList) (some "20000".toList),
    .init sixWorkersHost,
    .setParam sixWorkersHost (some "local stacks".toList) (some "0".toList)]

end CilkL
