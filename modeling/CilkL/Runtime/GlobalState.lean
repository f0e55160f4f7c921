/-
Module: CilkL.Runtime.GlobalState
Layer: Runtime
Purpose: The settings in the global state: their defaults and environment variables, `__cilkrts_set_param`
  with its error codes, the start of the runtime, which derives the sizes of the stack pools and the number of
  workers from them, and its end, after which they stay. What the machine answers is part of each label, so
  that it may change between calls. A failed assertion and a division by zero have no result. The debugger's
  and the statistics' fields, the settings of the record log, which is not compiled in, and the wide-character
  copies for Windows are left out; what else the start makes is in the modules of its files.
Imports: CilkL.Library.CText, CilkL.Library.Machine, CilkL.Runtime.Shutdown
Trusted boundary: human-reviewed spec (translated from global_state.cpp, os-unix.c, cilk_api.c, scheduler.c)
Main exports: Host, GlobalSettings, storeBool, storeInt, storeSize, setParamImp, cilkgGetUserSettableValues,
  cilkgInitGlobalState, SettingsLabel, settingsMachine
Open obligations: none
-/
import CilkL.Library.CText
import CilkL.Library.Machine
import CilkL.Runtime.Shutdown

namespace CilkL

/-- A null-terminated string. -/
abbrev CString := List Char

/-- `__cilkrts_set_param_status`. -/
inductive SetParamStatus where
  | success
  | unimp
  | xrange
  | invalid
  | late
deriving DecidableEq, Repr

/-- `INT_MAX`. -/
def maxInt : Int := 2 ^ 31 - 1

/-- What the machine and the environment of the process answer in one call. -/
structure Host where
  /-- `__cilkrts_hardware_cpu_count`. -/
  cpuCount : Int
  /-- `__cilkrts_running_under_sequential_ptool`. -/
  underPtool : Bool
  /-- `always_force_reduce`. -/
  alwaysForceReduce : Bool
  getenv : String → Option CString
  /-- Whether `strtol` sets `errno` where there is no number, which it may. -/
  noNumberSetsErrno : Bool
  /-- What is in the buffer `envstr` before it is written. -/
  envstr : CString

/-! ### Values -/

/-- `to_long`: the value, and whether `errno` is set. -/
def toLong (noNumberSetsErrno : Bool) (s : CString) : Int × Bool :=
  match scanDecimal (skipSpace s) with
  | none => ((strtol s).1, noNumberSetsErrno)
  | some (value, _) => ((strtol s).1, decide (value < longMin ∨ longMax < value))

/-- `store_bool`. -/
def storeBool (out : Int) (val : Option CString) : Int × SetParamStatus :=
  match val with
  | none => (out, .invalid)
  | some val =>
      if val = "false".toList ∨ val = "0".toList then (0, .success)
      else if val = "true".toList ∨ val = "1".toList then (1, .success)
      else (out, .invalid)

/-- `store_int` on `int` and on `unsigned`, which are compared as `long`. -/
def storeInt (host : Host) (out : Int) (val : CString) (low high : Int) : Int × SetParamStatus :=
  let (value, errno) := toLong host.noNumberSetsErrno val
  if value = 0 ∧ errno then (out, .invalid)
  else if value < low ∨ value = longMin then (out, .xrange)
  else if high < value ∨ value = longMax then (out, .xrange)
  else (value, .success)

/-- `store_int` on `size_t`, where the value is converted for the comparisons: a negative one is a large one. -/
def storeSize (host : Host) (out : Nat) (val : CString) (low high : Nat) : Nat × SetParamStatus :=
  let (value, errno) := toLong host.noNumberSetsErrno val
  let size := (value % 2 ^ 64).toNat
  if value = 0 ∧ errno then (out, .invalid)
  else if size < low ∨ value = longMin then (out, .xrange)
  else if high < size ∨ value = longMax then (out, .xrange)
  else (size, .success)

/-- `PAGE`. -/
def pageSize : Nat := 4096

/-- `CILK_MIN_STACK_SIZE`. -/
def cilkMinStackSize : Nat := 4 * pageSize

/-- `CILK_DEFAULT_STACK_SIZE`. -/
def cilkDefaultStackSize : Nat := 0x100000

/-- `cilkos_validate_stack_size`. -/
def cilkosValidateStackSize (size : Nat) : Nat :=
  if size = 0 then cilkDefaultStackSize
  else if size ≤ cilkMinStackSize then cilkMinStackSize
  else if 0 < size % pageSize then pageSize * (1 + size / pageSize)
  else size

/-! ### The defaults -/

/-- What the code below reads and writes of the global state, with the two variables beside it. -/
structure GlobalSettings where
  /-- `cilkg_user_settable_values_initialized`. -/
  initialized : Bool
  /-- `cilkg_singleton_ptr` is set. -/
  published : Bool
  underPtool : Bool
  ioMode : RuntimeIoMode
  forceReduce : Int
  P : Int
  maxUserWorkers : Int
  fiberPoolSize : Int
  globalFiberPoolSize : Int
  /-- `unsigned`. -/
  maxStacks : Int
  /-- `unsigned`. -/
  maxStealFailures : Int
  stackSize : Nat
  pedSeed : Int
  totalWorkers : Int
  systemWorkers : Int
  ltqsize : Nat
deriving DecidableEq, Repr

/-- The global state as it is loaded. -/
def zeroFilled : GlobalSettings where
  initialized := false
  published := false
  underPtool := false
  ioMode := .normal
  forceReduce := 0
  P := 0
  maxUserWorkers := 0
  fiberPoolSize := 0
  globalFiberPoolSize := 0
  maxStacks := 0
  maxStealFailures := 0
  stackSize := 0
  pedSeed := 0
  totalWorkers := 0
  systemWorkers := 0
  ltqsize := 0

/-- `cilkos_getenv` into the buffer of 24 characters, which a longer value leaves as it was; and the result. -/
def cilkosGetenv (host : Host) (envstr : CString) (name : String) : CString × Nat :=
  match host.getenv name with
  | none => ([], 0)
  | some value => if 24 - 1 < value.length then (envstr, value.length + 1) else (value, value.length)

/-- An environment variable for a field, and the buffer after it. A result of `cilkos_getenv` other than 0
says that there is a value, which for one that is too long is what was in the buffer. -/
def readVariable (host : Host) (name : String) (out low high : Int) (envstr : CString) : Int × CString :=
  let (envstr, len) := cilkosGetenv host envstr name
  if len = 0 then (out, envstr) else ((storeInt host out envstr low high).1, envstr)

/-- `CILK_FORCE_REDUCE`, unless a tool forces it. -/
def readForceReduce (host : Host) : Int × CString :=
  if host.alwaysForceReduce then (1, host.envstr)
  else
    let (envstr, len) := cilkosGetenv host host.envstr "CILK_FORCE_REDUCE"
    if len = 0 then (0, envstr) else ((storeBool 0 (some envstr)).1, envstr)

/-- The number of workers and the mode of I/O, where half of the threads would be for I/O. -/
def dedicateCores (P : Int) (ioMode : RuntimeIoMode) : Int × RuntimeIoMode :=
  if ioMode = .dedicatedCore then
    if 1 < P then (P.tdiv 2, ioMode) else (P, .normal)
  else (P, ioMode)

/-- `calc_max_user_workers`, which returns before it looks at the setting. -/
def calcMaxUserWorkers (_ : GlobalSettings) : Int := 1

/-- `cilkg_get_user_settable_values`. -/
def cilkgGetUserSettableValues (host : Host) (g : GlobalSettings) : Option GlobalSettings :=
  if g.initialized then some g
  else if host.cpuCount ≤ 0 then none
  else
    let cpus := if host.underPtool then 1 else host.cpuCount
    let (forceReduce, envstr) := readForceReduce host
    let (P, envstr) :=
      if host.underPtool then (1, envstr) else readVariable host "CILK_NWORKERS" cpus 1 (16 * cpus) envstr
    let (maxUserWorkers, envstr) := readVariable host "CILK_MAX_USER_WORKERS" 0 1 (16 * cpus) envstr
    let (maxStealFailures, _) := readVariable host "CILK_STEAL_FAILURES" 128 1 maxInt envstr
    let (P, ioMode) := dedicateCores P .sharedCore
    let g : GlobalSettings :=
      { zeroFilled with
        initialized := true, published := g.published, underPtool := host.underPtool, ioMode, forceReduce, P,
        maxUserWorkers, fiberPoolSize := 64, globalFiberPoolSize := 6 * 3 * cpus, maxStacks := maxInt,
        maxStealFailures }
    some { g with totalWorkers := g.P + calcMaxUserWorkers g - 1 }

/-! ### Setting a parameter -/

/-- `set_param_imp`. -/
def setParamImp (host : Host) (g : GlobalSettings) (param value : Option CString) :
    Option (GlobalSettings × SetParamStatus) :=
  match param, value with
  | none, _ | _, none => some (g, .invalid)
  | some param, some value =>
      if param = "force reduce".toList then
        if host.alwaysForceReduce then some (g, .late)
        else
          let (forceReduce, status) := storeBool g.forceReduce (some value)
          some ({ g with forceReduce }, status)
      else if param = "nworkers".toList then
        if g.published then some (g, .late)
        else if host.cpuCount ≤ 0 then none
        else
          let cpus := if host.underPtool then 1 else host.cpuCount
          let most := if host.underPtool then 1 else 16 * host.cpuCount
          let (P, status) := storeInt host g.P value 0 most
          some ({ g with P := if P = 0 then cpus else P }, status)
      else if param = "max user workers".toList then
        if host.cpuCount ≤ 0 then none
        else
          let (maxUserWorkers, status) := storeInt host g.maxUserWorkers value 1 (16 * host.cpuCount)
          some ({ g with maxUserWorkers }, status)
      else if param = "local stacks".toList then
        let (fiberPoolSize, status) := storeInt host g.fiberPoolSize value 0 128
        some ({ g with fiberPoolSize }, status)
      else if param = "shared stacks".toList then
        let (globalFiberPoolSize, status) := storeInt host g.globalFiberPoolSize value 0 128
        some ({ g with globalFiberPoolSize }, status)
      else if param = "nstacks".toList then
        if g.published then some (g, .late)
        else
          let (maxStacks, status) := storeInt host g.maxStacks value 0 maxInt
          some ({ g with maxStacks }, status)
      else if param = "stack size".toList then
        if g.published then some (g, .late)
        else
          let (stackSize, status) := storeSize host g.stackSize value 0 maxInt.toNat
          some ({ g with stackSize := cilkosValidateStackSize stackSize }, status)
      else if param = "ped seed".toList then
        if g.published then some (g, .late)
        else
          let (pedSeed, status) := storeInt host g.pedSeed value 0 maxInt
          some ({ g with pedSeed }, status)
      else some (g, .unimp)

/-- `cilkg_set_param`. -/
def cilkgSetParam (host : Host) (g : GlobalSettings) (param value : Option CString) :
    Option (GlobalSettings × SetParamStatus) := do
  let g ← cilkgGetUserSettableValues host g
  setParamImp host g param value

/-! ### The start and the end -/

/-- An `unsigned` as an `int`. -/
def asInt (n : Int) : Int := if n < 2 ^ 31 then n else n - 2 ^ 32

/-- The part of `cilkg_init_global_state` for a bound on the stacks. -/
def boundStacks (g : GlobalSettings) : Option GlobalSettings :=
  if g.P = 0 then none
  else
    let fiberPoolSize :=
      if (asInt g.maxStacks).tdiv g.P < g.fiberPoolSize
        then asInt (g.maxStacks / (g.P % 2 ^ 32)) else g.fiberPoolSize
    let fiberPoolSize := if fiberPoolSize ≤ 0 then 1 else fiberPoolSize
    let maxStacks := if asInt g.maxStacks < g.P then g.P else g.maxStacks
    some { g with fiberPoolSize, maxStacks, globalFiberPoolSize := g.P * (fiberPoolSize + 1) }

/-- `cilkg_init_global_state`. -/
def cilkgInitGlobalState (host : Host) (g : GlobalSettings) : Option GlobalSettings :=
  if g.published then some g
  else do
    let g ← cilkgGetUserSettableValues host g
    let g ← if 0 < g.maxStacks then boundStacks g else some g
    some
      { g with
        totalWorkers := g.P + calcMaxUserWorkers g - 1, systemWorkers := g.P - 1, ltqsize := 8192,
        stackSize := cilkosValidateStackSize g.stackSize }

/-- `__cilkrts_init_internal`, with `cilkg_publish_global_state`. -/
def cilkrtsInitInternal (host : Host) (g : GlobalSettings) : Option GlobalSettings := do
  let g ← cilkgInitGlobalState host g
  some { g with published := true }

/-- `__cilkrts_end_cilk`, with `cilkg_deinit_global_state`; it is a bug to call it while Cilk is in use. -/
def cilkrtsEndCilk (inUse : Bool) (g : GlobalSettings) : Option GlobalSettings :=
  if g.published then
    if inUse then none else some { g with published := false }
  else some g

/-- The calls. -/
inductive SettingsLabel where
  /-- One that reads a setting. -/
  | get (host : Host)
  | setParam (host : Host) (param value : Option CString)
  | init (host : Host)
  | endCilk (inUse : Bool)

/-- The settings over a run of the process. -/
def settingsMachine : Machine GlobalSettings SettingsLabel where
  start g := g = zeroFilled
  step g
    | .get host => cilkgGetUserSettableValues host g
    | .setParam host param value => (cilkgSetParam host g param value).map Prod.fst
    | .init host => cilkrtsInitInternal host g
    | .endCilk inUse => cilkrtsEndCilk inUse g

end CilkL
