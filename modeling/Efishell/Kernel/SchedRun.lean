import Efishell.Kernel.Process

/-!
# Kernel — runs of the scheduler

A run is any sequence of scheduling steps, calls, faults and control requests on any number of
processors, each step one section under `sched_lock`.
-/

namespace Efishell

/-- What happens.  `c` is the processor it happens on. -/
inductive SchedEvent where
  | schedule (c : Nat) (forced : Bool) (now : Nat)
  | stackSwitched (c : Nat)
  | smpStart (c stack : Nat)
  | apMain (c : Nat)
  | create (weight cpu stack : Nat)
  | sleep (c ms now : Nat)
  | exit (c : Nat) (code : Int)
  | fault (c vector ip address : Nat)
  | badReturn (c ip sp : Nat)
  | returnControl (c : Nat)
  | reap (id : Nat)
  | preemptDisable (c : Nat)
  | preemptEnable (c : Nat)
  | mutexTrylock (c m : Nat)
  | mutexLock (c m : Nat)
  | mutexUnlock (c m : Nat)
  | semInit (n count : Nat)
  | semTrywait (n : Nat)
  | semWait (c n : Nat)
  | semPost (n : Nat)
  | processCreate (ring1 : Bool)
  | processCreateFailed (p : ProcessSlot)
  | riefLoaded (p : ProcessSlot)
  | processStart (p : ProcessSlot) (cpu : Option Nat) (stack : Nat)
  | processControl (pid : Nat) (op : Control)
  | processDestroy (p : ProcessSlot)
  | processDestroyed (asDestroyed : Bool)

/-- `process_mutex` keeps these out of the middle of `process_destroy_locked`. -/
def SchedEvent.underProcessMutex : SchedEvent → Bool
  | .processCreate _ | .processCreateFailed _ | .riefLoaded _ | .processStart _ _ _
  | .processControl _ _ | .processDestroy _ => true
  | _ => false

/-- The processor that executes the event, where the event depends on which one it is. -/
def SchedEvent.cpu : SchedEvent → Option Nat
  | .schedule c _ _ | .stackSwitched c | .sleep c _ _ | .exit c _ | .fault c _ _ _
  | .badReturn c _ _ | .returnControl c | .preemptDisable c | .preemptEnable c
  | .mutexTrylock c _ | .mutexLock c _ | .mutexUnlock c _ | .semWait c _ => some c
  | _ => none

/-- What the code outside of the sections ensures: a processor executes nothing before it has come
up, it is started once, and `process_mutex` is held where it has to be. -/
structure SchedState.Enabled (s : SchedState) (e : SchedEvent) : Prop where
  online : ∀ c, e.cpu = some c → (s.cpus c).online = true
  mutex : e.underProcessMutex = true → s.destroying = none
  start : ∀ c stack, e = .smpStart c stack →
    c < s.discovered ∧ (s.cpus c).online = false ∧ (s.cpus c).current = none
  up : ∀ c, e = .apMain c → (s.cpus c).online = false

namespace SchedState

/-- What the section does. -/
def step (s : SchedState) : SchedEvent → SchedState
  | .schedule c forced now => s.kernelSchedule c forced now
  | .stackSwitched c => s.stackSwitched c
  | .smpStart c stack => (s.smpStart c stack).2
  | .apMain c => s.apMain c
  | .create weight cpu stack => (s.kTaskCreate weight cpu stack).2
  | .sleep c ms now => s.kSleep c ms now
  | .exit c code => s.kTaskExit c code
  | .fault c vector ip address => s.userFault c vector ip address
  | .badReturn c ip sp => s.badReturn c ip sp
  | .returnControl c => s.processReturnControl c
  | .reap id => (s.kTaskReap id).2
  | .preemptDisable c => s.kPreemptDisable c
  | .preemptEnable c => s.kPreemptEnable c
  | .mutexTrylock c m => (s.kMutexTrylock c m).2
  | .mutexLock c m => (s.kMutexLock c m).2
  | .mutexUnlock c m => (s.kMutexUnlock c m).2
  | .semInit n count => s.kSemInit n count
  | .semTrywait n => (s.kSemTrywait n).2
  | .semWait c n => (s.kSemWait c n).2
  | .semPost n => s.kSemPost n
  | .processCreate ring1 => (s.processCreateLocked ring1).2
  | .processCreateFailed p => s.processCreateFailed p
  | .riefLoaded p => s.riefLoaded p
  | .processStart p cpu stack => (s.processStartLocked p cpu stack).2
  | .processControl pid op => (s.processControlLocked pid op).2
  | .processDestroy p => (s.processDestroyLocked p).2
  | .processDestroyed asDestroyed => s.processDestroyed asDestroyed

/-- `s'` follows from `s` by events that are enabled. -/
inductive Steps : SchedState → SchedState → Prop where
  | refl (s : SchedState) : Steps s s
  | next {s s' : SchedState} {e : SchedEvent} : Steps s s' → s'.Enabled e → Steps s (s'.step e)

/-- The state after `k_scheduler_init`. -/
def initial (discovered timerHz stack : Nat) : SchedState :=
  ((blank discovered timerHz).kSchedulerInit stack).2

/-- The states that the scheduler of a machine with some number of processors can reach. -/
def Reachable (s : SchedState) : Prop :=
  ∃ discovered timerHz stack, 0 < discovered ∧ stack ≠ 0 ∧
    Steps (initial discovered timerHz stack) s

end SchedState

end Efishell
