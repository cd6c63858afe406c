import Efishell.Kernel.SchedQuiet

/-!
# Kernel — mutexes and semaphores

No wake-up is lost: no task sleeps on a free mutex or on a semaphore that counts something.  Who
holds a mutex and how often a semaphore was posted is read off the history of a run (`History`),
which keeps the state before every step.

* `Synced.step`, `Synced.run`: every section and every run keeps the accounts of the history.
* `no_lost_wakeup`: nobody waits for what is free, and the counts are right.
-/

namespace Efishell

namespace SchedState

variable {s s' : SchedState} {i j : TaskSlot} {c d : Nat} {p q : ProcessSlot}

/-! ### Waking -/

/-- The loop of `wake_object` over some tasks leaves none of them asleep. -/
theorem foldl_wakeObject (o : WaitObject) (l : List TaskSlot) :
    ∀ (s : SchedState) (i : TaskSlot), i ∈ l →
    ¬ (l.foldl (fun s i => if (s.tasks i).state = .blocked ∧ (s.tasks i).waitObject = some o then
      s.taskReady i else s) s).Waits i o := by
  induction l with
  | nil => exact fun _ _ h => absurd h List.not_mem_nil
  | cons j l ih =>
      intro s i hi
      rw [List.foldl_cons]
      rcases List.mem_cons.mp hi with rfl | hi
      · intro hw
        -- nobody falls asleep in the rest of the loop
        have hrest : Quiet 0 none _ _ := Quiet.foldl (fun r : SchedState => r)
          (fun (s : SchedState) (i : TaskSlot) =>
            if (s.tasks i).state = .blocked ∧ (s.tasks i).waitObject = some o then
              s.taskReady i else s)
          (fun r i => by
            split
            · exact .taskReady _ _
            · exact .refl _) l
          (if (s.tasks i).state = .blocked ∧ (s.tasks i).waitObject = some o then
            s.taskReady i else s)
        have hnow := hrest.waits hw
        split at hnow
        · obtain ⟨_, hready⟩ := taskReady_self (s := s) (i := i)
          rw [Waits, hready] at hnow
          cases hnow.1
        · next hne => exact hne hnow
      · exact ih _ i hi

/-- After a wake nobody waits for the object. -/
theorem not_waits_wakeObject (s : SchedState) (o : WaitObject) (i : TaskSlot) :
    ¬ (s.wakeObject o).Waits i o := foldl_wakeObject o _ s i (List.mem_finRange i)

/-! ### Histories -/

/-- The task that gets the mutex `m` in a step. -/
def takes (s : SchedState) (m : Nat) : SchedEvent → Option Nat
  | .mutexTrylock c m' =>
      if m' = m ∧ (s.kMutexTrylock c m').1 = some (.ok ()) then some (s.kTaskId c) else none
  | .mutexLock c m' =>
      if m' = m ∧ (s.kMutexLock c m').1 = some (.ok ()) then some (s.kTaskId c) else none
  | _ => none

/-- The task that gives it back. -/
def gives (s : SchedState) (m : Nat) : SchedEvent → Option Nat
  | .mutexUnlock c m' =>
      if m' = m ∧ (s.kMutexUnlock c m').1 = some (.ok ()) then some (s.kTaskId c) else none
  | _ => none

/-- A wait for the semaphore `n` succeeds. -/
def serves (s : SchedState) (n : Nat) : SchedEvent → Bool
  | .semTrywait n' => decide (n' = n ∧ (s.kSemTrywait n').1 = .ok ())
  | .semWait c n' => decide (n' = n ∧ (s.kSemWait c n').1 = some (.ok ()))
  | _ => false

end SchedState

/-- The section posts the semaphore. -/
def SchedEvent.posts (n : Nat) : SchedEvent → Bool
  | .semPost n' => decide (n' = n)
  | _ => false

/-- The calls of a semaphore other than `k_sem_init`. -/
def SchedEvent.usesSem (n : Nat) : SchedEvent → Bool
  | .semTrywait n' | .semWait _ n' | .semPost n' => decide (n' = n)
  | _ => false

/-- The count the section gives the semaphore, if it does. -/
def SchedEvent.inits (n : Nat) : SchedEvent → Option Nat
  | .semInit n' count => if n' = n then some count else none
  | _ => none

/-- What happened, the last step first, each with the state before it. -/
abbrev History := List (SchedState × SchedEvent)

namespace SchedState

@[simp] theorem setMutex_self (s : SchedState) (m id : Nat) : (s.setMutex m id).mutexes m = id := by
  simp [setMutex]

theorem setMutex_ne (s : SchedState) {m k : Nat} (id : Nat) (h : k ≠ m) :
    (s.setMutex m id).mutexes k = s.mutexes k := by
  simp [setMutex, Function.update_of_ne h]

@[simp] theorem setSemaphore_self (s : SchedState) (n count : Nat) :
    (s.setSemaphore n count).semaphores n = count := by
  simp [setSemaphore]

theorem setSemaphore_ne (s : SchedState) {n k : Nat} (count : Nat) (h : k ≠ n) :
    (s.setSemaphore n count).semaphores k = s.semaphores k := by
  simp [setSemaphore, Function.update_of_ne h]

end SchedState

namespace History

/-- The tasks that have locked `m` and not unlocked it again. -/
def holders (m : Nat) : History → List Nat
  | [] => []
  | (s, e) :: h => (s.takes m e).toList ++ (holders m h).diff (s.gives m e).toList

/-- The count that `k_sem_init` left. -/
def initialCount (n : Nat) : History → Nat
  | [] => 0
  | (_, e) :: h => (e.inits n).getD (initialCount n h)

/-- The posts of the semaphore in a history. -/
def posts (n : Nat) (h : History) : Nat := h.countP fun r => r.2.posts n

/-- The successful waits. -/
def waits (n : Nat) (h : History) : Nat := h.countP fun r => r.1.serves n r.2

theorem posts_cons (n : Nat) (s : SchedState) (e : SchedEvent) (h : History) :
    posts n ((s, e) :: h) = posts n h + if e.posts n then 1 else 0 := List.countP_cons

theorem waits_cons (n : Nat) (s : SchedState) (e : SchedEvent) (h : History) :
    waits n ((s, e) :: h) = waits n h + if s.serves n e then 1 else 0 := List.countP_cons

/-- Every `k_sem_init` comes before the uses of its semaphore. -/
def InitFirst : History → Prop
  | [] => True
  | (_, e) :: h => (∀ n, (e.inits n).isSome → ∀ r ∈ h, r.2.usesSem n = false) ∧ InitFirst h

/-- `s` is reached by the steps of the history. -/
inductive Run (s₀ : SchedState) : History → SchedState → Prop where
  | nil : Run s₀ [] s₀
  | cons {h : History} {s : SchedState} {e : SchedEvent} :
      Run s₀ h s → s.Enabled e → Run s₀ ((s, e) :: h) (s.step e)

/-- A run of the history is one of the scheduler. -/
theorem Run.steps {s₀ s : SchedState} {h : History} (hr : Run s₀ h s) : SchedState.Steps s₀ s := by
  induction hr with
  | nil => exact .refl _
  | cons _ he ih => exact .next ih he

end History

/-! ### The invariant -/

namespace SchedState

open History

variable {s s' : SchedState} {h : History} {e : SchedEvent} {i j : TaskSlot} {c : Nat}

/-- What holds after every history. -/
structure Synced (s : SchedState) (h : History) : Prop where
  /-- The owner and nobody else is between a lock and its unlock. -/
  held : ∀ m, holders m h = if s.mutexes m = 0 then [] else [s.mutexes m]
  mutex : ∀ m, s.mutexes m = 0 → ∀ i, ¬ s.Waits i (.mutex m)
  semaphore : ∀ n, s.semaphores n ≠ 0 → ∀ i, ¬ s.Waits i (.semaphore n)
  used : ∀ n i, s.Waits i (.semaphore n) → ∃ r ∈ h, r.2.usesSem n = true
  count : ∀ n, (∀ r ∈ h, r.1.semaphores n ≠ 0xffffffff) →
    initialCount n h + posts n h = s.semaphores n + waits n h

/-- No mutex is locked or unlocked in the step. -/
structure MutexSilent (s : SchedState) (e : SchedEvent) : Prop where
  noTake : ∀ m, s.takes m e = none
  noGive : ∀ m, s.gives m e = none

/-- No semaphore is initialised, posted or waited for with success. -/
structure SemSilent (s : SchedState) (e : SchedEvent) : Prop where
  noInit : ∀ n, e.inits n = none
  noPost : ∀ n, e.posts n = false
  noWait : ∀ n, s.serves n e = false

/-- A section that is silent on mutexes leaves their holders. -/
theorem MutexSilent.holders (he : s.MutexSilent e) (m : Nat) :
    holders m ((s, e) :: h) = holders m h := by
  rw [History.holders, he.noTake, he.noGive]
  rfl

/-- A section that is silent on semaphores leaves their counts. -/
theorem SemSilent.count (he : s.SemSilent e) (hs : s.Synced h) {n : Nat}
    (hlow : ∀ r ∈ (s, e) :: h, r.1.semaphores n ≠ 0xffffffff) :
    initialCount n ((s, e) :: h) + posts n ((s, e) :: h) = s.semaphores n + waits n
      ((s, e) :: h) := by
  have := hs.count n fun r hr => hlow r (List.mem_cons_of_mem _ hr)
  rw [initialCount, he.noInit, posts_cons, waits_cons, he.noPost, he.noWait]
  exact this

/-- A waiter has used the semaphore. -/
theorem Synced.used_cons (hs : s.Synced h) {n : Nat} (hw : s.Waits i (.semaphore n)) :
    ∃ r ∈ (s, e) :: h, r.2.usesSem n = true := by
  obtain ⟨r, hr, hu⟩ := hs.used n i hw
  exact ⟨r, List.mem_cons_of_mem _ hr, hu⟩

/-- A step that is in no account: whoever waits afterwards waited before, or falls asleep on a mutex
that is held or on a semaphore that counts nothing. -/
theorem Synced.silent (hs : s.Synced h) (hem : s.MutexSilent e) (hes : s.SemSilent e)
    (hm : s'.mutexes = s.mutexes) (hn : s'.semaphores = s.semaphores)
    (hmutex : ∀ i m, s'.Waits i (.mutex m) → s.Waits i (.mutex m) ∨ s.mutexes m ≠ 0)
    (hsem : ∀ i n, s'.Waits i (.semaphore n) →
      s.Waits i (.semaphore n) ∨ s.semaphores n = 0 ∧ e.usesSem n = true) : s'.Synced
        ((s, e) :: h) where
  held m := by rw [hem.holders, hm, hs.held]
  mutex m hz i hw := by
    rw [hm] at hz
    rcases hmutex i m hw with hw | hne
    · exact hs.mutex m hz i hw
    · exact hne hz
  semaphore n hz i hw := by
    rw [hn] at hz
    rcases hsem i n hw with hw | ⟨hne, -⟩
    · exact hs.semaphore n hz i hw
    · exact hz hne
  used n i hw := by
    rcases hsem i n hw with hw | ⟨-, hu⟩
    · exact hs.used_cons hw
    · exact ⟨_, List.mem_cons_self, hu⟩
  count n hlow := by rw [hes.count hs hlow, hn]

/-- A quiet section that is silent on both keeps the history in step. -/
theorem Synced.quiet (hs : s.Synced h) (hem : s.MutexSilent e) (hes : s.SemSilent e)
    (hq : Quiet s.nextTaskId e.destroys s s') :
    s'.Synced ((s, e) :: h) :=
  hs.silent hem hes hq.mutexes hq.semaphores (fun _ _ hw => .inl (hq.waits hw)) fun _ _ hw =>
    .inl (hq.waits hw)

/-- A section of the scheduler alone is silent on both. -/
theorem silent_of_not_sync (he : e.sync = false) : s.MutexSilent e ∧ s.SemSilent e := by
  cases e with
  | mutexTrylock c m => cases he
  | mutexLock c m => cases he
  | mutexUnlock c m => cases he
  | semInit n count => cases he
  | semTrywait n => cases he
  | semWait c n => cases he
  | semPost n => cases he
  | _ => exact ⟨⟨fun _ => rfl, fun _ => rfl⟩, ⟨fun _ => rfl, fun _ => rfl, fun _ => rfl⟩⟩

/-! ### The calls -/

/-- What a call of the task that runs on `c` can do. -/
theorem call_cases (f : TaskSlot → Reply × SchedState) :
    (s.call c f).1 ≠ some (.ok ()) ∧ (s.call c f).2 = s ∨
      ∃ i, (s.cpus c).current = some i ∧ s.kTaskId c = (s.tasks i).id ∧ s.call c f = f i := by
  unfold call kTaskId
  cases hc : (s.cpus c).current with
  | none => exact .inl ⟨by simp, rfl⟩
  | some i =>
      cases (s.cpus c).leaving with
      | true => exact .inl ⟨by simp, rfl⟩
      | false => exact .inr ⟨i, rfl, rfl, rfl⟩

/-- The mutex `m`, which is free, gets an owner. -/
theorem Synced.taken (hs : s.Synced h) {m id : Nat} (hid : id ≠ 0) (hfree : s.mutexes m = 0)
    (ht : ∀ k, s.takes k e = if m = k then some id else none) (hg : ∀ k, s.gives k e = none)
    (hes : s.SemSilent e) : (s.setMutex m id).Synced ((s, e) :: h) where
  held k := by
    rw [holders, ht, hg, hs.held]
    obtain rfl | hk := eq_or_ne m k
    · simp [hfree, hid]
    · simp [hk, setMutex_ne _ _ hk.symm]
  mutex k hz i hw := by
    obtain rfl | hk := eq_or_ne k m
    · exact hid (by simpa using hz)
    · exact hs.mutex k (by rwa [setMutex_ne _ _ hk] at hz) i hw
  semaphore := hs.semaphore
  used n i hw := hs.used_cons hw
  count n hlow := hes.count hs hlow

/-- The owner of `m` gives it back, and who waits for it is woken. -/
theorem Synced.given (hs : s.Synced h) {m : Nat} (hm : s.mutexes m ≠ 0)
    (ht : ∀ k, s.takes k e = none)
    (hg : ∀ k, s.gives k e = if m = k then some (s.mutexes m) else none) (hes : s.SemSilent e) :
    ((s.setMutex m 0).wakeObject (.mutex m)).Synced ((s, e) :: h) := by
  have hq : Quiet 0 none _ _ := .wakeObject (s.setMutex m 0) (.mutex m)
  have hold : ∀ {i o}, ((s.setMutex m 0).wakeObject (.mutex m)).Waits i o → s.Waits i o :=
    fun hw => hq.waits hw
  refine ⟨fun k => ?_, fun k hz i hw => ?_, fun n hz i hw => ?_, fun n i hw =>
    hs.used_cons (hold hw), fun n hlow => ?_⟩
  · rw [holders, ht, hg, hs.held, hq.mutexes]
    obtain rfl | hk := eq_or_ne m k
    · simp [hm]
    · simp [hk, setMutex_ne _ _ hk.symm]
  · obtain rfl | hk := eq_or_ne k m
    · exact not_waits_wakeObject _ _ i hw
    · rw [hq.mutexes, setMutex_ne _ _ hk] at hz
      exact hs.mutex k hz i (hold hw)
  · rw [hq.semaphores] at hz
    exact hs.semaphore n hz i (hold hw)
  · rw [hq.semaphores]
    exact hes.count hs hlow

/-- Who waits after a block waited before, or waits for its object. -/
theorem waits_block {o o' : WaitObject} (hw : (s.block c i o).Waits j o') :
    s.Waits j o' ∨ o = o' := by
  obtain rfl | hj := eq_or_ne j i
  · rw [Waits, block, leave, onCpu_tasks, onTask_self] at hw
    exact .inr (Option.some.inj hw.2)
  · rw [Waits, block, leave, onCpu_tasks, onTask_ne _ hj] at hw
    exact .inl hw

/-- `k_mutex_trylock` keeps the history in step. -/
theorem Synced.mutexTrylock (hs : s.Synced h) (hok : s.Ok) (c m : Nat) :
    (s.step (.mutexTrylock c m)).Synced ((s, .mutexTrylock c m) :: h) := by
  have hes : s.SemSilent (.mutexTrylock c m) := ⟨fun _ => rfl, fun _ => rfl, fun _ => rfl⟩
  -- without success nothing happens
  have hno : (s.kMutexTrylock c m).1 ≠ some (.ok ()) → (s.kMutexTrylock c m).2 = s →
      (s.step (.mutexTrylock c m)).Synced ((s, .mutexTrylock c m) :: h) := by
    intro hr hsame
    rw [step, hsame]
    exact hs.quiet ⟨fun k => by simp [takes, hr], fun _ => rfl⟩ hes (.refl s)
  rcases call_cases (s := s) (c := c) fun i =>
      if s.mutexes m = (s.tasks i).id then (some (.error .edeadlk), s)
      else if s.mutexes m ≠ 0 then (some (.error .ebusy), s)
      else (some (.ok ()), s.setMutex m (s.tasks i).id) with ⟨hr, hsame⟩ | ⟨i, hi, hid, hrun⟩
  · exact hno hr hsame
  · change s.kMutexTrylock c m = _ at hrun
    split_ifs at hrun with h₁ h₂
    · exact hno (by simp [hrun]) (by rw [hrun])
    · exact hno (by simp [hrun]) (by rw [hrun])
    · have hpos := (hok.fresh (hok.current hi).2.2).1
      rw [step, hrun]
      refine hs.taken hpos.ne' (not_not.mp h₂) (fun k => ?_) (fun _ => rfl) hes
      simp [takes, hrun, hid]

/-- `k_mutex_lock` keeps the history in step. -/
theorem Synced.mutexLock (hs : s.Synced h) (hok : s.Ok) (c m : Nat) :
    (s.step (.mutexLock c m)).Synced ((s, .mutexLock c m) :: h) := by
  have hes : s.SemSilent (.mutexLock c m) := ⟨fun _ => rfl, fun _ => rfl, fun _ => rfl⟩
  have hem : (s.kMutexLock c m).1 ≠ some (.ok ()) → s.MutexSilent (.mutexLock c m) := fun hr =>
    ⟨fun k => by simp [takes, hr], fun _ => rfl⟩
  rcases call_cases (s := s) (c := c) fun i =>
      if s.mutexes m = 0 then (some (.ok ()), s.setMutex m (s.tasks i).id)
      else if s.mutexes m = (s.tasks i).id ∨ (s.tasks i).preemptDepth ≠ 0 then
        (some (.error .edeadlk), s)
      else (none, s.block c i (.mutex m)) with ⟨hr, hsame⟩ | ⟨i, hi, hid, hrun⟩
  · change (s.kMutexLock c m).2 = s at hsame
    rw [step, hsame]
    exact hs.quiet (hem hr) hes (.refl s)
  · change s.kMutexLock c m = _ at hrun
    split_ifs at hrun with h₁ h₂
    · have hpos := (hok.fresh (hok.current hi).2.2).1
      rw [step, hrun]
      refine hs.taken hpos.ne' h₁ (fun k => ?_) (fun _ => rfl) hes
      simp [takes, hrun, hid]
    · rw [step, hrun]
      exact hs.quiet (hem (by simp [hrun])) hes (.refl s)
    · -- the mutex is held, and the task falls asleep
      rw [step, hrun]
      refine hs.silent (hem (by simp [hrun])) hes rfl rfl (fun j k hw => ?_) fun j n hw => ?_
      · rcases waits_block hw with hw | hk
        · exact .inl hw
        · cases hk
          exact .inr h₁
      · rcases waits_block hw with hw | hk
        · exact .inl hw
        · cases hk

/-- `k_mutex_unlock` keeps the history in step. -/
theorem Synced.mutexUnlock (hs : s.Synced h) (c m : Nat) :
    (s.step (.mutexUnlock c m)).Synced ((s, .mutexUnlock c m) :: h) := by
  have hes : s.SemSilent (.mutexUnlock c m) := ⟨fun _ => rfl, fun _ => rfl, fun _ => rfl⟩
  have hno : (s.kMutexUnlock c m).1 ≠ some (.ok ()) → (s.kMutexUnlock c m).2 = s →
      (s.step (.mutexUnlock c m)).Synced ((s, .mutexUnlock c m) :: h) := by
    intro hr hsame
    rw [step, hsame]
    exact hs.quiet ⟨fun _ => rfl, fun k => by simp [gives, hr]⟩ hes (.refl s)
  rcases call_cases (s := s) (c := c) fun i =>
      if s.mutexes m = 0 ∨ s.mutexes m ≠ (s.tasks i).id then (some (.error .eperm), s)
      else (some (.ok ()), (s.setMutex m 0).wakeObject (.mutex m)) with ⟨hr, hsame⟩
        | ⟨i, hi, hid, hrun⟩
  · exact hno hr hsame
  · change s.kMutexUnlock c m = _ at hrun
    split_ifs at hrun with h₁
    · exact hno (by simp [hrun]) (by rw [hrun])
    · simp only [not_or, not_not] at h₁
      rw [step, hrun]
      dsimp only
      refine hs.given h₁.1 (fun _ => rfl) (fun k => ?_) hes
      simp [gives, hrun, hid, h₁.2]

/-- A call of a semaphore: nobody new waits on one that counts something, and its account is
right. -/
theorem Synced.counted (hs : s.Synced h) (hem : s.MutexSilent e) (hm : s'.mutexes = s.mutexes)
    (hw : ∀ i o, s'.Waits i o → s.Waits i o)
    (hsem : ∀ n, s'.semaphores n ≠ 0 → s.semaphores n ≠ 0 ∨ ∀ i, ¬ s'.Waits i (.semaphore n))
    (hcount : ∀ n, (∀ r ∈ (s, e) :: h, r.1.semaphores n ≠ 0xffffffff) →
      initialCount n ((s, e) :: h) + posts n ((s, e) :: h) = s'.semaphores n + waits n
        ((s, e) :: h)) :
    s'.Synced ((s, e) :: h) where
  held m := by rw [hem.holders, hm, hs.held]
  mutex m hz i hw' := hs.mutex m ((congrFun hm m).symm.trans hz) i (hw i _ hw')
  semaphore n hz i hw' := by
    rcases hsem n hz with hz | hno
    · exact hs.semaphore n hz i (hw i _ hw')
    · exact hno i hw'
  used n i hw' := hs.used_cons (hw i _ hw')
  count := hcount

/-- A wait that succeeds. -/
theorem Synced.served (hs : s.Synced h) {n : Nat} (hn : s.semaphores n ≠ 0) (hem : s.MutexSilent e)
    (hi : ∀ k, e.inits k = none) (hp : ∀ k, e.posts k = false)
    (hserves : ∀ k, s.serves k e = decide (n = k)) :
    (s.setSemaphore n (s.semaphores n - 1)).Synced ((s, e) :: h) := by
  refine hs.counted hem rfl (fun _ _ hw => hw) (fun k hz => ?_) fun k hlow => ?_
  · obtain rfl | hk := eq_or_ne k n
    · exact .inl hn
    · exact .inl (by rwa [setSemaphore_ne _ _ hk] at hz)
  · have hold := hs.count k fun r hr => hlow r (List.mem_cons_of_mem _ hr)
    rw [initialCount, hi, Option.getD_none, posts_cons, waits_cons, hp, hserves]
    obtain rfl | hk := eq_or_ne k n
    · simp only [setSemaphore_self, decide_true, if_true, Bool.false_eq_true, if_false]
      omega
    · simpa [setSemaphore_ne _ _ hk, hk.symm] using hold

/-- `k_sem_trywait` keeps the history in step. -/
theorem Synced.semTrywait (hs : s.Synced h) (n : Nat) :
    (s.step (.semTrywait n)).Synced ((s, .semTrywait n) :: h) := by
  have hem : s.MutexSilent (.semTrywait n) := ⟨fun _ => rfl, fun _ => rfl⟩
  rw [step, kSemTrywait]
  split
  · next hz =>
      exact hs.quiet hem ⟨fun _ => rfl, fun _ => rfl, fun k => by simp [serves, kSemTrywait, hz]⟩
        (.refl s)
  · next hz =>
      exact hs.served hz hem (fun _ => rfl) (fun _ => rfl) fun k => by
        simp [serves, kSemTrywait, hz]

/-- `k_sem_wait` keeps the history in step. -/
theorem Synced.semWait (hs : s.Synced h) (c n : Nat) :
    (s.step (.semWait c n)).Synced ((s, .semWait c n) :: h) := by
  have hem : s.MutexSilent (.semWait c n) := ⟨fun _ => rfl, fun _ => rfl⟩
  have hes : (s.kSemWait c n).1 ≠ some (.ok ()) → s.SemSilent (.semWait c n) := fun hr =>
    ⟨fun _ => rfl, fun _ => rfl, fun k => by simp [serves, hr]⟩
  rcases call_cases (s := s) (c := c) fun i =>
      if s.semaphores n ≠ 0 then (some (.ok ()), s.setSemaphore n (s.semaphores n - 1))
      else if (s.tasks i).preemptDepth ≠ 0 then (some (.error .edeadlk), s)
      else (none, s.block c i (.semaphore n)) with ⟨hr, hsame⟩ | ⟨i, hi, hid, hrun⟩
  · change (s.kSemWait c n).2 = s at hsame
    rw [step, hsame]
    exact hs.quiet hem (hes hr) (.refl s)
  · change s.kSemWait c n = _ at hrun
    split_ifs at hrun with h₁ h₂
    · rw [step, hrun]
      exact hs.served h₁ hem (fun _ => rfl) (fun _ => rfl) fun k => by simp [serves, hrun]
    · rw [step, hrun]
      exact hs.quiet hem (hes (by simp [hrun])) (.refl s)
    · rw [step, hrun]
      refine hs.silent hem (hes (by simp [hrun])) rfl rfl (fun j k hw => ?_) fun j k hw => ?_
      · rcases waits_block hw with hw | hk
        · exact .inl hw
        · cases hk
      · rcases waits_block hw with hw | hk
        · exact .inl hw
        · cases hk
          exact .inr ⟨not_not.mp h₁, by simp [SchedEvent.usesSem]⟩

/-- `k_sem_post` keeps the history in step. -/
theorem Synced.semPost (hs : s.Synced h) (n : Nat) :
    (s.step (.semPost n)).Synced ((s, .semPost n) :: h) := by
  have hem : s.MutexSilent (.semPost n) := ⟨fun _ => rfl, fun _ => rfl⟩
  rw [step, kSemPost]
  generalize hσ :
      (if s.semaphores n ≠ 0xffffffff then s.setSemaphore n (s.semaphores n + 1) else s) = σ
  have hq : Quiet 0 none _ _ := .wakeObject σ (.semaphore n)
  have hmutexes : σ.mutexes = s.mutexes := by rw [← hσ]; split <;> rfl
  have htasks : σ.tasks = s.tasks := by rw [← hσ]; split <;> rfl
  have hne : ∀ k, k ≠ n → σ.semaphores k = s.semaphores k := by
    intro k hk
    rw [← hσ]
    split
    · exact setSemaphore_ne _ _ hk
    · rfl
  have hold : ∀ i o, (σ.wakeObject (.semaphore n)).Waits i o → s.Waits i o := by
    intro i o hw
    have := hq.waits hw
    rwa [Waits, htasks] at this
  refine hs.counted hem (hq.mutexes.trans hmutexes) hold (fun k hz => ?_) fun k hlow => ?_
  · obtain rfl | hk := eq_or_ne k n
    · exact .inr (not_waits_wakeObject _ _)
    · rw [hq.semaphores, hne k hk] at hz
      exact .inl hz
  · have hcount := hs.count k fun r hr => hlow r (List.mem_cons_of_mem _ hr)
    have hp : (SchedEvent.semPost n).posts k = decide (n = k) := rfl
    have hw : s.serves k (.semPost n) = false := rfl
    have hi : (SchedEvent.semPost n).inits k = none := rfl
    rw [hq.semaphores, initialCount, hi, Option.getD_none, posts_cons, waits_cons, hp, hw]
    obtain rfl | hk := eq_or_ne k n
    · have hσk : σ.semaphores k = s.semaphores k + 1 := by
        rw [← hσ, if_pos (hlow _ List.mem_cons_self), setSemaphore_self]
      simp only [hσk, decide_true, if_true, Bool.false_eq_true, if_false]
      omega
    · simpa [hne k hk, hk.symm] using hcount

/-- A semaphore that nobody has used has no account. -/
theorem unused_count {n : Nat} (hu : ∀ r ∈ h, r.2.usesSem n = false) : posts n h = 0 ∧
    waits n h = 0 := by
  rw [posts, waits, List.countP_eq_zero, List.countP_eq_zero]
  refine ⟨fun r hr hp => ?_, fun r hr hw => ?_⟩
  · have := hu r hr
    cases he : r.2 <;> simp_all [SchedEvent.posts, SchedEvent.usesSem]
  · have := hu r hr
    cases he : r.2 <;> simp_all [serves, SchedEvent.usesSem]

/-- `k_sem_init` keeps the history in step. -/
theorem Synced.semInit (hs : s.Synced h) {n count : Nat} (hu : ∀ r ∈ h, r.2.usesSem n = false) :
    (s.step (.semInit n count)).Synced ((s, .semInit n count) :: h) := by
  refine hs.counted ⟨fun _ => rfl, fun _ => rfl⟩ rfl (fun _ _ hw => hw) (fun k hz => ?_)
    fun k hlow => ?_
  · obtain rfl | hk := eq_or_ne k n
    · refine .inr fun i hw => ?_
      obtain ⟨r, hr, huse⟩ := hs.used k i hw
      rw [hu r hr] at huse
      cases huse
    · exact .inl (by rwa [step, kSemInit, setSemaphore_ne _ _ hk] at hz)
  · have hcount := hs.count k fun r hr => hlow r (List.mem_cons_of_mem _ hr)
    have hp : (SchedEvent.semInit n count).posts k = false := rfl
    have hw : s.serves k (.semInit n count) = false := rfl
    have hi : (SchedEvent.semInit n count).inits k = if n = k then some count else none := rfl
    rw [initialCount, hi, posts_cons, waits_cons, hp, hw, step, kSemInit]
    obtain rfl | hk := eq_or_ne k n
    · obtain ⟨hp₀, hw₀⟩ := unused_count hu
      simp [hp₀, hw₀]
    · simpa [setSemaphore_ne _ _ hk, hk.symm] using hcount

/-- Every section keeps the history in step. -/
theorem Synced.step (hs : s.Synced h) (hok : s.Ok)
    (hi : ∀ n, (e.inits n).isSome → ∀ r ∈ h, r.2.usesSem n = false) :
    (s.step e).Synced ((s, e) :: h) := by
  cases hsync : e.sync with
  | false =>
      obtain ⟨hem, hes⟩ := silent_of_not_sync (s := s) hsync
      exact hs.quiet hem hes (hok.quiet_step hsync)
  | true =>
      cases e with
      | mutexTrylock c m => exact hs.mutexTrylock hok c m
      | mutexLock c m => exact hs.mutexLock hok c m
      | mutexUnlock c m => exact hs.mutexUnlock c m
      | semInit n count => exact hs.semInit (hi n (by simp [SchedEvent.inits]))
      | semTrywait n => exact hs.semTrywait n
      | semWait c n => exact hs.semWait c n
      | semPost n => exact hs.semPost n
      | _ => cases hsync

theorem Synced.initial {discovered timerHz stack : Nat} (hstack : stack ≠ 0) :
    (initial discovered timerHz stack).Synced [] := by
  obtain ⟨v, ht⟩ := @initial_tasks discovered timerHz stack hstack
  have hw : ∀ i o, ¬ (SchedState.initial discovered timerHz stack).Waits i o := by
    intro i o hw
    rw [Waits, ht] at hw
    split_ifs at hw <;> cases hw.1
  have hone : NoMail ((booted discovered timerHz).tasks 1) := by
    rw [booted_tasks, if_neg (by decide)]
    exact ⟨rfl, rfl⟩
  have hq : Quiet 2 none _ _ := .fillTask (s := booted discovered timerHz) rfl hone 1 0 true stack
  refine ⟨fun m => ?_, fun _ _ i => hw i _, fun _ _ i => hw i _, fun n i h => absurd h (hw i _),
    fun n _ => ?_⟩
  · rw [initial_eq hstack]
    exact congrArg (fun f => if f m = 0 then [] else [f m]) hq.mutexes.symm
  · rw [initial_eq hstack]
    exact congrArg (fun f => f n + 0) hq.semaphores.symm

theorem Synced.run {s₀ : SchedState} (hr : History.Run s₀ h s) (hs : s₀.Synced []) (hok : s₀.Ok)
    (hi : InitFirst h) : s.Synced h := by
  induction hr with
  | nil => exact hs
  | cons hr he ih => exact (ih hi.2).step (hok.steps hr.steps) hi.1

/-- **No wake-up is lost.**  After any history of the scheduler in which every `k_sem_init` comes
before the uses of its semaphore: the owner of a mutex and nobody else is between a lock and its
unlock, nobody sleeps on a free mutex or on a semaphore that counts something, and as long as a
semaphore never counts `2^32 - 1` its posts and successful waits add up. -/
theorem no_lost_wakeup {discovered timerHz stack : Nat} (hd : 0 < discovered) (hstack : stack ≠ 0)
    (hr : History.Run (initial discovered timerHz stack) h s) (hi : InitFirst h) :
    (∀ m, s.mutexes m = 0 ∧ holders m h = [] ∨ s.mutexes m ≠ 0 ∧ holders m h = [s.mutexes m]) ∧
    (∀ i j, (s.tasks i).state ≠ .unused → (s.tasks j).state ≠ .unused →
      (s.tasks i).id = (s.tasks j).id → i = j) ∧
    (∀ m, s.mutexes m = 0 → ∀ i, ¬ s.Waits i (.mutex m)) ∧
    (∀ n, 0 < s.semaphores n → ∀ i, ¬ s.Waits i (.semaphore n)) ∧
    ∀ n, (∀ r ∈ h, r.1.semaphores n ≠ 2 ^ 32 - 1) →
      initialCount n h + posts n h = s.semaphores n + waits n h := by
  have hok := @initial_ok discovered timerHz stack hd hstack
  have hs := Synced.run hr (.initial hstack) hok hi
  refine ⟨fun m => ?_, fun i j hi hj => (hok.steps hr.steps).ids hi hj, hs.mutex,
    fun n hn => hs.semaphore n hn.ne', hs.count⟩
  have hm := hs.held m
  split at hm
  · next hz => exact .inl ⟨hz, hm⟩
  · next hz => exact .inr ⟨hz, hm⟩

/-- The boot task has locked a mutex, and a second task is about to run into it. -/
def locked : SchedState :=
  (((initial 1 1000 4096).step (.mutexLock 0 5)).step (.create 1024 0 8192)).step
    (.schedule 0 true 0)

/-- Two tasks that want the same mutex. -/
def contended : History :=
  [(locked, .mutexLock 0 5),
    (((initial 1 1000 4096).step (.mutexLock 0 5)).step (.create 1024 0 8192), .schedule 0 true 0),
    ((initial 1 1000 4096).step (.mutexLock 0 5), .create 1024 0 8192),
    (initial 1 1000 4096, .mutexLock 0 5)]

/-- Those sections are a run. -/
theorem contended_run :
    History.Run (initial 1 1000 4096) contended (locked.step (.mutexLock 0 5)) := by
  refine .cons (.cons (.cons (.cons .nil ?_) ?_) ?_) ?_
  · exact enabled_on rfl (by decide +kernel) rfl
  · exact ⟨by simp [SchedEvent.cpu], by simp [SchedEvent.underProcessMutex], by simp, by simp⟩
  · exact enabled_on rfl (by decide +kernel) rfl
  · exact enabled_on rfl (by decide +kernel) rfl

theorem no_lost_wakeup_contended : (locked.step (.mutexLock 0 5)).Waits 2 (.mutex 5) ∧
    (locked.step (.mutexLock 0 5)).mutexes 5 = 1 ∧ holders 5 contended = [1] := by
  have hi : InitFirst contended := by simp [InitFirst, contended, SchedEvent.inits]
  have hm := (no_lost_wakeup (by decide) (by decide) contended_run hi).1 5
  have hone : (locked.step (.mutexLock 0 5)).mutexes 5 = 1 := by decide +kernel
  rw [hone] at hm
  exact ⟨by decide +kernel, hone, by simpa using hm⟩

end SchedState

end Efishell
