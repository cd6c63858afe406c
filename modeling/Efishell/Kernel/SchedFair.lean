import Efishell.Kernel.SchedLife

/-!
# Kernel — fairness of the scheduler

The virtual times of the tasks of a processor stay together: none that can run is behind
`fair_floor`, and none is further ahead of it than eight charges.  The invariant (`SchedState.Fair`)
gives the current task a reserve, as many charges as its slice has ticks left, and every charge
takes one from it.

Virtual time is a 64-bit counter that wraps, and a task whose counter wraps is behind the floor at
once; so the results are about runs in which no charge wraps (`SchedState.NoWrap`).

* `Fair.dispatch`, `Fair.scheduleLocked`: the task with the least virtual time runs.
* `Level.step`, `Level.steps`: every section and every run keeps the tasks together.
* `scheduler_fairness`: floor, bound and lead in every state of a run without a wrap.
-/

namespace Efishell

namespace SchedState

variable {s s' : SchedState} {i j : TaskSlot} {c d : Nat} {p : ProcessSlot} {k : Nat → Nat}

/-! ### The least virtual time -/

/-- One round of the loop of `cpu_floor`. -/
theorem foldl_min_le (s : SchedState) (c : Nat) (l : List TaskSlot) (m : Nat) :
    (l.foldl (fun m i => if s.counts c i ∧ (s.tasks i).vruntime < m then
      (s.tasks i).vruntime else m)
      m ≤ m) ∧
    ∀ i ∈ l, s.counts c i →
      l.foldl (fun m i => if s.counts c i ∧ (s.tasks i).vruntime < m then
        (s.tasks i).vruntime else m)
        m ≤ (s.tasks i).vruntime := by
  induction l generalizing m with
  | nil => simp
  | cons a l ih =>
      rw [List.foldl_cons]
      obtain ⟨h₁, h₂⟩ :=
        ih (if s.counts c a ∧ (s.tasks a).vruntime < m then (s.tasks a).vruntime else m)
      have hle :
          (if s.counts c a ∧ (s.tasks a).vruntime < m then (s.tasks a).vruntime else m) ≤ m := by
        split
        · next h => exact h.2.le
        · exact le_rfl
      refine ⟨h₁.trans hle, fun i hi hc => ?_⟩
      rcases List.mem_cons.mp hi with rfl | hi
      · refine h₁.trans ?_
        split
        · exact le_rfl
        · next h => exact not_lt.mp fun hlt => h ⟨hc, hlt⟩
      · exact h₂ i hi hc

/-- The least virtual runtime is below each that counts. -/
theorem minVruntime_le (h : s.counts c i) : s.minVruntime c ≤ (s.tasks i).vruntime :=
  (foldl_min_le s c _ _).2 i (List.mem_finRange i) h

theorem minVruntime_le_max (s : SchedState) (c : Nat) : s.minVruntime c ≤ 2 ^ 64 - 1 :=
  (foldl_min_le s c _ _).1

theorem le_minVruntime {b : Nat} (hb : b ≤ 2 ^ 64 - 1)
    (h : ∀ i, s.counts c i → b ≤ (s.tasks i).vruntime) : b ≤ s.minVruntime c := by
  unfold minVruntime
  generalize 2 ^ 64 - 1 = m at hb ⊢
  induction List.finRange kMaxTasks generalizing m with
  | nil => exact hb
  | cons a l ih =>
      rw [List.foldl_cons]
      refine ih _ ?_
      split
      · next hc => exact h a hc.1
      · exact hb

/-- The floor stays, or moves up to the least virtual runtime. -/
theorem cpuFloor_floor (s : SchedState) (c : Nat) :
    ((s.cpuFloor c).cpus c).fairFloor = (s.cpus c).fairFloor ∨
    s.minVruntime c ≠ 2 ^ 64 - 1 ∧ (s.cpus c).fairFloor < s.minVruntime c ∧
      ((s.cpuFloor c).cpus c).fairFloor = s.minVruntime c := by
  unfold cpuFloor
  split
  · next h => exact .inr ⟨h.1, h.2, by simp⟩
  · exact .inl rfl

/-- A floor never falls. -/
theorem le_cpuFloor (s : SchedState) (c d : Nat) :
    (s.cpus d).fairFloor ≤ ((s.cpuFloor c).cpus d).fairFloor := by
  obtain rfl | hd := eq_or_ne d c
  · rcases s.cpuFloor_floor d with h | ⟨-, hlt, h⟩
    · exact h.ge
    · rw [h]
      exact hlt.le
  · rw [cpuFloor_cpu_ne hd]

theorem cpuFloor_slice (s : SchedState) (c d : Nat) :
    ((s.cpuFloor c).cpus d).slice = (s.cpus d).slice := by
  obtain rfl | hd := eq_or_ne d c
  · obtain ⟨v, hv⟩ := cpuFloor_cpu (s := s) (c := d)
    rw [hv]
  · rw [cpuFloor_cpu_ne hd]

/-! ### The invariant -/

/-- `k c` is the number of charges that the current task of processor `c` has in reserve. -/
structure Fair (k : Nat → Nat) (s : SchedState) : Prop where
  reserve : ∀ c, k c ≤ 8
  weight : ∀ {i}, (s.tasks i).state ≠ .unused → 0 < (s.tasks i).weight
  range : ∀ i, (s.tasks i).vruntime < 2 ^ 64
  floorRange : ∀ c, (s.cpus c).fairFloor < 2 ^ 64
  floor : ∀ {c i}, s.counts c i → (s.cpus c).fairFloor ≤ (s.tasks i).vruntime
  bound : ∀ {i}, (s.tasks i).idle = false →
    (s.tasks i).vruntime ≤ (s.cpus (s.tasks i).cpu).fairFloor + 8 * (s.tasks i).cost
  /-- A task at the end of the counter can be charged no more. -/
  turn : ∀ {i}, (s.cpus (s.tasks i).cpu).current = some i → (s.tasks i).idle = false →
    (s.tasks i).vruntime + k (s.tasks i).cpu * (s.tasks i).cost ≤
        (s.cpus (s.tasks i).cpu).fairFloor + 8 * (s.tasks i).cost ∨
      (s.tasks i).vruntime = 2 ^ 64 - 1

/-- The invariant and the floors are carried over a change. -/
def Keeps (k : Nat → Nat) (s s' : SchedState) : Prop :=
  s'.Fair k ∧ ∀ c, (s.cpus c).fairFloor ≤ (s'.cpus c).fairFloor ∧
    (s'.cpus c).slice = (s.cpus c).slice

theorem Fair.keeps (h : s.Fair k) : s.Keeps k s := ⟨h, fun _ => ⟨le_rfl, rfl⟩⟩

/-- One change after another. -/
theorem Keeps.trans {s₁ : SchedState} (h : s.Keeps k s₁) (h' : s₁.Keeps k s') : s.Keeps k s' :=
  ⟨h'.1, fun c => ⟨(h.2 c).1.trans (h'.2 c).1, (h'.2 c).2.trans (h.2 c).2⟩⟩

theorem Fair.cpuFloor (h : s.Fair k) (c : Nat) : s.Keeps k (s.cpuFloor c) := by
  have hle := s.le_cpuFloor c
  have hcur : ∀ d, ((s.cpuFloor c).cpus d).current = (s.cpus d).current := fun d =>
    ((Calm.cpuFloor s c).cpus d).current
  refine ⟨⟨h.reserve, fun {i} hi => ?_, by simpa using h.range, fun d => ?_,
    fun {d i} hi => ?_, fun {i} hi => ?_, fun {i} hi hidle => ?_⟩, fun d =>
      ⟨hle d, s.cpuFloor_slice c d⟩⟩
  · rw [cpuFloor_tasks] at hi ⊢
    exact h.weight hi
  · obtain rfl | hd := eq_or_ne d c
    · rcases s.cpuFloor_floor d with he | ⟨-, -, he⟩
      · rw [he]
        exact h.floorRange d
      · rw [he]
        exact lt_of_le_of_lt (s.minVruntime_le_max d) (by decide)
    · rw [cpuFloor_cpu_ne hd]
      exact h.floorRange d
  · have hi' : s.counts d i := by simpa [counts] using hi
    rw [cpuFloor_tasks]
    obtain rfl | hd := eq_or_ne d c
    · rcases s.cpuFloor_floor d with he | ⟨-, -, he⟩
      · rw [he]
        exact h.floor hi'
      · rw [he]
        exact minVruntime_le hi'
    · rw [cpuFloor_cpu_ne hd]
      exact h.floor hi'
  · rw [cpuFloor_tasks] at hi ⊢
    exact (h.bound hi).trans (Nat.add_le_add_right (hle _) _)
  · rw [hcur, cpuFloor_tasks] at hi
    rw [cpuFloor_tasks] at hidle ⊢
    exact (h.turn hi hidle).imp_left fun ht => ht.trans (Nat.add_le_add_right (hle _) _)

theorem Fair.taskReady (h : s.Fair k) (hu : (s.tasks i).state ≠ .unused) :
    s.Keeps k (s.taskReady i) := by
  obtain ⟨h₁, hf⟩ := h.cpuFloor (s.tasks i).cpu
  set c := (s.tasks i).cpu with hc
  set s₁ := s.cpuFloor c with hs₁
  have ht : s₁.tasks = s.tasks := cpuFloor_tasks
  have hi : (s.taskReady i).tasks i =
      { s.tasks i with
        vruntime := max (s.tasks i).vruntime (s₁.cpus c).fairFloor
        state := .ready
        waitObject := none } := by
    simp [SchedState.taskReady, ← hc, ← hs₁, ht]
  have hne : ∀ {j}, j ≠ i → (s.taskReady i).tasks j = s₁.tasks j := fun hj => by
    rw [taskReady_ne hj, ht]
  have hk : ∀ d, ((s.taskReady i).cpus d).fairFloor = (s₁.cpus d).fairFloor ∧
      ((s.taskReady i).cpus d).slice = (s₁.cpus d).slice ∧
      ((s.taskReady i).cpus d).current = (s₁.cpus d).current := by
    intro d
    obtain hd | hd := eq_or_ne d c
    · subst hd
      simp [SchedState.taskReady, ← hc, ← hs₁]
    · simp [SchedState.taskReady, ← hc, ← hs₁, onCpu_ne _ hd]
  -- the task that wakes is lifted to the floor, the others stay where they are
  refine ⟨⟨h.reserve, fun {j} hj => ?_, fun j => ?_, fun d => ?_, fun {d j} hj => ?_,
    fun {j} hj => ?_, fun {j} hj hidle => ?_⟩, fun d => ⟨?_, ?_⟩⟩
  · obtain rfl | hj' := eq_or_ne j i
    · rw [hi]
      exact h.weight hu
    · rw [hne hj'] at hj ⊢
      exact h₁.weight hj
  · obtain rfl | hj' := eq_or_ne j i
    · rw [hi]
      exact max_lt (h.range j) (h₁.floorRange c)
    · rw [hne hj']
      exact h₁.range j
  · rw [(hk d).1]
    exact h₁.floorRange d
  · rw [(hk d).1]
    obtain rfl | hj' := eq_or_ne j i
    · have hd : c = d := by simpa [counts, hi, ← hc] using hj.1
      rw [hi, ← hd]
      exact le_max_right _ _
    · rw [hne hj']
      refine h₁.floor ?_
      simpa [counts, hne hj'] using hj
  · rw [(hk _).1]
    obtain rfl | hj' := eq_or_ne j i
    · rw [hi] at hj ⊢
      have hb := h₁.bound (i := j) (by rw [ht]; exact hj)
      rw [ht] at hb
      exact max_le hb (Nat.le_add_right _ _)
    · rw [hne hj'] at hj ⊢
      exact h₁.bound hj
  · rw [(hk _).2.2] at hj
    rw [(hk _).1]
    obtain rfl | hj' := eq_or_ne j i
    · rw [hi] at hj hidle ⊢
      dsimp only at hj hidle ⊢
      rw [← hc] at hj ⊢
      have ht' := h₁.turn (i := j) (by rw [ht]; exact hj) (by rw [ht]; exact hidle)
      rw [ht, ← hc] at ht'
      have hd : k c * (s.tasks j).cost ≤ 8 * (s.tasks j).cost :=
        Nat.mul_le_mul_right _ (h.reserve c)
      have hcost : Task.cost { s.tasks j with
          vruntime := max (s.tasks j).vruntime (s₁.cpus c).fairFloor
          state := .ready
          waitObject := none } = (s.tasks j).cost := rfl
      rw [hcost]
      have hr := h₁.floorRange c
      rcases ht' with hb | hb
      · omega
      · right
        omega
    · rw [hne hj'] at hj hidle ⊢
      exact h₁.turn hj hidle
  · rw [(hk d).1]
    exact (hf d).1
  · rw [(hk d).2.1]
    exact (hf d).2

end SchedState

/-! ### Changes that charge nothing -/

/-- A task that neither is charged nor becomes able to run. -/
structure Task.Settles (t t' : Task) : Prop where
  vruntime : t'.vruntime = t.vruntime
  weight : t'.weight = t.weight
  cpu : t'.cpu = t.cpu
  idle : t'.idle = t.idle
  live : t'.state ≠ .unused → t.state ≠ .unused
  runs : t'.idle = false → t'.state = .ready ∨ t'.state = .running →
    t.state = .ready ∨ t.state = .running

theorem Task.Settles.refl (t : Task) : t.Settles t :=
  ⟨rfl, rfl, rfl, rfl, fun h => h, fun _ h => h⟩

/-- A live task keeps its state or goes where it cannot run. -/
theorem Task.Settles.mk' {t t' : Task} (h₁ : t'.vruntime = t.vruntime) (h₂ : t'.weight = t.weight)
    (h₃ : t'.cpu = t.cpu) (h₄ : t'.idle = t.idle) (hu : t.state ≠ .unused)
    (hs : t'.state = t.state ∨ t'.state ≠ .ready ∧ t'.state ≠ .running) : t.Settles t' := by
  refine ⟨h₁, h₂, h₃, h₄, fun _ => hu, fun _ hr => ?_⟩
  rcases hs with hs | ⟨hs₁, hs₂⟩
  · rwa [← hs]
  · exact absurd hr (not_or.mpr ⟨hs₁, hs₂⟩)

namespace SchedState

variable {s s' : SchedState} {i j : TaskSlot} {c d : Nat} {p : ProcessSlot} {k : Nat → Nat}

/-- A step that only settles tasks, and leaves the processors' floors. -/
structure Settles (s s' : SchedState) : Prop where
  tasks : ∀ i, s'.tasks i = {} ∨ (s.tasks i).Settles (s'.tasks i)
  floor : ∀ c, (s'.cpus c).fairFloor = (s.cpus c).fairFloor
  slice : ∀ c, (s'.cpus c).slice = (s.cpus c).slice
  current : ∀ c i, (s'.cpus c).current = some i → (s'.tasks i).idle = false →
    (s.cpus c).current = some i

/-- A step that only settles tasks keeps the invariant and the floors. -/
theorem Fair.settles (h : s.Fair k) (hs : s.Settles s') : s.Keeps k s' := by
  have hb : ∀ {i}, s'.tasks i = {} → (s'.tasks i).vruntime = 0 ∧ (s'.tasks i).cost = 0 ∧
      (s'.tasks i).state = .unused := fun he => by simp [he, Task.cost]
  have hcost : ∀ {i}, (s.tasks i).Settles (s'.tasks i) → (s'.tasks i).cost = (s.tasks i).cost :=
    fun ht => by rw [Task.cost, Task.cost, ht.weight]
  refine ⟨⟨h.reserve, fun {i} hi => ?_, fun i => ?_, fun c => ?_, fun {c i} hi => ?_,
    fun {i} hi => ?_, fun {i} hi hidle => ?_⟩, fun c => ⟨(hs.floor c).ge, hs.slice c⟩⟩
  · rcases hs.tasks i with he | ht
    · exact absurd (hb he).2.2 hi
    · rw [ht.weight]
      exact h.weight (ht.live hi)
  · rcases hs.tasks i with he | ht
    · rw [(hb he).1]
      decide
    · rw [ht.vruntime]
      exact h.range i
  · rw [hs.floor]
    exact h.floorRange c
  · obtain ⟨h₁, h₂, h₃⟩ := hi
    rcases hs.tasks i with he | ht
    · simp [(hb he).2.2] at h₃
    · rw [hs.floor, ht.vruntime]
      exact h.floor ⟨ht.cpu.symm.trans h₁, ht.idle.symm.trans h₂, ht.runs h₂ h₃⟩
  · rcases hs.tasks i with he | ht
    · rw [(hb he).1]
      exact Nat.zero_le _
    · rw [hs.floor, ht.vruntime, ht.cpu, hcost ht]
      exact h.bound (ht.idle.symm.trans hi)
  · rcases hs.tasks i with he | ht
    · rw [(hb he).1, (hb he).2.1]
      exact .inl (by omega)
    · have hi' := hs.current _ i hi hidle
      rw [ht.cpu] at hi'
      rw [hs.floor, ht.vruntime, ht.cpu, hcost ht]
      exact h.turn hi' (ht.idle.symm.trans hidle)

theorem Settles.refl (s : SchedState) : s.Settles s :=
  ⟨fun _ => .inr (.refl _), fun _ => rfl, fun _ => rfl, fun _ _ h _ => h⟩

theorem Fair.onTask (h : s.Fair k) {f : Task → Task}
    (hf : (s.tasks i).Settles (f (s.tasks i))) : s.Keeps k (s.onTask i f) := by
  refine h.settles ⟨fun j => .inr ?_, fun _ => rfl, fun _ => rfl, fun _ _ h _ => h⟩
  obtain rfl | hj := eq_or_ne j i
  · rwa [onTask_self]
  · rw [onTask_ne f hj]
    exact .refl _

theorem Fair.onCpu (h : s.Fair k) {f : CpuState → CpuState}
    (h₁ : (f (s.cpus c)).fairFloor = (s.cpus c).fairFloor)
    (h₂ : (f (s.cpus c)).slice = (s.cpus c).slice)
    (h₃ : ∀ i, (f (s.cpus c)).current = some i → (s.tasks i).idle = false →
      (s.cpus c).current = some i) : s.Keeps k (s.onCpu c f) := by
  refine h.settles ⟨fun _ => .inr (.refl _), fun d => ?_, fun d => ?_, fun d i hi hidle => ?_⟩
  all_goals obtain rfl | hd := eq_or_ne d c
  · rwa [onCpu_self]
  · rw [onCpu_ne f hd]
  · rwa [onCpu_self]
  · rw [onCpu_ne f hd]
  · rw [onCpu_self] at hi
    exact h₃ i hi hidle
  · rwa [onCpu_ne f hd] at hi

/-- Changes of what virtual time does not depend on. -/
theorem Fair.same (h : s.Fair k) (s' : SchedState) (ht : s'.tasks = s.tasks)
    (hc : s'.cpus = s.cpus) : s.Keeps k s' := by
  refine h.settles ⟨fun i => .inr ?_, fun c => ?_, fun c => ?_, fun c i hi _ => ?_⟩
  · rw [ht]
    exact .refl _
  · rw [hc]
  · rw [hc]
  · rwa [hc] at hi

theorem Fair.onProcess (h : s.Fair k) (f : KProcess → KProcess) : s.Keeps k (s.onProcess p f) :=
  h.same _ rfl rfl

theorem Fair.onProcessOf (h : s.Fair k) (f : KProcess → KProcess) : s.Keeps k (s.onProcessOf i f) :=
  h.same _ (onProcessOf_tasks f) (onProcessOf_cpus f)

theorem Fair.leave (h : s.Fair k) (c : Nat) : s.Keeps k (s.leave c) :=
  h.onCpu rfl rfl fun _ hi _ => hi

theorem Fair.die (h : s.Fair k) {g : Task → Task}
    (hg : (s.tasks i).Settles (g (s.tasks i))) (hl : (g (s.tasks i)).state ≠ .unused) (c : Nat)
    (code : Int) (f : KProcess → KProcess) : s.Keeps k ((s.onTask i g).die c i code f) := by
  have h₁ := h.onTask hg
  have h₂ := h₁.trans (h₁.1.onTask (i := i)
    (f := fun t => { t with exitCode := code, state := .zombie })
    (.mk' rfl rfl rfl rfl (by simpa using hl) (.inr (by simp))))
  have h₃ :=
    h₂.trans (h₂.1.onProcessOf (i := i) fun p => { f p with exitCode := code, state := .zombie })
  exact h₃.trans (h₃.1.leave c)

/-- A call of the task on a processor. -/
theorem Fair.self (h : s.Fair k) {f : TaskSlot → SchedState}
    (hf : ∀ i, (s.cpus c).current = some i → s.Keeps k (f i)) : s.Keeps k (s.self c f) := by
  obtain he | ⟨i, hi, -, he⟩ := s.self_eq_or (c := c) f
  · rw [he]
    exact h.keeps
  · rw [he]
    exact hf i hi

theorem Fair.block (h : s.Fair k) (hu : (s.tasks i).state ≠ .unused) (c : Nat) (o : WaitObject) :
    s.Keeps k (s.block c i o) := by
  have h₁ := h.onTask (i := i) (f := fun t => { t with waitObject := some o, state := .blocked })
    (.mk' rfl rfl rfl rfl hu (.inr (by simp)))
  exact h₁.trans (h₁.1.leave c)

theorem Fair.wakeObject (h : s.Fair k) (o : WaitObject) : s.Keeps k (s.wakeObject o) := by
  unfold SchedState.wakeObject
  induction List.finRange kMaxTasks generalizing s with
  | nil => exact h.keeps
  | cons i l ih =>
      rw [List.foldl_cons]
      split
      · next hb =>
          have h₁ := h.taskReady (i := i) (by simp [hb.1])
          exact h₁.trans (ih h₁.1)
      · exact ih h

/-! ### Births -/

theorem Fair.fillTask (h : s.Fair k) (hok : s.Ok) (hu : (s.tasks i).state = .unused) {weight : Nat}
    (hw : 0 < weight) (cpu : Nat) (idle : Bool) (stack : Nat) :
    s.Keeps k (s.fillTask i weight cpu idle stack) := by
  obtain ⟨h₁, hf⟩ := h.cpuFloor cpu
  have ht : (s.cpuFloor cpu).tasks = s.tasks := cpuFloor_tasks
  have hi := s.fillTask_self i weight cpu idle stack
  rw [hok.blank hu] at hi
  have hne : ∀ {j}, j ≠ i →
      (s.fillTask i weight cpu idle stack).tasks j = (s.cpuFloor cpu).tasks j :=
    fun hj => by rw [fillTask_ne hj, ht]
  have hk : ∀ d, ((s.fillTask i weight cpu idle stack).cpus d).fairFloor =
        ((s.cpuFloor cpu).cpus d).fairFloor ∧
      ((s.fillTask i weight cpu idle stack).cpus d).slice = ((s.cpuFloor cpu).cpus d).slice ∧
      ((s.fillTask i weight cpu idle stack).cpus d).current =
        ((s.cpuFloor cpu).cpus d).current := by
    intro d
    obtain rfl | hd := eq_or_ne d cpu
    · simp [SchedState.fillTask]
    · simp [SchedState.fillTask, onCpu_ne _ hd]
  -- nobody runs the slot
  have hcur : ∀ d, ((s.cpuFloor cpu).cpus d).current ≠ some i := by
    intro d hd
    rw [((Calm.cpuFloor s cpu).cpus d).current] at hd
    exact (hok.current hd).2.2 hu
  refine ⟨⟨h.reserve, fun {j} hj => ?_, fun j => ?_, fun d => ?_, fun {d j} hj => ?_,
    fun {j} hj => ?_, fun {j} hj hidle => ?_⟩, fun d => ⟨?_, ?_⟩⟩
  · obtain rfl | hj' := eq_or_ne j i
    · rw [hi]
      exact hw
    · rw [hne hj'] at hj ⊢
      exact h₁.weight hj
  · obtain rfl | hj' := eq_or_ne j i
    · rw [hi]
      exact h₁.floorRange cpu
    · rw [hne hj']
      exact h₁.range j
  · rw [(hk d).1]
    exact h₁.floorRange d
  · rw [(hk d).1]
    obtain rfl | hj' := eq_or_ne j i
    · have hd : cpu = d := by simpa [counts, hi] using hj.1
      rw [hi, hd]
    · rw [hne hj']
      refine h₁.floor ?_
      simpa [counts, hne hj'] using hj
  · rw [(hk _).1]
    obtain rfl | hj' := eq_or_ne j i
    · rw [hi]
      exact Nat.le_add_right _ _
    · rw [hne hj'] at hj ⊢
      exact h₁.bound hj
  · rw [(hk _).2.2] at hj
    rw [(hk _).1]
    obtain rfl | hj' := eq_or_ne j i
    · exact absurd hj (hcur _)
    · rw [hne hj'] at hj hidle ⊢
      exact h₁.turn hj hidle
  · rw [(hk d).1]
    exact (hf d).1
  · rw [(hk d).2.1]
    exact (hf d).2

/-! ### Scheduling -/

/-- The reserve is what is left of the slice, at least one charge. -/
def reserveOf (s : SchedState) (c : Nat) : Nat := max 1 (s.cpus c).slice

/-- A task with a weight pays for a slice. -/
theorem Task.cost_pos {t : Task} (h : 0 < t.weight) : 0 < t.cost :=
  Nat.div_pos (by omega) h

/-- A smaller reserve is enough. -/
theorem Fair.mono (h : s.Fair k) {k' : Nat → Nat} (hk : ∀ c, k' c ≤ k c) : s.Fair k' := by
  refine { h with reserve := fun c => (hk c).trans (h.reserve c), turn := fun {i} hi hidle => ?_ }
  refine (h.turn hi hidle).imp_left fun ht => le_trans ?_ ht
  exact Nat.add_le_add_left (Nat.mul_le_mul_right _ (hk _)) _

/-- A change of the slice, and of the reserve with it. -/
theorem Fair.setSlice (h : s.Fair k) (n : Nat) :
    (s.onCpu c fun q => { q with slice := n }).Fair k := by
  have hc : ∀ d, ((s.onCpu c fun q => { q with slice := n }).cpus d).fairFloor =
        (s.cpus d).fairFloor ∧
      ((s.onCpu c fun q => { q with slice := n }).cpus d).current = (s.cpus d).current := by
    intro d
    obtain rfl | hd := eq_or_ne d c
    · simp
    · simp [onCpu_ne _ hd]
  refine ⟨h.reserve, h.weight, h.range, fun d => ?_, fun {d i} hi => ?_, fun {i} hi => ?_,
    fun {i} hi hidle => ?_⟩
  · rw [(hc d).1]
    exact h.floorRange d
  · rw [(hc d).1]
    exact h.floor hi
  · rw [(hc _).1]
    exact h.bound hi
  · rw [(hc _).2] at hi
    rw [(hc _).1]
    exact h.turn hi hidle

/-- **A charge takes one from the reserve.** -/
theorem Fair.charge (h : s.Fair k) (hcur : (s.cpus c).current = some i) (hcpu : (s.tasks i).cpu = c)
    (hu : (s.tasks i).state ≠ .unused) (hidle : (s.tasks i).idle = false)
    (hw : (s.tasks i).vruntime + (s.tasks i).cost < 2 ^ 64) {n r : Nat} (hn : n + 1 ≤ k c) :
    (s.onTask i fun t => Task.charge { t with runtime := r }).Fair (Function.update k c n) := by
  have hpos := Task.cost_pos (h.weight hu)
  have ht : (s.onTask i fun t => Task.charge { t with runtime := r }).tasks i =
      { s.tasks i with vruntime := (s.tasks i).vruntime + (s.tasks i).cost, runtime := r } := by
    rw [onTask_self]
    have hm : ((s.tasks i).vruntime + (s.tasks i).cost) % 2 ^ 64 =
        (s.tasks i).vruntime + (s.tasks i).cost := Nat.mod_eq_of_lt hw
    simp only [Task.charge]
    rw [← hm]
    rfl
  have hne : ∀ {j}, j ≠ i → (s.onTask i fun t => Task.charge { t with runtime := r }).tasks j =
      s.tasks j := fun hj => onTask_ne _ hj
  -- the charge is within the reserve, so the bound of eight charges is not passed
  have hturn := (h.turn (i := i) (by rw [hcpu]; exact hcur) hidle).resolve_right (by omega)
  rw [hcpu] at hturn
  have hmul : (n + 1) * (s.tasks i).cost ≤ k c * (s.tasks i).cost := Nat.mul_le_mul_right _ hn
  rw [Nat.add_mul, Nat.one_mul] at hmul
  have hcost : ∀ j, ((s.onTask i fun t => Task.charge { t with runtime := r }).tasks j).cost =
      (s.tasks j).cost := by
    intro j
    obtain rfl | hj := eq_or_ne j i
    · rw [ht]
      rfl
    · rw [hne hj]
  refine ⟨fun d => ?_, fun {j} hj => ?_, fun j => ?_, h.floorRange, fun {d j} hj => ?_,
    fun {j} hj => ?_, fun {j} hj hj' => ?_⟩
  · obtain rfl | hd := eq_or_ne d c
    · rw [Function.update_self]
      exact le_trans (by omega) (h.reserve d)
    · rw [Function.update_of_ne hd]
      exact h.reserve d
  · obtain rfl | hj' := eq_or_ne j i
    · rw [ht]
      exact h.weight hu
    · rw [hne hj'] at hj ⊢
      exact h.weight hj
  · obtain rfl | hj' := eq_or_ne j i
    · rw [ht]
      exact hw
    · rw [hne hj']
      exact h.range j
  · obtain rfl | hj' := eq_or_ne j i
    · rw [ht]
      have hc : s.counts d j := by
        unfold counts at hj
        rwa [ht] at hj
      exact (h.floor hc).trans (Nat.le_add_right _ _)
    · rw [hne hj']
      refine h.floor ?_
      simpa [counts, hne hj'] using hj
  · rw [hcost, onTask_cpus]
    obtain rfl | hj' := eq_or_ne j i
    · rw [ht]
      dsimp only
      rw [hcpu]
      omega
    · rw [hne hj'] at hj ⊢
      exact h.bound hj
  · rw [hcost, onTask_cpus]
    obtain rfl | hne' := eq_or_ne j i
    · rw [ht]
      dsimp only
      rw [hcpu, Function.update_self]
      exact .inl (by omega)
    · rw [hne hne'] at hj hj' ⊢
      have hd : (s.tasks j).cpu ≠ c := by
        intro hd
        rw [onTask_cpus, hd, hcur] at hj
        exact hne' (by simpa using hj.symm)
      rw [Function.update_of_ne hd]
      exact h.turn hj hj'

/-- The charge that `kernel_schedule` makes. -/
def Charged (s : SchedState) (i : TaskSlot) (forced : Bool) : Prop :=
  (s.tasks i).idle = false ∧ (forced = true → (s.tasks i).state = .running)

/-- The reserve after the head of `kernel_schedule`. -/
def reserveAfter (s : SchedState) (c : Nat) (forced : Bool) : Nat → Nat :=
  Function.update s.reserveOf c (if forced then 0 else (s.cpus c).slice - 1)

theorem Fair.account (h : s.Fair s.reserveOf) (hok : s.Ok) (hcur : (s.cpus c).current = some i)
    {forced : Bool} (hp : (s.tasks i).preemptDepth = 0)
    (hw : s.Charged i forced → (s.tasks i).vruntime + (s.tasks i).cost < 2 ^ 64) :
    (s.account c i forced).Fair (s.reserveAfter c forced) := by
  obtain ⟨-, hcpu, hu⟩ := hok.current hcur
  have hle : ∀ n, n ≤ s.reserveOf c → ∀ d, Function.update s.reserveOf c n d ≤ s.reserveOf d := by
    intro n hn d
    obtain rfl | hd := eq_or_ne d c
    · rwa [Function.update_self]
    · rw [Function.update_of_ne hd]
  have hr : 1 ≤ s.reserveOf c := le_max_left _ _
  unfold SchedState.account reserveAfter
  cases forced with
  | true =>
      simp only [if_true]
      -- a task that gives the processor up is charged what it was about to use
      by_cases hc : (s.tasks i).state = .running ∧ (s.tasks i).idle = false
      · have h₁ := h.charge (n := 0) (r := (s.tasks i).runtime) hcur hcpu hu hc.2
          (hw ⟨hc.2, fun _ => hc.1⟩) hr
        have he : (s.onTask i fun t =>
            if t.state = .running ∧ t.idle = false ∧ t.preemptDepth = 0 then t.charge else t) =
            s.onTask i fun t => Task.charge { t with runtime := (s.tasks i).runtime } :=
          onTask_congr (by rw [if_pos ⟨hc.1, hc.2, hp⟩])
        rw [he]
        exact h₁
      · have he : (s.onTask i fun t =>
            if t.state = .running ∧ t.idle = false ∧ t.preemptDepth = 0 then t.charge
              else t) = s := by
          have he' : (s.onTask i fun t =>
              if t.state = .running ∧ t.idle = false ∧ t.preemptDepth = 0 then t.charge else t) =
              s.onTask i fun t => t := onTask_congr (by rw [if_neg fun h => hc ⟨h.1, h.2.1⟩])
          rw [he', onTask_same]
        rw [he]
        exact h.mono (hle 0 (Nat.zero_le _))
  | false =>
      simp only [Bool.false_eq_true, if_false]
      -- a tick: the charge and the tick of the slice go together
      refine Fair.setSlice ?_ _
      cases hidle : (s.tasks i).idle with
      | false =>
          have h₁ :=
            h.charge (n := (s.cpus c).slice - 1) (r := (s.tasks i).runtime + 1) hcur hcpu hu
            hidle (hw ⟨hidle, by simp⟩) (by unfold reserveOf; omega)
          have he : (s.onTask i fun t =>
              if ({ t with runtime := t.runtime + 1 } : Task).idle = true then
                { t with runtime := t.runtime + 1 }
              else Task.charge { t with runtime := t.runtime + 1 }) =
              s.onTask i fun t => Task.charge { t with runtime := (s.tasks i).runtime + 1 } :=
            onTask_congr (by rw [if_neg (by simp [hidle])])
          rw [he]
          exact h₁
      | true =>
          have h₁ :=
            (h.mono (hle ((s.cpus c).slice - 1) (by unfold reserveOf; omega))).onTask (i := i)
            (f := fun t => { t with runtime := t.runtime + 1 }) (.mk' rfl rfl rfl rfl hu (.inl rfl))
          have he : (s.onTask i fun t =>
              if ({ t with runtime := t.runtime + 1 } : Task).idle = true then
                { t with runtime := t.runtime + 1 }
              else Task.charge { t with runtime := t.runtime + 1 }) =
              s.onTask i fun t => { t with runtime := t.runtime + 1 } :=
            onTask_congr (by rw [if_pos hidle])
          rw [he]
          exact h₁.1

theorem Fair.wakeSleepers (h : s.Fair k) (c now : Nat) : s.Keeps k (s.wakeSleepers c now).1 := by
  unfold SchedState.wakeSleepers
  generalize false = b
  induction List.finRange kMaxTasks generalizing s b with
  | nil => exact h.keeps
  | cons i l ih =>
      rw [List.foldl_cons]
      dsimp only
      split
      · next hd =>
          have h₁ := h.taskReady (i := i) (by simp [hd.2.1])
          exact h₁.trans (ih h₁.1 _)
      · exact ih h _

/-- The wake leaves the preemption depths. -/
theorem wakeSleepers_preemptDepth (s : SchedState) (c now : Nat) (j : TaskSlot) :
    ((s.wakeSleepers c now).1.tasks j).preemptDepth = (s.tasks j).preemptDepth := by
  unfold SchedState.wakeSleepers
  generalize false = b
  induction List.finRange kMaxTasks generalizing s b with
  | nil => rfl
  | cons i l ih =>
      rw [List.foldl_cons]
      dsimp only
      split
      · rw [ih]
        obtain rfl | hj := eq_or_ne j i
        · obtain ⟨v, hv⟩ := taskReady_self (s := s) (i := j)
          rw [hv]
        · rw [taskReady_ne hj]
      · exact ih s _

theorem account_preemptDepth (s : SchedState) (c : Nat) (i : TaskSlot) (forced : Bool) :
    ((s.account c i forced).tasks i).preemptDepth = (s.tasks i).preemptDepth := by
  unfold SchedState.account
  split
  · rw [onTask_self]
    split <;> rfl
  · rw [onCpu_tasks, onTask_self]
    dsimp only
    split <;> rfl

/-- The charge leaves the floors, and counts the slice down. -/
theorem account_cpu (s : SchedState) (c : Nat) (i : TaskSlot) (forced : Bool) (d : Nat) :
    ((s.account c i forced).cpus d).fairFloor = (s.cpus d).fairFloor ∧
    ((s.account c i forced).cpus d).slice =
      if d = c ∧ forced = false then (s.cpus d).slice - 1 else (s.cpus d).slice := by
  unfold SchedState.account
  cases forced with
  | true => simp
  | false =>
      obtain rfl | hd := eq_or_ne d c
      · simp
      · simp [onCpu_ne _ hd, hd]

theorem Fair.demote (h : s.Fair k) (i : TaskSlot) : s.Keeps k (s.demote i) := by
  unfold SchedState.demote
  split
  · next hr =>
      have h₁ := h.onTask (i := i) (f := fun t => { t with state := .ready })
        ⟨rfl, rfl, rfl, rfl, fun _ => by simp [hr], fun _ _ => .inr hr⟩
      exact h₁.trans (h₁.1.onProcessOf _)
  · exact h.keeps

/-- What `cpu_floor` does not raise the floor to is the end of the counter. -/
theorem min_le_cpuFloor (s : SchedState) (c : Nat) : s.minVruntime c = 2 ^ 64 - 1 ∨
    s.minVruntime c ≤ ((s.cpuFloor c).cpus c).fairFloor := by
  unfold cpuFloor
  by_cases hm : s.minVruntime c = 2 ^ 64 - 1
  · exact .inl hm
  · right
    split
    · rw [onCpu_self]
    · next h => exact not_lt.mp fun hlt => h ⟨hm, hlt⟩

theorem sliceFor_pos (w n : Nat) : 1 ≤ sliceFor w n := le_max_left _ _

/-- A slice is at most eight ticks. -/
theorem sliceFor_le (w n : Nat) : sliceFor w n ≤ 8 := by
  unfold sliceFor
  dsimp only
  omega

/-- **The task with the least virtual time gets the processor**, with a full reserve. -/
theorem Fair.dispatch (h : s.Fair k) {old best : TaskSlot} {w : Nat} {b : Bool}
    (hcur : (s.cpus c).current = some old) (hcpu : (s.tasks best).cpu = c)
    (hu : (s.tasks best).state ≠ .unused)
    (hrun : ∀ i, (s.tasks i).cpu = c → (s.tasks i).state ≠ .running)
    (hbest : (s.tasks best).idle = false → s.candidate c best ∧
      ∀ j, s.candidate c j → (s.tasks best).vruntime ≤ (s.tasks j).vruntime) :
    (s.dispatch c old best w b).Fair
        (Function.update k c (sliceFor (s.tasks best).weight w)) ∧
      ∀ d, (s.cpus d).fairFloor ≤ ((s.dispatch c old best w b).cpus d).fairFloor ∧
        ((s.dispatch c old best w b).cpus d).slice =
          if d = c then sliceFor (s.tasks best).weight w else (s.cpus d).slice := by
  -- the task is promoted
  have hp : s.Keeps k (s.promote c best b) := by
    refine h.settles ⟨fun j => .inr ?_, fun d => ?_, fun d => ?_, fun d j hj _ => ?_⟩
    · obtain rfl | hj := eq_or_ne j best
      · rw [promote_best]
        exact ⟨rfl, rfl, rfl, rfl, fun _ => hu, fun hi _ => .inl (hbest hi).1.2.1⟩
      · rw [promote_tasks_ne hj]
        exact .refl _
    all_goals obtain rfl | hd := eq_or_ne d c
    · rw [promote_cpu]
    · rw [promote_cpu_ne hd]
    · rw [promote_cpu]
    · rw [promote_cpu_ne hd]
    · rwa [promote_cpu] at hj
    · rwa [promote_cpu_ne hd] at hj
  have hf := hp.trans (hp.1.cpuFloor c)
  set s₁ := s.promote c best b with hs₁
  have hv : ((s₁.cpuFloor c).tasks best).vruntime = (s.tasks best).vruntime := by
    rw [cpuFloor_tasks, hs₁, promote_best]
  -- it has the least virtual time of all that count
  have hmin : (s.tasks best).idle = false →
      (s.tasks best).vruntime ≤ ((s₁.cpuFloor c).cpus c).fairFloor ∨
        (s.tasks best).vruntime = 2 ^ 64 - 1 := by
    intro hidle
    obtain ⟨-, hle⟩ := hbest hidle
    have hr := h.range best
    have h₁ : (s.tasks best).vruntime ≤ s₁.minVruntime c := by
      refine le_minVruntime (by omega) fun j hj => ?_
      obtain rfl | hne := eq_or_ne j best
      · rw [hs₁, promote_best]
      · obtain ⟨e₁, e₂, e₃⟩ := hj
        rw [hs₁, promote_tasks_ne hne] at e₁ e₂ e₃ ⊢
        exact hle j ⟨e₁, e₃.resolve_right (hrun j e₁), e₂⟩
    have h₂ : s₁.minVruntime c ≤ (s.tasks best).vruntime := by
      have hb : (s₁.tasks best).vruntime = (s.tasks best).vruntime := by rw [hs₁, promote_best]
      rw [← hb]
      refine minVruntime_le ?_
      rw [hs₁]
      unfold counts
      rw [promote_best]
      exact ⟨hcpu, hidle, .inr rfl⟩
    rcases s₁.min_le_cpuFloor c with h₃ | h₃
    · right
      omega
    · exact .inl (h₁.trans h₃)
  obtain ⟨n, hc⟩ := dispatch_cpu hcur best w b
  obtain ⟨m, hb⟩ := s.dispatch_best c old best w b
  have hcne : ∀ {d}, d ≠ c → (s.dispatch c old best w b).cpus d = (s₁.cpuFloor c).cpus d := by
    intro d hd
    rw [dispatch_cpu_ne hd, cpuFloor_cpu_ne hd, hs₁, promote_cpu_ne hd]
  have hfl : ∀ d, ((s.dispatch c old best w b).cpus d).fairFloor =
      ((s₁.cpuFloor c).cpus d).fairFloor := by
    intro d
    obtain rfl | hd := eq_or_ne d c
    · rw [hc]
    · rw [hcne hd]
  -- but for their counters of switches the tasks are as they were promoted
  have ht : ∀ j, ∃ m, (s.dispatch c old best w b).tasks j =
      { (s₁.cpuFloor c).tasks j with switches := m } := by
    intro j
    rw [cpuFloor_tasks, hs₁]
    obtain rfl | hj := eq_or_ne j best
    · exact ⟨m, by rw [hb, promote_best]⟩
    · exact ⟨(s.tasks j).switches, by rw [dispatch_tasks_ne hj, promote_tasks_ne hj]⟩
  generalize s.dispatch c old best w b = s' at hc hb hcne hfl ht ⊢
  refine ⟨⟨fun d => ?_, fun {j} hj => ?_, fun j => ?_, fun d => ?_, fun {d j} hj => ?_,
    fun {j} hj => ?_, fun {j} hj hidle => ?_⟩, fun d => ⟨?_, ?_⟩⟩
  · obtain rfl | hd := eq_or_ne d c
    · rw [Function.update_self]
      exact sliceFor_le _ _
    · rw [Function.update_of_ne hd]
      exact h.reserve d
  · obtain ⟨m, he⟩ := ht j
    rw [he] at hj ⊢
    exact hf.1.weight hj
  · obtain ⟨m, he⟩ := ht j
    rw [he]
    exact hf.1.range j
  · rw [hfl]
    exact hf.1.floorRange d
  · obtain ⟨m, he⟩ := ht j
    unfold counts at hj
    rw [he] at hj
    rw [hfl, he]
    exact hf.1.floor hj
  · obtain ⟨m, he⟩ := ht j
    rw [he] at hj
    rw [hfl, he]
    exact hf.1.bound hj
  · obtain ⟨m, he⟩ := ht j
    have hcost : (s'.tasks j).cost = ((s₁.cpuFloor c).tasks j).cost := by
      rw [he]
      rfl
    rw [hfl, hcost]
    rw [he] at hj hidle ⊢
    dsimp only at hj hidle ⊢
    obtain hd | hd := eq_or_ne ((s₁.cpuFloor c).tasks j).cpu c
    · rw [hd] at hj ⊢
      rw [hc] at hj
      obtain rfl : best = j := by simpa using hj
      rw [Function.update_self, hv]
      have hi : (s.tasks best).idle = false := by
        rwa [cpuFloor_tasks, hs₁, promote_best] at hidle
      have hs := Nat.mul_le_mul_right ((s₁.cpuFloor c).tasks best).cost
        (sliceFor_le (s.tasks best).weight w)
      rcases hmin hi with h₁ | h₁
      · left
        omega
      · exact .inr h₁
    · rw [hcne hd] at hj
      rw [Function.update_of_ne hd]
      exact hf.1.turn hj hidle
  · rw [hfl]
    exact (hf.2 d).1
  · obtain rfl | hd := eq_or_ne d c
    · rw [hc, if_pos rfl]
    · rw [hcne hd, if_neg hd]
      exact (hf.2 d).2

/-- **A scheduling step keeps the invariant**, unless a charge wraps. -/
theorem Fair.scheduleLocked (h : s.Fair s.reserveOf) (hok : s.Ok)
    (hcur : (s.cpus c).current = some i) {forced : Bool} (hp : (s.tasks i).preemptDepth = 0)
    (hw : s.Charged i forced → (s.tasks i).vruntime + (s.tasks i).cost < 2 ^ 64) (now : Nat) :
    (s.scheduleLocked c i forced now).Fair (s.scheduleLocked c i forced now).reserveOf ∧
      ∀ d, (s.cpus d).fairFloor ≤ ((s.scheduleLocked c i forced now).cpus d).fairFloor := by
  have h₁ := h.account hok hcur hp hw
  have h₂ := h₁.wakeSleepers c now
  have hcalm : s.Calm ((s.account c i forced).wakeSleepers c now).1 :=
    Calm.trans (.account (hok.current hcur).2.2 c forced) (.wakeSleepers _ c now)
  have hpd : (((s.account c i forced).wakeSleepers c now).1.tasks i).preemptDepth = 0 := by
    rw [wakeSleepers_preemptDepth, account_preemptDepth, hp]
  have hslice : ∀ d, (((s.account c i forced).wakeSleepers c now).1.cpus d).slice =
      if d = c ∧ forced = false then (s.cpus d).slice - 1 else (s.cpus d).slice := fun d => by
    rw [(h₂.2 d).2, (s.account_cpu c i forced d).2]
  have hfloor : ∀ d, (s.cpus d).fairFloor ≤
      (((s.account c i forced).wakeSleepers c now).1.cpus d).fairFloor := fun d => by
    rw [← (s.account_cpu c i forced d).1]
    exact (h₂.2 d).1
  unfold SchedState.scheduleLocked
  generalize (s.account c i forced).wakeSleepers c now = r at h₂ hcalm hpd hslice hfloor ⊢
  have hr := hok.calm hcalm
  have hcur' : (r.1.cpus c).current = some i := (hcalm.cpus c).current.trans hcur
  dsimp only
  split
  · next hs =>
      -- the tick was not the last of the slice
      obtain ⟨-, hs⟩ := hs
      obtain ⟨hforced, hsl, -⟩ := hs.resolve_left fun hn => hn hpd
      refine ⟨h₂.1.mono fun d => ?_, hfloor⟩
      have hd := hslice d
      unfold reserveOf reserveAfter
      obtain rfl | hne := eq_or_ne d c
      · rw [hslice, if_pos ⟨rfl, hforced⟩] at hsl
        rw [hd, if_pos ⟨rfl, hforced⟩, Function.update_self, hforced]
        simp only [Bool.false_eq_true, if_false]
        omega
      · rw [hd, if_neg fun he => hne he.1, Function.update_of_ne hne]
        exact le_rfl
  · have h₃ := h₂.1.demote i
    have hd := hr.calm_demote i
    have hok₃ := hr.calm hd
    have hcur₃ : ((r.1.demote i).cpus c).current = some i := (hd.cpus c).current.trans hcur'
    have hnr : ((r.1.demote i).tasks i).state ≠ .running := demote_not_running
    have hslice₃ : ∀ d, ((r.1.demote i).cpus d).slice = (r.1.cpus d).slice := fun d => (h₃.2 d).2
    have hfloor₃ : ∀ d, (s.cpus d).fairFloor ≤ ((r.1.demote i).cpus d).fairFloor :=
      fun d => (hfloor d).trans (h₃.2 d).1
    have hfair := h₃.1
    generalize r.1.demote i = σ at hok₃ hcur₃ hnr hslice₃ hfloor₃ hfair ⊢
    have hrun : ∀ j, (σ.tasks j).cpu = c → (σ.tasks j).state ≠ .running := by
      intro j hj hj'
      have hc := hok₃.running hj'
      rw [hj, hcur₃] at hc
      obtain rfl : i = j := by simpa using hc
      exact hnr hj'
    have hbest : ∃ best, (σ.pick c).1.or (σ.cpus c).idle = some best ∧ (σ.tasks best).cpu = c ∧
        (σ.tasks best).state ≠ .unused ∧ ((σ.tasks best).idle = false → σ.candidate c best ∧
          ∀ j, σ.candidate c j → (σ.tasks best).vruntime ≤ (σ.tasks j).vruntime) := by
      cases hp : (σ.pick c).1 with
      | none =>
          obtain ⟨q, hq⟩ := hok₃.hasIdle hcur₃
          obtain ⟨-, e₁, e₂, e₃⟩ := hok₃.idle hq
          exact ⟨q, hq, e₂, e₃, fun hi => by simp [e₁] at hi⟩
      | some best =>
          obtain ⟨e₁, e₂⟩ := pick_some hp
          exact ⟨best, rfl, e₁.1, by simp [e₁.2.1], fun _ => ⟨e₁, e₂⟩⟩
    obtain ⟨best, hb, e₁, e₂, e₃⟩ := hbest
    have he : σ.reschedule c i r.2 = σ.dispatch c i best (σ.pick c).2 r.2 := by
      simp only [SchedState.reschedule, hb]
    rw [he]
    obtain ⟨hf, hd'⟩ := hfair.dispatch (w := (σ.pick c).2) (b := r.2) hcur₃ e₁ e₂ hrun e₃
    refine ⟨hf.mono fun d => ?_, fun d => (hfloor₃ d).trans (hd' d).1⟩
    unfold reserveOf
    rw [(hd' d).2]
    obtain rfl | hne := eq_or_ne d c
    · rw [if_pos rfl, Function.update_self]
      exact max_le (sliceFor_pos _ _) le_rfl
    · rw [if_neg hne, Function.update_of_ne hne, hslice₃, hslice, if_neg fun he => hne he.1]
      unfold reserveAfter reserveOf
      rw [Function.update_of_ne hne]

/-! ### Steps -/

/-- No scheduling step happens while the current task has disabled preemption. -/
def Preemptible (s : SchedState) (e : SchedEvent) : Prop :=
  ∀ c forced now i, e = .schedule c forced now → (s.cpus c).current = some i →
    (s.tasks i).preemptDepth = 0

/-- The charge of a scheduling step does not wrap. -/
def NoWrap (s : SchedState) (e : SchedEvent) : Prop :=
  ∀ c forced now i, e = .schedule c forced now → (s.cpus c).current = some i →
    s.Charged i forced → (s.tasks i).vruntime + (s.tasks i).cost < 2 ^ 64

/-- The invariant at the boundaries of steps. -/
def Level (s : SchedState) : Prop := s.Fair s.reserveOf

/-- The floors only rise, and the invariant is kept. -/
def Rises (s s' : SchedState) : Prop :=
  s'.Level ∧ ∀ c, (s.cpus c).fairFloor ≤ (s'.cpus c).fairFloor

/-- What keeps the invariant raises the floors. -/
theorem Keeps.rises (h : s.Keeps s.reserveOf s') : s.Rises s' := by
  refine ⟨h.1.mono fun c => ?_, fun c => (h.2 c).1⟩
  unfold reserveOf
  rw [(h.2 c).2]

/-- `kernel_schedule` keeps the invariant where no virtual runtime wraps. -/
theorem Level.kernelSchedule (h : s.Level) (hok : s.Ok) {forced : Bool} {now : Nat}
    (hp : s.Preemptible (.schedule c forced now)) (hw : s.NoWrap (.schedule c forced now)) :
    s.Rises (s.kernelSchedule c forced now) := by
  unfold SchedState.kernelSchedule
  cases hcur : (s.cpus c).current with
  | none => exact Keeps.rises (Fair.keeps h)
  | some i =>
      have hp' := hp c forced now i rfl hcur
      have hw' := hw c forced now i rfl hcur
      dsimp only
      have ht : s.Keeps s.reserveOf (s.onCpu c fun q => { q with idleTicks := q.idleTicks + 1 }) :=
        Fair.onCpu h rfl rfl fun _ hi _ => hi
      split
      · next hidle =>
          split
          · have hok₁ := hok.calm (Calm.onCpu (c := c)
              (f := fun q => { q with idleTicks := q.idleTicks + 1 }) ⟨rfl, rfl, rfl, rfl, id⟩)
            obtain ⟨h₁, h₂⟩ := (Keeps.rises ht).1.scheduleLocked (c := c) (i := i) hok₁
              (by simpa using hcur) hp' hw' now
            exact ⟨h₁, fun d => ((Keeps.rises ht).2 d).trans (h₂ d)⟩
          · have hu := (hok.current hcur).2.2
            exact Keeps.rises (ht.trans (ht.1.onTask (i := i)
              (f := fun t => { t with runtime := t.runtime + 1 })
              (.mk' rfl rfl rfl rfl hu (.inl rfl))))
      · exact Fair.scheduleLocked h hok hcur hp' hw' now

/-- A slot freed is settled. -/
theorem Frees.settles (h : s.Frees s') : s.Settles s' := by
  refine ⟨fun i => ?_, fun c => by rw [h.cpus], fun c => by rw [h.cpus], fun c i hi _ => ?_⟩
  · rcases h.tasks i with he | ⟨-, -, he⟩
    · rw [he]
      exact .inr (.refl _)
    · exact .inl he
  · rwa [h.cpus] at hi

theorem Fair.newTask (h : s.Fair k) (hok : s.Ok) {weight : Nat} (hw : 0 < weight) (cpu : Nat)
    (idle : Bool) (stack : Nat) : s.Keeps k (s.newTask weight cpu idle stack).2 := by
  obtain he | ⟨i, he, -, hu⟩ := hok.newTask_cases weight cpu idle stack
  · rw [he]
    exact h.keeps
  · rw [he]
    exact h.fillTask hok hu hw cpu idle stack

theorem Fair.returnControl (h : s.Fair k) (hok : s.Ok) (c : Nat) :
    s.Keeps k (s.processReturnControl c) := by
  refine h.self fun i hi => ?_
  have hu := (hok.current hi).2.2
  split
  · next p request hp hr =>
      have hg : (s.tasks i).Settles { s.tasks i with controlRequest := none, preemptDepth := 0 } :=
        .mk' rfl rfl rfl rfl hu (.inl rfl)
      have h₁ :=
        h.onTask (i := i) (f := fun t => { t with controlRequest := none, preemptDepth := 0 })
        hg
      cases request with
      | kill =>
          have h₂ :=
            h.die (i := i) (g := fun t => { t with controlRequest := none, preemptDepth := 0 })
            hg hu c (-143) id
          exact h₂.trans (h₂.1.same _ rfl rfl)
      | stop =>
          have h₂ := h₁.trans (h₁.1.onTask (i := i) (f := fun t => { t with state := .stopped })
            (.mk' rfl rfl rfl rfl (by simpa using hu) (.inr (by simp))))
          have h₃ := h₂.trans (h₂.1.onProcess (p := p) fun q => { q with state := .stopped })
          exact h₃.trans (h₃.1.leave c)
      | «continue» => exact h₁.trans (h₁.1.leave c)
  · exact h.keeps

theorem Fair.control (h : s.Fair k) (pid : Nat) (op : Control) :
    s.Keeps k (s.processControlLocked pid op).2 := by
  obtain ⟨e, he⟩ | ⟨p, i, hp, hi, hz, -⟩ := s.processControlLocked_cases pid op
  · rw [he]
    exact h.keeps
  obtain ⟨hu, -⟩ := processTask_some hi
  simp only [processControlLocked, hp, hi, Option.bind_some, Option.map_some, if_neg hz]
  have hready : ∀ {σ : SchedState} {P : Prop} [Decidable P], s.Keeps k σ ∧
      (σ.tasks i).state ≠ .unused → s.Keeps k (if P then σ.processReady p i else σ) := by
    rintro σ P _ ⟨hσ, hu'⟩
    split
    · have h₁ := hσ.trans (hσ.1.taskReady hu')
      exact h₁.trans (h₁.1.same _ rfl rfl)
    · exact hσ
  have hreq : ∀ r, s.Keeps k (s.onTask i fun t => { t with controlRequest := r }) := fun r =>
    h.onTask (.mk' rfl rfl rfl rfl hu (.inl rfl))
  have hwork : ∀ {σ : SchedState}, s.Keeps k σ →
      s.Keeps k (σ.onCpu (σ.tasks i).cpu fun q => { q with workPending := true }) := fun hσ =>
    hσ.trans (hσ.1.onCpu rfl rfl fun _ hi _ => hi)
  refine hwork ?_
  have hcont : s.Keeps k (if (s.tasks i).controlRequest = some .kill then s else
      s.onTask i fun t => { t with controlRequest := none }) ∧
      ((if (s.tasks i).controlRequest = some .kill then s else
      s.onTask i fun t => { t with controlRequest := none }).tasks i).state ≠ .unused := by
    split
    · exact ⟨h.keeps, hu⟩
    · exact ⟨hreq _, by simpa using hu⟩
  have hset : s.Keeps k (if op = .kill ∨ ¬ (s.tasks i).controlRequest = some .kill then
      s.onTask i fun t => { t with controlRequest := some op } else s) ∧
      ((if op = .kill ∨ ¬ (s.tasks i).controlRequest = some .kill then
      s.onTask i fun t => { t with controlRequest := some op }
        else s).tasks i).state ≠ .unused := by
    split
    · exact ⟨hreq _, by simpa using hu⟩
    · exact ⟨h.keeps, hu⟩
  by_cases hop : op = .continue
  · rw [if_pos hop]
    exact hready hcont
  · rw [if_neg hop]
    exact hready hset

theorem Fair.smpStart (h : s.Fair k) (hok : s.Ok) (c stack : Nat) :
    s.Keeps k (s.smpStart c stack).2 := by
  unfold SchedState.smpStart
  obtain hn | ⟨i, hn, -, hu⟩ := hok.newTask_cases 1 c true stack
  · rw [hn]
    exact h.keeps
  · rw [hn]
    have h₁ := h.fillTask hok hu Nat.one_pos c true stack
    have hi : ((s.fillTask i 1 c true stack).tasks i).idle = true := by rw [fillTask_self]
    have h₂ := h₁.trans (h₁.1.onCpu (c := c)
      (f := fun q => { q with idle := some i, current := some i }) rfl rfl fun j hj hidle => by
        obtain rfl : i = j := by simpa using hj
        simp [hi] at hidle)
    dsimp only
    refine h₂.trans (h₂.1.onTask ⟨rfl, rfl, rfl, rfl, fun _ => ?_, fun hidle => ?_⟩)
    · simp [fillTask_self]
    · simp [fillTask_self] at hidle

theorem Fair.apMain (h : s.Fair k) (hok : s.Ok) (c : Nat) : s.Keeps k (s.apMain c) := by
  unfold SchedState.apMain
  split
  · exact h.keeps
  · next i hi =>
      obtain ⟨-, h₁, -, h₃⟩ := hok.idle hi
      have h₂ := h.onCpu (c := c)
        (f := fun q => { q with current := some i, stackOwner := some i, online := true }) rfl rfl
        fun j hj hidle => by
          obtain rfl : i = j := by simpa using hj
          simp [h₁] at hidle
      refine h₂.trans (h₂.1.onTask ⟨rfl, rfl, rfl, rfl, fun _ => h₃, fun hidle => ?_⟩)
      simp [h₁] at hidle

theorem Fair.create (h : s.Fair k) (hok : s.Ok) (weight cpu stack : Nat) :
    s.Keeps k (s.kTaskCreate weight cpu stack).2 := by
  unfold kTaskCreate
  split
  · exact h.keeps
  · next hn =>
      have hpos : 0 < weight := by
        simp only [not_or] at hn
        omega
      have h₁ := h.newTask hok hpos cpu false stack
      split
      · next he => rwa [he] at h₁
      · next he => rwa [he] at h₁

theorem Fair.sleep (h : s.Fair k) (hok : s.Ok) (c ms now : Nat) :
    s.Keeps k (s.kSleep c ms now) := by
  refine h.self fun i hi => ?_
  split
  · exact h.keeps
  · have h₁ := h.onTask (i := i) (f := fun t =>
      { t with wake := now + (min ms 86400000 * s.timerHz + 999) / 1000, state := .sleeping })
      (.mk' rfl rfl rfl rfl (hok.current hi).2.2 (.inr (by simp)))
    exact h₁.trans (h₁.1.leave c)

theorem Fair.exit (h : s.Fair k) (hok : s.Ok) (c : Nat) (code : Int) :
    s.Keeps k (s.kTaskExit c code) := by
  refine h.self fun i hi => ?_
  have hu := (hok.current hi).2.2
  split
  · exact h.keeps
  · exact h.die (.mk' rfl rfl rfl rfl hu (.inl rfl)) hu c code id

theorem Fair.fault (h : s.Fair k) (hok : s.Ok) (c vector ip address : Nat) :
    s.Keeps k (s.userFault c vector ip address) := by
  refine h.self fun i hi => ?_
  split
  · exact h.keeps
  · have h₁ := h.die (g := fun t => t) (.refl _) (hok.current hi).2.2 c (-(128 + vector)) fun p =>
      { p with
        faultVector := vector
        faultIp := ip
        faultAddress := if vector = 14 then address else 0 }
    rwa [onTask_same] at h₁

theorem Fair.badReturn (h : s.Fair k) (hok : s.Ok) (c ip sp : Nat) :
    s.Keeps k (s.badReturn c ip sp) := by
  refine h.self fun i hi => ?_
  have hu := (hok.current hi).2.2
  split
  · exact h.keeps
  · exact h.die (.mk' rfl rfl rfl rfl hu (.inl rfl)) hu c (-141) _

theorem Fair.reap (h : s.Fair k) (hok : s.Ok) (id : Nat) : s.Keeps k (s.kTaskReap id).2 := by
  unfold kTaskReap
  split
  · exact h.keeps
  · next i _ =>
      by_cases hz : (s.tasks i).state = .zombie
      · by_cases hn : s.onCpuNow i = true
        · simpa [hz, hn] using h.keeps
        · by_cases hpr : (s.tasks i).process.isSome = true
          · simpa [hz, hn, hpr] using h.keeps
          · have hfr : s.Frees (s.freeTask i) := .free hz (hok.off_of_onCpuNow (by simpa using hn))
            simpa [hz, hn, hpr] using h.settles hfr.settles
      · simpa [hz] using h.keeps

theorem Fair.preempt (h : s.Fair k) (hok : s.Ok) (c : Nat) {f : Task → Task}
    (hf : ∀ t, ∃ n, f t = { t with preemptDepth := n }) :
    s.Keeps k (s.self c fun i => s.onTask i f) := by
  refine h.self fun i hi => h.onTask ?_
  obtain ⟨n, hn⟩ := hf (s.tasks i)
  rw [hn]
  exact .mk' rfl rfl rfl rfl (hok.current hi).2.2 (.inl rfl)

theorem Fair.mutexTrylock (h : s.Fair k) (c m : Nat) : s.Keeps k (s.kMutexTrylock c m).2 := by
  rw [kMutexTrylock, call_snd]
  refine h.self fun i hi => ?_
  split
  · exact h.keeps
  · split
    · exact h.keeps
    · exact h.same _ rfl rfl

theorem Fair.mutexLock (h : s.Fair k) (hok : s.Ok) (c m : Nat) :
    s.Keeps k (s.kMutexLock c m).2 := by
  rw [kMutexLock, call_snd]
  refine h.self fun i hi => ?_
  split
  · exact h.same _ rfl rfl
  · split
    · exact h.keeps
    · exact h.block (hok.current hi).2.2 c _

theorem Fair.mutexUnlock (h : s.Fair k) (c m : Nat) : s.Keeps k (s.kMutexUnlock c m).2 := by
  rw [kMutexUnlock, call_snd]
  refine h.self fun i hi => ?_
  split
  · exact h.keeps
  · have h₁ := h.same (s.setMutex m 0) rfl rfl
    dsimp only
    exact h₁.trans (h₁.1.wakeObject (.mutex m))

theorem Fair.semTrywait (h : s.Fair k) (n : Nat) : s.Keeps k (s.kSemTrywait n).2 := by
  unfold kSemTrywait
  split
  · exact h.keeps
  · exact h.same _ rfl rfl

theorem Fair.semWait (h : s.Fair k) (hok : s.Ok) (c n : Nat) : s.Keeps k (s.kSemWait c n).2 := by
  rw [kSemWait, call_snd]
  refine h.self fun i hi => ?_
  split
  · exact h.same _ rfl rfl
  · split
    · exact h.keeps
    · exact h.block (hok.current hi).2.2 c _

theorem Fair.semPost (h : s.Fair k) (n : Nat) : s.Keeps k (s.kSemPost n) := by
  have h₁ : s.Keeps k (if s.semaphores n ≠ 0xffffffff then s.setSemaphore n (s.semaphores n + 1)
      else s) := by
    split
    · exact h.same _ rfl rfl
    · exact h.keeps
  exact h₁.trans (h₁.1.wakeObject (.semaphore n))

theorem Fair.processCreate (h : s.Fair k) (ring1 : Bool) :
    s.Keeps k (s.processCreateLocked ring1).2 := by
  unfold processCreateLocked
  split
  · exact h.keeps
  · split
    · exact h.keeps
    · exact h.same _ rfl rfl

theorem Fair.processCreateFailed (h : s.Fair k) (p : ProcessSlot) :
    s.Keeps k (s.processCreateFailed p) := by
  unfold SchedState.processCreateFailed
  split
  · exact h.keeps
  · exact h.onProcess _

theorem Fair.riefLoaded (h : s.Fair k) (p : ProcessSlot) : s.Keeps k (s.riefLoaded p) := by
  unfold SchedState.riefLoaded
  split
  · exact h.keeps
  · exact h.onProcess _

theorem Fair.processStart (h : s.Fair k) (hok : s.Ok) (p : ProcessSlot) (cpu : Option Nat)
    (stack : Nat) : s.Keeps k (s.processStartLocked p cpu stack).2 := by
  unfold processStartLocked
  split
  · exact h.keeps
  · dsimp only
    split
    · exact h.keeps
    · obtain hn | ⟨i, hn, -, hu⟩ := hok.newTask_cases 1024 (cpu.getD s.leastLoaded) false stack
      · rw [hn]
        exact h.keeps
      · rw [hn]
        have h₁ := h.fillTask hok hu (by decide : 0 < 1024) (cpu.getD s.leastLoaded) false stack
        have hi := s.fillTask_self i 1024 (cpu.getD s.leastLoaded) false stack
        have h₂ := h₁.trans (h₁.1.onTask (i := i) (f := fun t => { t with process := some p })
          (.mk' rfl rfl rfl rfl (by simp [hi]) (.inl rfl)))
        dsimp only
        exact h₂.trans (h₂.1.onProcess _)

theorem Fair.processDestroy (h : s.Fair k) (hok : s.Ok) (p : ProcessSlot) :
    s.Keeps k (s.processDestroyLocked p).2 := by
  unfold processDestroyLocked
  by_cases hu : (s.processes p).used = false
  · rw [if_pos hu]
    exact h.keeps
  rw [if_neg hu]
  by_cases hb : (s.processes p).taskId ≠ 0 ∧ (s.processes p).state ≠ .zombie
  · rw [if_pos hb]
    exact h.keeps
  rw [if_neg hb]
  by_cases ht : (s.processes p).taskId = 0
  · simp only [ht, ne_eq, not_true_eq_false, if_false, Bool.true_eq_false]
    exact h.same _ rfl rfl
  · have hz : (s.processes p).state = .zombie := by
      by_contra hz
      exact hb ⟨ht, hz⟩
    obtain ⟨hfr, -⟩ := Ok.freeTasksOf (List.finRange kMaxTasks) hok hz
    have h₁ := h.settles hfr.settles
    simp only [ne_eq, if_pos ht]
    split
    · exact h₁
    · exact h₁.trans (h₁.1.same _ rfl rfl)

theorem Fair.processDestroyed (h : s.Fair k) (b : Bool) : s.Keeps k (s.processDestroyed b) := by
  unfold SchedState.processDestroyed
  split
  · exact h.keeps
  · dsimp only
    split
    · exact h.same _ rfl rfl
    · exact h.same _ rfl rfl

/-- **Every step raises the floors and keeps the invariant**, unless a charge wraps. -/
theorem Level.step (h : s.Level) (hok : s.Ok) {e : SchedEvent} (hp : s.Preemptible e)
    (hw : s.NoWrap e) : s.Rises (s.step e) := by
  have hf : s.Fair s.reserveOf := h
  cases e with
  | schedule c forced now => exact h.kernelSchedule hok hp hw
  | stackSwitched c =>
      exact Keeps.rises
        (hf.onCpu (c := c) (f := fun q => { q with stackOwner := q.current }) rfl rfl
        fun _ hi _ => hi)
  | smpStart c stack => exact Keeps.rises (hf.smpStart hok c stack)
  | apMain c => exact Keeps.rises (hf.apMain hok c)
  | create weight cpu stack => exact Keeps.rises (hf.create hok weight cpu stack)
  | sleep c ms now => exact Keeps.rises (hf.sleep hok c ms now)
  | exit c code => exact Keeps.rises (hf.exit hok c code)
  | fault c vector ip address => exact Keeps.rises (hf.fault hok c vector ip address)
  | badReturn c ip sp => exact Keeps.rises (hf.badReturn hok c ip sp)
  | returnControl c => exact Keeps.rises (hf.returnControl hok c)
  | reap id => exact Keeps.rises (hf.reap hok id)
  | preemptDisable c => exact Keeps.rises (hf.preempt hok c fun t => ⟨_, rfl⟩)
  | preemptEnable c => exact Keeps.rises (hf.preempt hok c fun t => ⟨_, rfl⟩)
  | mutexTrylock c m => exact Keeps.rises (hf.mutexTrylock c m)
  | mutexLock c m => exact Keeps.rises (hf.mutexLock hok c m)
  | mutexUnlock c m => exact Keeps.rises (hf.mutexUnlock c m)
  | semInit n count => exact Keeps.rises (hf.same _ rfl rfl)
  | semTrywait n => exact Keeps.rises (hf.semTrywait n)
  | semWait c n => exact Keeps.rises (hf.semWait hok c n)
  | semPost n => exact Keeps.rises (hf.semPost n)
  | processCreate ring1 => exact Keeps.rises (hf.processCreate ring1)
  | processCreateFailed p => exact Keeps.rises (hf.processCreateFailed p)
  | riefLoaded p => exact Keeps.rises (hf.riefLoaded p)
  | processStart p cpu stack => exact Keeps.rises (hf.processStart hok p cpu stack)
  | processControl pid op => exact Keeps.rises (hf.control pid op)
  | processDestroy p => exact Keeps.rises (hf.processDestroy hok p)
  | processDestroyed b => exact Keeps.rises (hf.processDestroyed b)

/-! ### Runs -/

/-- A run whose steps all meet a condition on the state before them. -/
inductive StepsWith (P : SchedState → SchedEvent → Prop) : SchedState → SchedState → Prop where
  | refl (s : SchedState) : StepsWith P s s
  | next {s s' : SchedState} {e : SchedEvent} :
      StepsWith P s s' → s'.Enabled e → P s' e → StepsWith P s (s'.step e)

variable {P : SchedState → SchedEvent → Prop}

/-- Sections that meet a condition are sections. -/
theorem StepsWith.steps (h : StepsWith P s s') : Steps s s' := by
  induction h with
  | refl => exact .refl _
  | next _ he _ ih => exact .next ih he

/-- Every run whose sections do not wrap keeps the invariant, by induction on the run. -/
theorem Level.steps (h : s.Level) (hok : s.Ok)
    (hr : StepsWith (fun σ e => σ.Preemptible e ∧ σ.NoWrap e) s s') : s.Rises s' := by
  induction hr with
  | refl => exact ⟨h, fun _ => le_rfl⟩
  | next hr _ hp ih =>
      obtain ⟨h₁, h₂⟩ := ih.1.step (hok.steps hr.steps) hp.1 hp.2
      exact ⟨h₁, fun c => (ih.2 c).trans (h₂ c)⟩

/-- The boot task has run for no time, so that its floor stays where it is. -/
theorem booted_cpuFloor (discovered timerHz : Nat) :
    (booted discovered timerHz).cpuFloor 0 = booted discovered timerHz := by
  have hc : (booted discovered timerHz).counts 0 0 := by
    simp [counts, booted_tasks]
  have hm := minVruntime_le hc
  unfold SchedState.cpuFloor
  rw [if_neg fun h => ?_]
  rw [booted_tasks, if_pos rfl] at hm
  exact absurd (lt_of_lt_of_le h.2 hm) (Nat.not_lt_zero _)

/-- The processors after `k_scheduler_init`. -/
theorem initial_cpu {discovered timerHz stack : Nat} (hs : stack ≠ 0) (c : Nat) :
    ((initial discovered timerHz stack).cpus c).fairFloor = 0 ∧
    ((initial discovered timerHz stack).cpus c).slice = 0 := by
  rw [initial_eq hs, SchedState.fillTask, booted_cpuFloor]
  by_cases h0 : c = 0
  · subst h0
    simp [booted, blank]
  · simp [onCpu_ne _ h0, booted, blank]

/-- The invariant holds there. -/
theorem initial_level {discovered timerHz stack : Nat} (hs : stack ≠ 0) :
    (initial discovered timerHz stack).Level := by
  have hc := @initial_cpu discovered timerHz stack hs
  have ht : ∀ i, (initial discovered timerHz stack).tasks i =
      if i = 0 then { id := 1, cpu := 0, weight := 1024, state := .running }
      else if i = 1 then { id := 2, cpu := 0, weight := 1, stack, idle := true, state := .ready }
      else {} := by
    intro i
    rw [initial_eq hs, onCpu_tasks]
    by_cases hi : i = 1
    · rw [hi, fillTask_self, booted_cpuFloor, booted_tasks, if_neg (by decide),
        if_neg (by decide), if_pos rfl]
      rfl
    · rw [fillTask_ne hi, booted_tasks, if_neg hi]
  generalize initial discovered timerHz stack = s at hc ht ⊢
  have hv : ∀ i, (s.tasks i).vruntime = 0 := by
    intro i
    rw [ht]
    split_ifs <;> rfl
  have hk : ∀ c, s.reserveOf c = 1 := fun c => by
    rw [reserveOf, (hc c).2]
    rfl
  refine ⟨fun c => by rw [hk]; decide, fun {i} hu => ?_, fun i => by rw [hv]; decide,
    fun c => by rw [(hc c).1]; decide, fun {c i} _ => by rw [(hc c).1]; exact Nat.zero_le _,
    fun {i} _ => by rw [hv]; exact Nat.zero_le _, fun {i} _ _ => .inl ?_⟩
  · rw [ht] at hu ⊢
    split_ifs at hu ⊢
    · decide
    · exact Nat.one_pos
    · exact absurd rfl hu
  · rw [hv, hk, (hc _).1]
    omega

/-- What the fair share is: a task that can run is not below the floor of its processor, no task is
further above it than a whole slice of its own, and so of two tasks that can run neither is further
ahead than that. -/
structure Shared (s : SchedState) : Prop where
  floor : ∀ c i, s.counts c i → (s.cpus c).fairFloor ≤ (s.tasks i).vruntime
  bound : ∀ i, (s.tasks i).idle = false →
    (s.tasks i).vruntime ≤ (s.cpus (s.tasks i).cpu).fairFloor + 8 * (s.tasks i).cost
  lead : ∀ c i j, s.counts c i → s.counts c j →
    (s.tasks i).vruntime ≤ (s.tasks j).vruntime + 8 * (s.tasks i).cost

/-- The invariant bounds what a task is ahead of the floor and of the others. -/
theorem Level.shared (h : s.Level) : s.Shared where
  floor _ _ hi := h.floor hi
  bound _ hi := h.bound hi
  lead c i j hi hj := by
    have h₁ := h.bound hi.2.1
    rw [hi.1] at h₁
    have h₂ := h.floor hj
    omega

/-- **Fairness of runs.**  Where no turn is taken from a task with preemption disabled and no charge
wraps the counter of a task around, every state of the run is shared fairly, and the floors never
fall. -/
theorem scheduler_fairness {discovered timerHz stack : Nat} (hd : 0 < discovered) (hs : stack ≠ 0)
    (hr : StepsWith (fun σ e => σ.Preemptible e ∧ σ.NoWrap e)
      (initial discovered timerHz stack) s) :
    s.Shared ∧ ∀ s', StepsWith (fun σ e => σ.Preemptible e ∧ σ.NoWrap e) s s' →
      s'.Shared ∧ ∀ c, (s.cpus c).fairFloor ≤ (s'.cpus c).fairFloor := by
  have hok := @initial_ok discovered timerHz stack hd hs
  obtain ⟨h₁, -⟩ := (initial_level hs).steps hok hr
  refine ⟨h₁.shared, fun s' hr' => ?_⟩
  obtain ⟨h₂, h₃⟩ := h₁.steps (hok.steps hr.steps) hr'
  exact ⟨h₂.shared, h₃⟩

/-! ### The end of the counter -/

/-- The boot task is alone: `v` is its virtual time, `f` the floor of its processor. -/
structure Lone (v f : Nat) (s : SchedState) : Prop where
  cpu : (s.tasks 0).cpu = 0
  state : (s.tasks 0).state = .running
  idle : (s.tasks 0).idle = false
  weight : (s.tasks 0).weight = 1024
  preempt : (s.tasks 0).preemptDepth = 0
  process : (s.tasks 0).process = none
  vruntime : (s.tasks 0).vruntime = v
  other : ∀ i, i ≠ 0 → (s.tasks i).idle = true ∨ (s.tasks i).state = .unused
  awake : ∀ i, (s.tasks i).state ≠ .sleeping
  current : (s.cpus 0).current = some 0
  online : (s.cpus 0).online = true
  floor : (s.cpus 0).fairFloor = f

/-- With nobody asleep nobody is woken. -/
theorem wakeSleepers_awake (h : ∀ i, (s.tasks i).state ≠ .sleeping) (c now : Nat) :
    s.wakeSleepers c now = (s, false) := by
  unfold SchedState.wakeSleepers
  generalize List.finRange kMaxTasks = l
  induction l with
  | nil => rfl
  | cons i l ih =>
      rw [List.foldl_cons, if_neg fun hd => h i hd.2.1]
      simpa [h i] using ih

/-- The lone task can be charged. -/
theorem Lone.preemptible {v f : Nat} (h : s.Lone v f) : s.Preemptible (.schedule 0 true 0) := by
  intro c forced now i he hi
  obtain ⟨rfl, -, -⟩ : 0 = c ∧ true = forced ∧ 0 = now := by simpa using he
  obtain rfl : 0 = i := by simpa using h.current.symm.trans hi
  exact h.preempt

/-- The lone task is the only candidate when it gives up its turn. -/
theorem pick_lone (h : s.candidate c i) (ho : ∀ j, s.candidate c j → j = i) :
    (s.pick c).1 = some i := by
  cases hp : (s.pick c).1 with
  | none => exact absurd h (pick_none hp i)
  | some j => rw [ho j (pick_some hp).1]

/-- The lone task is chosen again; its virtual time is now `v'`. -/
theorem Lone.dispatch {v f v' : Nat} (h : s.Lone v f) (hv : v' < 2 ^ 64 - 1) {τ : SchedState}
    (hself : τ.tasks 0 = { s.tasks 0 with vruntime := v', state := .ready })
    (hne : ∀ i, i ≠ 0 → τ.tasks i = s.tasks i) (hcpus : τ.cpus = s.cpus) (w : Nat) :
    (τ.dispatch 0 0 0 w false).Lone v' (max f v') := by
  rw [SchedState.dispatch, if_pos rfl]
  have hproc : (τ.promote 0 0 false).tasks 0 =
      { s.tasks 0 with vruntime := v', state := .running } := by
    simp [promote, hself]
  have hproc' : ∀ i, i ≠ 0 → (τ.promote 0 0 false).tasks i = s.tasks i := fun i hi => by
    simp [promote, onTask_ne _ hi, hne i hi]
  have hcpu : ∃ b, (τ.promote 0 0 false).cpus 0 = { s.cpus 0 with workPending := b } := by
    refine ⟨!(τ.tasks 0).idle || false, ?_⟩
    simp [promote, hcpus]
  generalize τ.promote 0 0 false = ρ at hproc hproc' hcpu ⊢
  -- the minimum over the tasks of the processor is that of the one task
  have hmin : ρ.minVruntime 0 = v' := by
    refine Nat.le_antisymm ?_ (le_minVruntime ?_ fun i hi => ?_)
    · have hc : ρ.counts 0 0 := by
        simp [counts, hproc, h.cpu, h.idle]
      simpa [hproc] using minVruntime_le hc
    · exact hv.le
    · obtain rfl | hi0 := eq_or_ne i 0
      · rw [hproc]
      · rcases h.other i hi0 with ho | ho
        · simp [counts, hproc' i hi0, ho] at hi
        · simp [counts, hproc' i hi0, ho] at hi
  obtain ⟨b, hcpu⟩ := hcpu
  have hfloor : ((ρ.cpuFloor 0).cpus 0).fairFloor = max f (v') := by
    unfold SchedState.cpuFloor
    rw [hmin, hcpu]
    dsimp only
    rw [h.floor]
    split
    · next hlt => rw [onCpu_self, max_eq_right hlt.2.le]
    · next hlt =>
        rw [hcpu]
        dsimp only
        rw [h.floor, max_eq_left (not_lt.1 fun hl => hlt ⟨hv.ne, hl⟩)]
  obtain ⟨g, hg⟩ := cpuFloor_cpu (s := ρ) (c := 0)
  constructor
  case other =>
    intro i hi
    simpa [hproc' i hi] using h.other i hi
  case awake =>
    intro i
    obtain rfl | hi := eq_or_ne i 0
    · simp [hproc]
    · simpa [hproc' i hi] using h.awake i
  case floor => simpa using hfloor
  case current => simpa [hg, hcpu] using h.current
  case online => simpa [hg, hcpu] using h.online
  all_goals simp [hproc, h.cpu, h.idle, h.weight, h.preempt, h.process]

/-- A turn of the lone task ends with its next turn. -/
theorem Lone.yield {v f : Nat} (h : s.Lone v f) (hv : (v + 1024) % 2 ^ 64 ≠ 2 ^ 64 - 1) :
    (s.kernelSchedule 0 true 0).Lone ((v + 1024) % 2 ^ 64) (max f ((v + 1024) % 2 ^ 64)) := by
  have hcost : (s.tasks 0).cost = 1024 := by
    rw [Task.cost, h.weight]
  have hcharge : s.account 0 0 true = s.onTask 0 Task.charge :=
    onTask_congr (by simp [h.state, h.idle, h.preempt])
  have hself : (s.onTask 0 Task.charge).tasks 0 =
      { s.tasks 0 with vruntime := (v + 1024) % 2 ^ 64 } := by
    rw [onTask_self, Task.charge, hcost, h.vruntime]
  have hne : ∀ i, i ≠ 0 → (s.onTask 0 Task.charge).tasks i = s.tasks i :=
    fun i hi => onTask_ne _ hi
  have hcpus : (s.onTask 0 Task.charge).cpus = s.cpus := rfl
  unfold SchedState.kernelSchedule
  rw [h.current]
  dsimp only
  rw [if_neg (by simp), SchedState.scheduleLocked, hcharge]
  generalize s.onTask 0 Task.charge = σ at hself hne hcpus ⊢
  have hawake : ∀ i, (σ.tasks i).state ≠ .sleeping := by
    intro i
    obtain rfl | hi := eq_or_ne i 0
    · rw [hself]
      exact h.awake 0
    · rw [hne i hi]
      exact h.awake i
  have hstays : ¬ σ.stays 0 0 true := by
    simp [stays, hself, h.preempt]
  have hdemote : σ.demote 0 = σ.onTask 0 fun t => { t with state := .ready } := by
    rw [demote, hself, if_pos h.state, SchedState.onProcessOf, onTask_self, hself, h.process]
  rw [wakeSleepers_awake hawake]
  dsimp only
  rw [if_neg hstays, hdemote]
  have hself' : (σ.onTask 0 fun t => { t with state := .ready }).tasks 0 =
      { s.tasks 0 with vruntime := (v + 1024) % 2 ^ 64, state := .ready } := by
    rw [onTask_self, hself]
  have hne' : ∀ i, i ≠ 0 → (σ.onTask 0 fun t => { t with state := .ready }).tasks i = s.tasks i :=
    fun i hi => by rw [onTask_ne _ hi, hne i hi]
  have hcpus' : (σ.onTask 0 fun t => { t with state := .ready }).cpus = s.cpus := hcpus
  generalize (σ.onTask 0 fun t => { t with state := .ready }) = τ at hself' hne' hcpus' ⊢
  have hpick : (τ.pick 0).1 = some 0 := by
    refine pick_lone ⟨by rw [hself']; exact h.cpu, by rw [hself'], by rw [hself']; exact h.idle⟩ ?_
    intro j hj
    by_contra hj0
    rcases h.other j hj0 with ho | ho
    · simp [candidate, hne' j hj0, ho] at hj
    · simp [candidate, hne' j hj0, ho] at hj
  rw [reschedule, hpick]
  dsimp only [Option.or]
  exact h.dispatch (by omega) hself' hne' hcpus' (τ.pick 0).2

/-- At first the boot task is alone. -/
theorem initial_lone : (initial 1 1000 4096).Lone 0 0 := by
  have hs : (4096 : Nat) ≠ 0 := by decide
  obtain ⟨v, ht⟩ := @initial_tasks 1 1000 4096 hs
  obtain ⟨h₁, -, -, h₂⟩ := @initial_cpus 1 1000 4096 hs 0
  have h₃ := (@initial_cpu 1 1000 4096 hs 0).1
  constructor
  case other =>
    intro i hi
    rw [ht, if_neg hi]
    split
    · exact .inl rfl
    · exact .inr rfl
  case awake =>
    intro i
    rw [ht]
    split_ifs <;> simp
  case floor => exact h₃
  case current => exact h₁
  case online => exact h₂
  all_goals rw [ht, if_pos rfl]

/-- The boot task yields `n` times. -/
theorem exists_lone (n : Nat) (hn : n < 2 ^ 54) :
    ∃ s, StepsWith Preemptible (initial 1 1000 4096) s ∧ s.Lone (1024 * n) (1024 * n) := by
  induction n with
  | zero => exact ⟨_, .refl _, initial_lone⟩
  | succ n ih =>
      obtain ⟨s, hr, hl⟩ := ih (by omega)
      have hmod : (1024 * n + 1024) % 2 ^ 64 = 1024 * (n + 1) := by omega
      have hy := hl.yield (by omega)
      rw [hmod, max_eq_right (by omega)] at hy
      exact ⟨_, hr.next (enabled_on (e := .schedule 0 true 0) rfl hl.online rfl) hl.preemptible, hy⟩

/-- **The counter ends.**  A boot task that yields `2^54` times starts again at zero, below a floor
that stays where it was. -/
theorem boot_task_wraps :
    ¬ ∀ s, StepsWith Preemptible (initial 1 1000 4096) s → s.Shared := by
  intro hall
  obtain ⟨s, hr, hl⟩ := exists_lone (2 ^ 54 - 1) (by decide)
  have hy := hl.yield (by decide)
  have hs :=
    hall _ (hr.next (enabled_on (e := .schedule 0 true 0) rfl hl.online rfl) hl.preemptible)
  have hlt := hs.floor 0 0 ⟨hy.cpu, hy.idle, .inr hy.state⟩
  rw [step, hy.vruntime, hy.floor] at hlt
  exact absurd hlt (by decide)

/-- A second task of twice the weight runs first, and goes to sleep for 5 ms. -/
def sleepy : SchedState :=
  ((((initial 1 1000 4096).step (.create 2048 0 8192)).step (.schedule 0 true 0)).step
    (.sleep 0 5 0)).step
    (.schedule 0 true 1)

/-- A charge below the end of the counter. -/
theorem preemptible_noWrap {i : TaskSlot} {now : Nat} (hi : (s.cpus 0).current = some i)
    (hp : (s.tasks i).preemptDepth = 0) (hw : (s.tasks i).vruntime + (s.tasks i).cost < 2 ^ 64) :
    s.Preemptible (.schedule 0 true now) ∧ s.NoWrap (.schedule 0 true now) := by
  constructor
  · rintro c forced t j he hj
    cases he
    obtain rfl := Option.some.inj (hi.symm.trans hj)
    exact hp
  · rintro c forced t j he hj -
    cases he
    obtain rfl := Option.some.inj (hi.symm.trans hj)
    exact hw

/-- Two tasks, of which one sleeps and is woken. -/
theorem sleepy_run :
    StepsWith (fun σ e => σ.Preemptible e ∧ σ.NoWrap e) (initial 1 1000 4096) sleepy := by
  refine .next (.next (.next (.next (.refl _) ?_ ?_) ?_ ?_) ?_ ?_) ?_ ?_
  · exact enabled_off rfl (by simp) (by simp) (by decide +kernel)
  · exact ⟨fun _ _ _ _ he => (by cases he), fun _ _ _ _ he => (by cases he)⟩
  · exact enabled_on rfl (by decide +kernel) rfl
  · exact preemptible_noWrap (i := 0) (by decide +kernel) (by decide +kernel) (by decide +kernel)
  · exact enabled_on rfl (by decide +kernel) rfl
  · exact ⟨fun _ _ _ _ he => (by cases he), fun _ _ _ _ he => (by cases he)⟩
  · exact enabled_on rfl (by decide +kernel) rfl
  · exact preemptible_noWrap (i := 2) (by decide +kernel) (by decide +kernel) (by decide +kernel)

/-- The boot task yields, and the other one wakes at its floor and not at the zero where it
stopped. -/
theorem scheduler_fairness_yield :
    ((sleepy.tasks 2).state = .sleeping ∧ (sleepy.tasks 2).vruntime = 0) ∧
      (((sleepy.step (.schedule 0 true 9)).tasks 2).state = .ready ∧
        ((sleepy.step (.schedule 0 true 9)).tasks 2).vruntime = 2048) ∧
      (sleepy.step (.schedule 0 true 9)).Shared ∧ (sleepy.cpus 0).fairFloor = 1024 ∧
        (sleepy.cpus 0).fairFloor ≤ ((sleepy.step (.schedule 0 true 9)).cpus 0).fairFloor := by
  have hon : (sleepy.cpus 0).online = true := by decide +kernel
  have hstep : StepsWith (fun σ e => σ.Preemptible e ∧ σ.NoWrap e) sleepy
      (sleepy.step (.schedule 0 true 9)) :=
    .next (.refl _) (enabled_on rfl hon rfl)
      (preemptible_noWrap (i := 0) (by decide +kernel) (by decide +kernel) (by decide +kernel))
  obtain ⟨-, hrun⟩ := scheduler_fairness (by decide) (by decide) sleepy_run
  obtain ⟨hshared, hfloor⟩ := hrun _ hstep
  exact ⟨by decide +kernel, by decide +kernel, hshared, by decide +kernel, hfloor 0⟩

end SchedState

end Efishell
