import Efishell.Kernel.SchedSafe

/-!
# Kernel — births and deaths of tasks

A task dies where it executes: by exit, a fault, a bad frame or a kill.  Its slot is freed later, by
`k_task_reap` or with its process, and given to a new task with a new identifier.

* `Ok.fillTask`: a task is born in an unused slot, with an unused identifier.
* `Ok.step`, `Ok.steps`: every section and every run keeps the invariant.
* `scheduler_safety`: what that says of tasks, processors and processes.
-/

namespace Efishell

namespace SchedState

variable {s s' : SchedState} {i j : TaskSlot} {c d : Nat} {p q : ProcessSlot}

/-! ### Death -/

/-- **The task that executes on a processor dies.**  `g` is what is done to it besides. -/
theorem Ok.die (h : s.Ok) (hcur : (s.cpus c).current = some i) (hidle : (s.tasks i).idle = false)
    {g : Task → Task} (hg : (s.tasks i).Kin (g (s.tasks i))) {f : KProcess → KProcess}
    (hf : ∀ q, (f q).used = q.used ∧ (f q).taskId = q.taskId) (code : Int) :
    s.Advances ((s.onTask i g).die c i code f) := by
  set s' := (s.onTask i g).die c i code f with hs'
  have hi : s'.tasks i = { g (s.tasks i) with exitCode := code, state := .zombie } := by
    simp [hs', SchedState.die, leave]
  have hne : ∀ j, j ≠ i → s'.tasks j = s.tasks j := fun j hj => by
    simp [hs', SchedState.die, leave, onTask_ne _ hj]
  have hc : s'.cpus c = { s.cpus c with leaving := true } := by
    simp [hs', SchedState.die, leave]
  have hcne : ∀ d, d ≠ c → s'.cpus d = s.cpus d := fun d hd => by
    simp [hs', SchedState.die, leave, onCpu_ne _ hd]
  have hpr : ∀ q, (s.tasks i).process = some q →
      s'.processes q = { f (s.processes q) with exitCode := code, state := .zombie } := by
    intro q hq
    refine onProcessOf_process ?_
    rw [onTask_self, onTask_self]
    exact hg.process.trans hq
  have hprne : ∀ q, (s.tasks i).process ≠ some q → s'.processes q = s.processes q := by
    intro q hq
    refine onProcessOf_process_ne ?_
    rw [onTask_self, onTask_self]
    exact fun h => hq (hg.process.symm.trans h)
  obtain ⟨e₁, e₂, e₃⟩ := onProcessOf_rest ((s.onTask i g).onTask i fun t =>
    { t with exitCode := code, state := .zombie }) i
    fun p => { f p with exitCode := code, state := .zombie }
  have hkin : ∀ j, (s.tasks j).Kin (s'.tasks j) := by
    intro j
    obtain rfl | hj := eq_or_ne j i
    · rw [hi]
      exact ⟨hg.id, hg.cpu, hg.weight, hg.stack, hg.idle, hg.process,
        fun hu => absurd hu (h.current hcur).2.2, by simp⟩
    · rw [hne j hj]
      exact .refl _
  -- a processor keeps its tasks; it only becomes one that is leaving
  have hsame : ∀ d, (s'.cpus d).current = (s.cpus d).current ∧ (s'.cpus d).idle = (s.cpus d).idle ∧
      (s'.cpus d).stackOwner = (s.cpus d).stackOwner ∧ (s'.cpus d).online = (s.cpus d).online := by
    intro d
    obtain rfl | hd := eq_or_ne d c
    · simp [hc]
    · simp [hcne d hd]
  refine ⟨h.rewire hkin (fun q => ?_) (fun d j hj => ?_) (fun d j hj => ?_) e₁ e₂ e₃
    (fun d j hj => ?_) (fun j hj => ?_) (fun d j hj => ?_) (fun j hj hz => ?_) (fun d j hj hz => ?_)
    (fun d ho => ?_) (fun j q hq => ?_) fun j hk hs => ?_, .of_later (fun j => ?_) e₂⟩
  · by_cases hq : (s.tasks i).process = some q
    · rw [hpr q hq]
      exact hf _
    · rw [hprne q hq]
      exact ⟨rfl, rfl⟩
  · exact h.idle ((hsame d).2.1 ▸ hj)
  · exact h.owner ((hsame d).2.2.1 ▸ hj)
  · exact h.current ((hsame d).1 ▸ hj)
  · obtain rfl | hj' := eq_or_ne j i
    · simp [hi] at hj
    · rw [(hsame _).1]
      exact h.running (hne j hj' ▸ hj)
  · rw [(hsame d).2.1]
    exact h.hasIdle ((hsame d).1 ▸ hj)
  · obtain rfl | hj' := eq_or_ne j i
    · simp [hidle] at hj
    · exact (h.idleTask hj).1 (hne j hj' ▸ hz)
  · obtain rfl | hd := eq_or_ne d c
    · simp [hc]
    · rw [hcne d hd] at hj ⊢
      obtain rfl | hj' := eq_or_ne j i
      · exact absurd ((h.current hj).2.1.symm.trans (h.current hcur).2.1) hd
      · exact h.leaving hj (hne j hj' ▸ hz)
  · rw [(hsame d).1, (hsame d).2.1]
    exact h.offline ((hsame d).2.2.2 ▸ ho)
  · obtain rfl | hj' := eq_or_ne j i
    · simp [hpr q hq, hi]
    · rw [hprne q fun hq' => hj' (h.process_inj hq hq'), hne j hj']
      exact (h.process hq).2.2
  · obtain rfl | hj' := eq_or_ne j i
    · simp [hi] at hs
    · rw [hne j hj'] at hk hs
      exact h.kill hk hs
  · obtain rfl | hj' := eq_or_ne j i
    · refine ⟨hkin j, fun _ => ?_, fun _ => .inr ?_⟩
      all_goals rw [hi]
    · rw [hne j hj']
      exact (Task.Calm.refl _).later

/-- A call of the task on a processor. -/
theorem Ok.advances_self (h : s.Ok) {f : TaskSlot → SchedState}
    (hf : ∀ i, (s.cpus c).current = some i → (s.cpus c).leaving = false → s.Advances (f i)) :
    s.Advances (s.self c f) := by
  obtain he | ⟨i, hi, hl, he⟩ := s.self_eq_or (c := c) f
  · rw [he]
    exact h.advances (.refl s)
  · rw [he]
    exact hf i hi hl

/-- `k_task_exit` keeps the invariant, and every task its life. -/
theorem Ok.advances_exit (h : s.Ok) (c : Nat) (code : Int) : s.Advances (s.kTaskExit c code) := by
  refine h.advances_self fun i hi _ => ?_
  split
  · exact h.advances (.refl s)
  · next hn =>
      have hidle : (s.tasks i).idle = false := by simpa using (not_or.mp hn).1
      exact h.die (g := fun t => { t with preemptDepth := 0 }) hi hidle
        ⟨rfl, rfl, rfl, rfl, rfl, rfl, fun hu => absurd hu (h.current hi).2.2, id⟩
        (fun q => ⟨rfl, rfl⟩) code

/-- A task with a process is no idle task. -/
theorem Ok.not_idle (h : s.Ok) (hp : (s.tasks i).process ≠ none) : (s.tasks i).idle = false := by
  cases hi : (s.tasks i).idle with
  | false => rfl
  | true => exact absurd (h.idleTask hi).2 hp

/-- A fault in Ring 3 keeps the invariant, and every task its life. -/
theorem Ok.advances_fault (h : s.Ok) (c vector ip address : Nat) :
    s.Advances (s.userFault c vector ip address) := by
  refine h.advances_self fun i hi _ => ?_
  split
  · exact h.advances (.refl s)
  · next hp =>
      have hd := h.die (g := fun t => t) hi (h.not_idle hp) (.refl _) (f := fun p =>
        { p with
          faultVector := vector
          faultIp := ip
          faultAddress := if vector = 14 then address else 0 }) (fun q => ⟨rfl, rfl⟩)
          (-(128 + vector))
      rwa [onTask_same] at hd

/-- A return that is refused keeps the invariant, and every task its life. -/
theorem Ok.advances_badReturn (h : s.Ok) (c ip sp : Nat) : s.Advances (s.badReturn c ip sp) := by
  refine h.advances_self fun i hi _ => ?_
  split
  · exact h.advances (.refl s)
  · next hp =>
      exact h.die (g := fun t => { t with preemptDepth := 0 }) hi (h.not_idle hp)
        ⟨rfl, rfl, rfl, rfl, rfl, rfl, fun hu => absurd hu (h.current hi).2.2, id⟩
        (f := fun p => { p with faultVector := 13, faultAddress := sp, faultIp := ip })
        (fun q => ⟨rfl, rfl⟩) (-141)

theorem Calm.release (s : SchedState) (pid : Nat) : s.Calm (s.processResourcesRelease pid) := .rest

/-- A request that is no kill is taken. -/
theorem Calm.taken (hu : (s.tasks i).state ≠ .unused)
    (hr : (s.tasks i).controlRequest ≠ some .kill) :
    s.Calm (s.onTask i fun t => { t with controlRequest := none, preemptDepth := 0 }) :=
  .onTask ⟨⟨rfl, rfl, rfl, rfl, rfl, rfl, fun hu' => absurd hu' hu, id⟩, Iff.rfl, id,
    fun hk => absurd hk hr, fun hk => by cases hk⟩

/-- A task that stops is calm. -/
theorem Calm.stop (hu : (s.tasks i).state ≠ .unused) (hz : (s.tasks i).state ≠ .zombie)
    (hr : (s.tasks i).controlRequest = none) :
    s.Calm (s.onTask i fun t => { t with state := .stopped }) :=
  .onTask (.move rfl rfl rfl rfl rfl rfl id hu hz (by simp) (by simp) (by simp) (by simp [hr]))

/-- The return to Ring 3 keeps the invariant, and every task its life. -/
theorem Ok.advances_returnControl (h : s.Ok) (c : Nat) : s.Advances (s.processReturnControl c) := by
  refine h.advances_self fun i hi hl => ?_
  have hu := (h.current hi).2.2
  have hz := h.not_zombie hi hl
  split
  · next p request hp hr =>
      cases request with
      | kill =>
          exact (h.die (g := fun t => { t with controlRequest := none, preemptDepth := 0 }) hi
            (h.not_idle (by simp [hp])) ⟨rfl, rfl, rfl, rfl, rfl, rfl,
            fun hu' => absurd hu' hu, id⟩ (fun q => ⟨rfl, rfl⟩) (-143)).calm (.release _ _)
      | stop =>
          have h₁ :
              s.Calm (s.onTask i fun t => { t with controlRequest := none, preemptDepth := 0 }) :=
            .taken hu (by simp [hr])
          have h₂ := h₁.trans (Calm.stop (i := i) (by simpa using hu) (by simpa using hz) (by simp))
          refine h.advances ((h₂.trans (Calm.processState ?_ (by simp))).trans (.leave _ c))
          exact h.process_not_zombie hp hz
      | «continue» =>
          have h₁ :
              s.Calm (s.onTask i fun t => { t with controlRequest := none, preemptDepth := 0 }) :=
            .taken hu (by simp [hr])
          exact h.advances (h₁.trans (.leave _ c))
  · exact h.advances (.refl s)

/-! ### Birth -/

/-- What `new_task` does; a slot that is not in use is blank. -/
theorem Ok.newTask_cases (h : s.Ok) (weight cpu : Nat) (idle : Bool) (stack : Nat) :
    s.newTask weight cpu idle stack = (none, s) ∨
    ∃ i, s.newTask weight cpu idle stack = (some i, s.fillTask i weight cpu idle stack) ∧
      s.nextTaskId ≠ 0 ∧ (s.tasks i).state = .unused := by
  unfold newTask
  by_cases hn : s.nextTaskId = 0
  · rw [if_pos hn]
    exact .inl rfl
  rw [if_neg hn]
  cases hf : (List.finRange kMaxTasks).find? fun i => decide ((s.tasks i).state = .unused) with
  | none => exact .inl rfl
  | some i =>
      have hu : (s.tasks i).state = .unused := by simpa using List.find?_some hf
      have he : (s.onTask i fun _ => {}) = s := by
        have hb : (s.onTask i fun _ => {}) = s.onTask i fun t => t := onTask_congr (h.blank hu).symm
        rw [hb, onTask_same]
      dsimp only
      rw [he]
      by_cases hs : stack = 0
      · rw [if_pos hs]
        exact .inl rfl
      · rw [if_neg hs]
        exact .inr ⟨i, rfl, hn, hu⟩

section fillTask

variable {weight cpu stack : Nat} {idle : Bool}

/-- The slot as it is filled. -/
theorem fillTask_self (s : SchedState) (i : TaskSlot) (weight cpu : Nat) (idle : Bool)
    (stack : Nat) : (s.fillTask i weight cpu idle stack).tasks i =
      { s.tasks i with
        id := s.nextTaskId, cpu, weight, stack, idle
        vruntime := ((s.cpuFloor cpu).cpus cpu).fairFloor
        state := .ready } := by
  simp [fillTask]

theorem fillTask_ne (h : j ≠ i) : (s.fillTask i weight cpu idle stack).tasks j = s.tasks j := by
  simp [fillTask, onTask_ne _ h]

theorem fillTask_processes : (s.fillTask i weight cpu idle stack).processes = s.processes := by
  simp [fillTask]

/-- The processors keep what is calm. -/
theorem fillTask_cpus (s : SchedState) (i : TaskSlot) (weight cpu : Nat) (idle : Bool)
    (stack c : Nat) :
    (s.cpus c).Calm ((s.fillTask i weight cpu idle stack).cpus c) := by
  refine ((Calm.cpuFloor s cpu).cpus c).trans ?_
  exact (Calm.onCpu (c := cpu) (f := fun k => { k with workPending := k.workPending || !idle })
    ⟨rfl, rfl, rfl, rfl, id⟩).cpus c

theorem fillTask_rest (s : SchedState) (i : TaskSlot) (weight cpu : Nat) (idle : Bool)
    (stack : Nat) : (s.fillTask i weight cpu idle stack).discovered = s.discovered ∧
    (s.fillTask i weight cpu idle stack).nextTaskId = (s.nextTaskId + 1) % 2 ^ 32 ∧
    (s.fillTask i weight cpu idle stack).destroying = s.destroying :=
  ⟨(Calm.cpuFloor s cpu).discovered, rfl, (Calm.cpuFloor s cpu).destroying⟩

/-- **A task is born** in a slot that was not in use, with an identifier that was not in use. -/
theorem Ok.fillTask (h : s.Ok) (hn : s.nextTaskId ≠ 0) (hu : (s.tasks i).state = .unused)
    (weight cpu : Nat) (idle : Bool) (stack : Nat) :
    s.Advances (s.fillTask i weight cpu idle stack) := by
  have hb := h.blank hu
  have hi := s.fillTask_self i weight cpu idle stack
  rw [hb] at hi
  have hc := s.fillTask_cpus i weight cpu idle stack
  have hpr : (s.fillTask i weight cpu idle stack).processes = s.processes := fillTask_processes
  obtain ⟨e₁, e₂, e₃⟩ := s.fillTask_rest i weight cpu idle stack
  have hne : ∀ {j}, j ≠ i → (s.fillTask i weight cpu idle stack).tasks j = s.tasks j :=
    fun hj => fillTask_ne hj
  generalize s.fillTask i weight cpu idle stack = s' at hi hc hpr e₁ e₂ e₃ hne ⊢
  -- a task that was there is in another slot
  have hlive : ∀ {j}, (s.tasks j).state ≠ .unused → j ≠ i := by
    rintro j hj rfl
    exact hj hu
  have hold : ∀ {j}, (s.tasks j).state ≠ .unused → s'.tasks j = s.tasks j :=
    fun hj => hne (hlive hj)
  have hpos : (s.nextTaskId + 1) % 2 ^ 32 = 0 ∨ s.nextTaskId < (s.nextTaskId + 1) % 2 ^ 32 := by
    have := h.next
    omega
  constructor
  · constructor
    case current =>
      intro d j hj
      rw [(hc d).current] at hj
      obtain ⟨h₁, h₂, h₃⟩ := h.current hj
      rw [hold h₃, e₁]
      exact ⟨h₁, h₂, h₃⟩
    case running =>
      intro j hj
      obtain rfl | hj' := eq_or_ne j i
      · simp [hi] at hj
      · rw [hne hj'] at hj ⊢
        rw [(hc _).current]
        exact h.running hj
    case owner =>
      intro d j hj
      rw [(hc d).stackOwner] at hj
      obtain ⟨h₁, h₂⟩ := h.owner hj
      rw [hold h₂, e₁]
      exact ⟨h₁, h₂⟩
    case idle =>
      intro d j hj
      rw [(hc d).idle] at hj
      obtain ⟨h₀, h₁, h₂, h₃⟩ := h.idle hj
      rw [hold h₃, e₁]
      exact ⟨h₀, h₁, h₂, h₃⟩
    case hasIdle =>
      intro d j hj
      rw [(hc d).current] at hj
      rw [(hc d).idle]
      exact h.hasIdle hj
    case idleTask =>
      intro j hj
      obtain rfl | hj' := eq_or_ne j i
      · simp [hi]
      · rw [hne hj'] at hj ⊢
        exact h.idleTask hj
    case leaving =>
      intro d j hj hz
      rw [(hc d).current] at hj
      rw [hold (h.current hj).2.2] at hz
      exact (hc d).leaving (h.leaving hj hz)
    case offline =>
      intro d ho
      rw [(hc d).online] at ho
      rw [(hc d).current, (hc d).idle]
      exact h.offline ho
    case blank =>
      intro j hj
      obtain rfl | hj' := eq_or_ne j i
      · simp [hi] at hj
      · rw [hne hj'] at hj ⊢
        exact h.blank hj
    case next =>
      rw [e₂]
      exact Nat.mod_lt _ (by decide)
    case fresh =>
      intro j hj
      rw [e₂]
      obtain rfl | hj' := eq_or_ne j i
      · rw [hi]
        exact ⟨Nat.pos_of_ne_zero hn, hpos⟩
      · rw [hne hj'] at hj ⊢
        obtain ⟨h₁, h₂⟩ := h.fresh hj
        refine ⟨h₁, hpos.imp_right fun hlt => ?_⟩
        exact (h₂.resolve_left hn).trans hlt
    case ids =>
      intro j k hj hk he
      obtain rfl | hj' := eq_or_ne j i
      · obtain rfl | hk' := eq_or_ne k j
        · rfl
        · rw [hi, hne hk'] at he
          rw [hne hk'] at hk
          exact absurd he.symm ((h.fresh hk).2.resolve_left hn).ne
      · obtain rfl | hk' := eq_or_ne k i
        · rw [hi, hne hj'] at he
          rw [hne hj'] at hj
          exact absurd he ((h.fresh hj).2.resolve_left hn).ne
        · rw [hne hj', hne hk'] at he
          rw [hne hj'] at hj
          rw [hne hk'] at hk
          exact h.ids hj hk he
    case process =>
      intro j q hq
      obtain rfl | hj' := eq_or_ne j i
      · simp [hi] at hq
      · rw [hne hj'] at hq ⊢
        rw [hpr]
        exact h.process hq
    case destroying =>
      intro q hq j
      rw [e₃] at hq
      obtain rfl | hj' := eq_or_ne j i
      · simp [hi]
      · rw [hne hj']
        exact h.destroying hq j
    case kill =>
      intro j hk
      obtain rfl | hj' := eq_or_ne j i
      · simp [hi]
      · rw [hne hj'] at hk ⊢
        exact h.kill hk
  · refine ⟨fun j hj => .inl ?_, fun j hj hj' => ?_, .inr ⟨hn, e₂⟩⟩
    · rw [hold hj]
      exact (Task.Calm.refl _).later
    · obtain rfl | hne' := eq_or_ne j i
      · exact ⟨hn, by rw [hi], e₂⟩
      · rw [hne hne'] at hj'
        exact absurd hj hj'

end fillTask

/-- `k_task_create` keeps the invariant, and every task its life. -/
theorem Ok.advances_create (h : s.Ok) (weight cpu stack : Nat) :
    s.Advances (s.kTaskCreate weight cpu stack).2 := by
  unfold kTaskCreate
  split
  · exact h.advances (.refl s)
  · obtain he | ⟨i, he, hn, hu⟩ := h.newTask_cases weight cpu false stack
    · rw [he]
      exact h.advances (.refl s)
    · rw [he]
      exact h.fillTask hn hu weight cpu false stack

/-! ### The slot is freed -/

/-- Some slots of zombies are freed, off every processor, and nothing else happens. -/
structure Frees (s s' : SchedState) : Prop where
  tasks : ∀ i, s'.tasks i = s.tasks i ∨
    (s.tasks i).state = .zombie ∧ s.Off i ∧ s'.tasks i = {}
  cpus : s'.cpus = s.cpus
  processes : s'.processes = s.processes
  discovered : s'.discovered = s.discovered
  nextTaskId : s'.nextTaskId = s.nextTaskId
  destroying : s'.destroying = s.destroying

theorem Frees.refl (s : SchedState) : s.Frees s := ⟨fun _ => .inl rfl, rfl, rfl, rfl, rfl, rfl⟩

theorem Frees.trans {s₁ : SchedState} (h : s.Frees s₁) (h' : s₁.Frees s') : s.Frees s' := by
  refine ⟨fun i => ?_, h'.cpus.trans h.cpus, h'.processes.trans h.processes,
    h'.discovered.trans h.discovered, h'.nextTaskId.trans h.nextTaskId,
    h'.destroying.trans h.destroying⟩
  have hoff : ∀ i, s₁.Off i → s.Off i := fun i hi c => by
    have := hi c
    rwa [h.cpus] at this
  rcases h'.tasks i with h₁ | ⟨hz, ho, h₁⟩
  · rw [h₁]
    exact h.tasks i
  · rcases h.tasks i with h₂ | ⟨hz', ho', h₂⟩
    · rw [h₂] at hz
      exact .inr ⟨hz, hoff i ho, h₁⟩
    · simp [h₂] at hz

/-- A zombie off every processor may be freed. -/
theorem Frees.free (hz : (s.tasks i).state = .zombie) (ho : s.Off i) : s.Frees (s.freeTask i) := by
  refine ⟨fun j => ?_, rfl, rfl, rfl, rfl, rfl⟩
  obtain rfl | hj := eq_or_ne j i
  · exact .inr ⟨hz, ho, onTask_self _⟩
  · exact .inl (onTask_ne _ hj)

/-- **Freeing the slots of zombies keeps the invariant.** -/
theorem Ok.frees (h : s.Ok) (hf : s.Frees s') : s.Advances s' := by
  -- what is left of a slot that is not blank is what was there
  have hlive : ∀ {i}, (s'.tasks i).state ≠ .unused → s'.tasks i = s.tasks i := by
    intro i hi
    rcases hf.tasks i with h₁ | ⟨-, -, h₁⟩
    · exact h₁
    · simp [h₁] at hi
  have hon : ∀ {i} (c : Nat), (s.cpus c).current = some i ∨ (s.cpus c).stackOwner = some i →
      s'.tasks i = s.tasks i := by
    intro i c hi
    rcases hf.tasks i with h₁ | ⟨-, ho, -⟩
    · exact h₁
    · exact absurd hi (not_or.mpr (ho c))
  have hproc : ∀ {i p}, (s'.tasks i).process = some p → s'.tasks i = s.tasks i := by
    intro i p hp
    rcases hf.tasks i with h₁ | ⟨-, -, h₁⟩
    · exact h₁
    · simp [h₁] at hp
  constructor
  · constructor
    case current =>
      intro c i hi
      rw [hf.cpus] at hi
      rw [hon c (.inl hi), hf.discovered]
      exact h.current hi
    case running =>
      intro i hi
      have he := hlive (i := i) (by simp [hi])
      rw [he] at hi ⊢
      rw [hf.cpus]
      exact h.running hi
    case owner =>
      intro c i hi
      rw [hf.cpus] at hi
      rw [hon c (.inr hi), hf.discovered]
      exact h.owner hi
    case idle =>
      intro c i hi
      rw [hf.cpus] at hi
      rw [hf.discovered]
      obtain ⟨h₀, h₁, h₂, h₃⟩ := h.idle hi
      rcases hf.tasks i with h₄ | ⟨hz, -, -⟩
      · rw [h₄]
        exact ⟨h₀, h₁, h₂, h₃⟩
      · exact absurd hz (h.idleTask h₁).1
    case hasIdle =>
      intro c i hi
      rw [hf.cpus] at hi ⊢
      exact h.hasIdle hi
    case idleTask =>
      intro i hi
      rcases hf.tasks i with h₁ | ⟨-, -, h₁⟩
      · rw [h₁] at hi ⊢
        exact h.idleTask hi
      · simp [h₁] at hi
    case leaving =>
      intro c i hi hz
      rw [hlive (by simp [hz])] at hz
      rw [hf.cpus] at hi ⊢
      exact h.leaving hi hz
    case offline =>
      intro c ho
      rw [hf.cpus] at ho ⊢
      exact h.offline ho
    case blank =>
      intro i hi
      rcases hf.tasks i with h₁ | ⟨-, -, h₁⟩
      · rw [h₁] at hi ⊢
        exact h.blank hi
      · exact h₁
    case next => exact hf.nextTaskId ▸ h.next
    case fresh =>
      intro i hi
      have he := hlive hi
      rw [he] at hi ⊢
      rw [hf.nextTaskId]
      exact h.fresh hi
    case ids =>
      intro i j hi hj he
      rw [hlive hi, hlive hj] at he
      rw [hlive hi] at hi
      rw [hlive hj] at hj
      exact h.ids hi hj he
    case process =>
      intro i p hp
      have he := hproc hp
      rw [he] at hp ⊢
      rw [hf.processes]
      exact h.process hp
    case destroying =>
      intro p hp i hi
      rw [hf.destroying] at hp
      rw [hproc hi] at hi
      exact h.destroying hp i hi
    case kill =>
      intro i hk hs
      rw [hlive (by simp [hs])] at hk hs
      exact h.kill hk hs
  · refine ⟨fun i _ => ?_, fun i hu hu' => ?_, .inl hf.nextTaskId⟩
    · rcases hf.tasks i with h₁ | h₁
      · rw [h₁]
        exact .inl (Task.Calm.refl _).later
      · exact .inr h₁
    · rw [hlive hu'] at hu'
      exact absurd hu hu'

/-- What the loops over the processors find: a task that is on none of them. -/
theorem Ok.off_of_onCpuNow (h : s.Ok) (hn : s.onCpuNow i = false) : s.Off i := by
  intro c
  have hn' :
      ∀ d < s.discovered, ¬ ((s.cpus d).current = some i ∨ (s.cpus d).stackOwner = some i) := by
    intro d hd
    have := List.any_eq_false.mp hn d (List.mem_range.mpr hd)
    simpa using this
  exact ⟨fun hc => hn' c (h.current hc).1 (.inl hc), fun hc => hn' c (h.owner hc).1 (.inr hc)⟩

/-- `k_task_reap` keeps the invariant, and every task its life. -/
theorem Ok.advances_reap (h : s.Ok) (id : Nat) : s.Advances (s.kTaskReap id).2 := by
  unfold kTaskReap
  split
  · exact h.advances (.refl s)
  · next i hi =>
      by_cases hz : (s.tasks i).state = .zombie
      · by_cases hn : s.onCpuNow i = true
        · simpa [hz, hn] using h.advances (.refl s)
        · by_cases hp : (s.tasks i).process.isSome = true
          · simpa [hz, hn, hp] using h.advances (.refl s)
          · simpa [hz, hn, hp] using h.frees (.free hz (h.off_of_onCpuNow (by simpa using hn)))
      · simpa [hz] using h.advances (.refl s)

/-! ### Processes -/

/-- A process without a task changes. -/
theorem Ok.onProcess (h : s.Ok) (hp : ∀ i, (s.tasks i).process ≠ some p) (f : KProcess → KProcess) :
    s.Advances (s.onProcess p f) := by
  refine ⟨{ h with process := fun {i q} hq => ?_ },
    .of_later (fun i => (Task.Calm.refl _).later) rfl⟩
  have hne : q ≠ p := by
    rintro rfl
    exact hp i hq
  rw [onProcess_ne f hne]
  exact h.process hq

/-- An unused process slot has no task. -/
theorem Ok.no_task_of_unused (h : s.Ok) (hp : (s.processes p).used = false) (i : TaskSlot) :
    (s.tasks i).process ≠ some p := by
  intro hi
  have hu := (h.process hi).1
  simp [hp] at hu

theorem Ok.no_task_of_taskId (h : s.Ok) (hp : (s.processes p).taskId = 0) (i : TaskSlot) :
    (s.tasks i).process ≠ some p := by
  intro hi
  have h₁ := (h.process hi).2.1
  have h₂ := (h.fresh (h.live_of_process hi)).1
  omega

/-- A process created keeps the invariant, and every task its life. -/
theorem Ok.advances_processCreate (h : s.Ok) (ring1 : Bool) :
    s.Advances (s.processCreateLocked ring1).2 := by
  unfold processCreateLocked
  split
  · exact h.advances (.refl s)
  · split
    · exact h.advances (.refl s)
    · next p hp =>
        have hu : (s.processes p).used = false := by simpa using List.find?_some hp
        have hc : s.Calm { s with nextProcessId := (s.nextProcessId + 1) % 2 ^ 32 } := .rest
        dsimp only
        exact hc.advances ((h.calm hc).onProcess (h.no_task_of_unused hu) _)

/-- A creation undone keeps the invariant, and every task its life. -/
theorem Ok.advances_processCreateFailed (h : s.Ok) (p : ProcessSlot) :
    s.Advances (s.processCreateFailed p) := by
  unfold processCreateFailed
  split
  · exact h.advances (.refl s)
  · next hn => exact h.onProcess (h.no_task_of_taskId (by simpa using (not_or.mp hn).2)) _

/-- An image loaded keeps the invariant, and every task its life. -/
theorem Ok.advances_riefLoaded (h : s.Ok) (p : ProcessSlot) : s.Advances (s.riefLoaded p) := by
  unfold riefLoaded
  split
  · exact h.advances (.refl s)
  · exact h.advances (.onProcess ⟨rfl, rfl, rfl, Iff.rfl⟩)

/-- The loop of `process_destroy_locked` frees slots of a dead process. -/
theorem Ok.freeTasksOf (l : List TaskSlot) : ∀ {s : SchedState}, s.Ok →
    (s.processes p).state = .zombie → s.Frees (s.freeTasksOf p l).2 ∧
      ((s.freeTasksOf p l).1 = true → ∀ i ∈ l,
        ((s.freeTasksOf p l).2.tasks i).process ≠ some p) := by
  induction l with
  | nil => exact fun _ _ => ⟨.refl _, by simp⟩
  | cons i l ih =>
      intro s h hz
      unfold SchedState.freeTasksOf
      by_cases hi : (s.tasks i).process = some p
      · rw [if_pos hi]
        by_cases hn : s.onCpuNow i = true
        · rw [if_pos hn]
          exact ⟨.refl s, by simp⟩
        · rw [if_neg hn]
          have hf : s.Frees (s.freeTask i) :=
            .free ((h.process hi).2.2.mp hz) (h.off_of_onCpuNow (by simpa using hn))
          obtain ⟨hok, -⟩ := h.frees hf
          obtain ⟨h₁, h₂⟩ := ih hok hz
          refine ⟨hf.trans h₁, fun ht j hj => ?_⟩
          rcases List.mem_cons.mp hj with rfl | hj
          · have hb : (s.freeTask j).tasks j = {} := onTask_self _
            rcases h₁.tasks j with h₃ | ⟨hz', -, -⟩
            · simp [h₃, hb]
            · simp [hb] at hz'
          · exact h₂ ht j hj
      · rw [if_neg hi]
        obtain ⟨h₁, h₂⟩ := ih h hz
        refine ⟨h₁, fun ht j hj => ?_⟩
        rcases List.mem_cons.mp hj with rfl | hj
        · rcases h₁.tasks j with h₃ | ⟨-, -, h₃⟩
          · rw [h₃]
            exact hi
          · simp [h₃]
        · exact h₂ ht j hj

/-- The process that is being destroyed has no task. -/
theorem Advances.setDestroying {s₁ : SchedState} (h : s.Advances s₁)
    (hp : ∀ i, (s₁.tasks i).process ≠ some p) :
    s.Advances { s₁ with destroying := some p } := by
  refine ⟨{ h.1 with destroying := fun {q} hq => ?_ }, h.2.old, h.2.new, h.2.next⟩
  obtain rfl : p = q := by simpa using hq
  exact hp

/-- The first section of a destruction keeps the invariant, and every task its life. -/
theorem Ok.advances_processDestroy (h : s.Ok) (p : ProcessSlot) :
    s.Advances (s.processDestroyLocked p).2 := by
  unfold processDestroyLocked
  by_cases hu : (s.processes p).used = false
  · rw [if_pos hu]
    exact h.advances (.refl s)
  rw [if_neg hu]
  by_cases hb : (s.processes p).taskId ≠ 0 ∧ (s.processes p).state ≠ .zombie
  · rw [if_pos hb]
    exact h.advances (.refl s)
  rw [if_neg hb]
  by_cases ht : (s.processes p).taskId = 0
  · simp only [ht, ne_eq, not_true_eq_false, if_false, Bool.true_eq_false]
    exact Advances.setDestroying (h.advances (.release s _)) (h.no_task_of_taskId ht)
  · have hz : (s.processes p).state = .zombie := by
      by_contra hz
      exact hb ⟨ht, hz⟩
    obtain ⟨hf, hl⟩ := Ok.freeTasksOf (List.finRange kMaxTasks) h hz
    simp only [ne_eq, if_pos ht]
    split
    · exact h.frees hf
    · next hr =>
        have hr' : (s.freeTasksOf p (List.finRange kMaxTasks)).1 = true := by simpa using hr
        refine Advances.setDestroying ((h.frees hf).calm (.release _ _)) fun i => ?_
        exact hl hr' i (List.mem_finRange i)

/-- The last section of a destruction keeps the invariant, and every task its life. -/
theorem Ok.advances_processDestroyed (h : s.Ok) (b : Bool) : s.Advances (s.processDestroyed b) := by
  unfold processDestroyed
  split
  · exact h.advances (.refl s)
  · next p hp =>
      have hok : ({ s with destroying := none } : SchedState).Ok :=
        { h with destroying := fun {q} hq => by cases hq }
      have he : s.Evolves { s with destroying := none } :=
        .of_later (fun i => (Task.Calm.refl _).later) rfl
      dsimp only
      split
      · have h₁ := hok.onProcess (h.destroying hp) fun _ => {}
        exact ⟨h₁.1, h₁.2.old, h₁.2.new, h₁.2.next⟩
      · exact ⟨hok, he⟩

/-- **A process gets its task.**  No task belonged to it before. -/
theorem Ok.startTask (h : s.Ok) (hd : s.destroying = none) (hp : (s.processes p).used = true)
    (ht : (s.processes p).taskId = 0) (hu : (s.tasks i).state = .ready)
    (hi : (s.tasks i).process = none) (hidle : (s.tasks i).idle = false) :
    ((s.onTask i fun t => { t with process := some p }).onProcess p fun q =>
      { q with taskId := (s.tasks i).id, state := .ready }).Ok := by
  have hnone := h.no_task_of_taskId ht
  set s' := (s.onTask i fun t => { t with process := some p }).onProcess p fun q =>
    { q with taskId := (s.tasks i).id, state := .ready } with hs'
  have hi' : s'.tasks i = { s.tasks i with process := some p } := by simp [hs']
  have hne : ∀ {j}, j ≠ i → s'.tasks j = s.tasks j := fun hj => by simp [hs', onTask_ne _ hj]
  -- all but the process of the task is as it was
  have hst : ∀ j, (s'.tasks j).state = (s.tasks j).state ∧ (s'.tasks j).id = (s.tasks j).id ∧
      (s'.tasks j).cpu = (s.tasks j).cpu ∧ (s'.tasks j).idle = (s.tasks j).idle ∧
      (s'.tasks j).controlRequest = (s.tasks j).controlRequest := by
    intro j
    obtain rfl | hj := eq_or_ne j i
    · simp [hi']
    · simp [hne hj]
  constructor
  case current =>
    intro c j hj
    rw [(hst j).1, (hst j).2.2.1]
    exact h.current hj
  case running =>
    intro j hj
    rw [(hst j).2.2.1]
    exact h.running ((hst j).1 ▸ hj)
  case owner =>
    intro c j hj
    rw [(hst j).1]
    exact h.owner hj
  case idle =>
    intro c j hj
    rw [(hst j).1, (hst j).2.2.1, (hst j).2.2.2.1]
    exact h.idle hj
  case hasIdle => exact h.hasIdle
  case idleTask =>
    intro j hj
    rw [(hst j).2.2.2.1] at hj
    obtain rfl | hj' := eq_or_ne j i
    · simp [hidle] at hj
    · rw [hne hj']
      exact h.idleTask hj
  case leaving =>
    intro c j hj hz
    exact h.leaving hj ((hst j).1 ▸ hz)
  case offline => exact h.offline
  case blank =>
    intro j hj
    rw [(hst j).1] at hj
    obtain rfl | hj' := eq_or_ne j i
    · simp [hu] at hj
    · rw [hne hj']
      exact h.blank hj
  case next => exact h.next
  case fresh =>
    intro j hj
    rw [(hst j).2.1]
    exact h.fresh ((hst j).1 ▸ hj)
  case ids =>
    intro j k hj hk he
    rw [(hst j).2.1, (hst k).2.1] at he
    exact h.ids ((hst j).1 ▸ hj) ((hst k).1 ▸ hk) he
  case process =>
    intro j q hq
    obtain rfl | hj' := eq_or_ne j i
    · rw [hi'] at hq
      obtain rfl : p = q := by simpa using hq
      simp [hs', hp, hu]
    · rw [hne hj'] at hq ⊢
      have hqp : q ≠ p := by
        rintro rfl
        exact hnone j hq
      have hpq : s'.processes q = s.processes q := by simp [hs', onProcess_ne _ hqp]
      rw [hpq]
      exact h.process hq
  case destroying =>
    intro q hq
    have hq' : s.destroying = some q := hq
    rw [hd] at hq'
    cases hq'
  case kill =>
    intro j hk
    rw [(hst j).2.2.2.2] at hk
    rw [(hst j).1]
    exact h.kill hk

/-- A process started keeps the invariant, and every task its life. -/
theorem Ok.advances_processStart (h : s.Ok) (hd : s.destroying = none) (p : ProcessSlot)
    (cpu : Option Nat) (stack : Nat) : s.Advances (s.processStartLocked p cpu stack).2 := by
  unfold processStartLocked
  split
  · exact h.advances (.refl s)
  next hn =>
  obtain ⟨h₁, -, h₃⟩ : (s.processes p).used = true ∧ (s.processes p).loaded = true ∧
      (s.processes p).taskId = 0 := by simpa using hn
  dsimp only
  split
  · exact h.advances (.refl s)
  obtain he | ⟨i, he, hn, hu⟩ := h.newTask_cases 1024 (cpu.getD s.leastLoaded) false stack
  · rw [he]
    exact h.advances (.refl s)
  · rw [he]
    dsimp only
    obtain ⟨hok, hev⟩ := h.fillTask hn hu 1024 (cpu.getD s.leastLoaded) false stack
    have hi := s.fillTask_self i 1024 (cpu.getD s.leastLoaded) false stack
    rw [h.blank hu] at hi
    have hpr : (s.fillTask i 1024 (cpu.getD s.leastLoaded) false stack).processes = s.processes :=
      fillTask_processes
    have hdes := (s.fillTask_rest i 1024 (cpu.getD s.leastLoaded) false stack).2.2
    generalize s.fillTask i 1024 (cpu.getD s.leastLoaded) false stack = s₁ at hok hev hi hpr hdes ⊢
    refine ⟨hok.startTask (hdes.trans hd) (by rw [hpr, h₁]) (by rw [hpr, h₃]) (by rw [hi])
      (by rw [hi]) (by rw [hi]), fun j hj => ?_, fun j hj hj' => ?_, hev.next⟩
    · have hne : j ≠ i := by
        rintro rfl
        exact hj hu
      have he : ((s₁.onTask i fun t => { t with process := some p }).onProcess p fun q =>
          { q with taskId := (s₁.tasks i).id, state := .ready }).tasks j = s₁.tasks j := by
        simp [onTask_ne _ hne]
      rw [he]
      exact hev.old j hj
    · obtain rfl | hne := eq_or_ne j i
      · refine hev.new j hj (by simp [hi]) |>.imp_right fun h => ⟨?_, h.2⟩
        simpa using h.1
      · have he : ((s₁.onTask i fun t => { t with process := some p }).onProcess p fun q =>
            { q with taskId := (s₁.tasks i).id, state := .ready }).tasks j = s₁.tasks j := by
          simp [onTask_ne _ hne]
        rw [he] at hj' ⊢
        exact hev.new j hj hj'

/-! ### Processors come up -/

/-- The idle task of a processor that executes nothing yet becomes its current task. -/
theorem Ok.wireIdle (h : s.Ok) (hc : c < s.discovered) (hu : (s.tasks i).state ≠ .unused)
    (hidle : (s.tasks i).idle = true) (hcpu : (s.tasks i).cpu = c)
    (hcur : ∀ j, (s.cpus c).current = some j → j = i) {f : CpuState → CpuState}
    (hf : (f (s.cpus c)).current = some i ∧ (f (s.cpus c)).idle = some i ∧
      ((f (s.cpus c)).stackOwner = some i ∨
        (f (s.cpus c)).stackOwner = (s.cpus c).stackOwner)) :
    ((s.onCpu c f).onTask i fun t => { t with state := .running }).Ok ∧
      ∀ j, (s.tasks j).Later
      (((s.onCpu c f).onTask i fun t => { t with state := .running }).tasks j) := by
  obtain ⟨hf₁, hf₂, hf₃⟩ := hf
  have hz := (h.idleTask hidle).1
  set s' := (s.onCpu c f).onTask i fun t => { t with state := .running } with hs'
  have hi' : s'.tasks i = { s.tasks i with state := .running } := by simp [hs']
  have hne : ∀ {j}, j ≠ i → s'.tasks j = s.tasks j := fun hj => by simp [hs', onTask_ne _ hj]
  have hc' : s'.cpus c = f (s.cpus c) := by simp [hs']
  have hcne : ∀ {d}, d ≠ c → s'.cpus d = s.cpus d := fun hd => by simp [hs', onCpu_ne _ hd]
  have hkin : ∀ j, (s.tasks j).Kin (s'.tasks j) := by
    intro j
    obtain rfl | hj := eq_or_ne j i
    · rw [hi']
      exact ⟨rfl, rfl, rfl, rfl, rfl, rfl, fun hu' => absurd hu' hu, by simp⟩
    · rw [hne hj]
      exact .refl _
  -- every condition is about the processor and the task that change, or about others
  refine ⟨h.rewire hkin (fun _ => ⟨rfl, rfl⟩) (fun d j hj => ?_) (fun d j hj => ?_) rfl rfl rfl
    (fun d j hj => ?_) (fun j hj => ?_) (fun d j hj => ?_) (fun j hj hz' => ?_)
    (fun d j hj hz' => ?_) (fun d ho => ?_) (fun j q hq => ?_) fun j hk hs => ?_, fun j => ?_⟩
  · obtain rfl | hd := eq_or_ne d c
    · rw [hc', hf₂] at hj
      obtain rfl : i = j := by simpa using hj
      exact ⟨hc, hidle, hcpu, hu⟩
    · exact h.idle (hcne hd ▸ hj)
  · obtain rfl | hd := eq_or_ne d c
    · rw [hc'] at hj
      rcases hf₃ with hf₃ | hf₃
      · rw [hf₃] at hj
        obtain rfl : i = j := by simpa using hj
        exact ⟨hc, hu⟩
      · exact h.owner (hf₃ ▸ hj)
    · exact h.owner (hcne hd ▸ hj)
  · obtain rfl | hd := eq_or_ne d c
    · rw [hc', hf₁] at hj
      obtain rfl : i = j := by simpa using hj
      exact ⟨hc, hcpu, hu⟩
    · exact h.current (hcne hd ▸ hj)
  · obtain rfl | hj' := eq_or_ne j i
    · rw [hcpu, hc', hf₁]
    · rw [hne hj'] at hj
      have hr := h.running hj
      obtain hd | hd := eq_or_ne (s.tasks j).cpu c
      · exact absurd (hcur j (hd ▸ hr)) hj'
      · rw [hcne hd]
        exact hr
  · obtain rfl | hd := eq_or_ne d c
    · exact ⟨i, by rw [hc', hf₂]⟩
    · rw [hcne hd] at hj ⊢
      exact h.hasIdle hj
  · obtain rfl | hj' := eq_or_ne j i
    · simp [hi'] at hz'
    · exact (h.idleTask hj).1 (hne hj' ▸ hz')
  · obtain rfl | hj' := eq_or_ne j i
    · simp [hi'] at hz'
    · obtain rfl | hd := eq_or_ne d c
      · rw [hc', hf₁] at hj
        exact absurd (by simpa using hj.symm) hj'
      · rw [hcne hd] at hj ⊢
        exact h.leaving hj (hne hj' ▸ hz')
  · obtain rfl | hd := eq_or_ne d c
    · rw [hc', hf₁, hf₂]
    · rw [hcne hd] at ho ⊢
      exact h.offline ho
  · obtain rfl | hj' := eq_or_ne j i
    · rw [(h.idleTask hidle).2] at hq
      cases hq
    · rw [hne hj']
      exact (h.process hq).2.2
  · obtain rfl | hj' := eq_or_ne j i
    · simp [hi'] at hs
    · rw [hne hj'] at hk hs
      exact h.kill hk hs
  · obtain rfl | hj' := eq_or_ne j i
    · refine ⟨hkin j, fun hz' => absurd hz' hz, fun hk => ?_⟩
      rw [hi']
      exact .inl hk
    · rw [hne hj']
      exact (Task.Calm.refl _).later

/-- `k_smp_start` keeps the invariant, and every task its life. -/
theorem Ok.advances_smpStart (h : s.Ok) (hc : c < s.discovered) (hcur : (s.cpus c).current = none)
    (stack : Nat) : s.Advances (s.smpStart c stack).2 := by
  unfold smpStart
  obtain he | ⟨i, he, hn, hu⟩ := h.newTask_cases 1 c true stack
  · rw [he]
    exact h.advances (.refl s)
  · rw [he]
    obtain ⟨hok, hev⟩ := h.fillTask hn hu 1 c true stack
    have hi := s.fillTask_self i 1 c true stack
    have hcur' : ((s.fillTask i 1 c true stack).cpus c).current = none :=
      (s.fillTask_cpus i 1 c true stack c).current.trans hcur
    obtain ⟨h₁, h₂⟩ := hok.wireIdle (f := fun k => { k with idle := some i, current := some i })
      ((s.fillTask_rest i 1 c true stack).1 ▸ hc) (by simp [hi]) (by rw [hi]) (by rw [hi])
      (fun j hj => by simp [hcur'] at hj) ⟨rfl, rfl, .inr rfl⟩
    exact ⟨h₁, hev.later h₂ rfl⟩

/-- The start of another processor keeps the invariant, and every task its life. -/
theorem Ok.advances_apMain (h : s.Ok) (ho : (s.cpus c).online = false) :
    s.Advances (s.apMain c) := by
  unfold apMain
  cases hi : (s.cpus c).idle with
  | none => exact h.advances (.refl s)
  | some i =>
      obtain ⟨h₀, h₁, h₂, h₃⟩ := h.idle hi
      have hcur := (h.offline ho).trans hi
      obtain ⟨hok, hl⟩ := h.wireIdle
        (f := fun k => { k with current := some i, stackOwner := some i, online := true })
          h₀ h₃ h₁ h₂
        (fun j hj => by simpa using (hcur.symm.trans hj).symm) ⟨rfl, hi, .inl rfl⟩
      exact ⟨hok, .of_later hl rfl⟩

/-- The switch of the stack keeps the invariant, and every task its life. -/
theorem Ok.advances_stackSwitched (h : s.Ok) (c : Nat) : s.Advances (s.stackSwitched c) := by
  have hc : ∀ d, ((s.stackSwitched c).cpus d).current = (s.cpus d).current ∧
      ((s.stackSwitched c).cpus d).idle = (s.cpus d).idle ∧
      ((s.stackSwitched c).cpus d).online = (s.cpus d).online ∧
      ((s.stackSwitched c).cpus d).leaving = (s.cpus d).leaving := by
    intro d
    obtain rfl | hd := eq_or_ne d c
    · simp [stackSwitched]
    · simp [stackSwitched, onCpu_ne _ hd]
  refine ⟨h.rewire (fun _ => .refl _) (fun _ => ⟨rfl, rfl⟩) (fun d i hi => ?_)
    (fun d i hi => ?_) rfl
    rfl rfl (fun d i hi => ?_) (fun i hi => ?_) (fun d i hi => ?_) (fun i hi => (h.idleTask hi).1)
    (fun d i hi hz => ?_) (fun d ho => ?_) (fun i p hp => (h.process hp).2.2) (fun i => h.kill),
    .of_later (fun i => (Task.Calm.refl _).later) rfl⟩
  · exact h.idle ((hc d).2.1 ▸ hi)
  · obtain rfl | hd := eq_or_ne d c
    · have hi' : (s.cpus d).current = some i := by simpa [stackSwitched] using hi
      exact ⟨(h.current hi').1, (h.current hi').2.2⟩
    · rw [stackSwitched, onCpu_ne _ hd] at hi
      exact h.owner hi
  · exact h.current ((hc d).1 ▸ hi)
  · rw [(hc _).1]
    exact h.running hi
  · rw [(hc d).2.1]
    exact h.hasIdle ((hc d).1 ▸ hi)
  · rw [(hc d).2.2.2]
    exact h.leaving ((hc d).1 ▸ hi) hz
  · rw [(hc d).1, (hc d).2.1]
    exact h.offline ((hc d).2.2.1 ▸ ho)

/-- **Every step keeps the invariant and carries the tasks over.** -/
theorem Ok.step (h : s.Ok) {e : SchedEvent} (he : s.Enabled e) : s.Advances (s.step e) := by
  cases e with
  | schedule c forced now => exact (h.schedule (he.online c rfl) forced now).1
  | stackSwitched c => exact h.advances_stackSwitched c
  | smpStart c stack =>
      obtain ⟨h₁, -, h₂⟩ := he.start c stack rfl
      exact h.advances_smpStart h₁ h₂ stack
  | apMain c => exact h.advances_apMain (he.up c rfl)
  | create weight cpu stack => exact h.advances_create weight cpu stack
  | sleep c ms now => exact h.advances (h.calm_sleep c ms now)
  | exit c code => exact h.advances_exit c code
  | fault c vector ip address => exact h.advances_fault c vector ip address
  | badReturn c ip sp => exact h.advances_badReturn c ip sp
  | returnControl c => exact h.advances_returnControl c
  | reap id => exact h.advances_reap id
  | preemptDisable c => exact h.advances (h.calm_preemptDisable c)
  | preemptEnable c => exact h.advances (h.calm_preemptEnable c)
  | mutexTrylock c m => exact h.advances (h.calm_mutexTrylock c m)
  | mutexLock c m => exact h.advances (h.calm_mutexLock c m)
  | mutexUnlock c m => exact h.advances (h.calm_mutexUnlock c m)
  | semInit n count => exact h.advances (.setSemaphore s n count)
  | semTrywait n => exact h.advances (.semTrywait s n)
  | semWait c n => exact h.advances (h.calm_semWait c n)
  | semPost n => exact h.advances (.semPost s n)
  | processCreate ring1 => exact h.advances_processCreate ring1
  | processCreateFailed p => exact h.advances_processCreateFailed p
  | riefLoaded p => exact h.advances_riefLoaded p
  | processStart p cpu stack => exact h.advances_processStart (he.mutex rfl) p cpu stack
  | processControl pid op => exact h.advances (h.calm_control pid op)
  | processDestroy p => exact h.advances_processDestroy p
  | processDestroyed b => exact h.advances_processDestroyed b

/-! ### Runs -/

/-- The tables when `k_scheduler_init` makes the first idle task. -/
def booted (discovered timerHz : Nat) : SchedState :=
  { ((blank discovered timerHz).onTask 0 fun _ =>
      { id := 1, cpu := 0, weight := 1024, state := .running }).onCpu 0 fun k =>
        { k with current := some 0, stackOwner := some 0 } with nextTaskId := 2 }

/-- The tasks of the boot processor. -/
theorem booted_tasks (discovered timerHz : Nat) (i : TaskSlot) :
    (booted discovered timerHz).tasks i =
      if i = 0 then { id := 1, cpu := 0, weight := 1024, state := .running } else {} := by
  by_cases hi : i = 0
  · simp [booted, hi]
  · simp [booted, hi, onTask_ne, blank]

/-- The state after `k_scheduler_init`, step by step. -/
theorem initial_eq {discovered timerHz stack : Nat} (hs : stack ≠ 0) :
    initial discovered timerHz stack =
      ((booted discovered timerHz).fillTask 1 1 0 true stack).onCpu 0 fun k =>
        { k with idle := some 1 } := by
  have hb : ∀ i : TaskSlot, ((booted discovered timerHz).tasks i).state = .unused ↔ i ≠ 0 := by
    intro i
    by_cases hi : i = 0 <;> simp [booted_tasks, hi]
  have hf : ((List.finRange kMaxTasks).find? fun i =>
      decide (((booted discovered timerHz).tasks i).state = .unused)) = some 1 := by
    simp only [hb]
    decide
  have hn : (booted discovered timerHz).newTask 1 0 true stack =
      (some 1, (booted discovered timerHz).fillTask 1 1 0 true stack) := by
    have he : ((booted discovered timerHz).onTask 1 fun _ => {}) = booted discovered timerHz := by
      have hu : (booted discovered timerHz).tasks 1 = {} := by
        rw [booted_tasks, if_neg (by decide)]
      have h₁ : ((booted discovered timerHz).onTask 1 fun _ => {}) =
          (booted discovered timerHz).onTask 1 fun t => t := onTask_congr hu.symm
      rw [h₁, onTask_same]
    simp only [newTask, hf, he, if_neg hs]
    rfl
  rw [initial, kSchedulerInit]
  erw [hn]

/-- The tasks and processors that the boot processor starts with. -/
theorem initial_tasks {discovered timerHz stack : Nat} (hs : stack ≠ 0) : ∃ v, ∀ i,
    (initial discovered timerHz stack).tasks i =
      if i = 0 then { id := 1, cpu := 0, weight := 1024, state := .running }
      else if i = 1 then
        { id := 2, cpu := 0, weight := 1, stack, idle := true, vruntime := v, state := .ready }
      else {} := by
  refine ⟨(((booted discovered timerHz).cpuFloor 0).cpus 0).fairFloor, fun i => ?_⟩
  rw [initial_eq hs, onCpu_tasks]
  by_cases hi : i = 1
  · rw [hi, fillTask_self, booted_tasks, if_neg (by decide), if_neg (by decide), if_pos rfl]
    rfl
  · rw [fillTask_ne hi, booted_tasks, if_neg hi]

/-- The boot task runs on the first processor, and the others are idle. -/
theorem initial_cpus {discovered timerHz stack : Nat} (hs : stack ≠ 0) (c : Nat) :
    ((initial discovered timerHz stack).cpus c).current = (if c = 0 then some 0 else none) ∧
    ((initial discovered timerHz stack).cpus c).stackOwner = (if c = 0 then some 0 else none) ∧
    ((initial discovered timerHz stack).cpus c).idle = (if c = 0 then some 1 else none) ∧
    ((initial discovered timerHz stack).cpus c).online = decide (c = 0) := by
  rw [initial_eq hs]
  have hc := (booted discovered timerHz).fillTask_cpus 1 1 0 true stack c
  by_cases h0 : c = 0
  · subst h0
    simp only [onCpu_self]
    rw [hc.current, hc.stackOwner, hc.online]
    simp [booted, blank]
  · rw [onCpu_ne _ h0, hc.current, hc.stackOwner, hc.online, hc.idle]
    simp [booted, blank, onCpu_ne _ h0, h0]

/-- The invariant holds there. -/
theorem initial_ok {discovered timerHz stack : Nat} (hd : 0 < discovered) (hs : stack ≠ 0) :
    (initial discovered timerHz stack).Ok := by
  obtain ⟨v, ht⟩ := @initial_tasks discovered timerHz stack hs
  have hc := @initial_cpus discovered timerHz stack hs
  have hdis : (initial discovered timerHz stack).discovered = discovered := by
    rw [initial_eq hs]
    exact (Calm.cpuFloor _ 0).discovered
  have hnext : (initial discovered timerHz stack).nextTaskId = 3 := by
    rw [initial_eq hs]
    rfl
  have hdes : (initial discovered timerHz stack).destroying = none := by
    rw [initial_eq hs]
    exact (Calm.cpuFloor _ 0).destroying
  generalize initial discovered timerHz stack = s at ht hc hdis hnext hdes ⊢
  -- two tasks, the one that boots and the idle one; one processor that executes the first
  have h0 : s.tasks 0 = { id := 1, cpu := 0, weight := 1024, state := .running } := by
    rw [ht, if_pos rfl]
  have h1 : s.tasks 1 =
      { id := 2, cpu := 0, weight := 1, stack, idle := true, vruntime := v, state := .ready } := by
    rw [ht, if_neg (by decide), if_pos rfl]
  have hother : ∀ {i}, i ≠ 0 → i ≠ 1 → s.tasks i = {} := fun h₁ h₂ => by
    rw [ht, if_neg h₁, if_neg h₂]
  have hcur : ∀ {c i}, (s.cpus c).current = some i → c = 0 ∧ i = 0 := by
    intro c i hi
    rw [(hc c).1] at hi
    split at hi
    · next h => exact ⟨h, by simpa using hi.symm⟩
    · cases hi
  have hown : ∀ {c i}, (s.cpus c).stackOwner = some i → c = 0 ∧ i = 0 := by
    intro c i hi
    rw [(hc c).2.1] at hi
    split at hi
    · next h => exact ⟨h, by simpa using hi.symm⟩
    · cases hi
  have hidle : ∀ {c i}, (s.cpus c).idle = some i → c = 0 ∧ i = 1 := by
    intro c i hi
    rw [(hc c).2.2.1] at hi
    split at hi
    · next h => exact ⟨h, by simpa using hi.symm⟩
    · cases hi
  have hthree : ∀ i, i = 0 ∨ i = 1 ∨ s.tasks i = {} := by
    intro i
    by_cases h₁ : i = 0
    · exact .inl h₁
    · by_cases h₂ : i = 1
      · exact .inr (.inl h₂)
      · exact .inr (.inr (hother h₁ h₂))
  constructor
  case current =>
    intro c i hi
    obtain ⟨rfl, rfl⟩ := hcur hi
    simp [h0, hdis, hd]
  case running =>
    intro i hi
    obtain rfl | rfl | h := hthree i
    · simp [h0, (hc 0).1]
    · simp [h1] at hi
    · simp [h] at hi
  case owner =>
    intro c i hi
    obtain ⟨rfl, rfl⟩ := hown hi
    simp [h0, hdis, hd]
  case idle =>
    intro c i hi
    obtain ⟨rfl, rfl⟩ := hidle hi
    simp [h1, hdis, hd]
  case hasIdle =>
    intro c i hi
    obtain ⟨rfl, rfl⟩ := hcur hi
    exact ⟨1, by simp [(hc 0).2.2.1]⟩
  case idleTask =>
    intro i hi
    obtain rfl | rfl | h := hthree i
    · simp [h0] at hi
    · simp [h1]
    · simp [h] at hi
  case leaving =>
    intro c i hi hz
    obtain ⟨rfl, rfl⟩ := hcur hi
    simp [h0] at hz
  case offline =>
    intro c ho
    rw [(hc c).2.2.2] at ho
    have h₀ : c ≠ 0 := by simpa using ho
    rw [(hc c).1, (hc c).2.2.1, if_neg h₀, if_neg h₀]
  case blank =>
    intro i hi
    obtain rfl | rfl | h := hthree i
    · simp [h0] at hi
    · simp [h1] at hi
    · exact h
  case next =>
    rw [hnext]
    decide
  case fresh =>
    intro i hi
    rw [hnext]
    obtain rfl | rfl | h := hthree i
    · simp [h0]
    · simp [h1]
    · simp [h] at hi
  case ids =>
    intro i j hi hj he
    have hid : ∀ {k}, (s.tasks k).state ≠ .unused →
        k = 0 ∧ (s.tasks k).id = 1 ∨ k = 1 ∧ (s.tasks k).id = 2 := by
      intro k hk
      obtain rfl | rfl | h := hthree k
      · exact .inl ⟨rfl, by rw [h0]⟩
      · exact .inr ⟨rfl, by rw [h1]⟩
      · rw [h] at hk
        exact absurd rfl hk
    rcases hid hi with ⟨h₁, h₂⟩ | ⟨h₁, h₂⟩ <;> rcases hid hj with ⟨h₃, h₄⟩ | ⟨h₃, h₄⟩
    · rw [h₁, h₃]
    · omega
    · omega
    · rw [h₁, h₃]
  case process =>
    intro i p hp
    obtain rfl | rfl | h := hthree i
    · simp [h0] at hp
    · simp [h1] at hp
    · simp [h] at hp
  case destroying =>
    intro p hp
    rw [hdes] at hp
    cases hp
  case kill =>
    intro i hk
    obtain rfl | rfl | h := hthree i
    · simp [h0] at hk
    · simp [h1] at hk
    · simp [h] at hk

/-- The rule of invariants for runs. -/
theorem Steps.rule {I : SchedState → Prop} (h : Steps s s') (hs : I s)
    (hstep : ∀ (σ : SchedState) e, I σ → σ.Enabled e → I (σ.step e)) : I s' := by
  induction h with
  | refl => exact hs
  | next _ he ih => exact hstep _ _ ih he

/-- Every run keeps the invariant. -/
theorem Ok.steps (h : s.Ok) (hr : Steps s s') : s'.Ok :=
  hr.rule h fun _ _ hok he => (hok.step he).1

/-- Every reachable state satisfies it. -/
theorem Reachable.ok (h : s.Reachable) : s.Ok := by
  obtain ⟨discovered, timerHz, stack, hd, hs, hr⟩ := h
  exact (initial_ok hd hs).steps hr

/-- No live task has this identifier. -/
def Gone (s : SchedState) (id : Nat) : Prop :=
  ∀ j, (s.tasks j).state ≠ .unused → (s.tasks j).id ≠ id

/-- An identifier that was given stays below the next one. -/
theorem Evolves.next_gt (h : s.Evolves s') (hn : s.nextTaskId < 2 ^ 32) {n : Nat}
    (hlt : s.nextTaskId = 0 ∨ n < s.nextTaskId) : s'.nextTaskId = 0 ∨ n < s'.nextTaskId := by
  rcases h.next with he | ⟨h₀, he⟩
  · rwa [he]
  · rw [he]
    omega

/-- An identifier that is gone does not come back. -/
theorem Evolves.gone (h : s.Evolves s') {n : Nat} (hlt : s.nextTaskId = 0 ∨ n < s.nextTaskId)
    (hg : s.Gone n) : s'.Gone n := by
  intro j hj
  by_cases hu : (s.tasks j).state = .unused
  · obtain ⟨h₀, he, -⟩ := h.new j hu hj
    rw [he]
    exact (hlt.resolve_left h₀).ne'
  · rcases h.old j hu with hl | ⟨-, -, hb⟩
    · rw [hl.id]
      exact hg j hu
    · rw [hb] at hj
      exact absurd rfl hj

/-- A task in slot `i` that was `t` at some point, one step later. -/
theorem Evolves.follow (hev : s.Evolves s') (hok : s.Ok) {t : Task} (hu : t.state ≠ .unused)
    (hlt : s.nextTaskId = 0 ∨ t.id < s.nextTaskId) (hf : t.Later (s.tasks i) ∨ s.Gone t.id) :
    t.Later (s'.tasks i) ∨ s'.Gone t.id := by
  rcases hf with hl | hg
  · have hlive := hl.live hu
    rcases hev.old i hlive with hl' | ⟨-, -, hb⟩
    · refine .inl ⟨hl.toKin.trans hl'.toKin, fun hz => hl'.zombie (hl.zombie hz), fun hk => ?_⟩
      exact (hl.kill hk).elim hl'.kill fun hz => .inr (hl'.zombie hz)
    · refine .inr fun j hj hid => ?_
      by_cases hu' : (s.tasks j).state = .unused
      · obtain ⟨h₀, hid', -⟩ := hev.new j hu' hj
        exact (hlt.resolve_left h₀).ne' (hid'.symm.trans hid)
      · rcases hev.old j hu' with hl' | ⟨-, -, hb'⟩
        · have hji : j = i := hok.ids hu' hlive ((hl'.id.symm.trans hid).trans hl.id.symm)
          rw [hji, hb] at hj
          exact hj rfl
        · rw [hb'] at hj
          exact hj rfl
  · exact .inr (hev.gone hlt hg)

/-- **What becomes of a task in a run**: it is the same task, later, or its identifier is gone. -/
theorem Ok.follow (h : s.Ok) (hi : (s.tasks i).state ≠ .unused) (hr : Steps s s') :
    (s.tasks i).Later (s'.tasks i) ∨ s'.Gone (s.tasks i).id := by
  have hinv : s'.Ok ∧ (s'.nextTaskId = 0 ∨ (s.tasks i).id < s'.nextTaskId) ∧
      ((s.tasks i).Later (s'.tasks i) ∨ s'.Gone (s.tasks i).id) := by
    refine hr.rule (I := fun σ => σ.Ok ∧ (σ.nextTaskId = 0 ∨ (s.tasks i).id < σ.nextTaskId) ∧
      ((s.tasks i).Later (σ.tasks i) ∨ σ.Gone (s.tasks i).id))
      ⟨h, (h.fresh hi).2, .inl (Task.Calm.refl _).later⟩ ?_
    rintro σ e ⟨hok, hlt, hf⟩ he
    obtain ⟨hok', hev⟩ := hok.step he
    exact ⟨hok', hev.next_gt hok.next hlt, hev.follow hok hi hlt hf⟩
  exact hinv.2.2

/-- A kill that was accepted is recorded. -/
theorem control_kill {pid : Nat} (h : (s.processControlLocked pid .kill).1 = .ok ()) :
    ∃ p i, s.processByPid pid = some p ∧ s.processTask p = some i ∧
      ((s.processControlLocked pid .kill).2.tasks i).controlRequest = some .kill := by
  obtain ⟨e, he⟩ | ⟨p, i, hp, hi, hz, -⟩ := s.processControlLocked_cases pid .kill
  · rw [he] at h
    cases h
  refine ⟨p, i, hp, hi, ?_⟩
  simp only [processControlLocked, hp, hi, Option.bind_some, Option.map_some, if_neg hz,
    reduceCtorEq, if_false, true_or, if_true, onTask_self, onCpu_tasks]
  split
  · obtain ⟨v, hv⟩ :=
      taskReady_self (s := s.onTask i fun t => { t with controlRequest := some .kill })
      (i := i)
    simp [processReady, hv]
  · simp

/-- **Safety of the scheduler.**  In every reachable state of a machine with any number of
processors: a running task is the current task of its own processor and of no other, so a processor
has at most one; a zombie stays one until its identifier is gone, and `kernel_schedule` leaves no
zombie on the processor; a process that has a task is a zombie when the task is; a step keeps the
slot and the stack of a task unless it is a zombie that no processor runs and whose stack no
processor is on; live tasks have different identifiers; and after an accepted kill the task is never
stopped and the kill stays until it is a zombie. -/
theorem scheduler_safety (h : s.Reachable) :
    (∀ i, (s.tasks i).state = .running → ∀ c, (s.cpus c).current = some i ↔ c = (s.tasks i).cpu) ∧
    (∀ i j, (s.tasks i).state = .running → (s.tasks j).state = .running →
      (s.tasks i).cpu = (s.tasks j).cpu → i = j) ∧
    (∀ i, (s.tasks i).state = .zombie → ∀ s', Steps s s' →
      ((s'.tasks i).id = (s.tasks i).id ∧ (s'.tasks i).state = .zombie) ∨ s'.Gone (s.tasks i).id) ∧
    (∀ c forced now i, s.Enabled (.schedule c forced now) →
      ((s.kernelSchedule c forced now).cpus c).current = some i →
      ((s.kernelSchedule c forced now).tasks i).state ≠ .zombie) ∧
    (∀ i p, (s.tasks i).process = some p →
      ((s.processes p).state = .zombie ↔ (s.tasks i).state = .zombie)) ∧
    (∀ e i, s.Enabled e → (s.tasks i).state ≠ .unused →
      (((s.step e).tasks i).id = (s.tasks i).id ∧ ((s.step e).tasks i).stack = (s.tasks i).stack ∧
        ((s.step e).tasks i).state ≠ .unused) ∨
      (s.tasks i).state = .zombie ∧ s.Off i ∧ (s.step e).tasks i = {}) ∧
    (∀ i j, (s.tasks i).state ≠ .unused → (s.tasks j).state ≠ .unused →
      (s.tasks i).id = (s.tasks j).id → i = j) ∧
    (∀ pid, s.Enabled (.processControl pid .kill) → (s.processControlLocked pid .kill).1 = .ok () →
      ∃ p i, s.processByPid pid = some p ∧ s.processTask p = some i ∧
        ∀ s', Steps (s.step (.processControl pid .kill)) s' → s'.Gone (s.tasks i).id ∨
          (s'.tasks i).id = (s.tasks i).id ∧ (s'.tasks i).state ≠ .stopped ∧
            ((s'.tasks i).controlRequest = some .kill ∨ (s'.tasks i).state = .zombie)) := by
  have hok := h.ok
  refine ⟨fun i hi c => ⟨fun hc => (hok.current hc).2.1.symm, ?_⟩, fun i j hi hj he => ?_,
    fun i hz s' hr => ?_, fun c forced now i he => (hok.schedule (he.online c rfl) forced now).2 i,
    fun i p hp => (hok.process hp).2.2, fun e i he hi => ?_, fun i j hi hj => hok.ids hi hj,
    fun pid he hr => ?_⟩
  · rintro rfl
    exact hok.running hi
  · have hc := (he ▸ hok.running hi).symm.trans (hok.running hj)
    simpa using hc
  · exact (hok.follow (by simp [hz]) hr).imp_left fun hl => ⟨hl.id, hl.zombie hz⟩
  · exact ((hok.step he).2.old i hi).imp_left fun hl => ⟨hl.id, hl.stack, hl.live hi⟩
  · -- the request stays with the task, which is followed through the run
    obtain ⟨p, i, hp, hi, hk⟩ := control_kill hr
    obtain ⟨hu, -⟩ := processTask_some hi
    have hc := hok.calm_control pid .kill
    refine ⟨p, i, hp, hi, fun s' hs' => ?_⟩
    have hok' := (hok.calm hc).steps hs'
    rcases (hok.calm hc).follow ((hc.tasks i).live hu) hs' with hl | hg
    · have hid := hl.id.trans (hc.tasks i).id
      refine .inr ⟨hid, ?_⟩
      rcases hl.kill hk with hk' | hz
      · exact ⟨hok'.kill hk', .inl hk'⟩
      · exact ⟨by simp [hz], .inr hz⟩
    · rw [(hc.tasks i).id] at hg
      exact .inl hg

/-- One processor: a task is created, runs, exits and is switched away from, with the processor
still on its stack. -/
def exited : SchedState :=
  ((((((initial 1 1000 4096).step (.create 1024 0 8192)).step (.schedule 0 true 0)).step
    (.stackSwitched 0)).step (.exit 0 7)).step (.schedule 0 true 0))

/-- A section of a processor that is online can happen. -/
theorem enabled_on {s : SchedState} {e : SchedEvent} {c : Nat} (he : e.cpu = some c)
    (ho : (s.cpus c).online = true) (hm : e.underProcessMutex = false) : s.Enabled e where
  online d hd := by
    obtain rfl : c = d := by simpa using he.symm.trans hd
    exact ho
  mutex h := by simp [hm] at h
  start d stack h := by
    subst h
    cases he
  up d h := by
    subst h
    cases he

/-- A step of no processor in particular. -/
theorem enabled_off {s : SchedState} {e : SchedEvent} (he : e.cpu = none)
    (hs : ∀ c stack, e ≠ .smpStart c stack)
    (hu : ∀ c, e ≠ .apMain c) (hd : s.destroying = none) : s.Enabled e where
  online c hc := by simp [he] at hc
  mutex _ := hd
  start c stack h := absurd h (hs c stack)
  up c h := absurd h (hu c)

/-- A task that exited and was not switched away from. -/
theorem exited_reachable : exited.Reachable := by
  refine ⟨1, 1000, 4096, by decide, by decide, ?_⟩
  refine .next (.next (.next (.next (.next (.refl _) ?_) ?_) ?_) ?_) ?_
  · exact ⟨by simp [SchedEvent.cpu], by simp [SchedEvent.underProcessMutex], by simp, by simp⟩
  all_goals exact enabled_on rfl (by decide +kernel) rfl

theorem scheduler_safety_exited : (exited.tasks 2).state = .zombie ∧
    (exited.kTaskReap 3).1 = .error .ebusy ∧
    ∀ s', Steps exited s' → (s'.tasks 2).id = 3 ∧ (s'.tasks 2).state = .zombie ∨ s'.Gone 3 := by
  have hz : (exited.tasks 2).state = .zombie := by decide +kernel
  have hid : (exited.tasks 2).id = 3 := by decide +kernel
  have h := (scheduler_safety exited_reachable).2.2.1 2 hz
  rw [hid] at h
  exact ⟨hz, by decide +kernel, h⟩

end SchedState

end Efishell
