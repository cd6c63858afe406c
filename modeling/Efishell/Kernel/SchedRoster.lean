import Efishell.Kernel.SchedKept

/-!
# Kernel — identifiers of processes

What a step of the scheduler does to the identifiers of processes and to the table of partitions.
Most steps do nothing to them (`SchedState.Plain`); a process gets an identifier once, an identifier
is given once, and the only steps that touch a partition release those of one process.

* `roster_step`: what a section does to identifiers and partitions.
-/

namespace Efishell

/-- The process keeps its identifier and its task. -/
def KProcess.Same (p p' : KProcess) : Prop :=
  p'.used = p.used ∧ p'.id = p.id ∧ p'.taskId = p.taskId

theorem KProcess.Same.refl (p : KProcess) : p.Same p := ⟨rfl, rfl, rfl⟩

namespace SchedState

variable {s s' : SchedState} {i j : TaskSlot} {c d : Nat} {p q : ProcessSlot}

/-- Neither the identifiers nor the partitions change. -/
structure Plain (s s' : SchedState) : Prop where
  processes : ∀ p, (s.processes p).Same (s'.processes p)
  next : s'.nextProcessId = s.nextProcessId
  partitions : s'.partitions = s.partitions
  destroying : s'.destroying = s.destroying

theorem Plain.refl (s : SchedState) : s.Plain s := ⟨fun _ => .refl _, rfl, rfl, rfl⟩

/-- What keeps the processes leaves the roster. -/
theorem Kept.plain (h : s.Kept s') : s.Plain s' where
  processes p := by
    obtain ⟨h₁, h₂, h₃, -⟩ := h.processes p
    exact ⟨h₁, h₂, h₃⟩
  next := h.next
  partitions := h.partitions
  destroying := h.destroying

theorem Plain.onProcess {f : KProcess → KProcess} (hf : ∀ k : KProcess, k.Same (f k)) :
    s.Plain (s.onProcess p f) := by
  refine ⟨fun q => ?_, rfl, rfl, rfl⟩
  obtain rfl | hq := eq_or_ne q p
  · rw [onProcess_self]
    exact hf _
  · rw [onProcess_ne _ hq]
    exact .refl _

/-- The table without the leases of `pid`. -/
def released (l : List PartitionInfo) (pid : Nat) : List PartitionInfo :=
  l.map fun v => if v.ownerPid = pid then { v with ownerPid := 0 } else v

/-- What a step can do to the process in a slot: nothing, clear the slot, fill it with the next
identifier, or start its task. -/
def ProcessStep (s s' : SchedState) (p : ProcessSlot) : Prop :=
  (s.processes p).Same (s'.processes p) ∨ (s'.processes p).used = false ∨
    (s.processes p).used = false ∧ s.nextProcessId ≠ 0 ∧
      (s'.processes p).id = s.nextProcessId ∧ s'.nextProcessId = (s.nextProcessId + 1) % 2 ^ 32 ∨
    (s.processes p).taskId = 0 ∧ (s'.processes p).used = (s.processes p).used ∧
      (s'.processes p).id = (s.processes p).id

/-- What a section does to the process slots and the pids. -/
structure Roster (s s' : SchedState) : Prop where
  processes : ∀ p, s.ProcessStep s' p
  next : s'.nextProcessId = s.nextProcessId ∨
    s.nextProcessId ≠ 0 ∧ s'.nextProcessId = (s.nextProcessId + 1) % 2 ^ 32
  partitions : s'.partitions = s.partitions ∨ ∃ pid, s'.partitions = released s.partitions pid
  /-- At most one slot is filled. -/
  one : ∀ {p q}, (s.processes p).used = false → (s'.processes p).used = true →
    (s.processes q).used = false → (s'.processes q).used = true → p = q

/-- No slot but `r` is filled. -/
theorem one_of_same {r : ProcessSlot} (h : ∀ p, p ≠ r → (s.processes p).Same (s'.processes p))
    (hp : (s.processes p).used = false) (hp' : (s'.processes p).used = true)
    (hq : (s.processes q).used = false) (hq' : (s'.processes q).used = true) : p = q := by
  have hr : ∀ {p}, (s.processes p).used = false → (s'.processes p).used = true → p = r := by
    intro p hu hu'
    by_contra hne
    rw [(h p hne).1, hu] at hu'
    cases hu'
  rw [hr hp hp', hr hq hq']

/-- A step that leaves the roster is one. -/
theorem Plain.roster (h : s.Plain s') : s.Roster s' :=
  ⟨fun p => .inl (h.processes p), .inl h.next, .inl h.partitions,
    one_of_same (r := ⟨0, by decide⟩) fun p _ => h.processes p⟩

/-- The leases of one process are released. -/
theorem Plain.roster_released (h : s.Plain s') {σ : SchedState} (hp : σ.processes = s'.processes)
    (hn : σ.nextProcessId = s'.nextProcessId) {pid : Nat}
    (hr : σ.partitions = released s'.partitions pid) : s.Roster σ where
  processes p := .inl (by rw [hp]; exact h.processes p)
  next := .inl (hn.trans h.next)
  partitions := .inr ⟨pid, by rw [hr, h.partitions]⟩
  one := one_of_same (r := ⟨0, by decide⟩) fun p _ => by rw [hp]; exact h.processes p

/-- A change of one process. -/
theorem Roster.onProcess {f : KProcess → KProcess} (hp : s.ProcessStep (s.onProcess p f) p) :
    s.Roster (s.onProcess p f) := by
  have hne : ∀ q, q ≠ p → (s.processes q).Same ((s.onProcess p f).processes q) := by
    intro q hq
    rw [onProcess_ne _ hq]
    exact .refl _
  refine ⟨fun q => ?_, .inl rfl, .inl rfl, one_of_same hne⟩
  obtain rfl | hq := eq_or_ne q p
  · exact hp
  · exact .inl (hne q hq)

/-- A process created changes the roster at one slot at most. -/
theorem Roster.processCreate (s : SchedState) (ring1 : Bool) :
    s.Roster (s.processCreateLocked ring1).2 := by
  unfold SchedState.processCreateLocked
  split
  · exact (Plain.refl s).roster
  · next hn =>
      split
      · exact (Plain.refl s).roster
      · next p hp =>
          have hu : (s.processes p).used = false := by simpa using List.find?_some hp
          have hne : ∀ q, q ≠ p → (s.processes q).Same
              (({ s with nextProcessId := (s.nextProcessId + 1) % 2 ^ 32 }.onProcess p fun _ =>
                { used := true, id := s.nextProcessId, ring1 }).processes q) := by
            intro q hq
            rw [onProcess_ne _ hq]
            exact .refl _
          refine ⟨fun q => ?_, .inr ⟨hn, rfl⟩, .inl rfl, one_of_same hne⟩
          obtain rfl | hq := eq_or_ne q p
          · exact .inr (.inr (.inl ⟨hu, hn, by simp, rfl⟩))
          · exact .inl (hne q hq)

/-- A creation undone changes the roster at one slot at most. -/
theorem Roster.processCreateFailed (s : SchedState) (p : ProcessSlot) :
    s.Roster (s.processCreateFailed p) := by
  unfold SchedState.processCreateFailed
  split
  · exact (Plain.refl s).roster
  · exact .onProcess (.inr (.inl (by simp)))

/-- An image loaded changes the roster at one slot at most. -/
theorem Roster.riefLoaded (s : SchedState) (p : ProcessSlot) : s.Roster (s.riefLoaded p) := by
  unfold SchedState.riefLoaded
  split
  · exact (Plain.refl s).roster
  · exact (Plain.onProcess (f := fun q => { q with loaded := true })
      fun _ => ⟨rfl, rfl, rfl⟩).roster

/-- A process started changes the roster at one slot at most. -/
theorem Roster.processStart (s : SchedState) (p : ProcessSlot) (cpu : Option Nat) (stack : Nat) :
    s.Roster (s.processStartLocked p cpu stack).2 := by
  unfold SchedState.processStartLocked
  split
  · exact (Plain.refl s).roster
  · next hp =>
      have ht : (s.processes p).taskId = 0 := by
        by_contra h
        exact hp (.inr (.inr h))
      dsimp only
      split
      · exact (Plain.refl s).roster
      · have h := (Kept.newTask s 1024 (cpu.getD s.leastLoaded) false stack).plain
        split
        · next heq =>
            rw [heq] at h
            exact h.roster
        · next i s₁ heq =>
            rw [heq] at h
            have hne : ∀ q, q ≠ p → (s.processes q).Same
                (((s₁.onTask i fun t => { t with process := some p }).onProcess p fun q =>
                  { q with taskId := (s₁.tasks i).id, state := .ready }).processes q) := by
              intro q hq
              rw [onProcess_ne _ hq]
              exact h.processes q
            refine ⟨fun q => ?_, .inl h.next, .inl h.partitions, one_of_same hne⟩
            obtain rfl | hq := eq_or_ne q p
            · obtain ⟨h₁, h₂, -⟩ := h.processes q
              exact .inr (.inr (.inr ⟨ht, by simpa using h₁, by simpa using h₂⟩))
            · exact .inl (hne q hq)

/-- The first section of a destruction changes the roster at one slot at most. -/
theorem Roster.processDestroy (s : SchedState) (p : ProcessSlot) :
    s.Roster (s.processDestroyLocked p).2 := by
  have hr : s.Plain (if (s.processes p).taskId ≠ 0 then s.freeTasksOf p (List.finRange kMaxTasks)
      else (true, s)).2 := by
    split
    · exact (Kept.freeTasksOf p _ s).plain
    · exact Plain.refl s
  unfold SchedState.processDestroyLocked
  split
  · exact (Plain.refl s).roster
  · split
    · exact (Plain.refl s).roster
    · dsimp only
      generalize (if (s.processes p).taskId ≠ 0 then s.freeTasksOf p (List.finRange kMaxTasks)
        else (true, s)) = r at hr ⊢
      split
      · exact hr.roster
      · exact hr.roster_released rfl rfl rfl

/-- The last section of a destruction changes the roster at one slot at most. -/
theorem Roster.processDestroyed (s : SchedState) (b : Bool) : s.Roster (s.processDestroyed b) := by
  unfold SchedState.processDestroyed
  split
  · exact (Plain.refl s).roster
  · next p _ =>
      dsimp only
      split
      · have h := Roster.onProcess (s := { s with destroying := none }) (p := p) (f := fun _ => {})
          (.inr (.inl (by simp)))
        exact ⟨h.processes, h.next, h.partitions, h.one⟩
      · exact ⟨fun _ => .inl (.refl _), .inl rfl, .inl rfl, one_of_same (r := p) fun _ _ => .refl _⟩

/-- The return to Ring 3 changes the roster at one slot at most. -/
theorem Roster.returnControl (s : SchedState) (c : Nat) : s.Roster (s.processReturnControl c) := by
  rcases s.returnControl_cases c with h | ⟨s₁, pid, h, he⟩
  · exact h.plain.roster
  · rw [he]
    exact h.plain.roster_released rfl rfl rfl

/-- **What a step does to identifiers and partitions.** -/
theorem roster_step (s : SchedState) (e : SchedEvent) : s.Roster (s.step e) := by
  by_cases hm : e.underProcessMutex = false
  · by_cases hr : ∃ c, e = .returnControl c
    · obtain ⟨c, rfl⟩ := hr
      exact .returnControl s c
    · by_cases hd : ∃ b, e = .processDestroyed b
      · obtain ⟨b, rfl⟩ := hd
        exact .processDestroyed s b
      · exact (s.kept_step hm (not_exists.mp hr) (not_exists.mp hd)).plain.roster
  · cases e with
    | processCreate ring1 => exact .processCreate s ring1
    | processCreateFailed p => exact .processCreateFailed s p
    | riefLoaded p => exact .riefLoaded s p
    | processStart p cpu stack => exact .processStart s p cpu stack
    | processControl pid op => exact (Kept.control s pid op).plain.roster
    | processDestroy p => exact .processDestroy s p
    | _ => exact absurd rfl hm

/-- A process is being destroyed afterwards: it was before, or the step released what it leased. -/
theorem destroying_step {e : SchedEvent} (he : s.Enabled e)
    (hp : (s.step e).destroying = some p) :
    (s.processes p).Same ((s.step e).processes p) ∧
      (s.destroying = some p ∨
        (s.processes p).used = true ∧
          (s.step e).partitions = released s.partitions (s.processes p).id) := by
  by_cases hm : e.underProcessMutex = false
  · by_cases hr : ∃ c, e = .returnControl c
    · obtain ⟨c, rfl⟩ := hr
      rw [step] at hp ⊢
      rcases s.returnControl_cases c with h | ⟨s₁, pid, h, he'⟩
      · exact ⟨h.plain.processes p, .inl (h.destroying.symm.trans hp)⟩
      · rw [he'] at hp ⊢
        exact ⟨h.plain.processes p, .inl (h.destroying.symm.trans hp)⟩
    · by_cases hd : ∃ b, e = .processDestroyed b
      · obtain ⟨b, rfl⟩ := hd
        rw [step, SchedState.processDestroyed] at hp
        split at hp
        · next hn =>
            rw [hn] at hp
            cases hp
        · dsimp only at hp
          split at hp <;> cases hp
      · have h := (s.kept_step hm (not_exists.mp hr) (not_exists.mp hd)).plain
        exact ⟨h.processes p, .inl (h.destroying.symm.trans hp)⟩
  · -- the sections under the process mutex start with nothing being destroyed
    have hnone := he.mutex (by simpa using hm)
    have hplain : ∀ {σ : SchedState}, σ.destroying = some p → ¬ s.Plain σ := by
      intro σ hσ h
      rw [h.destroying, hnone] at hσ
      cases hσ
    cases e with
    | processDestroy r =>
        have hr : s.Plain (if (s.processes r).taskId ≠ 0 then
            s.freeTasksOf r (List.finRange kMaxTasks) else (true, s)).2 := by
          split
          · exact (Kept.freeTasksOf r _ s).plain
          · exact Plain.refl s
        rw [step, processDestroyLocked] at hp ⊢
        split at hp
        · exact absurd (.refl s) (hplain hp)
        · next hu =>
            split at hp
            · exact absurd (.refl s) (hplain hp)
            · next hz =>
                rw [if_neg hu, if_neg hz]
                dsimp only at hp ⊢
                generalize (if (s.processes r).taskId ≠ 0 then
                  s.freeTasksOf r (List.finRange kMaxTasks) else (true, s)) = x at hr hp ⊢
                split at hp
                · exact absurd hr (hplain hp)
                · next hx =>
                    rw [if_neg hx]
                    obtain rfl : r = p := Option.some.inj hp
                    exact ⟨hr.processes r,
                      .inr ⟨by simpa using hu, congrArg (released · _) hr.partitions⟩⟩
    | processControl pid op => exact absurd (Kept.control s pid op).plain (hplain hp)
    | processCreate ring1 =>
        rw [step, processCreateLocked] at hp
        split at hp
        · exact absurd (.refl s) (hplain hp)
        · split at hp
          · exact absurd (.refl s) (hplain hp)
          · cases hnone.symm.trans hp
    | processCreateFailed r =>
        rw [step, SchedState.processCreateFailed] at hp
        split at hp
        · exact absurd (.refl s) (hplain hp)
        · cases hnone.symm.trans hp
    | riefLoaded r =>
        rw [step, SchedState.riefLoaded] at hp
        split at hp
        · exact absurd (.refl s) (hplain hp)
        · cases hnone.symm.trans hp
    | processStart r cpu stack =>
        rw [step, processStartLocked] at hp
        split at hp
        · exact absurd (.refl s) (hplain hp)
        · dsimp only at hp
          split at hp
          · exact absurd (.refl s) (hplain hp)
          · have h := (Kept.newTask s 1024 (cpu.getD s.leastLoaded) false stack).plain
            split at hp
            · next heq =>
                rw [heq] at h
                exact absurd h (hplain hp)
            · next heq =>
                rw [heq] at h
                exact absurd h (hplain hp)
    | _ => exact absurd rfl hm

end SchedState

end Efishell
