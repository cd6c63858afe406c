import Mathlib.Data.List.Perm.Basic
import Mathlib.Data.List.Perm.Subperm
import Efishell.Kernel.Ipc
import Efishell.Kernel.SchedRoster
import Efishell.Kernel.Sync

/-!
# Kernel — delivery and authority of messages

What a task has received, followed by what is in its mailbox, is what was sent to it with success,
in order (`Mailed`).  And a process sends to nobody but itself and those that were granted to it
(`Authorised`): the grants of a process are a part of what its history added.

* `IpcOk.step`, `IpcOk.run`: every section and every run keeps the invariant of the history.
* `ipc_delivery_and_authority`: messages arrive once and in order, and are sent with authority only.
-/

namespace Efishell

/-! ### Mailboxes -/

/-- The messages in the mailbox, the oldest first. -/
def Task.queued (t : Task) : List Message :=
  (List.range t.mailCount).map fun k => t.mail ((t.mailHead + k) % mailDepth)

theorem Task.queued_length (t : Task) : t.queued.length = t.mailCount := by simp [Task.queued]

/-- The queue is the mailbox's. -/
theorem Task.queued_congr {t t' : Task} (h : SchedState.SameMail t t') : t'.queued = t.queued := by
  obtain ⟨-, hh, hc, hm⟩ := h
  rw [Task.queued, Task.queued, hh, hc, hm]

@[simp] theorem Task.deliver_id (t : Task) (msg : Message) : (t.deliver msg).id = t.id := rfl

@[simp] theorem Task.take_id (t : Task) : t.take.id = t.id := rfl

/-- A message delivered is the last of the queue. -/
theorem Task.queued_deliver {t : Task} (msg : Message) (h : t.mailCount < mailDepth) :
    (t.deliver msg).queued = t.queued ++ [msg] := by
  rw [mailDepth] at h
  simp only [Task.queued, Task.deliver, List.range_succ, List.map_append,
    List.map_cons, List.map_nil, Function.update_self]
  congr 1
  refine List.map_congr_left fun k hk => Function.update_of_ne ?_ _ _
  rw [List.mem_range] at hk
  rw [mailDepth]
  omega

/-- The message taken is the first. -/
theorem Task.queued_take {t : Task} (hh : t.mailHead < mailDepth) (h : t.mailCount ≠ 0) :
    t.queued = t.mail t.mailHead :: t.take.queued := by
  obtain ⟨n, hn⟩ := Nat.exists_eq_succ_of_ne_zero h
  rw [Task.queued, Task.queued, Task.take, hn, Nat.succ_eq_add_one, List.range_succ_eq_map,
    List.map_cons, List.map_map, Nat.add_zero, Nat.mod_eq_of_lt hh]
  congr 1
  refine List.map_congr_left fun k _ => ?_
  dsimp only [Function.comp]
  congr 1
  rw [Nat.mod_add_mod]
  congr 1
  omega

/-! ### Arrays of grants -/

/-- The last grant in place of the removed one is the rest in another order. -/
theorem swapRemove_perm {l : List Nat} {i : Nat} (h : i < l.length) :
    (swapRemove l i).Perm (l.eraseIdx i) := by
  induction l using List.reverseRecOn with
  | nil => exact absurd h (Nat.not_lt_zero i)
  | append_singleton l a =>
      rw [swapRemove, List.getLast?_concat, Option.getD_some]
      rcases Nat.lt_or_ge i l.length with hlt | hge
      · rw [List.set_append_left _ _ hlt, List.dropLast_concat,
          List.eraseIdx_append_of_lt_length hlt]
        exact (List.set_perm_cons_eraseIdx hlt a).trans (List.perm_append_singleton a _).symm
      · have hi : i = l.length := by
          rw [List.length_append, List.length_singleton] at h
          omega
        subst hi
        simp [List.set_append_right, List.eraseIdx_append_of_length_le]

/-- Nothing is added. -/
theorem swapRemove_subperm (l : List Nat) (i : Nat) : (swapRemove l i).Subperm l := by
  rcases Nat.lt_or_ge i l.length with hlt | hge
  · exact (swapRemove_perm hlt).subperm.trans (List.eraseIdx_sublist l i).subperm
  · rw [swapRemove, List.set_eq_of_length_le hge]
    exact (List.dropLast_sublist l).subperm

theorem pruneGrants_subperm (live : Nat → Bool) (left : Nat) :
    ∀ l i, (pruneGrants live left l i).Subperm l := by
  induction left with
  | zero => exact fun l _ => .refl l
  | succ left ih =>
      intro l i
      rw [pruneGrants]
      split
      · exact ih l (i + 1)
      · exact (ih _ i).trans (swapRemove_subperm l i)

/-- One grant is taken away. -/
theorem dropGrant_perm (l : List Nat) (tid : Nat) : (dropGrant l tid).Perm (l.erase tid) := by
  rw [dropGrant]
  split
  · next h =>
      rw [← List.eraseIdx_idxOf_eq_erase]
      exact swapRemove_perm (List.idxOf_lt_length_of_mem h)
  · next h => rw [List.erase_of_not_mem h]

/-- What `grant_locked` leaves: a part of what was there, and the new grant at most once. -/
theorem grantInto_cases (live : Nat → Bool) (l : List Nat) (tid : Nat) :
    grantInto live l tid = (.ok (), l) ∧ tid ∈ l ∨
      tid ∉ l ∧ ∃ l', l'.Subperm l ∧
        (grantInto live l tid = (.error .e2big, l') ∨
          grantInto live l tid = (.ok (), l' ++ [tid])) := by
  rw [grantInto]
  split
  · next h => exact .inl ⟨rfl, h⟩
  · next h =>
      refine .inr ⟨h, _, pruneGrants_subperm live l.length l 0, ?_⟩
      dsimp only
      split
      · exact .inl rfl
      · exact .inr rfl

/-- A grant that is there was there, or is the one added. -/
theorem mem_grantInto {live : Nat → Bool} {l : List Nat} {tid x : Nat}
    (h : x ∈ (grantInto live l tid).2) : x ∈ l ∨ x = tid ∧ (grantInto live l tid).1 = .ok () := by
  rcases grantInto_cases live l tid with ⟨he, -⟩ | ⟨-, l', hl, he | he⟩
  · rw [he] at h
    exact .inl h
  · rw [he] at h
    exact .inl (hl.subset h)
  · rw [he] at h ⊢
    rcases List.mem_append.mp h with h | h
    · exact .inl (hl.subset h)
    · exact .inr ⟨List.mem_singleton.mp h, rfl⟩

/-- A grant that was added is taken back: what is left was there before. -/
theorem mem_dropGrant {l l' l₂ : List Nat} {tid x : Nat} (hl : l'.Subperm l) (hnot : tid ∉ l)
    (h₂ : l₂.Subperm (l' ++ [tid])) (hx : x ∈ dropGrant l₂ tid) : x ∈ l := by
  have hx := (dropGrant_perm l₂ tid).mem_iff.mp hx
  obtain rfl | hne := eq_or_ne x tid
  · -- it was there once, so that none is left
    have hcount := h₂.count_le x
    have hzero : l'.count x = 0 := List.count_eq_zero.mpr fun hm => hnot (hl.subset hm)
    have hpos := List.count_pos_iff.mpr hx
    rw [List.count_append, hzero, List.count_singleton_self] at hcount
    rw [List.count_erase_self] at hpos
    omega
  · rcases List.mem_append.mp (h₂.subset (List.mem_of_mem_erase hx)) with hm | hm
    · exact hl.subset hm
    · exact absurd (List.mem_singleton.mp hm) hne

namespace SchedState

variable {s s' : SchedState} {i j me : TaskSlot} {c : Nat} {p q : ProcessSlot}

/-! ### Steps of the scheduler -/

/-- What a step of the scheduler does to mailboxes, grants and services. -/
structure Frame (next : Nat) (gone : Option ProcessSlot) (s s' : SchedState) : Prop where
  mail : ∀ i, MailKept next (s.tasks i) (s'.tasks i)
  process : ∀ i, (s'.tasks i).process = (s.tasks i).process ∨ (s.tasks i).process = none ∨
    (s.tasks i).process = gone
  grants : ∀ p, Granted (s.processes p) (s'.processes p)
  services : ∀ v ∈ s'.services, v.pid ≠ 0 → v ∈ s.services

namespace Frame

variable {next : Nat} {gone : Option ProcessSlot}

/-- A quiet step stays inside its frame. -/
theorem of_quiet {σ : SchedState} (h : Quiet next gone σ s') (ht : σ.tasks = s.tasks)
    (hp : σ.processes = s.processes) (hv : σ.services = s.services) : Frame next gone s s' where
  mail i := by rw [← ht]; exact (h.tasks i).2.1
  process i := by rw [← ht]; exact (h.tasks i).2.2
  grants p := by rw [← hp]; exact h.processes p
  services v := by rw [← hv]; exact h.services v

theorem refl (s : SchedState) : Frame next gone s s := .of_quiet (.refl s) rfl rfl rfl

/-- The current task blocks. -/
theorem block (o : WaitObject) : Frame next gone s (s.block c i o) := by
  have h : ∀ j, MailKept next (s.tasks j) ((s.block c i o).tasks j) ∧
      ((s.block c i o).tasks j).process = (s.tasks j).process := by
    intro j
    obtain rfl | hj := eq_or_ne j i
    · simp only [SchedState.block, leave, onCpu_tasks, onTask_self]
      exact ⟨.refl (s.tasks j), trivial⟩
    · simp only [SchedState.block, leave, onCpu_tasks, onTask_ne _ hj]
      exact ⟨.refl _, trivial⟩
  exact ⟨fun j => (h j).1, fun j => .inl (h j).2, fun _ => .refl _, fun _ hv _ => hv⟩

/-- A call stays inside its frame if its body does. -/
theorem call {f : TaskSlot → Reply × SchedState} (h : ∀ i, Frame next gone s (f i).2) :
    Frame next gone s (s.call c f).2 := by
  rcases call_cases (s := s) (c := c) f with ⟨-, he⟩ | ⟨i, -, -, he⟩
  · rw [he]
    exact refl s
  · rw [he]
    exact h i

end Frame

/-- A section of the scheduler touches no mailbox and no grant but those of the tasks it
destroys. -/
theorem Ok.frame_step (hok : s.Ok) (e : SchedEvent) :
    Frame s.nextTaskId e.destroys s (s.step e) := by
  cases hsync : e.sync with
  | false => exact .of_quiet (hok.quiet_step hsync) rfl rfl rfl
  | true =>
      cases e with
      | mutexTrylock c m =>
          refine .call fun i => ?_
          split_ifs
          · exact .refl s
          · exact .refl s
          · exact .of_quiet (.refl (s.setMutex m _)) rfl rfl rfl
      | mutexLock c m =>
          refine .call fun i => ?_
          split_ifs
          · exact .of_quiet (.refl (s.setMutex m _)) rfl rfl rfl
          · exact .refl s
          · exact .block _
      | mutexUnlock c m =>
          refine .call fun i => ?_
          split_ifs
          · exact .refl s
          · dsimp only
            exact .of_quiet (.wakeObject (s.setMutex m 0) _) rfl rfl rfl
      | semInit n count => exact .of_quiet (.refl (s.setSemaphore n count)) rfl rfl rfl
      | semTrywait n =>
          simp only [SchedState.step, kSemTrywait]
          split_ifs
          · exact .refl s
          · exact .of_quiet (.refl (s.setSemaphore n _)) rfl rfl rfl
      | semWait c n =>
          refine .call fun i => ?_
          split_ifs
          · exact .of_quiet (.refl (s.setSemaphore n _)) rfl rfl rfl
          · exact .refl s
          · exact .block _
      | semPost n =>
          simp only [SchedState.step, kSemPost]
          split_ifs
          · exact .of_quiet (.wakeObject (s.setSemaphore n _) _) rfl rfl rfl
          · exact .of_quiet (.wakeObject s _) rfl rfl rfl
      | _ => cases hsync

/-! ### Calls of this module -/

/-- What a call of the task that runs on `c` can come to. -/
theorem ask_cases {α : Type} (e : Errno) (f : TaskSlot → Except Errno α × SchedState) :
    ((∀ a, (s.ask c e f).1 ≠ some (.ok a)) ∧ (s.ask c e f).2 = s) ∨
      ∃ me, (s.cpus c).current = some me ∧ (s.cpus c).leaving = false ∧
        s.kTaskId c = (s.tasks me).id ∧ s.ask c e f = (some (f me).1, (f me).2) := by
  unfold ask kTaskId
  cases hc : (s.cpus c).current with
  | none => exact .inl ⟨fun a h => by simp at h, rfl⟩
  | some me =>
      cases hl : (s.cpus c).leaving with
      | true => exact .inl ⟨fun a h => by simp at h, rfl⟩
      | false => exact .inr ⟨me, rfl, rfl, rfl, rfl⟩

/-- A message delivered is calm. -/
theorem Calm.deliver (hu : (s.tasks i).state ≠ .unused) (msg : Message) :
    s.Calm (s.onTask i fun t => t.deliver msg) :=
  .onTask (.still rfl rfl rfl rfl rfl rfl rfl hu rfl)

/-- A message taken is calm. -/
theorem Calm.take (hu : (s.tasks i).state ≠ .unused) : s.Calm (s.onTask i Task.take) :=
  .onTask (.still rfl rfl rfl rfl rfl rfl rfl hu rfl)

/-- Another list of grants is calm. -/
theorem Calm.setGrants (s : SchedState) (p : ProcessSlot) (l : List Nat) :
    s.Calm (s.setGrants p l) :=
  .onProcess ⟨rfl, rfl, rfl, Iff.rfl⟩

/-- What `k_ipc_send` can come to. -/
theorem send_cases (s : SchedState) (c target : Nat) (data : Bytes) (n : Nat) :
    ((s.kIpcSend c target data n).1 ≠ some (.ok ()) ∧ (s.kIpcSend c target data n).2 = s) ∨
      ∃ me i, (s.cpus c).current = some me ∧ (s.cpus c).leaving = false ∧
        s.kTaskId c = (s.tasks me).id ∧ s.granted me target = true ∧ (s.tasks i).id = target ∧
        (s.tasks i).state ≠ .unused ∧ (s.tasks i).mailCount ≠ mailDepth ∧
        s.kIpcSend c target data n =
          (some (.ok ()), s.onTask i fun t => t.deliver (.of (s.tasks me).id data n)) := by
  unfold kIpcSend
  rcases ask_cases (s := s) (c := c) .einval _ with ⟨hr, he⟩ | ⟨me, hme, hl, hid, he⟩
  · exact .inl ⟨hr (), he⟩
  · rw [he]
    dsimp only
    split
    · exact .inl ⟨by simp, rfl⟩
    · split
      · exact .inl ⟨by simp, rfl⟩
      · next hg =>
          split
          · exact .inl ⟨by simp, rfl⟩
          · next i hi =>
              have hr := List.find?_some hi
              simp only [receives, decide_eq_true_eq] at hr
              split
              · exact .inl ⟨by simp, rfl⟩
              · next hc =>
                  exact .inr ⟨me, i, hme, hl, hid, by simpa using hg, hr.1, hr.2.1, hc, rfl⟩

/-- What `k_ipc_receive` can come to. -/
theorem receive_cases (s : SchedState) (c : Nat) :
    ((∀ m, (s.kIpcReceive c).1 ≠ some (.ok m)) ∧ (s.kIpcReceive c).2 = s) ∨
      ∃ me, (s.cpus c).current = some me ∧ s.kTaskId c = (s.tasks me).id ∧
        (s.tasks me).mailCount ≠ 0 ∧
        s.kIpcReceive c =
          (some (.ok ((s.tasks me).mail (s.tasks me).mailHead)), s.onTask me Task.take) := by
  unfold kIpcReceive
  rcases ask_cases (s := s) (c := c) .einval _ with hr | ⟨me, hme, -, hid, he⟩
  · exact .inl hr
  · rw [he]
    dsimp only
    split
    · exact .inl ⟨fun m h => by simp at h, rfl⟩
    · next hc => exact .inr ⟨me, hme, hid, hc, rfl⟩

/-- `k_ipc_send` is calm. -/
theorem Calm.send (s : SchedState) (c target : Nat) (data : Bytes) (n : Nat) :
    s.Calm (s.kIpcSend c target data n).2 := by
  rcases s.send_cases c target data n with ⟨-, he⟩ | ⟨me, i, -, -, -, -, -, hu, -, he⟩
  · rw [he]
    exact .refl s
  · rw [he]
    exact .deliver hu _

theorem Ok.calm_receive (hok : s.Ok) (c : Nat) : s.Calm (s.kIpcReceive c).2 := by
  rcases s.receive_cases c with ⟨-, he⟩ | ⟨me, hme, -, -, he⟩
  · rw [he]
    exact .refl s
  · rw [he]
    exact .take (hok.current hme).2.2

theorem Calm.grant (s : SchedState) (c pid target : Nat) : s.Calm (s.kIpcGrant c pid target).2 := by
  unfold kIpcGrant
  split
  · exact .refl s
  · split
    · exact .refl s
    · dsimp only
      split_ifs
      · exact .refl s
      · exact .refl s
      · exact .setGrants s _ _

/-- `service_register`. -/
theorem Calm.register (s : SchedState) (c : Nat) (name : List UInt8) :
    s.Calm (s.serviceRegister c name).2 := by
  have hservices : ∀ l, s.Calm { s with services := l } := fun l => .rest
  unfold serviceRegister
  rcases ask_cases (s := s) (c := c) .einval _ with ⟨-, he⟩ | ⟨me, -, -, -, he⟩
  · rw [he]
    exact .refl s
  · rw [he]
    dsimp only
    split
    · exact .refl s
    · split
      · exact .refl s
      · split
        · exact .refl s
        · split
          · exact hservices _
          · exact hservices _
          · exact hservices _

theorem Calm.grantLocked (s : SchedState) (p : ProcessSlot) (tid : Nat) :
    s.Calm (s.grantLocked p tid).2 :=
  .setGrants s p _

/-- What `k_service_lookup` can come to. -/
theorem lookup_cases (s : SchedState) (c : Nat) (name : List UInt8) :
    ((∀ tid, (s.kServiceLookup c name).1 ≠ some (.ok tid)) ∧ (s.kServiceLookup c name).2 = s) ∨
    ∃ me v p, (s.cpus c).current = some me ∧ (s.cpus c).leaving = false ∧
      s.findService name = some (v, p) ∧
      s.kServiceLookup c name = (some (s.lookupGrants me v p).1, (s.lookupGrants me v p).2) := by
  unfold kServiceLookup
  split
  · exact .inl ⟨fun tid h => by simp at h, rfl⟩
  · rcases ask_cases (s := s) (c := c) .eperm _ with hr | ⟨me, hme, hl, -, he⟩
    · exact .inl hr
    · rw [he]
      dsimp only
      split
      · exact .inl ⟨fun tid h => by simp at h, rfl⟩
      · next v p hfind => exact .inr ⟨me, v, p, hme, hl, hfind, rfl⟩

/-- A service found is registered by a live process under that name. -/
theorem findService_some {name : List UInt8} {v : Service} (h : s.findService name = some (v, p)) :
    v ∈ s.services ∧ v.pid ≠ 0 ∧ v.name = name ∧ s.processByPid v.pid = some p ∧
      (s.processes p).state ≠ .zombie := by
  unfold findService at h
  split at h
  · cases h
  · next w hw =>
      have hne := List.find?_some hw
      simp only [decide_eq_true_eq] at hne
      split at h
      · cases h
      · next r hr =>
          split at h
          · cases h
          · next hz =>
              cases h
              exact ⟨List.mem_of_find?_eq_some hw, hne.1, hne.2, hr, hz⟩

/-- The end of a lookup that failed: the grant for `id` is taken back from `p`, unless it was
there. -/
def takeBack (s : SchedState) (already : Bool) (p : ProcessSlot) (id : Nat) : SchedState :=
  if already then s else s.setGrants p (dropGrant (s.processes p).grants id)

/-- How the grants of a lookup come out: the first one fails, it is the only one, or the second one
decides. -/
theorem lookupGrants_cases (s : SchedState) (me : TaskSlot) (v : Service) (p : ProcessSlot) :
    let id := (s.tasks me).id
    let r := s.grantLocked p id
    (∃ e, r.1 = .error e ∧ s.lookupGrants me v p =
        (.error e, r.2.takeBack ((s.processes p).grants.contains id) p id)) ∨
      r.1 = .ok () ∧ (s.tasks me).process = none ∧ s.lookupGrants me v p = (.ok v.task, r.2) ∨
      ∃ q, r.1 = .ok () ∧ (s.tasks me).process = some q ∧
        ((r.2.grantLocked q v.task).1 = .ok () ∧
            s.lookupGrants me v p = (.ok v.task, (r.2.grantLocked q v.task).2) ∨
          ∃ e, (r.2.grantLocked q v.task).1 = .error e ∧ s.lookupGrants me v p =
            (.error e, (r.2.grantLocked q v.task).2.takeBack
              ((s.processes p).grants.contains id) p id)) := by
  dsimp only
  unfold lookupGrants takeBack
  dsimp only
  cases h₁ : (s.grantLocked p (s.tasks me).id).1 with
  | error e =>
      refine .inl ⟨e, rfl, ?_⟩
      simp only [h₁]
  | ok u =>
      cases hq : (s.tasks me).process with
      | none =>
          refine .inr (.inl ⟨rfl, rfl, ?_⟩)
          simp only [h₁]
      | some q =>
          refine .inr (.inr ⟨q, rfl, rfl, ?_⟩)
          cases h₂ : ((s.grantLocked p (s.tasks me).id).2.grantLocked q v.task).1 with
          | error e => exact .inr ⟨e, rfl, rfl⟩
          | ok u => exact .inl ⟨rfl, rfl⟩

/-- What grants do not touch is as it was after a lookup. -/
theorem lookupGrants_keeps {P : SchedState → Prop} (me : TaskSlot) (v : Service)
    (p : ProcessSlot) (h : P s)
    (hgrant : ∀ s' q tid, P s' → P (s'.grantLocked q tid).2)
    (hset : ∀ s' l, P s' → P (s'.setGrants p l)) :
    P (s.lookupGrants me v p).2 := by
  have hback : ∀ s' b id, P s' → P (s'.takeBack b p id) := by
    intro s' b id hs
    rw [takeBack]
    split
    · exact hs
    · exact hset s' _ hs
  have hfirst := hgrant s p (s.tasks me).id h
  rcases s.lookupGrants_cases me v p with ⟨e, -, he⟩ | ⟨-, -, he⟩ | ⟨q, -, -, ⟨-, he⟩ | ⟨e, -, he⟩⟩
  · rw [he]
    exact hback _ _ _ hfirst
  · rw [he]
    exact hfirst
  · rw [he]
    exact hgrant _ q v.task hfirst
  · rw [he]
    exact hback _ _ _ (hgrant _ q v.task hfirst)

theorem Calm.lookup (s : SchedState) (c : Nat) (name : List UInt8) :
    s.Calm (s.kServiceLookup c name).2 := by
  rcases s.lookup_cases c name with ⟨-, he⟩ | ⟨me, v, p, -, -, -, he⟩
  · rw [he]
    exact .refl s
  · rw [he]
    exact lookupGrants_keeps me v p (.refl s) (fun s' q tid h => h.trans (.grantLocked s' q tid))
      fun s' l h => h.trans (.setGrants s' p l)

/-- Every section keeps the scheduler's invariant. -/
theorem Ok.ipcStep (hok : s.Ok) {e : IpcEvent} (he : s.IpcEnabled e) :
    s.Advances (s.ipcStep e) := by
  cases e with
  | sched e => exact hok.step he
  | send c target data n => exact hok.advances (.send s c target data n)
  | receive c => exact hok.advances (hok.calm_receive c)
  | grant c pid target => exact hok.advances (.grant s c pid target)
  | register c name => exact hok.advances (.register s c name)
  | lookup c name => exact hok.advances (.lookup s c name)

/-! ### Delivery -/

/-- The message that the task `id` takes out in a step. -/
def receivesMessage (s : SchedState) (id : Nat) : IpcEvent → Option Message
  | .receive c =>
      match (s.kIpcReceive c).1 with
      | some (.ok m) => if s.kTaskId c = id then some m else none
      | _ => none
  | _ => none

/-- The message that is sent to it with success. -/
def sendsMessage (s : SchedState) (id : Nat) : IpcEvent → Option Message
  | .send c target data n =>
      if target = id ∧ (s.kIpcSend c target data n).1 = some (.ok ()) then
        some (.of (s.kTaskId c) data n)
      else none
  | _ => none

end SchedState

namespace IpcHistory

/-- What the calls of `k_ipc_receive` of the task `id` returned, in order. -/
def receivedBy (id : Nat) : IpcHistory → List Message
  | [] => []
  | (s, e) :: h => receivedBy id h ++ (s.receivesMessage id e).toList

/-- What was sent to it with success, in order. -/
def sentTo (id : Nat) : IpcHistory → List Message
  | [] => []
  | (s, e) :: h => sentTo id h ++ (s.sendsMessage id e).toList

end IpcHistory

namespace SchedState

open IpcHistory

variable {s s' : SchedState} {h : IpcHistory} {e : IpcEvent} {i j me : TaskSlot} {c : Nat}
  {p q : ProcessSlot}

/-- What holds of mailboxes after every history. -/
structure Mailed (s : SchedState) (h : IpcHistory) : Prop where
  box : ∀ i, (s.tasks i).state ≠ .unused → (s.tasks i).mailHead < mailDepth ∧
    (s.tasks i).mailCount ≤ mailDepth ∧
    receivedBy (s.tasks i).id h ++ (s.tasks i).queued = sentTo (s.tasks i).id h
  /-- An identifier that was not given yet has no mail. -/
  fresh : ∀ id, s.nextTaskId ≠ 0 → s.nextTaskId ≤ id → receivedBy id h = [] ∧ sentTo id h = []

/-- A step without a message. -/
theorem Mailed.frame (hm : s.Mailed h) (hok : s.Ok) (hev : s.Evolves s')
    (hf : ∀ i, MailKept s.nextTaskId (s.tasks i) (s'.tasks i))
    (hr : ∀ id, s.receivesMessage id e = none) (hs : ∀ id, s.sendsMessage id e = none) :
    s'.Mailed ((s, e) :: h) := by
  refine ⟨fun i hi => ?_, fun id hn hle => ?_⟩
  · simp only [receivedBy, sentTo, hr, hs, Option.toList_none, List.append_nil]
    by_cases hu : (s.tasks i).state = .unused
    · -- a new task
      obtain ⟨hne, hid, -⟩ := hev.new i hu hi
      have hb := hok.blank hu
      have hempty : NoMail (s'.tasks i) := by
        rcases hf i with ⟨-, hh, hc, -⟩ | ⟨hno, -⟩
        · rw [hb] at hh hc
          exact ⟨hh, hc⟩
        · exact hno
      obtain ⟨hrec, hsent⟩ := hm.fresh s.nextTaskId hne le_rfl
      rw [hid, hrec, hsent, hempty.1, hempty.2, Task.queued, hempty.2]
      exact ⟨by decide, by decide, rfl⟩
    · rcases hev.old i hu with hl | ⟨-, -, hb⟩
      · have hsame : SameMail (s.tasks i) (s'.tasks i) := by
          rcases hf i with hsame | ⟨-, hid⟩
          · exact hsame
          · -- its identifier is neither none nor a new one
            obtain ⟨hpos, hlt⟩ := hok.fresh hu
            have := hl.id
            rcases hid with hid | hid
            · omega
            · rcases hlt with hlt | hlt
              · omega
              · omega
        obtain ⟨hid, hh, hc, -⟩ := id hsame
        rw [Task.queued_congr hsame, hid, hh, hc]
        exact hm.box i hu
      · rw [hb] at hi
        exact absurd rfl hi
  · simp only [receivedBy, sentTo, hr, hs, Option.toList_none, List.append_nil]
    have hlt := hok.next
    rcases hev.next with hnext | ⟨hne, hnext⟩
    · rw [hnext] at hn hle
      exact hm.fresh id hn hle
    · refine hm.fresh id hne ?_
      rw [hnext] at hn hle
      omega

/-- A call that leaves the tasks alone. -/
theorem Mailed.still (hm : s.Mailed h) (hok : s.Ok) (hc : s.Calm s') (ht : s'.tasks = s.tasks)
    (hr : ∀ id, s.receivesMessage id e = none) (hs : ∀ id, s.sendsMessage id e = none) :
    s'.Mailed ((s, e) :: h) :=
  hm.frame hok hc.evolves (fun i => by rw [ht]; exact .refl _) hr hs

/-- A send adds its message to the mailbox and to the history. -/
theorem Mailed.send (hm : s.Mailed h) (hok : s.Ok) (c target : Nat) (data : Bytes) (n : Nat) :
    (s.ipcStep (.send c target data n)).Mailed ((s, .send c target data n) :: h) := by
  have hr : ∀ id, s.receivesMessage id (.send c target data n) = none := fun _ => rfl
  rcases s.send_cases c target data n with ⟨hno, he⟩ | ⟨me, i, -, -, hid, -, htarget, hu, hroom, he⟩
  · rw [ipcStep, he]
    exact hm.still hok (.refl s) rfl hr fun id => if_neg fun h => hno h.2
  · have hs : ∀ id, s.sendsMessage id (.send c target data n) =
        if target = id then some (.of (s.tasks me).id data n) else none := by
      intro id
      simp [sendsMessage, he, hid]
    rw [ipcStep, he]
    dsimp only
    refine ⟨fun j hj => ?_, fun id hn hle => ?_⟩
    · rw [receivedBy, sentTo, hr, hs, Option.toList_none, List.append_nil]
      obtain rfl | hji := eq_or_ne j i
      · obtain ⟨hh, hc, hbox⟩ := hm.box j hu
        have hlt : (s.tasks j).mailCount < mailDepth := lt_of_le_of_ne hc hroom
        rw [onTask_self, Task.queued_deliver _ hlt]
        refine ⟨hh, hlt, ?_⟩
        rw [Task.deliver_id, if_pos htarget.symm, ← List.append_assoc, hbox]
        rfl
      · rw [onTask_ne _ hji] at hj ⊢
        have hne : target ≠ (s.tasks j).id :=
          fun heq => hji (hok.ids hj hu (heq.symm.trans htarget.symm))
        rw [if_neg hne, Option.toList_none, List.append_nil]
        exact hm.box j hj
    · have hne : target ≠ id := by
        have hlt := (hok.fresh hu).2
        rw [htarget] at hlt
        rcases hlt with hlt | hlt
        · exact absurd hlt hn
        · change s.nextTaskId ≤ id at hle
          omega
      rw [receivedBy, sentTo, hr, hs, if_neg hne, Option.toList_none, List.append_nil,
        List.append_nil]
      exact hm.fresh id hn hle

/-- A receive takes the oldest message off. -/
theorem Mailed.receive (hm : s.Mailed h) (hok : s.Ok) (c : Nat) :
    (s.ipcStep (.receive c)).Mailed ((s, .receive c) :: h) := by
  have hs : ∀ id, s.sendsMessage id (.receive c) = none := fun _ => rfl
  rcases s.receive_cases c with ⟨hno, he⟩ | ⟨me, hme, hid, hsome, he⟩
  · rw [ipcStep, he]
    refine hm.still hok (.refl s) rfl (fun id => ?_) hs
    rw [receivesMessage]
    split
    · next m heq => exact absurd heq (hno m)
    · rfl
  · have hu := (hok.current hme).2.2
    have hr : ∀ id, s.receivesMessage id (.receive c) =
        if (s.tasks me).id = id then some ((s.tasks me).mail (s.tasks me).mailHead) else none := by
      intro id
      rw [receivesMessage, he, hid]
    rw [ipcStep, he]
    dsimp only
    refine ⟨fun j hj => ?_, fun id hn hle => ?_⟩
    · rw [receivedBy, sentTo, hr, hs, Option.toList_none, List.append_nil]
      obtain rfl | hji := eq_or_ne j me
      · obtain ⟨hh, hc, hbox⟩ := hm.box j hu
        rw [onTask_self]
        refine ⟨Nat.mod_lt _ (by decide), (Nat.sub_le _ _).trans hc, ?_⟩
        rw [Task.queued_take hh hsome] at hbox
        rw [Task.take_id, if_pos rfl, ← hbox, List.append_assoc]
        rfl
      · rw [onTask_ne _ hji] at hj ⊢
        have hne : (s.tasks me).id ≠ (s.tasks j).id := fun heq => hji (hok.ids hj hu heq.symm)
        rw [if_neg hne, Option.toList_none, List.append_nil]
        exact hm.box j hj
    · have hne : (s.tasks me).id ≠ id := by
        rcases (hok.fresh hu).2 with hlt | hlt
        · exact absurd hlt hn
        · change s.nextTaskId ≤ id at hle
          omega
      rw [receivedBy, sentTo, hr, hs, if_neg hne, Option.toList_none, List.append_nil,
        List.append_nil]
      exact hm.fresh id hn hle

/-! ### Authority -/

/-- The step grants the process `pid` that it may send to the task `tid`: a `k_ipc_grant` for it, or
a `k_service_lookup` by it or of a service of it. -/
def Adds (s : SchedState) (pid tid : Nat) : IpcEvent → Prop
  | .grant c pid' tid' => pid' = pid ∧ tid' = tid ∧ (s.kIpcGrant c pid' tid').1 = .ok ()
  | .lookup c name => (∃ a, (s.kServiceLookup c name).1 = some (.ok a)) ∧
      ∃ me v p, (s.cpus c).current = some me ∧ s.findService name = some (v, p) ∧
        (pid = (s.processes p).id ∧ tid = (s.tasks me).id ∨
          ∃ q, (s.tasks me).process = some q ∧ pid = (s.processes q).id ∧ tid = v.task)
  | _ => False

/-- Whatever a process may send to was granted to it. -/
def Authorised (s : SchedState) (h : IpcHistory) : Prop :=
  ∀ p, ∀ tid ∈ (s.processes p).grants, ∃ r ∈ h, r.1.Adds (s.processes p).id tid r.2

/-- What adds no grant keeps the grants authorised. -/
theorem Authorised.frame (ha : s.Authorised h)
    (hg : ∀ p, Granted (s.processes p) (s'.processes p)) :
    s'.Authorised ((s, e) :: h) := by
  intro p tid ht
  rcases hg p with ⟨hid, hgr⟩ | hgr
  · rw [hgr] at ht
    obtain ⟨r, hr, hadds⟩ := ha p tid ht
    exact ⟨r, List.mem_cons_of_mem _ hr, by rwa [hid]⟩
  · rw [hgr] at ht
    exact absurd ht List.not_mem_nil

@[simp] theorem setGrants_self (s : SchedState) (p : ProcessSlot) (l : List Nat) :
    ((s.setGrants p l).processes p).grants = l := by simp [setGrants]

theorem setGrants_ne (s : SchedState) (l : List Nat) (h : q ≠ p) :
    (s.setGrants p l).processes q = s.processes q := onProcess_ne _ h

@[simp] theorem setGrants_id (s : SchedState) (p q : ProcessSlot) (l : List Nat) :
    ((s.setGrants p l).processes q).id = (s.processes q).id := by
  obtain rfl | hq := eq_or_ne q p
  · simp [setGrants]
  · rw [setGrants_ne _ _ hq]

@[simp] theorem grantLocked_id (s : SchedState) (p q : ProcessSlot) (tid : Nat) :
    ((s.grantLocked p tid).2.processes q).id = (s.processes q).id := setGrants_id s p q _

/-- The grants of the process after `grant_locked`. -/
theorem grantLocked_self (s : SchedState) (p : ProcessSlot) (tid : Nat) :
    ((s.grantLocked p tid).2.processes p).grants =
      (grantInto s.reachable (s.processes p).grants tid).2 := setGrants_self s p _

/-- What `grant_locked` leaves. -/
theorem mem_grantLocked {tid x : Nat} (hx : x ∈ ((s.grantLocked p tid).2.processes q).grants) :
    x ∈ (s.processes q).grants ∨ q = p ∧ x = tid ∧ (s.grantLocked p tid).1 = .ok () := by
  obtain rfl | hq := eq_or_ne q p
  · rw [grantLocked_self] at hx
    exact (mem_grantInto hx).imp_right fun h => ⟨rfl, h⟩
  · rw [grantLocked, setGrants_ne _ _ hq] at hx
    exact .inl hx

/-- A failed `grant_locked` at most takes grants away. -/
theorem grantLocked_subperm {tid : Nat} {e : Errno} (he : (s.grantLocked p tid).1 = .error e) :
    (((s.grantLocked p tid).2.processes q).grants).Subperm (s.processes q).grants := by
  obtain rfl | hq := eq_or_ne q p
  · rw [grantLocked] at he ⊢
    rw [setGrants_self]
    rcases grantInto_cases s.reachable (s.processes q).grants tid with ⟨heq, -⟩
      | ⟨-, l', hl, heq | heq⟩
    · simp [heq] at he
    · rw [heq]
      exact hl
    · simp [heq] at he
  · rw [grantLocked, setGrants_ne _ _ hq]

/-- What the grants of a `k_service_lookup` leave. -/
theorem mem_lookupGrants {v : Service} {x : Nat}
    (hx : x ∈ ((s.lookupGrants me v p).2.processes q).grants) :
    x ∈ (s.processes q).grants ∨ (∃ a, (s.lookupGrants me v p).1 = .ok a) ∧
      (q = p ∧ x = (s.tasks me).id ∨ (s.tasks me).process = some q ∧ x = v.task) := by
  unfold lookupGrants at hx ⊢
  dsimp only at hx ⊢
  cases h₁ : (s.grantLocked p (s.tasks me).id).1 with
  | error e =>
      -- nothing was added
      simp only [h₁] at hx
      left
      split_ifs at hx with hal
      · exact (grantLocked_subperm h₁).subset hx
      · obtain rfl | hq := eq_or_ne q p
        · rw [setGrants_self] at hx
          have hx := (dropGrant_perm _ _).mem_iff.mp hx
          exact (grantLocked_subperm h₁).subset (List.mem_of_mem_erase hx)
        · rw [setGrants_ne _ _ hq] at hx
          exact (grantLocked_subperm h₁).subset hx
  | ok u =>
      cases hproc : (s.tasks me).process with
      | none =>
          simp only [h₁, hproc] at hx ⊢
          rcases mem_grantLocked hx with hx | ⟨hq, hx, -⟩
          · exact .inl hx
          · exact .inr ⟨⟨_, rfl⟩, .inl ⟨hq, hx⟩⟩
      | some q' =>
          simp only [h₁, hproc] at hx ⊢
          cases h₂ : ((s.grantLocked p (s.tasks me).id).2.grantLocked q' v.task).1 with
          | ok u' =>
              simp only [h₂] at hx ⊢
              rcases mem_grantLocked hx with hx | ⟨hq, hx, -⟩
              · rcases mem_grantLocked hx with hx | ⟨hq, hx, -⟩
                · exact .inl hx
                · exact .inr ⟨⟨_, rfl⟩, .inl ⟨hq, hx⟩⟩
              · exact .inr ⟨⟨_, rfl⟩, .inr ⟨by rw [hq], hx⟩⟩
          | error e =>
              simp only [h₂] at hx
              left
              split_ifs at hx with hal
              · rcases mem_grantLocked ((grantLocked_subperm h₂).subset hx) with hx | ⟨rfl, rfl, -⟩
                · exact hx
                · simpa using hal
              · obtain rfl | hq := eq_or_ne q p
                · rw [setGrants_self] at hx
                  have hnot : (s.tasks me).id ∉ (s.processes q).grants := by simpa using hal
                  rw [grantLocked] at h₁
                  have h₃ := grantLocked_subperm (q := q) h₂
                  rw [grantLocked_self] at h₃
                  rcases grantInto_cases s.reachable (s.processes q).grants (s.tasks me).id with
                    ⟨-, hin⟩ | ⟨-, l', hl, heq | heq⟩
                  · exact absurd hin hnot
                  · simp [heq] at h₁
                  · rw [heq] at h₃
                    exact mem_dropGrant hl hnot h₃ hx
                · rw [setGrants_ne _ _ hq] at hx
                  rcases mem_grantLocked ((grantLocked_subperm h₂).subset hx) with hx | ⟨rfl, -, -⟩
                  · exact hx
                  · exact absurd rfl hq

theorem lookupGrants_id (v : Service) :
    ((s.lookupGrants me v p).2.processes q).id = (s.processes q).id :=
  lookupGrants_keeps (P := fun s' => (s'.processes q).id = (s.processes q).id) me v p rfl
    (fun _ _ _ h => by rw [grantLocked_id, h]) fun _ _ h => by rw [setGrants_id, h]

/-- The two grants of a lookup are authorised by it. -/
theorem Authorised.lookup (ha : s.Authorised h) (c : Nat) (name : List UInt8) :
    (s.ipcStep (.lookup c name)).Authorised ((s, .lookup c name) :: h) := by
  rcases s.lookup_cases c name with ⟨-, he⟩ | ⟨me, v, p, hme, -, hfind, hrun⟩
  · rw [ipcStep, he]
    exact ha.frame fun _ => .refl _
  · intro q tid ht
    rw [ipcStep, hrun] at ht ⊢
    dsimp only at ht ⊢
    rw [lookupGrants_id]
    rcases mem_lookupGrants ht with hold | ⟨⟨a, hok⟩, hnew⟩
    · obtain ⟨r, hr, hadds⟩ := ha q tid hold
      exact ⟨r, List.mem_cons_of_mem _ hr, hadds⟩
    · refine ⟨_, List.mem_cons_self, ⟨a, by rw [hrun, hok]⟩, me, v, p, hme, hfind, ?_⟩
      rcases hnew with ⟨rfl, rfl⟩ | ⟨hq, rfl⟩
      · exact .inl ⟨rfl, rfl⟩
      · exact .inr ⟨q, hq, rfl, rfl⟩

/-- The grant of `k_ipc_grant` is authorised by it. -/
theorem Authorised.grant (ha : s.Authorised h) (c pid target : Nat) :
    (s.ipcStep (.grant c pid target)).Authorised ((s, .grant c pid target) :: h) := by
  have hsame : (s.kIpcGrant c pid target).2 = s →
      (s.ipcStep (.grant c pid target)).Authorised ((s, .grant c pid target) :: h) := by
    intro he
    rw [ipcStep, he]
    exact ha.frame fun _ => .refl _
  by_cases huser : ((s.cpus c).current.bind fun i => (s.tasks i).process).isSome
  · exact hsame (by rw [kIpcGrant, if_pos huser])
  · cases hp : s.processByPid pid with
    | none => exact hsame (by rw [kIpcGrant, if_neg huser, hp])
    | some p =>
        have hrun : s.kIpcGrant c pid target = if target ∈ (s.processes p).grants then (.ok (), s)
            else if (s.processes p).grants.length = grantMax then (.error .e2big, s)
            else (.ok (), s.setGrants p ((s.processes p).grants ++ [target])) := by
          rw [kIpcGrant, if_neg huser, hp]
        split_ifs at hrun
        · exact hsame (by rw [hrun])
        · exact hsame (by rw [hrun])
        · intro q tid ht
          rw [ipcStep, hrun] at ht ⊢
          dsimp only at ht ⊢
          rw [setGrants_id]
          have hold : tid ∈ (s.processes q).grants → ∃ r ∈ (s, IpcEvent.grant c pid target) :: h,
              r.1.Adds (s.processes q).id tid r.2 := by
            intro hin
            obtain ⟨r, hr, hadds⟩ := ha q tid hin
            exact ⟨r, List.mem_cons_of_mem _ hr, hadds⟩
          obtain rfl | hq := eq_or_ne q p
          · rw [setGrants_self] at ht
            rcases List.mem_append.mp ht with ht | ht
            · exact hold ht
            · rw [List.mem_singleton] at ht
              exact ⟨_, List.mem_cons_self, (processByPid_some hp).2.symm, ht.symm, by rw [hrun]⟩
          · rw [setGrants_ne _ _ hq] at ht
            exact hold ht

/-! ### Services -/

/-- The task of every service is there. -/
def Served (s : SchedState) : Prop :=
  ∀ v ∈ s.services, v.pid ≠ 0 → ∃ i p, (s.tasks i).process = some p ∧ (s.tasks i).id = v.task ∧
    (s.processes p).id = v.pid

/-- A calm step that adds no service keeps the services in order. -/
theorem Served.calm (hv : s.Served) (hc : s.Calm s')
    (hsub : ∀ v ∈ s'.services, v.pid ≠ 0 → v ∈ s.services) : s'.Served := by
  intro v hmem hne
  obtain ⟨i, p, hp, hid, hpid⟩ := hv v (hsub v hmem hne) hne
  refine ⟨i, p, ?_, ?_, ?_⟩
  · rw [(hc.tasks i).process, hp]
  · rw [(hc.tasks i).id, hid]
  · rw [(hc.processes p).id, hpid]

/-- A process without tasks has none to free. -/
theorem freeTasksOf_none (l : List TaskSlot) (h : ∀ i, (s.tasks i).process ≠ some p) :
    s.freeTasksOf p l = (true, s) := by
  induction l with
  | nil => rfl
  | cons i l ih => rw [SchedState.freeTasksOf, if_neg (h i), ih]

/-- A process has one task, so that a refusal comes before anything is freed. -/
theorem Ok.freeTasksOf_busy (hok : s.Ok) (l : List TaskSlot) (h : (s.freeTasksOf p l).1 = false) :
    (s.freeTasksOf p l).2 = s := by
  induction l with
  | nil => rfl
  | cons i l ih =>
      rw [SchedState.freeTasksOf] at h ⊢
      by_cases hi : (s.tasks i).process = some p
      · by_cases hon : s.onCpuNow i = true
        · rw [if_pos hi, if_pos hon]
        · have hnone : ∀ j, ((s.freeTask i).tasks j).process ≠ some p := by
            intro j
            obtain rfl | hj := eq_or_ne j i
            · simp [freeTask]
            · rw [freeTask, onTask_ne _ hj]
              exact fun hp => hj (hok.process_inj hp hi)
          rw [if_pos hi, if_neg hon, freeTasksOf_none l hnone] at h
          cases h
      · rw [if_neg hi] at h ⊢
        exact ih h

/-- A destruction that does anything takes the services away. -/
theorem Ok.destroy_cases (hok : s.Ok) (p : ProcessSlot) : (s.processDestroyLocked p).2 = s ∨
    ∀ v ∈ (s.processDestroyLocked p).2.services, v.pid ≠ 0 → v.pid ≠ (s.processes p).id := by
  unfold processDestroyLocked
  split
  · exact .inl rfl
  · split
    · exact .inl rfl
    · dsimp only
      have hbusy : (if (s.processes p).taskId ≠ 0 then s.freeTasksOf p (List.finRange kMaxTasks)
          else (true, s)).1 = false → (if (s.processes p).taskId ≠ 0 then
            s.freeTasksOf p (List.finRange kMaxTasks) else (true, s)).2 = s := by
        split
        · exact hok.freeTasksOf_busy _
        · exact fun _ => rfl
      generalize (if (s.processes p).taskId ≠ 0 then s.freeTasksOf p (List.finRange kMaxTasks)
        else (true, s)) = r at hbusy ⊢
      split
      · next hr => exact .inl (hbusy hr)
      · refine .inr fun v hv hne => ?_
        obtain ⟨w, -, rfl⟩ := List.mem_map.mp hv
        split at hne
        · exact absurd rfl hne
        · next hw =>
            rw [if_neg hw]
            exact hw

/-- A step of the scheduler. -/
theorem Served.step (hv : s.Served) (hok : s.Ok) {e : SchedEvent} (he : s.Enabled e) :
    (s.step e).Served := by
  have hframe := hok.frame_step e
  obtain ⟨hok', hev⟩ := hok.step he
  intro v hmem hne
  obtain ⟨i, p, hp, hid, hpid⟩ := hv v (hframe.services v hmem hne) hne
  -- a task that keeps its process
  have hkeep : ((s.step e).tasks i).process = some p →
      ∃ i p, ((s.step e).tasks i).process = some p ∧
      ((s.step e).tasks i).id = v.task ∧ ((s.step e).processes p).id = v.pid := by
    intro hp'
    refine ⟨i, p, hp', ?_, ?_⟩
    · rcases hev.old i (hok.live_of_process hp) with hl | ⟨-, -, hb⟩
      · rw [hl.id, hid]
      · rw [hb] at hp'
        cases hp'
    · obtain ⟨hu, htask, -⟩ := hok.process hp
      obtain ⟨hu', -, -⟩ := hok'.process hp'
      have hpos := (hok.fresh (hok.live_of_process hp)).1
      rcases (s.roster_step e).processes p with ⟨-, h₂, -⟩ | h₁ | ⟨h₁, -⟩ | ⟨h₁, -⟩
      · rw [h₂, hpid]
      · rw [h₁] at hu'
        cases hu'
      · rw [h₁] at hu
        cases hu
      · omega
  rcases hframe.process i with hsame | hnone | hgone
  · exact hkeep (hsame.trans hp)
  · rw [hp] at hnone
    cases hnone
  · -- the process is destroyed, and its services with it
    rw [hp] at hgone
    cases e with
    | processDestroy p' =>
        obtain rfl : p = p' := Option.some.inj hgone
        rcases hok.destroy_cases p with hsame | hgone
        · refine hkeep ?_
          rw [SchedState.step, hsame, hp]
        · exact absurd hpid.symm (hgone v hmem hne)
    | _ => cases hgone

/-- The loop of `service_register` adds no service. -/
theorem mem_registerLoop (pid : Nat) (name : List UInt8) (l : List Service) :
    ∀ i slot, ∀ v ∈ (s.registerLoop pid name l i slot).2.2, v.pid ≠ 0 → v ∈ l := by
  induction l with
  | nil => exact fun _ _ v hv _ => hv
  | cons w l ih =>
      intro i slot v hv hne
      rw [registerLoop] at hv
      dsimp only at hv
      generalize hw : (if s.ownerGone w.pid then (⟨[], 0, 0⟩ : Service) else w) = w' at hv
      have hhead : v = w' → v = w := by
        rintro rfl
        split at hw
        · subst hw
          exact absurd rfl hne
        · exact hw.symm
      split at hv
      · rcases List.mem_cons.mp hv with heq | hv
        · exact List.mem_cons.mpr (.inl (hhead heq))
        · exact List.mem_cons_of_mem _ hv
      · rcases List.mem_cons.mp hv with heq | hv
        · exact List.mem_cons.mpr (.inl (hhead heq))
        · exact List.mem_cons_of_mem _ (ih _ _ v hv hne)

/-- A registration keeps the services in order. -/
theorem Served.register (hv : s.Served) (hok : s.Ok) (c : Nat) (name : List UInt8) :
    (s.serviceRegister c name).2.Served := by
  unfold serviceRegister
  rcases ask_cases (s := s) (c := c) .einval _ with ⟨-, he⟩ | ⟨me, -, -, -, he⟩
  · rw [he]
    exact hv
  · rw [he]
    dsimp only
    split
    · exact hv
    · next p hp =>
        have hloop := mem_registerLoop (s := s) (s.processes p).id name s.services 0 none
        generalize s.registerLoop (s.processes p).id name s.services 0 none = r at hloop ⊢
        obtain ⟨e, slot, l⟩ := r
        have hl : Served { s with services := l } := hv.calm .rest hloop
        split
        · exact hv
        · split
          · exact hv
          · split
            · next heq => cases heq; exact hl
            · next heq => cases heq; exact hl
            · next heq =>
                cases heq
                intro v hmem hne
                rcases List.mem_or_eq_of_mem_set hmem with hmem | rfl
                · exact hl v hmem hne
                · exact ⟨me, p, hp, (hok.process hp).2.1.symm, rfl⟩

/-! ### Runs -/

/-- What holds after every history. -/
structure IpcOk (s : SchedState) (h : IpcHistory) : Prop where
  ok : s.Ok
  mailed : s.Mailed h
  authorised : s.Authorised h
  served : s.Served

/-- A call that is neither a send nor a receive. -/
theorem IpcOk.call (hi : s.IpcOk h) (hc : s.Calm s') (ht : s'.tasks = s.tasks)
    (hr : ∀ id, s.receivesMessage id e = none) (hs : ∀ id, s.sendsMessage id e = none)
    (ha : s'.Authorised ((s, e) :: h)) (hv : s'.Served) : s'.IpcOk ((s, e) :: h) :=
  ⟨hi.ok.calm hc, hi.mailed.still hi.ok hc ht hr hs, ha, hv⟩

/-- A send leaves the processes and the services. -/
theorem send_tables (s : SchedState) (c target : Nat) (data : Bytes) (n : Nat) :
    (s.kIpcSend c target data n).2.processes = s.processes ∧
      (s.kIpcSend c target data n).2.services = s.services := by
  rcases s.send_cases c target data n with ⟨-, he⟩ | ⟨me, i, -, -, -, -, -, -, -, he⟩
  · rw [he]
    exact ⟨rfl, rfl⟩
  · rw [he]
    exact ⟨rfl, rfl⟩

theorem receive_tables (s : SchedState) (c : Nat) :
    (s.kIpcReceive c).2.processes = s.processes ∧ (s.kIpcReceive c).2.services = s.services := by
  rcases s.receive_cases c with ⟨-, he⟩ | ⟨me, -, -, -, he⟩
  · rw [he]
    exact ⟨rfl, rfl⟩
  · rw [he]
    exact ⟨rfl, rfl⟩

/-- A grant leaves the tasks and the services. -/
theorem grant_tables (s : SchedState) (c pid target : Nat) :
    (s.kIpcGrant c pid target).2.tasks = s.tasks ∧
      (s.kIpcGrant c pid target).2.services = s.services := by
  unfold kIpcGrant
  split
  · exact ⟨rfl, rfl⟩
  · split
    · exact ⟨rfl, rfl⟩
    · dsimp only
      split_ifs
      · exact ⟨rfl, rfl⟩
      · exact ⟨rfl, rfl⟩
      · exact ⟨rfl, rfl⟩

/-- A lookup leaves the tasks and the services. -/
theorem lookup_tables (s : SchedState) (c : Nat) (name : List UInt8) :
    (s.kServiceLookup c name).2.tasks = s.tasks ∧
      (s.kServiceLookup c name).2.services = s.services := by
  rcases s.lookup_cases c name with ⟨-, he⟩ | ⟨me, v, p, -, -, -, he⟩
  · rw [he]
    exact ⟨rfl, rfl⟩
  · rw [he]
    exact lookupGrants_keeps (P := fun s' => s'.tasks = s.tasks ∧ s'.services = s.services) me v p
      ⟨rfl, rfl⟩ (fun _ _ _ h => h) fun _ _ h => h

/-- A registration leaves the tasks and the processes. -/
theorem register_tables (s : SchedState) (c : Nat) (name : List UInt8) :
    (s.serviceRegister c name).2.tasks = s.tasks ∧
      (s.serviceRegister c name).2.processes = s.processes := by
  unfold serviceRegister
  rcases ask_cases (s := s) (c := c) .einval _ with ⟨-, he⟩ | ⟨me, -, -, -, he⟩
  · rw [he]
    exact ⟨rfl, rfl⟩
  · rw [he]
    dsimp only
    split
    · exact ⟨rfl, rfl⟩
    · split
      · exact ⟨rfl, rfl⟩
      · split
        · exact ⟨rfl, rfl⟩
        · split
          · exact ⟨rfl, rfl⟩
          · exact ⟨rfl, rfl⟩
          · exact ⟨rfl, rfl⟩

/-- One section keeps the invariant of the history. -/
theorem IpcOk.step (hi : s.IpcOk h) (he : s.IpcEnabled e) : (s.ipcStep e).IpcOk ((s, e) :: h) := by
  have hok := hi.ok
  cases e with
  | sched e =>
      obtain ⟨hok', hev⟩ := hok.step he
      have hf := hok.frame_step e
      exact ⟨hok', hi.mailed.frame hok hev hf.mail (fun _ => rfl) fun _ => rfl,
        hi.authorised.frame hf.grants, hi.served.step hok he⟩
  | send c target data n =>
      obtain ⟨hp, hv⟩ := s.send_tables c target data n
      have hc := Calm.send s c target data n
      refine ⟨hok.calm hc, hi.mailed.send hok c target data n, hi.authorised.frame fun p => ?_,
        hi.served.calm hc fun v hmem _ => hv ▸ hmem⟩
      rw [ipcStep, hp]
      exact .refl _
  | receive c =>
      obtain ⟨hp, hv⟩ := s.receive_tables c
      have hc := hok.calm_receive c
      refine ⟨hok.calm hc, hi.mailed.receive hok c, hi.authorised.frame fun p => ?_,
        hi.served.calm hc fun v hmem _ => hv ▸ hmem⟩
      rw [ipcStep, hp]
      exact .refl _
  | grant c pid target =>
      obtain ⟨ht, hv⟩ := s.grant_tables c pid target
      have hc := Calm.grant s c pid target
      exact hi.call hc ht (fun _ => rfl) (fun _ => rfl) (hi.authorised.grant c pid target)
        (hi.served.calm hc fun v hmem _ => hv ▸ hmem)
  | register c name =>
      obtain ⟨ht, hp⟩ := s.register_tables c name
      refine hi.call (.register s c name) ht (fun _ => rfl) (fun _ => rfl)
        (hi.authorised.frame fun p => ?_) (hi.served.register hok c name)
      rw [ipcStep, hp]
      exact .refl _
  | lookup c name =>
      obtain ⟨ht, hv⟩ := s.lookup_tables c name
      have hc := Calm.lookup s c name
      exact hi.call hc ht (fun _ => rfl) (fun _ => rfl) (hi.authorised.lookup c name)
        (hi.served.calm hc fun v hmem _ => hv ▸ hmem)

/-- It holds after `k_scheduler_init`. -/
theorem IpcOk.initial {discovered timerHz stack : Nat} (hd : 0 < discovered) (hstack : stack ≠ 0) :
    (initial discovered timerHz stack).IpcOk [] := by
  obtain ⟨v, ht⟩ := @initial_tasks discovered timerHz stack hstack
  have hone : NoMail ((booted discovered timerHz).tasks 1) := by
    rw [booted_tasks, if_neg (by decide)]
    exact ⟨rfl, rfl⟩
  have hq : Quiet 2 none _ _ := .fillTask (s := booted discovered timerHz) rfl hone 1 0 true stack
  refine ⟨initial_ok hd hstack, ⟨fun i hi => ?_, fun id _ _ => ⟨rfl, rfl⟩⟩, fun p tid htid => ?_,
    fun v hv hne => ?_⟩
  · rw [ht]
    split_ifs
    · exact ⟨Nat.zero_lt_succ 15, Nat.zero_le 16, rfl⟩
    · exact ⟨Nat.zero_lt_succ 15, Nat.zero_le 16, rfl⟩
    · exact ⟨Nat.zero_lt_succ 15, Nat.zero_le 16, rfl⟩
  · rw [initial_eq hstack] at htid
    rcases hq.processes p with ⟨-, hg⟩ | hg
    · exact absurd (hg ▸ htid) List.not_mem_nil
    · exact absurd (hg ▸ htid) List.not_mem_nil
  · rw [initial_eq hstack] at hv
    have hmem := hq.services v hv hne
    rw [List.eq_of_mem_replicate hmem] at hne
    exact absurd rfl hne

/-- It holds after every run, by induction on the run. -/
theorem IpcOk.run {s₀ : SchedState} (hr : IpcRun s₀ h s) (hi : s₀.IpcOk []) : s.IpcOk h := by
  induction hr with
  | nil => exact hi
  | cons _ he ih => exact ih.step he

/-- What becomes of a task that was there at some point of the history. -/
theorem IpcRun.follow {s₀ : SchedState} (hr : IpcRun s₀ h s) (hi : s₀.IpcOk [])
    {r : SchedState × IpcEvent} (hmem : r ∈ h) (hj : (r.1.tasks j).state ≠ .unused) :
    (s.nextTaskId = 0 ∨ (r.1.tasks j).id < s.nextTaskId) ∧
      ((r.1.tasks j).Later (s.tasks j) ∨ s.Gone (r.1.tasks j).id) := by
  induction hr with
  | nil => exact absurd hmem List.not_mem_nil
  | cons hrun he ih =>
      have hok := (IpcOk.run hrun hi).ok
      obtain ⟨-, hev⟩ := hok.ipcStep he
      rcases List.mem_cons.mp hmem with rfl | hmem
      · have hlt := (hok.fresh hj).2
        exact ⟨hev.next_gt hok.next hlt, hev.follow hok hj hlt (.inl (Task.Calm.refl _).later)⟩
      · obtain ⟨hlt, hf⟩ := ih hmem
        exact ⟨hev.next_gt hok.next hlt, hev.follow hok hj hlt hf⟩

/-- It held before each section of the history. -/
theorem IpcRun.before {s₀ : SchedState} (hr : IpcRun s₀ h s) (hi : s₀.IpcOk [])
    {r : SchedState × IpcEvent} (hmem : r ∈ h) : ∃ h', r.1.IpcOk h' := by
  induction hr with
  | nil => exact absurd hmem List.not_mem_nil
  | cons hrun _ ih =>
      rcases List.mem_cons.mp hmem with rfl | hmem
      · exact ⟨_, IpcOk.run hrun hi⟩
      · exact ih hmem

/-- A lookup grants the tasks of the caller and of the service. -/
theorem Adds.named {pid tid : Nat} (ha : s.Adds pid tid e) (hi : ∃ h, s.IpcOk h)
    (hnot : ∀ c pid tid, e ≠ .grant c pid tid) :
    ∃ j, (s.tasks j).state ≠ .unused ∧ (s.tasks j).id = tid := by
  obtain ⟨h, hi⟩ := hi
  cases e with
  | grant c pid' tid' => exact absurd rfl (hnot c pid' tid')
  | lookup c name =>
      obtain ⟨-, me, v, p, hme, hfind, ⟨-, htid⟩ | ⟨q, -, -, htid⟩⟩ := ha
      · exact ⟨me, (hi.ok.current hme).2.2, htid.symm⟩
      · obtain ⟨hv, hne, -⟩ := findService_some hfind
        obtain ⟨i, p', hp', hid, -⟩ := hi.served v hv hne
        exact ⟨i, hi.ok.live_of_process hp', hid.trans htid.symm⟩
  | _ => exact absurd ha id

/-- **Delivery and authority of messages.**  After any history of the scheduler and of the calls of
this module:

* what a task has received, followed by what is in its mailbox, is what was sent to it with success,
  and there are at most sixteen messages in the mailbox;
* a process that sends with success sends to itself or to a task that was granted to it before.  If
  some task had that identifier when it was granted then it is still the same task; and unless it
  was granted by `k_ipc_grant`, which does not look at it, some task had. -/
theorem ipc_delivery_and_authority {discovered timerHz stack : Nat} (hd : 0 < discovered)
    (hstack : stack ≠ 0) (hr : IpcRun (initial discovered timerHz stack) h s) :
    (∀ i, (s.tasks i).state ≠ .unused → (s.tasks i).queued.length ≤ 16 ∧
      receivedBy (s.tasks i).id h ++ (s.tasks i).queued = sentTo (s.tasks i).id h) ∧
    ∀ c target data n me p, (s.kIpcSend c target data n).1 = some (.ok ()) →
      (s.cpus c).current = some me → (s.tasks me).process = some p →
      target = (s.tasks me).id ∨ ∃ r ∈ h, r.1.Adds (s.processes p).id target r.2 ∧
        (∀ j, (r.1.tasks j).state ≠ .unused → (r.1.tasks j).id = target →
          (r.1.tasks j).Later (s.tasks j)) ∧
        ((∀ c pid tid, r.2 ≠ .grant c pid tid) →
          ∃ j, (r.1.tasks j).state ≠ .unused ∧ (r.1.tasks j).id = target) := by
  have hinit := @IpcOk.initial discovered timerHz stack hd hstack
  have hi := IpcOk.run hr hinit
  refine ⟨fun i hu => ?_, fun c target data n me p hsend hme hp => ?_⟩
  · obtain ⟨-, hc, hbox⟩ := hi.mailed.box i hu
    rw [Task.queued_length]
    exact ⟨hc, hbox⟩
  · rcases s.send_cases c target data n with ⟨hno, -⟩ | ⟨me', i, hme', -, -, hg, hid, hu, -, -⟩
    · exact absurd hsend hno
    · obtain rfl : me = me' := Option.some.inj (hme.symm.trans hme')
      rw [granted, hp] at hg
      rcases (Bool.or_eq_true _ _).mp hg with hself | hgrant
      · exact .inl (by simpa using hself)
      · obtain ⟨r, hmem, hadds⟩ := hi.authorised p target (by simpa using hgrant)
        refine .inr ⟨r, hmem, hadds, fun j hj hjid => ?_, fun hnot => ?_⟩
        · rcases (IpcRun.follow hr hinit hmem hj).2 with hl | hgone
          · exact hl
          · exact absurd (hid.trans hjid.symm) (hgone i hu)
        · exact hadds.named (IpcRun.before hr hinit hmem) hnot

/-- A process is started whose task gets the identifier `3`. -/
def started : SchedState :=
  (((initial 1 1000 4096).step (.processCreate false)).step (.riefLoaded 0)).step
    (.processStart 0 (some 0) 8192)

/-- It is granted the identifier `4`, which no task has yet. -/
def promised : SchedState := started.ipcStep (.grant 0 1 4)

/-- A task gets that identifier, and the process runs. -/
def fulfilled : SchedState := (promised.step (.create 1024 0 12288)).step (.schedule 0 true 0)

/-- A lookup of a service and the message sent on its grant, section by section. -/
def promise : IpcHistory :=
  [(promised.step (.create 1024 0 12288), .sched (.schedule 0 true 0)),
    (promised, .sched (.create 1024 0 12288)),
    (started, .grant 0 1 4),
    (((initial 1 1000 4096).step (.processCreate false)).step (.riefLoaded 0),
      .sched (.processStart 0 (some 0) 8192)),
    ((initial 1 1000 4096).step (.processCreate false), .sched (.riefLoaded 0)),
    (initial 1 1000 4096, .sched (.processCreate false))]

/-- Those sections are a run. -/
theorem promise_run : IpcRun (initial 1 1000 4096) promise fulfilled := by
  refine .cons (.cons (.cons (.cons (.cons (.cons .nil ?_) ?_) ?_) ?_) ?_) ?_
  · exact enabled_off rfl (by simp) (by simp) (by decide +kernel)
  · exact enabled_off rfl (by simp) (by simp) (by decide +kernel)
  · exact enabled_off rfl (by simp) (by simp) (by decide +kernel)
  · show (started.cpus 0).online = true
    decide +kernel
  · exact enabled_off rfl (by simp) (by simp) (by decide +kernel)
  · exact enabled_on rfl (by decide +kernel) rfl

/-- The process sends to the task that came after the grant. -/
theorem fulfilled_sends : (fulfilled.kIpcSend 0 4 (fun _ => 7) 1).1 = some (.ok ()) ∧
    (fulfilled.cpus 0).current = some 2 ∧ (fulfilled.tasks 2).process = some 0 ∧
    (fulfilled.tasks 2).id = 3 ∧ (fulfilled.processes 0).id = 1 ∧
    ∀ j, (started.tasks j).state ≠ .unused → (started.tasks j).id ≠ 4 := by
  decide +kernel

theorem ipc_delivery_and_authority_promise :
    (fulfilled.kIpcSend 0 4 (fun _ => 7) 1).1 = some (.ok ()) ∧
      ∃ r ∈ promise, r.1.Adds 1 4 r.2 := by
  obtain ⟨hsend, hme, hp, hid, hpid, -⟩ := fulfilled_sends
  refine ⟨hsend, ?_⟩
  have h :=
    (ipc_delivery_and_authority (by decide) (by decide) promise_run).2 0 4 (fun _ => 7) 1 2 0
    hsend hme hp
  rw [hid, hpid] at h
  obtain ⟨r, hr, hadds, -⟩ := h.resolve_left (by decide)
  exact ⟨r, hr, hadds⟩

/-- A grant can be older than the task it lets a process send to. -/
theorem grant_before_task : ¬ ∀ (h : IpcHistory) (s : SchedState),
    IpcRun (initial 1 1000 4096) h s →
    ∀ c target data n me p, (s.kIpcSend c target data n).1 = some (.ok ()) →
      (s.cpus c).current = some me → (s.tasks me).process = some p →
      target = (s.tasks me).id ∨ ∃ r ∈ h, r.1.Adds (s.processes p).id target r.2 ∧
        ∃ j, (r.1.tasks j).state ≠ .unused ∧ (r.1.tasks j).id = target ∧
          (r.1.tasks j).Later (s.tasks j) := by
  intro hall
  obtain ⟨hsend, hme, hp, hid, -, hnone⟩ := fulfilled_sends
  rcases hall promise fulfilled promise_run 0 4 (fun _ => 7) 1 2 0 hsend hme hp with
    hself | ⟨r, hr, hadds, j, hj, hjid, -⟩
  · rw [hid] at hself
    exact absurd hself (by decide)
  · -- the grant is the only step that adds anything
    simp only [promise, List.mem_cons, List.not_mem_nil, or_false] at hr
    rcases hr with rfl | rfl | rfl | rfl | rfl | rfl
    · exact hadds
    · exact hadds
    · exact hnone j hj hjid
    · exact hadds
    · exact hadds
    · exact hadds

end SchedState

end Efishell
