import Efishell.Kernel.IpcSafe
import Efishell.Kernel.LeaseSafe

/-!
# Kernel — services and grants

The registry and the tables of grants over any history: the names of live services are different and
their owners are live Ring-1 processes, a process has at most sixteen grants and none twice, and
`k_service_lookup` either installs both grants or leaves every process with the live tasks it had.

A lookup that fails half way takes its first grant back by looking for it again, after the scan for
dead endpoints has moved entries around; the scan takes out nothing live, and there is no second
copy.

* `Registry.ipcStep`, `Registry.run`: every section and every run keeps the registry in order.
* `services_safe`: what that says of names, owners and grants.
-/

namespace Efishell

/-! ### Arrays of grants -/

theorem length_swapRemove (l : List Nat) (i : Nat) : (swapRemove l i).length = l.length - 1 := by
  rw [swapRemove, List.length_dropLast, List.length_set]

/-- What else is in the array stays when an entry is taken out. -/
theorem mem_swapRemove {l : List Nat} {i t : Nat} (hi : i < l.length) (ht : t ∈ l)
    (hne : t ≠ l.getD i 0) : t ∈ swapRemove l i := by
  refine (swapRemove_perm hi).mem_iff.mpr (List.mem_eraseIdx_iff_getElem.mpr ?_)
  obtain ⟨j, hj, rfl⟩ := List.getElem_of_mem ht
  refine ⟨j, hj, ?_, rfl⟩
  rintro rfl
  simp [hi] at hne

/-- The scan takes out dead entries only, by induction on what is left to scan. -/
theorem mem_pruneGrants {live : Nat → Bool} {t : Nat} (hl : live t = true) {left : Nat} :
    ∀ {l : List Nat} {i : Nat}, i + left ≤ l.length → t ∈ l → t ∈ pruneGrants live left l i := by
  induction left with
  | zero => exact fun _ ht => ht
  | succ left ih =>
      intro l i hi ht
      rw [pruneGrants]
      split
      · exact ih (by omega) ht
      · next hdead =>
          refine ih (by rw [length_swapRemove]; omega) (mem_swapRemove (by omega) ht ?_)
          rintro rfl
          exact hdead hl

/-- At most sixteen grants, none twice. -/
def GrantsOk (l : List Nat) : Prop := l.length ≤ grantMax ∧ l.Nodup

/-- Some of the grants are in order when all are. -/
theorem GrantsOk.subperm {l l' : List Nat} (h : GrantsOk l) (hs : l'.Subperm l) : GrantsOk l' := by
  refine ⟨hs.length_le.trans h.1, ?_⟩
  obtain ⟨m, hm, hml⟩ := hs
  exact hm.nodup_iff.mp (h.2.sublist hml)

/-- A new grant where there is room. -/
theorem GrantsOk.snoc {l : List Nat} {t : Nat} (h : GrantsOk l) (hlen : l.length ≠ grantMax)
    (ht : t ∉ l) : GrantsOk (l ++ [t]) := by
  refine ⟨?_, List.nodup_append.mpr ⟨h.2, List.nodup_singleton t, ?_⟩⟩
  · rw [List.length_append, List.length_singleton]
    exact Nat.lt_of_le_of_ne h.1 hlen
  · rintro a ha b hb rfl
    exact ht (List.mem_singleton.mp hb ▸ ha)

section Grant

variable {live : Nat → Bool} {l : List Nat} {tid t : Nat}

/-- A grant added keeps the list in order. -/
theorem GrantsOk.grantInto (h : GrantsOk l) (live : Nat → Bool) (tid : Nat) :
    GrantsOk (grantInto live l tid).2 := by
  rw [Efishell.grantInto]
  split
  · exact h
  · next hnot =>
      have hsub := pruneGrants_subperm live l.length l 0
      dsimp only
      split
      · exact h.subperm hsub
      · next hlen => exact (h.subperm hsub).snoc hlen fun hm => hnot (hsub.subset hm)

theorem GrantsOk.dropGrant (h : GrantsOk l) (tid : Nat) : GrantsOk (dropGrant l tid) :=
  h.subperm ((dropGrant_perm l tid).subperm.trans List.erase_sublist.subperm)

/-- A grant that succeeded is there. -/
theorem grantInto_ok (h : (grantInto live l tid).1 = .ok ()) : tid ∈ (grantInto live l tid).2 := by
  rcases grantInto_cases live l tid with ⟨he, hm⟩ | ⟨-, l', -, he | he⟩
  · rw [he]
    exact hm
  · rw [he] at h
    cases h
  · rw [he]
    exact List.mem_append_right _ (List.mem_singleton_self tid)

/-- No live entry is lost. -/
theorem grantInto_live (hl : live t = true) (ht : t ∈ l) : t ∈ (grantInto live l tid).2 := by
  have hp := mem_pruneGrants hl (Nat.zero_add l.length).le ht
  rw [grantInto]
  split
  · exact ht
  · dsimp only
    split
    · exact hp
    · exact List.mem_append_left _ hp

/-- A grant that failed changes nothing among the live entries. -/
theorem grantInto_error {e : Errno} (h : (grantInto live l tid).1 = .error e) (hl : live t = true) :
    t ∈ (grantInto live l tid).2 ↔ t ∈ l := by
  refine ⟨fun ht => ?_, grantInto_live hl⟩
  rcases mem_grantInto ht with hm | ⟨-, hok⟩
  · exact hm
  · rw [hok] at h
    cases h

/-- A grant that is there already changes nothing. -/
theorem grantInto_same (h : tid ∈ l) : grantInto live l tid = (.ok (), l) := by
  rw [grantInto, if_pos h]

end Grant

/-! ### The registry -/

/-- No two entries in use have one name. -/
def DistinctNames (l : List Service) : Prop :=
  l.Pairwise fun v w => v.pid ≠ 0 → w.pid ≠ 0 → v.name ≠ w.name

/-- Some entries are cleared. -/
def Cleared (l l' : List Service) : Prop := List.Forall₂ (fun v w => w = v ∨ w.pid = 0) l l'

theorem Cleared.refl (l : List Service) : Cleared l l := List.forall₂_same.mpr fun _ _ => .inl rfl

/-- Entries that are left were there. -/
theorem Cleared.mem {l l' : List Service} (h : Cleared l l') {w : Service} (hw : w ∈ l')
    (hne : w.pid ≠ 0) : w ∈ l := by
  induction h with
  | nil => exact hw
  | @cons v u l l' hvu _ ih =>
      rcases List.mem_cons.mp hw with rfl | hw
      · rw [hvu.resolve_right hne]
        exact List.mem_cons_self
      · exact List.mem_cons_of_mem _ (ih hw)

/-- Services cleared keep their names distinct. -/
theorem Cleared.distinct {l l' : List Service} (h : Cleared l l') (hd : DistinctNames l) :
    DistinctNames l' := by
  induction h with
  | nil => exact .nil
  | @cons v u l l' hvu hrest ih =>
      obtain ⟨hv, hl⟩ := List.pairwise_cons.mp hd
      refine List.pairwise_cons.mpr ⟨fun w hw hu hne => ?_, ih hl⟩
      obtain rfl := hvu.resolve_right hu
      exact hv w (Cleared.mem hrest hw hne) hu hne

/-- The services of a process cleared. -/
theorem cleared_map (l : List Service) (pid : Nat) :
    Cleared l (l.map fun v => if v.pid = pid then ⟨[], 0, 0⟩ else v) := by
  refine List.forall₂_map_right_iff.mpr (List.forall₂_same.mpr fun v _ => ?_)
  split
  · exact .inr rfl
  · exact .inl rfl

/-- A new name goes into an entry. -/
theorem DistinctNames.set {l : List Service} (h : DistinctNames l) {v : Service}
    (hv : ∀ w ∈ l, w.pid ≠ 0 → w.name ≠ v.name) : ∀ k : Nat, DistinctNames (l.set k v) := by
  induction l with
  | nil => exact fun _ => .nil
  | cons u l ih =>
      obtain ⟨hu, hl⟩ := List.pairwise_cons.mp h
      have hv' := fun w hw => hv w (List.mem_cons_of_mem u hw)
      intro k
      cases k with
      | zero => exact List.pairwise_cons.mpr ⟨fun w hw _ hne => (hv' w hw hne).symm, hl⟩
      | succ k =>
          refine List.pairwise_cons.mpr ⟨fun w hw hune hwne => ?_, ih hl hv' k⟩
          rcases List.mem_or_eq_of_mem_set hw with hw | rfl
          · exact hu w hw hune hwne
          · exact hv u List.mem_cons_self hune

namespace SchedState

variable {s s' : SchedState} {h : IpcHistory} {e : IpcEvent} {i j me : TaskSlot} {c : Nat}
  {p q : ProcessSlot}

/-- The loop of `service_register` only clears entries, and one that comes to its end has seen no
entry with the name. -/
theorem registerLoop_cleared (pid : Nat) (name : List UInt8) (l : List Service) : ∀ i slot,
    Cleared l (s.registerLoop pid name l i slot).2.2 ∧
      ((s.registerLoop pid name l i slot).1 = none →
        ∀ w ∈ (s.registerLoop pid name l i slot).2.2, w.pid ≠ 0 → w.name ≠ name) := by
  induction l with
  | nil => exact fun _ _ => ⟨.nil, fun _ w hw => absurd hw List.not_mem_nil⟩
  | cons v l ih =>
      intro i slot
      rw [registerLoop]
      dsimp only
      have hv : ∀ u, u = (if s.ownerGone v.pid then (⟨[], 0, 0⟩ : Service) else v) →
          u = v ∨ u.pid = 0 := by
        rintro u rfl
        split
        · exact .inr rfl
        · exact .inl rfl
      generalize (if s.ownerGone v.pid then (⟨[], 0, 0⟩ : Service) else v) = u at hv ⊢
      split
      · exact ⟨.cons (hv u rfl) (Cleared.refl l), fun hn => by cases hn⟩
      · next hname =>
          obtain ⟨hc, hn⟩ := ih (i + 1) (if u.pid = 0 ∧ slot = none then some i else slot)
          refine ⟨.cons (hv u rfl) hc, fun hnone w hw hne => ?_⟩
          rcases List.mem_cons.mp hw with rfl | hw
          · exact fun heq => hname ⟨hne, heq⟩
          · exact hn hnone w hw hne

/-! ### Steps of the scheduler -/

/-- What a step of the scheduler does to the registry and to the class of a process: entries are
cleared, and a class is given when a slot is filled. -/
structure Filed (s s' : SchedState) : Prop where
  services : Cleared s.services s'.services
  ring1 : ∀ p, (s'.processes p).ring1 = (s.processes p).ring1 ∨ (s.processes p).used = false ∨
    (s'.processes p).used = false

theorem Filed.refl (s : SchedState) : s.Filed s := ⟨.refl _, fun _ => .inl rfl⟩

/-- What keeps what processes own registers nothing. -/
theorem Kept.filed (h : s.Kept s') : s.Filed s' where
  services := h.services ▸ .refl _
  ring1 p := .inl (h.processes p).2.2.2.1

/-- What one process owns is released. -/
theorem Kept.filed_released (h : s.Kept s') (pid : Nat) :
    s.Filed (s'.processResourcesRelease pid) where
  services := by
    rw [← h.services]
    exact cleared_map _ pid
  ring1 p := .inl (h.processes p).2.2.2.1

theorem Filed.onProcess {f : KProcess → KProcess}
    (hf : (f (s.processes p)).ring1 = (s.processes p).ring1 ∨ (s.processes p).used = false ∨
      (f (s.processes p)).used = false) : s.Filed (s.onProcess p f) where
  services := .refl _
  ring1 q := by
    obtain rfl | hq := eq_or_ne q p
    · rw [onProcess_self]
      exact hf
    · rw [onProcess_ne _ hq]
      exact .inl rfl

theorem Filed.processCreate (s : SchedState) (ring1 : Bool) :
    s.Filed (s.processCreateLocked ring1).2 := by
  unfold processCreateLocked
  split
  · exact .refl s
  · split
    · exact .refl s
    · next p hp =>
        have hu : (s.processes p).used = false := by simpa using List.find?_some hp
        have h := Filed.onProcess (s := s) (p := p)
          (f := fun _ => { used := true, id := s.nextProcessId, ring1 }) (.inr (.inl hu))
        exact ⟨h.services, h.ring1⟩

theorem Filed.processCreateFailed (s : SchedState) (p : ProcessSlot) :
    s.Filed (s.processCreateFailed p) := by
  unfold SchedState.processCreateFailed
  split
  · exact .refl s
  · exact .onProcess (.inl rfl)

theorem Filed.riefLoaded (s : SchedState) (p : ProcessSlot) : s.Filed (s.riefLoaded p) := by
  unfold SchedState.riefLoaded
  split
  · exact .refl s
  · exact .onProcess (.inl rfl)

theorem Filed.processStart (s : SchedState) (p : ProcessSlot) (cpu : Option Nat) (stack : Nat) :
    s.Filed (s.processStartLocked p cpu stack).2 := by
  unfold processStartLocked
  split
  · exact .refl s
  · dsimp only
    split
    · exact .refl s
    · have h := Kept.newTask s 1024 (cpu.getD s.leastLoaded) false stack
      split
      · next heq =>
          rw [heq] at h
          exact h.filed
      · next i s₁ heq =>
          rw [heq] at h
          refine ⟨h.services ▸ .refl _, fun q => .inl ?_⟩
          have hq := (h.processes q).2.2.2.1
          obtain rfl | hne := eq_or_ne q p
          · rw [onProcess_self]
            exact hq
          · rw [onProcess_ne _ hne]
            exact hq

theorem Filed.processDestroy (s : SchedState) (p : ProcessSlot) :
    s.Filed (s.processDestroyLocked p).2 := by
  have hr : s.Kept (if (s.processes p).taskId ≠ 0 then s.freeTasksOf p (List.finRange kMaxTasks)
      else (true, s)).2 := by
    split
    · exact Kept.freeTasksOf p _ s
    · exact Kept.refl s
  unfold processDestroyLocked
  split
  · exact .refl s
  · split
    · exact .refl s
    · dsimp only
      generalize (if (s.processes p).taskId ≠ 0 then s.freeTasksOf p (List.finRange kMaxTasks)
        else (true, s)) = r at hr ⊢
      split
      · exact hr.filed
      · have h := hr.filed_released (s.processes p).id
        exact ⟨h.services, h.ring1⟩

theorem Filed.processDestroyed (s : SchedState) (b : Bool) : s.Filed (s.processDestroyed b) := by
  unfold SchedState.processDestroyed
  split
  · exact .refl s
  · next p _ =>
      dsimp only
      split
      · have h := Filed.onProcess (s := s) (p := p) (f := fun _ => {}) (.inr (.inr rfl))
        exact ⟨h.services, h.ring1⟩
      · exact ⟨.refl _, fun _ => .inl rfl⟩

theorem Filed.returnControl (s : SchedState) (c : Nat) : s.Filed (s.processReturnControl c) := by
  rcases s.returnControl_cases c with h | ⟨s₁, pid, h, he⟩
  · exact h.filed
  · rw [he]
    exact h.filed_released pid

/-- No section of the scheduler registers a service. -/
theorem filed_step (s : SchedState) (e : SchedEvent) : s.Filed (s.step e) := by
  by_cases hm : e.underProcessMutex = false
  · by_cases hr : ∃ c, e = .returnControl c
    · obtain ⟨c, rfl⟩ := hr
      exact .returnControl s c
    · by_cases hd : ∃ b, e = .processDestroyed b
      · obtain ⟨b, rfl⟩ := hd
        exact .processDestroyed s b
      · exact (s.kept_step hm (not_exists.mp hr) (not_exists.mp hd)).filed
  · cases e with
    | processCreate ring1 => exact .processCreate s ring1
    | processCreateFailed p => exact .processCreateFailed s p
    | riefLoaded p => exact .riefLoaded s p
    | processStart p cpu stack => exact .processStart s p cpu stack
    | processControl pid op => exact (Kept.control s pid op).filed
    | processDestroy p => exact .processDestroy s p
    | _ => exact absurd rfl hm

/-! ### Calls -/

/-- A call changes grants, mail and services. -/
structure Calls (s s' : SchedState) : Prop where
  processes : ∀ p, (s'.processes p).used = (s.processes p).used ∧
    (s'.processes p).id = (s.processes p).id ∧
    (s'.processes p).taskId = (s.processes p).taskId ∧
      (s'.processes p).ring1 = (s.processes p).ring1
  next : s'.nextProcessId = s.nextProcessId
  partitions : s'.partitions = s.partitions

theorem Calls.refl (s : SchedState) : s.Calls s := ⟨fun _ => ⟨rfl, rfl, rfl, rfl⟩, rfl, rfl⟩

theorem Calls.trans {s₁ : SchedState} (h : s.Calls s₁) (h' : s₁.Calls s') : s.Calls s' where
  processes p := by
    obtain ⟨h₁, h₂, h₃, h₄⟩ := h.processes p
    obtain ⟨h₁', h₂', h₃', h₄'⟩ := h'.processes p
    exact ⟨h₁'.trans h₁, h₂'.trans h₂, h₃'.trans h₃, h₄'.trans h₄⟩
  next := h'.next.trans h.next
  partitions := h'.partitions.trans h.partitions

theorem Calls.setGrants (s : SchedState) (p : ProcessSlot) (l : List Nat) :
    s.Calls (s.setGrants p l) := by
  refine ⟨fun q => ?_, rfl, rfl⟩
  rw [SchedState.setGrants]
  obtain rfl | hq := eq_or_ne q p
  · rw [onProcess_self]
    exact ⟨rfl, rfl, rfl, rfl⟩
  · rw [onProcess_ne _ hq]
    exact ⟨rfl, rfl, rfl, rfl⟩

/-! ### Lookups -/

/-- Every process has at most sixteen grants and none twice. -/
def GrantsBounded (s : SchedState) : Prop := ∀ p, GrantsOk (s.processes p).grants

/-- Another list of grants that is in order. -/
theorem GrantsBounded.set (h : s.GrantsBounded) {l : List Nat} (hl : GrantsOk l) (p : ProcessSlot) :
    (s.setGrants p l).GrantsBounded := by
  intro q
  obtain rfl | hq := eq_or_ne q p
  · rw [setGrants_self]
    exact hl
  · rw [setGrants_ne _ _ hq]
    exact h q

theorem GrantsBounded.grantLocked (h : s.GrantsBounded) (p : ProcessSlot) (tid : Nat) :
    (s.grantLocked p tid).2.GrantsBounded := h.set ((h p).grantInto _ _) p

/-- A grant taken back keeps the lists in order. -/
theorem GrantsBounded.takeBack (h : s.GrantsBounded) (b : Bool) (p : ProcessSlot) (id : Nat) :
    (s.takeBack b p id).GrantsBounded := by
  rw [SchedState.takeBack]
  split
  · exact h
  · exact h.set ((h p).dropGrant id) p

theorem GrantsBounded.lookupGrants (h : s.GrantsBounded) (me : TaskSlot) (v : Service)
    (p : ProcessSlot) : (s.lookupGrants me v p).2.GrantsBounded := by
  have h₁ := h.grantLocked p (s.tasks me).id
  rcases s.lookupGrants_cases me v p with ⟨e, -, he⟩ | ⟨-, -, he⟩ | ⟨q, -, -, ⟨-, he⟩ | ⟨e, -, he⟩⟩
  · rw [he]
    exact h₁.takeBack _ _ _
  · rw [he]
    exact h₁
  · rw [he]
    exact h₁.grantLocked _ _
  · rw [he]
    exact (h₁.grantLocked _ _).takeBack _ _ _

/-- The live identifiers among the grants of every process are the same. -/
def SameLive (s s' : SchedState) : Prop :=
  ∀ q t, s.reachable t = true → (t ∈ (s'.processes q).grants ↔ t ∈ (s.processes q).grants)

/-- A grant that fails leaves them. -/
theorem grantLocked_error {tid : Nat} {e : Errno} (h : (s.grantLocked p tid).1 = .error e) :
    s.SameLive (s.grantLocked p tid).2 := by
  intro q t ht
  obtain rfl | hq := eq_or_ne q p
  · rw [grantLocked_self]
    exact grantInto_error h ht
  · rw [grantLocked, setGrants_ne _ _ hq]

/-- A grant that is there already leaves everything. -/
theorem grantLocked_same {tid : Nat} (h : tid ∈ (s.processes p).grants) :
    s.SameLive (s.grantLocked p tid).2 := by
  intro q t _
  obtain rfl | hq := eq_or_ne q p
  · rw [grantLocked_self, grantInto_same h]
  · rw [grantLocked, setGrants_ne _ _ hq]

/-- A new grant for a live task adds that task. -/
theorem grantLocked_ok {tid : Nat} (h : (s.grantLocked p tid).1 = .ok ()) {t : Nat}
    (ht : s.reachable t = true) (q : ProcessSlot) :
    t ∈ ((s.grantLocked p tid).2.processes q).grants ↔
      t ∈ (s.processes q).grants ∨ q = p ∧ t = tid := by
  obtain rfl | hq := eq_or_ne q p
  · rw [grantLocked_self]
    refine ⟨fun hm => (mem_grantInto hm).imp_right fun h => ⟨rfl, h.1⟩, ?_⟩
    rintro (hm | ⟨-, rfl⟩)
    · exact grantInto_live ht hm
    · exact grantInto_ok h
  · rw [grantLocked, setGrants_ne _ _ hq]
    exact ⟨.inl, fun hm => hm.resolve_right fun he => hq he.1⟩

/-- **A lookup that fails** leaves every process with the live tasks that it had.  `id` is the
caller. -/
theorem lookupGrants_error (hb : s.GrantsBounded) (hlive : s.reachable (s.tasks me).id = true)
    {v : Service} {e : Errno} (he : (s.lookupGrants me v p).1 = .error e) :
    s.SameLive (s.lookupGrants me v p).2 := by
  generalize hid : (s.tasks me).id = id at hlive
  have hcases := s.lookupGrants_cases me v p
  simp only [hid] at hcases
  have hb₁ := hb.grantLocked p id
  rcases hcases with ⟨e, h₁, heq⟩ | ⟨-, -, heq⟩ | ⟨q, h₁, -, ⟨-, heq⟩ | ⟨e, h₂, heq⟩⟩
  · -- the first grant failed: it was not there, and is not there
    rw [heq]
    have hsame := grantLocked_error h₁
    dsimp only
    rw [takeBack]
    split
    · exact hsame
    · next hnot =>
        intro r t ht
        obtain rfl | hr := eq_or_ne r p
        · rw [setGrants_self, (dropGrant_perm _ _).mem_iff, (hb₁ r).2.mem_erase_iff, hsame r t ht]
          refine ⟨And.right, fun hm => ⟨?_, hm⟩⟩
          rintro rfl
          exact hnot (by simpa using hm)
        · rw [setGrants_ne _ _ hr]
          exact hsame r t ht
  · rw [heq] at he
    cases he
  · rw [heq] at he
    cases he
  · -- the second grant failed
    rw [heq]
    have hsame : (s.grantLocked p id).2.SameLive ((s.grantLocked p id).2.grantLocked q v.task).2 :=
      grantLocked_error h₂
    have hb₂ := hb₁.grantLocked q v.task
    dsimp only
    rw [takeBack]
    split
    · next hthere =>
        intro r t ht
        rw [hsame r t ht]
        exact grantLocked_same (by simpa using hthere) r t ht
    · next hnot =>
        intro r t ht
        obtain rfl | hr := eq_or_ne r p
        · rw [setGrants_self, (dropGrant_perm _ _).mem_iff, (hb₂ r).2.mem_erase_iff, hsame r t ht,
            grantLocked_ok h₁ ht]
          refine ⟨fun hm => hm.2.resolve_right fun h => hm.1 h.2, fun hm => ⟨?_, .inl hm⟩⟩
          rintro rfl
          exact hnot (by simpa using hm)
        · rw [setGrants_ne _ _ hr, hsame r t ht, grantLocked_ok h₁ ht]
          exact ⟨fun hm => hm.resolve_right fun h => hr h.1, .inl⟩

/-- **A lookup that succeeds** leaves both grants: the second one does not push the first one out,
even when both go to one process. -/
theorem lookupGrants_ok (hlive : s.reachable (s.tasks me).id = true) {v : Service} {tid : Nat}
    (he : (s.lookupGrants me v p).1 = .ok tid) :
    tid = v.task ∧ (s.tasks me).id ∈ ((s.lookupGrants me v p).2.processes p).grants ∧
      ∀ q, (s.tasks me).process = some q →
        v.task ∈ ((s.lookupGrants me v p).2.processes q).grants := by
  generalize hid : (s.tasks me).id = id at hlive
  have hcases := s.lookupGrants_cases me v p
  simp only [hid] at hcases
  rcases hcases with ⟨e, h₁, heq⟩ | ⟨h₁, hnone, heq⟩ | ⟨q, h₁, hq, ⟨h₂, heq⟩ | ⟨e, h₂, heq⟩⟩
  · rw [heq] at he
    cases he
  · rw [heq] at he ⊢
    refine ⟨(Except.ok.inj he).symm, (grantLocked_ok h₁ hlive p).mpr (.inr ⟨rfl, rfl⟩),
      fun q hq => ?_⟩
    rw [hnone] at hq
    cases hq
  · rw [heq] at he ⊢
    refine ⟨(Except.ok.inj he).symm, ?_, fun q' hq' => ?_⟩
    · have hlive' : (s.grantLocked p id).2.reachable id = true := hlive
      exact (grantLocked_ok h₂ hlive' p).mpr
        (.inl ((grantLocked_ok h₁ hlive p).mpr (.inr ⟨rfl, rfl⟩)))
    · obtain rfl := Option.some.inj (hq.symm.trans hq')
      rw [grantLocked_self]
      exact grantInto_ok h₂
  · rw [heq] at he
    cases he

/-! ### Runs -/

/-- What holds of the registry and of grants after every history. -/
structure Registry (s : SchedState) : Prop where
  roll : s.Roll
  names : DistinctNames s.services
  ring1 : ∀ v ∈ s.services, v.pid ≠ 0 → ∀ p, (s.processes p).used = true →
    (s.processes p).id = v.pid → (s.processes p).ring1 = true
  grants : s.GrantsBounded

/-- A step of the scheduler. -/
theorem Registry.step (hg : s.Registry) (hi : s.IpcOk h) (e : SchedEvent) :
    (s.step e).Registry where
  roll := hg.roll.step (s.roster_step e)
  names := (s.filed_step e).services.distinct hg.names
  ring1 v hv hne p hu hid := by
    have hf := s.filed_step e
    have hv := hf.services.mem hv hne
    rcases (s.roster_step e).cases hu with ⟨hu₀, hid₀⟩ | ⟨hn, hid', -, -⟩
    · have hold := hg.ring1 v hv hne p hu₀ (hid₀.symm.trans hid)
      rcases hf.ring1 p with hsame | hno | hno
      · exact hsame.trans hold
      · rw [hu₀] at hno
        cases hno
      · rw [hu] at hno
        cases hno
    · -- a new process has an identifier that no service has
      obtain ⟨i, q, hq, -, hqid⟩ := hi.served v hv hne
      obtain ⟨-, hlt⟩ := hg.roll.given (hi.ok.process hq).1
      rw [hqid, ← hid, hid'] at hlt
      exact absurd (hlt.resolve_left hn) (Nat.lt_irrefl _)
  grants p := by
    rcases (hi.ok.frame_step e).grants p with ⟨-, heq⟩ | heq
    · rw [heq]
      exact hg.grants p
    · rw [heq]
      exact ⟨Nat.zero_le _, List.nodup_nil⟩

/-- A call leaves the roll of the processes. -/
theorem Roll.calls (h : s.Roll) (hc : s.Calls s') : s'.Roll where
  next := hc.next ▸ h.next
  given {p} hu := by
    obtain ⟨h₁, h₂, -, -⟩ := hc.processes p
    rw [h₂, hc.next]
    exact h.given (h₁ ▸ hu)
  unique {p q} hp hq he := by
    obtain ⟨h₁, h₂, -, -⟩ := hc.processes p
    obtain ⟨h₁', h₂', -, -⟩ := hc.processes q
    rw [h₂, h₂'] at he
    exact h.unique (h₁ ▸ hp) (h₁' ▸ hq) he

/-- A call that leaves the registry alone. -/
theorem Registry.calls (hg : s.Registry) (hc : s.Calls s') (hv : s'.services = s.services)
    (hb : s'.GrantsBounded) : s'.Registry where
  roll := hg.roll.calls hc
  names := hv ▸ hg.names
  ring1 v hmem hne p hu hid := by
    obtain ⟨h₁, h₂, -, h₄⟩ := hc.processes p
    rw [h₄]
    exact hg.ring1 v (hv ▸ hmem) hne p (h₁ ▸ hu) (h₂ ▸ hid)
  grants := hb

theorem Calls.grantLocked (s : SchedState) (p : ProcessSlot) (tid : Nat) :
    s.Calls (s.grantLocked p tid).2 := .setGrants s p _

/-- A grant taken back changes grants only. -/
theorem Calls.takeBack (s : SchedState) (b : Bool) (p : ProcessSlot) (id : Nat) :
    s.Calls (s.takeBack b p id) := by
  rw [SchedState.takeBack]
  split
  · exact .refl s
  · exact .setGrants s p _

theorem Calls.lookupGrants (s : SchedState) (me : TaskSlot) (v : Service) (p : ProcessSlot) :
    s.Calls (s.lookupGrants me v p).2 := by
  have h₁ := Calls.grantLocked s p (s.tasks me).id
  rcases s.lookupGrants_cases me v p with ⟨e, -, he⟩ | ⟨-, -, he⟩ | ⟨q, -, -, ⟨-, he⟩ | ⟨e, -, he⟩⟩
  · rw [he]
    exact h₁.trans (.takeBack _ _ _ _)
  · rw [he]
    exact h₁
  · rw [he]
    exact h₁.trans (.grantLocked _ _ _)
  · rw [he]
    exact (h₁.trans (.grantLocked _ _ _)).trans (.takeBack _ _ _ _)

/-- A lookup keeps the registry in order. -/
theorem Registry.lookup (hg : s.Registry) (c : Nat) (name : List UInt8) :
    (s.kServiceLookup c name).2.Registry := by
  have hv := (s.lookup_tables c name).2
  rcases s.lookup_cases c name with ⟨-, he⟩ | ⟨me, v, p, -, -, -, he⟩
  · rw [he]
    exact hg
  · rw [he] at hv ⊢
    exact hg.calls (.lookupGrants s me v p) hv (hg.grants.lookupGrants me v p)

theorem Registry.grant (hg : s.Registry) (c pid target : Nat) :
    (s.kIpcGrant c pid target).2.Registry := by
  unfold kIpcGrant
  split
  · exact hg
  · split
    · exact hg
    · next p _ =>
        dsimp only
        split
        · exact hg
        · next hnot =>
            split
            · exact hg
            · next hlen =>
                exact hg.calls (.setGrants s p _) rfl
                  (hg.grants.set ((hg.grants p).snoc hlen hnot) p)

/-- A service is registered by a Ring-1 process, under a name that the loop has not seen. -/
theorem Registry.register (hg : s.Registry) (hok : s.Ok) (c : Nat) (name : List UInt8) :
    (s.serviceRegister c name).2.Registry := by
  unfold serviceRegister
  rcases ask_cases (s := s) (c := c) .einval _ with ⟨-, he⟩ | ⟨me, -, -, -, he⟩
  · rw [he]
    exact hg
  · rw [he]
    dsimp only
    split
    · exact hg
    · next p hp =>
        obtain ⟨hused, -, -⟩ := hok.process hp
        split
        · exact hg
        · next hring =>
            split
            · exact hg
            · obtain ⟨hc, hn⟩ :=
                registerLoop_cleared (s := s) (s.processes p).id name s.services 0 none
              generalize s.registerLoop (s.processes p).id name s.services 0 none = r at hc hn ⊢
              obtain ⟨a, slot, l⟩ := r
              -- the registry without the cleared entries
              have hl : Registry { s with services := l } :=
                ⟨⟨hg.roll.next, hg.roll.given, hg.roll.unique⟩, hc.distinct hg.names,
                  fun v hv hne => hg.ring1 v (hc.mem hv hne) hne, hg.grants⟩
              split
              · next heq => cases heq; exact hl
              · next heq => cases heq; exact hl
              · next heq =>
                  cases heq
                  refine ⟨⟨hg.roll.next, hg.roll.given, hg.roll.unique⟩, hl.names.set (hn rfl) _,
                    fun v hv hne q hu hid => ?_, hg.grants⟩
                  rcases List.mem_or_eq_of_mem_set hv with hv | rfl
                  · exact hl.ring1 v hv hne q hu hid
                  · obtain rfl := hg.roll.unique hu hused hid
                    simpa using hring

/-- Every section does. -/
theorem Registry.ipcStep (hg : s.Registry) (hi : s.IpcOk h) (e : IpcEvent) :
    (s.ipcStep e).Registry := by
  have hsame : ∀ {σ : SchedState}, σ.processes = s.processes → σ.services = s.services →
      σ.nextProcessId = s.nextProcessId → σ.partitions = s.partitions → σ.Registry := by
    intro σ hp hv hn hpart
    exact hg.calls ⟨fun p => by rw [hp]; exact ⟨rfl, rfl, rfl, rfl⟩, hn, hpart⟩ hv fun p => by
      rw [hp]
      exact hg.grants p
  cases e with
  | sched e => exact hg.step hi e
  | send c target data n =>
      rw [SchedState.ipcStep]
      rcases s.send_cases c target data n with ⟨-, he⟩ | ⟨me, i, -, -, -, -, -, -, -, he⟩
      · rw [he]
        exact hg
      · rw [he]
        exact hsame rfl rfl rfl rfl
  | receive c =>
      rw [SchedState.ipcStep]
      rcases s.receive_cases c with ⟨-, he⟩ | ⟨me, -, -, -, he⟩
      · rw [he]
        exact hg
      · rw [he]
        exact hsame rfl rfl rfl rfl
  | grant c pid target => exact hg.grant c pid target
  | register c name => exact hg.register hi.ok c name
  | lookup c name => exact hg.lookup c name

theorem Registry.run {s₀ : SchedState} (hr : IpcRun s₀ h s) (hi : s₀.IpcOk []) (hg : s₀.Registry) :
    s.Registry := by
  induction hr with
  | nil => exact hg
  | cons hrun _ ih => exact ih.ipcStep (.run hrun hi) _

/-- At first no service is registered. -/
theorem Registry.initial {discovered timerHz stack : Nat} (hstack : stack ≠ 0) :
    (initial discovered timerHz stack).Registry := by
  have hk := Kept.fillTask (booted discovered timerHz) 1 1 0 true stack
  rw [initial_eq hstack]
  have hproc : ∀ p, ((booted discovered timerHz).fillTask 1 1 0 true stack).processes p = {} := by
    intro p
    rfl
  have hserv : ∀ v ∈ ((booted discovered timerHz).fillTask 1 1 0 true stack).services,
      v.pid = 0 := by
    intro v hv
    rw [hk.services] at hv
    rw [List.eq_of_mem_replicate hv]
  refine ⟨⟨?_, fun {p} hu => ?_, fun {p q} hu _ _ => ?_⟩, ?_, fun v hv hne =>
    absurd (hserv v hv) hne, fun p => ?_⟩
  · exact lt_of_eq_of_lt hk.next (by decide : 1 < 2 ^ 32)
  · cases hu
  · cases hu
  · refine List.pairwise_iff_forall_sublist.mpr fun {v w} hsub hv _ => ?_
    exact absurd (hserv v (hsub.subset List.mem_cons_self)) hv
  · exact ⟨Nat.zero_le _, List.nodup_nil⟩

/-- Only a process that is there and is not dead has live services. -/
def LiveService (s : SchedState) (v : Service) : Prop := v.pid ≠ 0 ∧ s.ownerGone v.pid = false

/-- What the registry and the grants promise. -/
structure ServicesSafe (s : SchedState) : Prop where
  names : s.services.Pairwise fun v w => s.LiveService v → s.LiveService w → v.name ≠ w.name
  owners : ∀ v ∈ s.services, s.LiveService v → ∃ p, (s.processes p).used = true ∧
    (s.processes p).id = v.pid ∧ (s.processes p).state ≠ .zombie ∧ (s.processes p).ring1 = true
  grants : ∀ p, (s.processes p).grants.length ≤ 16 ∧ (s.processes p).grants.Nodup
  /-- After a lookup that succeeds the task of the service may send to the caller, and the caller to
  it. -/
  lookup_ok : ∀ c name tid, (s.kServiceLookup c name).1 = some (.ok tid) →
    ∃ me i p v, (s.cpus c).current = some me ∧ v ∈ s.services ∧ s.LiveService v ∧ v.name = name ∧
      v.task = tid ∧ (s.processes p).id = v.pid ∧ (s.tasks i).process = some p ∧
        (s.tasks i).id = tid ∧
      (s.kServiceLookup c name).2.granted i (s.tasks me).id = true ∧
      (s.kServiceLookup c name).2.granted me tid = true
  /-- A lookup that fails leaves every process, and so the two it is about, with its live tasks. -/
  lookup_error : ∀ c name e, (s.kServiceLookup c name).1 = some (.error e) →
    ∀ i t, s.reachable t = true → (s.kServiceLookup c name).2.granted i t = s.granted i t

/-- A grant of the process lets its task send. -/
theorem granted_mem {t : Nat} (hp : (s.tasks i).process = some p)
    (ht : t ∈ (s.processes p).grants) :
    s.granted i t = true := by
  rw [granted, hp]
  exact (Bool.or_eq_true _ _).mpr (.inr (List.contains_iff_mem.mpr ht))

/-- The same live grants let the same messages through. -/
theorem SameLive.granted (h : s.SameLive s') (ht : s'.tasks = s.tasks) {t : Nat}
    (hl : s.reachable t = true) : s'.granted i t = s.granted i t := by
  rw [SchedState.granted, SchedState.granted, ht]
  cases (s.tasks i).process with
  | none => rfl
  | some q => rw [Bool.eq_iff_iff, Bool.or_eq_true, Bool.or_eq_true, List.contains_iff_mem,
      List.contains_iff_mem, h q t hl]

/-- The caller is there, and is not dead. -/
theorem Ok.caller_reachable (hok : s.Ok) (hme : (s.cpus c).current = some me)
    (hl : (s.cpus c).leaving = false) : s.reachable (s.tasks me).id = true := by
  refine List.any_eq_true.mpr
    ⟨me, List.mem_finRange me, decide_eq_true ⟨rfl, (hok.current hme).2.2, ?_⟩⟩
  intro hz
  cases hl.symm.trans (hok.leaving hme hz)

/-- The state after any history keeps these promises. -/
theorem Registry.safe (hg : s.Registry) (hi : s.IpcOk h) : s.ServicesSafe where
  names := hg.names.imp fun hd hv hw => hd hv.1 hw.1
  owners v hmem hv := by
    obtain ⟨hne, hgone⟩ := hv
    rw [ownerGone] at hgone
    split at hgone
    · cases hgone
    · next p hp =>
        obtain ⟨hu, hid⟩ := processByPid_some hp
        exact ⟨p, hu, hid, of_decide_eq_false hgone, hg.ring1 v hmem hne p hu hid⟩
  grants := hg.grants
  lookup_ok c name tid hok := by
    have htab := s.lookup_tables c name
    rcases s.lookup_cases c name with ⟨hno, -⟩ | ⟨me, v, p, hme, hl, hfind, he⟩
    · exact absurd hok (hno tid)
    · rw [he] at hok htab ⊢
      obtain ⟨hmem, hne, hname, hp, hz⟩ := findService_some hfind
      obtain ⟨rfl, hto, hback⟩ :=
        lookupGrants_ok (hi.ok.caller_reachable hme hl) (Option.some.inj hok)
      obtain ⟨hu, hid⟩ := processByPid_some hp
      -- the task of the service belongs to the process that the lookup found
      obtain ⟨i, q, hq, htask, hqid⟩ := hi.served v hmem hne
      obtain rfl := hg.roll.unique (hi.ok.process hq).1 hu (hqid.trans hid.symm)
      refine ⟨me, i, q, v, hme, hmem, ⟨hne, ?_⟩, hname, rfl, hqid, hq, htask, ?_, ?_⟩
      · rw [ownerGone, hp]
        exact decide_eq_false hz
      · exact granted_mem (by rw [htab.1, hq]) hto
      · cases hcaller : (s.tasks me).process with
        | none => rw [granted, htab.1, hcaller]
        | some r => exact granted_mem (by rw [htab.1, hcaller]) (hback r hcaller)
  lookup_error c name e herr i t ht := by
    have htab := s.lookup_tables c name
    rcases s.lookup_cases c name with ⟨-, he⟩ | ⟨me, v, p, hme, hl, -, he⟩
    · rw [he]
    · rw [he] at herr htab ⊢
      exact (lookupGrants_error hg.grants (hi.ok.caller_reachable hme hl)
        (Option.some.inj herr)).granted htab.1 ht

/-- **Services and grants.**  After any history the live services have different names and live
Ring-1 owners, a process has at most sixteen grants and none twice, and a lookup installs both
grants or none. -/
theorem services_safe {discovered timerHz stack : Nat} (hd : 0 < discovered) (hstack : stack ≠ 0)
    (hr : IpcRun (initial discovered timerHz stack) h s) : s.ServicesSafe :=
  ((Registry.initial hstack).run hr (.initial hd hstack)).safe (.run hr (.initial hd hstack))

/-- `log`. -/
def logName : List UInt8 := [108, 111, 103]

/-- A Ring-1 process and one that is not are started. -/
def hosted : SchedState :=
  (((((((initial 1 1000 4096).ipcStep (.sched (.processCreate true))).ipcStep
    (.sched (.riefLoaded 0))).ipcStep
    (.sched (.processStart 0 (some 0) 8192))).ipcStep (.sched (.processCreate false))).ipcStep
      (.sched (.riefLoaded 1))).ipcStep (.sched (.processStart 1 (some 0) 12288)))

/-- The first one runs and registers `log`, and then the second one runs. -/
def registered : SchedState :=
  ((hosted.ipcStep (.sched (.schedule 0 true 0))).ipcStep (.register 0 logName)).ipcStep
    (.sched (.schedule 0 true 1))

/-- It looks the service up. -/
def served : SchedState := registered.ipcStep (.lookup 0 logName)

/-- A process registers a service. -/
theorem hosted_run : ∃ h, IpcRun (initial 1 1000 4096) h hosted := by
  refine ⟨_, .cons (.cons (.cons (.cons (.cons (.cons .nil ?_) ?_) ?_) ?_) ?_) ?_⟩
  · exact enabled_off rfl (by simp) (by simp) (by decide +kernel)
  · exact enabled_off rfl (by simp) (by simp) (by decide +kernel)
  · exact enabled_off rfl (by simp) (by simp) (by decide +kernel)
  · exact enabled_off rfl (by simp) (by simp) (by decide +kernel)
  · exact enabled_off rfl (by simp) (by simp) (by decide +kernel)
  · exact enabled_off rfl (by simp) (by simp) (by decide +kernel)

/-- The processor stays up, and the lookup leaves both grants. -/
theorem served_tables : (hosted.cpus 0).online = true ∧
    ((hosted.ipcStep (.sched (.schedule 0 true 0))).cpus 0).online = true ∧
    (((hosted.ipcStep (.sched (.schedule 0 true 0))).ipcStep (.register 0 logName)).cpus
      0).online = true ∧
    (registered.cpus 0).online = true ∧ served.services.head? = some ⟨logName, 1, 3⟩ ∧
      served.ownerGone 1 = false ∧
    (served.processes 0).grants = [4] ∧ (served.processes 1).grants = [3] := by
  decide +kernel

/-- Another process is started, and both are ready for a lookup. -/
theorem served_run : ∃ h, IpcRun (initial 1 1000 4096) h served := by
  obtain ⟨h, hr⟩ := hosted_run
  obtain ⟨h₁, h₂, h₃, h₄, -⟩ := served_tables
  exact ⟨_, .cons (.cons (.cons (.cons hr (enabled_on rfl h₁ rfl)) h₂) (enabled_on rfl h₃ rfl)) h₄⟩

/-- The lookup found the service, and its two grants are there. -/
theorem services_safe_fulfilled : served.ServicesSafe ∧
    served.services.head? = some ⟨logName, 1, 3⟩ ∧ served.ownerGone 1 = false ∧
      (served.processes 0).grants = [4] ∧ (served.processes 1).grants = [3] := by
  obtain ⟨h, hr⟩ := served_run
  exact ⟨services_safe (by decide) (by decide) hr, served_tables.2.2.2.2⟩

end SchedState

end Efishell
