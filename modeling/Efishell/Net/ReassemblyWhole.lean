import Mathlib.Data.List.Perm.Basic
import Efishell.Net.ReassemblySound

/-!
# Networking — whole datagrams

A datagram cut into fragments (`Cut`) is delivered once, with its own bytes, when the last of the
fragments that is missing arrives: whatever their order, and whatever arrives between them.

* `reassembly`: a datagram that is cut and arrives in any order is delivered once.
-/

namespace Efishell.Reassembly

/-- The fragments of `payload` from `off` on, in their order: each but the last is a positive
multiple of 8 bytes. -/
inductive Cut (k : FragKey) (payload : Bytes) (total : Nat) : Nat → List Fragment → Prop where
  | last {off : Nat} {m : Fragment} (hkey : m.key.same k = true) (hoff : m.offset = off)
      (hmore : m.more = false) (hn : 0 < m.n) (hend : off + m.n = total)
      (hbytes : ∀ j < m.n, m.p j = payload (off + j)) : Cut k payload total off [m]
  | cons {off : Nat} {m : Fragment} {ms : List Fragment} (hkey : m.key.same k = true)
      (hoff : m.offset = off) (hmore : m.more = true) (hn : 0 < m.n) (hmult : m.n % 8 = 0)
      (hbytes : ∀ j < m.n, m.p j = payload (off + j)) (hms : Cut k payload total (off + m.n) ms) :
      Cut k payload total off (m :: ms)

/-- What is true of the fragments in any order. -/
structure Whole (k : FragKey) (payload : Bytes) (total : Nat) (ms : List Fragment) : Prop where
  valid : ∀ m ∈ ms, m.invalid = false
  own : ∀ m ∈ ms, m.key.same k = true
  inside : ∀ m ∈ ms, m.offset + m.n ≤ total
  bytes : ∀ m ∈ ms, ∀ j < m.n, m.p j = payload (m.offset + j)
  apart : ms.Pairwise Fragment.Apart
  covered : ∀ j < total, ∃ m ∈ ms, m.Covers j
  last : ∃ m ∈ ms, m.more = false
  ends : ∀ m ∈ ms, m.more = false → m.offset + m.n = total

section Cuts

variable {k : FragKey} {payload : Bytes} {total off : Nat} {ms : List Fragment}

/-- Each of the fragments, from `off` on. -/
theorem Cut.each (h : Cut k payload total off ms) : ∀ m ∈ ms, off ≤ m.offset ∧ 0 < m.n ∧
    m.offset + m.n ≤ total ∧ m.key.same k = true ∧ (m.more = true → m.n % 8 = 0) ∧
    (m.more = false → m.offset + m.n = total) ∧ ∀ j < m.n, m.p j = payload (m.offset + j) := by
  induction h with
  | last hkey hoff hmore hn hend hbytes =>
      intro a ha
      rw [List.mem_singleton.mp ha, hoff]
      refine ⟨le_refl _, hn, hend.le, hkey, fun h => ?_, fun _ => hend, hbytes⟩
      rw [hmore] at h
      cases h
  | @cons off m ms hkey hoff hmore hn hmult hbytes hms ih =>
      have hsome : off + m.n ≤ total := by
        cases hms with
        | last _ _ _ _ hend _ => omega
        | cons _ hoff' _ _ _ _ _ =>
            have := ih _ List.mem_cons_self
            omega
      intro a ha
      rcases List.mem_cons.mp ha with rfl | ha
      · rw [hoff]
        refine ⟨le_refl _, hn, hsome, hkey, fun _ => hmult, fun h => ?_, hbytes⟩
        rw [hmore] at h
        cases h
      · obtain ⟨hle, hrest⟩ := ih a ha
        exact ⟨by omega, hrest⟩

/-- The fragments of a cut are apart. -/
theorem Cut.apart (h : Cut k payload total off ms) : ms.Pairwise Fragment.Apart := by
  induction h with
  | last _ _ _ _ _ _ => exact List.pairwise_singleton _ _
  | cons _ hoff _ _ _ _ hms ih =>
      refine List.Pairwise.cons (fun a ha => ?_) ih
      have := (hms.each a ha).1
      exact .inl (by omega)

theorem Cut.covered (h : Cut k payload total off ms) :
    ∀ j, off ≤ j → j < total → ∃ m ∈ ms, m.Covers j := by
  induction h with
  | @last off m _ hoff _ _ hend _ =>
      intro j hj hj'
      exact ⟨m, List.mem_singleton_self m, by rw [Fragment.Covers]; omega⟩
  | @cons off m ms _ hoff _ _ _ _ _ ih =>
      intro j hj hj'
      by_cases hin : j < off + m.n
      · exact ⟨m, List.mem_cons_self, by rw [Fragment.Covers]; omega⟩
      · obtain ⟨a, ha, hcov⟩ := ih j (by omega) hj'
        exact ⟨a, List.mem_cons_of_mem m ha, hcov⟩

theorem Cut.hasLast (h : Cut k payload total off ms) : ∃ m ∈ ms, m.more = false := by
  induction h with
  | @last off m _ _ hmore _ _ _ => exact ⟨m, List.mem_singleton_self m, hmore⟩
  | @cons off m ms _ _ _ _ _ _ _ ih =>
      obtain ⟨a, ha, hmore⟩ := ih
      exact ⟨a, List.mem_cons_of_mem m ha, hmore⟩

theorem Cut.whole (h : Cut k payload total 0 ms) (ht : total ≤ netFragBytes) :
    Whole k payload total ms where
  valid := fun m hm => by
    obtain ⟨-, hn, hin, -, hmult, -⟩ := h.each m hm
    exact Fragment.valid_iff.mpr ⟨hn, by omega, hmult⟩
  own := fun m hm => (h.each m hm).2.2.2.1
  inside := fun m hm => (h.each m hm).2.2.1
  bytes := fun m hm => (h.each m hm).2.2.2.2.2.2
  apart := h.apart
  covered := fun j hj => h.covered j (Nat.zero_le j) hj
  last := h.hasLast
  ends := fun m hm => (h.each m hm).2.2.2.2.2.1

theorem Fragment.Apart.symm {a b : Fragment} (h : a.Apart b) : b.Apart a := Or.symm h

theorem Whole.perm {ls : List Fragment} (h : Whole k payload total ms) (hp : ls.Perm ms) :
    Whole k payload total ls where
  valid := fun m hm => h.valid m (hp.mem_iff.mp hm)
  own := fun m hm => h.own m (hp.mem_iff.mp hm)
  inside := fun m hm => h.inside m (hp.mem_iff.mp hm)
  bytes := fun m hm => h.bytes m (hp.mem_iff.mp hm)
  apart := (hp.pairwise_iff fun h => h.symm).mpr h.apart
  covered := fun j hj => by
    obtain ⟨m, hm, hc⟩ := h.covered j hj
    exact ⟨m, hp.mem_iff.mpr hm, hc⟩
  last := by
    obtain ⟨m, hm, hmore⟩ := h.last
    exact ⟨m, hp.mem_iff.mpr hm, hmore⟩
  ends := fun m hm => h.ends m (hp.mem_iff.mp hm)

end Cuts

/-! ### A context that holds a part of the datagram -/

section Parts

variable {k : FragKey} {payload : Bytes} {total : Nat} {f : NetFragment} {m : Fragment}
  {parts todo : List Fragment}

/-- Of two fragments that are apart, one byte is not in both. -/
theorem Whole.disjoint {a b : Fragment} {j : Nat} (hw : Whole k payload total (parts ++ todo))
    (ha : a ∈ parts) (hb : b ∈ todo) (hj : a.Covers j) : ¬ b.Covers j := by
  have hapart := (List.pairwise_append.mp hw.apart).2.2 a ha b hb
  rw [Fragment.Apart] at hapart
  rw [Fragment.Covers] at hj ⊢
  omega

/-- The end of the datagram, once it is known. -/
theorem Holds.size (h : Holds f parts) (hw : Whole k payload total (parts ++ todo))
    (hsize : f.finalSize ≠ 0) : f.finalSize = total := by
  rcases h.final with ⟨h₀, -⟩ | ⟨-, -, l₁, q, l₂, hms, hq, hend, -⟩
  · exact absurd h₀ hsize
  · rw [← hend]
    exact hw.ends q (by simp [hms]) hq

/-- A fragment of the same datagram does not clash. -/
theorem Holds.no_clash (h : Holds f parts) (hw : Whole k payload total (parts ++ m :: todo)) :
    f.clashes m = false := by
  have hm : m ∈ parts ++ m :: todo := by simp
  refine clashes_eq_false.mpr ⟨fun h₀ => ?_, fun hmore h₀ => ?_, fun j hj => ?_,
    fun hmore j hj _ => ?_⟩
  · rw [h.size hw h₀]
    exact hw.inside m hm
  · rw [h.size hw h₀]
    exact (hw.ends m hm hmore).symm
  · refine Bool.eq_false_iff.mpr fun hs => ?_
    obtain ⟨a, ha, hcov⟩ := (h.seen j).mp hs
    exact hw.disjoint ha List.mem_cons_self hcov hj
  · refine Bool.eq_false_iff.mpr fun hs => ?_
    obtain ⟨a, ha, hcov⟩ := (h.seen j).mp hs
    have hin := hw.inside a (List.mem_append_left _ ha)
    rw [hw.ends m hm hmore] at hj
    rw [Fragment.Covers] at hcov
    omega

/-- All of the fragments are there. -/
theorem Holds.complete (h : Holds f parts) (hw : Whole k payload total parts) :
    f.finalSize = total ∧ allSeen f.seen 0 f.finalSize = true ∧
      ∀ j < total, f.bytes j = payload j := by
  have hsize : f.finalSize = total := by
    rcases h.final with ⟨-, hall⟩ | ⟨h₀, -⟩
    · obtain ⟨q, hq, hmore⟩ := hw.last
      rw [hall q hq] at hmore
      cases hmore
    · have hw' : Whole k payload total (parts ++ []) := by simpa using hw
      exact h.size hw' h₀
  refine ⟨hsize, allSeen_iff.mpr fun j _ hj => ?_, fun j hj => ?_⟩
  · exact (h.seen j).mpr (hw.covered j (by omega))
  · obtain ⟨a, ha, hle, hlt⟩ := hw.covered j hj
    have hb := h.bytes a ha (j - a.offset) (by omega)
    have hp := hw.bytes a ha (j - a.offset) (by omega)
    rw [Nat.add_sub_cancel' hle] at hb hp
    rw [hb, hp]

/-- One of them is missing. -/
theorem Holds.incomplete (h : Holds f parts) (hw : Whole k payload total (parts ++ todo))
    (htodo : todo ≠ []) : ¬ (f.finalSize ≠ 0 ∧ allSeen f.seen 0 f.finalSize = true) := by
  rintro ⟨h₀, hall⟩
  obtain ⟨t, ht⟩ := List.exists_mem_of_ne_nil todo htodo
  have hmem : t ∈ parts ++ todo := List.mem_append_right _ ht
  have hn := (Fragment.valid_iff.mp (hw.valid t hmem)).1
  have hin := hw.inside t hmem
  rw [h.size hw h₀] at hall
  obtain ⟨a, ha, hcov⟩ :=
    (h.seen t.offset).mp (allSeen_iff.mp hall t.offset (Nat.zero_le _) (by omega))
  exact hw.disjoint ha ht hcov ⟨le_refl _, by omega⟩

/-- **A fragment of the datagram** completes it, or is kept. -/
theorem Step.own {now : Nat} {slots : FragTable} {r : FragTable × Verdict}
    (h : Step now m slots r) (hw : Whole k payload total (parts ++ m :: todo))
    (hroom : (∃ i, InUse (expireAll now slots) m.key i) ∨
      ∃ i < netFrags, (expireAll now slots i).used = false)
    (hparts : ∀ i f, Target now m.key (expireAll now slots) i f → Holds f parts) :
    (todo = [] ∧ ∃ d, r.2 = .delivered d ∧ d.key = m.key ∧ d.size = total ∧
      ∀ j < total, d.bytes j = payload j) ∨
    (todo ≠ [] ∧ r.2 = .kept ∧ ∃ i f, Target now m.key (expireAll now slots) i f ∧
      r.1 = Function.update (expireAll now slots) i (f.put m) ∧
      Holds (f.put m) (parts ++ [m])) := by
  have hvalid : m.invalid = false := hw.valid m (by simp)
  cases h with
  | invalid hv =>
      rw [hvalid] at hv
      cases hv
  | dropped hv hnone hfull =>
      rcases hroom with ⟨i, hi⟩ | ⟨i, hi, hfree⟩
      · exact absurd hi (hnone i)
      · rw [hfull i hi] at hfree
        cases hfree
  | @accepted i f f' v hv htarget hacc =>
      have hholds := hparts i f htarget
      have hno := hholds.no_clash hw
      have hput := hholds.put hv hno
      have hw' : Whole k payload total ((parts ++ [m]) ++ todo) := by simpa using hw
      cases hacc with
      | discarded hc =>
          rw [hno] at hc
          cases hc
      | kept hc hopen =>
          refine .inr ⟨?_, rfl, i, f, htarget, rfl, hput⟩
          rintro rfl
          obtain ⟨hsize, hall, -⟩ := hput.complete (by simpa using hw')
          refine hopen ⟨?_, hall⟩
          obtain ⟨hn, -⟩ := Fragment.valid_iff.mp hv
          have := hw.inside m (by simp)
          omega
      | delivered hc hsize hall =>
          by_cases htodo : todo = []
          · subst htodo
            obtain ⟨hfinal, -, hbytes⟩ := hput.complete (by simpa using hw')
            exact .inl ⟨rfl, _, rfl, rfl, hfinal, hbytes⟩
          · exact absurd ⟨hsize, hall⟩ (hput.incomplete hw' htodo)

end Parts

/-! ### Runs -/

/-- What is delivered of the key `k` while `as` arrive. -/
def deliveries (k : FragKey) : FragTable → List Arrival → List Delivery
  | _, [] => []
  | slots, a :: as =>
      match netReassemble a.now a.frag slots with
      | (slots, .delivered d) =>
          if d.key.same k then d :: deliveries k slots as else deliveries k slots as
      | (slots, _) => deliveries k slots as

section Deliveries

variable {k : FragKey} {slots : FragTable} {a : Arrival} {as : List Arrival}

/-- An arrival that delivers nothing of the key. -/
theorem deliveries_skip
    (h : ∀ d, (netReassemble a.now a.frag slots).2 = .delivered d → d.key.same k = false) :
    deliveries k slots (a :: as) = deliveries k (netReassemble a.now a.frag slots).1 as := by
  rw [deliveries]
  split
  · next slots' d heq =>
      rw [heq] at h ⊢
      rw [if_neg (by simpa using h d rfl)]
  · next slots' v _ heq => rw [heq]

/-- An arrival that delivers its datagram. -/
theorem deliveries_take {d : Delivery} (h : (netReassemble a.now a.frag slots).2 = .delivered d)
    (hk : d.key.same k = true) :
    deliveries k slots (a :: as) = d :: deliveries k (netReassemble a.now a.frag slots).1 as := by
  rw [deliveries]
  split
  · next slots' d' heq =>
      rw [heq] at h ⊢
      cases h
      rw [if_pos hk]
  · next slots' v hv heq =>
      rw [heq] at h
      exact absurd h (hv d)

/-- A fragment of another key delivers nothing of this one. -/
theorem deliveries_other (h : a.frag.invalid = true ∨ a.frag.key.same k = false) :
    deliveries k slots (a :: as) = deliveries k (netReassemble a.now a.frag slots).1 as := by
  refine deliveries_skip fun d hd => ?_
  obtain ⟨hv, i, f, -, -, -, -, rfl⟩ := netReassemble_step.delivered hd
  rcases h with h | h
  · rw [hv] at h
    cases h
  · exact h

theorem fragsOf_cons : fragsOf k (a :: as) = fragsOf k [a] ++ fragsOf k as := by
  rw [← fragsOf_append, List.singleton_append]

/-- A fragment is one of the key's, or none of them. -/
theorem own_or_other (a : Arrival) (k : FragKey) :
    (a.frag.invalid = false ∧ a.frag.key.same k = true) ∨
      (a.frag.invalid = true ∨ a.frag.key.same k = false) := by
  cases a.frag.invalid <;> cases a.frag.key.same k <;> simp

/-- Without fragments of the key nothing of it is delivered. -/
theorem deliveries_none : ∀ {as : List Arrival} {slots : FragTable}, fragsOf k as = [] →
    deliveries k slots as = [] := by
  intro as
  induction as with
  | nil => exact fun _ => rfl
  | cons a as ih =>
      intro slots h
      rw [fragsOf_cons, List.append_eq_nil_iff] at h
      rcases own_or_other a k with ⟨hv, hk⟩ | hother
      · rw [fragsOf_own hv hk] at h
        cases h.1
      · rw [deliveries_other hother]
        exact ih h.2

end Deliveries

/-- `payload` is delivered once while `as` arrive, by the last fragment of its key. -/
def DeliveredOnce (k : FragKey) (payload : Bytes) (total : Nat) (slots : FragTable)
    (as : List Arrival) : Prop :=
  ∃ pre x post d, as = pre ++ x :: post ∧ fragsOf k [x] = [x.frag] ∧ fragsOf k post = [] ∧
    deliveries k slots pre = [] ∧ deliveries k slots (pre ++ [x]) = [d] ∧
    deliveries k slots as = [d] ∧ d.key.same k = true ∧ d.size = total ∧
    ∀ j < total, d.bytes j = payload j

section Once

variable {k : FragKey} {payload : Bytes} {total : Nat} {slots : FragTable} {a : Arrival}
  {as : List Arrival}

/-- The last fragment. -/
theorem DeliveredOnce.now {d : Delivery} (hv : a.frag.invalid = false)
    (hk : a.frag.key.same k = true) (hnone : fragsOf k as = [])
    (hd : (netReassemble a.now a.frag slots).2 = .delivered d) (hkey : d.key = a.frag.key)
    (hsize : d.size = total) (hbytes : ∀ j < total, d.bytes j = payload j) :
    DeliveredOnce k payload total slots (a :: as) := by
  have hdk : d.key.same k = true := by rw [hkey, hk]
  refine ⟨[], a, as, d, rfl, fragsOf_own hv hk, hnone, rfl, ?_, ?_, hdk, hsize, hbytes⟩
  · rw [List.nil_append, deliveries_take hd hdk, deliveries_none rfl]
  · rw [deliveries_take hd hdk, deliveries_none hnone]

/-- An arrival before the last fragment. -/
theorem DeliveredOnce.later
    (hskip : ∀ d, (netReassemble a.now a.frag slots).2 = .delivered d → d.key.same k = false)
    (h : DeliveredOnce k payload total (netReassemble a.now a.frag slots).1 as) :
    DeliveredOnce k payload total slots (a :: as) := by
  obtain ⟨pre, x, post, d, rfl, hx, hpost, hpre, hat, hall, hrest⟩ := h
  refine ⟨a :: pre, x, post, d, rfl, hx, hpost, ?_, ?_, ?_, hrest⟩
  · rw [deliveries_skip hskip, hpre]
  · rw [List.cons_append, deliveries_skip hskip, hat]
  · rw [deliveries_skip hskip, hall]

end Once

/-- A context is left alone by the fragments of other keys. -/
theorem Step.frame {now i : Nat} {m : Fragment} {slots : FragTable} {r : FragTable × Verdict}
    {k : FragKey} (h : Step now m slots r) (hi : InUse slots k i)
    (hnow : now < (slots i).expires) (hother : m.invalid = true ∨ m.key.same k = false) :
    r.1 i = slots i := by
  cases h with
  | invalid _ => rfl
  | dropped _ _ _ => exact hi.expireAll hnow
  | @accepted j f f' v hv htarget _ =>
      have hk : m.key.same k = false := hother.resolve_left (by simp [hv])
      have hij : i ≠ j := by
        rintro rfl
        cases htarget with
        | found hsame =>
            rw [InUse, hi.expireAll hnow] at hsame
            rw [FragKey.same_trans (FragKey.same_symm hsame.2.2) hi.2.2] at hk
            cases hk
        | opened _ hfree _ =>
            rw [hi.expireAll hnow, hi.2.1] at hfree
            cases hfree
      change Function.update (expireAll now slots) j f' i = slots i
      rw [Function.update_of_ne hij, hi.expireAll hnow]

/-- **The run of a datagram** whose context is open. -/
theorem pending_run {k : FragKey} {payload : Bytes} {total i : Nat} : ∀ {as : List Arrival}
    {slots : FragTable} {parts : List Fragment}, Unique slots → InUse slots k i →
    Holds (slots i) parts → Whole k payload total (parts ++ fragsOf k as) → fragsOf k as ≠ [] →
    (∀ y ∈ as, y.now < (slots i).expires) → DeliveredOnce k payload total slots as := by
  intro as
  induction as with
  | nil => exact fun _ _ _ _ hne _ => absurd rfl hne
  | cons a as ih =>
      intro slots parts hu hi hholds hw hne htime
      have hstep : Step a.now a.frag slots (netReassemble a.now a.frag slots) := netReassemble_step
      have hnow := htime a List.mem_cons_self
      have hlater : ∀ y ∈ as, y.now < (slots i).expires :=
        fun y hy => htime y (List.mem_cons_of_mem a hy)
      rcases own_or_other a k with ⟨hv, hk⟩ | hother
      · rw [fragsOf_cons, fragsOf_own hv hk, List.singleton_append] at hw
        have hin : InUse (expireAll a.now slots) a.frag.key i := by
          rw [InUse, hi.expireAll hnow, FragKey.same_congr hk]
          exact hi
        -- the fragment can go to no other context
        have honly : ∀ j f, Target a.now a.frag.key (expireAll a.now slots) j f →
            j = i ∧ f = slots i := by
          intro j f htarget
          cases htarget with
          | found hj =>
              have hji := hu a.frag.key j i hj.of_expireAll.2.1 hin.of_expireAll.2.1
              exact ⟨hji, by rw [hji, hi.expireAll hnow]⟩
          | opened _ _ hnone => exact absurd hin (hnone i)
        rcases hstep.own hw (.inl ⟨i, hin⟩) (fun j f h => (honly j f h).2 ▸ hholds) with
          ⟨htodo, d, hd, hkey, hsize, hbytes⟩ | ⟨htodo, hkept, j, f, htarget, hr, hput⟩
        · exact .now hv hk htodo hd hkey hsize hbytes
        · obtain ⟨rfl, rfl⟩ := honly j f htarget
          refine .later (fun d hd => ?_) ?_
          · rw [hkept] at hd
            cases hd
          · have hat : (netReassemble a.now a.frag slots).1 j = (slots j).put a.frag := by
              rw [hr, Function.update_self]
            have hw' : Whole k payload total ((parts ++ [a.frag]) ++ fragsOf k as) := by
              simpa using hw
            refine ih (hstep.unique hu) ?_ ?_ hw' htodo ?_
            · rw [InUse, hat]
              exact hi
            · rw [hat]
              exact hput
            · rw [hat]
              exact hlater
      · have hframe := hstep.frame hi hnow hother
        rw [fragsOf_cons, fragsOf_other hother, List.nil_append] at hw hne
        refine .later (fun d hd => ?_) (ih (hstep.unique hu) ?_ ?_ hw hne ?_)
        · obtain ⟨hv, -, -, -, -, -, -, rfl⟩ := hstep.delivered hd
          exact hother.resolve_left (by simp [hv])
        · rw [InUse, hframe]
          exact hi
        · rw [hframe]
          exact hholds
        · rw [hframe]
          exact hlater

/-- **A datagram is delivered once**, from its first fragment on. -/
theorem datagram_delivered {k : FragKey} {payload : Bytes} {total : Nat} {frs : List Fragment}
    {hist : List Arrival} {first : Arrival} {rest : List Arrival}
    (hcut : Cut k payload total 0 frs) (htotal : total ≤ netFragBytes)
    (hfrs : (fragsOf k (first :: rest)).Perm frs) (hfirst : fragsOf k [first] = [first.frag])
    (hnone : ∀ i, ¬ HoldsKey (tableAfter emptyTable hist) first.now k i)
    (hroom : ∃ i < netFrags, ¬ ((tableAfter emptyTable hist i).used = true ∧
      first.now < (tableAfter emptyTable hist i).expires))
    (htime : ∀ y ∈ rest, y.now < first.now + 30000) :
    DeliveredOnce k payload total (tableAfter emptyTable hist) (first :: rest) := by
  have hu := (tableOk hist).unique
  generalize tableAfter emptyTable hist = slots at hu hnone hroom ⊢
  have hw := (hcut.whole htotal).perm hfrs
  rw [fragsOf_cons, hfirst] at hw
  have hk : first.frag.key.same k = true := hw.own first.frag List.mem_cons_self
  have hv : first.frag.invalid = false := hw.valid first.frag List.mem_cons_self
  have hstep : Step first.now first.frag slots (netReassemble first.now first.frag slots) :=
    netReassemble_step
  -- no slot holds the key, so the first fragment opens one
  have hopened : ∀ i f, Target first.now first.frag.key (expireAll first.now slots) i f →
      f = freshContext first.now first.frag.key := by
    intro i f htarget
    cases htarget with
    | found h =>
        refine absurd (holdsKey_iff.mpr ?_) (hnone i)
        rw [InUse, ← FragKey.same_congr hk]
        exact h
    | opened _ _ _ => rfl
  have hfree : ∃ i < netFrags, (expireAll first.now slots i).used = false := by
    obtain ⟨i, hi, hdead⟩ := hroom
    refine ⟨i, hi, ?_⟩
    rw [expireAll, if_pos hi]
    refine Bool.eq_false_iff.mpr fun hused => hdead ?_
    obtain ⟨-, hu, hnow⟩ := expire_used hused
    exact ⟨hu, hnow⟩
  have hw' : Whole k payload total ([] ++ first.frag :: fragsOf k rest) := hw
  rcases hstep.own hw' (.inr hfree) (fun i f h => hopened i f h ▸ holds_fresh) with
    ⟨htodo, d, hd, hkey, hsize, hbytes⟩ | ⟨htodo, hkept, i, f, htarget, hr, hput⟩
  · exact .now hv hk htodo hd hkey hsize hbytes
  · obtain rfl := hopened i f htarget
    refine .later (fun d hd => ?_) ?_
    · rw [hkept] at hd
      cases hd
    · have hat : (netReassemble first.now first.frag slots).1 i =
          (freshContext first.now first.frag.key).put first.frag := by
        rw [hr, Function.update_self]
      refine pending_run (i := i) (hstep.unique hu) ?_ ?_ hw htodo ?_
      · rw [InUse, hat]
        exact ⟨htarget.lt, rfl, hk⟩
      · rw [hat]
        exact hput
      · rw [hat]
        exact htime

/-- **Reassembly.**  A datagram of at most 8192 bytes, cut into fragments that arrive in any order
with anything between them, is delivered once, by the last of them, with its own bytes: provided
that no older context of its key is alive and a slot is free when the first of them arrives, and
that the others follow before the context expires.  Whatever arrives, what is delivered is tiled by
the fragments of its key that arrived since its context was opened. -/
theorem reassembly :
    (∀ (k : FragKey) (payload : Bytes) (total : Nat) (frs : List Fragment) (hist : List Arrival)
      (first : Arrival) (rest : List Arrival), Cut k payload total 0 frs → total ≤ netFragBytes →
      (fragsOf k (first :: rest)).Perm frs → fragsOf k [first] = [first.frag] →
      (∀ i, ¬ HoldsKey (tableAfter emptyTable hist) first.now k i) →
      (∃ i < netFrags, ¬ ((tableAfter emptyTable hist i).used = true ∧
        first.now < (tableAfter emptyTable hist i).expires)) →
      (∀ y ∈ rest, y.now < first.now + 30000) →
      DeliveredOnce k payload total (tableAfter emptyTable hist) (first :: rest)) ∧
    ∀ (as : List Arrival) (x : Arrival) (d : Delivery),
      (netReassemble x.now x.frag (tableAfter emptyTable as)).2 = .delivered d →
      d.key = x.frag.key ∧ ∃ i before first rest, Since (as ++ [x]) before first rest d.key i ∧
        Tiles (fragsOf d.key (first :: rest)) d :=
  ⟨fun _ _ _ _ _ _ _ hcut htotal hfrs hfirst hnone hroom htime =>
    datagram_delivered hcut htotal hfrs hfirst hnone hroom htime, fun _ _ _ => delivered_tiles⟩

/-- A fragment of a datagram of zeroes. -/
def zeroFragment (offset n : Nat) (more : Bool) : Fragment :=
  ⟨⟨0, 4, 1, 17, fun _ => 0, fun _ => 0⟩, offset, more, fun _ => 0, n⟩

/-- The later one of two fragments arrives first; and the last of its bytes are delivered. -/
theorem reassembly_reversed :
    DeliveredOnce (zeroFragment 0 8 true).key (fun _ => 0) 9 (tableAfter emptyTable [])
      [⟨5, zeroFragment 8 1 false⟩, ⟨7, zeroFragment 0 8 true⟩] ∧
    ∃ d, (netReassemble 5 (zeroFragment 0 3 false) (tableAfter emptyTable [])).2 = .delivered d ∧
      d.key = (zeroFragment 0 3 false).key ∧ ∃ i before first rest,
        Since ([] ++ [⟨5, zeroFragment 0 3 false⟩]) before first rest d.key i ∧
        Tiles (fragsOf d.key (first :: rest)) d := by
  have hnone : ∀ k i, ¬ HoldsKey (tableAfter emptyTable []) 5 k i := by
    rintro k i ⟨-, hu, -⟩
    cases hu
  have hroom : ∃ i < netFrags, ¬ ((tableAfter emptyTable [] i).used = true ∧
      5 < (tableAfter emptyTable [] i).expires) := ⟨0, by decide, fun h => by cases h.1⟩
  constructor
  · refine reassembly.1 _ _ 9 [zeroFragment 0 8 true, zeroFragment 8 1 false] [] _ _ ?_ (by decide)
      ?_ ?_ (hnone _) hroom (by decide)
    · refine .cons (FragKey.same_refl _) rfl rfl (by decide) rfl (fun _ _ => rfl) ?_
      exact .last (FragKey.same_refl _) rfl rfl (by decide) rfl fun _ _ => rfl
    · exact List.Perm.swap ..
    · exact fragsOf_own (by decide) (FragKey.same_refl _)
  · have hw : Whole (zeroFragment 0 3 false).key (fun _ => 0) 3 ([] ++ [zeroFragment 0 3 false]) :=
      Cut.whole (.last (FragKey.same_refl _) rfl rfl (by decide) rfl fun _ _ => rfl) (by decide)
    have hstep : Step 5 (zeroFragment 0 3 false) (tableAfter emptyTable []) _ := netReassemble_step
    have hopened : ∀ i f, Target 5 (zeroFragment 0 3 false).key
        (expireAll 5 (tableAfter emptyTable [])) i f → Holds f [] := by
      intro i f htarget
      cases htarget with
      | found h => exact absurd (holdsKey_iff.mpr h) (hnone _ i)
      | opened _ _ _ => exact holds_fresh
    rcases hstep.own hw (.inr ⟨0, by decide, rfl⟩) hopened with ⟨-, d, hd, -⟩ | ⟨htodo, -⟩
    · exact ⟨d, hd, reassembly.2 [] ⟨5, zeroFragment 0 3 false⟩ d hd⟩
    · exact absurd rfl htodo

end Efishell.Reassembly
