import Efishell.Net.AddressText
import Efishell.Support.Components
import Mathlib.Tactic.Ring

/-!
# Networking — the text of an address reads back

`kNetParse` accepts the strings of the grammar and no others, and returns the address that the
grammar gives them (`parse4_ok`, `parse6_ok`); what `kNetFormat` writes is one of them
(`format_text`), so that it reads back as the address it was written from (`format_parse`).

* `parse4_ok`, `parse6_ok`: the texts that `k_net_parse` accepts, and their addresses.
* `address_text`: what `k_net_format` writes fits, and reads back.
-/

namespace Efishell

open Components

/-! ### Digits -/

/-- A digit reads back. -/
theorem hexDigit_digitChar {v : Nat} (h : v < 16) : hexDigit (digitChar v) = v := by
  have : ∀ v < 16, hexDigit (digitChar v) = v := by decide
  exact this v h

theorem hexDigit_colon : hexDigit colon = 99 := rfl

theorem hexDigit_fullStop : hexDigit fullStop = 99 := rfl

/-- The decimal digits are the characters that `net_parse4` takes. -/
theorem hexDigit_lt_ten {c : UInt8} : hexDigit c < 10 ↔ 48 ≤ c.toNat ∧ c.toNat ≤ 57 := by
  unfold hexDigit
  split
  · omega
  · split
    · omega
    · split <;> omega

/-- A decimal digit's value. -/
theorem hexDigit_decimal {c : UInt8} (h : hexDigit c < 10) : hexDigit c = c.toNat - 48 := by
  rw [hexDigit, if_pos (hexDigit_lt_ten.mp h)]

@[simp] theorem textValue_nil (base : Nat) : textValue base [] = 0 := rfl

/-- The first digit weighs most. -/
theorem textValue_cons (base : Nat) (c : UInt8) (g : List UInt8) :
    textValue base (c :: g) = hexDigit c * base ^ g.length + textValue base g := by
  have hfold : ∀ (g : List UInt8) (v : Nat), g.foldl (fun v c => base * v + hexDigit c) v =
      v * base ^ g.length + textValue base g := by
    intro g
    induction g with
    | nil => simp [textValue]
    | cons d g ih =>
        intro v
        rw [textValue, List.foldl_cons, List.foldl_cons, ih, ih, List.length_cons]
        ring
  rw [textValue, List.foldl_cons, hfold, Nat.mul_zero, Nat.zero_add]

/-- The value of a string of digits, read after the value `v` of those before it. -/
def valueFrom (base v : Nat) (g : List UInt8) : Nat := g.foldl (fun v c => base * v + hexDigit c) v

@[simp] theorem valueFrom_zero (base : Nat) (g : List UInt8) :
    valueFrom base 0 g = textValue base g := rfl

@[simp] theorem valueFrom_cons (base v : Nat) (c : UInt8) (g : List UInt8) :
    valueFrom base v (c :: g) = valueFrom base (base * v + hexDigit c) g := rfl

/-- More digits never make the value smaller. -/
theorem le_valueFrom {base : Nat} (hb : 0 < base) (v : Nat) (g : List UInt8) :
    v ≤ valueFrom base v g := by
  induction g generalizing v with
  | nil => exact le_refl v
  | cons c g ih =>
      calc v ≤ base * v := Nat.le_mul_of_pos_left v hb
        _ ≤ base * v + hexDigit c := Nat.le_add_right _ _
        _ ≤ valueFrom base v (c :: g) := ih _

/-! ### A field -/

/-- What `net_parse4` reads as one field: the digits up to the first character that is none. -/
theorem parseField_ok {s rest : List UInt8} : ∀ {x n x' n' : Nat}, x ≤ 255 → n ≤ 3 →
    (parseField x n s = .ok (x', n', rest) ↔
      ∃ g, s = g ++ rest ∧ (∀ c ∈ g, hexDigit c < 10) ∧ (∀ c ∈ rest.head?, ¬ hexDigit c < 10) ∧
        n' = n + g.length ∧ n' ≤ 3 ∧ x' = valueFrom 10 x g ∧ x' ≤ 255) := by
  induction s with
  | nil =>
      intro x n x' n' hx hn
      simp only [parseField, Except.ok.injEq, Prod.mk.injEq]
      constructor
      · rintro ⟨rfl, rfl, rfl⟩
        exact ⟨[], rfl, by simp, by simp, rfl, hn, rfl, hx⟩
      · rintro ⟨g, hs, -, -, rfl, -, rfl, -⟩
        obtain ⟨rfl, rfl⟩ := List.append_eq_nil_iff.mp hs.symm
        exact ⟨rfl, rfl, rfl⟩
  | cons c s ih =>
      intro x n x' n' hx hn
      rw [parseField]
      by_cases hc : hexDigit c < 10
      · rw [if_pos (hexDigit_lt_ten.mp hc)]
        have hval : x * 10 + (c.toNat - 48) = 10 * x + hexDigit c := by
          rw [hexDigit_decimal hc, Nat.mul_comm]
        simp only [hval]
        -- a field of four digits, or above 255, stays one however it goes on
        by_cases hbad : 3 < n + 1 ∨ 255 < 10 * x + hexDigit c
        · rw [if_pos hbad]
          refine iff_of_false (by simp) ?_
          rintro ⟨g, hs, -, hrest, hlen, hn', hx', hle⟩
          cases g with
          | nil =>
              rw [List.nil_append] at hs
              exact hrest c (by rw [← hs]; simp) hc
          | cons d g =>
              obtain ⟨rfl, rfl⟩ := List.cons.inj hs
              have hmono := @le_valueFrom 10 (by decide) (10 * x + hexDigit c) g
              rw [valueFrom_cons] at hx'
              rw [List.length_cons] at hlen
              omega
        · rw [if_neg hbad, ih (by omega) (by omega)]
          constructor
          · rintro ⟨g, rfl, hg, hrest, rfl, hn', rfl, hle⟩
            refine ⟨c :: g, rfl, ?_, hrest, by simp; omega, hn', rfl, hle⟩
            simpa [hc] using hg
          · rintro ⟨g, hs, hg, hrest, hlen, hn', rfl, hle⟩
            cases g with
            | nil =>
                rw [List.nil_append] at hs
                exact absurd hc (hrest c (by rw [← hs]; simp))
            | cons d g =>
                obtain ⟨rfl, rfl⟩ := List.cons.inj hs
                refine ⟨g, rfl, fun e he => hg e (List.mem_cons_of_mem _ he), hrest, ?_, hn', rfl,
                  hle⟩
                rw [List.length_cons] at hlen
                omega
      · rw [if_neg (fun h => hc (hexDigit_lt_ten.mpr h))]
        simp only [Except.ok.injEq, Prod.mk.injEq]
        constructor
        · rintro ⟨rfl, rfl, rfl⟩
          exact ⟨[], rfl, by simp, by simpa using hc, rfl, hn, rfl, hx⟩
        · rintro ⟨g, hs, hg, -, rfl, -, rfl, -⟩
          cases g with
          | nil => exact ⟨rfl, rfl, hs⟩
          | cons d g =>
              obtain ⟨rfl, rfl⟩ := List.cons.inj hs
              exact absurd (hg c (by simp)) hc

/-- A field and what follows it. -/
theorem parseField_field {s rest : List UInt8} {x n : Nat} :
    parseField 0 0 s = .ok (x, n, rest) ∧ n ≠ 0 ↔
      ∃ g, IsField g ∧ s = g ++ rest ∧ x = textValue 10 g ∧ n = g.length ∧
        ∀ c ∈ rest.head?, ¬ hexDigit c < 10 := by
  rw [parseField_ok (by decide) (by decide)]
  constructor
  · rintro ⟨⟨g, rfl, hg, hrest, hn, hn', hx, hle⟩, hne⟩
    rw [Nat.zero_add] at hn
    rw [valueFrom_zero] at hx
    exact ⟨g, ⟨fun h => hne (by rw [hn, h]; rfl), hn ▸ hn', hg, hx ▸ hle⟩, rfl, hx, hn, hrest⟩
  · rintro ⟨g, hg, rfl, rfl, rfl, hrest⟩
    exact ⟨⟨g, rfl, hg.digits, hrest, (Nat.zero_add _).symm, hg.short, rfl, hg.small⟩,
      fun h => hg.ne_nil (List.length_eq_zero_iff.mp h)⟩

/-- The values from the `i`-th on are those of `xs`, as far as there are any. -/
def writeFrom {α : Type} (i : Nat) (xs : List α) (out : Nat → α) : Nat → α := fun j =>
  if i ≤ j then xs.getD (j - i) (out j) else out j

@[simp] theorem writeFrom_nil {α : Type} (i : Nat) (out : Nat → α) : writeFrom i [] out = out := by
  funext j
  simp [writeFrom]

theorem writeFrom_cons {α : Type} (i : Nat) (x : α) (xs : List α) (out : Nat → α) :
    writeFrom i (x :: xs) out = writeFrom (i + 1) xs (Function.update out i x) := by
  funext j
  simp only [writeFrom, Function.update_apply]
  by_cases hj : j = i
  · subst hj
    simp
  · by_cases h : i + 1 ≤ j
    · obtain ⟨k, rfl⟩ : ∃ k, j = i + (k + 1) := ⟨j - i - 1, by omega⟩
      rw [if_pos (by omega), if_pos h, if_neg hj, Nat.add_sub_cancel_left,
        show i + (k + 1) - (i + 1) = k by omega, List.getD_cons_succ]
    · rw [if_neg (by omega), if_neg h, if_neg hj]

/-- One round of the loop over the fields. -/
theorem parse4Loop_succ {i left : Nat} {s : List UInt8} {out out' : Bytes} :
    parse4Loop i (left + 1) s out = .ok out' ↔
      ∃ g rest, IsField g ∧ s = g ++ rest ∧
        ((i < 3 ∧ ∃ s', rest = fullStop :: s' ∧
            parse4Loop (i + 1) left s' (Function.update out i (UInt8.ofNat (textValue 10 g))) =
              .ok out') ∨
          (¬ i < 3 ∧ rest = [] ∧
            parse4Loop (i + 1) left [] (Function.update out i (UInt8.ofNat (textValue 10 g))) =
              .ok out')) := by
  rw [parse4Loop]
  constructor
  · intro h
    split at h
    · cases h
    · rename_i x n rest hfield
      obtain ⟨hn, h⟩ := ok_guard.mp h
      obtain ⟨g, hg, rfl, rfl, -, -⟩ := parseField_field.mp ⟨hfield, hn⟩
      refine ⟨g, rest, hg, rfl, ?_⟩
      by_cases hi : i < 3
      · rw [if_pos hi] at h
        cases rest with
        | nil => cases h
        | cons c s' =>
            obtain ⟨hc, h⟩ := ok_guard.mp h
            exact .inl ⟨hi, s', by rw [not_not.mp hc], h⟩
      · rw [if_neg hi] at h
        obtain ⟨hnil, h⟩ := ok_guard.mp h
        rw [not_not.mp hnil] at h
        exact .inr ⟨hi, not_not.mp hnil, h⟩
  · rintro ⟨g, rest, hg, rfl, h⟩
    have hrest : ∀ c ∈ rest.head?, ¬ hexDigit c < 10 := by
      rcases h with ⟨-, s', rfl, -⟩ | ⟨-, rfl, -⟩
      · simp [hexDigit_fullStop]
      · simp
    obtain ⟨hfield, hn⟩ := parseField_field.mpr ⟨g, hg, rfl, rfl, rfl, hrest⟩
    simp only [hfield, if_neg hn]
    rcases h with ⟨hi, s', rfl, h⟩ | ⟨hi, rfl, h⟩
    · simpa only [if_pos hi, ne_eq, not_true_eq_false, if_false] using h
    · simpa only [if_neg hi, ne_eq, not_true_eq_false, if_false] using h

/-- The byte of a field. -/
def fieldByte (g : List UInt8) : UInt8 := UInt8.ofNat (textValue 10 g)

/-- The loop over the fields takes as many as are left, with a full stop between them. -/
theorem parse4Loop_ok : ∀ {left i : Nat} {s : List UInt8} {out out' : Bytes}, i + left = 3 →
    (parse4Loop i (left + 1) s out = .ok out' ↔
      ∃ gs : List (List UInt8), gs.length = left + 1 ∧ (∀ g ∈ gs, IsField g) ∧
        s = [fullStop].intercalate gs ∧ out' = writeFrom i (gs.map fieldByte) out) := by
  intro left
  induction left with
  | zero =>
      rintro i s out out' rfl
      rw [parse4Loop_succ]
      constructor
      · rintro ⟨g, rest, hg, rfl, ⟨h, -⟩ | ⟨-, rfl, h⟩⟩
        · omega
        · refine ⟨[g], rfl, by simpa using hg, by simp, ?_⟩
          rw [List.map_singleton, writeFrom_cons, writeFrom_nil, ← Except.ok.inj h, fieldByte]
      · rintro ⟨gs, hlen, hgs, rfl, rfl⟩
        obtain ⟨g, rfl⟩ := List.length_eq_one_iff.mp hlen
        refine ⟨g, [], hgs g (by simp), by simp, .inr ⟨by omega, rfl, ?_⟩⟩
        rw [List.map_singleton, writeFrom_cons, writeFrom_nil, fieldByte]
        rfl
  | succ left ih =>
      intro i s out out' hi
      rw [parse4Loop_succ]
      constructor
      · rintro ⟨g, rest, hg, rfl, ⟨-, s', rfl, h⟩ | ⟨h, -⟩⟩
        · obtain ⟨gs, hlen, hgs, rfl, rfl⟩ := (ih (by omega)).mp h
          refine ⟨g :: gs, by rw [List.length_cons, hlen], by simpa [hg] using hgs, ?_, ?_⟩
          · rw [intercalate_cons (by rintro rfl; simp at hlen)]
          · rw [List.map_cons, writeFrom_cons, fieldByte]
        · omega
      · rintro ⟨gs, hlen, hgs, rfl, rfl⟩
        obtain ⟨g, gs, rfl⟩ := List.exists_cons_of_length_eq_add_one hlen
        rw [List.length_cons, Nat.add_right_cancel_iff] at hlen
        refine ⟨g, fullStop :: [fullStop].intercalate gs, hgs g (by simp), ?_,
          .inl ⟨by omega, _, rfl, (ih (by omega)).mpr ⟨gs, hlen, ?_, rfl, ?_⟩⟩⟩
        · rw [intercalate_cons (by rintro rfl; simp at hlen)]
        · exact fun g' hg' => hgs g' (List.mem_cons_of_mem _ hg')
        · rw [List.map_cons, writeFrom_cons, fieldByte]

/-- The texts `net_parse4` accepts, and their bytes. -/
theorem netParse4_ok {s : List UInt8} {out : Bytes} :
    netParse4 s (fun _ => 0) = .ok out ↔ ∃ xs, IPv4Text s xs ∧ out = fieldBytes xs := by
  have hbytes : ∀ gs : List (List UInt8),
      writeFrom 0 (gs.map fieldByte) (fun _ => 0) = fieldBytes (gs.map (textValue 10)) := by
    intro gs
    funext j
    rw [writeFrom, if_pos (Nat.zero_le j), Nat.sub_zero, fieldBytes]
    simp only [List.getD_eq_getElem?_getD, List.getElem?_map]
    cases gs[j]? <;> rfl
  rw [netParse4, parse4Loop_ok rfl]
  constructor
  · rintro ⟨gs, hlen, hgs, rfl, rfl⟩
    exact ⟨_, .fields hlen hgs, hbytes gs⟩
  · rintro ⟨xs, htext, rfl⟩
    cases htext with
    | @fields gs hlen hgs => exact ⟨gs, hlen, hgs, rfl, (hbytes gs).symm⟩

/-! ### A group -/

/-- What `k_net_parse` reads as one group: the digits up to a colon or to the end. -/
theorem parseGroup_ok {s rest : List UInt8} : ∀ {v digits v' digits' : Nat}, digits ≤ 4 →
    (parseGroup v digits s = .ok (v', digits', rest) ↔
      ∃ g, s = g ++ rest ∧ (∀ c ∈ g, hexDigit c < 16) ∧ (∀ c ∈ rest.head?, c = colon) ∧
        digits' = digits + g.length ∧ digits' ≤ 4 ∧ v' = valueFrom 16 v g) := by
  induction s with
  | nil =>
      intro v digits v' digits' hd
      simp only [parseGroup, Except.ok.injEq, Prod.mk.injEq]
      constructor
      · rintro ⟨rfl, rfl, rfl⟩
        exact ⟨[], rfl, by simp, by simp, rfl, hd, rfl⟩
      · rintro ⟨g, hs, -, -, rfl, -, rfl⟩
        obtain ⟨rfl, rfl⟩ := List.append_eq_nil_iff.mp hs.symm
        exact ⟨rfl, rfl, rfl⟩
  | cons c s ih =>
      intro v digits v' digits' hd
      rw [parseGroup]
      by_cases hc : c = colon
      · subst hc
        rw [if_pos rfl]
        simp only [Except.ok.injEq, Prod.mk.injEq]
        constructor
        · rintro ⟨rfl, rfl, rfl⟩
          exact ⟨[], rfl, by simp, by simp, rfl, hd, rfl⟩
        · rintro ⟨g, hs, hg, -, rfl, -, rfl⟩
          cases g with
          | nil => exact ⟨rfl, rfl, hs⟩
          | cons d g =>
              obtain ⟨rfl, rfl⟩ := List.cons.inj hs
              have := hg colon (by simp)
              rw [hexDigit_colon] at this
              omega
      · rw [if_neg hc]
        -- a character that is no colon has to be a digit of the group
        have hsplit : ∀ g, c :: s = g ++ rest → (∀ d ∈ rest.head?, d = colon) →
            ∃ g', g = c :: g' ∧ s = g' ++ rest := by
          intro g hs hrest
          cases g with
          | nil =>
              rw [List.nil_append] at hs
              exact absurd (hrest c (by rw [← hs]; simp)) hc
          | cons d g =>
              obtain ⟨rfl, rfl⟩ := List.cons.inj hs
              exact ⟨g, rfl, rfl⟩
        by_cases hbad : 15 < hexDigit c ∨ 4 < digits + 1
        · rw [if_pos hbad]
          refine iff_of_false (by simp) ?_
          rintro ⟨g, hs, hg, hrest, hlen, hle, -⟩
          obtain ⟨g', rfl, -⟩ := hsplit g hs hrest
          have := hg c (by simp)
          rw [List.length_cons] at hlen
          omega
        · rw [if_neg hbad, ih (by omega)]
          constructor
          · rintro ⟨g, rfl, hg, hrest, rfl, hle, rfl⟩
            refine ⟨c :: g, rfl, ?_, hrest, by simp; omega, hle, rfl⟩
            have : hexDigit c < 16 := by omega
            simpa [this] using hg
          · rintro ⟨g, hs, hg, hrest, hlen, hle, rfl⟩
            obtain ⟨g', rfl, rfl⟩ := hsplit g hs hrest
            refine ⟨g', rfl, fun d hd => hg d (List.mem_cons_of_mem _ hd), hrest, ?_, hle, rfl⟩
            rw [List.length_cons] at hlen
            omega

/-- A group and what follows it. -/
theorem parseGroup_group {s rest : List UInt8} {v digits : Nat} :
    parseGroup 0 0 s = .ok (v, digits, rest) ∧ digits ≠ 0 ↔
      ∃ g, IsGroup g ∧ s = g ++ rest ∧ v = textValue 16 g ∧ digits = g.length ∧
        ∀ c ∈ rest.head?, c = colon := by
  rw [parseGroup_ok (by decide)]
  constructor
  · rintro ⟨⟨g, rfl, hg, hrest, hd, hd', hv⟩, hne⟩
    rw [Nat.zero_add] at hd
    exact ⟨g, ⟨fun h => hne (by rw [hd, h]; rfl), hd ▸ hd', hg⟩, rfl, hv, hd, hrest⟩
  · rintro ⟨g, hg, rfl, rfl, rfl, hrest⟩
    exact ⟨⟨g, rfl, hg.digits, hrest, (Nat.zero_add _).symm, hg.short, rfl⟩,
      fun h => hg.ne_nil (List.length_eq_zero_iff.mp h)⟩

/-- What the loop over the groups reads when `n` of them have been read: the groups, and the gap
before and after. -/
inductive Groups : Nat → Option Nat → List UInt8 → List (List UInt8) → Option Nat → Prop where
  | nil {n : Nat} {gap : Option Nat} : Groups n gap [] [] gap
  | last {n : Nat} {gap : Option Nat} {g : List UInt8} : IsGroup g → Groups n gap g [g] gap
  | more {n : Nat} {gap gap' : Option Nat} {g s : List UInt8} {gs : List (List UInt8)} :
      IsGroup g → s ≠ [] → Groups (n + 1) gap s gs gap' →
      Groups n gap (g ++ colon :: s) (g :: gs) gap'
  | gap {n : Nat} {gap' : Option Nat} {g s : List UInt8} {gs : List (List UInt8)} :
      IsGroup g → Groups (n + 1) (some (n + 1)) s gs gap' →
      Groups n none (g ++ colon :: colon :: s) (g :: gs) gap'

/-- A group does not start with a colon. -/
theorem IsGroup.head_ne {g s : List UInt8} (h : IsGroup g) : ∀ s', g ++ s ≠ colon :: s' := by
  intro s' hs
  obtain ⟨c, g, rfl⟩ := List.exists_cons_of_ne_nil h.ne_nil
  have hc := h.digits c (by simp)
  rw [(List.cons.inj hs).1, hexDigit_colon] at hc
  omega

/-- The text of groups does not begin with a colon. -/
theorem Groups.head_ne {n : Nat} {gap gap' : Option Nat} {s : List UInt8} {gs : List (List UInt8)}
    (h : Groups n gap s gs gap') : ∀ s', s ≠ colon :: s' := by
  intro s'
  cases h with
  | nil => simp
  | last hg => simpa using hg.head_ne (s := []) s'
  | more hg _ _ => exact hg.head_ne s'
  | gap hg _ => exact hg.head_ne s'

/-- How the reading goes on behind a group. -/
theorem afterGroup_ok {n : Nat} {gap gap' : Option Nat} {rest s : List UInt8}
    (hrest : ∀ c ∈ rest.head?, c = colon) :
    afterGroup n gap rest = .ok (s, gap') ↔
      (rest = [] ∧ s = [] ∧ gap' = gap) ∨
      (rest = colon :: s ∧ s ≠ [] ∧ (∀ s', s ≠ colon :: s') ∧ gap' = gap) ∨
      (rest = colon :: colon :: s ∧ gap = none ∧ gap' = some n) := by
  match rest with
  | [] =>
      simp only [afterGroup, Except.ok.injEq, Prod.mk.injEq]
      constructor
      · rintro ⟨rfl, rfl⟩
        exact .inl ⟨trivial, rfl, rfl⟩
      · rintro (⟨-, rfl, rfl⟩ | ⟨h, -⟩ | ⟨h, -⟩)
        · exact ⟨rfl, rfl⟩
        · cases h
        · cases h
  | [c] =>
      simp only [afterGroup]
      refine iff_of_false (by simp) ?_
      rintro (⟨h, -⟩ | ⟨h, hs, -⟩ | ⟨h, -⟩)
      · cases h
      · exact hs (List.cons.inj h).2.symm
      · cases h
  | x :: c :: t =>
      obtain rfl : x = colon := hrest x (by simp)
      rw [afterGroup]
      by_cases hc : c = colon
      · subst hc
        rw [if_pos rfl]
        cases gap with
        | some k =>
            refine iff_of_false (by simp) ?_
            rintro (⟨h, -⟩ | ⟨h, -, hne, -⟩ | ⟨-, h, -⟩)
            · cases h
            · exact hne t (List.cons.inj h).2.symm
            · cases h
        | none =>
            simp only [Option.isSome_none, Bool.false_eq_true, if_false, Except.ok.injEq,
              Prod.mk.injEq]
            constructor
            · rintro ⟨rfl, rfl⟩
              exact .inr (.inr ⟨rfl, trivial, rfl⟩)
            · rintro (⟨h, -⟩ | ⟨h, -, hne, -⟩ | ⟨h, -, rfl⟩)
              · cases h
              · exact absurd (List.cons.inj h).2.symm (hne t)
              · exact ⟨(List.cons.inj (List.cons.inj h).2).2, rfl⟩
      · -- one colon, and a group behind it
        rw [if_neg hc]
        simp only [Except.ok.injEq, Prod.mk.injEq]
        constructor
        · rintro ⟨rfl, rfl⟩
          exact .inr (.inl ⟨rfl, by simp, by simp [hc], rfl⟩)
        · rintro (⟨h, -⟩ | ⟨h, -, -, rfl⟩ | ⟨h, -⟩)
          · cases h
          · exact ⟨(List.cons.inj h).2, rfl⟩
          · exact absurd (List.cons.inj (List.cons.inj h).2).1 hc

theorem Groups.of_nil {n : Nat} {gap gap' : Option Nat} {gs : List (List UInt8)} :
    Groups n gap [] gs gap' ↔ gs = [] ∧ gap' = gap := by
  constructor
  · intro h
    generalize hs : ([] : List UInt8) = s at h
    cases h with
    | nil => exact ⟨rfl, rfl⟩
    | last hg => exact absurd hs.symm hg.ne_nil
    | more _ _ _ => simp at hs
    | gap _ _ => simp at hs
  · rintro ⟨rfl, rfl⟩
    exact .nil

/-- The first group of several characters, and the way on. -/
theorem groups_step {n : Nat} {gap gap' : Option Nat} {s : List UInt8} {gs : List (List UInt8)}
    (hs : s ≠ []) :
    Groups n gap s gs gap' ↔ ∃ g rest gs' s₁ gap₁, IsGroup g ∧ s = g ++ rest ∧ gs = g :: gs' ∧
      (∀ c ∈ rest.head?, c = colon) ∧ afterGroup (n + 1) gap rest = .ok (s₁, gap₁) ∧
      Groups (n + 1) gap₁ s₁ gs' gap' := by
  constructor
  · intro h
    cases h with
    | nil => exact absurd rfl hs
    | last hg => exact ⟨s, [], [], [], gap, hg, by simp, rfl, by simp, rfl, .nil⟩
    | more hg hne h =>
        refine ⟨_, _, _, _, gap, hg, rfl, rfl, by simp, ?_, h⟩
        exact (afterGroup_ok (by simp)).mpr (.inr (.inl ⟨rfl, hne, h.head_ne, rfl⟩))
    | gap hg h =>
        refine ⟨_, _, _, _, some (n + 1), hg, rfl, rfl, by simp, ?_, h⟩
        exact (afterGroup_ok (by simp)).mpr (.inr (.inr ⟨rfl, rfl, rfl⟩))
  · rintro ⟨g, rest, gs', s₁, gap₁, hg, rfl, rfl, hrest, hafter, h⟩
    rcases (afterGroup_ok hrest).mp hafter with ⟨rfl, rfl, rfl⟩ | ⟨rfl, hne, -, rfl⟩ |
        ⟨rfl, rfl, rfl⟩
    · obtain ⟨rfl, rfl⟩ := Groups.of_nil.mp h
      rw [List.append_nil]
      exact .last hg
    · exact .more hg hne h
    · exact .gap hg h

/-- One round of the loop over the groups. -/
theorem groupLoop_succ {left n : Nat} {words : Nat → Nat} {gap : Option Nat} {s : List UInt8}
    {r : (Nat → Nat) × Nat × Option Nat} (hs : s ≠ []) (hn : n < 8) :
    groupLoop (left + 1) words n gap s = .ok r ↔
      ∃ g rest s₁ gap₁, IsGroup g ∧ s = g ++ rest ∧ (∀ c ∈ rest.head?, c = colon) ∧
        afterGroup (n + 1) gap rest = .ok (s₁, gap₁) ∧
        groupLoop left (Function.update words n (textValue 16 g)) (n + 1) gap₁ s₁ = .ok r := by
  obtain ⟨c, t, rfl⟩ := List.exists_cons_of_ne_nil hs
  rw [groupLoop]
  constructor
  · intro h
    cases hgroup : parseGroup 0 0 (c :: t) with
    | error e =>
        rw [hgroup] at h
        cases h
    | ok p =>
        obtain ⟨v, digits, rest⟩ := p
        rw [hgroup] at h
        obtain ⟨hd, h⟩ := ok_guard.mp h
        obtain ⟨g, hg, hsplit, rfl, -, hrest⟩ := parseGroup_group.mp ⟨hgroup, hd⟩
        rw [putWord, if_pos hn] at h
        cases hafter : afterGroup (n + 1) gap rest with
        | error e =>
            simp only [hafter] at h
            cases h
        | ok q =>
            obtain ⟨s₁, gap₁⟩ := q
            simp only [hafter] at h
            exact ⟨g, rest, s₁, gap₁, hg, hsplit, hrest, hafter, h⟩
  · rintro ⟨g, rest, s₁, gap₁, hg, hsplit, hrest, hafter, h⟩
    obtain ⟨hgroup, hd⟩ := parseGroup_group.mpr ⟨g, hg, hsplit, rfl, rfl, hrest⟩
    simp only [hgroup, if_neg hd, putWord, if_pos hn, hafter]
    exact h

/-- **The loop over the groups** writes the groups that it reads to the words from the `n`-th on;
by induction on the number of words that are left. -/
theorem groupLoop_ok : ∀ {left n n' : Nat} {words words' : Nat → Nat} {gap gap' : Option Nat}
    {s : List UInt8}, n + left = 8 →
    (groupLoop left words n gap s = .ok (words', n', gap') ↔
      ∃ gs, Groups n gap s gs gap' ∧ gs.length ≤ left ∧ n' = n + gs.length ∧
        words' = writeFrom n (gs.map (textValue 16)) words) := by
  intro left
  -- at the end of the text there is no group any more, whatever is left
  have hnil : ∀ {left n n' : Nat} {words words' : Nat → Nat} {gap gap' : Option Nat},
      groupLoop left words n gap [] = .ok (words', n', gap') ↔
        ∃ gs, Groups n gap [] gs gap' ∧ gs.length ≤ left ∧ n' = n + gs.length ∧
          words' = writeFrom n (gs.map (textValue 16)) words := by
    intro left n n' words words' gap gap'
    have hrun : groupLoop left words n gap [] = .ok (words, n, gap) := by cases left <;> rfl
    rw [hrun]
    simp only [Except.ok.injEq, Prod.mk.injEq, Groups.of_nil]
    constructor
    · rintro ⟨rfl, rfl, rfl⟩
      exact ⟨[], ⟨rfl, rfl⟩, Nat.zero_le _, rfl, by simp⟩
    · rintro ⟨gs, ⟨rfl, rfl⟩, -, rfl, rfl⟩
      exact ⟨by simp, rfl, rfl⟩
  induction left with
  | zero =>
      intro n n' words words' gap gap' s hn
      cases s with
      | nil => exact hnil
      | cons c s =>
          refine iff_of_false (by simp [groupLoop]) ?_
          rintro ⟨gs, h, hlen, -⟩
          obtain rfl := List.length_eq_zero_iff.mp (Nat.le_zero.mp hlen)
          obtain ⟨g, rest, gs', s₁, gap₁, -, -, h, -⟩ := (groups_step (by simp)).mp h
          cases h
  | succ left ih =>
      intro n n' words words' gap gap' s hn
      by_cases hs : s = []
      · subst hs
        exact hnil
      · rw [groupLoop_succ hs (by omega)]
        constructor
        · rintro ⟨g, rest, s₁, gap₁, hg, hsplit, hrest, hafter, h⟩
          obtain ⟨gs, hgs, hlen, rfl, rfl⟩ := (ih (by omega)).mp h
          refine ⟨g :: gs, (groups_step hs).mpr ⟨g, rest, gs, s₁, gap₁, hg, hsplit, rfl, hrest,
            hafter, hgs⟩, ?_, ?_, ?_⟩
          · rw [List.length_cons]
            omega
          · rw [List.length_cons]
            omega
          · rw [List.map_cons, writeFrom_cons]
        · rintro ⟨gs, hgs, hlen, rfl, rfl⟩
          obtain ⟨g, rest, gs', s₁, gap₁, hg, hsplit, rfl, hrest, hafter, hgs'⟩ :=
            (groups_step hs).mp hgs
          rw [List.length_cons] at hlen
          refine ⟨g, rest, s₁, gap₁, hg, hsplit, hrest, hafter,
            (ih (by omega)).mpr ⟨gs', hgs', by omega, ?_, ?_⟩⟩
          · rw [List.length_cons]
            omega
          · rw [List.map_cons, writeFrom_cons]

/-! ### The gap -/

/-- The words above the gap are moved up; by induction on the number of words that are left. -/
theorem shiftWords_ok {gap shift : Nat} (hpos : 0 < shift) : ∀ {n : Nat} {words : Nat → Nat},
    n + shift ≤ 8 → ∃ words', shiftWords gap shift n words = .ok words' ∧
      ∀ i, words' i = if gap + shift ≤ i ∧ i < n + shift then words (i - shift) else words i := by
  intro n
  induction n with
  | zero =>
      intro words _
      exact ⟨words, rfl, fun i => by rw [if_neg (by omega)]⟩
  | succ n ih =>
      intro words hn
      by_cases hgap : n < gap
      · refine ⟨words, by rw [shiftWords, if_pos hgap], fun i => ?_⟩
        rw [if_neg (by omega)]
      · obtain ⟨words', hrun, hval⟩ :=
          @ih (Function.update words (n + shift) (words n)) (by omega)
        refine ⟨words', ?_, fun i => ?_⟩
        · simp only [shiftWords, if_neg hgap, getWord, putWord, if_pos (show n < 8 by omega),
            if_pos (show n + shift < 8 by omega)]
          exact hrun
        · rw [hval i, Function.update_apply, Function.update_apply]
          by_cases hi : i = n + shift
          · subst hi
            rw [if_neg (by omega), if_pos rfl, if_pos (by omega), Nat.add_sub_cancel]
          · by_cases hin : gap + shift ≤ i ∧ i < n + shift
            · rw [if_pos hin, if_neg (by omega), if_pos (by omega)]
            · rw [if_neg hin, if_neg hi, if_neg (by omega)]

/-- The words of the gap are cleared. -/
theorem clearWords_ok : ∀ {left i : Nat} {words : Nat → Nat}, i + left ≤ 8 →
    ∃ words', clearWords left i words = .ok words' ∧
      ∀ j, words' j = if i ≤ j ∧ j < i + left then 0 else words j := by
  intro left
  induction left with
  | zero =>
      intro i words _
      exact ⟨words, rfl, fun j => by rw [if_neg (by omega)]⟩
  | succ left ih =>
      intro i words hi
      obtain ⟨words', hrun, hval⟩ := @ih (i + 1) (Function.update words i 0) (by omega)
      refine ⟨words', ?_, fun j => ?_⟩
      · rw [clearWords, putWord, if_pos (by omega)]
        exact hrun
      · rw [hval j, Function.update_apply]
        by_cases hj : j = i
        · subst hj
          rw [if_neg (by omega), if_pos rfl, if_pos (by omega)]
        · by_cases hin : i + 1 ≤ j ∧ j < i + 1 + left
          · rw [if_pos hin, if_pos (by omega)]
          · rw [if_neg hin, if_neg hj, if_neg (by omega)]

/-- The words with those from `gap` on moved to the end. -/
theorem fillGap_some {words : Nat → Nat} {n gap : Nat} (hn : n < 8) (hgap : gap ≤ n) :
    ∃ words', fillGap words n (some gap) = .ok words' ∧
      ∀ i < 8, words' i =
        if i < gap then words i else if i < gap + (8 - n) then 0 else words (i - (8 - n)) := by
  obtain ⟨words₁, hshift, hval₁⟩ :=
    @shiftWords_ok gap (8 - n) (by omega) n words (by omega)
  obtain ⟨words₂, hclear, hval₂⟩ :=
    @clearWords_ok (8 - n) gap words₁ (by omega)
  refine ⟨words₂, ?_, fun i hi => ?_⟩
  · rw [fillGap, if_neg (by omega), hshift]
    exact hclear
  · rw [hval₂, hval₁]
    by_cases h₀ : i < gap
    · rw [if_neg (by omega), if_neg (by omega), if_pos h₀]
    · by_cases h₁ : i < gap + (8 - n)
      · rw [if_pos ⟨by omega, h₁⟩, if_neg h₀, if_pos h₁]
      · rw [if_neg (by omega), if_pos (by omega), if_neg h₀, if_neg h₁]

/-! ### Groups and the grammar -/

/-- Groups joined are not empty. -/
theorem intercalate_ne_nil {gs : List (List UInt8)} (hgs : ∀ g ∈ gs, IsGroup g) (h : gs ≠ []) :
    [colon].intercalate gs ≠ [] := by
  obtain ⟨g, gs, rfl⟩ := List.exists_cons_of_ne_nil h
  have hg := (hgs g (by simp)).ne_nil
  cases gs with
  | nil => simpa using hg
  | cons g' gs =>
      rw [intercalate_cons (by simp)]
      simp

/-- The text of groups: with a colon between two of them, and once, if there was none, with two. -/
theorem Groups.text {n : Nat} {gap gap' : Option Nat} {s : List UInt8} {gs : List (List UInt8)}
    (h : Groups n gap s gs gap') :
    (∀ g ∈ gs, IsGroup g) ∧ ((gap' = gap ∧ s = [colon].intercalate gs) ∨
      (gap = none ∧ ∃ hs ts, hs ≠ [] ∧ gs = hs ++ ts ∧ gap' = some (n + hs.length) ∧
        s = [colon].intercalate hs ++ colon :: colon :: [colon].intercalate ts)) := by
  induction h with
  | nil => exact ⟨by simp, .inl ⟨rfl, rfl⟩⟩
  | last hg => exact ⟨by simpa using hg, .inl ⟨rfl, by simp⟩⟩
  | @more n gap gap' g s gs hg hne _ ih =>
      obtain ⟨hgs, ih⟩ := ih
      refine ⟨by simpa [hg] using hgs, ?_⟩
      rcases ih with ⟨rfl, rfl⟩ | ⟨rfl, hs, ts, hhs, rfl, rfl, rfl⟩
      · refine .inl ⟨rfl, (intercalate_cons ?_).symm⟩
        rintro rfl
        exact hne rfl
      · refine .inr ⟨rfl, g :: hs, ts, by simp, rfl, ?_, ?_⟩
        · rw [List.length_cons, Nat.add_assoc, Nat.add_comm 1]
        · rw [intercalate_cons hhs, List.append_assoc, List.cons_append]
  | @gap n gap' g s gs hg _ ih =>
      obtain ⟨hgs, ⟨rfl, rfl⟩ | ⟨h, -⟩⟩ := ih
      · refine ⟨by simpa [hg] using hgs, .inr ⟨rfl, [g], gs, by simp, rfl, rfl, by simp⟩⟩
      · cases h

/-- Groups without a gap. -/
theorem groups_plain {gs : List (List UInt8)} (hgs : ∀ g ∈ gs, IsGroup g) :
    ∀ {n : Nat} {gap : Option Nat}, Groups n gap ([colon].intercalate gs) gs gap := by
  induction gs with
  | nil => exact .nil
  | cons g gs ih =>
      intro n gap
      have hgs' : ∀ g ∈ gs, IsGroup g := fun g' hg' => hgs g' (List.mem_cons_of_mem _ hg')
      by_cases hnil : gs = []
      · subst hnil
        rw [List.intercalate_singleton]
        exact .last (hgs g (by simp))
      · rw [intercalate_cons hnil]
        exact .more (hgs g (by simp)) (intercalate_ne_nil hgs' hnil) (ih hgs')

/-- Groups before and after a gap. -/
theorem groups_gap {hs ts : List (List UInt8)} (hne : hs ≠ []) (hhs : ∀ g ∈ hs, IsGroup g)
    (hts : ∀ g ∈ ts, IsGroup g) : ∀ {n : Nat},
    Groups n none ([colon].intercalate hs ++ colon :: colon :: [colon].intercalate ts) (hs ++ ts)
      (some (n + hs.length)) := by
  induction hs with
  | nil => exact absurd rfl hne
  | cons g hs ih =>
      intro n
      have hg := hhs g (by simp)
      by_cases hnil : hs = []
      · subst hnil
        rw [List.intercalate_singleton]
        exact .gap hg (groups_plain hts)
      · rw [intercalate_cons hnil, List.append_assoc, List.cons_append, List.cons_append,
          List.length_cons, Nat.add_comm hs.length, ← Nat.add_assoc]
        exact .more hg (by simp) (ih hnil fun g' hg' => hhs g' (List.mem_cons_of_mem _ hg'))

/-! ### The whole text -/

/-- The bytes of the words. -/
theorem putWords_apply (words : Nat → Nat) (i : Nat) :
    putWords words i = if i < 16 then
      UInt8.ofNat (if i % 2 = 0 then words (i / 2) / 256 else words (i / 2)) else 0 := by
  have hfold : ∀ n, (List.range n).foldl (fun b i => netPut16 b (2 * i) (words i)) (fun _ => 0) i =
      if i < 2 * n then
        UInt8.ofNat (if i % 2 = 0 then words (i / 2) / 256 else words (i / 2)) else 0 := by
    intro n
    induction n with
    | zero => simp
    | succ n ih =>
        rw [List.range_succ, List.foldl_append, List.foldl_cons, List.foldl_nil, netPut16]
        by_cases h₀ : i = 2 * n
        · subst h₀
          rw [if_pos rfl, if_pos (by omega), if_pos (by omega),
            Nat.mul_div_cancel_left n (by decide)]
        · by_cases h₁ : i = 2 * n + 1
          · rw [if_neg h₀, if_pos h₁, if_pos (by omega), if_neg (by omega),
              show i / 2 = n by omega]
          · rw [if_neg h₀, if_neg h₁, ih]
            by_cases h : i < 2 * n
            · rw [if_pos h, if_pos (show i < 2 * (n + 1) by omega)]
            · rw [if_neg h, if_neg (show ¬ i < 2 * (n + 1) by omega)]
  exact hfold 8

theorem putWords_eq {words : Nat → Nat} {ws : List Nat} (hlen : ws.length = 8)
    (h : ∀ i < 8, words i = ws.getD i 0) : putWords words = wordBytes ws := by
  funext i
  rw [putWords_apply, wordBytes]
  by_cases hi : i < 16
  · rw [if_pos hi, h (i / 2) (by omega)]
  · rw [if_neg hi, List.getD_eq_default _ _ (by omega)]
    simp

/-- A gap at the start of the text. -/
theorem startGap_ok {s s' : List UInt8} {gap : Option Nat} :
    startGap s = .ok (s', gap) ↔
      (gap = none ∧ s' = s ∧ ∀ t, s ≠ colon :: t) ∨ (gap = some 0 ∧ s = colon :: colon :: s') := by
  match s with
  | [] => simp [startGap, eq_comm, and_comm]
  | [c] =>
      rw [startGap]
      by_cases hc : c = colon
      · simp [hc]
      · simp [hc, eq_comm, and_comm]
  | c :: d :: t =>
      rw [startGap]
      by_cases hc : c = colon
      · by_cases hd : d = colon
        · simp [hc, hd, eq_comm, and_comm]
        · simp [hc, hd]
      · simp [hc, eq_comm, and_comm]

/-- Groups in the first words and then moved up behind a gap: the words of the whole address. -/
theorem gapped_getD (hs ts : List Nat) (_ : hs.length + ts.length < 8) {i : Nat} (_ : i < 8) :
    (if i < hs.length then (hs ++ ts).getD i 0
      else if i < hs.length + (8 - (hs.length + ts.length)) then 0
      else (hs ++ ts).getD (i - (8 - (hs.length + ts.length))) 0) =
    (hs ++ List.replicate (8 - (hs.length + ts.length)) 0 ++ ts).getD i 0 := by
  simp only [List.getD_eq_getElem?_getD, List.getElem?_append, List.length_append,
    List.length_replicate, List.getElem?_replicate]
  by_cases h₀ : i < hs.length
  · simp only [if_pos h₀, if_pos (show i < hs.length + (8 - (hs.length + ts.length)) by omega)]
  · by_cases h₁ : i < hs.length + (8 - (hs.length + ts.length))
    · rw [if_neg h₀, if_pos h₁, if_pos h₁, if_neg h₀, if_pos (by omega), Option.getD_some]
    · rw [if_neg h₀, if_neg h₁, if_neg h₁, if_neg (by omega)]
      congr 2
      omega

/-- Reading groups on a gap that is open from the start or opened on the way. -/
theorem read_gap {hs ts : List (List UInt8)} (h : hs.length + ts.length ≤ 7) :
    ∃ words, fillGap (writeFrom 0 ((hs ++ ts).map (textValue 16)) fun _ => 0)
        (hs.length + ts.length) (some hs.length) = .ok words ∧
      putWords words = wordBytes (hs.map (textValue 16) ++
        List.replicate (8 - (hs.length + ts.length)) 0 ++ ts.map (textValue 16)) := by
  obtain ⟨words, hrun, hval⟩ :=
    @fillGap_some (writeFrom 0 ((hs ++ ts).map (textValue 16)) fun _ => 0)
      (hs.length + ts.length) hs.length (by omega) (Nat.le_add_right _ _)
  refine ⟨words, hrun, putWords_eq ?_ fun i hi => ?_⟩
  · simp only [List.length_append, List.length_map, List.length_replicate]
    omega
  · have hgap :=
      gapped_getD (hs.map (textValue 16)) (ts.map (textValue 16)) (by simpa using by omega) hi
    rw [List.length_map, List.length_map] at hgap
    rw [hval i hi, ← hgap, List.map_append]
    simp only [writeFrom, if_pos (Nat.zero_le _), Nat.sub_zero]

/-- The texts `k_net_parse` accepts for IPv6. -/
theorem parse6_ok {s : List UInt8} {a : NetAddress} :
    kNetParse s 6 = .ok a ↔ ∃ ws, IPv6Text s ws ∧ a = ⟨6, netNone, 0, 0, wordBytes ws⟩ := by
  rw [kNetParse, if_neg (by decide), if_neg (by decide)]
  simp only [bind_eq_ok]
  have hfull : ∀ gs : List (List UInt8), gs.length = 8 →
      putWords (writeFrom 0 (gs.map (textValue 16)) fun _ => 0) =
        wordBytes (gs.map (textValue 16)) := by
    intro gs hlen
    refine putWords_eq (by rw [List.length_map, hlen]) fun i _ => ?_
    rw [writeFrom, if_pos (Nat.zero_le i), Nat.sub_zero]
  constructor
  · rintro ⟨⟨s', gap⟩, hstart, ⟨words, n, gap'⟩, hloop, words', hfill, ha⟩
    dsimp only at hloop hfill
    obtain ⟨gs, hgs, hlen, hn, rfl⟩ := (groupLoop_ok rfl).mp hloop
    rw [Nat.zero_add] at hn
    subst hn
    cases ha
    obtain ⟨hg, htext⟩ := hgs.text
    -- with a gap at the end of the reading, whatever opened it
    have hgap : ∀ hs ts, gs = hs ++ ts → gap' = some hs.length →
        s = [colon].intercalate hs ++ colon :: colon :: [colon].intercalate ts →
        ∃ ws, IPv6Text s ws ∧
          (⟨6, netNone, 0, 0, putWords words'⟩ : NetAddress) = ⟨6, netNone, 0, 0,
            wordBytes ws⟩ := by
      rintro hs ts rfl rfl rfl
      rw [fillGap] at hfill
      obtain ⟨hn, hfill'⟩ := ok_guard.mp hfill
      rw [List.length_append] at hn
      obtain ⟨words₁, hrun, hwords⟩ := @read_gap hs ts (by omega)
      rw [fillGap, if_neg (by omega)] at hrun
      rw [List.length_append, hrun] at hfill'
      cases hfill'
      refine ⟨_, .gap (by omega) (fun g h => hg g ?_) fun g h => hg g ?_, by rw [hwords]⟩
      · exact List.mem_append_left ts h
      · exact List.mem_append_right hs h
    rcases startGap_ok.mp hstart with ⟨rfl, rfl, -⟩ | ⟨rfl, rfl⟩
    · rcases htext with ⟨rfl, rfl⟩ | ⟨-, hs, ts, -, rfl, rfl, rfl⟩
      · rw [fillGap] at hfill
        obtain ⟨hn, hfill⟩ := ok_guard.mp hfill
        cases hfill
        exact ⟨_, .full (not_not.mp hn) hg, by rw [hfull gs (not_not.mp hn)]⟩
      · exact hgap hs ts rfl (by rw [Nat.zero_add]) rfl
    · rcases htext with ⟨rfl, rfl⟩ | ⟨h, -⟩
      · exact hgap [] gs rfl rfl rfl
      · cases h
  · rintro ⟨ws, htext, rfl⟩
    cases htext with
    | @full gs hlen hgs =>
        have hg := @groups_plain gs hgs 0 none
        refine ⟨(_, none), startGap_ok.mpr (.inl ⟨rfl, rfl, hg.head_ne⟩), (_, 8, none),
          (groupLoop_ok rfl).mpr ⟨gs, hg, hlen.le, by rw [hlen], rfl⟩, _, rfl, ?_⟩
        rw [hfull gs hlen]
    | @gap hs ts hlen hhs hts =>
        obtain ⟨words, hrun, hwords⟩ := read_gap hlen
        rw [← hwords]
        by_cases hnil : hs = []
        · subst hnil
          refine ⟨(_, some 0), startGap_ok.mpr (.inr ⟨rfl, rfl⟩), (_, ts.length, some 0),
            (groupLoop_ok rfl).mpr ⟨ts, groups_plain hts, by simpa using hlen.trans (by decide),
              by rw [Nat.zero_add], rfl⟩, words, ?_, rfl⟩
          simpa using hrun
        · have hg := groups_gap hnil hhs hts (n := 0)
          refine ⟨(_, none), startGap_ok.mpr (.inl ⟨rfl, rfl, hg.head_ne⟩), (_, _, some hs.length),
            (groupLoop_ok rfl).mpr ⟨hs ++ ts, by rwa [Nat.zero_add] at hg, ?_, rfl, rfl⟩,
              words, ?_, rfl⟩
          · rw [List.length_append]
            omega
          · rw [Nat.zero_add, List.length_append]
            exact hrun

theorem parse4_ok {s : List UInt8} {a : NetAddress} :
    kNetParse s 4 = .ok a ↔ ∃ xs, IPv4Text s xs ∧ a = ⟨4, netNone, 0, 0, fieldBytes xs⟩ := by
  rw [kNetParse, if_neg (by decide), if_pos rfl]
  cases hparse : netParse4 s fun _ => 0 with
  | error e =>
      refine iff_of_false (by simp) ?_
      rintro ⟨xs, htext, -⟩
      rw [netParse4_ok.mpr ⟨xs, htext, rfl⟩] at hparse
      cases hparse
  | ok bytes =>
      obtain ⟨xs, htext, rfl⟩ := netParse4_ok.mp hparse
      constructor
      · intro h
        exact ⟨xs, htext, (Except.ok.inj h).symm⟩
      · rintro ⟨ys, hys, rfl⟩
        rw [netParse4_ok.mpr ⟨ys, hys, rfl⟩] at hparse
        rw [Except.ok.inj hparse]

/-! ### No write outside the words -/

/-- What follows a group is read inside the text. -/
theorem afterGroup_sound {n m : Nat} {gap : Option Nat} {rest : List UInt8} (hn : n ≤ m)
    (hgap : ∀ g ∈ gap, g ≤ m) : Sound (afterGroup n gap rest) fun r => ∀ g ∈ r.2, g ≤ m := by
  match rest with
  | [] => exact hgap
  | [_] => exact sound_code
  | _ :: c :: s =>
      refine Sound.ite (fun _ => Sound.guard fun _ => ?_) fun _ => hgap
      simpa using hn

theorem groupLoop_sound : ∀ {left n : Nat} {words : Nat → Nat} {gap : Option Nat} {s : List UInt8},
    n + left = 8 → (∀ g ∈ gap, g ≤ n) →
    Sound (groupLoop left words n gap s) fun r => ∀ g ∈ r.2.2, g ≤ r.2.1 := by
  intro left
  induction left with
  | zero =>
      intro n words gap s _ hgap
      cases s with
      | nil => exact hgap
      | cons c s => exact sound_code
  | succ left ih =>
      intro n words gap s hn hgap
      cases s with
      | nil => exact hgap
      | cons c s =>
          rw [groupLoop]
          cases parseGroup 0 0 (c :: s) with
          | error e => exact sound_code
          | ok p =>
              refine Sound.guard fun _ => ?_
              rw [putWord, if_pos (by omega)]
              refine (afterGroup_sound (le_refl _) fun g hg => ?_).bind fun r hr => ih (by omega) hr
              have := hgap g hg
              omega

/-- `k_net_parse` neither reads past the text nor writes past the words. -/
theorem kNetParse_sound (s : List UInt8) (family : Nat) :
    Sound (kNetParse s family) fun _ => True := by
  refine Sound.guard fun _ => Sound.ite (fun _ => ?_) fun _ => ?_
  · cases netParse4 s fun _ => 0 with
    | error e => exact sound_code
    | ok bytes => trivial
  · have hstart : Sound (startGap s) fun r => ∀ g ∈ r.2, g ≤ 0 := by
      match s with
      | [] => simp [startGap]
      | [c] =>
          rw [startGap]
          exact Sound.ite (fun _ => sound_code) fun _ => by simp
      | c :: d :: s =>
          rw [startGap]
          exact Sound.ite (fun _ => Sound.guard fun _ => by simp) fun _ => by simp
    refine hstart.bind fun r hr => (groupLoop_sound rfl hr).bind fun q hq => ?_
    obtain ⟨words, n, gap⟩ := q
    refine Sound.bind (Q := fun _ => True) ?_ fun _ _ => trivial
    cases gap with
    | none => exact Sound.guard fun _ => trivial
    | some gap =>
        refine Sound.guard fun hn => ?_
        obtain ⟨words', hrun, -⟩ :=
          @fillGap_some words n gap (by omega) (hq gap rfl)
        rw [fillGap, if_neg hn] at hrun
        rw [hrun]
        trivial

/-! ### Writing -/

theorem putChar_ok {c : UInt8} {b : List UInt8} (h : b.length < 48) :
    putChar c b = .ok (b ++ [c]) := if_pos h

theorem putIf_ok {c : Prop} [Decidable c] {x : UInt8} {b : List UInt8} (h : b.length < 48) :
    putIf c x b = .ok (b ++ if c then [x] else []) := by
  by_cases hc : c
  · rw [putIf, if_pos hc, if_pos hc, putChar_ok h]
  · rw [putIf, if_neg hc, if_neg hc, List.append_nil]

/-- A decimal field, without leading zeros. -/
def fieldText (v : Nat) : List UInt8 :=
  (if 100 ≤ v then [digitChar (v / 100)] else []) ++
    (if 10 ≤ v then [digitChar (v / 10 % 10)] else []) ++ [digitChar (v % 10)]

/-- The text of a byte is a field with its value. -/
theorem fieldText_field {v : Nat} (h : v < 256) :
    IsField (fieldText v) ∧ textValue 10 (fieldText v) = v := by
  have h₁ : hexDigit (digitChar (v / 100)) = v / 100 := hexDigit_digitChar (by omega)
  have h₂ : hexDigit (digitChar (v / 10 % 10)) = v / 10 % 10 := hexDigit_digitChar (by omega)
  have h₃ : hexDigit (digitChar (v % 10)) = v % 10 := hexDigit_digitChar (by omega)
  have hval : textValue 10 (fieldText v) = v := by
    rw [fieldText]
    by_cases h100 : 100 ≤ v
    · rw [if_pos h100, if_pos (by omega)]
      simp only [List.cons_append, List.nil_append, textValue_cons, h₁, h₂, h₃, List.length_cons,
        List.length_nil, textValue_nil]
      omega
    · by_cases h10 : 10 ≤ v
      · rw [if_neg h100, if_pos h10]
        simp only [List.cons_append, List.nil_append, textValue_cons, h₂, h₃, List.length_cons,
          List.length_nil, textValue_nil]
        omega
      · rw [if_neg h100, if_neg h10]
        simp only [List.nil_append, textValue_cons, h₃, List.length_nil, textValue_nil]
        omega
  refine ⟨⟨by simp [fieldText], ?_, ?_, by omega⟩, hval⟩
  · rw [fieldText]
    split <;> split <;> simp
  · intro c hc
    simp only [fieldText, List.mem_append, List.mem_ite_nil_right, List.mem_singleton] at hc
    rcases hc with (⟨_, rfl⟩ | ⟨_, rfl⟩) | rfl <;> omega

/-- The formatter writes that text. -/
theorem formatField_ok {v : Nat} {b : List UInt8} (h : b.length + 3 ≤ 48) :
    formatField v b = .ok (b ++ fieldText v) := by
  have hlen : ∀ (c : Prop) [Decidable c] (x : UInt8), (if c then [x] else []).length ≤ 1 := by
    intro c _ x
    split <;> simp
  have h₁ := hlen (100 ≤ v) (digitChar (v / 100))
  have h₂ := hlen (10 ≤ v) (digitChar (v / 10 % 10))
  rw [formatField, putIf_ok (by omega), ok_bind,
    putIf_ok (by simp only [List.length_append]; omega),
    ok_bind, putChar_ok (by simp only [List.length_append]; omega), fieldText, List.append_assoc,
    List.append_assoc, List.append_assoc]

/-- A hexadecimal group, its leading zeros not shown. -/
def digitsText (v : Nat) : Nat → Bool → List UInt8
  | 0, _ => [digitChar (v % 16)]
  | k + 1, shown =>
      if v / 16 ^ (k + 1) ≠ 0 ∨ shown then
        digitChar (v / 16 ^ (k + 1) % 16) :: digitsText v k true
      else digitsText v k shown

theorem formatDigits_ok {v : Nat} : ∀ {k : Nat} {shown : Bool} {b : List UInt8},
    b.length + k + 1 ≤ 48 → formatDigits v k shown b = .ok (b ++ digitsText v k shown) := by
  intro k
  induction k with
  | zero =>
      intro shown b h
      exact putChar_ok (by omega)
  | succ k ih =>
      intro shown b h
      rw [formatDigits, digitsText]
      by_cases hd : v / 16 ^ (k + 1) ≠ 0 ∨ shown
      · rw [if_pos hd, if_pos hd, putChar_ok (by omega), ok_bind, ih (by simp; omega),
          List.append_assoc, List.singleton_append]
      · rw [if_neg hd, if_neg hd, ih (by omega)]

/-- The digits that are written: as many as are asked for once one is shown, and their value. -/
theorem digitsText_digits {v : Nat} : ∀ {k : Nat} {shown : Bool},
    (shown = false → v < 16 ^ (k + 1)) →
    digitsText v k shown ≠ [] ∧ (digitsText v k shown).length ≤ k + 1 ∧
      (shown = true → (digitsText v k shown).length = k + 1) ∧
      (∀ c ∈ digitsText v k shown, hexDigit c < 16) ∧
      textValue 16 (digitsText v k shown) = v % 16 ^ (k + 1) := by
  have hdigit : ∀ n, hexDigit (digitChar (n % 16)) = n % 16 := fun n =>
    hexDigit_digitChar (Nat.mod_lt n (by decide))
  intro k
  induction k with
  | zero =>
      intro shown _
      simp [digitsText, textValue_cons, hdigit, Nat.mod_lt]
  | succ k ih =>
      intro shown hv
      rw [digitsText]
      by_cases hd : v / 16 ^ (k + 1) ≠ 0 ∨ shown
      · rw [if_pos hd]
        obtain ⟨-, -, hlen, hdigits, hval⟩ := @ih true (by simp)
        refine ⟨by simp, by rw [List.length_cons, hlen rfl], fun _ => ?_, ?_, ?_⟩
        · rw [List.length_cons, hlen rfl]
        · intro c hc
          rcases List.mem_cons.mp hc with rfl | hc
          · rw [hdigit]
            exact Nat.mod_lt _ (by decide)
          · exact hdigits c hc
        · rw [textValue_cons, hlen rfl, hdigit, hval, Nat.mod_pow_succ (k := k + 1), Nat.mul_comm,
            Nat.add_comm]
      · rw [if_neg hd]
        obtain ⟨hzero, hshown⟩ := not_or.mp hd
        have hsmall : v < 16 ^ (k + 1) := by
          rcases Nat.div_eq_zero_iff.mp (not_not.mp hzero) with h | h
          · exact absurd h (Nat.pow_pos (by decide)).ne'
          · exact h
        obtain ⟨hne, hlen, -, hdigits, hval⟩ := ih fun _ => hsmall
        refine ⟨hne, by omega, fun h => absurd h hshown, hdigits, ?_⟩
        rw [hval, Nat.mod_eq_of_lt hsmall, Nat.mod_eq_of_lt]
        exact hv (by simpa using hshown)

theorem digitsText_group {v : Nat} (h : v < 65536) :
    IsGroup (digitsText v 3 false) ∧ textValue 16 (digitsText v 3 false) = v := by
  obtain ⟨hne, hlen, -, hdigits, hval⟩ := @digitsText_digits v 3 false
    fun _ => h
  exact ⟨⟨hne, hlen, hdigits⟩, hval.trans (Nat.mod_eq_of_lt h)⟩

/-- The loop over the parts, each of them at most `most` characters long. -/
theorem formatLoop_ok {sep : UInt8} {part : Nat → List UInt8 → Checked Errno (List UInt8)}
    {text : Nat → List UInt8} {most : Nat}
    (hpart : ∀ i b, b.length + most ≤ 48 → part i b = .ok (b ++ text i))
    (hmost : ∀ i, (text i).length ≤ most) : ∀ {left i : Nat} {b : List UInt8},
    b.length + left * (most + 1) ≤ 48 →
    formatLoop sep part left i b = .ok (b ++ (List.range' i left).flatMap fun j =>
      (if j ≠ 0 then [sep] else []) ++ text j) := by
  intro left
  induction left with
  | zero =>
      intro i b _
      rw [formatLoop, List.range'_zero, List.flatMap_nil, List.append_nil]
  | succ left ih =>
      intro i b h
      have hsep : (if i ≠ 0 then [sep] else []).length ≤ 1 := by split <;> simp
      have hlen := hmost i
      rw [Nat.succ_mul] at h
      rw [formatLoop, putIf_ok (by omega), ok_bind, hpart _ _ (by rw [List.length_append]; omega),
        ok_bind, ih (by simp only [List.length_append]; omega), List.range'_succ, List.flatMap_cons]
      simp only [List.append_assoc]

/-- The text of the parts, with a separator between two of them; it fits in the buffer. -/
theorem formatLoop_parts {sep : UInt8} {part : Nat → List UInt8 → Checked Errno (List UInt8)}
    {text : Nat → List UInt8} {most : Nat}
    (hpart : ∀ i b, b.length + most ≤ 48 → part i b = .ok (b ++ text i))
    (hmost : ∀ i, (text i).length ≤ most) {n : Nat} (h : (n + 1) * (most + 1) ≤ 48) :
    formatLoop sep part (n + 1) 0 [] = .ok ([sep].intercalate ((List.range (n + 1)).map text)) ∧
      ([sep].intercalate ((List.range (n + 1)).map text)).length < 48 := by
  have htail : ∀ n i, i ≠ 0 → ((List.range' i n).flatMap fun j =>
      (if j ≠ 0 then [sep] else []) ++ text j) =
        ((List.range' i n).map text).flatMap fun t => sep :: t := by
    intro n
    induction n with
    | zero => simp
    | succ n ih =>
        intro i hi
        rw [List.range'_succ, List.flatMap_cons, List.map_cons, List.flatMap_cons, ih _ (by omega),
          if_pos hi, List.singleton_append]
  have hlen : ∀ n i, (((List.range' i n).map text).flatMap fun t => sep :: t).length ≤
      n * (most + 1) := by
    intro n
    induction n with
    | zero => simp
    | succ n ih =>
        intro i
        have hi := ih (i + 1)
        have hm := hmost i
        rw [List.range'_succ, List.map_cons, List.flatMap_cons, List.length_append,
          List.length_cons, Nat.succ_mul]
        omega
  rw [List.range_eq_range', List.range'_succ, List.map_cons, intercalate_flatMap,
    ← htail n _ (by omega), formatLoop_ok hpart hmost (by simpa using h), List.range'_succ,
    List.flatMap_cons]
  refine ⟨by simp, ?_⟩
  have hm := hmost 0
  have hl := hlen n (0 + 1)
  rw [Nat.succ_mul] at h
  rw [htail n _ (by omega), List.length_append]
  omega

/-- What `k_net_format` writes to its buffer is an address, and the one it was given. -/
theorem format_text {a : NetAddress} (h : a.family = 4 ∨ a.family = 6) :
    ∃ text, formatText a = .ok text ∧ text.length < 48 ∧
      ((a.family = 4 ∧ IPv4Text text ((List.range 4).map fun i => (a.bytes i).toNat)) ∨
        (a.family = 6 ∧ IPv6Text text ((List.range 8).map fun i => netBe16 a.bytes (2 * i)))) := by
  rcases h with h | h
  · have hfield : ∀ i, IsField (fieldText (a.bytes i).toNat) ∧
        textValue 10 (fieldText (a.bytes i).toNat) = (a.bytes i).toNat := fun i =>
      fieldText_field (a.bytes i).toNat_lt
    obtain ⟨hrun, hlen⟩ := @formatLoop_parts fullStop _ (fun i => fieldText (a.bytes i).toNat) 3
      (fun i b hb => formatField_ok hb) (fun i => (hfield i).1.short) 3 (by decide)
    refine ⟨_, by rw [formatText, if_pos h]; exact hrun, hlen, .inl ⟨h, ?_⟩⟩
    have htext := @IPv4Text.fields ((List.range 4).map fun i => fieldText (a.bytes i).toNat)
      (by simp) (by simpa using fun i _ => (hfield i).1)
    rw [List.map_map] at htext
    simpa only [Function.comp_def, (hfield _).2] using htext
  · have hword : ∀ i, netBe16 a.bytes (2 * i) < 65536 := fun i => by
      have h₀ := (a.bytes (2 * i)).toNat_lt
      have h₁ := (a.bytes (2 * i + 1)).toNat_lt
      rw [netBe16]
      omega
    obtain ⟨hrun, hlen⟩ := @formatLoop_parts colon _
      (fun i => digitsText (netBe16 a.bytes (2 * i)) 3 false) 4
      (fun i b hb => formatDigits_ok (by omega)) (fun i => (digitsText_group (hword i)).1.short) 7
      (by decide)
    refine ⟨_, by rw [formatText, if_neg (by omega)]; exact hrun, hlen, .inr ⟨h, ?_⟩⟩
    have htext := @IPv6Text.full
      ((List.range 8).map fun i => digitsText (netBe16 a.bytes (2 * i)) 3 false)
      (by simp) (by simpa using fun i _ => (digitsText_group (hword i)).1)
    rw [List.map_map] at htext
    simpa only [Function.comp_def, (digitsText_group (hword _)).2] using htext

/-- What is written reads back. -/
theorem format_parse {a : NetAddress} (h : a.family = 4 ∨ a.family = 6) :
    ∃ text, formatText a = .ok text ∧ text.length < 48 ∧
      ∃ b, kNetParse text a.family = .ok b ∧ b.family = a.family ∧
        ∀ i < netAddrBytes a.family, b.bytes i = a.bytes i := by
  obtain ⟨text, hrun, hlen, ⟨hf, htext⟩ | ⟨hf, htext⟩⟩ := format_text h
  · refine ⟨text, hrun, hlen, _, by rw [hf]; exact parse4_ok.mpr ⟨_, htext, rfl⟩, hf.symm, ?_⟩
    intro i hi
    rw [hf, netAddrBytes, if_pos rfl] at hi
    change fieldBytes _ i = _
    rw [fieldBytes, List.getD_eq_getElem?_getD, List.getElem?_map,
      List.getElem?_range hi, Option.map_some, Option.getD_some, UInt8.ofNat_toNat]
  · refine ⟨text, hrun, hlen, _, by rw [hf]; exact parse6_ok.mpr ⟨_, htext, rfl⟩, hf.symm, ?_⟩
    intro i hi
    rw [hf, netAddrBytes, if_neg (by decide)] at hi
    change wordBytes _ i = _
    rw [wordBytes, List.getD_eq_getElem?_getD, List.getElem?_map,
      List.getElem?_range (by omega), Option.map_some, Option.getD_some, netBe16]
    have h₀ := (a.bytes (2 * (i / 2))).toNat_lt
    have h₁ := (a.bytes (2 * (i / 2) + 1)).toNat_lt
    by_cases hpar : i % 2 = 0
    · rw [if_pos hpar, show (256 * (a.bytes (2 * (i / 2))).toNat +
        (a.bytes (2 * (i / 2) + 1)).toNat) / 256 = (a.bytes (2 * (i / 2))).toNat by omega,
        UInt8.ofNat_toNat, show 2 * (i / 2) = i by omega]
    · rw [if_neg hpar, show 2 * (i / 2) + 1 = i by omega]
      refine UInt8.toNat_inj.mp ?_
      rw [show 2 * (i / 2) + 1 = i by omega] at h₁
      rw [UInt8.toNat_ofNat']
      omega

/-- **The text of an address.**  What `kNetFormat` writes fits in its buffer and is read back by
`kNetParse`; `kNetParse` accepts exactly the strings of the grammar, returns the address that the
grammar gives them, and writes nothing outside its words. -/
theorem address_text :
    (∀ a : NetAddress, a.family = 4 ∨ a.family = 6 →
      ∃ text, text.length < 48 ∧
        (∀ capacity, kNetFormat a capacity =
          if capacity ≤ text.length then .error (.code .e2big) else .ok text) ∧
        ∃ b, kNetParse text a.family = .ok b ∧ b.family = a.family ∧
          ∀ i < netAddrBytes a.family, b.bytes i = a.bytes i) ∧
    (∀ s a, kNetParse s 6 = .ok a ↔
      ∃ ws, IPv6Text s ws ∧ a = ⟨6, netNone, 0, 0, wordBytes ws⟩) ∧
    (∀ s a, kNetParse s 4 = .ok a ↔
      ∃ xs, IPv4Text s xs ∧ a = ⟨4, netNone, 0, 0, fieldBytes xs⟩) ∧
    ∀ s family, kNetParse s family ≠ .error .stray := by
  refine ⟨fun a h => ?_, fun s a => parse6_ok, fun s a => parse4_ok, fun s family hs => ?_⟩
  · obtain ⟨text, hrun, hlen, hback⟩ := format_parse h
    refine ⟨text, hlen, fun capacity => ?_, hback⟩
    rw [kNetFormat, if_neg (by omega), hrun]
    rfl
  · have hsound := kNetParse_sound s family
    rw [hs] at hsound
    exact Fault.not_isCode_stray hsound

/-- `::1`. -/
def loopback6 : NetAddress := ⟨6, netNone, 0, 0, fun i => if i = 15 then 1 else 0⟩

theorem address_text_loopback :
    ∃ text, text.length < 48 ∧
      (∀ capacity, kNetFormat loopback6 capacity =
        if capacity ≤ text.length then .error (.code .e2big) else .ok text) ∧
      ∃ b, kNetParse text 6 = .ok b ∧ b.family = 6 ∧ ∀ i < 16, b.bytes i = loopback6.bytes i :=
  address_text.1 loopback6 (.inr rfl)

end Efishell
