import Efishell.Os.HidLayout

/-!
# Shell — what a HID report does

`Field.Touches` and `Field.Wants` say which keys and buttons a field speaks of, and what it says of
them.  A report that lists a rollover usage stops the loop over the fields (`Field.Rolls`), and no
other error does: `reportField_spec` for one field, `reportLoop_spec` for all of them.

* `layoutReport_spec`: what a report does to a device.
* `hid_layout_and_report`: for every descriptor and every report.
-/

namespace Efishell.Hid

/-- A key or a button. -/
inductive Slot where
  | key (j : Nat)
  | button (b : Nat)

/-- The device has such a key or button. -/
def Slot.Valid : Slot → Prop
  | .key j => j < 256
  | .button b => b < 32

/-- The key or button is down in the report under way. -/
def Staged.Down (s : Staged) : Slot → Prop
  | .key j => osKeyIsDown s.keys j = true
  | .button b => s.buttons.testBit b = true

/-- The key or button is down on the device. -/
def Device.Down (d : Device) : Slot → Prop
  | .key j => osKeyIsDown d.keys j = true
  | .button b => d.buttons.testBit b = true

/-- Element `i` of the field. -/
def Field.raw (f : Field) (p : Bytes) (i : Nat) : Nat := bitsAt p (f.offset + i * f.width) f.width

/-- Element `i` is the usage `u`. -/
def Field.ListsAt (f : Field) (p : Bytes) (i u : Nat) : Prop :=
  f.minimum ≤ f.value (f.raw p i) ∧ f.value (f.raw p i) ≤ f.maximum ∧
    f.value (f.raw p i) - f.minimum + f.usage = u

/-- The report lists the usage `u` in the array. -/
def Field.Lists (f : Field) (p : Bytes) (u : Nat) : Prop := ∃ i < f.count, f.ListsAt p i u

/-- The report lists a rollover or error usage in the array. -/
def Field.Rolls (f : Field) (p : Bytes) : Prop :=
  f.kind = .keys ∧ ∃ u, 1 ≤ u ∧ u ≤ 3 ∧ f.Lists p u

/-- The keys and buttons that the field is about. -/
def Field.Touches (f : Field) : Slot → Prop
  | .key j => (f.kind = .keys ∧ f.usage ≤ j ∧ j ≤ f.usageEnd) ∨ (f.kind = .key ∧ j = f.usage)
  | .button b => f.kind = .button ∧ b + 1 = f.usage

/-- What the report says of them; the usage 0 is no key. -/
def Field.Wants (f : Field) (p : Bytes) : Slot → Prop
  | .key j => if f.kind = .keys then j ≠ 0 ∧ f.Lists p j else f.raw p 0 ≠ 0
  | .button _ => f.raw p 0 ≠ 0

/-! ### Bits -/

theorem bitsAt_lt {p : Bytes} : ∀ {width bit : Nat}, bitsAt p bit width < 2 ^ width := by
  intro width
  induction width with
  | zero => exact fun {bit} => Nat.one_pos
  | succ width ih =>
      intro bit
      have h := @ih (bit + 1)
      have hb := Bool.toNat_le (bitAt p bit)
      rw [bitsAt, Nat.pow_succ]
      omega

/-- A field that lies in the report is extracted. -/
theorem hidExtract_eq {p : Bytes} {n bit width : Nat} (hpos : 1 ≤ width) (hle : width ≤ 32)
    (hfit : bit + width ≤ n * 8 % 2 ^ 32) :
    hidExtract p n bit width = some (bitsAt p bit width) := by
  rw [hidExtract, if_neg (by omega)]

/-- The key's bit, and the others. -/
theorem bitAt_osKeyBit {keys : Bytes} {usage j : Nat} {down : Bool} (hu : usage < 256) :
    bitAt (osKeyBit keys usage down) j = if j = usage then down else bitAt keys j := by
  rw [osKeyBit, if_neg (by omega), bitAt, bitAt, Function.update_apply]
  by_cases hbyte : j / 8 = usage / 8
  · have hdec : decide (j % 8 = usage % 8) = decide (j = usage) := decide_eq_decide.mpr (by omega)
    rw [if_pos hbyte, hbyte]
    cases down with
    | true =>
        rw [if_pos rfl, testBit_setBit, hdec]
        split <;> simp [*]
    | false =>
        rw [if_neg Bool.false_ne_true, testBit_clearBit, hdec]
        split <;> simp [*]
  · rw [if_neg hbyte, if_neg (fun h => hbyte (by rw [h]))]

/-- A key after `os_key_bit`. -/
theorem osKeyIsDown_osKeyBit {keys : Bytes} {usage j : Nat} {down : Bool} :
    osKeyIsDown (osKeyBit keys usage down) j = true ↔
      if j = usage then j < 256 ∧ down = true else osKeyIsDown keys j = true := by
  by_cases hu : usage < 256
  · rw [osKeyIsDown, bitAt_osKeyBit hu]
    by_cases hj : j = usage
    · simp [hj]
    · simp [hj, osKeyIsDown]
  · rw [osKeyBit, if_pos (by omega)]
    by_cases hj : j = usage
    · subst hj
      simp [osKeyIsDown, hu]
    · simp [hj]

/-- The keys of the range are up, and the others as they were. -/
theorem osKeyIsDown_clearKeys {j : Nat} : ∀ {n usage : Nat} {keys : Bytes},
    osKeyIsDown (clearKeys keys usage n) j = true ↔
      ¬ (usage ≤ j ∧ j < usage + n) ∧ osKeyIsDown keys j = true := by
  intro n
  induction n with
  | zero =>
      intro usage keys
      rw [clearKeys, iff_and_self]
      exact fun _ => by omega
  | succ n ih =>
      intro usage keys
      rw [clearKeys, ih, osKeyIsDown_osKeyBit]
      by_cases hj : j = usage
      · simp [hj]
      · rw [if_neg hj]
        refine and_congr_left fun _ => ?_
        omega

/-- The button's bit, and the others. -/
theorem testBit_buttonBit {buttons usage b : Nat} {down : Bool} (hb : b < 32) (hu : 1 ≤ usage)
    (hu' : usage ≤ 32) :
    (buttonBit buttons usage down).testBit b = if b + 1 = usage then down
      else buttons.testBit b := by
  have hdec : decide (usage - 1 = b) = decide (b + 1 = usage) := decide_eq_decide.mpr (by omega)
  rw [buttonBit]
  cases down with
  | true =>
      rw [if_pos rfl, Nat.testBit_or, Nat.testBit_two_pow, hdec]
      split <;> simp [*]
  | false =>
      have hlt : 2 ^ (usage - 1) < 2 ^ 32 := Nat.pow_lt_pow_right (by decide) (by omega)
      rw [if_neg Bool.false_ne_true, Nat.testBit_and, Nat.sub_sub, Nat.add_comm 1,
        Nat.testBit_two_pow_sub_succ hlt, Nat.testBit_two_pow, hdec]
      split <;> simp [*]

/-! ### Values -/

section Values

variable {f : Field} {bits : Nat → Nat} {p : Bytes}

/-- The value of a field is in its limits. -/
theorem Field.Ok.value (h : f.Ok bits) (i : Nat) : InLimits (f.value (f.raw p i)) := by
  have hraw : f.raw p i < 2 ^ f.width := bitsAt_lt
  have hpow : 2 ^ f.width ≤ 2 ^ 32 := Nat.pow_le_pow_right (by decide) h.width_le
  rw [Field.value]
  split
  · obtain ⟨h₁, h₂⟩ := hidSigned_limits hraw h.width_le
    exact ⟨h₁, by omega⟩
  · exact ⟨by omega, by omega⟩

/-- The value of a bit is zero when the bit is. -/
theorem Field.Ok.value_ne_zero (h : f.Ok bits) : (f.value (f.raw p 0) != 0) = true ↔
    f.raw p 0 ≠ 0 := by
  have hraw : f.raw p 0 < 2 ^ f.width := bitsAt_lt
  rw [bne_iff_ne, not_iff_not, Field.value]
  split
  · have hw := h.width_pos
    rw [hidSigned, if_neg (by omega)]
    split
    · next ht =>
        have hne : f.raw p 0 ≠ 0 := by
          intro h₀
          rw [h₀, Nat.zero_testBit] at ht
          cases ht
        refine iff_of_false ?_ hne
        rw [sub_eq_zero]
        exact_mod_cast hraw.ne
    · exact Int.natCast_eq_zero
  · exact Int.natCast_eq_zero

/-- The element that `hid_extract` reads. -/
theorem Field.Ok.extract {size i : Nat} (h : f.Ok bits) (hfit : bits f.report ≤ size * 8 % 2 ^ 32)
    (hi : i < f.count) :
    hidExtract p size (f.offset + i * f.width) f.width = some (f.raw p i) := by
  refine hidExtract_eq h.width_pos h.width_le ?_
  have hmul : (i + 1) * f.width ≤ f.count * f.width := Nat.mul_le_mul_right _ hi
  have hin := h.inside
  rw [Nat.succ_mul i] at hmul
  rw [Nat.mul_comm] at hin
  omega

end Values

/-! ### Key arrays -/

theorem subS_ok {w : Nat} {a b : Int} (h : -2 ^ (w - 1) ≤ a - b) (h' : a - b < 2 ^ (w - 1)) :
    (subS w a b : Checked HidStop Int) = .ok (a - b) := if_pos ⟨h, h'⟩

theorem addS_ok {w : Nat} {a b : Int} (h : -2 ^ (w - 1) ≤ a + b) (h' : a + b < 2 ^ (w - 1)) :
    (addS w a b : Checked HidStop Int) = .ok (a + b) := if_pos ⟨h, h'⟩

section KeyArrays

variable {f : Field} {bits : Nat → Nat} {p : Bytes} {size : Nat}

/-- Element `i` is a rollover usage. -/
def Field.RollsAt (f : Field) (p : Bytes) (i : Nat) : Prop := ∃ u, 1 ≤ u ∧ u ≤ 3 ∧ f.ListsAt p i u

/-- The element `i` is done: the report is left, or the key that the element lists is down. -/
theorem keysLoop_step (h : f.Ok bits) (hfit : bits f.report ≤ size * 8 % 2 ^ 32) {left i : Nat}
    (hi : i < f.count) (keys : Bytes) :
    (f.RollsAt p i → keysLoop f p size (left + 1) i keys = .error (.code .rollover)) ∧
    (¬ f.RollsAt p i → ∃ keys', keysLoop f p size (left + 1) i keys =
        keysLoop f p size left (i + 1) keys' ∧
      ∀ j < 256, osKeyIsDown keys' j = true ↔
        (j ≠ 0 ∧ j ≤ f.usageEnd ∧ f.ListsAt p i j) ∨ osKeyIsDown keys j = true) := by
  obtain ⟨hv, hv'⟩ := @Field.Ok.value f bits p h i
  obtain ⟨hmin, hmin'⟩ := h.minimum
  have husage := h.usage
  rw [keysLoop, h.extract hfit hi]
  dsimp only
  simp only [Field.RollsAt, Field.ListsAt]
  generalize f.value (f.raw p i) = v at hv hv'
  by_cases hrange : v < f.minimum ∨ f.maximum < v
  · rw [if_pos hrange]
    refine ⟨fun ⟨u, _, _, hle, hle', _⟩ => by omega, fun _ => ⟨keys, rfl, fun j _ => ?_⟩⟩
    refine ⟨.inr, fun hj => hj.resolve_left ?_⟩
    rintro ⟨-, -, hle, hle', -⟩
    omega
  · rw [if_neg hrange, subS_ok (by omega) (by omega), ok_bind,
      addS_ok (by omega) (by omega), ok_bind]
    obtain ⟨usage, hu⟩ := Int.eq_ofNat_of_zero_le (a := v - f.minimum + f.usage) (by omega)
    rw [hu]
    by_cases hroll : 0 < (usage : Int) ∧ (usage : Int) ≤ 3
    · rw [if_pos hroll]
      refine ⟨fun _ => rfl, fun hno =>
        absurd ⟨usage, by omega, by omega, by omega, by omega, rfl⟩ hno⟩
    · rw [if_neg hroll]
      refine ⟨fun ⟨u, h₁, h₃, _, _, heq⟩ => by omega, fun _ => ?_⟩
      by_cases hset : 0 < (usage : Int) ∧ (usage : Int) ≤ f.usageEnd
      · rw [if_pos hset]
        refine ⟨_, rfl, fun j hj => ?_⟩
        rw [osKeyIsDown_osKeyBit, Int.toNat_natCast]
        by_cases heq : j = usage
        · subst heq
          rw [if_pos rfl]
          exact iff_of_true ⟨hj, rfl⟩ (.inl ⟨by omega, by omega, by omega, by omega, rfl⟩)
        · rw [if_neg heq]
          refine ⟨.inr, fun hj => hj.resolve_left ?_⟩
          rintro ⟨-, -, -, -, hlist⟩
          omega
      · rw [if_neg hset]
        refine ⟨keys, rfl, fun j _ => ⟨.inr, fun hj => hj.resolve_left ?_⟩⟩
        rintro ⟨h₀, hend, -, -, hlist⟩
        omega

/-- The loop over an array of keys: nothing changes on a rollover, else the keys in it are down. -/
theorem keysLoop_spec (h : f.Ok bits) (hfit : bits f.report ≤ size * 8 % 2 ^ 32) :
    ∀ {left i : Nat} (keys : Bytes), i + left = f.count →
    ((∃ k, i ≤ k ∧ k < f.count ∧ f.RollsAt p k) →
      keysLoop f p size left i keys = .error (.code .rollover)) ∧
    ((¬ ∃ k, i ≤ k ∧ k < f.count ∧ f.RollsAt p k) →
      ∃ keys', keysLoop f p size left i keys = .ok keys' ∧
        ∀ j < 256, osKeyIsDown keys' j = true ↔
          (j ≠ 0 ∧ j ≤ f.usageEnd ∧ ∃ k, i ≤ k ∧ k < f.count ∧ f.ListsAt p k j) ∨
            osKeyIsDown keys j = true) := by
  intro left
  induction left with
  | zero =>
      intro i keys hcount
      refine ⟨fun ⟨k, hk, hk', _⟩ => by omega, fun _ => ⟨keys, rfl, fun j _ => ?_⟩⟩
      refine ⟨.inr, fun hj => hj.resolve_left ?_⟩
      rintro ⟨-, -, k, hk, hk', -⟩
      omega
  | succ left ih =>
      intro i keys hcount
      have hi : i < f.count := by omega
      obtain ⟨hroll, hgo⟩ := @keysLoop_step f bits p size h hfit left i hi keys
      by_cases hat : f.RollsAt p i
      · exact ⟨fun _ => hroll hat, fun hno => absurd ⟨i, le_refl i, hi, hat⟩ hno⟩
      · obtain ⟨keys₁, hrun, hdown⟩ := hgo hat
        obtain ⟨ihroll, ihgo⟩ := ih keys₁ (by omega : i + 1 + left = f.count)
        rw [hrun]
        constructor
        · rintro ⟨k, hk, hk', hroll⟩
          refine ihroll ⟨k, ?_, hk', hroll⟩
          exact Nat.lt_of_le_of_ne hk fun hik => hat (hik ▸ hroll)
        · intro hno
          obtain ⟨keys', hrun', hdown'⟩ := ihgo fun ⟨k, hk, hroll⟩ => hno ⟨k, by omega, hroll⟩
          refine ⟨keys', hrun', fun j hj => ?_⟩
          rw [hdown' j hj, hdown j hj]
          constructor
          · rintro (⟨h₀, hend, k, hk, hlist⟩ | ⟨h₀, hend, hlist⟩ | hold)
            · exact .inl ⟨h₀, hend, k, by omega, hlist⟩
            · exact .inl ⟨h₀, hend, i, le_refl i, hi, hlist⟩
            · exact .inr hold
          · rintro (⟨h₀, hend, k, hk, hk', hlist⟩ | hold)
            · by_cases hik : k = i
              · exact .inr (.inl ⟨h₀, hend, hik ▸ hlist⟩)
              · exact .inl ⟨h₀, hend, k, by omega, hk', hlist⟩
            · exact .inr (.inr hold)

end KeyArrays

/-! ### Axes -/

theorem mulS_ok {w : Nat} {a b : Int} (h : -2 ^ (w - 1) ≤ a * b) (h' : a * b < 2 ^ (w - 1)) :
    (mulS w a b : Checked HidStop Int) = .ok (a * b) := if_pos ⟨h, h'⟩

/-- A scaled position lies on the screen. -/
theorem scale_bounds {d span : Int} {last : Nat} (hd : 0 ≤ d) (hle : d ≤ span) (hspan : 0 < span) :
    0 ≤ (d * last).tdiv span ∧ (d * last).tdiv span ≤ last := by
  have hpos : 0 ≤ d * (last : Int) := Int.mul_nonneg hd (Int.natCast_nonneg last)
  rw [Int.tdiv_eq_ediv_of_nonneg hpos]
  refine ⟨Int.ediv_nonneg hpos (Int.le_of_lt hspan), Int.ediv_le_of_le_mul hspan ?_⟩
  rw [Int.mul_comm (last : Int)]
  exact Int.mul_le_mul_of_nonneg_right hle (Int.natCast_nonneg last)

/-- **A coordinate is scaled** into the framebuffer. -/
theorem scaled_ok {f : Field} {bits : Nat → Nat} {limit : Nat} {value : Int} (h : f.Ok bits)
    (hl : 1 ≤ limit) (hl' : limit ≤ 65536) (hmin : f.minimum ≤ value) (hmax : value ≤ f.maximum)
    (hspan : 0 < f.maximum - f.minimum) :
    ∃ x, scaled f limit value = .ok x ∧ 0 ≤ x ∧ x ≤ limit - 1 := by
  obtain ⟨hlo, -⟩ := h.minimum
  obtain ⟨-, hhi⟩ := h.maximum
  have hlast : (limit + 2 ^ 32 - 1) % 2 ^ 32 = limit - 1 := by omega
  have hd : 0 ≤ value - f.minimum := by omega
  have hpos : 0 ≤ (value - f.minimum) * ((limit - 1 : Nat) : Int) :=
    Int.mul_nonneg hd (Int.natCast_nonneg _)
  have hbig : (value - f.minimum) * ((limit - 1 : Nat) : Int) ≤ 2 ^ 33 * 65535 :=
    Int.mul_le_mul (by omega) (by omega) (Int.natCast_nonneg _) (by decide)
  obtain ⟨h₀, h₁⟩ := @scale_bounds _ _ (limit - 1) hd (by omega) hspan
  refine ⟨_, ?_, h₀, by omega⟩
  rw [scaled, subS_ok (by omega) (by omega), ok_bind, subS_ok (by omega) (by omega), ok_bind, hlast,
    mulS_ok (by omega) (by omega), ok_bind]

/-! ### Fields -/

/-- What is staged after `k` fields of a report for the device `d`. -/
structure Staged.Ok (w h : Nat) (d : Device) (k : Nat) (s : Staged) : Prop where
  wx : -(2 ^ 32 * k : Int) ≤ s.wx ∧ s.wx ≤ 2 ^ 32 * k
  wy : -(2 ^ 32 * k : Int) ≤ s.wy ∧ s.wy ≤ 2 ^ 32 * k
  x : s.ax = true → 0 ≤ s.x ∧ s.x ≤ w - 1
  y : s.ay = true → 0 ≤ s.y ∧ s.y ≤ h - 1
  buttons : s.pointer = false → s.buttons = d.buttons
  keys : s.keyboard = false → s.keys = d.keys

/-- What the field `f` makes of the keys and buttons of `s`. -/
def Follows (f : Field) (p : Bytes) (s s' : Staged) : Prop :=
  ∀ slot, slot.Valid → (f.Touches slot → (s'.Down slot ↔ f.Wants p slot)) ∧
    (¬ f.Touches slot → (s'.Down slot ↔ s.Down slot))

section Fields

variable {w h k size : Nat} {d : Device} {f : Field} {bits : Nat → Nat} {p : Bytes} {s : Staged}

/-- The bound after more fields. -/
theorem Staged.Ok.more (hs : s.Ok w h d k) : s.Ok w h d (k + 1) := by
  have hx := hs.wx
  have hy := hs.wy
  exact { hs with wx := by omega, wy := by omega }

/-- A field of another kind than keys and buttons. -/
theorem follows_of_kind (hkeys : f.kind ≠ .keys) (hkey : f.kind ≠ .key) (hbutton : f.kind ≠ .button)
    {s' : Staged} (hk : s'.keys = s.keys) (hb : s'.buttons = s.buttons) : Follows f p s s' := by
  intro slot _
  cases slot with
  | key j =>
      refine ⟨?_, fun _ => by rw [Staged.Down, Staged.Down, hk]⟩
      rintro (⟨hkind, -⟩ | ⟨hkind, -⟩)
      · exact absurd hkind hkeys
      · exact absurd hkind hkey
  | button b =>
      refine ⟨?_, fun _ => by rw [Staged.Down, Staged.Down, hb]⟩
      rintro ⟨hkind, -⟩
      exact absurd hkind hbutton

/-- A field of the pointer keeps the report under way in its bounds. -/
theorem pointerField_ok {value : Int} (hs : s.Ok w h d k) (hk : k < osHidFields)
    (hv : InLimits value) (hkeys : f.kind ≠ .keys) (hkey : f.kind ≠ .key)
    (hbutton : f.kind ≠ .button)
    (hx : f.kind = .x → f.relative = false → 0 ≤ value ∧ value ≤ w - 1)
    (hy : f.kind = .y → f.relative = false → 0 ≤ value ∧ value ≤ h - 1) :
    ∃ s', pointerField f value s = .ok s' ∧ s'.Ok w h d (k + 1) ∧ Follows f p s s' := by
  have hwx := hs.wx
  have hwy := hs.wy
  have hmore := hs.more
  obtain ⟨hv, hv'⟩ := hv
  rw [osHidFields] at hk
  rw [pointerField]
  split
  · next hkind =>
      refine ⟨_, rfl, ?_, follows_of_kind hkeys hkey hbutton rfl rfl⟩
      exact { hmore with x := fun hax => hx hkind (by simpa using hax), buttons := nofun }
  · next hkind =>
      refine ⟨_, rfl, ?_, follows_of_kind hkeys hkey hbutton rfl rfl⟩
      exact { hmore with y := fun hay => hy hkind (by simpa using hay), buttons := nofun }
  · rw [addS_ok (by omega) (by omega), ok_bind]
    refine ⟨_, rfl, ?_, follows_of_kind hkeys hkey hbutton rfl rfl⟩
    exact { hmore with wy := by dsimp only; omega, buttons := nofun }
  · rw [addS_ok (by omega) (by omega), ok_bind]
    refine ⟨_, rfl, ?_, follows_of_kind hkeys hkey hbutton rfl rfl⟩
    exact { hmore with wx := by dsimp only; omega, buttons := nofun }
  · exact ⟨_, rfl, { hmore with buttons := nofun }, follows_of_kind hkeys hkey hbutton rfl rfl⟩

/-- Axes and wheels. -/
theorem axisField_ok {value : Int} (hf : f.Ok bits) (hs : s.Ok w h d k) (hk : k < osHidFields)
    (hw : 1 ≤ w ∧ w ≤ 65536) (hh : 1 ≤ h ∧ h ≤ 65536) (hv : InLimits value) (hkeys : f.kind ≠ .keys)
    (hkey : f.kind ≠ .key) (hbutton : f.kind ≠ .button) :
    ∃ s', (if value < f.minimum ∨ f.maximum < value then (.ok s : Checked HidStop Staged)
        else if (f.kind = .x ∨ f.kind = .y) ∧ !f.relative then
          if f.maximum - f.minimum ≤ 0 then .ok s
          else do
            let value ← scaled f (if f.kind = .x then w else h) value
            pointerField f value s
        else pointerField f value s) = .ok s' ∧ s'.Ok w h d (k + 1) ∧ Follows f p s s' := by
  have hskip : ∃ s', (.ok s : Checked HidStop Staged) = .ok s' ∧ s'.Ok w h d (k + 1) ∧
      Follows f p s s' := ⟨s, rfl, hs.more, follows_of_kind hkeys hkey hbutton rfl rfl⟩
  split
  · exact hskip
  · next hrange =>
      split
      · next haxis =>
          split
          · exact hskip
          · next hspan =>
              obtain ⟨x, hx, hlo, hhi⟩ := @scaled_ok f bits (if f.kind = .x then w else h) value hf
                (by split <;> omega) (by split <;> omega) (by omega) (by omega) (by omega)
              rw [hx, ok_bind]
              refine pointerField_ok hs hk ⟨by omega, ?_⟩ hkeys hkey hbutton (fun hkind _ => ?_)
                fun hkind _ => ?_
              · split at hhi <;> omega
              · rw [if_pos hkind] at hhi
                exact ⟨hlo, hhi⟩
              · rw [hkind, if_neg (by decide)] at hhi
                exact ⟨hlo, hhi⟩
      · next haxis =>
          refine pointerField_ok hs hk hv hkeys hkey hbutton (fun hkind hrel => ?_)
            fun hkind hrel => ?_
          · exact absurd ⟨.inl hkind, by simp [hrel]⟩ haxis
          · exact absurd ⟨.inr hkind, by simp [hrel]⟩ haxis

/-- **A field of the report**: it lists a rollover usage, or the keys and buttons follow it. -/
theorem reportField_spec (hf : f.Ok bits) (hfit : bits f.report ≤ size * 8 % 2 ^ 32)
    (hs : s.Ok w h d k) (hk : k < osHidFields) (hw : 1 ≤ w ∧ w ≤ 65536) (hh : 1 ≤ h ∧ h ≤ 65536) :
    (f.Rolls p → reportField w h p size s f = .error (.code .rollover)) ∧
    (¬ f.Rolls p → ∃ s', reportField w h p size s f = .ok s' ∧ s'.Ok w h d (k + 1) ∧
      Follows f p s s') := by
  have hfirst := hf.extract (p := p) hfit hf.count_pos
  rw [Nat.zero_mul, Nat.add_zero] at hfirst
  rw [reportField, hfirst]
  dsimp only
  split
  · next hkind =>
      -- an array of keys: its usages are cleared, and those that it lists are set
      obtain ⟨hroll, hgo⟩ := @keysLoop_spec f bits p size hf hfit f.count 0
        (clearKeys s.keys f.usage (min (f.usageEnd + 1) 256 - f.usage)) (Nat.zero_add _)
      constructor
      · rintro ⟨-, u, h₁, h₃, i, hi, hlist⟩
        rw [hroll ⟨i, Nat.zero_le i, hi, u, h₁, h₃, hlist⟩]
        rfl
      · intro hno
        obtain ⟨keys', hrun, hdown⟩ := hgo fun ⟨i, _, hi, u, h₁, h₃, hlist⟩ =>
          hno ⟨hkind, u, h₁, h₃, i, hi, hlist⟩
        rw [hrun, ok_bind]
        refine ⟨_, rfl, { hs.more with keys := nofun }, fun slot hslot => ?_⟩
        cases slot with
        | button b =>
            refine ⟨fun ⟨hb, _⟩ => ?_, fun _ => Iff.rfl⟩
            rw [hkind] at hb
            cases hb
        | key j =>
            have hj : j < 256 := hslot
            have hcleared : (f.usage ≤ j ∧ j < f.usage + (min (f.usageEnd + 1) 256 - f.usage)) ↔
                f.usage ≤ j ∧ j ≤ f.usageEnd := by omega
            have hlist : (∃ i, 0 ≤ i ∧ i < f.count ∧ f.ListsAt p i j) ↔ f.Lists p j := by
              simp only [Nat.zero_le, true_and, Field.Lists]
            have hge : f.Lists p j → f.usage ≤ j := by
              rintro ⟨i, -, hlo, -, heq⟩
              omega
            have hat := hdown j hj
            rw [osKeyIsDown_clearKeys, hcleared, hlist] at hat
            refine ⟨?_, fun hno => hat.trans ?_⟩
            · rintro (⟨-, hlo, hhi⟩ | ⟨hkey, -⟩)
              · refine hat.trans ?_
                rw [Field.Wants, if_pos hkind]
                refine ⟨?_, fun ⟨h₀, hl⟩ => .inl ⟨h₀, hhi, hl⟩⟩
                rintro (⟨h₀, -, hl⟩ | ⟨hout, -⟩)
                · exact ⟨h₀, hl⟩
                · exact absurd ⟨hlo, hhi⟩ hout
              · rw [hkind] at hkey
                cases hkey
            · refine ⟨?_, fun hold => .inr ⟨fun hin => hno (.inl ⟨hkind, hin⟩), hold⟩⟩
              rintro (⟨-, hhi, hl⟩ | ⟨-, hold⟩)
              · exact absurd (.inl ⟨hkind, hge hl, hhi⟩) hno
              · exact hold
  · next hkind =>
      refine ⟨fun ⟨hroll, _⟩ => ?_, fun _ =>
        ⟨_, rfl, { hs.more with keys := nofun }, fun slot hslot => ?_⟩⟩
      · rw [hkind] at hroll
        cases hroll
      · cases slot with
        | button b =>
            refine ⟨fun ⟨hb, _⟩ => ?_, fun _ => Iff.rfl⟩
            rw [hkind] at hb
            cases hb
        | key j =>
            have hj : j < 256 := hslot
            have hat := @osKeyIsDown_osKeyBit s.keys f.usage j (f.value (f.raw p 0) != 0)
            refine ⟨?_, fun hno => hat.trans ?_⟩
            · rintro (⟨hkeys, -⟩ | ⟨-, heq⟩)
              · rw [hkind] at hkeys
                cases hkeys
              · refine hat.trans ?_
                rw [if_pos heq, Field.Wants, if_neg (by simp [hkind]), hf.value_ne_zero]
                exact and_iff_right hj
            · rw [if_neg fun heq => hno (.inr ⟨hkind, heq⟩)]
              rfl
  · next hkind =>
      obtain ⟨hu, hu'⟩ := hf.button hkind
      refine ⟨fun ⟨hroll, _⟩ => ?_,
        fun _ => ⟨_, rfl, { hs.more with buttons := nofun }, fun slot hslot => ?_⟩⟩
      · rw [hkind] at hroll
        cases hroll
      · cases slot with
        | button b =>
            have hat :=
              @testBit_buttonBit s.buttons f.usage b (f.value (f.raw p 0) != 0) hslot hu hu'
            constructor
            · rintro ⟨-, heq⟩
              rw [Staged.Down, hat, if_pos heq]
              exact hf.value_ne_zero
            · intro hno
              rw [Staged.Down, hat, if_neg fun heq => hno ⟨hkind, heq⟩]
              rfl
        | key j =>
            refine ⟨?_, fun _ => Iff.rfl⟩
            rintro (⟨hkeys, -⟩ | ⟨hkey, -⟩)
            · rw [hkind] at hkeys
              cases hkeys
            · rw [hkind] at hkey
              cases hkey
  · next kind hkeys hkey hbutton =>
      refine ⟨fun ⟨hroll, _⟩ => absurd hroll hkeys, fun _ => ?_⟩
      exact axisField_ok hf hs hk hw hh (hf.value 0) hkeys hkey hbutton

end Fields

/-! ### Reports -/

/-- The fields of the report `id` speak of different keys and buttons. -/
def Disjoint (id : Nat) (f g : Field) : Prop :=
  f.report = id → g.report = id → ∀ slot, ¬ (f.Touches slot ∧ g.Touches slot)

/-- A field of the report `id` lists a rollover usage. -/
def RollsOver (p : Bytes) (id : Nat) (fs : List Field) : Prop :=
  ∃ f ∈ fs, f.report = id ∧ f.Rolls p

/-- What the fields make of the keys and buttons. -/
structure AllFollow (p : Bytes) (id : Nat) (fs : List Field) (s s' : Staged) : Prop where
  kept : ∀ slot, slot.Valid → (∀ f ∈ fs, f.report = id → ¬ f.Touches slot) →
    (s'.Down slot ↔ s.Down slot)
  follow : fs.Pairwise (Disjoint id) → ∀ f ∈ fs, f.report = id → ∀ slot, slot.Valid →
    f.Touches slot → (s'.Down slot ↔ f.Wants p slot)

section Reports

variable {w h size id : Nat} {d : Device} {bits : Nat → Nat} {p : Bytes}

/-- A field of the report, and then the rest. -/
theorem AllFollow.cons {f : Field} {fs : List Field} {s s₁ s' : Staged} (hid : f.report = id)
    (hf : Follows f p s s₁) (hfs : AllFollow p id fs s₁ s') : AllFollow p id (f :: fs) s s' where
  kept := fun slot hslot hnone => by
    have hrest := hfs.kept slot hslot fun g hg => hnone g (List.mem_cons_of_mem f hg)
    exact hrest.trans ((hf slot hslot).2 (hnone f List.mem_cons_self hid))
  follow := fun hdis g hg hgid slot hslot htouch => by
    obtain ⟨hapart, hdis⟩ := List.pairwise_cons.mp hdis
    rcases List.mem_cons.mp hg with rfl | hg
    · refine (hfs.kept slot hslot fun g' hg' hid' htouch' => ?_).trans ((hf slot hslot).1 htouch)
      exact hapart g' hg' hid hid' slot ⟨htouch, htouch'⟩
    · exact hfs.follow hdis g hg hgid slot hslot htouch

/-- A field of another report is skipped. -/
theorem AllFollow.skip {f : Field} {fs : List Field} {s s' : Staged} (hid : f.report ≠ id)
    (hfs : AllFollow p id fs s s') : AllFollow p id (f :: fs) s s' where
  kept := fun slot hslot hnone =>
    hfs.kept slot hslot fun g hg => hnone g (List.mem_cons_of_mem f hg)
  follow := fun hdis g hg hgid slot hslot htouch => by
    rcases List.mem_cons.mp hg with rfl | hg
    · exact absurd hgid hid
    · exact hfs.follow (List.pairwise_cons.mp hdis).2 g hg hgid slot hslot htouch

/-- The loop over the fields, by induction on them. -/
theorem reportLoop_spec (hfit : bits id ≤ size * 8 % 2 ^ 32) (hw : 1 ≤ w ∧ w ≤ 65536)
    (hh : 1 ≤ h ∧ h ≤ 65536) : ∀ {fs : List Field} {k : Nat} {s : Staged},
    (∀ f ∈ fs, f.Ok bits) → k + fs.length ≤ osHidFields → s.Ok w h d k →
    (RollsOver p id fs → reportLoop w h p size id fs s = .error (.code .rollover)) ∧
    (¬ RollsOver p id fs → ∃ s', reportLoop w h p size id fs s = .ok s' ∧
      s'.Ok w h d (k + fs.length) ∧ AllFollow p id fs s s') := by
  intro fs
  induction fs with
  | nil =>
      intro k s _ _ hs
      refine ⟨fun ⟨f, hf, _⟩ => absurd hf List.not_mem_nil, fun _ => ⟨s, rfl, hs, ?_, ?_⟩⟩
      · exact fun _ _ _ => Iff.rfl
      · exact fun _ f hf => absurd hf List.not_mem_nil
  | cons f fs ih =>
      intro k s hok hroom hs
      have hok' : ∀ g ∈ fs, g.Ok bits := fun g hg => hok g (List.mem_cons_of_mem f hg)
      rw [List.length_cons] at hroom
      have hsplit : RollsOver p id (f :: fs) ↔ (f.report = id ∧ f.Rolls p) ∨ RollsOver p id fs := by
        simp only [RollsOver, List.mem_cons, exists_eq_or_imp]
      have hlen : k + (f :: fs).length = k + 1 + fs.length := by
        rw [List.length_cons]
        omega
      rw [reportLoop, hsplit, hlen]
      by_cases hid : f.report = id
      · rw [if_neg (not_not.mpr hid)]
        obtain ⟨hroll, hgo⟩ := @reportField_spec w h k size d f bits p s (hok f List.mem_cons_self)
          (by rw [hid]; exact hfit) hs (by omega) hw hh
        by_cases hr : f.Rolls p
        · rw [hroll hr]
          exact ⟨fun _ => rfl, fun hno => absurd (.inl ⟨hid, hr⟩) hno⟩
        · obtain ⟨s₁, hrun, hs₁, hfollow⟩ := hgo hr
          rw [hrun, ok_bind]
          obtain ⟨ihroll, ihgo⟩ := @ih (k + 1) s₁ hok' (by omega) hs₁
          refine ⟨fun hrolls => ihroll (hrolls.resolve_left fun hr' => hr hr'.2), fun hno => ?_⟩
          obtain ⟨s', hrun', hs', hall⟩ := ihgo fun hrest => hno (.inr hrest)
          exact ⟨s', hrun', hs', hall.cons hid hfollow⟩
      · rw [if_pos hid]
        obtain ⟨ihroll, ihgo⟩ := @ih (k + 1) s hok' (by omega) hs.more
        refine ⟨fun hrolls => ihroll (hrolls.resolve_left fun hr' => hid hr'.1), fun hno => ?_⟩
        obtain ⟨s', hrun', hs', hall⟩ := ihgo fun hrest => hno (.inr hrest)
        exact ⟨s', hrun', hs', hall.skip hid⟩

/-- The staged values, and those of the device, are the same keys and buttons. -/
theorem commit_down {k : Nat} {s : Staged} (hs : s.Ok w h d k) (slot : Slot) :
    (d.commit s).1.Down slot ↔ s.Down slot := by
  cases slot with
  | key j =>
      simp only [Device.commit, Device.Down, Staged.Down]
      split
      · exact Iff.rfl
      · next hk => rw [hs.keys (by simpa using hk)]
  | button b =>
      simp only [Device.commit, Device.Down, Staged.Down]
      split
      · exact Iff.rfl
      · next hp => rw [hs.buttons (by simpa using hp)]

/-- The bits of the report that was selected. -/
theorem selectReport_ok {layout : Layout} {bytes : Bytes} {n : Nat}
    (h : selectReport layout bytes n = .ok (id, p, size)) :
    layout.reportBits id ≤ size * 8 % 2 ^ 32 := by
  rw [selectReport] at h
  obtain ⟨-, h⟩ := ok_guard.mp h
  obtain ⟨hfit, h⟩ := ok_guard.mp h
  cases h
  exact Nat.le_of_not_lt fun hlt => hfit (.inr hlt)

/-- The report is too short, or its identifier and its bytes are found. -/
theorem selectReport_cases (layout : Layout) (bytes : Bytes) (n : Nat) :
    selectReport layout bytes n = .error (.code .short) ∨
      ∃ id p m, selectReport layout bytes n = .ok (id, p, m) := by
  rw [selectReport]
  by_cases hempty : layout.ids ∧ n = 0
  · exact .inl (if_pos hempty)
  · rw [if_neg hempty]
    dsimp only
    generalize (if layout.ids then (bytes 0).toNat else 0) = id
    generalize (if layout.ids then n - 1 else n) = m
    by_cases hshort : layout.reportBits id = 0 ∨ m * 8 % 2 ^ 32 < layout.reportBits id
    · exact .inl (if_pos hshort)
    · rw [if_neg hshort]
      exact .inr ⟨_, _, _, rfl⟩

end Reports

/-- What a report that is not too short does to a device whose layout a descriptor left. -/
theorem layoutReport_spec {w h size : Nat} {d : Device} {bytes : Bytes} {id n : Nat} {p : Bytes}
    (hlayout : d.layout.Ok) (hsel : selectReport d.layout bytes size = .ok (id, p, n))
    (hw : 1 ≤ w ∧ w ≤ 65536) (hh : 1 ≤ h ∧ h ≤ 65536) :
    (RollsOver p id d.layout.fields →
      layoutReport w h d bytes size = .error (.code .rollover)) ∧
    (¬ RollsOver p id d.layout.fields → ∃ d' mouse,
      layoutReport w h d bytes size = .ok (d', mouse) ∧
      (∀ slot, slot.Valid → (∀ f ∈ d.layout.fields, f.report = id → ¬ f.Touches slot) →
        (d'.Down slot ↔ d.Down slot)) ∧
      (d.layout.fields.Pairwise (Disjoint id) → ∀ f ∈ d.layout.fields, f.report = id →
        ∀ slot, slot.Valid → f.Touches slot → (d'.Down slot ↔ f.Wants p slot)) ∧
      ∀ c ∈ mouse, (c.absoluteX = true → 0 ≤ c.dx ∧ c.dx ≤ w - 1) ∧
        (c.absoluteY = true → 0 ≤ c.dy ∧ c.dy ≤ h - 1)) := by
  have hs : Staged.Ok w h d 0 ⟨d.keys, d.buttons, 0, 0, 0, 0, false, false, false, false⟩ :=
    ⟨by simp, by simp, nofun, nofun, fun _ => rfl, fun _ => rfl⟩
  obtain ⟨hroll, hgo⟩ := @reportLoop_spec w h n id d d.layout.reportBits p (selectReport_ok hsel) hw
    hh d.layout.fields 0 _ hlayout.fields (by rw [Nat.zero_add]; exact hlayout.count) hs
  rw [layoutReport, hsel, ok_bind]
  dsimp only
  refine ⟨fun hr => by rw [hroll hr]; rfl, fun hno => ?_⟩
  obtain ⟨s', hrun, hs', hall⟩ := hgo hno
  rw [hrun, ok_bind]
  refine ⟨(d.commit s').1, (d.commit s').2, rfl, fun slot hslot hnone => ?_,
    fun hdis f hf hid slot hslot htouch => ?_, fun c hc => ?_⟩
  · refine ((commit_down hs' slot).trans (hall.kept slot hslot hnone)).trans ?_
    cases slot <;> rfl
  · exact (commit_down hs' slot).trans (hall.follow hdis f hf hid slot hslot htouch)
  · rw [Option.mem_def, Device.commit] at hc
    dsimp only at hc
    split at hc
    · cases hc
      exact ⟨hs'.x, hs'.y⟩
    · cases hc

/-- **Descriptors and reports.**  Every field of an accepted descriptor lies inside its report.  A
report that is long enough is read without a failure; if one of its arrays lists a usage from 1 to 3
the device is left alone, and otherwise, where the fields are disjoint, the keys and buttons become
what the report says, the others stay, and a coordinate lies inside the framebuffer. -/
theorem hid_layout_and_report {descriptor : Bytes} {size : Nat} {layout : Layout}
    (hparse : osHidParse descriptor size = .ok layout) :
    (∀ f ∈ layout.fields, 1 ≤ f.width ∧ f.width ≤ 32 ∧
      f.offset + f.width * f.count ≤ layout.reportBits f.report) ∧
    (∀ id, layout.reportBits id ≤ inputReportMax * 8) ∧
    ∀ (d : Device) (bytes : Bytes) (n w h : Nat), d.layout = layout → d.bootKeys = false →
      d.bootPointer = false → 1 ≤ w ∧ w ≤ 65536 → 1 ≤ h ∧ h ≤ 65536 →
      (selectReport layout bytes n = .error (.code .short) ∧
        osHidReport w h d bytes n = .error (.code .short)) ∨
      ∃ id p m, selectReport layout bytes n = .ok (id, p, m) ∧
        (∀ f ∈ layout.fields, f.report = id → ∀ i < f.count,
          hidExtract p m (f.offset + i * f.width) f.width = some (f.raw p i)) ∧
        (RollsOver p id layout.fields → osHidReport w h d bytes n = .error (.code .rollover) ∧
          afterReport w h d bytes n = d) ∧
        (¬ RollsOver p id layout.fields → ∃ mouse,
          osHidReport w h d bytes n = .ok (afterReport w h d bytes n, mouse) ∧
          (∀ slot, slot.Valid → (∀ f ∈ layout.fields, f.report = id → ¬ f.Touches slot) →
            ((afterReport w h d bytes n).Down slot ↔ d.Down slot)) ∧
          (layout.fields.Pairwise (Disjoint id) → ∀ f ∈ layout.fields, f.report = id →
            ∀ slot, slot.Valid → f.Touches slot →
              ((afterReport w h d bytes n).Down slot ↔ f.Wants p slot)) ∧
          ∀ c ∈ mouse, (c.absoluteX = true → 0 ≤ c.dx ∧ c.dx ≤ w - 1) ∧
            (c.absoluteY = true → 0 ≤ c.dy ∧ c.dy ≤ h - 1)) := by
  have hok := osHidParse_ok hparse
  refine ⟨fun f hf => ?_, hok.bits, ?_⟩
  · have := hok.fields f hf
    exact ⟨this.width_pos, this.width_le, this.inside⟩
  · rintro d bytes n w h rfl hkeys hpointer hw hh
    have hreport : osHidReport w h d bytes n = layoutReport w h d bytes n := by
      rw [osHidReport, hkeys, hpointer, if_neg Bool.false_ne_true, if_neg Bool.false_ne_true]
    rw [afterReport, hreport]
    -- a report that is too short for its layout is refused; the others are read field by field
    rcases selectReport_cases d.layout bytes n with hshort | ⟨id, p, m, hsel⟩
    · refine .inl ⟨hshort, ?_⟩
      rw [layoutReport, hshort]
      rfl
    · refine .inr ⟨id, p, m, hsel, fun f hf hid i hi => ?_, ?_⟩
      · refine (hok.fields f hf).extract ?_ hi
        rw [hid]
        exact selectReport_ok hsel
      · obtain ⟨hroll, hgo⟩ := layoutReport_spec hok hsel hw hh
        refine ⟨fun hr => ?_, fun hno => ?_⟩
        · rw [hroll hr]
          exact ⟨rfl, rfl⟩
        · obtain ⟨d', mouse, hrun, hrest⟩ := hgo hno
          rw [hrun]
          exact ⟨mouse, rfl, hrest⟩

/-- A keyboard with one array of one element, of the usages from 0 to 101. -/
def oneKey : Bytes := fun i =>
  [0x05, 0x01, 0x09, 0x06, 0xa1, 0x01, 0x05, 0x07, 0x19, 0x00, 0x29, 0x65, 0x15, 0x00, 0x25, 0x65,
    0x75, 0x08, 0x95, 0x01, 0x81, 0x00, 0xc0].getD i 0

/-- An array of one key code. -/
def oneKeyField : Field := ⟨0, 8, 1, 0, 101, 0, 101, 0, .keys, false⟩

/-- The layout of that field alone. -/
def oneKeyLayout : Layout :=
  ⟨[oneKeyField], Function.update (fun _ => 0) 0 8, false, false, true⟩

/-- The descriptor has that layout. -/
theorem oneKey_parse : osHidParse oneKey 23 = .ok oneKeyLayout := by rfl

/-- What the array lists in a report of one byte. -/
theorem oneKeyField_lists {p : Bytes} {u v : Nat} (hv : oneKeyField.value (oneKeyField.raw p 0) = v)
    (h : oneKeyField.Lists p u) : u = v := by
  obtain ⟨i, hi, -, -, hu⟩ := h
  rw [Nat.lt_one_iff.mp hi, hv] at hu
  change (v : Int) - 0 + 0 = u at hu
  omega

/-- A key code above three is no rollover. -/
theorem oneKey_no_rollover {p : Bytes} {id v : Nat}
    (hv : oneKeyField.value (oneKeyField.raw p 0) = v) (hno : ¬ (1 ≤ v ∧ v ≤ 3)) :
    ¬ RollsOver p id oneKeyLayout.fields := by
  rintro ⟨f, hf, -, -, u, h₁, h₃, hlist⟩
  rw [List.mem_singleton.mp hf] at hlist
  obtain rfl := oneKeyField_lists hv hlist
  exact hno ⟨h₁, h₃⟩

/-- A keyboard with eight modifiers, a byte of padding and an array of two elements. -/
def keyboard : Bytes := fun i =>
  [0x05, 0x01, 0x09, 0x06, 0xa1, 0x01, 0x05, 0x07, 0x19, 0xe0, 0x29, 0xe7, 0x15, 0x00, 0x25,
    0x01, 0x75, 0x01,
    0x95, 0x08, 0x81, 0x02, 0x75, 0x08, 0x95, 0x01, 0x81, 0x01, 0x19, 0x00, 0x29, 0x65, 0x25,
      0x65, 0x75, 0x08,
    0x95, 0x02, 0x81, 0x00, 0xc0].getD i 0

/-- The bit of one modifier key. -/
def modifierField (k : Nat) : Field := ⟨k, 1, 1, 224 + k, 231, 0, 1, 0, .key, false⟩

/-- An array of two key codes. -/
def keysField : Field := ⟨16, 8, 2, 0, 101, 0, 101, 0, .keys, false⟩

/-- A keyboard: the modifiers and the array. -/
def keyboardLayout : Layout where
  fields :=
    [modifierField 0, modifierField 1, modifierField 2, modifierField 3, modifierField 4,
      modifierField 5,
    modifierField 6, modifierField 7, keysField]
  reportBits := Function.update (Function.update (Function.update (fun _ => 0) 0 8) 0 16) 0 32
  ids := false
  mouse := false
  keyboard := true

/-- The descriptor has that layout. -/
theorem keyboard_parse : osHidParse keyboard 41 = .ok keyboardLayout := by rfl

/-- The left shift key and the key 4. -/
def shiftReport : Bytes := fun i => if i = 0 then 2 else if i = 2 then 4 else 0

/-- No key belongs to two of its fields. -/
theorem keyboard_disjoint : keyboardLayout.fields.Pairwise (Disjoint 0) := by
  have h : keyboardLayout.fields.Pairwise fun f g => f.kind = .key ∧
      (g.kind = .key ∧ f.usage ≠ g.usage ∨ g.kind = .keys ∧ g.usageEnd < f.usage) := by decide
  refine h.imp ?_
  rintro f g ⟨hf, hg⟩ - - slot ⟨h₁, h₂⟩
  cases slot with
  | key j =>
      simp only [Field.Touches, hf] at h₁ h₂
      rcases hg with ⟨hg, hne⟩ | ⟨hg, hlt⟩
      · simp only [hg] at h₂
        simp at h₁ h₂
        omega
      · simp only [hg] at h₂
        simp at h₁ h₂
        omega
  | button b =>
      rw [Field.Touches, hf] at h₁
      cases h₁.1

/-- The report is no rollover. -/
theorem keyboard_no_rollover : ¬ RollsOver shiftReport 0 keyboardLayout.fields := by
  rintro ⟨f, hf, -, hk, u, h₁, h₃, i, hi, -, -, hu⟩
  have hkeys : ∀ f ∈ keyboardLayout.fields, f.kind = .keys → f = keysField := by decide
  obtain rfl := hkeys f hf hk
  have hvalues : ∀ i < 2,
      keysField.value (keysField.raw shiftReport i) - keysField.minimum + keysField.usage = 4 ∨
      keysField.value (keysField.raw shiftReport i) - keysField.minimum + keysField.usage = 0 := by
        decide
  rcases hvalues i hi with h | h
  · rw [h] at hu
    omega
  · rw [h] at hu
    omega

/-- A report with a modifier and a key of the array. -/
theorem hid_layout_and_report_oneKey :
    let d := afterReport 640 480 ⟨keyboardLayout, fun _ => 0, 0, false, false⟩ shiftReport 4
    d.Down (.key 225) ∧ d.Down (.key 4) ∧ ¬ d.Down (.key 224) := by
  obtain ⟨-, -, hreport⟩ := hid_layout_and_report keyboard_parse
  rcases hreport ⟨keyboardLayout, fun _ => 0, 0, false, false⟩ shiftReport 4 640 480 rfl rfl rfl
      (by decide) (by decide) with ⟨hshort, -⟩ | ⟨id, p, m, hsel, -, -, hgo⟩
  · cases hshort
  · have hid : id = 0 ∧ p = shiftReport := by
      cases hsel
      exact ⟨rfl, rfl⟩
    obtain ⟨rfl, rfl⟩ := hid
    obtain ⟨mouse, -, -, hfollow, -⟩ := hgo keyboard_no_rollover
    have hkey := fun f hf => hfollow keyboard_disjoint f hf
    refine ⟨?_, ?_, fun h => ?_⟩
    · refine (hkey (modifierField 1) (by decide) rfl (.key 225) (by decide : 225 < 256)
        (.inr ⟨rfl, rfl⟩)).mpr ?_
      show (modifierField 1).raw shiftReport 0 ≠ 0
      decide
    · refine (hkey keysField (by decide) rfl (.key 4) (by decide : 4 < 256)
        (.inl ⟨rfl, by decide, by decide⟩)).mpr
        ⟨by decide, 0, by decide, ?_⟩
      exact ⟨by decide, by decide, by decide⟩
    · have hwants : (modifierField 0).raw shiftReport 0 ≠ 0 :=
        (hkey (modifierField 0) (by decide) rfl (.key 224) (by decide : 224 < 256)
          (.inr ⟨rfl, rfl⟩)).mp h
      exact absurd hwants (by decide)

/-- An element that lists the usage 0, which is in the range of its array, is no key. -/
theorem usage_zero_is_no_key :
    ¬ ∀ (descriptor : Bytes) (size : Nat) (layout : Layout),
      osHidParse descriptor size = .ok layout → ∀ (d : Device) (bytes : Bytes) (n w h : Nat),
      d.layout = layout → d.bootKeys = false → d.bootPointer = false → 1 ≤ w ∧ w ≤ 65536 →
      1 ≤ h ∧ h ≤ 65536 → ∀ id p m, selectReport layout bytes n = .ok (id, p, m) →
      ¬ RollsOver p id layout.fields → layout.fields.Pairwise (Disjoint id) →
      ∀ f ∈ layout.fields, f.report = id → f.kind = .keys → ∀ j < 256, f.usage ≤ j →
        j ≤ f.usageEnd →
          (osKeyIsDown (afterReport w h d bytes n).keys j = true ↔ f.Lists p j) := by
  intro hclaim
  have hzero := hclaim oneKey 23 oneKeyLayout oneKey_parse
    ⟨oneKeyLayout, fun _ => 0, 0, false, false⟩ (fun _ => 0) 1 640 480 rfl rfl rfl (by decide)
    (by decide) 0 (fun _ => 0) 1 rfl ?_ (List.pairwise_singleton _ _) oneKeyField
    (List.mem_singleton_self _) rfl rfl 0 (by decide) (le_refl 0) (by decide)
  · have hlists : oneKeyField.Lists (fun _ => 0) 0 :=
      ⟨0, by decide, by decide, by decide, by decide⟩
    exact absurd (hzero.mpr hlists) (by decide +kernel)
  · have hvalue : oneKeyField.value (oneKeyField.raw (fun _ => 0) 0) = (0 : Nat) := by decide
    exact oneKey_no_rollover hvalue (by decide)

end Efishell.Hid
