import Efishell.Net.Packets
import Efishell.Support.Checked

/-!
# Networking — checksums

Every packet that is sent passes the tests of the receiving side, and does not pass them any more
when one bit of what the checksum covers is flipped (`emitted_verify`).

The sum of a packet is a sum of its octets, each weighing 256 at an even and 1 at an odd place, so
that an odd last octet needs no padding (`netSum_eq`).  For packets of at most 65535 bytes it stays
below `2 ^ 32`, and the tests are about multiples of 65535 (`OnesComplement`).

* `tcp_verifies`, `udp_verifies`, `icmp_verifies`: what is sent passes the tests of the receiver.
* `emitted_verify`: for every packet, and not with a bit flipped.
-/

namespace Efishell.Packets

open OnesComplement

/-! ### The sum of a packet -/

/-- The weight of an octet in its word. -/
def weight (i : Nat) : Nat := if i % 2 = 0 then 256 else 1

/-- The sum of `n` bytes. -/
def sumBytes (p : Bytes) (off n : Nat) : Nat := weighted weight (fun i => (p (off + i)).toNat) n

/-- Two bytes are one word. -/
theorem sumBytes_add_two (p : Bytes) (off n : Nat) :
    sumBytes p off (n + 2) = netBe16 p off + sumBytes p (off + 2) n := by
  rw [sumBytes, weighted, Finset.sum_range_succ', Finset.sum_range_succ', sumBytes,
    weighted, netBe16]
  have hshift : ∀ i, weight (i + 1 + 1) * (p (off + (i + 1 + 1))).toNat =
      weight i * (p (off + 2 + i)).toNat := by
    intro i
    rw [weight, weight, Nat.add_assoc i, Nat.add_mod_right, Nat.add_comm i, ← Nat.add_assoc]
  simp only [hshift]
  simp [weight]
  ring

/-- A bound on the sum. -/
theorem sumBytes_le (p : Bytes) (off n : Nat) : sumBytes p off n ≤ n * 65280 := by
  refine weighted_le fun i _ => ?_
  have := (p (off + i)).toNat_lt
  rw [weight]
  split <;> omega

/-- The sum depends on its own bytes only. -/
theorem sumBytes_congr {p q : Bytes} {off n : Nat} (h : ∀ i < n, p (off + i) = q (off + i)) :
    sumBytes p off n = sumBytes q off n :=
  weighted_congr fun i hi => by rw [h i hi]

/-- **The sum of a packet**, as long as it is one of 32 bits. -/
theorem netSum_eq {p : Bytes} : ∀ {n s off : Nat}, s + sumBytes p off n < 2 ^ 32 →
    netSum s p off n = s + sumBytes p off n
  | 0, s, off, _ => by simp [netSum, sumBytes, weighted]
  | 1, s, off, h => by
      have hone : sumBytes p off 1 = 256 * (p off).toNat := by simp [sumBytes, weighted, weight]
      rw [hone] at h ⊢
      rw [netSum, add32, Nat.mod_eq_of_lt h]
  | n + 2, s, off, h => by
      rw [sumBytes_add_two] at h ⊢
      rw [netSum, add32, Nat.mod_eq_of_lt (by omega), netSum_eq (by omega), Nat.add_assoc]

/-- `net_finish` folds the sum and complements it. -/
theorem netFinish_eq (s : Nat) : netFinish s = finish 16 s := rfl

/-- The pseudo-header of a message of `n` bytes. -/
def pseudo (family : Nat) (src dst : Bytes) (proto n : Nat) : Nat :=
  sumBytes src 0 (netAddrBytes family) + sumBytes dst 0 (netAddrBytes family) +
    (proto + n % 2 ^ 16 + n / 2 ^ 16)

/-- The pseudo header depends on the addresses only. -/
theorem pseudo_congr {family proto n : Nat} {src dst src' dst' : Bytes}
    (h : ∀ i < netAddrBytes family, src i = src' i ∧ dst i = dst' i) :
    pseudo family src dst proto n = pseudo family src' dst' proto n := by
  rw [pseudo, pseudo, sumBytes_congr (q := src') fun i hi => ?_,
    sumBytes_congr (p := dst) (q := dst') fun i hi => ?_]
  · rw [Nat.zero_add]
    exact (h i hi).2
  · rw [Nat.zero_add]
    exact (h i hi).1

theorem netAddrBytes_le (family : Nat) : netAddrBytes family ≤ 16 := by
  rw [netAddrBytes]
  split <;> omega

/-- A sum over a message of at most 65535 bytes and its pseudo-header is one of 32 bits. -/
theorem pseudo_add_lt {family proto n : Nat} (hn : n ≤ 65535) (hp : proto ≤ 255)
    (src dst p : Bytes) :
    pseudo family src dst proto n + sumBytes p 0 n < 2 ^ 32 := by
  have h₁ := sumBytes_le src 0 (netAddrBytes family)
  have h₂ := sumBytes_le dst 0 (netAddrBytes family)
  have h₃ := sumBytes_le p 0 n
  have h₄ := netAddrBytes_le family
  rw [pseudo]
  omega

/-- The sum does not wrap, so the checksum is that of the whole. -/
theorem netTransportSum_eq {family proto n : Nat} {src dst p : Bytes} (hn : n ≤ 65535)
    (hp : proto ≤ 255) : netTransportSum family src dst proto p n =
      finish 16 (pseudo family src dst proto n + sumBytes p 0 n) := by
  have hlt := @pseudo_add_lt family _ _ hn hp src dst p
  rw [pseudo] at hlt ⊢
  rw [netTransportSum]
  rw [netSum_eq (s := 0) (p := src) (by omega), netSum_eq (p := dst) (by omega), add32,
    Nat.mod_eq_of_lt (by omega), netSum_eq (p := p) (by omega), netFinish_eq, Nat.zero_add]

theorem kNetChecksum_eq {p : Bytes} {n : Nat} (hn : n ≤ 65535) :
    kNetChecksum p n = finish 16 (sumBytes p 0 n) := by
  have := sumBytes_le p 0 n
  rw [kNetChecksum, netSum_eq (by omega), netFinish_eq, Nat.zero_add]

/-! ### The field of the checksum -/

/-- The field is two bytes. -/
theorem netPut16_eq (b : Bytes) (off x : Nat) : netPut16 b off x =
    Function.update (Function.update b (off + 1) (UInt8.ofNat x)) off (UInt8.ofNat (x / 256)) := by
  funext i
  simp only [netPut16, Function.update_apply]

/-- One byte that changes. -/
theorem sumBytes_update {p : Bytes} {i n : Nat} {x : UInt8} (hi : i < n) :
    sumBytes (Function.update p i x) 0 n + weight i * (p i).toNat =
      sumBytes p 0 n + weight i * x.toNat := by
  have hsame : ∀ j < n, j ≠ i →
      (Function.update p i x (0 + j)).toNat = (p (0 + j)).toNat := fun j _ hj => by simp [hj]
  have hchange := weighted_change (c := weight) hi hsame
  simpa [sumBytes] using hchange

/-- What the checksum adds to the sum, when its field was empty. -/
theorem sumBytes_put16 {p : Bytes} {c n x : Nat} (hc : c % 2 = 0) (hn : c + 1 < n) (hx : x < 65536)
    (h₀ : p c = 0) (h₁ : p (c + 1) = 0) : sumBytes (netPut16 p c x) 0 n = sumBytes p 0 n + x := by
  have hlow := sumBytes_update (p := p) (x := UInt8.ofNat x) hn
  have hhigh := sumBytes_update (p := Function.update p (c + 1) (UInt8.ofNat x))
    (x := UInt8.ofNat (x / 256)) (show c < n by omega)
  have hw : weight c = 256 := if_pos hc
  have hw' : weight (c + 1) = 1 := if_neg (by omega)
  rw [Function.update_of_ne (by omega), h₀, hw] at hhigh
  rw [h₁, hw'] at hlow
  rw [netPut16_eq]
  simp only [UInt8.toNat_zero, Nat.mul_zero, Nat.add_zero, UInt8.toNat_ofNat'] at hlow hhigh
  omega

/-- The checksum put into its empty field makes the sum a positive multiple of 65535, and so does
`0xffff` in the place of 0. -/
theorem sumBytes_checksum {p : Bytes} {a c n x : Nat} (hc : c % 2 = 0) (hn : c + 1 < n)
    (hlt : a + sumBytes p 0 n < 2 ^ 32) (h₀ : p c = 0) (h₁ : p (c + 1) = 0)
    (hx : x = finish 16 (a + sumBytes p 0 n) ∨
      (finish 16 (a + sumBytes p 0 n) = 0 ∧ x = 65535)) :
    0 < a + sumBytes (netPut16 p c x) 0 n ∧ 65535 ∣ a + sumBytes (netPut16 p c x) 0 n := by
  have hadd := dvd_add_finish (w := 16) (by decide) hlt
  rcases hx with rfl | ⟨hzero, rfl⟩
  · rw [sumBytes_put16 hc hn (finish_lt 16 _) h₀ h₁, ← Nat.add_assoc]
    exact hadd
  · rw [hzero, Nat.add_zero] at hadd
    rw [sumBytes_put16 hc hn (by decide) h₀ h₁, ← Nat.add_assoc]
    exact ⟨by omega, Nat.dvd_add hadd.2 (dvd_refl _)⟩

/-! ### A flipped bit -/

/-- A bit flipped adds or takes its weight. -/
theorem flip_toNat (x : UInt8) {k : Nat} (hk : k < 8) :
    (x ^^^ UInt8.ofNat (2 ^ k)).toNat = x.toNat + 2 ^ k ∨
      x.toNat = (x ^^^ UInt8.ofNat (2 ^ k)).toNat + 2 ^ k := by
  have hall : ∀ n < 256, ∀ k < 8,
      (UInt8.ofNat n ^^^ UInt8.ofNat (2 ^ k)).toNat = n + 2 ^ k ∨
        n = (UInt8.ofNat n ^^^ UInt8.ofNat (2 ^ k)).toNat + 2 ^ k := by
    decide +kernel
  have hx := hall x.toNat x.toNat_lt k hk
  rwa [UInt8.ofNat_toNat] at hx

/-- **A flipped bit** changes the sum by a power of two below 65535. -/
theorem sumBytes_flip (p : Bytes) {i k n : Nat} (hi : i < n) (hk : k < 8) :
    ∃ j < 16, sumBytes (flipBit p i k) 0 n = sumBytes p 0 n + 2 ^ j ∨
      sumBytes p 0 n = sumBytes (flipBit p i k) 0 n + 2 ^ j := by
  have hchange := sumBytes_update (p := p) (x := p i ^^^ UInt8.ofNat (2 ^ k)) hi
  have hpow : ∃ j < 16, weight i * 2 ^ k = 2 ^ j := by
    rw [weight]
    split
    · exact ⟨8 + k, by omega, by rw [pow_add]; rfl⟩
    · exact ⟨k, by omega, Nat.one_mul _⟩
  obtain ⟨j, hj, hpow⟩ := hpow
  refine ⟨j, hj, ?_⟩
  rw [← hpow, flipBit]
  rcases flip_toNat (p i) hk with h | h
  · rw [h, Nat.mul_add] at hchange
    omega
  · conv at hchange => lhs; rw [h, Nat.mul_add]
    omega

/-- A sum that passes the test does not pass it with a flipped bit. -/
theorem flip_detected {a i k n : Nat} {p : Bytes} (hi : i < n) (hk : k < 8)
    (h : 65535 ∣ a + sumBytes p 0 n) : ¬ 65535 ∣ a + sumBytes (flipBit p i k) 0 n := by
  intro h'
  obtain ⟨j, hj, hsum | hsum⟩ := sumBytes_flip p hi hk
  · rw [hsum, ← Nat.add_assoc] at h'
    exact not_dvd_bit (w := 16) (by decide) hj ((Nat.dvd_add_right h).mp h')
  · rw [hsum, ← Nat.add_assoc] at h
    exact not_dvd_bit (w := 16) (by decide) hj ((Nat.dvd_add_right h').mp h)

/-! ### What the receiver sees -/

/-- The bytes beside the field stay. -/
theorem netPut16_ne {b : Bytes} {off x i : Nat} (h : i ≠ off) (h' : i ≠ off + 1) :
    netPut16 b off x i = b i := by
  rw [netPut16, if_neg h, if_neg h']

/-- The field reads back. -/
theorem netBe16_put16 {b : Bytes} {off x : Nat} (hx : x < 65536) :
    netBe16 (netPut16 b off x) off = x := by
  rw [netBe16, netPut16, if_pos rfl, netPut16, if_neg (by omega), if_pos rfl, UInt8.toNat_ofNat',
    UInt8.toNat_ofNat']
  omega

/-- The field depends on its two bytes only. -/
theorem netBe16_congr {p q : Bytes} {i j : Nat} (h₀ : p i = q j) (h₁ : p (i + 1) = q (j + 1)) :
    netBe16 p i = netBe16 q j := by
  rw [netBe16, netBe16, h₀, h₁]

/-- The view of a packet: what it was made from. -/
structure Sees (family : Nat) (src dst : Bytes) (proto : Nat) (bytes : Bytes) (n : Nat)
    (v : IpView) :
    Prop where
  src : ∀ i < netAddrBytes family, v.src i = src i
  dst : ∀ i < netAddrBytes family, v.dst i = dst i
  proto : v.proto = UInt8.ofNat proto
  payload : ∀ i < n, v.payload i = bytes i
  size : v.size = n

/-- A checksum put into an empty field of bytes that hold it. -/
theorem kNetChecksum_put {p : Bytes} {c n : Nat} (hc : c % 2 = 0) (hn : c + 1 < n) (hle : n ≤ 65535)
    (h₀ : p c = 0) (h₁ : p (c + 1) = 0) : kNetChecksum (netPut16 p c (kNetChecksum p n)) n = 0 := by
  have hle' := sumBytes_le p 0 n
  have hle'' := sumBytes_le (netPut16 p c (kNetChecksum p n)) 0 n
  rw [kNetChecksum_eq hle, finish_eq_zero (by decide) (by omega)]
  have := sumBytes_checksum (a := 0) (x := kNetChecksum p n) hc hn (by omega) h₀ h₁
    (.inl (by rw [kNetChecksum_eq hle, Nat.zero_add]))
  simpa using this

/-- The header for IPv4. -/
theorem header4_view {stack src dst : Bytes} {id proto n ttl : Nat} (hn : n ≤ 1480) :
    let q := header4 (memZero stack 0 20) src dst id proto n ttl
    headerSize q = 20 ∧ netBe16 q 2 = n + 20 ∧ q 9 = UInt8.ofNat proto ∧
      (∀ i < 4, q (12 + i) = src i) ∧ (∀ i < 4, q (16 + i) = dst i) ∧ kNetChecksum q 20 = 0 := by
  intro q
  have hput : ∀ (b : Bytes) (i : Nat), (i ≠ 6 ∧ i ≠ 7) →
      (if proto = 6 then netPut16 b 6 0x4000 else b) i = b i := by
    rintro b i ⟨h, h'⟩
    split
    · exact netPut16_ne h h'
    · rfl
  have hz : ∀ i < 20, memZero stack 0 20 i = 0 := fun i hi => memZero_eq (Nat.zero_le i) (by omega)
  refine ⟨?_, ?_, ?_, fun i hi => ?_, fun i hi => ?_,
    kNetChecksum_put rfl (by decide) (by decide) ?_ ?_⟩
  · simp [q, header4, headerSize, netPut16_ne, memCopy_ne, hput]
  · have hwrite : netBe16 (netPut16 (Function.update (memZero stack 0 20) 0 0x45) 2 (n + 20)) 2 =
        n + 20 := netBe16_put16 (by omega)
    rw [← hwrite]
    refine netBe16_congr ?_ ?_
    · simp [q, header4, netPut16_ne, memCopy_ne, hput]
    · simp [q, header4, netPut16_ne, memCopy_ne, hput]
  · simp [q, header4, netPut16_ne, memCopy_ne]
  · simp only [q, header4]
    rw [netPut16_ne (by omega) (by omega),
      memCopy_ne (by omega), memCopy_eq (by omega) (by omega),
        Nat.add_sub_cancel_left, Nat.zero_add]
  · simp only [q, header4]
    rw [netPut16_ne (by omega) (by omega),
      memCopy_eq (by omega) (by omega), Nat.add_sub_cancel_left, Nat.zero_add]
  · simp [netPut16_ne, memCopy_ne, hput, hz]
  · simp [netPut16_ne, memCopy_ne, hput, hz]

/-- What the input path reads of an IPv6 header. -/
theorem header6_view {stack src dst : Bytes} {proto n ttl : Nat} (hn : n ≤ 1480) :
    let q := header6 (memZero stack 0 40) src dst proto n ttl
    netBe16 q 4 = n ∧ q 6 = UInt8.ofNat proto ∧ (∀ i < 16, q (8 + i) = src i) ∧
      ∀ i < 16, q (24 + i) = dst i := by
  intro q
  refine ⟨?_, ?_, fun i hi => ?_, fun i hi => ?_⟩
  · have hwrite : netBe16 (netPut16 (Function.update (memZero stack 0 40) 0 0x60) 4 n) 4 = n :=
      netBe16_put16 (by omega)
    refine Eq.trans (netBe16_congr ?_ ?_) hwrite
    · simp [q, header6, memCopy_ne]
    · simp [q, header6, memCopy_ne]
  · simp [q, header6, memCopy_ne]
  · simp only [q, header6]
    rw [memCopy_ne (by omega), memCopy_eq (by omega) (by omega),
      Nat.add_sub_cancel_left, Nat.zero_add]
  · simp only [q, header6]
    rw [memCopy_eq (by omega) (by omega),
      Nat.add_sub_cancel_left, Nat.zero_add]

/-- **What is sent is what is seen**, and the header of an IPv4 packet passes its test. -/
theorem netIpSend_sees {w : Sending} {family proto n ttl : Nat} {src dst bytes : Bytes}
    {q : IpPacket} (h : netIpSend w family src dst proto bytes n ttl = .ok q) :
    Sees family src dst proto bytes n (ipView family q.bytes) ∧ headerTest family q.bytes ∧
      n ≤ 1480 := by
  have hge := w.iface.mtu_ge
  have hle := w.iface.mtu_le
  rw [netIpSend] at h
  obtain ⟨hmtu, h⟩ := ok_guard.mp h
  cases hr : w.resolve with
  | some e =>
      rw [hr] at h
      cases h
  | none =>
      rw [hr] at h
      cases h
      by_cases hf : family = 4
      · subst hf
        rw [if_pos rfl, sub32] at hmtu
        have hn : n ≤ 1480 := by omega
        obtain ⟨hh, htotal, hproto, hsrc, hdst, hsum⟩ :=
          @header4_view w.stack src dst w.id proto n ttl hn
        simp only [if_true]
        -- the payload stands behind the header and does not touch it
        generalize header4 (memZero w.stack 0 20) src dst w.id proto n ttl = q at *
        have hq : ∀ i < 20, memCopy q 20 bytes 0 n i = q i := fun i hi => memCopy_ne (.inl hi)
        have hsize : headerSize (memCopy q 20 bytes 0 n) = 20 := by
          rw [headerSize, hq 0 (by decide)]
          exact hh
        refine ⟨⟨fun i hi => ?_, fun i hi => ?_, ?_, fun i hi => ?_, ?_⟩, ?_, hn⟩
        · rw [ipView, if_pos rfl]
          exact (hq _ (by rw [netAddrBytes, if_pos rfl] at hi; omega)).trans (hsrc i hi)
        · rw [ipView, if_pos rfl]
          exact (hq _ (by rw [netAddrBytes, if_pos rfl] at hi; omega)).trans (hdst i hi)
        · rw [ipView, if_pos rfl]
          exact (hq 9 (by decide)).trans hproto
        · rw [ipView, if_pos rfl, hsize]
          dsimp only [bytesAt]
          rw [memCopy_eq (by omega) (by omega), Nat.add_sub_cancel_left, Nat.zero_add]
        · rw [ipView, if_pos rfl, hsize]
          dsimp only
          rw [netBe16_congr (hq 2 (by decide)) (hq 3 (by decide)), htotal, Nat.add_sub_cancel]
        · rw [headerTest, hsize, kNetChecksum_eq (by decide),
            sumBytes_congr (q := q) fun i hi => ?_, ← kNetChecksum_eq (by decide), hsum]
          · rfl
          · exact hq _ (by omega)
      · rw [if_neg hf, sub32] at hmtu
        have hn : n ≤ 1480 := by omega
        obtain ⟨hsize, hproto, hsrc, hdst⟩ :=
          @header6_view w.stack src dst proto n ttl hn
        simp only [if_neg hf]
        generalize header6 (memZero w.stack 0 40) src dst proto n ttl = q at *
        have hq : ∀ i < 40, memCopy q 40 bytes 0 n i = q i := fun i hi => memCopy_ne (.inl hi)
        refine ⟨⟨fun i hi => ?_, fun i hi => ?_, ?_, fun i hi => ?_, ?_⟩, ?_, hn⟩
        · rw [netAddrBytes, if_neg hf] at hi
          rw [ipView, if_neg hf]
          exact (hq _ (by omega)).trans (hsrc i hi)
        · rw [netAddrBytes, if_neg hf] at hi
          rw [ipView, if_neg hf]
          exact (hq _ (by omega)).trans (hdst i hi)
        · rw [ipView, if_neg hf]
          exact (hq 6 (by decide)).trans hproto
        · rw [ipView, if_neg hf]
          dsimp only [bytesAt]
          rw [memCopy_eq (by omega) (by omega), Nat.add_sub_cancel_left, Nat.zero_add]
        · rw [ipView, if_neg hf]
          dsimp only
          rw [netBe16_congr (hq 4 (by decide)) (hq 5 (by decide)), hsize]
        · simp [headerTest, hf]

/-! ### The messages -/

/-- **A message with its checksum** passes the test, and does not with a bit flipped. -/
theorem message_verifies {p v : Bytes} {a c n x : Nat} (hc : c % 2 = 0) (hn : c + 1 < n)
    (hlt : ∀ p, a + sumBytes p 0 n < 2 ^ 32) (h₀ : p c = 0) (h₁ : p (c + 1) = 0)
    (hx : x = finish 16 (a + sumBytes p 0 n) ∨ (finish 16 (a + sumBytes p 0 n) = 0 ∧ x = 65535))
    (hv : ∀ i < n, v i = netPut16 p c x i) :
    finish 16 (a + sumBytes v 0 n) = 0 ∧
      ∀ i < n, ∀ k < 8, finish 16 (a + sumBytes (flipBit v i k) 0 n) ≠ 0 := by
  have hsum : sumBytes v 0 n = sumBytes (netPut16 p c x) 0 n :=
    sumBytes_congr fun i hi => by rw [Nat.zero_add, hv i hi]
  obtain ⟨hpos, hdvd⟩ := sumBytes_checksum hc hn (hlt p) h₀ h₁ hx
  rw [← hsum] at hpos hdvd
  refine ⟨(finish_eq_zero (by decide) (hlt v)).mpr ⟨hpos, hdvd⟩, fun i hi k hk hzero => ?_⟩
  exact flip_detected hi hk hdvd ((finish_eq_zero (by decide) (hlt _)).mp hzero).2

/-- The same for a sum with a pseudo-header, as the receiver computes it. -/
theorem transport_verifies {family proto c n x : Nat} {src dst p : Bytes} {v : IpView}
    (hc : c % 2 = 0) (hn : c + 1 < n) (hle : n ≤ 65535) (hp : proto ≤ 255) (h₀ : p c = 0)
    (h₁ : p (c + 1) = 0)
    (hx : x = netTransportSum family src dst proto p n ∨
      (netTransportSum family src dst proto p n = 0 ∧ x = 65535))
    (hv : Sees family src dst proto (netPut16 p c x) n v) :
    netTransportSum family v.src v.dst proto v.payload n = 0 ∧
      ∀ i < n, ∀ k < 8,
        netTransportSum family v.src v.dst proto (flipBit v.payload i k) n ≠ 0 := by
  have hpseudo : pseudo family v.src v.dst proto n = pseudo family src dst proto n :=
    pseudo_congr fun i hi => ⟨hv.src i hi, hv.dst i hi⟩
  simp only [netTransportSum_eq hle hp] at hx ⊢
  rw [hpseudo]
  exact message_verifies hc hn (fun p => pseudo_add_lt hle hp src dst p) h₀ h₁ hx hv.payload

/-- The same for a sum without one. -/
theorem checksum_verifies {c n : Nat} {p v : Bytes} (hc : c % 2 = 0) (hn : c + 1 < n)
    (hle : n ≤ 65535) (h₀ : p c = 0) (h₁ : p (c + 1) = 0)
    (hv : ∀ i < n, v i = netPut16 p c (kNetChecksum p n) i) :
    kNetChecksum v n = 0 ∧ ∀ i < n, ∀ k < 8, kNetChecksum (flipBit v i k) n ≠ 0 := by
  have hlt : ∀ p, 0 + sumBytes p 0 n < 2 ^ 32 := fun p => by
    have := sumBytes_le p 0 n
    omega
  simp only [kNetChecksum_eq hle] at hv ⊢
  have := message_verifies (a := 0) hc hn hlt h₀ h₁ (.inl rfl) (v := v) (by simpa using hv)
  simpa using this

theorem netBe16_pos {p : Bytes} {off x : Nat} (hx : x < 65536) (h₀ : p off = UInt8.ofNat (x / 256))
    (h₁ : p (off + 1) = UInt8.ofNat x) : netBe16 p off = x := by
  rw [netBe16, h₀, h₁, UInt8.toNat_ofNat', UInt8.toNat_ofNat']
  omega

/-- The datagram before its checksum. -/
def udpPlain (stack : Bytes) (s : NetSocket) (dest : NetAddress) (bytes : Bytes)
    (n : Nat) : Bytes :=
  let p := netPut16 (netPut16 (netPut16 stack 0 s.localAddr.port) 2 dest.port) 4 (n + 8)
  memCopy (Function.update (Function.update p 7 0) 6 0) 8 bytes 0 n

/-- The checksum's field is zero before it is filled in. -/
theorem udpPlain_field (stack : Bytes) (s : NetSocket) (dest : NetAddress)
    (bytes : Bytes) (n : Nat) :
    udpPlain stack s dest bytes n 6 = 0 ∧ udpPlain stack s dest bytes n 7 = 0 ∧
      udpPlain stack s dest bytes n 4 = UInt8.ofNat ((n + 8) / 256) ∧
      udpPlain stack s dest bytes n 5 = UInt8.ofNat (n + 8) := by
  refine ⟨?_, ?_, ?_, ?_⟩ <;> simp [udpPlain, memCopy_ne, netPut16]

/-- **Datagrams** pass the tests, and do not with a bit of their payload flipped. -/
theorem udp_verifies {route : Except Errno (Sending × Bytes)} {privileged : Bool}
    {stack bytes : Bytes} {s : NetSocket} {n : Nat} {dest : NetAddress} {q : IpPacket}
    (h : netUdpOutput route privileged stack s bytes n dest = .ok q) :
    headerTest s.family q.bytes ∧ (ipView s.family q.bytes).proto = 17 ∧
      netBe16 (ipView s.family q.bytes).payload 6 ≠ 0 ∧ udpTest s.family (ipView s.family q.bytes) ∧
      ∀ i < n, ∀ k < 8, udpTest s.family ((ipView s.family q.bytes).flip (8 + i) k) = false := by
  cases route with
  | error e => cases h
  | ok r =>
      obtain ⟨w, src₀⟩ := r
      rw [netUdpOutput] at h
      obtain ⟨hlen, h⟩ := ok_guard.mp h
      cases hs : udpSource w privileged s src₀ with
      | error e =>
          rw [hs] at h
          cases h
      | ok src =>
          rw [hs] at h
          obtain ⟨hsees, hheader, -⟩ := netIpSend_sees h
          obtain ⟨h₆, h₇, h₄, h₅⟩ := udpPlain_field stack s dest bytes n
          generalize ipView s.family q.bytes = v at hsees ⊢
          let sum :=
            netTransportSum s.family src dest.bytes 17 (udpPlain stack s dest bytes n) (n + 8)
          -- a sum of zero is sent as 0xffff, which is the same number in one's complement
          have hx : (if sum ≠ 0 then sum else 0xffff) = sum ∨
              (sum = 0 ∧ (if sum ≠ 0 then sum else 0xffff) = 65535) := by
            by_cases h0 : sum = 0
            · exact .inr ⟨h0, by rw [if_neg (not_not.mpr h0)]⟩
            · exact .inl (if_pos h0)
          have hsum : sum < 65536 := finish_lt 16 _
          have hne : (if sum ≠ 0 then sum else 0xffff) ≠ 0 ∧
              (if sum ≠ 0 then sum else 0xffff) < 65536 := by
            split <;> omega
          obtain ⟨hzero, hflip⟩ := transport_verifies (c := 6) rfl (by omega) (by omega) (by decide)
            h₆ h₇ hx hsees
          have hbyte : ∀ i < n + 8, v.payload i = netPut16 (udpPlain stack s dest bytes n) 6
              (if sum ≠ 0 then sum else 0xffff) i := hsees.payload
          have hfield : netBe16 v.payload 6 = if sum ≠ 0 then sum else 0xffff := by
            rw [netBe16_congr (hbyte 6 (by omega)) (hbyte 7 (by omega)), netBe16_put16 hne.2]
          have hsize : netBe16 v.payload 4 = n + 8 := by
            refine netBe16_pos (by omega) ?_ ?_
            · rw [hbyte 4 (by omega), netPut16_ne (by decide) (by decide), h₄]
            · rw [hbyte 5 (by omega), netPut16_ne (by decide) (by decide), h₅]
          refine ⟨hheader, hsees.proto, hfield ▸ hne.1, ?_, fun i hi k hk => ?_⟩
          · simp [udpTest, hsize, hzero, hfield ▸ hne.1]
          · have hkeep : ∀ j < 8, flipBit v.payload (8 + i) k j = v.payload j := fun j hj =>
              Function.update_of_ne (by omega) _ _
            have hsize' : netBe16 (flipBit v.payload (8 + i) k) 4 = n + 8 :=
              (netBe16_congr (hkeep 4 (by decide)) (hkeep 5 (by decide))).trans hsize
            have hfield' : netBe16 (flipBit v.payload (8 + i) k) 6 ≠ 0 := by
              rw [netBe16_congr (hkeep 6 (by decide)) (hkeep 7 (by decide)), hfield]
              exact hne.1
            simp [udpTest, IpView.flip, hsize', hfield', hflip (8 + i) (by omega) k hk]

/-- The segment before its checksum. -/
def tcpPlain (stack : Bytes) (s : NetSocket) (sequence : Nat) (flags : TcpFlags) (bytes : Bytes)
    (n h : Nat) : Bytes :=
  let p := memZero stack 0 h
  let p := netPut16 p 0 s.localAddr.port
  let p := netPut16 p 2 s.peer.port
  let p := netPut32 p 4 sequence
  let p := if flags.ack then netPut32 p 8 s.tcp.rcvNxt else p
  let p := Function.update p 12 (UInt8.ofNat (h / 4 * 16))
  let p := Function.update p 13 (UInt8.ofNat (flagsByte flags))
  let p := netPut16 p 14 (netStream - s.tcp.rxCount)
  let p :=
    if flags.syn then
      netPut16 (Function.update (Function.update p 20 2) 21 4) 22
        (if s.family = 6 then 1220 else 1440)
    else p
  memCopy p h bytes 0 n

theorem tcpPlain_field (stack : Bytes) (s : NetSocket) (sequence : Nat) (flags : TcpFlags)
    (bytes : Bytes) (n : Nat) {h : Nat} (hh : 20 ≤ h) :
    tcpPlain stack s sequence flags bytes n h 16 = 0 ∧
      tcpPlain stack s sequence flags bytes n h 17 = 0 := by
  have hz : ∀ i < 20, memZero stack 0 h i = 0 := fun i hi => memZero_eq (Nat.zero_le i) (by omega)
  refine ⟨?_, ?_⟩
  · rw [tcpPlain, memCopy_ne (by omega)]
    simp [netPut16, netPut32, ite_apply, hz]
  · rw [tcpPlain, memCopy_ne (by omega)]
    simp [netPut16, netPut32, ite_apply, hz]

/-- **Segments** pass the test, and do not with a bit flipped. -/
theorem tcp_verifies {w : Option Sending} {stack bytes : Bytes} {s : NetSocket} {sequence n : Nat}
    {flags : TcpFlags} {q : IpPacket}
    (h : netTcpPacket w stack s sequence flags bytes n = .ok q) :
    headerTest s.family q.bytes ∧ (ipView s.family q.bytes).proto = 6 ∧
      tcpTest s.family (ipView s.family q.bytes) ∧
      ∀ i < (ipView s.family q.bytes).size, ∀ k < 8,
        tcpTest s.family ((ipView s.family q.bytes).flip i k) = false := by
  cases w with
  | none => cases h
  | some w =>
      rw [netTcpPacket] at h
      obtain ⟨-, h⟩ := ok_guard.mp h
      obtain ⟨hsees, hheader, hle⟩ := netIpSend_sees h
      have hh : 20 ≤ if flags.syn then 24 else 20 := by split <;> omega
      obtain ⟨h₁₆, h₁₇⟩ := tcpPlain_field stack s sequence flags bytes n hh
      generalize ipView s.family q.bytes = v at hsees ⊢
      obtain ⟨hzero, hflip⟩ := transport_verifies (c := 16) rfl (by omega) (by omega) (by decide)
        h₁₆ h₁₇ (.inl rfl) hsees
      refine ⟨hheader, hsees.proto, ?_, fun i hi k hk => ?_⟩
      · simp [tcpTest, hsees.size, hzero]
      · rw [hsees.size] at hi
        simp [tcpTest, IpView.flip, hsees.size, hflip i hi k hk]

/-- An ICMP message whose checksum was filled in passes. -/
theorem icmp_verifies {family proto n : Nat} {src dst p : Bytes} {v : IpView} (hn : 4 ≤ n)
    (hle : n ≤ 65535) (h₂ : p 2 = 0) (h₃ : p 3 = 0)
    (hv : Sees family src dst proto (netPut16 p 2
      (if family = 4 then kNetChecksum p n else netTransportSum 6 src dst 58 p n)) n v) :
    icmpTest family v ∧ ∀ i < v.size, ∀ k < 8, icmpTest family (v.flip i k) = false := by
  by_cases hf : family = 4
  · rw [if_pos hf] at hv
    obtain ⟨hzero, hflip⟩ := checksum_verifies rfl (by omega) hle h₂ h₃ hv.payload
    refine ⟨by simp [icmpTest, hf, hv.size, hzero], fun i hi k hk => ?_⟩
    rw [hv.size] at hi
    simp [icmpTest, IpView.flip, hf, hv.size, hflip i hi k hk]
  · rw [if_neg hf] at hv
    have hbytes : netAddrBytes 6 = netAddrBytes family := by
      rw [netAddrBytes, netAddrBytes, if_neg hf]
      rfl
    have hv' : Sees 6 src dst 58 (netPut16 p 2 (netTransportSum 6 src dst 58 p n)) n
        { v with proto := 58 } :=
      ⟨fun i hi => hv.src i (hbytes ▸ hi), fun i hi => hv.dst i (hbytes ▸ hi), rfl, hv.payload,
        hv.size⟩
    obtain ⟨hzero, hflip⟩ :=
      transport_verifies rfl (by omega) hle (by decide) h₂ h₃ (.inl rfl) hv'
    refine ⟨by simp [icmpTest, hf, hv.size, hzero], fun i hi k hk => ?_⟩
    rw [hv.size] at hi
    simp [icmpTest, IpView.flip, hf, hv.size, hflip i hi k hk]

/-- The message of `net_udp_unreachable` before its checksum. -/
def unreachablePlain (family : Nat) (src dst p : Bytes) (n : Nat) : Bytes :=
  let message : Bytes := fun _ => 0
  let message := Function.update message 0 (if family = 4 then 3 else 1)
  let message := Function.update message 1 (if family = 4 then 3 else 4)
  memCopy (through message 8 (quoteHeader family (bytesAt message 8) src dst n))
    (8 + if family = 4 then 20 else 40) p 0 (if family = 4 then 8 else min n 1232)

/-- The size of an unreachable message. -/
theorem unreachableSize_eq (family n : Nat) : unreachableSize family n =
    8 + (if family = 4 then 20 else 40) + (if family = 4 then 8 else min n 1232) := by
  rw [unreachableSize]
  split <;> rfl

/-- Its checksum is filled in last. -/
theorem unreachableMessage_eq (family : Nat) (src dst p : Bytes) (n : Nat) :
    unreachableMessage family src dst p n = netPut16 (unreachablePlain family src dst p n) 2
      (if family = 4 then
        kNetChecksum (unreachablePlain family src dst p n) (unreachableSize family n)
        else netTransportSum 6 dst src 58 (unreachablePlain family src dst p n)
          (unreachableSize family n)) := by
  rw [unreachableSize_eq]
  rfl

/-- The header that is quoted has its checksum too. -/
theorem quoteHeader_verifies {q src dst : Bytes} {n : Nat} (h₁₀ : q 10 = 0) (h₁₁ : q 11 = 0) :
    kNetChecksum (quoteHeader 4 q src dst n) 20 = 0 := by
  refine kNetChecksum_put rfl (by decide) (by decide) ?_ ?_
  · simp [netPut16, memCopy_ne, h₁₀]
  · simp [netPut16, memCopy_ne, h₁₁]

/-- An unreachable message passes both tests. -/
theorem unreachable_verifies {w : Sending} {allow : Bool} {family n : Nat} {src dst p : Bytes}
    {q : IpPacket} (h : netUdpUnreachable w allow family src dst p n = some q) :
    headerTest family q.bytes ∧ icmpTest family (ipView family q.bytes) ∧
      (∀ i < (ipView family q.bytes).size, ∀ k < 8,
        icmpTest family ((ipView family q.bytes).flip i k) = false) ∧
      (family = 4 → kNetChecksum (bytesAt (ipView family q.bytes).payload 8) 20 = 0) := by
  rw [netUdpUnreachable, Option.ite_none_left_eq_some] at h
  obtain ⟨-, h⟩ := h
  cases hsend : netIpSend w family dst src (if family = 4 then 1 else 58)
      (unreachableMessage family src dst p n) (unreachableSize family n) 64 with
  | error e =>
      rw [hsend] at h
      cases h
  | ok q' =>
      rw [hsend] at h
      cases h
      rw [unreachableMessage_eq] at hsend
      obtain ⟨hsees, hheader, -⟩ := netIpSend_sees hsend
      have hsize := unreachableSize_eq family n
      have hmin : min n 1232 ≤ 1232 := Nat.min_le_right _ _
      have hsmall : 28 ≤ unreachableSize family n ∧ unreachableSize family n ≤ 1280 := by
        rw [hsize]
        split <;> omega
      have hplain : ∀ i < 8, 2 ≤ i → unreachablePlain family src dst p n i = 0 := by
        intro i hi hi'
        rw [unreachablePlain, memCopy_ne (by split <;> omega), through, if_pos hi,
          Function.update_of_ne (by omega), Function.update_of_ne (by omega)]
      generalize ipView family q.bytes = v at hsees ⊢
      obtain ⟨htest, hflip⟩ :=
        icmp_verifies (by omega) (by omega) (hplain 2 (by decide) (by decide))
        (hplain 3 (by decide) (by decide)) hsees
      refine ⟨hheader, htest, hflip, fun hf => ?_⟩
      subst hf
      have hquote : ∀ i < 20, bytesAt v.payload 8 (0 + i) =
          quoteHeader 4
            (bytesAt (Function.update (Function.update (fun _ => 0) 0 3) 1 3) 8) src dst n
            (0 + i) := by
        intro i hi
        rw [Nat.zero_add, bytesAt, hsees.payload (8 + i) (by omega),
          netPut16_ne (by omega) (by omega),
          unreachablePlain, memCopy_ne (by rw [if_pos rfl]; omega), through, if_neg (by omega),
          Nat.add_sub_cancel_left]
        rfl
      rw [kNetChecksum_eq (by decide), sumBytes_congr hquote, ← kNetChecksum_eq (by decide)]
      exact quoteHeader_verifies (by simp [bytesAt]) (by simp [bytesAt])

/-- The echo reply before its checksum. -/
def replyPlain (family : Nat) (stack p : Bytes) (n : Nat) : Bytes :=
  let b := Function.update (memCopy stack 0 p 0 n) 0 (if family = 4 then 0 else 129)
  Function.update (Function.update b 3 0) 2 0

theorem reply_verifies {w : Sending} {allow : Bool} {family n : Nat} {stack src dst p : Bytes}
    {q : IpPacket} (h : netEchoReply w allow family stack src dst p n = some q) :
    headerTest family q.bytes ∧ icmpTest family (ipView family q.bytes) ∧
      ∀ i < (ipView family q.bytes).size, ∀ k < 8,
        icmpTest family ((ipView family q.bytes).flip i k) = false := by
  rw [netEchoReply, Option.ite_none_left_eq_some] at h
  obtain ⟨hguard, h⟩ := h
  cases hsend : netIpSend w family dst src (if family = 4 then 1 else 58)
      (replyMessage family stack src dst p n) n 64 with
  | error e =>
      rw [hsend] at h
      cases h
  | ok q' =>
      rw [hsend] at h
      cases h
      obtain ⟨hsees, hheader, -⟩ := netIpSend_sees hsend
      generalize ipView family q.bytes = v at hsees ⊢
      have hplain : replyPlain family stack p n 2 = 0 ∧ replyPlain family stack p n 3 = 0 := by
        simp [replyPlain]
      exact ⟨hheader, icmp_verifies (p := replyPlain family stack p n) (by omega) (by omega)
        hplain.1 hplain.2 hsees⟩

/-! ### All of them -/

/-- **Packets that are sent verify, and damaged ones do not.**  Whatever is sent passes the tests of
the receiving side: the header of an IPv4 packet, and the message with the pseudo-header that the
receiver makes from the header of the packet.  With any bit of a segment, an ICMP message or the
payload of a datagram flipped it does not.  No sum on the way leaves 32 bits. -/
theorem emitted_verify :
    (∀ w family src dst proto bytes n ttl q,
      netIpSend w family src dst proto bytes n ttl = .ok q → headerTest family q.bytes) ∧
    (∀ route privileged stack s bytes n dest q,
      netUdpOutput route privileged stack s bytes n dest = .ok q →
      headerTest s.family q.bytes ∧ netBe16 (ipView s.family q.bytes).payload 6 ≠ 0 ∧
        udpTest s.family (ipView s.family q.bytes) ∧
        ∀ i < n, ∀ k < 8, udpTest s.family ((ipView s.family q.bytes).flip (8 + i) k) = false) ∧
    (∀ w stack s sequence flags bytes n q,
      netTcpPacket w stack s sequence flags bytes n = .ok q →
      headerTest s.family q.bytes ∧ tcpTest s.family (ipView s.family q.bytes) ∧
        ∀ i < (ipView s.family q.bytes).size, ∀ k < 8,
          tcpTest s.family ((ipView s.family q.bytes).flip i k) = false) ∧
    (∀ w allow family src dst p n q, netUdpUnreachable w allow family src dst p n = some q →
      headerTest family q.bytes ∧ icmpTest family (ipView family q.bytes) ∧
        (∀ i < (ipView family q.bytes).size, ∀ k < 8,
          icmpTest family ((ipView family q.bytes).flip i k) = false) ∧
        (family = 4 → kNetChecksum (bytesAt (ipView family q.bytes).payload 8) 20 = 0)) ∧
    (∀ w allow family stack src dst p n q,
      netEchoReply w allow family stack src dst p n = some q →
      headerTest family q.bytes ∧ icmpTest family (ipView family q.bytes) ∧
        ∀ i < (ipView family q.bytes).size, ∀ k < 8,
          icmpTest family ((ipView family q.bytes).flip i k) = false) ∧
    ∀ family src dst proto p n, proto ≤ 255 → n ≤ 65535 → ∀ m ≤ n,
      pseudo family src dst proto n + sumBytes p 0 m < 2 ^ 32 ∧
        netSum (pseudo family src dst proto n) p 0 m =
          pseudo family src dst proto n + sumBytes p 0 m := by
  refine ⟨fun _ _ _ _ _ _ _ _ _ h => (netIpSend_sees h).2.1, fun _ _ _ _ _ _ _ _ h => ?_,
    fun _ _ _ _ _ _ _ _ h => ?_, fun _ _ _ _ _ _ _ _ h => unreachable_verifies h,
    fun _ _ _ _ _ _ _ _ _ h => reply_verifies h, fun family src dst proto p n hp hn m hm => ?_⟩
  · obtain ⟨hheader, -, hfield, htest⟩ := udp_verifies h
    exact ⟨hheader, hfield, htest⟩
  · obtain ⟨hheader, -, htest⟩ := tcp_verifies h
    exact ⟨hheader, htest⟩
  · have hlt := @pseudo_add_lt family _ _ hn hp src dst p
    have hmono : sumBytes p 0 m ≤ sumBytes p 0 n := weighted_mono hm
    exact ⟨by omega, netSum_eq (by omega)⟩

/-- An interface of 1500 bytes. -/
def plainSending : Sending where
  iface :=
    ⟨⟨false, true, true, false, false, fun _ => 0, fun _ => 0, fun _ => 0, fun _ => 0, fun _ => 0,
      fun _ => 0, 0, 0, 1500⟩, by decide, by decide⟩
  id := 1
  stack := fun _ => 7
  resolve := none

/-- An IPv4 socket that has not been used. -/
def plainSocket : NetSocket := { zeroSocket with tcp := { zeroSocket.tcp with family := 4 } }

/-- A datagram of three bytes that a privileged task broadcasts. -/
theorem emitted_verify_datagram :
    ∃ q, netUdpOutput (.ok (plainSending, fun _ => 0)) true (fun _ => 7) plainSocket
        (fun i => UInt8.ofNat i) 3 ⟨4, netNone, 67, 0, fun i => if i < 4 then 255 else 0⟩ = .ok q ∧
      headerTest plainSocket.family q.bytes ∧
      netBe16 (ipView plainSocket.family q.bytes).payload 6 ≠ 0 ∧
      udpTest plainSocket.family (ipView plainSocket.family q.bytes) ∧
      ∀ i < 3, ∀ k < 8,
        udpTest plainSocket.family
          ((ipView plainSocket.family q.bytes).flip (8 + i) k) = false := by
  obtain ⟨q, hq⟩ : ∃ q, netUdpOutput (.ok (plainSending, fun _ => 0)) true (fun _ => 7) plainSocket
      (fun i => UInt8.ofNat i) 3 ⟨4, netNone, 67, 0, fun i => if i < 4 then 255 else 0⟩ = .ok q :=
    ⟨_, rfl⟩
  exact ⟨q, hq, emitted_verify.2.1 _ _ _ _ _ _ _ q hq⟩

end Efishell.Packets
