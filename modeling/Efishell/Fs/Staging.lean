import Efishell.Fs.NativeIo

/-!
# File systems — tables of staged pieces

Before a commit the writes of the NTFS and of the ext4 code go to a table, `nt_tx` or
`ext_tx_blocks`: of sectors there, of blocks here.  What a transaction sees is the volume with the
pieces of its table laid over it.
-/

namespace Efishell

/-- The volume, and the table: the staged pieces with their numbers. -/
structure TxState where
  native : NativeState
  tx : List (Nat × Bytes)

/-- A computation of the volume's state within the transaction's. -/
def inNative {α : Type} (x : Io Errno NativeState α) : Io Errno TxState α := fun s =>
  match x s.native with
  | (r, native) => (r, { s with native })

/-- Piece `k` of the table gets the contents `b`; at the end of the table, when it is not there. -/
def stage : List (Nat × Bytes) → Nat → Bytes → List (Nat × Bytes)
  | [], k, b => [(k, b)]
  | e :: tx, k, b => if e.1 = k then (k, b) :: tx else e :: stage tx k b

/-- The staged piece `k`, of `size` bytes.  It is read from the drive when it is not in the table
yet, and there is `room`. -/
def fetchPiece (v : NativeVolume) (size room k : Nat) : Io Errno TxState Bytes := do
  let s ← Io.get
  match s.tx.lookup k with
  | some b => return b
  | none =>
      if s.tx.length = room then Io.fail .e2big
      else inNative (nativeBytes driveBytes v (k * size) size)

/-- `m` with the staged pieces over it. -/
def overlay (size : Nat) (tx : List (Nat × Bytes)) (m : Bytes) : Bytes := fun i =>
  match tx.lookup (i / size) with
  | some b => b (i % size)
  | none => m i

/-- A piece stands in the table once, and is one of the volume. -/
structure TxTable (room limit : Nat) (tx : List (Nat × Bytes)) : Prop where
  count : tx.length ≤ room
  nodup : (tx.map Prod.fst).Nodup
  inside : ∀ e ∈ tx, e.1 < limit

theorem lookup_cons_if {e : Nat × Bytes} {tx : List (Nat × Bytes)} (l : Nat) :
    (e :: tx).lookup l = if l = e.1 then some e.2 else tx.lookup l := by
  rw [List.lookup_cons]
  by_cases h : l = e.1
  · simp [h]
  · rw [if_neg h, beq_false_of_ne h]

/-- A staged piece reads back, and the others stay. -/
theorem lookup_stage {tx : List (Nat × Bytes)} {k : Nat} {b : Bytes} (l : Nat) :
    (stage tx k b).lookup l = if l = k then some b else tx.lookup l := by
  induction tx with
  | nil => rw [stage, lookup_cons_if]
  | cons e tx ih =>
      rw [stage]
      by_cases he : e.1 = k
      · rw [if_pos he, lookup_cons_if, lookup_cons_if, he]
        split <;> rfl
      · rw [if_neg he, lookup_cons_if, lookup_cons_if, ih]
        by_cases h : l = k
        · rw [if_pos h, if_pos h, if_neg (by rw [h]; exact Ne.symm he)]
        · rw [if_neg h, if_neg h]

/-- A new piece is added at the end. -/
theorem keys_stage {tx : List (Nat × Bytes)} {k : Nat} {b : Bytes} :
    (stage tx k b).map Prod.fst =
      if k ∈ tx.map Prod.fst then tx.map Prod.fst else tx.map Prod.fst ++ [k] := by
  induction tx with
  | nil => rfl
  | cons e tx ih =>
      rw [stage]
      by_cases he : e.1 = k
      · rw [if_pos he]
        simp [he]
      · rw [if_neg he, List.map_cons, ih, List.map_cons]
        by_cases hm : k ∈ tx.map Prod.fst
        · rw [if_pos hm, if_pos (List.mem_cons_of_mem _ hm)]
        · rw [if_neg hm, if_neg (by simpa [Ne.symm he] using hm)]
          rfl

/-- The pieces that are staged are those that are found. -/
theorem mem_keys_iff {tx : List (Nat × Bytes)} {k : Nat} :
    k ∈ tx.map Prod.fst ↔ (tx.lookup k).isSome = true := by
  induction tx with
  | nil => simp
  | cons e tx ih =>
      rw [List.map_cons, List.mem_cons, ih, lookup_cons_if]
      by_cases h : k = e.1 <;> simp [h]

theorem TxTable.nil (room limit : Nat) : TxTable room limit [] := ⟨Nat.zero_le _, .nil, by simp⟩

/-- A piece staged where there is room keeps the table in order. -/
theorem TxTable.stage {room limit : Nat} {tx : List (Nat × Bytes)}
    (h : TxTable room limit tx) {k : Nat}
    {b : Bytes} (hin : k < limit) (hroom : tx.lookup k = none → tx.length ≠ room) :
    TxTable room limit (stage tx k b) := by
  have hk := @keys_stage tx k b
  have hlen := congrArg List.length hk
  rw [List.length_map] at hlen
  have hc := h.count
  by_cases hm : k ∈ tx.map Prod.fst
  · rw [if_pos hm] at hk hlen
    rw [List.length_map] at hlen
    refine ⟨hlen ▸ hc, hk ▸ h.nodup, fun e he => ?_⟩
    have he' := List.mem_map_of_mem (f := Prod.fst) he
    rw [hk] at he'
    obtain ⟨e', hmem, heq⟩ := List.mem_map.mp he'
    exact heq ▸ h.inside e' hmem
  · rw [if_neg hm] at hk hlen
    rw [List.length_append, List.length_map, List.length_singleton] at hlen
    have hr := hroom (Option.not_isSome_iff_eq_none.mp (mem_keys_iff.not.mp hm))
    refine ⟨by omega, ?_, fun e he => ?_⟩
    · rw [hk]
      refine List.nodup_append.mpr ⟨h.nodup, List.pairwise_singleton _ _, ?_⟩
      intro a ha c hc' hac
      rw [List.mem_singleton.mp hc'] at hac
      exact hm (hac ▸ ha)
    · have he' := List.mem_map_of_mem (f := Prod.fst) he
      rw [hk, List.mem_append, List.mem_singleton] at he'
      rcases he' with he' | he'
      · obtain ⟨e', hmem, heq⟩ := List.mem_map.mp he'
        exact heq ▸ h.inside e' hmem
      · exact he' ▸ hin

section Pieces

variable {size : Nat}

theorem piece_div (hs : 0 < size) {k i : Nat} (hi : i < size) : (k * size + i) / size = k := by
  rw [Nat.mul_comm, Nat.mul_add_div hs, Nat.div_eq_of_lt hi, Nat.add_zero]

theorem piece_mod {k i : Nat} (hi : i < size) : (k * size + i) % size = i := by
  rw [Nat.mul_comm, Nat.mul_add_mod, Nat.mod_eq_of_lt hi]

/-- A staged piece covers the image. -/
theorem overlay_some (hs : 0 < size) {tx : List (Nat × Bytes)} {m b : Bytes} {k i : Nat}
    (h : tx.lookup k = some b) (hi : i < size) : overlay size tx m (k * size + i) = b i := by
  rw [overlay, piece_div hs hi, piece_mod hi, h]

theorem overlay_none (hs : 0 < size) {tx : List (Nat × Bytes)} {m : Bytes} {k i : Nat}
    (h : tx.lookup k = none) (hi : i < size) :
    overlay size tx m (k * size + i) = m (k * size + i) := by
  rw [overlay, piece_div hs hi, h]

/-- Staging a piece, as an array. -/
theorem overlay_stage_eq (hs : 0 < size) {tx : List (Nat × Bytes)} {m b f : Bytes} {k : Nat}
    (hin : ∀ i < size, b i = f (k * size + i))
    (hout : ∀ i, i < k * size ∨ k * size + size ≤ i → f i = overlay size tx m i) :
    overlay size (stage tx k b) m = f := by
  funext i
  have hdiv := Nat.div_add_mod' i size
  have hmod := Nat.mod_lt i hs
  by_cases hk : i / size = k
  · rw [hk] at hdiv
    have hi : overlay size (stage tx k b) m i = b (i % size) := by
      rw [overlay, lookup_stage, if_pos hk]
    rw [hi, hin _ hmod, hdiv]
  · have hi : overlay size (stage tx k b) m i = overlay size tx m i := by
      rw [overlay, overlay, lookup_stage, if_neg hk]
    rw [hi]
    refine (hout i ?_).symm
    by_contra hne
    refine hk ?_
    have hlt : i - k * size < size := by omega
    rw [← @piece_div size hs k _ hlt]
    congr 1
    omega

/-- Staging a changed piece changes the bytes that were changed. -/
theorem overlay_stage (hs : 0 < size) {tx : List (Nat × Bytes)} {m b p : Bytes} {k at_ pos n : Nat}
    (hb : ∀ i < size, b i = overlay size tx m (k * size + i)) (hn : at_ + n ≤ size) :
    overlay size (stage tx k (memCopy b at_ p pos n)) m =
      memCopy (overlay size tx m) (k * size + at_) p pos n := by
  refine overlay_stage_eq hs (fun i hi => ?_) fun i hi => memCopy_ne (by omega)
  by_cases hin : at_ ≤ i ∧ i < at_ + n
  · rw [memCopy_eq hin.1 hin.2, memCopy_eq (by omega) (by omega)]
    congr 1
    omega
  · rw [memCopy_ne (by omega), memCopy_ne (by omega), hb _ hi]

end Pieces

/-! ### What the calls leave -/

section Calls

variable {v : NativeVolume} {s : TxState}

/-- Nothing was written and nothing was staged. -/
structure TxState.Keeps (s s' : TxState) : Prop where
  native : s.native.Stays s'.native
  tx : s'.tx = s.tx

/-- What ends so on the volume ends so within the transaction, which stages nothing. -/
theorem inNative_ends {α : Type} {x : Io Errno NativeState α} {Q : α → NativeState → Prop}
    {E : Errno → NativeState → Prop} (h : Io.Ends x s.native Q E) :
    Io.Ends (inNative x) s (fun a s' => Q a s'.native ∧ s'.tx = s.tx)
      fun e s' => E e s'.native ∧ s'.tx = s.tx := by
  rw [Io.Ends] at h ⊢
  rw [inNative]
  cases hx : x s.native with
  | mk r native =>
      rw [hx] at h
      cases r with
      | ok a => exact ⟨h, rfl⟩
      | error e => exact ⟨h, rfl⟩

/-- A read of the drive in range. -/
theorem inNative_read_ends (hv : v.On s.native.drive.disk.geo) {offset n : Nat}
    (hin : offset + n ≤ v.bytes) :
    Io.Ends (inNative (nativeBytes driveBytes v offset n)) s
      (fun b s' => (∀ i < n, b i = s.native.view v (offset + i)) ∧ s.Keeps s')
      (fun _ s' => s.Keeps s' ∧ ¬ s.native.drive.Reliable) := by
  refine (inNative_ends (nativeBytes_ends hv)).mono ?_ ?_
  · rintro b s' ⟨⟨-, hb, hst⟩, htx⟩
    exact ⟨hb, hst, htx⟩
  · rintro e s' ⟨⟨hst, ⟨hout, -⟩ | ⟨-, hrel⟩⟩, htx⟩
    · omega
    · exact ⟨⟨hst, htx⟩, hrel⟩

/-- A piece fetched is the volume's, staged pieces included. -/
theorem fetchPiece_ends (hv : v.On s.native.drive.disk.geo) {size room k : Nat} (hs : 0 < size)
    (hin : k * size + size ≤ v.bytes) :
    Io.Ends (fetchPiece v size room k) s
      (fun b s' => s.Keeps s' ∧
        (∀ i < size, b i = overlay size s.tx (s.native.view v) (k * size + i)) ∧
        (s.tx.lookup k = none → s.tx.length ≠ room))
      (fun e s' => s.Keeps s' ∧ (s.tx.length = room ∧ e = .e2big ∨ ¬ s.native.drive.Reliable)) := by
  rw [fetchPiece]
  refine Io.ends_bind.mpr (Io.ends_get.mpr ?_)
  have hkeep : s.Keeps s := ⟨.refl _, rfl⟩
  cases hl : s.tx.lookup k with
  | some b => exact ⟨hkeep, fun i hi => (overlay_some hs hl hi).symm, fun h => by cases h⟩
  | none =>
      refine .ite (fun hfull => ⟨hkeep, .inl ⟨hfull, rfl⟩⟩) fun hroom => ?_
      refine (inNative_read_ends hv hin).mono ?_ ?_
      · rintro b s' ⟨hb, hk⟩
        exact ⟨hk, fun i hi => (hb i hi).trans (overlay_none hs hl hi).symm, fun _ => hroom⟩
      · rintro e s' ⟨hk, hrel⟩
        exact ⟨hk, .inr hrel⟩

end Calls

end Efishell
