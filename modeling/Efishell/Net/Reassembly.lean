import Efishell.Net.Sockets

/-!
# Networking — fragments

`net_reassemble` over the table of its eight contexts.  A context has a bit map of the bytes that it
holds; a fragment that overlaps them, or that contradicts the end of the datagram, discards it.
-/

namespace Efishell.Reassembly

/-- `NET_FRAG_BYTES`. -/
def netFragBytes : Nat := 8192

/-- `NET_FRAGS`. -/
def netFrags : Nat := 8

/-- What the fragments of a datagram have in common. -/
structure FragKey where
  interface : Nat
  family : Nat
  id : Nat
  protocol : Nat
  src : Bytes
  dst : Bytes

/-- The comparison of the context `x` with the key of a fragment. -/
def FragKey.same (x k : FragKey) : Bool :=
  x.interface == k.interface && x.family == k.family && x.id == k.id && x.protocol == k.protocol &&
    netEqual x.src k.src (netAddrBytes k.family) && netEqual x.dst k.dst (netAddrBytes k.family)

/-- The arguments of `net_reassemble`. -/
structure Fragment where
  key : FragKey
  offset : Nat
  more : Bool
  p : Bytes
  n : Nat

/-- `net_fragment`. -/
structure NetFragment where
  used : Bool
  key : FragKey
  finalSize : Nat
  bytes : Bytes
  seen : Bytes
  expires : Nat

/-- `net_fragments`. -/
abbrev FragTable := Nat → NetFragment

/-- The call of `net_ip_deliver`. -/
structure Delivery where
  key : FragKey
  bytes : Bytes
  size : Nat

/-- What becomes of a fragment. -/
inductive Verdict where
  /-- `++errors` and nothing else. -/
  | invalid
  /-- `++dropped`: there is no context left. -/
  | dropped
  /-- `++errors`, and the context is discarded. -/
  | discarded
  | kept
  | delivered (d : Delivery)

/-- `!(f->seen[i / 8] & (1u << (i % 8)))` is that this is false. -/
def seenBit (seen : Bytes) (i : Nat) : Bool := (seen (i / 8)).toNat.testBit (i % 8)

/-- `f->seen[i / 8] |= 1u << (i % 8);` -/
def setSeen (seen : Bytes) (i : Nat) : Bytes :=
  Function.update seen (i / 8) (seen (i / 8) ||| UInt8.ofNat (2 ^ (i % 8)))

/-- The loop that asks whether one of `n` bytes from `i` on is there. -/
def anySeen (seen : Bytes) (i : Nat) : Nat → Bool
  | 0 => false
  | n + 1 => seenBit seen i || anySeen seen (i + 1) n

/-- The loop that marks `n` bytes from `i` on. -/
def markSeen (seen : Bytes) (i : Nat) : Nat → Bytes
  | 0 => seen
  | n + 1 => markSeen (setSeen seen i) (i + 1) n

/-- The loop that asks whether all of `n` bytes from `i` on are there. -/
def allSeen (seen : Bytes) (i : Nat) : Nat → Bool
  | 0 => true
  | n + 1 => if !seenBit seen i then false else allSeen seen (i + 1) n

/-- `if (x->used && x->expires <= now) x->used = FALSE;` -/
def NetFragment.expire (now : Nat) (x : NetFragment) : NetFragment :=
  if x.used && x.expires ≤ now then { x with used := false } else x

/-- The loop over the contexts: the table, the context of the key and a free one. -/
structure FragScan where
  slots : FragTable
  found : Option Nat
  free : Option Nat

/-- The body of the loop over the contexts. -/
def scanStep (now : Nat) (k : FragKey) (s : FragScan) (i : Nat) : FragScan :=
  let x := (s.slots i).expire now
  let slots := Function.update s.slots i x
  if !x.used then { s with slots := slots, free := some i }
  else if x.key.same k then { s with slots := slots, found := some i }
  else { s with slots := slots }

/-- The scan of the reassembly slots, before a fragment is placed. -/
def scanSlots (now : Nat) (k : FragKey) (slots : FragTable) : FragScan :=
  (List.range netFrags).foldl (scanStep now k) ⟨slots, none, none⟩

/-- A context for the key `k`. -/
def freshContext (now : Nat) (k : FragKey) : NetFragment where
  used := true
  key := k
  finalSize := 0
  bytes := fun _ => 0
  seen := fun _ => 0
  expires := now + 30000

/-- The fragment is put into the context `f`. -/
def NetFragment.put (f : NetFragment) (m : Fragment) : NetFragment :=
  { f with
    finalSize := if !m.more then m.offset + m.n else f.finalSize
    bytes := memCopy f.bytes m.offset m.p 0 m.n
    seen := markSeen f.seen m.offset m.n }

/-- The fragment contradicts what the context holds. -/
def NetFragment.clashes (f : NetFragment) (m : Fragment) : Bool :=
  (f.finalSize != 0 && decide (f.finalSize < m.offset + m.n)) ||
    (!m.more && f.finalSize != 0 && f.finalSize != m.offset + m.n) ||
    anySeen f.seen m.offset m.n ||
    (!m.more && anySeen f.seen (m.offset + m.n) (netFragBytes - (m.offset + m.n)))

/-- What `net_reassemble` does when the context is in slot `i`. -/
def accept (m : Fragment) (i : Nat) (slots : FragTable) : FragTable × Verdict :=
  let f := slots i
  if f.clashes m then (Function.update slots i { f with used := false }, .discarded)
  else
    let f := f.put m
    if f.finalSize != 0 && allSeen f.seen 0 f.finalSize then
      (Function.update slots i { f with used := false },
        .delivered ⟨m.key, f.bytes, f.finalSize⟩)
    else (Function.update slots i f, .kept)

/-- The check at the start of `net_reassemble`. -/
def Fragment.invalid (m : Fragment) : Bool :=
  m.n == 0 || decide (netFragBytes < m.offset) || decide (netFragBytes - m.offset < m.n) ||
    (m.more && m.n % 8 != 0)

/-- `net_reassemble`: one fragment, and the datagram when it is whole. -/
def netReassemble (now : Nat) (m : Fragment) (slots : FragTable) : FragTable × Verdict :=
  if m.invalid then (slots, .invalid)
  else
    let s := scanSlots now m.key slots
    match s.found with
    | some i => accept m i s.slots
    | none =>
        match s.free with
        | none => (s.slots, .dropped)
        | some i => accept m i (Function.update s.slots i (freshContext now m.key))

/-! ### Runs -/

/-- A fragment and the time at which it arrives. -/
structure Arrival where
  now : Nat
  frag : Fragment

/-- The table after these arrivals, the first one first. -/
def tableAfter (slots : FragTable) (as : List Arrival) : FragTable :=
  as.foldl (fun slots a => (netReassemble a.now a.frag slots).1) slots

/-- No context is in use. -/
def emptyTable : FragTable := fun _ =>
  { freshContext 0 ⟨0, 0, 0, 0, fun _ => 0, fun _ => 0⟩ with used := false }

/-- Slot `i` holds the context of the key `k` at the time `now`. -/
def HoldsKey (slots : FragTable) (now : Nat) (k : FragKey) (i : Nat) : Prop :=
  i < netFrags ∧ (slots i).used = true ∧ now < (slots i).expires ∧ (slots i).key.same k = true

end Efishell.Reassembly
