import Efishell.Os.HttpBody

/-!
# Shell — responses, whole

The program never writes outside its buffers and never runs out of rounds, over any reader that only
fails with error codes (`httpResponse_ends`).  A stream has one head (`Headed.unique`) and one body
(`Message.unique`).  With `responseOf_sound`, that is what `http_framing` says of `os_http_get`.
-/

namespace Efishell.Http

/-! ### Bounds -/

/-- The value of the digits does not wrap. -/
theorem decimalLoop_sound : ∀ {s : List UInt8} {v : Nat}, v ≤ 4194304 →
    Sound (decimalLoop v s) fun _ => True := by
  intro s
  induction s with
  | nil => exact fun _ => trivial
  | cons c s ih =>
      intro v hv
      rw [decimalLoop]
      refine Sound.ite (fun hdigit => ?_) fun _ => trivial
      have hlo : 48 ≤ c.toNat := UInt8.le_iff_toNat_le.mp hdigit.1
      have hhi : c.toNat ≤ 57 := UInt8.le_iff_toNat_le.mp hdigit.2
      refine Sound.guard fun hroom => (sound_mulU (by omega)).bind fun v₁ hv₁ => ?_
      refine (sound_addU (by omega)).bind fun v₂ hv₂ => ih (by omega)

theorem osHttpDecimal_sound (s : List UInt8) : Sound (osHttpDecimal s) fun _ => True := by
  rw [osHttpDecimal]
  refine Sound.guard fun _ => (decimalLoop_sound (Nat.zero_le _)).bind fun x _ => ?_
  exact Sound.guard fun _ => trivial

theorem httpField_sound (hd : Head) (line : List UInt8) :
    Sound (httpField hd line) fun _ => True := by
  rw [httpField]
  refine Sound.guard fun _ => Sound.ite (fun _ => ?_) fun _ => Sound.ite (fun _ => ?_) fun _ =>
    Sound.ite (fun _ => ?_) fun _ => Sound.ite (fun _ => ?_) fun _ => trivial
  · exact (osHttpDecimal_sound _).bind fun v _ => Sound.guard fun _ => trivial
  · exact Sound.guard fun _ => trivial
  · exact Sound.guard fun _ => trivial
  · exact Sound.guard fun _ => trivial

theorem chunkSize_sound {capacity : Nat} (_ : capacity < 2 ^ 32) : ∀ {s : List UInt8} {v : Nat},
    Sound (chunkSize capacity v s) fun _ => True := by
  intro s
  induction s with
  | nil => exact trivial
  | cons c s ih =>
      intro v
      rw [chunkSize]
      refine Sound.ite (fun _ => trivial) fun _ => Sound.guard fun hdigit =>
        Sound.guard fun hroom => ?_
      rw [sub32] at hroom
      refine (sound_mulU (by omega)).bind fun v₁ hv₁ => ?_
      exact (sound_addU (by omega)).bind fun v₂ _ => ih

section Program

variable {ρ : Type} {next : Io (Fault Errno) ρ UInt8} {capacity : Nat}

/-- The reader only fails with error codes. -/
def Quiet (next : Io (Fault Errno) ρ UInt8) : Prop :=
  ∀ s, Io.Ends next s (fun _ _ => True) fun f _ => f.IsCode

/-- A byte put where there is room. -/
theorem ends_putOut {σ : Type} {room : Nat} {c : UInt8} {out : List UInt8} {s : σ}
    (h : out.length < room) : Io.Ends (Io.lift (putOut room c out)) s
      (fun out' _ => out'.length = out.length + 1) fun f _ => f.IsCode := by
  rw [putOut, if_pos h, Io.ends_lift]
  refine ⟨fun out' heq => ?_, fun f heq => by cases heq⟩
  cases heq
  rw [List.length_append, List.length_singleton]

/-- A line is written inside its buffer. -/
theorem osHttpLine_ends (hq : Quiet next) : ∀ {budget : Nat} {line : List UInt8} {s : ρ},
    line.length < capacity → Io.Ends (osHttpLine next capacity budget line) s
      (fun x _ => x.2 < budget) fun f _ => f.IsCode := by
  intro budget
  induction budget with
  | zero => exact fun _ => (hq _).bind fun _ _ _ => Io.ends_fail.mpr (Fault.isCode_code _)
  | succ budget ih =>
      intro line s hline
      refine (hq s).bind fun c s₁ _ =>
        Io.Ends.ite (fun _ => (hq s₁).bind fun c s₂ _ => ?_) fun _ => ?_
      · refine Io.Ends.ite (fun _ => Io.ends_fail.mpr (Fault.isCode_code _)) fun hb => ?_
        refine Io.Ends.ite (fun _ => Io.ends_fail.mpr (Fault.isCode_code _)) fun _ => ?_
        rw [Io.ends_pure]
        omega
      · refine Io.Ends.ite (fun _ => Io.ends_fail.mpr (Fault.isCode_code _)) fun _ => ?_
        refine Io.Ends.ite (fun _ => Io.ends_fail.mpr (Fault.isCode_code _)) fun hroom => ?_
        refine (ends_putOut hline).bind fun line' s₂ hline' => ?_
        exact (ih (by omega)).mono (fun x _ hx => Nat.lt_succ_of_lt hx) fun _ _ he => he

/-- The rounds are enough for the fields. -/
theorem httpFields_ends (hq : Quiet next) : ∀ {rounds budget : Nat} {hd : Head} {s : ρ},
    budget < rounds → Io.Ends (httpFields next rounds budget hd) s (fun _ _ => True)
      fun f _ => f.IsCode := by
  intro rounds
  induction rounds with
  | zero => exact fun h => absurd h (Nat.not_lt_zero _)
  | succ rounds ih =>
      intro budget hd s hlt
      refine (osHttpLine_ends hq (by decide)).bind fun ⟨line, left⟩ s₁ hleft => ?_
      refine Io.Ends.ite (fun _ => trivial) fun _ => ?_
      refine (httpField_sound hd line).ends_bind (fun _ hf => hf) fun hd' _ => ih ?_
      exact Nat.lt_of_lt_of_le hleft (Nat.le_of_lt_succ hlt)

theorem httpBlock_ends (hq : Quiet next) {budget : Nat} {s : ρ} :
    Io.Ends (httpBlock next budget) s (fun _ _ => True) fun f _ => f.IsCode := by
  refine (osHttpLine_ends hq (by decide)).bind fun ⟨line, left⟩ s₁ _ => ?_
  have hstatus : Sound (httpStatus line) fun _ => True := by
    rw [httpStatus]
    exact Sound.guard fun _ => trivial
  refine hstatus.ends_bind (fun _ hf => hf) fun status _ => ?_
  refine (httpFields_ends hq (Nat.lt_succ_self left)).bind fun ⟨hd, left'⟩ s₂ _ => ?_
  exact Io.Ends.ite (fun _ => Fault.isCode_code _) fun _ => trivial

theorem httpHead_ends (hq : Quiet next) : ∀ {left budget : Nat} {s : ρ},
    Io.Ends (httpHead next left budget) s (fun _ _ => True) fun f _ => f.IsCode := by
  intro left
  induction left with
  | zero =>
      intro budget s
      refine (httpBlock_ends hq).bind fun ⟨hd, budget'⟩ s₁ _ => ?_
      exact Io.Ends.ite (fun _ => Fault.isCode_code _) fun _ => trivial
  | succ left ih =>
      intro budget s
      refine (httpBlock_ends hq).bind fun ⟨hd, budget'⟩ s₁ _ => ?_
      exact Io.Ends.ite (fun _ => Io.Ends.ite (fun _ => Fault.isCode_code _) fun _ => ih)
        fun _ => trivial

theorem httpTrailers_ends (hq : Quiet next) : ∀ {rounds budget : Nat} {s : ρ}, budget < rounds →
    Io.Ends (httpTrailers next rounds budget) s (fun _ _ => True) fun f _ => f.IsCode := by
  intro rounds
  induction rounds with
  | zero => exact fun h => absurd h (Nat.not_lt_zero _)
  | succ rounds ih =>
      intro budget s hlt
      refine (osHttpLine_ends hq (by decide)).bind fun ⟨line, left⟩ s₁ hleft => ?_
      refine Io.Ends.ite (fun _ => trivial) fun _ => ih ?_
      exact Nat.lt_of_lt_of_le hleft (Nat.le_of_lt_succ hlt)

/-- The data is written inside the body's buffer. -/
theorem httpData_ends (hq : Quiet next) : ∀ {n : Nat} {body : List UInt8} {s : ρ},
    body.length + n ≤ capacity → Io.Ends (httpData next capacity n body) s
      (fun body' _ => body'.length = body.length + n) fun f _ => f.IsCode := by
  intro n
  induction n with
  | zero => exact fun _ => rfl
  | succ n ih =>
      intro body s hroom
      refine (hq s).bind fun c s₁ _ => (ends_putOut (by omega)).bind fun body' s₂ hlen => ?_
      refine (ih (by omega)).mono (fun body'' _ h => ?_) fun _ _ he => he
      omega

theorem httpCrlf_ends (hq : Quiet next) {s : ρ} :
    Io.Ends (httpCrlf next) s (fun _ _ => True) fun f _ => f.IsCode := by
  have hbyte : ∀ s, Io.Ends (Io.recode (.code .eio) next) s (fun _ _ => True)
      fun f _ => f.IsCode := fun s =>
    Io.ends_recode.mpr ((hq s).mono (fun _ _ h => h) fun _ _ _ => Fault.isCode_code _)
  refine (hbyte s).bind fun cr s₁ _ => (hbyte s₁).bind fun lf s₂ _ => ?_
  exact Io.Ends.ite (fun _ => Fault.isCode_code _) fun _ => trivial

/-- The rounds are enough for the chunks. -/
theorem httpChunks_ends (hq : Quiet next) (hcap : capacity < 2 ^ 32) : ∀ {rounds : Nat}
    {body : List UInt8} {s : ρ}, body.length ≤ capacity → capacity < rounds + body.length →
    Io.Ends (httpChunks next capacity rounds body) s (fun body' _ => body'.length ≤ capacity)
      fun f _ => f.IsCode := by
  intro rounds
  induction rounds with
  | zero =>
      intro body s hle hlt
      omega
  | succ rounds ih =>
      intro body s hle hlt
      refine (osHttpLine_ends hq (by decide)).bind fun ⟨line, left⟩ s₁ _ => ?_
      refine (chunkSize_sound hcap).ends_bind (fun _ hf => hf) fun n _ => ?_
      refine Io.Ends.ite (fun _ => Fault.isCode_code _) fun _ => ?_
      refine Io.Ends.ite (fun _ => Fault.isCode_code _) fun hroom => ?_
      refine Io.Ends.ite (fun _ => ?_) fun hpos => ?_
      · have hrounds : 16384 < 16384 + 1 := Nat.lt_succ_self 16384
        exact (httpTrailers_ends hq hrounds).bind fun _ _ _ => Io.ends_pure.mpr hle
      · refine (httpData_ends hq (by omega)).bind fun body' s₂ hlen => ?_
        exact (httpCrlf_ends hq).bind fun _ s₃ _ => ih (by omega) (by omega)

theorem httpPlain_ends (hq : Quiet next) {hd : Head} : ∀ {rounds : Nat} {body : List UInt8} {s : ρ},
    body.length ≤ capacity → capacity + 1 < rounds + body.length →
    Io.Ends (httpPlain next capacity hd rounds body) s (fun body' _ => body'.length ≤ capacity)
      fun f _ => f.IsCode := by
  intro rounds
  induction rounds with
  | zero =>
      intro body s hle hlt
      omega
  | succ rounds ih =>
      intro body s hle hlt
      refine Io.Ends.ite (fun _ => hle) fun _ => ?_
      have hbyte : Io.Ends (Io.caught (.code .enoent) next) s (fun _ _ => True)
          fun f _ => f.IsCode := by
        refine Io.ends_caught.mpr ((hq s).mono (fun _ _ _ => trivial) fun f _ hf => ?_)
        split
        · trivial
        · exact hf
      refine hbyte.bind fun c s₁ _ => ?_
      cases c with
      | none => exact Io.Ends.ite (fun _ => Fault.isCode_code _) fun _ => hle
      | some c =>
          refine Io.Ends.ite (fun _ => Fault.isCode_code _) fun hfull => ?_
          exact (ends_putOut (by omega)).bind fun body' s₂ hlen => ih (by omega) (by omega)

/-- No body overruns its buffer. -/
theorem httpBody_ends (hq : Quiet next) (hcap : capacity < 2 ^ 32) {hd : Head} {s : ρ} :
    Io.Ends (httpBody next capacity hd) s (fun body _ => body.length ≤ capacity)
      fun f _ => f.IsCode := by
  rw [httpBody]
  refine Io.Ends.ite (fun _ => Io.ends_fail.mpr (Fault.isCode_code _)) fun _ => ?_
  refine Io.Ends.ite (fun _ => Io.ends_fail.mpr (Fault.isCode_code _)) fun _ => ?_
  refine Io.Ends.ite (fun _ => ?_) fun _ => ?_
  · refine Io.Ends.ite (fun _ => Io.ends_fail.mpr (Fault.isCode_code _)) fun _ => ?_
    exact Io.ends_pure.mpr (Nat.zero_le _)
  · refine Io.Ends.ite (fun _ => Io.ends_fail.mpr (Fault.isCode_code _)) fun _ => ?_
    refine Io.Ends.ite (fun _ => ?_) fun _ => ?_
    · exact httpChunks_ends hq hcap (Nat.zero_le _) (Nat.lt_succ_self capacity)
    · exact httpPlain_ends hq (Nat.zero_le _) (Nat.lt_succ_self (capacity + 1))

/-- **No fault**, and a body that fits. -/
theorem httpResponse_ends (hq : Quiet next) (hcap : capacity < 2 ^ 32) {s : ρ} :
    Io.Ends (httpResponse next capacity) s (fun x _ => x.2.length ≤ capacity)
      fun f _ => f.IsCode := by
  rw [httpResponse]
  refine (httpHead_ends hq).bind fun hd s₁ _ => ?_
  refine (httpBody_ends hq hcap).bind fun body s₂ hle => ?_
  rw [Io.ends_pure]
  exact hle

end Program

/-- A read of the socket fails with an error code only. -/
theorem httpFill_quiet : ∀ {ps : List Recv} {r : HttpReader} {f : Fault Errno},
    (httpFill r ps).1 = .error f → f.IsCode := by
  intro ps
  induction ps with
  | nil =>
      intro r f h
      rw [httpFill] at h
      cases h
      exact Fault.isCode_code _
  | cons x ps ih =>
      intro r f h
      cases x with
      | piece b bs =>
          rw [httpFill] at h
          cases h
      | again =>
          rw [httpFill] at h
          dsimp only at h
          by_cases hout : 15000 ≤ sub64 (r.clock r.tick) r.last ∨
              60000 ≤ sub64 (r.clock r.tick) r.started
          · rw [if_pos hout] at h
            cases h
            exact Fault.isCode_code _
          · rw [if_neg hout] at h
            exact ih h

theorem osHttpByte_fails {r : HttpReader} {f : Fault Errno} (h : (osHttpByte r).1 = .error f) :
    f.IsCode := by
  rw [osHttpByte] at h
  dsimp only at h
  by_cases hout : 60000 ≤ sub64 (r.clock r.tick) r.started
  · rw [if_pos hout] at h
    cases h
    exact Fault.isCode_code _
  · rw [if_neg hout] at h
    cases hb : r.buffer with
    | cons b bs =>
        rw [hb] at h
        cases h
    | nil =>
        rw [hb] at h
        exact httpFill_quiet h

theorem osHttpByte_quiet : Quiet osHttpByte := fun _ =>
  Io.ends_of_error fun _ => osHttpByte_fails

/-! ### One head -/

/-- A line has no carriage return. -/
theorem IsLine.ne_cr {l : List UInt8} (h : IsLine l) {c : UInt8} (hc : c ∈ l) : c ≠ 13 := by
  rintro rfl
  rcases h 13 hc with h | h
  · exact absurd h (by decide)
  · exact absurd h (by decide)

/-- Where a line ends. -/
theorem crlf_inj : ∀ {l l' r r' : List UInt8}, IsLine l → IsLine l' → crlf l ++ r = crlf l' ++ r' →
    l = l' ∧ r = r' := by
  intro l
  induction l with
  | nil =>
      intro l' r r' hl hl' heq
      rw [crlf_append, crlf_append] at heq
      cases l' with
      | nil =>
          rw [List.nil_append, List.nil_append, List.cons.injEq, List.cons.injEq] at heq
          exact ⟨rfl, heq.2.2⟩
      | cons c l' =>
          rw [List.nil_append, List.cons_append, List.cons.injEq] at heq
          exact absurd heq.1.symm (hl'.ne_cr List.mem_cons_self)
  | cons c l ih =>
      intro l' r r' hl hl' heq
      rw [crlf_append, crlf_append] at heq
      cases l' with
      | nil =>
          rw [List.nil_append, List.cons_append, List.cons.injEq] at heq
          exact absurd heq.1 (hl.ne_cr List.mem_cons_self)
      | cons c' l' =>
          rw [List.cons_append, List.cons_append, List.cons.injEq] at heq
          obtain ⟨rfl, htail⟩ := heq
          rw [← crlf_append, ← crlf_append] at htail
          obtain ⟨rfl, rfl⟩ := ih (isLine_cons.mp hl).2 (isLine_cons.mp hl').2 htail
          exact ⟨rfl, rfl⟩

/-- Where a block of lines ends. -/
theorem fields_inj : ∀ {fs fs' : List (List UInt8)} {r r' : List UInt8},
    (∀ l ∈ fs, IsLine l ∧ l ≠ []) → (∀ l ∈ fs', IsLine l ∧ l ≠ []) →
    fs.flatMap crlf ++ (crlf [] ++ r) = fs'.flatMap crlf ++ (crlf [] ++ r') →
      fs = fs' ∧ r = r' := by
  intro fs
  induction fs with
  | nil =>
      intro fs' r r' hfs hfs' heq
      cases fs' with
      | nil => exact ⟨rfl, (crlf_inj isLine_nil isLine_nil heq).2⟩
      | cons l' fs' =>
          obtain ⟨hl', hne⟩ := hfs' l' List.mem_cons_self
          rw [List.flatMap_nil, List.nil_append, List.flatMap_cons, List.append_assoc] at heq
          exact absurd (crlf_inj isLine_nil hl' heq).1.symm hne
  | cons l fs ih =>
      intro fs' r r' hfs hfs' heq
      obtain ⟨hl, hne⟩ := hfs l List.mem_cons_self
      rw [List.flatMap_cons, List.append_assoc] at heq
      cases fs' with
      | nil =>
          rw [List.flatMap_nil, List.nil_append] at heq
          exact absurd (crlf_inj hl isLine_nil heq).1 hne
      | cons l' fs' =>
          obtain ⟨hl', -⟩ := hfs' l' List.mem_cons_self
          rw [List.flatMap_cons, List.append_assoc] at heq
          obtain ⟨rfl, htail⟩ := crlf_inj hl hl' heq
          obtain ⟨rfl, rfl⟩ := ih (fun l h => hfs l (List.mem_cons_of_mem _ h))
            (fun l h => hfs' l (List.mem_cons_of_mem _ h)) htail
          exact ⟨rfl, rfl⟩

/-- The text of a block is read in one way only. -/
theorem Block.text_inj {b b' : Block} {r r' : List UInt8} (h : b.Wf) (h' : b'.Wf)
    (heq : b.text ++ r = b'.text ++ r') : b = b' ∧ r = r' := by
  simp only [Block.text, List.append_assoc] at heq
  obtain ⟨hstart, htail⟩ := crlf_inj h.start h'.start heq
  obtain ⟨hfields, hr⟩ := fields_inj h.fields h'.fields htail
  cases b
  cases b'
  exact ⟨by rw [Block.mk.injEq]; exact ⟨hstart, hfields⟩, hr⟩

/-- The first block of a stream. -/
theorem Headed.first {s rest : List UInt8} {f : Block} (h : Headed s f rest) :
    ∃ b status tail, s = b.text ++ tail ∧ b.Wf ∧ httpStatus b.start = .ok status ∧
      ((¬ (100 ≤ status ∧ status < 200) ∧ f = b ∧ rest = tail) ∨
        ((100 ≤ status ∧ status < 200) ∧ Headed tail f rest)) := by
  cases h with
  | final hwf hstatus hfinal => exact ⟨_, _, _, rfl, hwf, hstatus, .inl ⟨hfinal, rfl, rfl⟩⟩
  | interim hwf hstatus hinterim h => exact ⟨_, _, _, rfl, hwf, hstatus, .inr ⟨hinterim, h⟩⟩

/-- **A stream has one head.** -/
theorem Headed.unique {s rest rest' : List UInt8} {f f' : Block} (h : Headed s f rest)
    (h' : Headed s f' rest') : f = f' ∧ rest = rest' := by
  induction h with
  | final hwf hstatus hfinal =>
      obtain ⟨b, status', tail, heq, hwf', hstatus', hrest⟩ := h'.first
      obtain ⟨rfl, rfl⟩ := Block.text_inj hwf hwf' heq
      obtain rfl := Except.ok.inj (hstatus.symm.trans hstatus')
      rcases hrest with ⟨-, rfl, rfl⟩ | ⟨hinterim, -⟩
      · exact ⟨rfl, rfl⟩
      · exact absurd hinterim hfinal
  | interim hwf hstatus hinterim h ih =>
      obtain ⟨b, status', tail, heq, hwf', hstatus', hrest⟩ := h'.first
      obtain ⟨rfl, rfl⟩ := Block.text_inj hwf hwf' heq
      obtain rfl := Except.ok.inj (hstatus.symm.trans hstatus')
      rcases hrest with ⟨hfinal, -⟩ | ⟨-, htail⟩
      · exact absurd hinterim hfinal
      · exact ih htail

/-! ### One body -/

/-- Header fields allow one framing at most. -/
theorem Frames.unique {fields : List (List UInt8)} {a b : Framing} (ha : Frames fields a)
    (hb : Frames fields b) : a = b := by
  cases a with
  | chunked =>
      obtain ⟨⟨l, hl, hcod⟩, -, hnone⟩ := ha
      cases b with
      | chunked => rfl
      | length n => exact absurd hcod (hb.2.2 l hl)
      | close => exact absurd hcod (hb l hl).2
  | length n =>
      obtain ⟨⟨l, hl, hlen⟩, hall, hnone⟩ := ha
      cases b with
      | chunked => exact absurd hlen (hb.2.2 l hl)
      | length m => rw [← (hall l hl hlen).value, ← (hb.2.1 l hl hlen).value]
      | close => exact absurd hlen (hb l hl).1
  | close =>
      cases b with
      | chunked =>
          obtain ⟨⟨l, hl, hcod⟩, -⟩ := hb
          exact absurd hcod (ha l hl).2
      | length m =>
          obtain ⟨⟨l, hl, hlen⟩, -⟩ := hb
          exact absurd hlen (ha l hl).1
      | close => rfl

/-- The digits of a size end at its extension. -/
theorem takeWhile_hex {ds ext : List UInt8} (hds : ∀ c ∈ ds, hexDigit c < 16)
    (hext : ext = [] ∨ ext.head? = some 59) :
    (ds ++ ext).takeWhile (fun c => hexDigit c < 16) = ds := by
  rw [List.takeWhile_append_of_pos (fun c hc => by simpa using hds c hc)]
  cases ext with
  | nil => rw [List.takeWhile_nil, List.append_nil]
  | cons c ext =>
      rcases hext with hnil | hhead
      · cases hnil
      · rw [List.head?_cons, Option.some.injEq] at hhead
        rw [hhead, List.takeWhile_cons_of_neg (by decide), List.append_nil]

/-- A line has one size. -/
theorem ChunkLine.unique {line : List UInt8} {n m : Nat} (h : ChunkLine line n)
    (h' : ChunkLine line m) : n = m := by
  obtain ⟨-, ds, ext, hline, -, hds, hn, hext⟩ := h
  obtain ⟨-, ds', ext', hline', -, hds', hm, hext'⟩ := h'
  have heq : ds = ds' := by
    rw [← takeWhile_hex hds hext, ← takeWhile_hex hds' hext', ← hline, ← hline']
  rw [← hn, ← hm, heq]

/-- The first chunk line of a chunked body. -/
theorem Chunks.first {s body : List UInt8} (h : Chunks s body) :
    ∃ line tail n, s = crlf line ++ tail ∧ ChunkLine line n ∧
      ((n = 0 ∧ body = []) ∨ ∃ data s' body', data.length = n ∧ data ≠ [] ∧
        tail = crlf data ++ s' ∧ body = data ++ body' ∧ Chunks s' body') := by
  cases h with
  | last hline htrailers => exact ⟨_, _, _, rfl, hline, .inl ⟨rfl, rfl⟩⟩
  | chunk hline hdata h => exact ⟨_, _, _, rfl, hline, .inr ⟨_, _, _, rfl, hdata, rfl, rfl, h⟩⟩

/-- A stream has one body in chunks. -/
theorem Chunks.unique {s body body' : List UInt8} (h : Chunks s body) (h' : Chunks s body') :
    body = body' := by
  induction h generalizing body' with
  | last hline htrailers =>
      obtain ⟨line', tail', n', heq, hline', hrest⟩ := h'.first
      obtain ⟨rfl, rfl⟩ := crlf_inj hline.isLine hline'.isLine heq
      obtain rfl := hline.unique hline'
      rcases hrest with ⟨-, rfl⟩ | ⟨data, s', body'', hlen, hne, -⟩
      · rfl
      · exact absurd (List.eq_nil_of_length_eq_zero hlen) hne
  | @chunk line data s body hline hdata h ih =>
      obtain ⟨line', tail', n', heq, hline', hrest⟩ := h'.first
      obtain ⟨rfl, rfl⟩ := crlf_inj hline.isLine hline'.isLine heq
      have hn := hline.unique hline'
      rcases hrest with ⟨hzero, -⟩ | ⟨data', s', body'', hlen, -, hsplit, rfl, h''⟩
      · exact absurd (List.eq_nil_of_length_eq_zero (hn.trans hzero)) hdata
      · rw [crlf_append, crlf_append] at hsplit
        obtain ⟨rfl, htail⟩ := List.append_inj hsplit (hn.trans hlen.symm)
        rw [List.cons.injEq, List.cons.injEq] at htail
        obtain ⟨-, -, rfl⟩ := htail
        rw [ih h'']

/-- **A response has one body.** -/
theorem Message.unique {eof : Prop} {f : Block} {rest body body' : List UInt8}
    {status status' : Nat}
    (h : Message eof f rest status body) (h' : Message eof f rest status' body') :
    status = status' ∧ body = body' := by
  obtain ⟨hstatus, -, -, framing, hframes, hbody⟩ := h
  obtain ⟨hstatus', -, -, framing', hframes', hbody'⟩ := h'
  obtain rfl := Except.ok.inj (hstatus.symm.trans hstatus')
  obtain rfl := hframes.unique hframes'
  refine ⟨rfl, ?_⟩
  rw [ResponseBody] at hbody hbody'
  by_cases hempty : status = 204
  · rw [if_pos hempty] at hbody hbody'
    rw [hbody.1, hbody'.1]
  · rw [if_neg hempty] at hbody hbody'
    cases framing with
    | chunked => exact Chunks.unique hbody hbody'
    | length n =>
        obtain ⟨tail, hrest, hlen⟩ := hbody
        obtain ⟨tail', hrest', hlen'⟩ := hbody'
        exact (List.append_inj (hrest.symm.trans hrest') (hlen.trans hlen'.symm)).1
    | close => rw [← hbody.1, ← hbody'.1]

/-! ### The whole of it -/

/-- The response has no message: its lengths contradict each other or the coding, or the body is too
short, or it is not a sequence of chunks. -/
inductive Broken (f : Block) (rest : List UInt8) : Prop where
  | lengths {l l' : List UInt8} (hl : l ∈ f.fields) (hl' : l' ∈ f.fields) (h : IsLength l)
      (h' : IsLength l') (hne : ∀ n, IsDecimal (fieldValue l) n → ¬ IsDecimal (fieldValue l') n)
  | both {l l' : List UInt8} (hl : l ∈ f.fields) (hl' : l' ∈ f.fields) (h : IsLength l)
      (h' : IsCoding l')
  | truncated {n : Nat} (h : Frames f.fields (.length n)) (hshort : rest.length < n)
  | chunks (h : Frames f.fields .chunked) (hnone : ∀ body, ¬ Chunks rest body)

/-- What is broken has no body. -/
theorem Broken.no_body {f : Block} {rest body : List UInt8} {framing : Framing} {eof : Prop}
    (h : Broken f rest) (hframes : Frames f.fields framing) : ¬ BodyOf eof rest body framing := by
  intro hbody
  cases h with
  | lengths hl hl' hlen hlen' hne =>
      cases framing with
      | chunked => exact hframes.2.2 _ hl hlen
      | length n => exact hne n (hframes.2.1 _ hl hlen) (hframes.2.1 _ hl' hlen')
      | close => exact (hframes _ hl).1 hlen
  | both hl hl' hlen hcod =>
      cases framing with
      | chunked => exact hframes.2.2 _ hl hlen
      | length n => exact hframes.2.2 _ hl' hcod
      | close => exact (hframes _ hl).1 hlen
  | truncated hlen hshort =>
      obtain rfl := hframes.unique hlen
      obtain ⟨tail, rfl, hsize⟩ := hbody
      rw [List.length_append, hsize] at hshort
      exact absurd hshort (Nat.not_lt.mpr (Nat.le_add_right _ _))
  | chunks hcod hnone =>
      obtain rfl := hframes.unique hcod
      exact hnone body hbody

/-- A response 204 has an empty body, which the framing allows unless the body ends the stream. -/
theorem ResponseBody.bodyOf {eof : Prop} {status : Nat} {rest body : List UInt8} {framing : Framing}
    (h : ResponseBody eof status rest body framing) (hopen : framing ≠ .close) :
    BodyOf eof rest body framing := by
  rw [ResponseBody] at h
  split at h
  · obtain ⟨rfl, rfl | rfl⟩ := h
    · exact absurd rfl hopen
    · exact ⟨rest, rfl, rfl⟩
  · exact h

theorem Broken.no_message {f : Block} {rest body : List UInt8} {status : Nat} {eof : Prop}
    (h : Broken f rest) : ¬ Message eof f rest status body := by
  rintro ⟨-, -, -, framing, hframes, hbody⟩
  by_cases hclose : framing = .close
  · subst hclose
    cases h with
    | lengths hl _ hlen => exact (hframes _ hl).1 hlen
    | both hl _ hlen => exact (hframes _ hl).1 hlen
    | truncated hlen => cases hframes.unique hlen
    | chunks hcod => cases hframes.unique hcod
  · exact h.no_body hframes (hbody.bodyOf hclose)

theorem Ending.code_eq_enoent {d : Ending} : d.code = .enoent ↔ d = .eof := by
  cases d with
  | eof => exact ⟨fun _ => rfl, fun _ => rfl⟩
  | silent => exact ⟨nofun, nofun⟩
  | failed e h => exact ⟨fun heq => absurd heq h, nofun⟩

/-- **HTTP framing.**  Whatever the peer sends, in whatever pieces: `os_http_get` never writes
outside its buffers, and where it returns 0 the body is the only one that the framing of the
response allows. Where there is none it returns an error.  The pieces do not matter: two runs on one
stream never return different responses, and return the same when the time is not out. -/
theorem http_framing (capacity : UInt32) (r : HttpReader) :
    (∀ f, (osHttpGet capacity.toNat r).1 = .error f → f.IsCode) ∧
    (∀ status body, (osHttpGet capacity.toNat r).1 = .ok (status, body) →
      body.length ≤ capacity.toNat ∧
      (∃ f rest, Headed r.stream f rest ∧ Message (r.ending = .eof) f rest status body) ∧
      ∀ f rest, Headed r.stream f rest → ¬ Broken f rest ∧
        ∀ status' body', Message (r.ending = .eof) f rest status' body' →
          status' = status ∧ body' = body) ∧
    ∀ r' : HttpReader, r'.stream = r.stream → r'.ending.code = r.ending.code →
      (∀ x x', (osHttpGet capacity.toNat r).1 = .ok x → (osHttpGet capacity.toNat r').1 = .ok x' →
        x = x') ∧
      (r.Prompt → r'.Prompt →
        (osHttpGet capacity.toNat r).1 = (osHttpGet capacity.toNat r').1) := by
  have hends : Io.Ends (osHttpGet capacity.toNat) r (fun x _ => x.2.length ≤ capacity.toNat)
      fun f _ => f.IsCode := httpResponse_ends osHttpByte_quiet capacity.toNat_lt
  refine ⟨fun f hf => hends.failed hf, fun status body hok => ?_, fun r' hs he => ⟨?_, ?_⟩⟩
  · obtain ⟨r₁, hrun⟩ := Io.exists_returns hok
    obtain ⟨f, rest, hheaded, hmessage⟩ := responseOf_sound (osHttpGet_ok hok)
    rw [propext Ending.code_eq_enoent] at hmessage
    refine ⟨hends.returned hrun, ⟨f, rest, hheaded, hmessage⟩, fun f' rest' hheaded' => ?_⟩
    obtain ⟨rfl, rfl⟩ := hheaded.unique hheaded'
    exact ⟨fun hbroken => hbroken.no_message hmessage, fun status' body' h => h.unique hmessage⟩
  · intro x x' hx hx'
    have h := osHttpGet_ok hx
    have h' := osHttpGet_ok hx'
    rw [hs, he] at h'
    exact Except.ok.inj (h.symm.trans h')
  · intro hp hp'
    rw [osHttpGet_prompt hp, osHttpGet_prompt hp', hs, he]

/-- A chunk of two bytes with an extension, and the last one. -/
def chunkedStream : List UInt8 :=
  httpVersion ++ [49, 32, 50, 48, 48, 13, 10] ++ crlf (transferEncoding ++ 58 :: chunkedText) ++
    [13, 10, 48, 50, 59, 120, 13, 10, 65, 66, 13, 10, 48, 13, 10, 13, 10]

/-- A reader with a clock that advances by `pace` at each look. -/
def pacedReader (pieces : List Recv) (pace : Nat) : HttpReader :=
  ⟨[], pieces, .eof, 0, 0, fun t => min (pace * t) 59999, 0⟩

/-- The stream in one piece. -/
def wholeReader : HttpReader := pacedReader [.again, .piece 72 (chunkedStream.drop 1)] 1

/-- The stream byte by byte, each after a poll that gave nothing; it takes more than thirty
seconds. -/
def slowReader : HttpReader :=
  pacedReader (chunkedStream.flatMap fun b => [.again, .piece b []]) 200

/-- Its clock does not go back. -/
theorem pacedReader_clocked (pieces : List Recv) (pace : Nat) :
    (pacedReader pieces pace).Clocked where
  clock _ _ h := min_le_min_right _ (Nat.mul_le_mul_left _ h)
  started := le_refl _
  last _ _ := Nat.zero_le _
  soon _ := (min_le_right _ _).trans_lt (show 59999 < 0 + 60000 by decide)
  small := show 0 + 60000 < 2 ^ 64 by decide

/-- All at once is prompt. -/
theorem wholeReader_prompt : wholeReader.Prompt :=
  { pacedReader_clocked _ _ with gaps := ⟨show 1 < 15000 by decide, trivial⟩ }

theorem waits_slowly (bs : List UInt8) :
    ∀ {last tick : Nat}, min (200 * tick) 59999 < last + 15000 →
    Waits (fun t => min (200 * t) 59999) last tick (bs.flatMap fun b => [.again, .piece b []]) := by
  induction bs with
  | nil => exact fun _ => trivial
  | cons b bs ih => exact fun h => ⟨h, ih (by simp only [List.length_nil]; omega)⟩

theorem slowReader_prompt : slowReader.Prompt :=
  { pacedReader_clocked _
    _ with gaps := waits_slowly chunkedStream (show 200 < 0 + 15000 by decide) }

theorem ok_of_toOption {ε α : Type} {x : Except ε α} {a : α} (h : x.toOption = some a) :
    x = .ok a := by
  cases x with
  | error e => cases h
  | ok b => exact congrArg Except.ok (Option.some.inj h)

/-- Two runs on one response that is cut in different places. -/
theorem http_framing_chunked :
    (osHttpGet (4 : UInt32).toNat wholeReader).1 = .ok (200, [65, 66]) ∧
      (osHttpGet (4 : UInt32).toNat slowReader).1 = .ok (200, [65, 66]) ∧
      ∃ f rest, Headed wholeReader.stream f rest ∧ Message True f rest 200 [65, 66] := by
  have hwhole : (osHttpGet (4 : UInt32).toNat wholeReader).1 = .ok (200, [65, 66]) :=
    ok_of_toOption (by decide +kernel)
  obtain ⟨-, hok, hsplit⟩ := http_framing 4 wholeReader
  have hstream : slowReader.stream = wholeReader.stream := by decide +kernel
  obtain ⟨-, f, rest, hheaded, hmessage⟩ := (hok 200 [65, 66] hwhole).imp_right And.left
  refine ⟨hwhole, ?_, f, rest, hheaded, ?_⟩
  · exact ((hsplit slowReader hstream rfl).2 wholeReader_prompt slowReader_prompt).symm.trans hwhole
  · rwa [show (wholeReader.ending = .eof) = True from propext
      ⟨fun _ => trivial, fun _ => rfl⟩] at hmessage

end Efishell.Http
