import CherryNode.Allocator.FreeingBump

/-!
# sp-runtime: `Era`

`Era::mortal(period, current)` rounds the period up to a power of two in
`[4, 65536]`, takes the phase `current % period` and quantizes it down to a
multiple of `quantize_factor = max(period >> 12, 1)`, so that phase over factor
fits twelve bits.  The encoding is a little-endian `u16`, `log2(period) - 1` in
its low four bits and phase over factor above; `Immortal` is the byte 0.

`MortalShape` says which periods and phases these are: `mortal` makes only
such eras (`mortal_shape`), the decoder reads each back (`decode_encode`) and
accepts no other two bytes (`decode_mortal_shape`, `encode_of_decode`), and
`birth` and `death` frame every block from the phase on in a window of one
period.  Numbers are `u64` as `Nat`; `death`'s sum wraps as in a release build.
-/

namespace SpRuntime

/-- `Era`. -/
inductive Era
  | immortal
  | mortal (period phase : Nat)
  deriving DecidableEq, Repr

/-- `u64::checked_next_power_of_two`: `None` past `2 ^ 63`. -/
def checkedNextPowerOfTwo (n : Nat) : Option Nat :=
  if n ≤ 2 ^ 63 then some (ScAllocator.ceilPow2 n 63) else none

/-- `Era::mortal(period, current)`. -/
def mortal (period current : Nat) : Era :=
  let period := min (max ((checkedNextPowerOfTwo period).getD (1 <<< 16)) 4) (1 <<< 16)
  let phase := current % period
  let quantizeFactor := max (period >>> 12) 1
  let quantizedPhase := phase / quantizeFactor * quantizeFactor
  .mortal period quantizedPhase

/-- `Era::birth`: the first block of the period `current` is in. -/
def Era.birth (self : Era) (current : Nat) : Nat :=
  match self with
  | .immortal => 0
  | .mortal period phase => (max current phase - phase) / period * period + phase

/-- `Era::death`: the first block after the era. -/
def Era.death (self : Era) (current : Nat) : Nat :=
  match self with
  | .immortal => 2 ^ 64 - 1
  | .mortal period _ => (self.birth current + period) % 2 ^ 64

/-- `Encode for Era`. -/
def Era.encode : Era → List UInt8
  | .immortal => [0]
  | .mortal period phase =>
    let quantizeFactor := max (period >>> 12) 1
    -- `(period.trailing_zeros() - 1).max(1).min(15) as u16`, the subtraction on `u32`
    let low := min (max ((ScAllocator.ctz 64 period + 2 ^ 32 - 1) % 2 ^ 32) 1) 15 % 2 ^ 16
    -- `((phase / quantize_factor) << 4) as u16`: the cast keeps sixteen bits
    let high := ((phase / quantizeFactor) <<< 4) % 2 ^ 16
    let encoded := low ||| high
    -- the `u16`, little-endian
    [UInt8.ofNat (encoded % 2 ^ 8), UInt8.ofNat (encoded >>> 8)]

/-- `Input::read_byte` on a byte slice. -/
def readByte : List UInt8 → Except String (UInt8 × List UInt8)
  | [] => .error "Not enough data to fill buffer"
  | b :: rest => .ok (b, rest)

/-- `Decode for Era`: the era and the bytes after it. -/
def Era.decode (input : List UInt8) : Except String (Era × List UInt8) := do
  let (first, input) ← readByte input
  if first = 0 then pure (.immortal, input)
  else
    let (second, input) ← readByte input
    let encoded := first.toNat + (second.toNat <<< 8)
    let period := 2 <<< (encoded % (1 <<< 4))
    let quantizeFactor := max (period >>> 12) 1
    let phase := (encoded >>> 4) * quantizeFactor
    if 4 ≤ period ∧ phase < period then pure (.mortal period phase, input)
    else .error "Invalid period and phase"

/-- The mortal eras `mortal` makes: a period `2 ^ k` with `2 ≤ k ≤ 16`, and a
phase below it that is a multiple of the quantize factor. -/
def MortalShape (period phase : Nat) : Prop :=
  ∃ k, 2 ≤ k ∧ k ≤ 16 ∧ period = 2 ^ k ∧ phase < period ∧ max (period >>> 12) 1 ∣ phase

/-! ## The fifteen periods -/

section Periods

theorem pow_le_quantizeFactor_mul : ∀ k < 17, 2 ≤ k → 2 ^ k ≤ max (2 ^ k >>> 12) 1 * 2 ^ 12 := by
  decide

theorem encode_low (k : Nat) (hk : 2 ≤ k) (hk' : k ≤ 16) :
    min (max ((ScAllocator.ctz 64 (2 ^ k) + 2 ^ 32 - 1) % 2 ^ 32) 1) 15 % 2 ^ 16 = k - 1 := by
  rw [ScAllocator.ctz_two_pow (by omega)]
  omega

theorem quantizeFactor_pos (period : Nat) : 0 < max (period >>> 12) 1 :=
  Nat.lt_of_lt_of_le Nat.one_pos (Nat.le_max_right _ _)

end Periods

/-! ## The encoding -/

theorem encode_mortal {k phase q : Nat} (hk : 2 ≤ k) (hk' : k ≤ 16) (hph : phase < 2 ^ k)
    (hq : max (2 ^ k >>> 12) 1 = q) :
    k - 1 + phase / q * 2 ^ 4 < 2 ^ 16 ∧
      Era.encode (.mortal (2 ^ k) phase) =
        [UInt8.ofNat ((k - 1 + phase / q * 2 ^ 4) % 2 ^ 8),
          UInt8.ofNat ((k - 1 + phase / q * 2 ^ 4) >>> 8)] := by
  have hqpos : 0 < q := hq ▸ quantizeFactor_pos _
  -- the quantized phase has twelve bits
  have hdiv : phase / q < 2 ^ 12 := by
    rw [Nat.div_lt_iff_lt_mul hqpos]
    have := pow_le_quantizeFactor_mul k (by omega) hk
    rw [hq] at this
    omega
  have hhigh : ((phase / q) <<< 4) % 2 ^ 16 = (phase / q) <<< 4 := by
    rw [Nat.shiftLeft_eq]
    exact Nat.mod_eq_of_lt (by omega)
  -- the two parts occupy disjoint bits
  have hor : k - 1 ||| (phase / q) <<< 4 = k - 1 + phase / q * 2 ^ 4 := by
    rw [Nat.or_comm, ← Nat.shiftLeft_add_eq_or_of_lt (by omega), Nat.shiftLeft_eq]
    omega
  refine ⟨by omega, ?_⟩
  simp only [Era.encode, hq, encode_low k hk hk', hhigh, hor]

/-! ## The decoding -/

theorem decode_two {lo hi : UInt8} (hlo : lo ≠ 0) (rest : List UInt8) :
    Era.decode (lo :: hi :: rest) =
      if 4 ≤ 2 ^ ((lo.toNat + hi.toNat * 2 ^ 8) % 2 ^ 4 + 1) ∧
          (lo.toNat + hi.toNat * 2 ^ 8) / 2 ^ 4 *
            max (2 ^ ((lo.toNat + hi.toNat * 2 ^ 8) % 2 ^ 4 + 1) >>> 12) 1 <
            2 ^ ((lo.toNat + hi.toNat * 2 ^ 8) % 2 ^ 4 + 1) then
        .ok (.mortal (2 ^ ((lo.toNat + hi.toNat * 2 ^ 8) % 2 ^ 4 + 1))
          ((lo.toNat + hi.toNat * 2 ^ 8) / 2 ^ 4 *
            max (2 ^ ((lo.toNat + hi.toNat * 2 ^ 8) % 2 ^ 4 + 1) >>> 12) 1), rest)
      else .error "Invalid period and phase" := by
  generalize hw : lo.toNat + hi.toNat * 2 ^ 8 = word
  have hword : lo.toNat + (hi.toNat <<< 8) = word := by rw [Nat.shiftLeft_eq, hw]
  have hperiod : 2 <<< (word % (1 <<< 4)) = 2 ^ (word % 2 ^ 4 + 1) := by
    rw [Nat.shiftLeft_eq, Nat.shiftLeft_eq, Nat.one_mul]
    exact Nat.pow_succ'.symm
  simp only [Era.decode, readByte, hlo, if_false, bind, Except.bind, pure, Except.pure, hword,
    hperiod, Nat.shiftRight_eq_div_pow]

/-- An accepted pair of bytes carries a period `2 ^ k` and a phase of shape
`MortalShape`, and the bytes are the `u16` `encode` writes for them. -/
theorem decode_mortal_shape {lo hi : UInt8} {rest rest' : List UInt8} {period phase : Nat}
    (h : Era.decode (lo :: hi :: rest) = .ok (.mortal period phase, rest')) :
    rest' = rest ∧ ∃ k, 2 ≤ k ∧ k ≤ 16 ∧ period = 2 ^ k ∧ phase < period ∧
      max (period >>> 12) 1 ∣ phase ∧
      lo.toNat + hi.toNat * 2 ^ 8 = k - 1 + phase / max (period >>> 12) 1 * 2 ^ 4 := by
  have hlo : lo ≠ 0 := by
    rintro rfl
    cases h
  rw [decode_two hlo rest] at h
  generalize hw : lo.toNat + hi.toNat * 2 ^ 8 = word at h
  split_ifs at h with hok
  obtain ⟨⟨⟩, ⟨⟩⟩ := Except.ok.inj h
  refine ⟨rfl, word % 2 ^ 4 + 1, ?_, by omega, rfl, hok.2, Dvd.intro_left _ rfl, ?_⟩
  · -- a period of at least 4 has at least two zero bits
    by_contra hk
    have : 2 ^ (word % 2 ^ 4 + 1) ≤ 2 ^ 1 := Nat.pow_le_pow_right (by decide) (by omega)
    omega
  · rw [Nat.mul_div_cancel _ (quantizeFactor_pos _)]
    omega

theorem toNat_bytes {word : Nat} (hw : word < 2 ^ 16) :
    (UInt8.ofNat (word % 2 ^ 8)).toNat + (UInt8.ofNat (word >>> 8)).toNat * 2 ^ 8 = word := by
  rw [UInt8.toNat_ofNat', UInt8.toNat_ofNat', Nat.shiftRight_eq_div_pow]
  omega

/-! ## Round trips -/

/-- Every era of shape `MortalShape` is read back from its two bytes, and the
first of them is not zero. -/
theorem decode_encode {period phase : Nat} (h : MortalShape period phase) (rest : List UInt8) :
    (∃ lo hi, Era.encode (.mortal period phase) = [lo, hi] ∧ lo ≠ 0) ∧
      Era.decode (Era.encode (.mortal period phase) ++ rest) = .ok (.mortal period phase, rest) := by
  obtain ⟨k, hk, hk', rfl, hph, hdvd⟩ := h
  obtain ⟨hword, henc⟩ := encode_mortal hk hk' hph rfl
  generalize hw : k - 1 + phase / max (2 ^ k >>> 12) 1 * 2 ^ 4 = word at hword henc
  have hbytes := toNat_bytes hword
  -- the low four bits hold `k - 1`, which is not zero
  have hlo : UInt8.ofNat (word % 2 ^ 8) ≠ 0 := by
    intro h0
    have : (UInt8.ofNat (word % 2 ^ 8)).toNat = 0 := by rw [h0]; rfl
    rw [UInt8.toNat_ofNat'] at this
    omega
  refine ⟨⟨_, _, henc, hlo⟩, ?_⟩
  rw [henc, List.cons_append, List.cons_append, List.nil_append, decode_two hlo rest, hbytes]
  have hk1 : word % 2 ^ 4 + 1 = k := by omega
  have hq : word / 2 ^ 4 * max (2 ^ k >>> 12) 1 = phase := by
    rw [show word / 2 ^ 4 = phase / max (2 ^ k >>> 12) 1 by omega]
    exact Nat.div_mul_cancel hdvd
  have h4 : 4 ≤ 2 ^ k := by
    calc 4 = 2 ^ 2 := rfl
      _ ≤ 2 ^ k := Nat.pow_le_pow_right (by decide) hk
  rw [hk1, hq, if_pos ⟨h4, hph⟩]

/-- The decoder accepts two bytes only when they are the encoding of what it
returns. -/
theorem encode_of_decode {lo hi : UInt8} {rest rest' : List UInt8} {period phase : Nat}
    (h : Era.decode (lo :: hi :: rest) = .ok (.mortal period phase, rest')) :
    MortalShape period phase ∧ Era.encode (.mortal period phase) = [lo, hi] := by
  obtain ⟨-, k, hk, hk', rfl, hph, hdvd, hword⟩ := decode_mortal_shape h
  refine ⟨⟨k, hk, hk', rfl, hph, hdvd⟩, ?_⟩
  obtain ⟨-, henc⟩ := encode_mortal hk hk' hph rfl
  rw [henc, ← hword]
  have hlo : (lo.toNat + hi.toNat * 2 ^ 8) % 2 ^ 8 = lo.toNat := by
    have := lo.toNat_lt
    omega
  have hhi : (lo.toNat + hi.toNat * 2 ^ 8) >>> 8 = hi.toNat := by
    rw [Nat.shiftRight_eq_div_pow]
    have := lo.toNat_lt
    omega
  rw [hlo, hhi, UInt8.ofNat_toNat, UInt8.ofNat_toNat]

/-! ## `mortal` -/

theorem clamp_two_pow (j : Nat) :
    ∃ k, 2 ≤ k ∧ k ≤ 16 ∧ min (max (2 ^ j) 4) (1 <<< 16) = 2 ^ k := by
  rw [Nat.one_shiftLeft]
  rcases Nat.lt_or_ge j 2 with hj | hj
  · have : 2 ^ j ≤ 2 ^ 2 := Nat.pow_le_pow_right (by decide) (by omega)
    exact ⟨2, le_refl _, by decide, by rw [Nat.max_eq_right (by omega)]; rfl⟩
  · rcases Nat.lt_or_ge j 17 with hj' | hj'
    · have h4 : 2 ^ 2 ≤ 2 ^ j := Nat.pow_le_pow_right (by decide) hj
      have h16 : 2 ^ j ≤ 2 ^ 16 := Nat.pow_le_pow_right (by decide) (by omega)
      exact ⟨j, hj, by omega, by rw [Nat.max_eq_left (by omega), Nat.min_eq_left h16]⟩
    · have h16 : 2 ^ 16 ≤ 2 ^ j := Nat.pow_le_pow_right (by decide) (by omega)
      exact ⟨16, by decide, le_refl _, by rw [Nat.max_eq_left (by omega), Nat.min_eq_right h16]⟩

/-- `mortal` rounds every period to one of the fifteen it can encode, and
quantizes `current % period`. -/
theorem mortal_shape (period current : Nat) :
    ∃ P, 0 < P ∧ mortal period current =
      .mortal P (current % P / max (P >>> 12) 1 * max (P >>> 12) 1) ∧
      MortalShape P (current % P / max (P >>> 12) 1 * max (P >>> 12) 1) := by
  -- `checked_next_power_of_two` gives a power of two, and so does the default
  obtain ⟨j, hj⟩ : ∃ j, (checkedNextPowerOfTwo period).getD (1 <<< 16) = 2 ^ j := by
    unfold checkedNextPowerOfTwo
    split_ifs
    · obtain ⟨j, -, hj, -⟩ := ScAllocator.ceilPow2_spec period 63
      exact ⟨j, by rw [Option.getD_some, hj]⟩
    · exact ⟨16, rfl⟩
  obtain ⟨k, hk, hk', hP⟩ := clamp_two_pow j
  have hpos : 0 < 2 ^ k := Nat.two_pow_pos k
  have hlt : current % 2 ^ k / max (2 ^ k >>> 12) 1 * max (2 ^ k >>> 12) 1 < 2 ^ k :=
    Nat.lt_of_le_of_lt (Nat.div_mul_le_self _ _) (Nat.mod_lt _ hpos)
  refine ⟨2 ^ k, hpos, ?_, k, hk, hk', rfl, hlt, Dvd.intro_left _ rfl⟩
  simp only [mortal, hj, hP]

/-! ## `birth` and `death` -/

/-- From the phase on, a mortal era puts each block in a window of one period
that starts on a block of the phase, as long as its end is a `u64`. -/
theorem birth_death_window {period phase : Nat} (hP : 0 < period) (hph : phase < period) (n : Nat)
    (hn : phase ≤ n) (hn' : n + period < 2 ^ 64) :
    (Era.mortal period phase).birth n ≤ n ∧ n < (Era.mortal period phase).death n ∧
      (Era.mortal period phase).death n = (Era.mortal period phase).birth n + period ∧
      (Era.mortal period phase).birth n % period = phase := by
  have hbirth : (Era.mortal period phase).birth n = (n - phase) / period * period + phase := by
    simp only [Era.birth, Nat.max_eq_left hn]
  have hle := Nat.div_mul_le_self (n - phase) period
  have hgt := Nat.lt_div_mul_add (a := n - phase) hP
  -- the end of the window is a `u64`, so the sum does not wrap
  have hdeath : (Era.mortal period phase).death n = (Era.mortal period phase).birth n + period := by
    simp only [Era.death]
    exact Nat.mod_eq_of_lt (by omega)
  refine ⟨by omega, by omega, hdeath, ?_⟩
  rw [hbirth, Nat.mul_comm, Nat.mul_add_mod, Nat.mod_eq_of_lt hph]

/-- At the block it was made for, a mortal era is born at most one quantize
factor earlier. -/
theorem birth_mortal (period current : Nat) {P : Nat} (hP : 0 < P)
    (h : mortal period current = .mortal P (current % P / max (P >>> 12) 1 * max (P >>> 12) 1)) :
    (mortal period current).birth current ≤ current ∧
      current - (mortal period current).birth current < max (P >>> 12) 1 := by
  set q := max (P >>> 12) 1
  have hq : 0 < q := quantizeFactor_pos P
  have hr := Nat.mod_add_div (current % P) q
  have hc := Nat.mod_add_div current P
  have hrq := Nat.mod_lt (current % P) hq
  have hx : current % P / q * q = q * (current % P / q) := Nat.mul_comm _ _
  have hy : current / P * P = P * (current / P) := Nat.mul_comm _ _
  -- `current - phase` is `current / P` whole periods and less than `q`
  have hdiv : (current - current % P / q * q) / P = current / P := by
    have hsplit : current - current % P / q * q =
        (current % P - current % P / q * q) + P * (current / P) := by omega
    rw [hsplit, Nat.add_mul_div_left _ _ hP, Nat.div_eq_of_lt (by omega), Nat.zero_add]
  have hbirth : (mortal period current).birth current = current / P * P + current % P / q * q := by
    rw [h]
    simp only [Era.birth, Nat.max_eq_left (show current % P / q * q ≤ current by omega), hdiv]
  rw [hbirth]
  constructor <;> omega

theorem mortal_codec_window :
    (∀ p c : Nat, ∃ P ph, mortal p c = .mortal P ph ∧ MortalShape P ph ∧
      (∃ lo hi, (mortal p c).encode = [lo, hi] ∧ lo ≠ 0) ∧
      Era.decode (mortal p c).encode = .ok (mortal p c, []) ∧
      (∀ n, ph ≤ n → n ≤ 2 ^ 64 - 1 - P →
        (mortal p c).birth n ≤ n ∧ n < (mortal p c).death n ∧
          (mortal p c).death n = (mortal p c).birth n + P ∧ (mortal p c).birth n % P = ph) ∧
      (mortal p c).birth c ≤ c ∧ c - (mortal p c).birth c < max (P >>> 12) 1) ∧
    (∀ (lo hi : UInt8) (P ph : Nat), Era.decode [lo, hi] = .ok (.mortal P ph, []) →
      Era.encode (.mortal P ph) = [lo, hi]) ∧
    Era.encode .immortal = [0] ∧ Era.decode [0] = .ok (.immortal, []) := by
  refine ⟨fun p c => ?_, fun lo hi P ph h => (encode_of_decode h).2, rfl, rfl⟩
  obtain ⟨P, hP, hm, hshape⟩ := mortal_shape p c
  obtain ⟨hbytes, hround⟩ := decode_encode hshape []
  obtain ⟨hph, hP16⟩ : c % P / max (P >>> 12) 1 * max (P >>> 12) 1 < P ∧ P ≤ 2 ^ 16 := by
    obtain ⟨k, -, hk, rfl, hph, -⟩ := hshape
    exact ⟨hph, Nat.pow_le_pow_right (by decide) hk⟩
  refine ⟨P, _, hm, hshape, hm ▸ hbytes, ?_, fun n hn hn' => ?_, birth_mortal p c hP hm⟩
  · rw [hm]
    simpa only [List.append_nil] using hround
  · rw [hm]
    exact birth_death_window hP hph n hn (by omega)

theorem mortal_codec_window_sixteen :
    Era.encode (.mortal 16 7) = [115, 0] ∧
      (mortal 10 1234567).death 1234567 = (mortal 10 1234567).birth 1234567 + 16 := by
  refine ⟨mortal_codec_window.2.1 115 0 16 7 (by decide), ?_⟩
  obtain ⟨P, ph, hm, -, -, -, hwin, -⟩ := mortal_codec_window.1 10 1234567
  have h16 : mortal 10 1234567 = .mortal 16 7 := by decide +kernel
  obtain ⟨rfl, rfl⟩ := Era.mortal.inj (h16.symm.trans hm)
  exact (hwin 1234567 (by omega) (by omega)).2.2.1

end SpRuntime
