import Shaunos.Common.StringInsns

/-!
# Copying and filling by words

Reference: `lib/string.c` (`memset`, `memcpy`, `memmove`).

From 32 bytes on, `memset` and `memcpy` go by single bytes to an address that is a multiple of 4, then by words, and
then over what is left. The word of `memset` is `c * 0x01010101`, of the whole of `c`. The branch of `memmove` for an
overlap starts behind the last byte, and takes as many single bytes as would lead upwards to a multiple of 4; for one or
two bytes that can be more than there are, and the count becomes negative.

* `memcpy_eq`, `memset_eq` — the paths with words do what the loop over bytes does;
* `wordPaths_rightIff` — for which `c`;
* `memmove_rightIff` — when `memmove` is a move.
-/

namespace Shaunos.Insns

/-! ## The code -/

/-- The single bytes up to a multiple of 4: one for each label that `switch (p & 3)` falls through. -/
def singles (p : BitVec 32) : ℕ :=
  match (p &&& 3).toNat with
  | 1 => 3
  | 2 => 2
  | 3 => 1
  | _ => 0

/-- `-p % 4` -/
def pad (p : BitVec 32) : BitVec 32 := BitVec.ofNat 32 ((-p).toNat % 4)

namespace Mem

variable (mem : Mem)

/-- What comes behind the words: `movsw` and `movsb`. -/
def movsRest (up : Bool) (rest : ℕ) (d s : BitVec 32) : Mem :=
  let two : BitVec 32 := if up then 2 else -2
  match rest with
  | 0 => mem
  | 1 => mem.movs 1 d s
  | 2 => mem.movs 2 d s
  | _ => (mem.movs 2 d s).movs 1 (d + two) (s + two)

def stosRest (rest : ℕ) (d eax : BitVec 32) : Mem :=
  match rest with
  | 0 => mem
  | 1 => mem.stos 1 d eax
  | 2 => mem.stos 2 d eax
  | _ => (mem.stos 2 d eax).stos 1 (d + 2) eax

/-- `s`, `c` -/
def memset (s c n : BitVec 32) : Mem :=
  let uc := c * 0x01010101
  if n = 0 then mem
  else if n.toNat < 32 then mem.repStos 1 1 c n.toNat s
  else
    let n := n - pad s
    let mem := mem.repStos 1 1 c (singles s) s
    let p := s + BitVec.ofNat 32 (singles s)
    let mem := mem.repStos 4 4 uc (n.toNat / 4) p
    mem.stosRest (n.toNat % 4) (p + BitVec.ofNat 32 (4 * (n.toNat / 4))) uc

def memcpy (dest src n : BitVec 32) : Mem :=
  if src = 0 ∨ dest = 0 then mem
  else if n = 0 then mem
  else if n.toNat < 32 then mem.repMovs 1 1 n.toNat dest src
  else
    let n := n - pad dest
    let mem := mem.repMovs 1 1 (singles dest) dest src
    let d := dest + BitVec.ofNat 32 (singles dest)
    let s := src + BitVec.ofNat 32 (singles dest)
    let mem := mem.repMovs 4 4 (n.toNat / 4) d s
    let done := BitVec.ofNat 32 (4 * (n.toNat / 4))
    mem.movsRest true (n.toNat % 4) (d + done) (s + done)

def memmove (dest src n : BitVec 32) : Mem :=
  if dest = 0 ∨ src = 0 ∨ n = 0 then mem
  else if src < dest ∧ dest ≤ src + n then
    let s := src + n
    let d := dest + n
    let n := n - pad d
    let mem := mem.repMovs 1 (-1) (singles d) d s
    let s := s - BitVec.ofNat 32 (singles d)
    let d := d - BitVec.ofNat 32 (singles d)
    let mem := mem.repMovs 4 (-4) (n.toNat / 4) d s
    let done := BitVec.ofNat 32 (4 * (n.toNat / 4))
    mem.movsRest false (n.toNat % 4) (d - done) (s - done)
  else mem.memcpy dest src n

end Mem

/-! ## What should happen -/

/-- Two buffers of `n` bytes that do not overlap. -/
def Disjoint (dest src n : BitVec 32) : Prop := n.toNat ≤ offset dest src ∧ n.toNat ≤ offset src dest

/-- `dest[i]` is `src[i]`, `s[i]` is `(unsigned char) c`, and no other byte changes. -/
structure WordPathsRight (mem : Mem) (dest src c n : BitVec 32) : Prop where
  memcpy : mem.memcpy dest src n = mem.copy n.toNat dest src
  memset : mem.memset dest c n = mem.fill n.toNat dest (c.setWidth 8)

/-- The bytes are moved as if there were a buffer in between, whatever they are. -/
def MemmoveRight (dest src n : BitVec 32) : Prop := ∀ mem : Mem, mem.memmove dest src n = mem.copy n.toNat dest src

/-- The destination starts behind the source, but not beyond its end. -/
def MovesUp (dest src n : BitVec 32) : Prop := n ≠ 0 ∧ src < dest ∧ dest ≤ src + n

section

variable {mem : Mem} {dest src s d p c n : BitVec 32}

theorem singles_eq (p : BitVec 32) : singles p = (-p).toNat % 4 := by
  have hand : (p &&& 3).toNat = p.toNat % 4 := by
    rw [BitVec.toNat_and]
    exact Nat.and_two_pow_sub_one_eq_mod p.toNat 2
  have hneg : (-p).toNat % 4 = (4 - p.toNat % 4) % 4 := by
    rw [BitVec.toNat_neg]
    have hp := p.isLt
    omega
  rw [singles, hand, hneg]
  have hcases : p.toNat % 4 = 0 ∨ p.toNat % 4 = 1 ∨ p.toNat % 4 = 2 ∨ p.toNat % 4 = 3 := by omega
  rcases hcases with h | h | h | h
  · rw [h]
    rfl
  · rw [h]
    rfl
  · rw [h]
    rfl
  · rw [h]
    rfl

theorem singles_lt (p : BitVec 32) : singles p < 4 := by
  rw [singles_eq]
  exact Nat.mod_lt _ (by decide)

theorem pad_eq (p : BitVec 32) : pad p = BitVec.ofNat 32 (singles p) := by rw [pad, singles_eq]

/-- From 32 bytes on, the single bytes can be taken off. -/
theorem toNat_sub_pad (h : ¬ n.toNat < 32) (p : BitVec 32) : (n - pad p).toNat + singles p = n.toNat := by
  have hlt := singles_lt p
  have hn := n.isLt
  rw [pad_eq, BitVec.toNat_sub, BitVec.toNat_ofNat]
  omega

theorem Disjoint.forward (h : Disjoint dest src n) : Forward dest src n.toNat := by
  obtain ⟨hsrc, hdest⟩ := h
  have hd := dest.isLt
  have hs := src.isLt
  rw [Forward]
  rw [toNat_sub_eq] at hsrc hdest ⊢
  omega

namespace Mem

theorem movsRest_up {rest : ℕ} (hrest : rest < 4) (h : Forward d s rest) :
    mem.movsRest true rest d s = mem.copy rest d s := by
  have hcases : rest = 0 ∨ rest = 1 ∨ rest = 2 ∨ rest = 3 := by omega
  rcases hcases with rfl | rfl | rfl | rfl
  · exact (copy_zero mem d s).symm
  · rfl
  · rfl
  · exact copy_append h

theorem repMovs_bytes {k : ℕ} (h : Forward d s k) : mem.repMovs 1 1 k d s = mem.copy k d s := by
  have hone : mem.repMovs 1 (BitVec.ofNat 32 1) k d s = mem.copy (1 * k) d s := repMovs_up (h.mono (Nat.one_mul k).le)
  rwa [Nat.one_mul] at hone

/-- Single bytes, words and what is left are one piece. -/
theorem copy_pieces {k words rest : ℕ} (hrest : rest < 4) (h : Forward d s (k + 4 * words + rest)) :
    (((mem.repMovs 1 1 k d s).repMovs 4 4 words (d + BitVec.ofNat 32 k) (s + BitVec.ofNat 32 k)).movsRest true rest
      (d + BitVec.ofNat 32 k + BitVec.ofNat 32 (4 * words)) (s + BitVec.ofNat 32 k + BitVec.ofNat 32 (4 * words))) =
      mem.copy (k + 4 * words + rest) d s := by
  have hwords : Forward d s (k + 4 * words) := h.mono (Nat.le_add_right _ _)
  have hassoc (x : BitVec 32) : x + BitVec.ofNat 32 k + BitVec.ofNat 32 (4 * words) =
      x + BitVec.ofNat 32 (k + 4 * words) := by
    rw [BitVec.add_assoc, BitVec.ofNat_add]
  have hup : (mem.repMovs 1 1 k d s).repMovs 4 4 words (d + BitVec.ofNat 32 k) (s + BitVec.ofNat 32 k) = _ :=
    repMovs_up ((hwords.mono (Nat.le_add_left (4 * words) k)).shift (BitVec.ofNat 32 k))
  rw [hassoc, hassoc, movsRest_up hrest ((h.mono (Nat.le_add_left _ _)).shift _)]
  rw [hup, repMovs_bytes (hwords.mono (Nat.le_add_right _ _)),
    copy_append hwords, copy_append h]

theorem memcpy_eq (hd : dest ≠ 0) (hs : src ≠ 0) (h : Forward dest src n.toNat) :
    mem.memcpy dest src n = mem.copy n.toNat dest src := by
  rw [memcpy, if_neg (not_or.mpr ⟨hs, hd⟩)]
  by_cases hzero : n = 0
  · rw [if_pos hzero, hzero]
    exact (copy_zero mem dest src).symm
  rw [if_neg hzero]
  by_cases hsmall : n.toNat < 32
  · rw [if_pos hsmall]
    exact repMovs_bytes h
  rw [if_neg hsmall]
  have hsum := toNat_sub_pad hsmall dest
  have hdiv := Nat.div_add_mod (n - pad dest).toNat 4
  have hmod := Nat.mod_lt (n - pad dest).toNat (show 0 < 4 by decide)
  have hall : singles dest + 4 * ((n - pad dest).toNat / 4) + (n - pad dest).toNat % 4 = n.toNat := by omega
  rw [← hall] at h ⊢
  exact copy_pieces hmod h

theorem stosRest_eq {rest : ℕ} {b : Byte} {eax : BitVec 32} (hrest : rest < 4)
    (hb : ∀ i < 2, eax.extractLsb' (8 * i) 8 = b) : mem.stosRest rest d eax = mem.fill rest d b := by
  have hone : ∀ i < 1, eax.extractLsb' (8 * i) 8 = b := fun i hi => hb i (by omega)
  have hcases : rest = 0 ∨ rest = 1 ∨ rest = 2 ∨ rest = 3 := by omega
  rcases hcases with rfl | rfl | rfl | rfl
  · exact (fill_zero mem d b).symm
  · exact stos_eq_fill hone
  · exact stos_eq_fill hb
  · change (mem.stos 2 d eax).stos 1 (d + 2) eax = _
    rw [stos_eq_fill hone, stos_eq_fill hb]
    exact fill_append (by decide)

theorem stosRest_frame {rest : ℕ} {eax k : BitVec 32} (hrest : rest < 4) (hk : ¬ offset d k < rest) :
    mem.stosRest rest d eax k = mem k := by
  have hcases : rest = 0 ∨ rest = 1 ∨ rest = 2 ∨ rest = 3 := by omega
  rcases hcases with rfl | rfl | rfl | rfl
  · rfl
  · exact if_neg hk
  · exact if_neg hk
  · have htwo : ¬ offset d k < 2 := by omega
    have hone : ¬ offset (d + 2) k < 1 := by
      rw [show (2 : BitVec 32) = BitVec.ofNat 32 2 from rfl, offset_add_lt_iff (by decide)]
      omega
    change (mem.stos 2 d eax).stos 1 (d + 2) eax k = _
    rw [stos, if_neg hone, stos, if_neg htwo]

end Mem

/-! ## The word of `memset` -/

theorem low_byte (c : BitVec 32) : c.extractLsb' (8 * 0) 8 = c.setWidth 8 := by
  apply BitVec.eq_of_toNat_eq
  rw [BitVec.extractLsb'_toNat, BitVec.toNat_setWidth, Nat.mul_zero, Nat.shiftRight_zero]

theorem word_of_byte : ∀ b : BitVec 8, ∀ i < 4, (b.setWidth 32 * 0x01010101).extractLsb' (8 * i) 8 = b := by
  decide +kernel

/-- For a `c` that is an `unsigned char`, all bytes of the word are the same. -/
theorem word_bytes (h : c.toNat < 256) : ∀ i < 4, (c * 0x01010101).extractLsb' (8 * i) 8 = c.setWidth 8 := by
  have hc : (c.setWidth 8).setWidth 32 = c := by
    apply BitVec.eq_of_toNat_eq
    rw [BitVec.toNat_setWidth, BitVec.toNat_setWidth]
    omega
  have hword := word_of_byte (c.setWidth 8)
  rwa [hc] at hword

/-- For another one, they are not. -/
theorem exists_word_byte (h : ¬ c.toNat < 256) : ∃ i < 4, (c * 0x01010101).extractLsb' (8 * i) 8 ≠ c.setWidth 8 := by
  by_contra hall
  simp only [not_exists, not_and, not_not] at hall
  have hbyte (i : ℕ) (hi : i < 4) : c.toNat * 16843009 % 2 ^ 32 / 2 ^ (8 * i) % 256 = c.toNat % 256 := by
    have hnat := congrArg BitVec.toNat (hall i hi)
    rwa [BitVec.extractLsb'_toNat, BitVec.toNat_mul, BitVec.toNat_setWidth, Nat.shiftRight_eq_div_pow] at hnat
  have h0 : c.toNat * 16843009 % 2 ^ 32 / 1 % 256 = c.toNat % 256 := hbyte 0 (by decide)
  have h1 : c.toNat * 16843009 % 2 ^ 32 / 256 % 256 = c.toNat % 256 := hbyte 1 (by decide)
  have h2 : c.toNat * 16843009 % 2 ^ 32 / 65536 % 256 = c.toNat % 256 := hbyte 2 (by decide)
  have h3 : c.toNat * 16843009 % 2 ^ 32 / 16777216 % 256 = c.toNat % 256 := hbyte 3 (by decide)
  have hc := c.isLt
  have hword : c.toNat * 16843009 % 2 ^ 32 = c.toNat % 256 * 16843009 := by
    have hlt := Nat.mod_lt (c.toNat * 16843009) (show 0 < 2 ^ 32 by decide)
    rw [Nat.div_one] at h0
    generalize c.toNat * 16843009 % 2 ^ 32 = u at *
    have h02 : u / 65536 = u / 256 / 256 := by omega
    have h03 : u / 16777216 = u / 256 / 256 / 256 := by omega
    rw [h02] at h2
    rw [h03] at h3
    omega
  -- the factor is odd
  have hzero : c.toNat - c.toNat % 256 = 0 := by
    have hdvd : 4294967296 ∣ (c.toNat - c.toNat % 256) * 16843009 := by
      rw [Nat.sub_mul, ← hword]
      exact Nat.dvd_sub_mod _
    have hodd : Nat.Coprime 4294967296 16843009 := by norm_num
    exact Nat.eq_zero_of_dvd_of_lt (hodd.dvd_of_dvd_mul_right hdvd) ((Nat.sub_le _ _).trans_lt c.isLt)
  exact h ((Nat.sub_eq_zero_iff_le.mp hzero).trans_lt (Nat.mod_lt _ (by decide)))

namespace Mem

/-- `memset` for a `c` that is an `unsigned char`, or for a few bytes. -/
theorem memset_eq (h : n.toNat < 32 ∨ c.toNat < 256) : mem.memset s c n = mem.fill n.toNat s (c.setWidth 8) := by
  have hlow : ∀ i < 1, c.extractLsb' (8 * i) 8 = c.setWidth 8 := by
    intro i hi
    rw [Nat.lt_one_iff.mp hi]
    exact low_byte c
  have hbytes {k : ℕ} (hk : k ≤ 2 ^ 32) : mem.repStos 1 1 c k s = mem.fill k s (c.setWidth 8) := by
    have hone : mem.repStos 1 (BitVec.ofNat 32 1) c k s = mem.fill (1 * k) s (c.setWidth 8) :=
      repStos_up Nat.one_pos hlow ((Nat.one_mul k).le.trans hk)
    rwa [Nat.one_mul] at hone
  rw [memset]
  dsimp only
  by_cases hzero : n = 0
  · rw [if_pos hzero, hzero]
    exact (fill_zero mem s _).symm
  rw [if_neg hzero]
  by_cases hsmall : n.toNat < 32
  · rw [if_pos hsmall]
    exact hbytes n.isLt.le
  rw [if_neg hsmall]
  have hword := word_bytes (h.resolve_left hsmall)
  have hsum := toNat_sub_pad hsmall s
  have hmod := Nat.mod_lt (n - pad s).toNat (show 0 < 4 by decide)
  have hdiv := Nat.div_add_mod (n - pad s).toNat 4
  have hn := n.isLt
  have hk := singles_lt s
  have hassoc (k m : ℕ) : s + BitVec.ofNat 32 k + BitVec.ofNat 32 m = s + BitVec.ofNat 32 (k + m) := by
    rw [BitVec.add_assoc, BitVec.ofNat_add]
  have hwords : (mem.fill (singles s) s (c.setWidth 8)).repStos 4 4 (c * 0x01010101) ((n - pad s).toNat / 4)
      (s + BitVec.ofNat 32 (singles s)) = _ :=
    repStos_up (by decide) hword (by omega)
  rw [hbytes (by omega), hwords, hassoc,
    stosRest_eq hmod fun i hi => hword i (by omega), fill_append (by omega), fill_append (by omega)]
  congr 1
  omega

/-- The first byte of a word that is not `c`. -/
theorem memset_of_word (h : ¬ n.toNat < 32) {i : ℕ} (hi : i < 4) :
    mem.memset s c n (s + BitVec.ofNat 32 (singles s + i)) = (c * 0x01010101).extractLsb' (8 * i) 8 := by
  have hk := singles_lt s
  have hsum := toNat_sub_pad h s
  have hn := n.isLt
  have hmod := Nat.mod_lt (n - pad s).toNat (show 0 < 4 by decide)
  have hne : n ≠ 0 := by
    rintro rfl
    exact h (by decide)
  have hoff : offset (s + BitVec.ofNat 32 (singles s)) (s + BitVec.ofNat 32 (singles s + i)) = i := by
    rw [BitVec.ofNat_add, ← BitVec.add_assoc]
    exact offset_add (by omega) _
  have hrest : ¬ offset (s + BitVec.ofNat 32 (singles s) + BitVec.ofNat 32 (4 * ((n - pad s).toNat / 4)))
      (s + BitVec.ofNat 32 (singles s + i)) < (n - pad s).toNat % 4 := by
    rw [offset_add_lt_iff (by omega), hoff]
    omega
  rw [memset]
  dsimp only
  rw [if_neg hne, if_neg h, stosRest_frame hmod hrest, show (4 : BitVec 32) = BitVec.ofNat 32 4 from rfl,
    repStos_words (by omega), fillWords, hoff, if_pos (by omega), Nat.mod_eq_of_lt hi]

end Mem

/-- The word-at-a-time paths agree with the byte loops for a `c` that is an `unsigned char`, and for few bytes. -/
theorem wordPaths_rightIff (mem : Mem) (dest src c n : BitVec 32) (hd : dest ≠ 0) (hs : src ≠ 0)
    (hdis : Disjoint dest src n) : WordPathsRight mem dest src c n ↔ n.toNat < 32 ∨ c.toNat < 256 := by
  constructor
  · intro h
    by_contra hno
    obtain ⟨hlarge, hc⟩ := not_or.mp hno
    obtain ⟨i, hi, hbyte⟩ := exists_word_byte hc
    have hk := singles_lt dest
    have hn := n.isLt
    have hset := congrFun h.memset (dest + BitVec.ofNat 32 (singles dest + i))
    have hin : offset dest (dest + BitVec.ofNat 32 (singles dest + i)) < n.toNat := by
      rw [offset_add (by omega)]
      omega
    rw [Mem.memset_of_word hlarge hi, Mem.fill, if_pos hin] at hset
    exact hbyte hset
  · exact fun h => ⟨Mem.memcpy_eq hd hs hdis.forward, Mem.memset_eq h⟩

theorem wordPaths_rightIff_two :
    WordPathsRight (fun _ => 0) 64 128 32 40 ↔ (40 : BitVec 32).toNat < 32 ∨ (32 : BitVec 32).toNat < 256 :=
  wordPaths_rightIff (fun _ => 0) 64 128 32 40 (by decide) (by decide) ⟨by decide, by decide⟩

/-- `memset (s, -1, 32)` -/
theorem memset_negative : ¬ ∀ (mem : Mem) (dest src c n : BitVec 32), dest ≠ 0 → src ≠ 0 → Disjoint dest src n →
    WordPathsRight mem dest src c n := by
  intro h
  have hbyte := congrFun (h (fun _ => 0) 64 128 (-1) 32 (by decide) (by decide) ⟨by decide, by decide⟩).memset 65
  exact absurd hbyte (by decide +kernel)

/-! ## Moves -/

namespace Mem

theorem movsRest_zero {rest : ℕ} (hrest : rest < 4) (up : Bool) (d s : BitVec 32) :
    movsRest (fun _ => 0) up rest d s = fun _ => 0 := by
  have hcases : rest = 0 ∨ rest = 1 ∨ rest = 2 ∨ rest = 3 := by omega
  rcases hcases with rfl | rfl | rfl | rfl
  · rfl
  · exact movs_zero 1 d s
  · exact movs_zero 2 d s
  · change (movs (fun _ => 0) 2 d s).movs 1 _ _ = _
    rw [movs_zero, movs_zero]

/-- Only the byte at `d` is not 0. -/
def one (d : BitVec 32) : Mem := fun k => if k = d then 1 else 0

theorem one_of_ne {k : BitVec 32} (h : k ≠ d) : one d k = 0 := if_neg h

theorem movs_one (hne : s ≠ d) : (one d).movs 1 d s = fun _ => 0 := by
  funext k
  by_cases hk : k = d
  · have hin : offset d k < 1 := by
      rw [hk, offset_self]
      exact Nat.one_pos
    rw [movs, copy, if_pos hin, hk, BitVec.sub_self, BitVec.add_zero]
    exact one_of_ne hne
  · have hout : ¬ offset d k < 1 := by
      intro hlt
      have hsplit := eq_add_offset d k
      rw [Nat.lt_one_iff.mp hlt] at hsplit
      exact hk (hsplit.trans (BitVec.add_zero d))
    rw [movs, copy, if_neg hout]
    exact one_of_ne hk

theorem movs_one_self {w : ℕ} (hw : 0 < w) (hne : s ≠ d) : (one d).movs w d s d = 0 := by
  have hin : offset d d < w := by rwa [offset_self]
  rw [movs, copy, if_pos hin, BitVec.sub_self, BitVec.add_zero]
  exact one_of_ne hne

theorem movsRest_three (mem : Mem) (d s : BitVec 32) :
    mem.movsRest false 3 d s = (mem.movs 2 d s).movs 1 (d + -2) (s + -2) := by
  simp only [movsRest, Bool.false_eq_true, if_false]

/-- What is left does not come to what is above its first bytes. -/
theorem movsRest_down_frame {rest : ℕ} {k : BitVec 32} (hrest : rest < 4) (hge : rest ≤ offset d k)
    (hlt : offset d k + 2 < 2 ^ 32) : mem.movsRest false rest d s k = mem k := by
  have hcases : rest = 0 ∨ rest = 1 ∨ rest = 2 ∨ rest = 3 := by omega
  rcases hcases with rfl | rfl | rfl | rfl
  · rfl
  · exact if_neg (Nat.not_lt.mpr hge)
  · exact if_neg (Nat.not_lt.mpr hge)
  · have hnext : offset (d + -2) k = offset d k + 2 := offset_sub_eq hlt
    have hone : ¬ offset (d + -2) k < 1 := by omega
    have htwo : ¬ offset d k < 2 := by omega
    rw [movsRest_three, movs, copy, if_neg hone, movs, copy, if_neg htwo]

/-- The first bytes of what is left. -/
theorem movsRest_one {rest : ℕ} (hrest : rest < 4) (hpos : 0 < rest) (hne : s ≠ d) :
    (one d).movsRest false rest d s d = 0 := by
  have hcases : rest = 1 ∨ rest = 2 ∨ rest = 3 := by omega
  rcases hcases with rfl | rfl | rfl
  · exact movs_one_self Nat.one_pos hne
  · exact movs_one_self Nat.two_pos hne
  · have hnext : offset (d + -2) d = 0 + 2 := by
      have hself := offset_self d
      rw [← hself]
      exact offset_sub_eq (by rw [hself]; decide)
    have hone : ¬ offset (d + -2) d < 1 := by omega
    rw [movsRest_three, movs, copy, if_neg hone]
    exact movs_one_self Nat.two_pos hne

/-- The byte behind the destination of a move upwards is lost. -/
theorem memmove_one (hd : dest ≠ 0) (hs : src ≠ 0) (hup : MovesUp dest src n) :
    (one (dest + n)).memmove dest src n (dest + n) = 0 := by
  obtain ⟨hn, hlt, hle⟩ := hup
  have hne : src + n ≠ dest + n := fun h => (BitVec.ne_of_lt hlt) (add_right_cancel h)
  have hnull : ¬ (dest = 0 ∨ src = 0 ∨ n = 0) := by tauto
  rw [memmove, if_neg hnull, if_pos ⟨hlt, hle⟩]
  have hmod := Nat.mod_lt (n - pad (dest + n)).toNat (show 0 < 4 by decide)
  rcases hk : singles (dest + n) with _ | k
  · have hpad : n - pad (dest + n) = n := by
      rw [pad_eq, hk]
      exact BitVec.sub_zero n
    rw [hpad] at hmod ⊢
    have hn' := n.isLt
    have hdiv := Nat.div_add_mod n.toNat 4
    have hself : offset (dest + n) (dest + n) = 0 := offset_self _
    rw [repMovs, BitVec.sub_zero, BitVec.sub_zero]
    rcases hwords : n.toNat / 4 with _ | words
    · have hpos : 0 < n.toNat % 4 := by
        have hnat : n.toNat ≠ 0 := fun hz => hn (BitVec.eq_of_toNat_eq hz)
        omega
      rw [repMovs, Nat.mul_zero, BitVec.sub_zero, BitVec.sub_zero]
      exact movsRest_one hmod hpos hne
    · have hdone : offset (dest + n - BitVec.ofNat 32 (4 * (words + 1))) (dest + n) = 0 + 4 * (words + 1) := by
        rw [sub_eq_add_neg, ← hself]
        exact offset_sub_eq (by omega)
      have hfour : offset (dest + n + -4) (dest + n) = 0 + 4 := by
        rw [← hself]
        exact offset_sub_eq (by rw [hself]; decide)
      rw [movsRest_down_frame hmod (by omega) (by omega), repMovs]
      have hframe : repMovs 4 (-4) words ((one (dest + n)).movs 4 (dest + n) (src + n)) (dest + n + -4) (src + n + -4)
          (dest + n) = (one (dest + n)).movs 4 (dest + n) (src + n) (dest + n) :=
        repMovs_down_frame hfour.ge (by omega) (by decide)
      rw [hframe]
      exact movs_one_self (by decide) hne
  · have hzero : (one (dest + n)).repMovs 1 (-1) (k + 1) (dest + n) (src + n) = fun _ => 0 := by
      rw [repMovs, movs_one hne, repMovs_zero]
    rw [hzero, repMovs_zero, movsRest_zero hmod]

end Mem

/-- `memmove` is a move, but for destinations that start behind the source and not beyond its end. -/
theorem memmove_rightIff (dest src n : BitVec 32) (hd : dest ≠ 0) (hs : src ≠ 0) (hdest : dest.toNat + n.toNat < 2 ^ 32)
    (hsrc : src.toNat + n.toNat < 2 ^ 32) : MemmoveRight dest src n ↔ ¬ MovesUp dest src n := by
  constructor
  · intro h hup
    have hone := congrFun (h (Mem.one (dest + n))) (dest + n)
    have hout : ¬ offset dest (dest + n) < n.toNat := by
      rw [offset, add_sub_cancel_left]
      exact lt_irrefl _
    rw [Mem.memmove_one hd hs hup, Mem.copy, if_neg hout, Mem.one, if_pos rfl] at hone
    exact absurd hone (by decide)
  · intro hup mem
    by_cases hzero : n = 0
    · rw [Mem.memmove, if_pos (.inr (.inr hzero)), hzero]
      exact (Mem.copy_zero mem dest src).symm
    have hbranch : ¬ (src < dest ∧ dest ≤ src + n) := fun h => hup ⟨hzero, h⟩
    have hforward : Forward dest src n.toNat := by
      rw [BitVec.lt_def, BitVec.le_def, BitVec.toNat_add] at hbranch
      rw [Forward, toNat_sub_eq]
      omega
    rw [Mem.memmove, if_neg (by tauto), if_neg hbranch]
    exact Mem.memcpy_eq hd hs hforward

theorem memmove_rightIff_down : MemmoveRight 64 68 8 ↔ ¬ MovesUp 64 68 8 :=
  memmove_rightIff 64 68 8 (by decide) (by decide) (by decide) (by decide)

/-- Eight bytes are moved by four, and the byte behind them is lost. -/
theorem memmove_writes_behind : ¬ ∀ dest src n : BitVec 32, dest ≠ 0 → src ≠ 0 → dest.toNat + n.toNat < 2 ^ 32 →
    src.toNat + n.toNat < 2 ^ 32 → MemmoveRight dest src n := by
  intro h
  have hbyte := congrFun (h 68 64 8 (by decide) (by decide) (by decide) (by decide) (Mem.one 76)) 76
  exact absurd hbyte (by decide +kernel)

end

end Shaunos.Insns
