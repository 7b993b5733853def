import Shaunos.Kernel.Memmove
import Shaunos.Net.Errno
import Shaunos.Net.IpOptcopy

/-!
# Setting the options of a socket

Reference: `Kernel/netinet/ip_output.c` (`ip_pcboptions`, `ip_pcbopts`), `lib/string.c` (`memmove`).

Both functions put four bytes in front of the options, for the first hop, and take the first hop out of a source route.
For the room in front `ip_pcboptions` moves the options up, with a `memmove` that leaves some of the first bytes where
they are; `ip_pcbopts` moves them down, over the first four. Behind a hop that is taken out `ip_pcboptions` closes the
gap and `ip_pcbopts` makes it wider. For options that are malformed `ip_pcboptions` returns a number that is not
negative.

* `pcboptLoop_iff` — when the loop does what it should, with any move behind a hop;
* `pcboptsRight_iff` — when both functions do.
-/

namespace Shaunos.Net

/-! ## The code -/

/-- An mbuf with options. -/
structure OptMbuf where
  mData : ℕ
  mLen : ℕ
  /-- `&m->m_dat[MLEN]` -/
  mDatEnd : ℕ
deriving DecidableEq

/-- What a call returns, what `*pcbopt` is then, with the bytes that it leads to, and what is freed. -/
structure PcboptResult where
  ret : ℤ
  pcbopt : Option (OptMbuf × ByteMem)
  freed : List OptMbuf

/-- The loop over the options. `gap` is the `memmove` behind a first hop; `none` is `bad`. -/
def pcboptLoop (gap : ByteMem → (cp cnt : ℕ) → ByteMem) (mtod : ℕ) :
    (fuel : ℕ) → ByteMem → (mLen cp cnt : ℕ) → Option (ByteMem × ℕ)
  | 0, mem, mLen, _, _ => some (mem, mLen)
  | fuel + 1, mem, mLen, cp, cnt =>
      if cnt = 0 then some (mem, mLen)
      else
        let opt := mem cp
        if opt = ipoptEOL then some (mem, mLen)
        else if opt = ipoptNOP then pcboptLoop gap mtod fuel mem mLen (cp + 1) (cnt - 1)
        else
          let optlen := (mem (cp + ipoptOLEN)).toNat
          if optlen ≤ ipoptOLEN ∨ cnt < optlen then none
          else if opt = ipoptLSRR ∨ opt = ipoptSSRR then
            if optlen < ipoptMINOFF - 1 + 4 then none
            else
              let cnt := cnt - 4
              let optlen := optlen - 4
              let mem : ByteMem := Function.update mem (cp + ipoptOLEN) (BitVec.ofNat 8 optlen)
              let mem := mem.memcpy mtod (cp + ipoptOFFSET + 1) 4
              pcboptLoop gap mtod fuel (gap mem cp cnt) (mLen - 4) (cp + optlen) (cnt - optlen)
          else pcboptLoop gap mtod fuel mem mLen (cp + optlen) (cnt - optlen)

/-- Both functions, with their first `memmove`, the one in the loop, and their error. -/
def setPcbopt (shift : ByteMem → (mtod cp cnt : ℕ) → ByteMem) (gap : ByteMem → (cp cnt : ℕ) → ByteMem) (einval : ℤ)
    (pcbopt : Option OptMbuf) (m : Option OptMbuf) (mem : ByteMem) : PcboptResult :=
  let freed := pcbopt.toList
  match m with
  | none => ⟨0, none, freed⟩
  | some m =>
      if m.mLen = 0 then ⟨0, none, freed ++ [m]⟩
      else if m.mLen % 4 ≠ 0 ∨ m.mDatEnd ≤ m.mData + m.mLen + 4 then ⟨einval, none, freed ++ [m]⟩
      else
        let cnt := m.mLen
        let cp := m.mData + 4
        let mem := (shift mem m.mData cp cnt).bzero m.mData 4
        match pcboptLoop gap m.mData cnt mem (cnt + 4) cp cnt with
        | none => ⟨einval, none, freed ++ [m]⟩
        | some (mem, mLen) =>
            if mAX_IPOPTLEN + 4 < mLen then ⟨einval, none, freed ++ [m]⟩
            else ⟨0, some ({ m with mLen }, mem), freed⟩

def ipPcboptions : (pcbopt m : Option OptMbuf) → ByteMem → PcboptResult :=
  setPcbopt (fun mem mtod cp cnt => mem.memmove cp mtod cnt)
    (fun mem cp cnt => mem.memmove (cp + ipoptOFFSET + 1) (cp + ipoptOFFSET + 1 + 4) (cnt + 4)) eINVAL

def ipPcbopts : (pcbopt m : Option OptMbuf) → ByteMem → PcboptResult :=
  setPcbopt (fun mem mtod cp cnt => mem.memmove mtod cp cnt)
    (fun mem cp cnt => mem.memmove (cp + ipoptOFFSET + 1 + 4) (cp + ipoptOFFSET + 1) (cnt + 4)) (-eINVAL)

/-! ## What should be stored -/

/-- A part of the options: a source route with its first hop, or anything else. -/
inductive PcbOpt where
  | plain (bytes : List Byte)
  | route (opt len ptr : Byte) (hop rest : List Byte)

/-- The parts of an option list; `none` if a length is wrong. -/
def parseOpts : List Byte → Option (List PcbOpt)
  | [] => some []
  | [opt] => if opt = ipoptEOL ∨ opt = ipoptNOP then some [.plain [opt]] else none
  | opt :: len :: rest =>
      if opt = ipoptEOL then some [.plain (opt :: len :: rest)]
      else if opt = ipoptNOP then (parseOpts (len :: rest)).map (.plain [opt] :: ·)
      else if len.toNat ≤ 1 ∨ rest.length + 2 < len.toNat then none
      else if opt = ipoptLSRR ∨ opt = ipoptSSRR then
        match rest.take (len.toNat - 2) with
        | ptr :: a :: b :: c :: d :: more =>
            (parseOpts (rest.drop (len.toNat - 2))).map (.route opt len ptr [a, b, c, d] more :: ·)
        | _ => none
      else (parseOpts (rest.drop (len.toNat - 2))).map (.plain (opt :: len :: rest.take (len.toNat - 2)) :: ·)
termination_by opts => opts.length
decreasing_by all_goals simp only [List.length_cons, List.length_drop]; omega

namespace PcbOpt

/-- What is kept of a part, with the length of the option as it was. -/
def kept : PcbOpt → List Byte
  | plain bytes => bytes
  | route opt len ptr _ rest => opt :: len :: ptr :: rest

/-- What is stored of a part. -/
def stored : PcbOpt → List Byte
  | plain bytes => bytes
  | route opt len ptr _ rest => opt :: (len - 4) :: ptr :: rest

end PcbOpt

/-- The first hop of the last source route; without one, `hop`. -/
def firstHop (hop : List Byte) : List PcbOpt → List Byte
  | [] => hop
  | .plain _ :: opts => firstHop hop opts
  | .route _ _ _ hop _ :: opts => firstHop hop opts

/-- The bytes that should be stored: the first hop or 0, and the options without it. -/
def storedOpts (opts : List PcbOpt) : List Byte := firstHop [0, 0, 0, 0] opts ++ opts.flatMap PcbOpt.stored

/-- The options that should be stored for an mbuf; `none` if it should be refused. -/
def wantedOpts (mem : ByteMem) (m : OptMbuf) : Option (List PcbOpt) :=
  if m.mLen % 4 ≠ 0 ∨ m.mDatEnd ≤ m.mData + m.mLen + 4 then none
  else (parseOpts (area mem m.mData m.mLen)).filter fun opts => (opts.flatMap PcbOpt.stored).length ≤ mAX_IPOPTLEN

/-- The old options are freed, and the new ones stored, if there are any, or refused with an error. -/
def PcboptRight (pcbopt m : Option OptMbuf) (mem : ByteMem) (r : PcboptResult) : Prop :=
  match m with
  | none => r.ret = 0 ∧ r.pcbopt = none ∧ r.freed = pcbopt.toList
  | some m =>
      if m.mLen = 0 then r.ret = 0 ∧ r.pcbopt = none ∧ r.freed = pcbopt.toList ++ [m]
      else
        match wantedOpts mem m with
        | none => r.ret = -eINVAL ∧ r.pcbopt = none ∧ r.freed = pcbopt.toList ++ [m]
        | some opts => r.ret = 0 ∧ r.freed = pcbopt.toList ∧ ∃ m' mem', r.pcbopt = some (m', mem') ∧
            m'.mData = m.mData ∧ area mem' m'.mData m'.mLen = storedOpts opts

/-- Both functions do what they should. -/
def PcboptsRight (pcbopt m : Option OptMbuf) (mem : ByteMem) : Prop :=
  PcboptRight pcbopt m mem (ipPcboptions pcbopt m mem) ∧ PcboptRight pcbopt m mem (ipPcbopts pcbopt m mem)

/-! ## Where bytes come from -/

/-- Where the byte at `k` comes from when a gap is closed, for a source route at `cp` with `cnt` bytes left. -/
def closeFrom (mtod cp cnt k : ℕ) : ℕ :=
  if mtod ≤ k ∧ k < mtod + 4 then cp + 3 + (k - mtod) else if cp + 3 ≤ k ∧ k < cp + 3 + cnt then k + 4 else k

/-- The same where the gap is made wider. -/
def openFrom (mtod cp cnt k : ℕ) : ℕ :=
  if mtod ≤ k ∧ k < mtod + 4 then cp + 3 + (k - mtod) else if MovedUp (cp + 7) cnt k then k - 4 else k

/-- Where the source routes are found, and how many bytes are left there. -/
def routesAt : List PcbOpt → (cp cnt : ℕ) → List (ℕ × ℕ)
  | [], _, _ => []
  | .plain bytes :: opts, cp, cnt => routesAt opts (cp + bytes.length) (cnt - bytes.length)
  | .route _ _ _ _ rest :: opts, cp, cnt =>
      (cp, cnt) :: routesAt opts (cp + 3 + rest.length) (cnt - 7 - rest.length)

/-- Where the byte at `k` comes from, when all source routes are done. -/
def trace (src : ℕ → ℕ → ℕ → ℕ) : List (ℕ × ℕ) → ℕ → ℕ
  | [], k => k
  | (cp, cnt) :: routes, k => src cp cnt (trace src routes k)

/-- Each byte of the first hop and of the options that are wanted from `cp` on is the byte that comes to its place. -/
def ComesOut (src : ℕ → ℕ → ℕ → ℕ) (mem : ByteMem) (mtod cp cnt : ℕ) (hop : List Byte) (opts : List PcbOpt) : Prop :=
  let from' := trace src (routesAt opts cp cnt)
  area (fun k => mem (from' k)) mtod 4 = firstHop hop opts ∧
    area (fun k => mem (from' k)) cp (opts.flatMap PcbOpt.kept).length = opts.flatMap PcbOpt.kept

/-- There are no options; or they are good ones, and the bytes that the moves of either function bring to their places
are the same ones by chance. -/
def PcboptsOk (m : Option OptMbuf) (mem : ByteMem) : Prop :=
  ∀ x ∈ m, x.mLen ≠ 0 → ∃ opts, wantedOpts mem x = some opts ∧
    ComesOut (closeFrom x.mData) ((mem.memmove (x.mData + 4) x.mData x.mLen).bzero x.mData 4)
      x.mData (x.mData + 4) x.mLen [0, 0, 0, 0] opts ∧
    ComesOut (openFrom x.mData) ((mem.memmove x.mData (x.mData + 4) x.mLen).bzero x.mData 4)
      x.mData (x.mData + 4) x.mLen [0, 0, 0, 0] opts

section

variable {gap : ByteMem → (cp cnt : ℕ) → ByteMem} {src : ℕ → ℕ → ℕ → ℕ} {mem mem' : ByteMem}
  {mtod cp cnt fuel mLen n k q : ℕ} {l hop : List Byte} {opts : List PcbOpt} {routes : List (ℕ × ℕ)}

/-! ## Moves behind a hop -/

/-- A move behind a hop leaves the bytes up to the hop, and takes the others from there on. -/
structure GapMap (mtod : ℕ) (src : ℕ → ℕ → ℕ → ℕ) : Prop where
  low : ∀ {cp cnt k}, mtod + 4 ≤ k → k < cp + 3 → src cp cnt k = k
  high : ∀ {cp cnt k}, mtod + 4 ≤ cp → (mtod ≤ k ∧ k < mtod + 4 ∨ cp + 3 ≤ k) → cp + 3 ≤ src cp cnt k

/-- The `memmove` that follows the copy of a hop, and where its bytes come from. -/
def Moves (mtod : ℕ) (gap : ByteMem → (cp cnt : ℕ) → ByteMem) (src : ℕ → ℕ → ℕ → ℕ) : Prop :=
  ∀ (mem : ByteMem) {cp cnt : ℕ}, mtod + 4 ≤ cp → 7 ≤ cnt →
    gap (mem.memcpy mtod (cp + ipoptOFFSET + 1) 4) cp (cnt - 4) = fun k => mem (src cp cnt k)

theorem gapMap_closeFrom : GapMap mtod (closeFrom mtod) where
  low hlow hlt := by
    rw [closeFrom, if_neg (by omega), if_neg (by omega)]
  high _ hk := by
    rw [closeFrom]
    split_ifs <;> omega

theorem gapMap_openFrom : GapMap mtod (openFrom mtod) where
  low hlow hlt := by
    rw [openFrom, if_neg (by omega), if_neg fun hup => ?_]
    have := hup.1
    omega
  high _ hk := by
    rw [openFrom]
    split_ifs with hhop hup
    · omega
    · have := hup.1
      omega
    · omega

theorem memcpy_hop (h : mtod + 4 ≤ k) : mem.memcpy mtod cp 4 k = mem k := if_neg (by omega)

theorem moves_close : Moves mtod
    (fun mem cp cnt => mem.memmove (cp + ipoptOFFSET + 1) (cp + ipoptOFFSET + 1 + 4) (cnt + 4)) (closeFrom mtod) := by
  intro mem cp cnt hcp hcnt
  funext k
  change (mem.memcpy mtod (cp + 3) 4).memmove (cp + 3) (cp + 7) (cnt - 4 + 4) k = _
  rw [show cnt - 4 + 4 = cnt by omega, ByteMem.memmove, if_neg (by omega), if_neg (by omega), closeFrom]
  by_cases hhop : mtod ≤ k ∧ k < mtod + 4
  · rw [if_pos hhop, ByteMem.memcpy, ByteMem.movs, if_neg (by omega)]
    exact if_pos hhop
  rw [if_neg hhop, ByteMem.memcpy, ByteMem.movs]
  by_cases hin : cp + 3 ≤ k ∧ k < cp + 3 + cnt
  · rw [if_pos hin, if_pos hin, memcpy_hop (by omega)]
    exact congrArg mem (by omega)
  · rw [if_neg hin, if_neg hin]
    exact if_neg hhop

theorem moves_open : Moves mtod
    (fun mem cp cnt => mem.memmove (cp + ipoptOFFSET + 1 + 4) (cp + ipoptOFFSET + 1) (cnt + 4)) (openFrom mtod) := by
  intro mem cp cnt hcp hcnt
  funext k
  change (mem.memcpy mtod (cp + 3) 4).memmove (cp + 7) (cp + 7 - 4) (cnt - 4 + 4) k = _
  rw [show cnt - 4 + 4 = cnt by omega, ByteMem.memmove_up (le_refl 4) (by omega) (by omega), openFrom]
  by_cases hhop : mtod ≤ k ∧ k < mtod + 4
  · rw [if_pos hhop, if_neg fun hup => ?_]
    · exact if_pos hhop
    · have := hup.1
      omega
  rw [if_neg hhop]
  by_cases hup : MovedUp (cp + 7) cnt k
  · rw [if_pos hup, if_pos hup]
    have := hup.1
    exact memcpy_hop (by omega)
  · rw [if_neg hup, if_neg hup]
    exact if_neg hhop

/-! ## Bytes of an area -/

theorem area_add (f : ℕ → Byte) (p n m : ℕ) : area f p (n + m) = area f p n ++ area f (p + n) m := by
  induction n generalizing p with
  | zero => simp [area_zero]
  | succ n ih =>
      rw [show n + 1 + m = n + m + 1 by omega, area_succ, area_succ, ih, show p + 1 + n = p + (n + 1) by omega,
        List.cons_append]

theorem area_congr {f g : ℕ → Byte} {p : ℕ} (h : ∀ i < n, f (p + i) = g (p + i)) : area f p n = area g p n :=
  List.map_congr_left fun i hi => h i (List.mem_range.mp hi)

theorem area_append_iff {f : ℕ → Byte} {p : ℕ} {x y : List Byte} :
    area f p (x ++ y).length = x ++ y ↔ area f p x.length = x ∧ area f (p + x.length) y.length = y := by
  rw [List.length_append, area_add]
  constructor
  · intro h
    exact List.append_inj h (length_area f p x.length)
  · rintro ⟨hx, hy⟩
    rw [hx, hy]

theorem area_cons_iff {f : ℕ → Byte} {p : ℕ} {b : Byte} {x : List Byte} :
    area f p (b :: x).length = b :: x ↔ f p = b ∧ area f (p + 1) x.length = x := by
  rw [List.length_cons, area_succ, List.cons.injEq]

/-! ## The parts of an option list -/

/-- How a list of options starts. -/
theorem parseOpts_cases (h : parseOpts l = some opts) :
    (l = [] ∧ opts = []) ∨ (∃ rest, l = ipoptEOL :: rest ∧ opts = [.plain l]) ∨
    (∃ rest opts', l = ipoptNOP :: rest ∧ parseOpts rest = some opts' ∧ opts = .plain [ipoptNOP] :: opts') ∨
    (∃ opt len body rest opts', opt ≠ ipoptEOL ∧ opt ≠ ipoptNOP ∧ ¬ (opt = ipoptLSRR ∨ opt = ipoptSSRR) ∧
      l = (opt :: len :: body) ++ rest ∧ len.toNat = body.length + 2 ∧ parseOpts rest = some opts' ∧
      opts = .plain (opt :: len :: body) :: opts') ∨
    (∃ opt len ptr hop body rest opts', (opt = ipoptLSRR ∨ opt = ipoptSSRR) ∧ hop.length = 4 ∧
      l = (opt :: len :: ptr :: hop ++ body) ++ rest ∧ len.toNat = body.length + 7 ∧ parseOpts rest = some opts' ∧
      opts = .route opt len ptr hop body :: opts') := by
  match l with
  | [] =>
      rw [parseOpts] at h
      exact .inl ⟨rfl, (Option.some.inj h).symm⟩
  | [opt] =>
      rw [parseOpts] at h
      split_ifs at h with hopt
      obtain rfl := Option.some.inj h
      rcases hopt with rfl | rfl
      · exact .inr (.inl ⟨[], rfl, rfl⟩)
      · exact .inr (.inr (.inl ⟨[], [], rfl, by rw [parseOpts], rfl⟩))
  | opt :: len :: rest =>
      rw [parseOpts] at h
      split_ifs at h with heol hnop hlen hroute
      · subst heol
        exact .inr (.inl ⟨len :: rest, rfl, (Option.some.inj h).symm⟩)
      · subst hnop
        obtain ⟨opts', hparse, rfl⟩ := Option.map_eq_some_iff.mp h
        exact .inr (.inr (.inl ⟨len :: rest, opts', rfl, hparse, rfl⟩))
      · obtain ⟨hlen1, hlen2⟩ := not_or.mp hlen
        have hsplit := List.take_append_drop (len.toNat - 2) rest
        have htake : (rest.take (len.toNat - 2)).length = len.toNat - 2 := List.length_take_of_le (by omega)
        generalize rest.take (len.toNat - 2) = body at h hsplit htake
        generalize rest.drop (len.toNat - 2) = tail at h hsplit
        subst hsplit
        match body with
        | ptr :: a :: b :: c :: d :: more =>
            obtain ⟨opts', hparse, rfl⟩ := Option.map_eq_some_iff.mp h
            refine .inr (.inr (.inr (.inr ⟨opt, len, ptr, [a, b, c, d], more, tail, opts', hroute, rfl, rfl, ?_, hparse,
              rfl⟩)))
            simp only [List.length_cons] at htake
            omega
        | [] | [_] | [_, _] | [_, _, _] | [_, _, _, _] => cases h
      · obtain ⟨hlen1, hlen2⟩ := not_or.mp hlen
        obtain ⟨opts', hparse, rfl⟩ := Option.map_eq_some_iff.mp h
        have htake : (rest.take (len.toNat - 2)).length = len.toNat - 2 := List.length_take_of_le (by omega)
        refine .inr (.inr (.inr (.inl ⟨opt, len, rest.take (len.toNat - 2), _, opts', heol, hnop, hroute, ?_, by omega,
          hparse, rfl⟩)))
        rw [List.cons_append, List.cons_append, List.take_append_drop]

/-! ## The places of the source routes -/

theorem le_of_mem_routesAt {x : ℕ × ℕ} (h : x ∈ routesAt opts cp cnt) : cp ≤ x.1 := by
  induction opts generalizing cp cnt with
  | nil => cases h
  | cons o opts ih =>
      cases o with
      | plain bytes => exact le_trans (Nat.le_add_right _ _) (ih h)
      | route opt len ptr hop rest =>
          rcases List.mem_cons.mp h with rfl | h
          · exact le_refl cp
          · have := ih h
            omega

/-- Bytes before the first source route stay. -/
theorem trace_low (hsrc : GapMap mtod src) (hq : ∀ x ∈ routes, q ≤ x.1) (hk : mtod + 4 ≤ k) (hlt : k < q + 3) :
    trace src routes k = k := by
  induction routes with
  | nil => rfl
  | cons x routes ih =>
      have hx := hq x List.mem_cons_self
      rw [trace, ih fun y hy => hq y (List.mem_cons_of_mem x hy)]
      exact hsrc.low hk (by omega)

/-- The others come from behind it. -/
theorem trace_high (hsrc : GapMap mtod src) (hmtod : mtod + 4 ≤ q) (hq : ∀ x ∈ routes, q ≤ x.1)
    (hk : (mtod ≤ k ∧ k < mtod + 4) ∨ q ≤ k) :
    (mtod ≤ trace src routes k ∧ trace src routes k < mtod + 4) ∨ q ≤ trace src routes k := by
  induction routes with
  | nil => exact hk
  | cons x routes ih =>
      have hx := hq x List.mem_cons_self
      have htail := ih fun y hy => hq y (List.mem_cons_of_mem x hy)
      rw [trace]
      generalize trace src routes k = t at htail
      by_cases hlow : mtod + 4 ≤ t ∧ t < x.1 + 3
      · rw [hsrc.low hlow.1 hlow.2]
        exact htail
      · have : x.1 + 3 ≤ src x.1 x.2 t := hsrc.high (by omega) (by omega)
        exact .inr (by omega)

/-! ## The loop -/

/-- The memory behind a source route at `cp`, with an option length of `optlen`. -/
def routeMem (src : ℕ → ℕ → ℕ → ℕ) (mem : ByteMem) (cp cnt optlen : ℕ) : ByteMem := fun k =>
  Function.update mem (cp + 1) (BitVec.ofNat 8 (optlen - 4)) (src cp cnt k)

theorem pcboptLoop_zero (gap : ByteMem → (cp cnt : ℕ) → ByteMem) (mtod fuel : ℕ) (mem : ByteMem) (mLen cp : ℕ) :
    pcboptLoop gap mtod fuel mem mLen cp 0 = some (mem, mLen) := by
  cases fuel with
  | zero => rfl
  | succ fuel => rw [pcboptLoop, if_pos rfl]

theorem pcboptLoop_eol (hcnt : cnt ≠ 0) (h : mem cp = ipoptEOL) :
    pcboptLoop gap mtod (fuel + 1) mem mLen cp cnt = some (mem, mLen) := by
  simp only [pcboptLoop, if_neg hcnt, if_pos h]

theorem pcboptLoop_nop (hcnt : cnt ≠ 0) (h : mem cp = ipoptNOP) :
    pcboptLoop gap mtod (fuel + 1) mem mLen cp cnt = pcboptLoop gap mtod fuel mem mLen (cp + 1) (cnt - 1) := by
  simp only [pcboptLoop, if_neg hcnt, h, if_neg nop_ne_eol, if_pos]

/-- Other options: they have a length, or the loop goes to `bad`. -/
theorem pcboptLoop_opt (hmoves : Moves mtod gap src) (hcp : mtod + 4 ≤ cp) (hcnt : cnt ≠ 0) (heol : mem cp ≠ ipoptEOL)
    (hnop : mem cp ≠ ipoptNOP) :
    pcboptLoop gap mtod (fuel + 1) mem mLen cp cnt =
      let optlen := (mem (cp + 1)).toNat
      if optlen ≤ 1 ∨ cnt < optlen then none
      else if mem cp = ipoptLSRR ∨ mem cp = ipoptSSRR then
        if optlen < 7 then none
        else pcboptLoop gap mtod fuel (routeMem src mem cp cnt optlen) (mLen - 4) (cp + (optlen - 4)) (cnt - optlen)
      else pcboptLoop gap mtod fuel mem mLen (cp + optlen) (cnt - optlen) := by
  simp only [pcboptLoop, if_neg hcnt, if_neg heol, if_neg hnop]
  change _ = if (mem (cp + ipoptOLEN)).toNat ≤ ipoptOLEN ∨ cnt < (mem (cp + ipoptOLEN)).toNat then none else _
  refine if_ctx_congr Iff.rfl (fun _ => rfl) fun hlen => if_ctx_congr Iff.rfl (fun _ => ?_) fun _ => rfl
  change _ = if (mem (cp + ipoptOLEN)).toNat < ipoptMINOFF - 1 + 4 then none else _
  refine if_ctx_congr Iff.rfl (fun _ => rfl) fun h7 => ?_
  have h7' : ¬ (mem (cp + ipoptOLEN)).toNat < 7 := h7
  rw [hmoves _ hcp (by omega), show cnt - 4 - ((mem (cp + ipoptOLEN)).toNat - 4) = cnt - (mem (cp + 1)).toNat by
    rw [ipoptOLEN] at hlen h7' ⊢
    omega]
  rfl

/-- The loop leaves the bytes up to the one where it is. -/
theorem pcboptLoop_keeps (hsrc : GapMap mtod src) (hmoves : Moves mtod gap src) (hcp : mtod + 4 ≤ cp)
    (h : pcboptLoop gap mtod fuel mem mLen cp cnt = some (mem', n)) (hk : mtod + 4 ≤ k) (hle : k ≤ cp) :
    mem' k = mem k := by
  induction fuel generalizing mem mLen cp cnt with
  | zero =>
      obtain ⟨rfl, -⟩ := Prod.ext_iff.mp (Option.some.inj h)
      rfl
  | succ fuel ih =>
      by_cases hcnt : cnt = 0
      · rw [hcnt, pcboptLoop_zero] at h
        obtain ⟨rfl, -⟩ := Prod.ext_iff.mp (Option.some.inj h)
        rfl
      by_cases heol : mem cp = ipoptEOL
      · rw [pcboptLoop_eol hcnt heol] at h
        obtain ⟨rfl, -⟩ := Prod.ext_iff.mp (Option.some.inj h)
        rfl
      by_cases hnop : mem cp = ipoptNOP
      · rw [pcboptLoop_nop hcnt hnop] at h
        exact ih (by omega) h (by omega)
      rw [pcboptLoop_opt hmoves hcp hcnt heol hnop] at h
      dsimp only at h
      split_ifs at h with hlen hroute h7
      · rw [ih (by omega) h (by omega), routeMem, hsrc.low hk (by omega), Function.update_of_ne (by omega)]
      · exact ih (by omega) h (by omega)

/-- The loop stores what is wanted, from `a` bytes behind `mtod` on. -/
def LoopStores (gap : ByteMem → (cp cnt : ℕ) → ByteMem) (mtod fuel : ℕ) (mem : ByteMem) (a cnt : ℕ) (hop : List Byte)
    (opts : List PcbOpt) : Prop :=
  ∃ mem', pcboptLoop gap mtod fuel mem (a + cnt) (mtod + a) cnt =
      some (mem', a + (opts.flatMap PcbOpt.stored).length) ∧
    area mem' mtod 4 = firstHop hop opts ∧
    area mem' (mtod + a) (opts.flatMap PcbOpt.stored).length = opts.flatMap PcbOpt.stored

section

variable {a : ℕ} {x body : List Byte} {opt len ptr : Byte}

theorem comesOut_plain (hsrc : GapMap mtod src) (hcp : mtod + 4 ≤ cp) :
    ComesOut src mem mtod cp cnt hop (.plain x :: opts) ↔
      area mem cp x.length = x ∧ ComesOut src mem mtod (cp + x.length) (cnt - x.length) hop opts := by
  simp only [ComesOut, firstHop, routesAt, List.flatMap_cons, PcbOpt.kept, area_append_iff]
  have hsame : area (fun k => mem (trace src (routesAt opts (cp + x.length) (cnt - x.length)) k)) cp x.length =
      area mem cp x.length := area_congr fun i hi => congrArg mem
    (trace_low hsrc (fun _ => le_of_mem_routesAt) (by omega) (by omega))
  rw [hsame]
  exact and_left_comm

theorem stores_plain (hsrc : GapMap mtod src) (hmoves : Moves mtod gap src) (ha : 4 ≤ a) (hx : x.length ≤ cnt)
    (hstep : area mem (mtod + a) x.length = x → pcboptLoop gap mtod (fuel + 1) mem (a + cnt) (mtod + a) cnt =
      pcboptLoop gap mtod fuel mem (a + cnt) (mtod + a + x.length) (cnt - x.length))
    (hhead : ∀ {mem' n}, pcboptLoop gap mtod (fuel + 1) mem (a + cnt) (mtod + a) cnt = some (mem', n) →
      area mem' (mtod + a) x.length = x → area mem (mtod + a) x.length = x) :
    LoopStores gap mtod (fuel + 1) mem a cnt hop (.plain x :: opts) ↔
      area mem (mtod + a) x.length = x ∧ LoopStores gap mtod fuel mem (a + x.length) (cnt - x.length) hop opts := by
  have hlen : a + x.length + (cnt - x.length) = a + cnt := by omega
  simp only [LoopStores, firstHop, List.flatMap_cons, PcbOpt.stored, area_append_iff, hlen, ← Nat.add_assoc]
  rw [List.length_append, ← Nat.add_assoc]
  constructor
  · rintro ⟨mem', hloop, hhop, hbytes, hrest⟩
    have hmem := hhead hloop hbytes
    exact ⟨hmem, mem', (hstep hmem).symm.trans hloop, hhop, hrest⟩
  · rintro ⟨hmem, mem', hloop, hhop, hrest⟩
    have hsame : area mem' (mtod + a) x.length = area mem (mtod + a) x.length := area_congr fun i hi =>
      pcboptLoop_keeps hsrc hmoves (show mtod + 4 ≤ mtod + a + x.length by omega) hloop (by omega) (by omega)
    exact ⟨mem', (hstep hmem).trans hloop, hhop, hsame.trans hmem, hrest⟩

theorem stores_nop (hsrc : GapMap mtod src) (hmoves : Moves mtod gap src) (ha : 4 ≤ a) (hcnt : cnt ≠ 0) :
    LoopStores gap mtod (fuel + 1) mem a cnt hop (.plain [ipoptNOP] :: opts) ↔
      area mem (mtod + a) 1 = [ipoptNOP] ∧ LoopStores gap mtod fuel mem (a + 1) (cnt - 1) hop opts := by
  have hone {f : ByteMem} : area f (mtod + a) [ipoptNOP].length = [ipoptNOP] ↔ f (mtod + a) = ipoptNOP := by
    rw [area_cons_iff]
    exact and_iff_left rfl
  refine stores_plain hsrc hmoves ha (Nat.one_le_iff_ne_zero.mpr hcnt) (fun hmem => ?_) fun hloop hbytes => ?_
  · exact pcboptLoop_nop hcnt (hone.mp hmem)
  · rw [hone] at hbytes ⊢
    rw [← hbytes]
    exact (pcboptLoop_keeps hsrc hmoves (by omega) hloop (by omega) (le_refl _)).symm

/-- An option, with the two bytes that the loop reads. -/
theorem area_opt_iff {f : ByteMem} : area f cp (opt :: len :: body).length = opt :: len :: body ↔
    f cp = opt ∧ f (cp + 1) = len ∧ area f (cp + 2) body.length = body := by
  rw [area_cons_iff, area_cons_iff]

theorem stores_opt (hsrc : GapMap mtod src) (hmoves : Moves mtod gap src) (ha : 4 ≤ a) (heol : opt ≠ ipoptEOL)
    (hnop : opt ≠ ipoptNOP) (hroute : ¬ (opt = ipoptLSRR ∨ opt = ipoptSSRR)) (hlen : len.toNat = body.length + 2)
    (hcnt : body.length + 2 ≤ cnt) :
    LoopStores gap mtod (fuel + 1) mem a cnt hop (.plain (opt :: len :: body) :: opts) ↔
      area mem (mtod + a) (opt :: len :: body).length = opt :: len :: body ∧
        LoopStores gap mtod fuel mem (a + (opt :: len :: body).length) (cnt - (opt :: len :: body).length) hop
          opts := by
  refine stores_plain hsrc hmoves ha hcnt (fun hmem => ?_) fun hloop hbytes => ?_
  · obtain ⟨rfl, rfl, -⟩ := area_opt_iff.mp hmem
    rw [pcboptLoop_opt hmoves (by omega) (by omega) heol hnop]
    simp only [hlen, if_neg hroute, List.length_cons]
    rw [if_neg (by omega)]
  · obtain ⟨hopt, hlen', hbody⟩ := area_opt_iff.mp hbytes
    have hmem : mem (mtod + a) = opt := by
      rw [← hopt]
      exact (pcboptLoop_keeps hsrc hmoves (by omega) hloop (by omega) (le_refl _)).symm
    rw [pcboptLoop_opt hmoves (by omega) (by omega) (hmem ▸ heol) (hmem ▸ hnop), hmem] at hloop
    dsimp only at hloop
    split_ifs at hloop with hbad
    have hkeep := fun k => pcboptLoop_keeps (k := k) hsrc hmoves
      (show mtod + 4 ≤ mtod + a + (mem (mtod + a + 1)).toNat by omega) hloop
    have hmemlen : mem (mtod + a + 1) = len := by rw [← hlen', hkeep _ (by omega) (by omega)]
    rw [hmemlen, hlen] at hkeep
    refine area_opt_iff.mpr ⟨hmem, hmemlen, Eq.trans ?_ hbody⟩
    exact area_congr fun i hi => (hkeep _ (by omega) (by omega)).symm

/-! ## Source routes -/

/-- Behind a source route the bytes come from where they came from, the length apart. -/
theorem routeMem_trace (mem : ByteMem) (cnt : ℕ) (hsrc : GapMap mtod src) (hcp : mtod + 4 ≤ cp) (hq : ∀ x ∈ routes, cp + 3 ≤ x.1) (optlen : ℕ)
    (hk : (mtod ≤ k ∧ k < mtod + 4) ∨ cp + 3 ≤ k) :
    routeMem src mem cp cnt optlen (trace src routes k) = mem (trace src ((cp, cnt) :: routes) k) := by
  have hhigh : cp + 3 ≤ src cp cnt (trace src routes k) := hsrc.high hcp (trace_high hsrc (by omega) hq hk)
  rw [routeMem, Function.update_of_ne (by omega), trace]

theorem comesOut_route {rhop : List Byte} (hsrc : GapMap mtod src) (hcp : mtod + 4 ≤ cp) (optlen : ℕ) :
    ComesOut src mem mtod cp cnt hop (.route opt len ptr rhop body :: opts) ↔
      (mem cp = opt ∧ mem (cp + 1) = len) ∧
        area (routeMem src mem cp cnt optlen) (cp + 2) (ptr :: body).length = ptr :: body ∧
        ComesOut src (routeMem src mem cp cnt optlen) mtod (cp + 3 + body.length) (cnt - 7 - body.length) rhop
          opts := by
  simp only [ComesOut, firstHop, routesAt, List.flatMap_cons, PcbOpt.kept, area_append_iff, area_opt_iff]
  have hfrom : ∀ x ∈ routesAt opts (cp + 3 + body.length) (cnt - 7 - body.length), cp + 3 + body.length ≤ x.1 :=
    fun _ => le_of_mem_routesAt
  have hlow {k : ℕ} (hk : cp ≤ k) (hlt : k < cp + 3) :
      trace src ((cp, cnt) :: routesAt opts (cp + 3 + body.length) (cnt - 7 - body.length)) k = k := by
    rw [trace, trace_low hsrc hfrom (by omega) (by omega), hsrc.low (by omega) (by omega)]
  have hroute {k : ℕ} (hk : (mtod ≤ k ∧ k < mtod + 4) ∨ cp + 3 ≤ k) := routeMem_trace mem cnt hsrc hcp
    (fun x hx => le_trans (Nat.le_add_right _ _) (hfrom x hx)) optlen hk
  have hall (p n : ℕ) (h : ∀ i < n, (mtod ≤ p + i ∧ p + i < mtod + 4) ∨ cp + 3 ≤ p + i) :
      area (fun k => routeMem src mem cp cnt optlen
          (trace src (routesAt opts (cp + 3 + body.length) (cnt - 7 - body.length)) k)) p n =
        area (fun k => mem
          (trace src ((cp, cnt) :: routesAt opts (cp + 3 + body.length) (cnt - 7 - body.length)) k)) p n :=
    area_congr fun i hi => hroute (h i hi)
  have hbody : area (routeMem src mem cp cnt optlen) (cp + 2) (ptr :: body).length = area
      (fun k => mem (trace src ((cp, cnt) :: routesAt opts (cp + 3 + body.length) (cnt - 7 - body.length)) k)) (cp + 2)
      (ptr :: body).length := area_congr fun i hi => by
    rw [List.length_cons] at hi
    cases i with
    | zero =>
        rw [hlow (by omega) (by omega), routeMem, hsrc.low (by omega) (by omega), Function.update_of_ne (by omega)]
    | succ i => rw [← hroute (.inr (by omega)), trace_low hsrc hfrom (by omega) (by omega)]
  have hnext : cp + (opt :: len :: ptr :: body).length = cp + 3 + body.length := by
    simp only [List.length_cons]
    omega
  rw [hlow (le_refl _) (by omega), hlow (by omega) (by omega), hnext, ← hbody, hall mtod 4 fun i hi => by omega,
    hall (cp + 3 + body.length) _ fun i hi => by omega]
  constructor
  · rintro ⟨hhop, ⟨hopt, hlen, hbody⟩, hrest⟩
    exact ⟨⟨hopt, hlen⟩, hbody, hhop, hrest⟩
  · rintro ⟨⟨hopt, hlen⟩, hbody, hhop, hrest⟩
    exact ⟨hhop, ⟨hopt, hlen, hbody⟩, hrest⟩

theorem toNat_sub_four {b : Byte} (h : 4 ≤ b.toNat) : BitVec.ofNat 8 (b.toNat - 4) = b - 4 := by
  apply BitVec.eq_of_toNat_eq
  have := b.isLt
  rw [BitVec.toNat_ofNat, BitVec.toNat_sub, show (4 : BitVec 8).toNat = 4 from rfl]
  omega

theorem stores_route {rhop : List Byte} (hsrc : GapMap mtod src) (hmoves : Moves mtod gap src) (ha : 4 ≤ a)
    (hroute : opt = ipoptLSRR ∨ opt = ipoptSSRR) (hlen : len.toNat = body.length + 7) (hcnt : body.length + 7 ≤ cnt) :
    LoopStores gap mtod (fuel + 1) mem a cnt hop (.route opt len ptr rhop body :: opts) ↔
      (mem (mtod + a) = opt ∧ mem (mtod + a + 1) = len) ∧
        area (routeMem src mem (mtod + a) cnt len.toNat) (mtod + a + 2) (ptr :: body).length = ptr :: body ∧
        LoopStores gap mtod fuel (routeMem src mem (mtod + a) cnt len.toNat) (a + 3 + body.length)
          (cnt - 7 - body.length) rhop opts := by
  have heol : opt ≠ ipoptEOL := by rcases hroute with rfl | rfl <;> decide
  have hnop : opt ≠ ipoptNOP := by rcases hroute with rfl | rfl <;> decide
  have hstep (hopt : mem (mtod + a) = opt) (hmemlen : mem (mtod + a + 1) = len) :
      pcboptLoop gap mtod (fuel + 1) mem (a + cnt) (mtod + a) cnt =
        pcboptLoop gap mtod fuel (routeMem src mem (mtod + a) cnt len.toNat)
          (a + 3 + body.length + (cnt - 7 - body.length)) (mtod + (a + 3 + body.length)) (cnt - 7 - body.length) := by
    rw [pcboptLoop_opt hmoves (by omega) (by omega) (hopt ▸ heol) (hopt ▸ hnop), hopt, hmemlen]
    dsimp only
    rw [if_neg (by omega), if_pos hroute, if_neg (by omega)]
    congr 1 <;> omega
  have hkeep {mem' : ByteMem} {n k : ℕ} (hloop : pcboptLoop gap mtod fuel (routeMem src mem (mtod + a) cnt len.toNat)
      (a + 3 + body.length + (cnt - 7 - body.length)) (mtod + (a + 3 + body.length)) (cnt - 7 - body.length) =
        some (mem', n))
      (hk : mtod + a ≤ k) (hle : k ≤ mtod + (a + 3 + body.length)) :
      mem' k = routeMem src mem (mtod + a) cnt len.toNat k :=
    pcboptLoop_keeps hsrc hmoves (by omega) hloop (by omega) hle
  have hlow (hopt : mem (mtod + a) = opt) : routeMem src mem (mtod + a) cnt len.toNat (mtod + a) = opt ∧
      routeMem src mem (mtod + a) cnt len.toNat (mtod + a + 1) = len - 4 := by
    simp only [routeMem]
    rw [hsrc.low (by omega) (by omega), hsrc.low (by omega) (by omega), Function.update_of_ne (by omega),
      Function.update_self, toNat_sub_four (by omega)]
    exact ⟨hopt, rfl⟩
  have hstored : a + 3 + body.length + (opts.flatMap PcbOpt.stored).length =
      a + ((PcbOpt.route opt len ptr rhop body :: opts).flatMap PcbOpt.stored).length := by
    simp only [List.flatMap_cons, PcbOpt.stored, List.length_append, List.length_cons]
    omega
  have hnext : mtod + a + (opt :: (len - 4) :: ptr :: body).length = mtod + (a + 3 + body.length) := by
    simp only [List.length_cons]
    omega
  rw [LoopStores, ← hstored]
  simp only [LoopStores, firstHop, List.flatMap_cons, PcbOpt.stored, area_append_iff, area_opt_iff, hnext]
  constructor
  · rintro ⟨mem', hloop, hhop, ⟨hopt, hlen4, hbody⟩, hrest⟩
    have hmemopt : mem (mtod + a) = opt := by
      rw [← hopt]
      exact (pcboptLoop_keeps hsrc hmoves (by omega) hloop (by omega) (le_refl _)).symm
    have hmemlen : mem (mtod + a + 1) = len := by
      have hloop' := hloop
      rw [pcboptLoop_opt hmoves (by omega) (by omega) (hmemopt ▸ heol) (hmemopt ▸ hnop), hmemopt] at hloop'
      dsimp only at hloop'
      split_ifs at hloop' with hbad h7
      have hbyte := pcboptLoop_keeps (k := mtod + a + 1) hsrc hmoves
        (show mtod + 4 ≤ mtod + a + ((mem (mtod + a + 1)).toNat - 4) by omega) hloop' (by omega) (by omega)
      rw [hlen4, routeMem, hsrc.low (by omega) (by omega), Function.update_self, toNat_sub_four (by omega)] at hbyte
      exact (sub_left_inj.mp hbyte).symm
    have hloop' := (hstep hmemopt hmemlen).symm.trans hloop
    refine ⟨⟨hmemopt, hmemlen⟩, Eq.trans ?_ hbody, mem', hloop', hhop, hrest⟩
    refine area_congr fun i hi => (hkeep hloop' (by omega) ?_).symm
    rw [List.length_cons] at hi
    omega
  · rintro ⟨⟨hopt, hmemlen⟩, hbody, mem', hloop, hhop, hrest⟩
    refine ⟨mem', (hstep hopt hmemlen).trans hloop, hhop, ⟨?_, ?_, Eq.trans ?_ hbody⟩, hrest⟩
    · rw [hkeep hloop (le_refl _) (by omega), (hlow hopt).1]
    · rw [hkeep hloop (by omega) (by omega), (hlow hopt).2]
    · refine area_congr fun i hi => hkeep hloop (by omega) ?_
      rw [List.length_cons] at hi
      omega

theorem loopStores_nil : LoopStores gap mtod fuel mem a 0 hop [] ↔ ComesOut src mem mtod (mtod + a) 0 hop [] := by
  constructor
  · rintro ⟨mem', hloop, hhop, hrest⟩
    obtain ⟨rfl, -⟩ := Prod.ext_iff.mp (Option.some.inj ((pcboptLoop_zero ..).symm.trans hloop))
    exact ⟨hhop, hrest⟩
  · rintro ⟨hhop, hrest⟩
    exact ⟨mem, pcboptLoop_zero .., hhop, hrest⟩

/-- The end of the list: what is behind it stays. -/
theorem stores_eol (hsrc : GapMap mtod src) (hmoves : Moves mtod gap src) (ha : 4 ≤ a) :
    LoopStores gap mtod (fuel + 1) mem a (ipoptEOL :: x).length hop [.plain (ipoptEOL :: x)] ↔
      area mem (mtod + a) (ipoptEOL :: x).length = ipoptEOL :: x ∧ area mem mtod 4 = hop := by
  simp only [LoopStores, firstHop, List.flatMap_cons, List.flatMap_nil, PcbOpt.stored, List.append_nil]
  constructor
  · rintro ⟨mem', hloop, hhop, hbytes⟩
    have hmem : mem (mtod + a) = ipoptEOL := by
      rw [← (area_cons_iff.mp hbytes).1]
      exact (pcboptLoop_keeps hsrc hmoves (by omega) hloop (by omega) (le_refl _)).symm
    rw [pcboptLoop_eol (by simp) hmem] at hloop
    obtain ⟨rfl, -⟩ := Prod.ext_iff.mp (Option.some.inj hloop)
    exact ⟨hbytes, hhop⟩
  · rintro ⟨hbytes, hhop⟩
    exact ⟨mem, pcboptLoop_eol (by simp) (area_cons_iff.mp hbytes).1, hhop, hbytes⟩

/-- The loop stores what is wanted if each byte of it is the one that the moves bring to its place. -/
theorem pcboptLoop_iff (hsrc : GapMap mtod src) (hmoves : Moves mtod gap src) (hparse : parseOpts l = some opts)
    (hfuel : l.length ≤ fuel) (ha : 4 ≤ a) (hop : List Byte) (mem : ByteMem) :
    LoopStores gap mtod fuel mem a l.length hop opts ↔ ComesOut src mem mtod (mtod + a) l.length hop opts := by
  induction fuel generalizing l opts a hop mem with
  | zero =>
      obtain rfl := List.eq_nil_of_length_eq_zero (Nat.le_zero.mp hfuel)
      rw [parseOpts] at hparse
      obtain rfl := Option.some.inj hparse
      exact loopStores_nil
  | succ fuel ih =>
      rcases parseOpts_cases hparse with ⟨rfl, rfl⟩ | ⟨rest, rfl, rfl⟩ | ⟨rest, opts', rfl, hrest, rfl⟩ |
        ⟨opt, len, body, rest, opts', heol, hnop, hroute, rfl, hlen, hrest, rfl⟩ |
        ⟨opt, len, ptr, rhop, body, rest, opts', hroute, hrhop, rfl, hlen, hrest, rfl⟩
      · exact loopStores_nil
      · rw [stores_eol hsrc hmoves ha, comesOut_plain hsrc (by omega)]
        exact and_congr Iff.rfl (and_iff_left rfl).symm
      · rw [List.length_cons] at hfuel ⊢
        rw [stores_nop hsrc hmoves ha (by omega), comesOut_plain hsrc (by omega), Nat.add_sub_cancel,
          ih hrest (by omega) (by omega), ← Nat.add_assoc mtod a]
        rfl
      · rw [List.length_append] at hfuel ⊢
        rw [stores_opt hsrc hmoves ha heol hnop hroute hlen (by simp only [List.length_cons]; omega),
          comesOut_plain hsrc (by omega), Nat.add_sub_cancel_left]
        simp only [List.length_cons] at hfuel ⊢
        rw [ih hrest (by omega) (by omega), ← Nat.add_assoc mtod a]
      · have hlength : (opt :: len :: ptr :: rhop ++ body ++ rest).length = 7 + body.length + rest.length := by
          simp only [List.cons_append, List.length_cons, List.length_append, hrhop]
          omega
        have hleft : 7 + body.length + rest.length - 7 - body.length = rest.length := by omega
        rw [hlength] at hfuel ⊢
        rw [stores_route hsrc hmoves ha hroute hlen (by omega), comesOut_route hsrc (by omega) len.toNat, hleft,
          ih hrest (by omega) (by omega), show mtod + (a + 3 + body.length) = mtod + a + 3 + body.length by omega]

end

/-! ## Both functions -/

section

variable {shift : ByteMem → (mtod cp cnt : ℕ) → ByteMem} {einval : ℤ} {pcbopt : Option OptMbuf} {m : OptMbuf}

theorem length_firstHop (hparse : parseOpts l = some opts) (hhop : hop.length = 4) :
    (firstHop hop opts).length = 4 := by
  induction hn : l.length using Nat.strong_induction_on generalizing l opts hop with
  | _ n ih =>
      rcases parseOpts_cases hparse with ⟨rfl, rfl⟩ | ⟨rest, rfl, rfl⟩ | ⟨rest, opts', rfl, hrest, rfl⟩ |
        ⟨opt, len, body, rest, opts', -, -, -, rfl, -, hrest, rfl⟩ |
        ⟨opt, len, ptr, rhop, body, rest, opts', -, hrhop, rfl, -, hrest, rfl⟩
      · exact hhop
      · exact hhop
      · rw [firstHop]
        exact ih rest.length (by rw [← hn, List.length_cons]; omega) hrest hhop rfl
      · rw [firstHop]
        exact ih rest.length (by rw [← hn, List.length_append, List.length_cons]; omega) hrest hhop rfl
      · rw [firstHop]
        refine ih rest.length ?_ hrest hrhop rfl
        rw [← hn, List.length_append, List.length_append, List.length_cons]
        omega

theorem wantedOpts_eq_some : wantedOpts mem m = some opts ↔ ¬ (m.mLen % 4 ≠ 0 ∨ m.mDatEnd ≤ m.mData + m.mLen + 4) ∧
    parseOpts (area mem m.mData m.mLen) = some opts ∧ (opts.flatMap PcbOpt.stored).length ≤ mAX_IPOPTLEN := by
  rw [wantedOpts]
  split_ifs with hbad
  · simp [hbad]
  · rw [Option.filter_eq_some_iff, decide_eq_true_eq]
    exact (and_iff_right hbad).symm

/-- What is stored is the first hop and the options behind it. -/
theorem area_storedOpts_iff {p : ℕ} (hparse : parseOpts l = some opts) : area mem p n = storedOpts opts ↔
    n = 4 + (opts.flatMap PcbOpt.stored).length ∧ area mem p 4 = firstHop [0, 0, 0, 0] opts ∧
      area mem (p + 4) (opts.flatMap PcbOpt.stored).length = opts.flatMap PcbOpt.stored := by
  have hhop : (firstHop [0, 0, 0, 0] opts).length = 4 := length_firstHop hparse rfl
  have happend := area_append_iff (f := mem) (p := p) (x := firstHop [0, 0, 0, 0] opts)
    (y := opts.flatMap PcbOpt.stored)
  rw [List.length_append, hhop] at happend
  rw [storedOpts]
  constructor
  · intro harea
    have hn := congrArg List.length harea
    rw [length_area, List.length_append, hhop] at hn
    exact ⟨hn, happend.mp (hn ▸ harea)⟩
  · rintro ⟨rfl, hbytes⟩
    exact happend.mpr hbytes

/-- Options that are wanted: a call stores them if the loop does. -/
theorem setPcbopt_right_iff (hsrc : GapMap m.mData src) (hmoves : Moves m.mData gap src) (hne : m.mLen ≠ 0)
    (hwant : wantedOpts mem m = some opts) :
    PcboptRight pcbopt (some m) mem (setPcbopt shift gap einval pcbopt (some m) mem) ↔
      ComesOut src ((shift mem m.mData (m.mData + 4) m.mLen).bzero m.mData 4) m.mData (m.mData + 4) m.mLen
        [0, 0, 0, 0] opts := by
  obtain ⟨hgood, hparse, hfits⟩ := wantedOpts_eq_some.mp hwant
  have hloop := pcboptLoop_iff hsrc hmoves hparse (le_of_eq (length_area mem m.mData m.mLen)) (le_refl 4) [0, 0, 0, 0]
    ((shift mem m.mData (m.mData + 4) m.mLen).bzero m.mData 4)
  rw [length_area] at hloop
  rw [← hloop, LoopStores, PcboptRight, setPcbopt]
  simp only [if_neg hne, if_neg hgood, hwant, Nat.add_comm m.mLen 4]
  cases hres : pcboptLoop gap m.mData m.mLen ((shift mem m.mData (m.mData + 4) m.mLen).bzero m.mData 4) (4 + m.mLen)
      (m.mData + 4) m.mLen with
  | none =>
      constructor
      · rintro ⟨-, -, m', mem', hnone, -⟩
        cases hnone
      · rintro ⟨mem', hsome, -⟩
        cases hsome
  | some r =>
      obtain ⟨mem', mLen⟩ := r
      dsimp only
      constructor
      · rintro ⟨-, -, m', mem'', hsome, -, harea⟩
        split_ifs at hsome with hbig
        obtain ⟨rfl, rfl⟩ := Prod.ext_iff.mp (Option.some.inj hsome)
        obtain ⟨hlen, hbytes⟩ := (area_storedOpts_iff hparse).mp harea
        exact ⟨mem', congrArg (fun n => some (mem', n)) hlen, hbytes⟩
      · rintro ⟨mem'', hsome, hbytes⟩
        obtain ⟨hmem, hlen⟩ := Prod.ext_iff.mp (Option.some.inj hsome)
        dsimp only at hmem hlen
        subst hmem hlen
        rw [if_neg (by omega)]
        exact ⟨rfl, rfl, _, _, rfl, rfl, (area_storedOpts_iff hparse).mpr ⟨rfl, hbytes⟩⟩

/-- For options that should be refused, an error that is not negative is not right. -/
theorem setPcbopt_refused (hne : m.mLen ≠ 0) (hwant : wantedOpts mem m = none) (heinval : 0 ≤ einval) :
    ¬ PcboptRight pcbopt (some m) mem (setPcbopt shift gap einval pcbopt (some m) mem) := by
  have hret : 0 ≤ (setPcbopt shift gap einval pcbopt (some m) mem).ret := by
    simp only [setPcbopt, if_neg hne]
    split_ifs with hbad
    · exact heinval
    · split
      · exact heinval
      · split_ifs
        · exact heinval
        · exact le_refl 0
  rw [PcboptRight, if_neg hne, hwant]
  rintro ⟨hneg, -⟩
  rw [hneg, eINVAL] at hret
  omega

end

/-- Both functions do what they should just if there are no options, or good ones that come out right by chance. -/
theorem pcboptsRight_iff (pcbopt m : Option OptMbuf) (mem : ByteMem) : PcboptsRight pcbopt m mem ↔ PcboptsOk m mem := by
  cases m with
  | none =>
      constructor
      · intro _ x hx
        cases hx
      · intro _
        exact ⟨⟨rfl, rfl, rfl⟩, rfl, rfl, rfl⟩
  | some m =>
      have hok : PcboptsOk (some m) mem ↔ (m.mLen ≠ 0 → ∃ opts, wantedOpts mem m = some opts ∧
          ComesOut (closeFrom m.mData) ((mem.memmove (m.mData + 4) m.mData m.mLen).bzero m.mData 4)
            m.mData (m.mData + 4) m.mLen [0, 0, 0, 0] opts ∧
          ComesOut (openFrom m.mData) ((mem.memmove m.mData (m.mData + 4) m.mLen).bzero m.mData 4)
            m.mData (m.mData + 4) m.mLen [0, 0, 0, 0] opts) := by
        simp only [PcboptsOk, Option.mem_def, Option.some.injEq, forall_eq']
      rw [hok]
      by_cases hzero : m.mLen = 0
      · refine ⟨fun _ hne => absurd hzero hne, fun _ => ?_⟩
        simp [PcboptsRight, PcboptRight, ipPcboptions, ipPcbopts, setPcbopt, hzero]
      cases hwant : wantedOpts mem m with
      | none =>
          refine ⟨fun hright => absurd hright.1 (setPcbopt_refused hzero hwant (by decide)), fun hopts => ?_⟩
          obtain ⟨opts, hsome, -⟩ := hopts hzero
          cases hsome
      | some opts =>
          have hclose : PcboptRight pcbopt (some m) mem (ipPcboptions pcbopt (some m) mem) ↔ _ :=
            setPcbopt_right_iff gapMap_closeFrom moves_close hzero hwant
          have hopen : PcboptRight pcbopt (some m) mem (ipPcbopts pcbopt (some m) mem) ↔ _ :=
            setPcbopt_right_iff gapMap_openFrom moves_open hzero hwant
          rw [PcboptsRight, hclose, hopen]
          constructor
          · rintro ⟨hleft, hright⟩ -
            exact ⟨opts, rfl, hleft, hright⟩
          · intro hopts
            obtain ⟨opts', hsome, hboth⟩ := hopts hzero
            obtain rfl := Option.some.inj hsome
            exact hboth

end

/-! ## Examples -/

/-- A loose source route to 10.0.0.1 and on to 10.0.0.2, and the end of the list. -/
def looseRoute : List Byte := [131, 11, 4, 10, 0, 0, 1, 10, 0, 0, 2, 0]

/-- An mbuf at 1000 with some bytes. -/
def optsAt (l : List Byte) : OptMbuf × ByteMem :=
  (⟨1000, l.length, 1108⟩, fun k => if 1000 ≤ k then l.getD (k - 1000) 0 else 0)

theorem wantedOpts_looseRoute : wantedOpts (optsAt looseRoute).2 (optsAt looseRoute).1 =
    some [.route 131 11 4 [10, 0, 0, 1] [10, 0, 0, 2], .plain [0]] := by
  have harea : area (optsAt looseRoute).2 (optsAt looseRoute).1.mData (optsAt looseRoute).1.mLen = looseRoute := by
    decide
  refine wantedOpts_eq_some.mpr ⟨by decide, ?_, by decide⟩
  rw [harea]
  simp [looseRoute, parseOpts, ipoptEOL, ipoptNOP, ipoptLSRR]

/-- The bytes that are stored for options that are wanted. -/
theorem PcboptRight.stored {pcbopt : Option OptMbuf} {m : OptMbuf} {mem : ByteMem} {opts : List PcbOpt}
    {r : PcboptResult} (h : PcboptRight pcbopt (some m) mem r) (hne : m.mLen ≠ 0)
    (hwant : wantedOpts mem m = some opts) :
    (r.pcbopt.map fun x => area x.2 x.1.mData x.1.mLen) = some (storedOpts opts) := by
  rw [PcboptRight, if_neg hne, hwant] at h
  obtain ⟨-, -, m', mem', hsome, -, harea⟩ := h
  rw [hsome, Option.map_some, harea]

/-- The header of the option is lost, in one way and in the other. -/
theorem pcbopts_lose_header :
    ((ipPcboptions none (some (optsAt looseRoute).1) (optsAt looseRoute).2).pcbopt.map fun r =>
        area r.2 r.1.mData r.1.mLen) = some [0, 0, 0, 0, 0, 0, 1, 10, 0, 0, 1, 10, 0, 0, 2, 0] ∧
      ((ipPcbopts none (some (optsAt looseRoute).1) (optsAt looseRoute).2).pcbopt.map fun r =>
        area r.2 r.1.mData r.1.mLen) = some [0, 0, 0, 0, 0, 0, 2, 0, 0, 0, 0, 0, 0, 0, 0, 0] ∧
      (wantedOpts (optsAt looseRoute).2 (optsAt looseRoute).1).map storedOpts =
        some [10, 0, 0, 1, 131, 7, 4, 10, 0, 0, 2, 0] ∧
      ¬ PcboptsRight none (some (optsAt looseRoute).1) (optsAt looseRoute).2 := by
  refine ⟨by decide +kernel, by decide +kernel, ?_, fun hright => ?_⟩
  · rw [wantedOpts_looseRoute]
    rfl
  · have hstored := hright.1.stored (by decide) wantedOpts_looseRoute
    revert hstored
    decide +kernel

end Shaunos.Net
