import Mathlib
import Shaunos.Common.ErrorTerm

/-!
# Lines

Reference: `Kernel/gfx/draw.c` (`pixel8`, `pixel16`, `pixel24`, `pixel32`, `draw_line8`, `draw_line16`, `draw_line24`,
`draw_line32`), `Include/kernel/gfx/bitmap.h`.

`ABS(x2 - x1)` expands to `(-x2 - x1)` for a negative difference. The check of a pixel lets the column `width` and the
row `height` pass. No `int` overflows here.

* `linePoints_eq` — which points are plotted;
* `rasterised_iff`, `drawLine_rightIff` — when that is the line, and when nothing is written outside.
-/

namespace Shaunos.Gfx

open ErrorTerm

/-! ## The code -/

/-- `struct bitmap`. -/
structure Bmp where
  width : BitVec 32
  height : BitVec 32

/-- An `s32` where a `u32` is expected. -/
def toU32 (x : ℤ) : BitVec 32 := BitVec.ofInt 32 x

/-- A pixel of `n` bytes: what is written, by the offset from `bmp->data`. -/
def pixel (n : ℕ) (bmp : Bmp) (color : BitVec 32) (x y : ℤ) : List (BitVec 32 × BitVec 8) :=
  if bmp.width < toU32 x ∨ bmp.height < toU32 y then []
  else
    let pos := (toU32 y * bmp.width + toU32 x) * BitVec.ofNat 32 n
    (List.range n).map fun i => (pos + BitVec.ofNat 32 i, (color >>> (8 * i)).setWidth 8)

def pixel8 := pixel 1

def pixel16 := pixel 2

def pixel24 := pixel 3

def pixel32 := pixel 4

/-- `ABS(a2 - a1)` -/
def macroAbs (a2 a1 : ℤ) : ℤ := if 0 ≤ a2 - a1 then a2 - a1 else -a2 - a1

section

variable {σ : Type*}

/-- The loop along one axis, for `n` more points. -/
def lineLoop (plot : σ → ℤ → ℤ → σ) (eincr neincr vincr : ℤ) : (n : ℕ) → (d u v : ℤ) → σ → σ
  | 0, _, _, _, s => s
  | n + 1, d, u, v, s =>
      let (d, v) := if d < 0 then (d + eincr, v) else (d + neincr, v + vincr)
      lineLoop plot eincr neincr vincr n d (u + 1) v (plot s u v)

/-- One branch of `draw_line`, where `u` is the axis of the loop. -/
def lineAxis (plot : σ → ℤ → ℤ → σ) (du dv u1 v1 u2 v2 : ℤ) (s : σ) : σ :=
  let (u1, v1, u2, v2) := if u2 < u1 then (u2, v2, u1, v1) else (u1, v1, u2, v2)
  let vincr := if v1 < v2 then 1 else -1
  lineLoop plot (2 * dv) (2 * (dv - du)) vincr (u2 - u1).toNat (2 * dv - du) (u1 + 1) v1 (plot s u1 v1)

/-- `draw_line…`, whatever it does for one pixel. -/
def drawLine (plot : σ → ℤ → ℤ → σ) (x1 y1 x2 y2 : ℤ) (s : σ) : σ :=
  let dx := macroAbs x2 x1
  let dy := macroAbs y2 y1
  if dy ≤ dx then lineAxis plot dx dy x1 y1 x2 y2 s else lineAxis (fun s y x => plot s x y) dy dx y1 x1 y2 x2 s

end

/-- What a line writes, with one of the functions for pixels. -/
def lineStores (pixel : Bmp → BitVec 32 → ℤ → ℤ → List (BitVec 32 × BitVec 8)) (bmp : Bmp) (x1 y1 x2 y2 : ℤ)
    (color : BitVec 32) : List (BitVec 32 × BitVec 8) :=
  drawLine (fun s x y => s ++ pixel bmp color x y) x1 y1 x2 y2 []

def drawLine8 := lineStores pixel8

def drawLine16 := lineStores pixel16

def drawLine24 := lineStores pixel24

def drawLine32 := lineStores pixel32

/-- The points that are plotted. -/
def linePoints (x1 y1 x2 y2 : ℤ) : List (ℤ × ℤ) := drawLine (fun s x y => s ++ [(x, y)]) x1 y1 x2 y2 []

/-! ## What should happen -/

/-- One point for each step from `u1` to `u2`, within half a pixel of the ideal line. -/
structure Along (u1 v1 u2 v2 : ℤ) (l : List (ℤ × ℤ)) : Prop where
  longer : |v2 - v1| ≤ |u2 - u1|
  steps : l.map Prod.fst = (List.range (|u2 - u1|.toNat + 1)).map fun k : ℕ => min u1 u2 + k
  near : ∀ p ∈ l, |2 * ((p.2 - v1) * (u2 - u1) - (p.1 - u1) * (v2 - v1))| ≤ |u2 - u1|

/-- The line between two points. -/
structure Rasterised (x1 y1 x2 y2 : ℤ) (l : List (ℤ × ℤ)) : Prop where
  length : (l.length : ℤ) = max |x2 - x1| |y2 - y1| + 1
  first : (x1, y1) ∈ l
  last : (x2, y2) ∈ l
  along : Along x1 y1 x2 y2 l ∨ Along y1 x1 y2 x2 (l.map Prod.swap)

/-- A point of the bitmap. -/
def Bmp.Inside (bmp : Bmp) (p : ℤ × ℤ) : Prop :=
  (0 ≤ p.1 ∧ p.1 < bmp.width.toNat) ∧ 0 ≤ p.2 ∧ p.2 < bmp.height.toNat

/-- What one of the functions should do: a function for lines goes with a function for pixels of `n` bytes. -/
structure StoresRight (line : Bmp → ℤ → ℤ → ℤ → ℤ → BitVec 32 → List (BitVec 32 × BitVec 8))
    (pixel : Bmp → BitVec 32 → ℤ → ℤ → List (BitVec 32 × BitVec 8)) (n : ℕ) (bmp : Bmp) (x1 y1 x2 y2 : ℤ)
    (color : BitVec 32) : Prop where
  same : line bmp x1 y1 x2 y2 color = (linePoints x1 y1 x2 y2).flatMap fun p => pixel bmp color p.1 p.2
  outside : ∀ p ∈ linePoints x1 y1 x2 y2, ¬ bmp.Inside p → pixel bmp color p.1 p.2 = []
  stores : ∀ s ∈ line bmp x1 y1 x2 y2 color, s.1.toNat < bmp.width.toNat * bmp.height.toNat * n

/-- The line, in all four functions. -/
structure LineRight (bmp : Bmp) (x1 y1 x2 y2 : ℤ) (color : BitVec 32) : Prop where
  rasterised : Rasterised x1 y1 x2 y2 (linePoints x1 y1 x2 y2)
  stores8 : StoresRight drawLine8 pixel8 1 bmp x1 y1 x2 y2 color
  stores16 : StoresRight drawLine16 pixel16 2 bmp x1 y1 x2 y2 color
  stores24 : StoresRight drawLine24 pixel24 3 bmp x1 y1 x2 y2 color
  stores32 : StoresRight drawLine32 pixel32 4 bmp x1 y1 x2 y2 color

/-! ## Which points are plotted -/

section

variable {σ : Type*} {plot : σ → ℤ → ℤ → σ} {e f u v u1 v1 u2 v2 x1 y1 x2 y2 vincr : ℤ} {s : σ}

/-- The `k`th point of a loop. -/
def loopPoint (e f vincr u v : ℤ) (k : ℕ) : ℤ × ℤ := (u + k, v + vincr * rise e f k)

/-- From the round `k` on, the loop plots the next `n` points. -/
theorem lineLoop_eq (hef : e ≤ f) (n k : ℕ) (s : σ) :
    lineLoop plot (2 * e) (2 * (e - f)) vincr n (term e f k (rise e f k)) (u + k + 1) (v + vincr * rise e f k) s =
      ((List.range n).map fun i => loopPoint e f vincr u v (k + 1 + i)).foldl (fun s p => plot s p.1 p.2) s := by
  induction n generalizing k s with
  | zero => rfl
  | succ n ih =>
      have hround : (if term e f k (rise e f k) < 0 then (term e f k (rise e f k) + 2 * e, v + vincr * rise e f k)
          else (term e f k (rise e f k) + 2 * (e - f), v + vincr * rise e f k + vincr)) =
          (term e f (k + 1) (rise e f (k + 1)), v + vincr * rise e f (k + 1)) := by
        rw [rise_succ hef k]
        split_ifs with hd
        · rw [term_succ]
        · rw [term_succ_succ, mul_add, mul_one, add_assoc]
      have hstep : lineLoop plot (2 * e) (2 * (e - f)) vincr (n + 1) (term e f k (rise e f k)) (u + k + 1)
          (v + vincr * rise e f k) s =
          lineLoop plot (2 * e) (2 * (e - f)) vincr n (term e f (k + 1) (rise e f (k + 1))) (u + k + 1 + 1)
            (v + vincr * rise e f (k + 1)) (plot s (u + k + 1) (v + vincr * rise e f (k + 1))) := by
        rw [lineLoop, hround]
      have hcast : u + (k : ℤ) + 1 = u + ((k + 1 : ℕ) : ℤ) := by rw [Nat.cast_succ, add_assoc]
      rw [hstep, hcast, ih, List.range_succ_eq_map, List.map_cons, List.map_map, List.foldl_cons]
      congr 1
      refine List.map_congr_left fun i _ => congrArg (loopPoint e f vincr u v) ?_
      change k + 1 + 1 + i = k + 1 + (i + 1)
      omega

/-- The `k`th point along an axis. -/
def axisPoint (e f u1 v1 u2 v2 : ℤ) : (k : ℕ) → ℤ × ℤ :=
  if u2 < u1 then loopPoint e f (if v2 < v1 then 1 else -1) u2 v2 else loopPoint e f (if v1 < v2 then 1 else -1) u1 v1

/-- The points along an axis. -/
def axisPoints (e f u1 v1 u2 v2 : ℤ) : List (ℤ × ℤ) :=
  (List.range (|u2 - u1|.toNat + 1)).map (axisPoint e f u1 v1 u2 v2)

theorem foldl_axisPoints (hef : e ≤ f) (s : σ) :
    lineAxis plot f e u1 v1 u2 v2 s = (axisPoints e f u1 v1 u2 v2).foldl (fun s p => plot s p.1 p.2) s := by
  have hpoints : ∀ {u v vincr : ℤ} (n : ℕ),
      lineLoop plot (2 * e) (2 * (e - f)) vincr n (2 * e - f) (u + 1) v (plot s u v) =
        ((List.range (n + 1)).map (loopPoint e f vincr u v)).foldl (fun s p => plot s p.1 p.2) s := by
    intro u v vincr n
    have hloop : lineLoop plot (2 * e) (2 * (e - f)) vincr n (term e f 0 (rise e f 0)) (u + (0 : ℕ) + 1)
        (v + vincr * rise e f 0) (plot s u v) = _ := lineLoop_eq hef n 0 (plot s u v)
    rw [rise_zero, term_zero, mul_zero, add_zero, Nat.cast_zero, add_zero] at hloop
    have hzero : loopPoint e f vincr u v 0 = (u, v) := by
      rw [loopPoint, rise_zero, Nat.cast_zero, mul_zero, add_zero, add_zero]
    rw [hloop, List.range_succ_eq_map, List.map_cons, List.map_map, List.foldl_cons, hzero]
    congr 1
    refine List.map_congr_left fun i _ => congrArg (loopPoint e f vincr u v) ?_
    change 0 + 1 + i = i + 1
    omega
  by_cases hswap : u2 < u1
  · rw [lineAxis, if_pos hswap, axisPoints, axisPoint, if_pos hswap, abs_of_neg (by omega), neg_sub]
    exact hpoints _
  · rw [lineAxis, if_neg hswap, axisPoints, axisPoint, if_neg hswap, abs_of_nonneg (by omega)]
    exact hpoints _

/-- The `k`th point of a line. -/
def linePoint (x1 y1 x2 y2 : ℤ) (k : ℕ) : ℤ × ℤ :=
  if macroAbs y2 y1 ≤ macroAbs x2 x1 then axisPoint (macroAbs y2 y1) (macroAbs x2 x1) x1 y1 x2 y2 k
  else (axisPoint (macroAbs x2 x1) (macroAbs y2 y1) y1 x1 y2 x2 k).swap

/-- How many steps a line has. -/
def lineSteps (x1 y1 x2 y2 : ℤ) : ℕ :=
  if macroAbs y2 y1 ≤ macroAbs x2 x1 then |x2 - x1|.toNat else |y2 - y1|.toNat

theorem foldl_points (x1 y1 x2 y2 : ℤ) (s : σ) :
    drawLine plot x1 y1 x2 y2 s =
      ((List.range (lineSteps x1 y1 x2 y2 + 1)).map (linePoint x1 y1 x2 y2)).foldl (fun s p => plot s p.1 p.2) s := by
  unfold drawLine lineSteps
  by_cases hle : macroAbs y2 y1 ≤ macroAbs x2 x1
  · have hpoint : linePoint x1 y1 x2 y2 = axisPoint (macroAbs y2 y1) (macroAbs x2 x1) x1 y1 x2 y2 :=
      funext fun k => if_pos hle
    rw [if_pos hle, if_pos hle, hpoint]
    exact foldl_axisPoints hle s
  · have hpoint : linePoint x1 y1 x2 y2 = fun k => (axisPoint (macroAbs x2 x1) (macroAbs y2 y1) y1 x1 y2 x2 k).swap :=
      funext fun k => if_neg hle
    rw [if_neg hle, if_neg hle, hpoint, foldl_axisPoints (by omega), axisPoints, List.foldl_map, List.foldl_map]
    rfl

end

section

variable {x1 y1 x2 y2 : ℤ}

/-- A fold that collects is a list. -/
theorem foldl_append_eq {α β : Type*} (g : α → List β) (l : List α) (s : List β) :
    l.foldl (fun s p => s ++ g p) s = s ++ l.flatMap g := by
  induction l generalizing s with
  | nil => exact (List.append_nil s).symm
  | cons a l ih => rw [List.foldl_cons, ih, List.flatMap_cons, List.append_assoc]

theorem linePoints_eq (x1 y1 x2 y2 : ℤ) :
    linePoints x1 y1 x2 y2 = (List.range (lineSteps x1 y1 x2 y2 + 1)).map (linePoint x1 y1 x2 y2) := by
  rw [linePoints, foldl_points, foldl_append_eq (fun p : ℤ × ℤ => [p]), List.nil_append, List.flatMap_singleton']

/-- All functions plot the same points. -/
theorem lineStores_eq (pixel : Bmp → BitVec 32 → ℤ → ℤ → List (BitVec 32 × BitVec 8)) (bmp : Bmp) (x1 y1 x2 y2 : ℤ)
    (color : BitVec 32) :
    lineStores pixel bmp x1 y1 x2 y2 color = (linePoints x1 y1 x2 y2).flatMap fun p => pixel bmp color p.1 p.2 := by
  rw [lineStores, foldl_points, foldl_append_eq (fun p : ℤ × ℤ => pixel bmp color p.1 p.2), List.nil_append,
    linePoints_eq]

end

/-! ## When it is the line -/

/-- The steps for the slope `e / f` stay within half a pixel of the slope `V / U`. -/
def Near (e f U V : ℤ) : Prop := V ≤ U ∧ ∀ k : ℕ, (k : ℤ) ≤ U → |2 * (rise e f k * U - k * V)| ≤ U

/-- The slope that `ABS` leads to is near the one of the line, along the axis it leads to. -/
def SlopeOk (x1 y1 x2 y2 : ℤ) : Prop :=
  if macroAbs y2 y1 ≤ macroAbs x2 x1 then Near (macroAbs y2 y1) (macroAbs x2 x1) |x2 - x1| |y2 - y1|
  else Near (macroAbs x2 x1) (macroAbs y2 y1) |y2 - y1| |x2 - x1|

section

variable {e f u1 v1 u2 v2 x1 y1 x2 y2 : ℤ} {l : List (ℤ × ℤ)}

/-- How far a point is from the ideal line. -/
theorem abs_axisPoint (k : ℕ) :
    |2 * (((axisPoint e f u1 v1 u2 v2 k).2 - v1) * (u2 - u1) - ((axisPoint e f u1 v1 u2 v2 k).1 - u1) * (v2 - v1))| =
      |2 * (rise e f k * |u2 - u1| - k * |v2 - v1|)| := by
  unfold axisPoint
  by_cases hswap : u2 < u1
  · rw [if_pos hswap, abs_of_neg (show u2 - u1 < 0 by omega), loopPoint]
    by_cases hdown : v2 < v1
    · rw [if_pos hdown, abs_of_neg (show v2 - v1 < 0 by omega), ← abs_neg]
      congr 1
      ring
    · rw [if_neg hdown, abs_of_nonneg (show 0 ≤ v2 - v1 by omega)]
      congr 1
      ring
  · rw [if_neg hswap, abs_of_nonneg (show 0 ≤ u2 - u1 by omega), loopPoint]
    by_cases hup : v1 < v2
    · rw [if_pos hup, abs_of_pos (show 0 < v2 - v1 by omega)]
      congr 1
      ring
    · rw [if_neg hup, abs_of_nonpos (show v2 - v1 ≤ 0 by omega), ← abs_neg]
      congr 1
      ring

theorem axisPoints_fst :
    (axisPoints e f u1 v1 u2 v2).map Prod.fst =
      (List.range (|u2 - u1|.toNat + 1)).map fun k : ℕ => min u1 u2 + k := by
  rw [axisPoints, List.map_map]
  refine List.map_congr_left fun k _ => ?_
  change (axisPoint e f u1 v1 u2 v2 k).1 = _
  unfold axisPoint
  by_cases hswap : u2 < u1
  · rw [if_pos hswap, min_eq_right hswap.le]
    rfl
  · rw [if_neg hswap, min_eq_left (not_lt.mp hswap)]
    rfl

theorem mem_axisPoints {k : ℕ} (hk : (k : ℤ) ≤ |u2 - u1|) : axisPoint e f u1 v1 u2 v2 k ∈ axisPoints e f u1 v1 u2 v2 :=
  List.mem_map.mpr ⟨k, List.mem_range.mpr (by omega), rfl⟩

/-- At the end there are as many steps as there should be. -/
theorem Near.rise_eq {U V : ℤ} (h : Near e f U V) (hU : 0 ≤ U) (hV : 0 ≤ V) : rise e f U.toNat = V := by
  have hend := h.2 U.toNat (Int.toNat_of_nonneg hU).le
  rw [Int.toNat_of_nonneg hU] at hend
  rcases hU.eq_or_lt with hzero | hpos
  · have hle := h.1
    rw [← hzero]
    exact (rise_zero e f).trans (by omega)
  · have hfactor : 2 * (rise e f U.toNat * U - U * V) = 2 * (rise e f U.toNat - V) * U := by ring
    rw [hfactor, abs_mul, abs_of_pos hpos] at hend
    have habs : |2 * (rise e f U.toNat - V)| ≤ 1 := by
      by_contra hgt
      have hmul : 2 * U ≤ |2 * (rise e f U.toNat - V)| * U := Int.mul_le_mul_of_nonneg_right (by omega) hpos.le
      omega
    rw [abs_le] at habs
    omega

theorem rasterised_axisPoints_iff :
    Rasterised u1 v1 u2 v2 (axisPoints e f u1 v1 u2 v2) ↔ Near e f |u2 - u1| |v2 - v1| := by
  have hU := abs_nonneg (u2 - u1)
  have hV := abs_nonneg (v2 - v1)
  have hlength : ((axisPoints e f u1 v1 u2 v2).length : ℤ) = |u2 - u1| + 1 := by
    rw [axisPoints, List.length_map, List.length_range, Nat.cast_succ, Int.toNat_of_nonneg hU]
  constructor
  · intro h
    have hle : |v2 - v1| ≤ |u2 - u1| := by
      have hcount := h.length
      rw [hlength] at hcount
      have hmax := le_max_right |u2 - u1| |v2 - v1|
      omega
    refine ⟨hle, fun k hk => ?_⟩
    have hdist : |2 * (rise e f k * |u2 - u1| - k * |v2 - v1|)| = _ := (abs_axisPoint k).symm
    rw [hdist]
    rcases h.along with halong | halong
    · exact halong.near _ (mem_axisPoints hk)
    · have hnear := halong.near _ (List.mem_map_of_mem (mem_axisPoints hk))
      refine le_trans (le_of_eq ?_) (hnear.trans hle)
      rw [← abs_neg]
      congr 1
      change _ = 2 * (((axisPoint e f u1 v1 u2 v2 k).1 - u1) * (v2 - v1) -
        ((axisPoint e f u1 v1 u2 v2 k).2 - v1) * (u2 - u1))
      ring
  · intro h
    have hend := h.rise_eq hU hV
    have hstart : axisPoint e f u1 v1 u2 v2 0 = if u2 < u1 then (u2, v2) else (u1, v1) := by
      unfold axisPoint
      split_ifs <;> rw [loopPoint, rise_zero, Nat.cast_zero, mul_zero, add_zero, add_zero]
    have hlast : axisPoint e f u1 v1 u2 v2 |u2 - u1|.toNat = if u2 < u1 then (u1, v1) else (u2, v2) := by
      unfold axisPoint
      by_cases hswap : u2 < u1
      · rw [if_pos hswap, if_pos hswap, loopPoint, hend, Int.toNat_of_nonneg hU, abs_of_neg (show u2 - u1 < 0 by omega)]
        refine Prod.ext (show u2 + -(u2 - u1) = u1 by omega) ?_
        by_cases hdown : v2 < v1
        · rw [if_pos hdown, abs_of_neg (show v2 - v1 < 0 by omega)]
          ring
        · rw [if_neg hdown, abs_of_nonneg (show 0 ≤ v2 - v1 by omega)]
          ring
      · rw [if_neg hswap, if_neg hswap, loopPoint, hend, Int.toNat_of_nonneg hU,
          abs_of_nonneg (show 0 ≤ u2 - u1 by omega)]
        refine Prod.ext (show u1 + (u2 - u1) = u2 by omega) ?_
        by_cases hup : v1 < v2
        · rw [if_pos hup, abs_of_pos (show 0 < v2 - v1 by omega)]
          ring
        · rw [if_neg hup, abs_of_nonpos (show v2 - v1 ≤ 0 by omega)]
          ring
    have hmem0 : axisPoint e f u1 v1 u2 v2 0 ∈ axisPoints e f u1 v1 u2 v2 := mem_axisPoints (by omega)
    have hmemU : axisPoint e f u1 v1 u2 v2 |u2 - u1|.toNat ∈ axisPoints e f u1 v1 u2 v2 := mem_axisPoints (by omega)
    rw [hstart] at hmem0
    rw [hlast] at hmemU
    refine ⟨?_, ?_, ?_, .inl ⟨h.1, axisPoints_fst, ?_⟩⟩
    · rw [hlength, max_eq_left h.1]
    · by_cases hswap : u2 < u1
      · rwa [if_pos hswap] at hmemU
      · rwa [if_neg hswap] at hmem0
    · by_cases hswap : u2 < u1
      · rwa [if_pos hswap] at hmem0
      · rwa [if_neg hswap] at hmemU
    · intro p hp
      obtain ⟨k, hk, rfl⟩ := List.mem_map.mp hp
      rw [abs_axisPoint]
      exact h.2 k (by rw [List.mem_range] at hk; omega)

/-- The same line with the axes swapped. -/
theorem Rasterised.swap (h : Rasterised x1 y1 x2 y2 l) : Rasterised y1 x1 y2 x2 (l.map Prod.swap) where
  length := by rw [List.length_map, max_comm, h.length]
  first := List.mem_map_of_mem h.first
  last := List.mem_map_of_mem h.last
  along := by
    rw [List.map_map, Prod.swap_swap_eq, List.map_id]
    exact h.along.symm

theorem rasterised_iff : Rasterised x1 y1 x2 y2 (linePoints x1 y1 x2 y2) ↔ SlopeOk x1 y1 x2 y2 := by
  rw [linePoints_eq]
  unfold SlopeOk lineSteps
  by_cases hle : macroAbs y2 y1 ≤ macroAbs x2 x1
  · have hpoint : linePoint x1 y1 x2 y2 = axisPoint (macroAbs y2 y1) (macroAbs x2 x1) x1 y1 x2 y2 :=
      funext fun k => if_pos hle
    rw [if_pos hle, if_pos hle, hpoint]
    exact rasterised_axisPoints_iff
  · have hpoint : linePoint x1 y1 x2 y2 = Prod.swap ∘ axisPoint (macroAbs x2 x1) (macroAbs y2 y1) y1 x1 y2 x2 :=
      funext fun k => if_neg hle
    rw [if_neg hle, if_neg hle, hpoint, ← List.map_map, ← rasterised_axisPoints_iff]
    refine ⟨fun h => ?_, Rasterised.swap⟩
    have hback := h.swap
    rwa [List.map_map, Prod.swap_swap_eq, List.map_id] at hback

/-- `ABS` is right if the difference is not negative, or where `-a2 - a1` is. -/
theorem macroAbs_eq_iff (a2 a1 : ℤ) : macroAbs a2 a1 = |a2 - a1| ↔ a1 ≤ a2 ∨ a1 = 0 := by
  unfold macroAbs
  split_ifs with hle
  · rw [abs_of_nonneg hle]
    exact iff_of_true rfl (.inl (by omega))
  · rw [abs_of_neg (not_le.mp hle)]
    omega

theorem slopeOk_of_abs (hx : x1 ≤ x2 ∨ x1 = 0) (hy : y1 ≤ y2 ∨ y1 = 0) : SlopeOk x1 y1 x2 y2 := by
  rw [SlopeOk, (macroAbs_eq_iff x2 x1).mpr hx, (macroAbs_eq_iff y2 y1).mpr hy]
  split_ifs with hle
  · exact ⟨hle, fun k _ => abs_rise_le (abs_nonneg _) hle k⟩
  · have hle' := (not_le.mp hle).le
    exact ⟨hle', fun k _ => abs_rise_le (abs_nonneg _) hle' k⟩

/-- Without a step, the line must not have one. -/
theorem not_near_of_neg {U V : ℤ} (hneg : e < 0 ∨ f < 0) (hV : 0 < V) : ¬ Near e f U V := by
  rintro ⟨hle, hnear⟩
  have hU : 0 < U := by omega
  have hend := hnear U.toNat (Int.toNat_of_nonneg hU.le).le
  rw [rise_of_neg hneg, Int.toNat_of_nonneg hU.le, zero_mul, zero_sub, mul_neg, abs_neg,
    abs_of_pos (by positivity)] at hend
  have hmul : U * 1 ≤ U * V := Int.mul_le_mul_of_nonneg_left hV hU.le
  omega

/-- To a point with no negative coordinate, the line must go up along both axes. -/
theorem slopeOk_iff_of_nonneg (hx2 : 0 ≤ x2) (hy2 : 0 ≤ y2) : SlopeOk x1 y1 x2 y2 ↔ x1 ≤ x2 ∧ y1 ≤ y2 := by
  refine ⟨fun h => ?_, fun h => slopeOk_of_abs (.inl h.1) (.inl h.2)⟩
  have hdx : x2 < x1 → macroAbs x2 x1 < 0 := by
    intro hlt
    rw [macroAbs, if_neg (by omega)]
    omega
  have hdy : y2 < y1 → macroAbs y2 y1 < 0 := by
    intro hlt
    rw [macroAbs, if_neg (by omega)]
    omega
  have hdx' : ¬ x2 < x1 → 0 ≤ macroAbs x2 x1 := by
    intro hle
    rw [macroAbs, if_pos (by omega)]
    omega
  have hdy' : ¬ y2 < y1 → 0 ≤ macroAbs y2 y1 := by
    intro hle
    rw [macroAbs, if_pos (by omega)]
    omega
  have hX : x2 < x1 → 0 < |x2 - x1| := fun hlt => abs_pos.mpr (by omega)
  have hY : y2 < y1 → 0 < |y2 - y1| := fun hlt => abs_pos.mpr (by omega)
  by_contra hdown
  unfold SlopeOk at h
  split_ifs at h with hle
  · -- the loop goes along `x`; if only `x` goes down, the loop would go along `y`
    by_cases hy : y2 < y1
    · exact not_near_of_neg (.inl (hdy hy)) (hY hy) h
    · have hx := hdx (by omega)
      have hy' := hdy' hy
      omega
  · by_cases hx : x2 < x1
    · exact not_near_of_neg (.inl (hdx hx)) (hX hx) h
    · have hy := hdy (by omega)
      have hx' := hdx' hx
      omega

end

/-! ## What is written -/

/-- The check of a pixel. -/
def Bmp.Passes (bmp : Bmp) (p : ℤ × ℤ) : Prop := ¬ (bmp.width < toU32 p.1 ∨ bmp.height < toU32 p.2)

/-- Each point of the line that passes the check is in the bitmap. -/
def FrameOk (bmp : Bmp) (x1 y1 x2 y2 : ℤ) : Prop :=
  ∀ k ≤ lineSteps x1 y1 x2 y2, bmp.Passes (linePoint x1 y1 x2 y2 k) → bmp.Inside (linePoint x1 y1 x2 y2 k)

section

variable {bmp : Bmp} {p : ℤ × ℤ} {n : ℕ} {color : BitVec 32} {x1 y1 x2 y2 : ℤ}

theorem toNat_toU32 {x : ℤ} (h : 0 ≤ x) (hlt : x < 2 ^ 32) : (toU32 x).toNat = x.toNat := by
  rw [toU32, BitVec.toNat_ofInt]
  exact congrArg Int.toNat (Int.emod_eq_of_lt h hlt)

/-- What passes is in the bitmap, in the column behind it or in the row below it. -/
theorem passes_iff (hw : bmp.width.toNat < 2 ^ 31) (hh : bmp.height.toNat < 2 ^ 31) (hx : -2 ^ 31 ≤ p.1)
    (hx' : p.1 < 2 ^ 31) (hy : -2 ^ 31 ≤ p.2) (hy' : p.2 < 2 ^ 31) :
    bmp.Passes p ↔ (0 ≤ p.1 ∧ p.1 ≤ bmp.width.toNat) ∧ 0 ≤ p.2 ∧ p.2 ≤ bmp.height.toNat := by
  have hpass : ∀ {w : BitVec 32} {x : ℤ}, w.toNat < 2 ^ 31 → -2 ^ 31 ≤ x → x < 2 ^ 31 →
      (¬ w < toU32 x ↔ 0 ≤ x ∧ x ≤ w.toNat) := by
    intro w x hw hlow hhigh
    rw [BitVec.lt_def, toU32, BitVec.toNat_ofInt]
    omega
  rw [Bmp.Passes, not_or, hpass hw hx hx', hpass hh hy hy']

theorem pixel_eq_nil_iff (hn : 0 < n) : pixel n bmp color p.1 p.2 = [] ↔ ¬ bmp.Passes p := by
  rw [Bmp.Passes, not_not, pixel]
  split_ifs with h
  · exact iff_of_true rfl h
  · refine iff_of_false (fun hnil => ?_) h
    rw [List.map_eq_nil_iff, List.range_eq_nil] at hnil
    omega

/-- A pixel of the bitmap is stored in the bitmap. -/
theorem pixel_lt {s : BitVec 32 × BitVec 8} (hin : bmp.Inside p) (hs : s ∈ pixel n bmp color p.1 p.2) :
    s.1.toNat < bmp.width.toNat * bmp.height.toNat * n := by
  obtain ⟨⟨hx, hxw⟩, hy, hyh⟩ := hin
  have hwlt := bmp.width.isLt
  have hhlt := bmp.height.isLt
  rw [pixel] at hs
  split_ifs at hs with hpass
  · cases hs
  obtain ⟨i, hi, rfl⟩ := List.mem_map.mp hs
  rw [List.mem_range] at hi
  dsimp only
  have hle : ((toU32 p.2 * bmp.width + toU32 p.1) * BitVec.ofNat 32 n + BitVec.ofNat 32 i).toNat ≤
      (p.2.toNat * bmp.width.toNat + p.1.toNat) * n + i := by
    rw [BitVec.toNat_add, BitVec.toNat_mul, BitVec.toNat_add, BitVec.toNat_mul, BitVec.toNat_ofNat, BitVec.toNat_ofNat,
      toNat_toU32 hx (by omega), toNat_toU32 hy (by omega)]
    refine (Nat.mod_le _ _).trans (Nat.add_le_add ((Nat.mod_le _ _).trans ?_) (Nat.mod_le _ _))
    exact Nat.mul_le_mul ((Nat.mod_le _ _).trans (Nat.add_le_add_right (Nat.mod_le _ _) _)) (Nat.mod_le _ _)
  calc _ ≤ (p.2.toNat * bmp.width.toNat + p.1.toNat) * n + i := hle
    _ < (p.2.toNat * bmp.width.toNat + p.1.toNat) * n + n := Nat.add_lt_add_left hi _
    _ = (p.2.toNat * bmp.width.toNat + (p.1.toNat + 1)) * n := by ring
    _ ≤ (p.2.toNat * bmp.width.toNat + bmp.width.toNat) * n := Nat.mul_le_mul_right _ (by omega)
    _ = (p.2.toNat + 1) * (bmp.width.toNat * n) := by ring
    _ ≤ bmp.height.toNat * (bmp.width.toNat * n) := Nat.mul_le_mul_right _ (by omega)
    _ = bmp.width.toNat * bmp.height.toNat * n := by ring

theorem storesRight_iff (hn : 0 < n) :
    StoresRight (lineStores (pixel n)) (pixel n) n bmp x1 y1 x2 y2 color ↔ FrameOk bmp x1 y1 x2 y2 := by
  have hmem : ∀ {p : ℤ × ℤ}, p ∈ linePoints x1 y1 x2 y2 ↔ ∃ k ≤ lineSteps x1 y1 x2 y2, linePoint x1 y1 x2 y2 k = p := by
    intro p
    simp only [linePoints_eq, List.mem_map, List.mem_range, Nat.lt_succ_iff]
  constructor
  · intro h k hk hpass
    by_contra hout
    exact (pixel_eq_nil_iff hn).mp (h.outside _ (hmem.mpr ⟨k, hk, rfl⟩) hout) hpass
  · intro h
    have hinside : ∀ p ∈ linePoints x1 y1 x2 y2, bmp.Passes p → bmp.Inside p := by
      intro p hp hpass
      obtain ⟨k, hk, rfl⟩ := hmem.mp hp
      exact h k hk hpass
    refine ⟨lineStores_eq _ _ _ _ _ _ _, fun p hp hout => (pixel_eq_nil_iff hn).mpr (mt (hinside p hp) hout), ?_⟩
    intro s hs
    rw [lineStores_eq] at hs
    obtain ⟨p, hp, hs⟩ := List.mem_flatMap.mp hs
    have hpass : bmp.Passes p := by
      by_contra hno
      rw [(pixel_eq_nil_iff hn).mpr hno] at hs
      cases hs
    exact pixel_lt (hinside p hp hpass) hs

/-- The line is right where the slope and the frame are. `ABS` gives the right slope if no coordinate goes down, or from
0 only; on the screen, nothing else does. -/
theorem drawLine_rightIff (bmp : Bmp) (x1 y1 x2 y2 : ℤ) (color : BitVec 32) :
    (LineRight bmp x1 y1 x2 y2 color ↔ SlopeOk x1 y1 x2 y2 ∧ FrameOk bmp x1 y1 x2 y2) ∧
      ((x1 ≤ x2 ∨ x1 = 0) ∧ (y1 ≤ y2 ∨ y1 = 0) → SlopeOk x1 y1 x2 y2) ∧
      (0 ≤ x2 ∧ 0 ≤ y2 → (SlopeOk x1 y1 x2 y2 ↔ x1 ≤ x2 ∧ y1 ≤ y2)) := by
  refine ⟨⟨fun h => ?_, fun h => ?_⟩, fun h => slopeOk_of_abs h.1 h.2, fun h => ?_⟩
  · exact ⟨rasterised_iff.mp h.rasterised, (storesRight_iff (by decide)).mp h.stores8⟩
  · exact ⟨rasterised_iff.mpr h.1, (storesRight_iff (by decide)).mpr h.2, (storesRight_iff (by decide)).mpr h.2,
      (storesRight_iff (by decide)).mpr h.2, (storesRight_iff (by decide)).mpr h.2⟩
  · exact slopeOk_iff_of_nonneg h.1 h.2

/-- The line from (1, 1) to (5, 3), and that it would not be right the other way round. -/
theorem drawLine_rightIff_some :
    SlopeOk 1 1 5 3 ∧ ¬ LineRight ⟨640, 480⟩ 5 3 1 1 0 :=
  ⟨(drawLine_rightIff ⟨640, 480⟩ 1 1 5 3 0).2.1 ⟨.inl (by decide), .inl (by decide)⟩, fun h =>
    absurd (((drawLine_rightIff ⟨640, 480⟩ 5 3 1 1 0).2.2 (by decide)).mp
      ((drawLine_rightIff ⟨640, 480⟩ 5 3 1 1 0).1.mp h).1) (by decide)⟩

/-- From (3, 0) to (0, 0) only one point is plotted, and a point behind the end of a row is stored in the next one. -/
theorem drawLine_wrong :
    linePoints 3 0 0 0 = [(3, 0)] ∧ ¬ LineRight ⟨640, 480⟩ 3 0 0 0 0 ∧ ¬ LineRight ⟨640, 480⟩ 640 1 640 1 0 := by
  refine ⟨by decide, fun h => ?_, fun h => ?_⟩
  · have hslope := (slopeOk_iff_of_nonneg (by decide) (by decide)).mp (rasterised_iff.mp h.rasterised)
    exact absurd hslope (by decide)
  · have hframe := (storesRight_iff (by decide)).mp h.stores8 0 (Nat.zero_le _)
    have hpoint : linePoint 640 1 640 1 0 = (640, 1) := by decide
    rw [hpoint] at hframe
    have hpass : Bmp.Passes ⟨640, 480⟩ (640, 1) :=
      show ¬ ((640 : BitVec 32) < toU32 640 ∨ (480 : BitVec 32) < toU32 1) by decide
    have hlt := (hframe hpass).1.2
    exact absurd hlt (by decide)

end

end Shaunos.Gfx
