import Mathlib.Algebra.Order.Field.Rat
import Mathlib.Algebra.Order.BigOperators.Group.List
import Mathlib.Tactic.Linarith

/-!
# `AbstractRateLimiter`: what a window of time lets through

The limiter keeps one number, `running_time`: the time, in milliseconds, from which the next
request may go. `is_allowed(incr_by, now)` first catches up. When the limiter has fallen more
than the buffer behind `now`, the running time jumps to `now`, less the buffer with
`burst_after_idle`. Then the call is allowed if `now` has reached the running time, which then
moves on by `incr_by` requests' worth of time. The arithmetic is exact here, on `ℚ`, where the
source uses floats.

Two facts about the running time carry the bound. It never goes back, since catching up only
ever moves it forward when the buffer is not negative. At every call it is at least `now` less
the buffer. So the calls allowed in a window `[t0, t1]` each start from a running time at least
`t0` less the buffer, and all but the last of them advance it, without passing `t1`.

## Main results

* `runningTime_le_isAllowed` — a call never moves the running time back
* `timePerIncr_mul_sum_grantedIn_le` — the work allowed in a window, against the running time before it
* `sum_grantedIn_le` — over any window, the limiter lets through at most the rate times the
  window and the buffer, plus one request
-/

namespace Swift

namespace RateLimit

/-- `AbstractRateLimiter.clock_accuracy`: milliseconds in a second. -/
def clockAccuracy : ℚ := 1000

/-- The state of an `AbstractRateLimiter`. -/
structure RateLimiter where
  maxRate : ℚ
  rateBufferMs : ℚ
  burstAfterIdle : Bool
  runningTime : ℚ

namespace RateLimiter

/-- `AbstractRateLimiter(max_rate, rate_buffer, burst_after_idle, running_time)`. -/
def init (maxRate rateBuffer : ℚ) (burstAfterIdle : Bool) (runningTime : ℚ) : RateLimiter :=
  ⟨maxRate, rateBuffer * clockAccuracy, burstAfterIdle, runningTime⟩

/-- `self.time_per_incr`, as `set_max_rate` computes it. -/
def timePerIncr (rl : RateLimiter) : ℚ := if rl.maxRate = 0 then 0 else clockAccuracy / rl.maxRate

/-- The running time after the idle check of `is_allowed` at `now` milliseconds: it jumps to `now`,
less the buffer with `burst_after_idle`, when it has fallen more than the buffer behind. -/
def caughtUp (rl : RateLimiter) (now : ℚ) : ℚ :=
  if now - rl.runningTime > rl.rateBufferMs then
    if rl.burstAfterIdle then now - rl.rateBufferMs else now
  else rl.runningTime

/-- `is_allowed(incr_by, now, block)`, with `now` the time in seconds the call uses
(`now or time.time()`): the answer, the limiter after the call, and the seconds it sleeps when it
blocks. -/
def isAllowed (rl : RateLimiter) (incrBy now : ℚ) (block : Bool) :
    Bool × RateLimiter × Option ℚ :=
  if rl.maxRate ≤ 0 ∨ incrBy ≤ 0 then (true, rl, none)
  else
    let now := now * clockAccuracy
    let timePerRequest := rl.timePerIncr * incrBy
    let running := rl.caughtUp now
    if now ≥ running then (true, { rl with runningTime := running + timePerRequest }, none)
    -- the blocking caller sleeps until its turn, with the running time already moved on
    else if block then
      (true, { rl with runningTime := running + timePerRequest },
        some ((running - now) / clockAccuracy))
    else (false, { rl with runningTime := running }, none)

/-- Non-blocking calls `is_allowed(incr_by, now)` one after another: each call with its answer. -/
def runCalls (rl : RateLimiter) : List (ℚ × ℚ) → List ((ℚ × ℚ) × Bool)
  | [] => []
  | call :: calls =>
    let result := rl.isAllowed call.1 call.2 false
    (call, result.1) :: runCalls result.2.1 calls

end RateLimiter

/-- The `incr_by` of the calls answered `True` whose `now` lies in `[t0, t1]`. -/
def grantedIn (t0 t1 : ℚ) (answers : List ((ℚ × ℚ) × Bool)) : List ℚ :=
  (answers.filter fun a => a.2 && decide (t0 ≤ a.1.2 ∧ a.1.2 ≤ t1)).map (·.1.1)

/-- The largest of some request sizes, `0` for none. -/
def largest (sizes : List ℚ) : ℚ := sizes.foldr max 0

/-! ### One call -/

namespace RateLimiter

variable {rl : RateLimiter}

theorem le_caughtUp (hbuf : 0 ≤ rl.rateBufferMs) (now : ℚ) : rl.runningTime ≤ rl.caughtUp now := by
  unfold caughtUp
  split
  next hbehind =>
    split <;> linarith
  next => exact le_rfl

theorem sub_le_caughtUp (hbuf : 0 ≤ rl.rateBufferMs) (now : ℚ) :
    now - rl.rateBufferMs ≤ rl.caughtUp now := by
  unfold caughtUp
  split
  next =>
    split <;> linarith
  next hnot => linarith [not_lt.mp hnot]

theorem timePerIncr_pos (hrate : 0 < rl.maxRate) : 0 < rl.timePerIncr := by
  rw [timePerIncr, if_neg hrate.ne']
  exact div_pos (by norm_num [clockAccuracy]) hrate

/-- What a non-blocking call with a positive rate and size does: it catches up, and then either
allows the request and moves the running time on by its worth, or refuses it. -/
theorem isAllowed_eq (hrate : 0 < rl.maxRate) {incrBy : ℚ} (hincr : 0 < incrBy) (now : ℚ) :
    rl.isAllowed incrBy now false =
      if rl.caughtUp (now * clockAccuracy) ≤ now * clockAccuracy then
        (true, ⟨rl.maxRate, rl.rateBufferMs, rl.burstAfterIdle,
          rl.caughtUp (now * clockAccuracy) + rl.timePerIncr * incrBy⟩, none)
      else
        (false, ⟨rl.maxRate, rl.rateBufferMs, rl.burstAfterIdle,
          rl.caughtUp (now * clockAccuracy)⟩, none) := by
  have hpos : ¬(rl.maxRate ≤ 0 ∨ incrBy ≤ 0) := by
    rintro (h | h) <;> linarith
  rw [isAllowed, if_neg hpos]
  simp only [ge_iff_le, Bool.false_eq_true, if_false]

/-- A call never moves the running time back. -/
theorem runningTime_le_isAllowed (hrate : 0 < rl.maxRate) (hbuf : 0 ≤ rl.rateBufferMs)
    {incrBy : ℚ} (hincr : 0 < incrBy) (now : ℚ) :
    rl.runningTime ≤ (rl.isAllowed incrBy now false).2.1.runningTime := by
  have hle := rl.le_caughtUp hbuf (now * clockAccuracy)
  have hstep : 0 < rl.timePerIncr * incrBy := mul_pos (timePerIncr_pos hrate) hincr
  rw [isAllowed_eq hrate hincr]
  split <;> dsimp only <;> linarith

/-- A call that is allowed had the running time, caught up, at `now` or before, and moves it on
by the request's worth. -/
theorem isAllowed_true (hrate : 0 < rl.maxRate) {incrBy : ℚ} (hincr : 0 < incrBy) {now : ℚ}
    (h : (rl.isAllowed incrBy now false).1 = true) :
    rl.caughtUp (now * clockAccuracy) ≤ now * clockAccuracy ∧
      (rl.isAllowed incrBy now false).2.1.runningTime =
        rl.caughtUp (now * clockAccuracy) + rl.timePerIncr * incrBy := by
  rw [isAllowed_eq hrate hincr] at h ⊢
  split at h
  next hreached => exact ⟨hreached, by rw [if_pos hreached]⟩
  next => cases h

/-- A call keeps the rate, the buffer and the idle rule. -/
theorem isAllowed_params (incrBy now : ℚ) (block : Bool) :
    let rl' := (rl.isAllowed incrBy now block).2.1
    rl'.maxRate = rl.maxRate ∧ rl'.rateBufferMs = rl.rateBufferMs ∧
      rl'.burstAfterIdle = rl.burstAfterIdle := by
  unfold isAllowed
  split
  next => exact ⟨rfl, rfl, rfl⟩
  next =>
    dsimp only
    split
    next => exact ⟨rfl, rfl, rfl⟩
    next => split <;> exact ⟨rfl, rfl, rfl⟩

end RateLimiter

/-! ### A run of calls -/

section Run

open RateLimiter

variable {rl : RateLimiter} {calls : List (ℚ × ℚ)} {t0 t1 : ℚ}

theorem grantedIn_runCalls_cons (call : ℚ × ℚ) :
    grantedIn t0 t1 (rl.runCalls (call :: calls)) =
      if (rl.isAllowed call.1 call.2 false).1 && decide (t0 ≤ call.2 ∧ call.2 ≤ t1) then
        call.1 :: grantedIn t0 t1 ((rl.isAllowed call.1 call.2 false).2.1.runCalls calls)
      else grantedIn t0 t1 ((rl.isAllowed call.1 call.2 false).2.1.runCalls calls) := by
  simp only [runCalls, grantedIn, List.filter_cons]
  split <;> rfl

theorem mul_clockAccuracy_le {a b : ℚ} (h : a ≤ b) : a * clockAccuracy ≤ b * clockAccuracy :=
  mul_le_mul_of_nonneg_right h (by norm_num [clockAccuracy])

/-- The limiter after a call keeps what the run lemmas assume of it. -/
theorem isAllowed_pos (hrate : 0 < rl.maxRate) (hbuf : 0 ≤ rl.rateBufferMs) (incrBy now : ℚ) :
    0 < (rl.isAllowed incrBy now false).2.1.maxRate ∧
      0 ≤ (rl.isAllowed incrBy now false).2.1.rateBufferMs ∧
      (rl.isAllowed incrBy now false).2.1.timePerIncr = rl.timePerIncr := by
  obtain ⟨hrate', hbuf', -⟩ := rl.isAllowed_params incrBy now false
  exact ⟨hrate' ▸ hrate, hbuf' ▸ hbuf, by simp only [timePerIncr, hrate']⟩

/-- Once the running time is past the end of the window, no call in the window is allowed: the
running time only grows, and a call is allowed only from it on. -/
theorem grantedIn_eq_nil_of_lt (hrate : 0 < rl.maxRate) (hbuf : 0 ≤ rl.rateBufferMs)
    (hincr : ∀ call ∈ calls, 0 < call.1) (hpast : t1 * clockAccuracy < rl.runningTime) :
    grantedIn t0 t1 (rl.runCalls calls) = [] := by
  induction calls generalizing rl with
  | nil => rfl
  | cons call calls ih =>
    obtain ⟨incrBy, now⟩ := call
    have hi : 0 < incrBy := hincr _ List.mem_cons_self
    obtain ⟨hrate', hbuf', -⟩ := isAllowed_pos hrate hbuf incrBy now
    have hrest := @ih (rl.isAllowed incrBy now false).2.1 hrate' hbuf'
      (fun c hc => hincr c (List.mem_cons_of_mem _ hc))
      (lt_of_lt_of_le hpast (runningTime_le_isAllowed hrate hbuf hi now))
    rw [grantedIn_runCalls_cons, if_neg, hrest]
    -- this call is refused when it falls in the window
    simp only [Bool.and_eq_true, decide_eq_true_eq, not_and, not_le]
    intro hyes hfrom
    have hle := rl.le_caughtUp hbuf (now * clockAccuracy)
    have hreached := (isAllowed_true hrate hi hyes).1
    by_contra hin
    have := mul_clockAccuracy_le (not_lt.mp hin)
    linarith

/-- The invariant of a run, in milliseconds: the requests allowed in the window are worth at most
the time from the running time (or from the window's start less the buffer, if later) to the
window's end, plus the largest of them. -/
theorem timePerIncr_mul_sum_grantedIn_le (hrate : 0 < rl.maxRate) (hbuf : 0 ≤ rl.rateBufferMs)
    (hincr : ∀ call ∈ calls, 0 < call.1) :
    rl.timePerIncr * (grantedIn t0 t1 (rl.runCalls calls)).sum ≤
      max 0 (t1 * clockAccuracy - max rl.runningTime (t0 * clockAccuracy - rl.rateBufferMs)) +
        rl.timePerIncr * largest (grantedIn t0 t1 (rl.runCalls calls)) := by
  induction calls generalizing rl with
  | nil => simp [runCalls, grantedIn, largest]
  | cons call calls ih =>
    obtain ⟨incrBy, now⟩ := call
    have hi : 0 < incrBy := hincr _ List.mem_cons_self
    have hincr' : ∀ c ∈ calls, 0 < c.1 := fun c hc => hincr c (List.mem_cons_of_mem _ hc)
    have htpi := timePerIncr_pos hrate
    obtain ⟨hrate', hbuf', htpi'⟩ := isAllowed_pos hrate hbuf incrBy now
    obtain ⟨-, hbufeq, -⟩ := rl.isAllowed_params incrBy now false
    have hrest := @ih (rl.isAllowed incrBy now false).2.1 hrate' hbuf' hincr'
    rw [htpi', hbufeq] at hrest
    have hmono := runningTime_le_isAllowed hrate hbuf hi now
    rw [grantedIn_runCalls_cons]
    split
    next hyes =>
      simp only [Bool.and_eq_true, decide_eq_true_eq] at hyes
      obtain ⟨hallowed, hfrom, hto⟩ := hyes
      -- the request starts from the caught-up running time, which lies in the window less the
      -- buffer, and moves it on by the request's worth
      obtain ⟨hreached, hnext⟩ := isAllowed_true hrate hi hallowed
      have hworth : 0 < rl.timePerIncr * incrBy := mul_pos htpi hi
      have hlow := rl.sub_le_caughtUp hbuf (now * clockAccuracy)
      have hR := rl.le_caughtUp hbuf (now * clockAccuracy)
      have hfrom' := mul_clockAccuracy_le hfrom
      have hto' := mul_clockAccuracy_le hto
      have hmax : max rl.runningTime (t0 * clockAccuracy - rl.rateBufferMs) ≤
          rl.caughtUp (now * clockAccuracy) := max_le hR (by linarith)
      have hlarge : rl.timePerIncr * largest (grantedIn t0 t1
          ((rl.isAllowed incrBy now false).2.1.runCalls calls)) ≤
          rl.timePerIncr * largest (incrBy :: grantedIn t0 t1
            ((rl.isAllowed incrBy now false).2.1.runCalls calls)) :=
        mul_le_mul_of_nonneg_left (le_max_right _ _) htpi.le
      have hfirst : rl.timePerIncr * incrBy ≤ rl.timePerIncr * largest (incrBy :: grantedIn t0 t1
          ((rl.isAllowed incrBy now false).2.1.runCalls calls)) :=
        mul_le_mul_of_nonneg_left (le_max_left _ _) htpi.le
      have hzero := le_max_left 0
        (t1 * clockAccuracy - max rl.runningTime (t0 * clockAccuracy - rl.rateBufferMs))
      have hwindow := le_max_right 0
        (t1 * clockAccuracy - max rl.runningTime (t0 * clockAccuracy - rl.rateBufferMs))
      rw [List.sum_cons, mul_add]
      by_cases hpast : t1 * clockAccuracy < (rl.isAllowed incrBy now false).2.1.runningTime
      · -- the request runs past the window: it is the last one allowed in it
        rw [grantedIn_eq_nil_of_lt hrate' hbuf' hincr' hpast, List.sum_nil, mul_zero, add_zero]
        rw [grantedIn_eq_nil_of_lt hrate' hbuf' hincr' hpast] at hfirst
        linarith
      · -- otherwise the rest of the run starts from the moved-on running time, inside the window
        have hin : max (rl.isAllowed incrBy now false).2.1.runningTime
            (t0 * clockAccuracy - rl.rateBufferMs) = (rl.isAllowed incrBy now false).2.1.runningTime :=
          max_eq_left (by linarith)
        rw [hin, max_eq_right (by linarith)] at hrest
        linarith
    next =>
      -- refused, or outside the window: the rest of the run starts no earlier
      have hlater : max 0 (t1 * clockAccuracy - max (rl.isAllowed incrBy now false).2.1.runningTime
            (t0 * clockAccuracy - rl.rateBufferMs)) ≤
          max 0 (t1 * clockAccuracy - max rl.runningTime (t0 * clockAccuracy - rl.rateBufferMs)) :=
        max_le_max le_rfl (sub_le_sub_left (max_le_max hmono le_rfl) _)
      linarith

/-- Over any window `[t0, t1]`, the non-blocking calls the limiter allows ask for at most the rate
times the window and the buffer, plus the largest of their requests, whatever the limiter's
running time to begin with and the order of the calls' times. -/
theorem sum_grantedIn_le (maxRate rateBuffer : ℚ) (burstAfterIdle : Bool) (runningTime : ℚ)
    (hrate : 0 < maxRate) (hbuf : 0 ≤ rateBuffer) (calls : List (ℚ × ℚ))
    (hincr : ∀ call ∈ calls, 0 < call.1) (hwin : t0 ≤ t1) :
    (grantedIn t0 t1 ((init maxRate rateBuffer burstAfterIdle runningTime).runCalls calls)).sum ≤
      maxRate * ((t1 - t0) + rateBuffer) +
        largest (grantedIn t0 t1 ((init maxRate rateBuffer burstAfterIdle runningTime).runCalls calls)) := by
  have hbufms : 0 ≤ (init maxRate rateBuffer burstAfterIdle runningTime).rateBufferMs :=
    mul_nonneg hbuf (by norm_num [clockAccuracy])
  have key : (init maxRate rateBuffer burstAfterIdle runningTime).timePerIncr *
      (grantedIn t0 t1 ((init maxRate rateBuffer burstAfterIdle runningTime).runCalls calls)).sum ≤
      max 0 (t1 * clockAccuracy - max runningTime (t0 * clockAccuracy - rateBuffer * clockAccuracy)) +
        (init maxRate rateBuffer burstAfterIdle runningTime).timePerIncr *
          largest (grantedIn t0 t1 ((init maxRate rateBuffer burstAfterIdle runningTime).runCalls calls)) :=
    timePerIncr_mul_sum_grantedIn_le hrate hbufms hincr
  -- the time a request is worth, against the rate: `1000 / max_rate` milliseconds a unit
  have htpi : (init maxRate rateBuffer burstAfterIdle runningTime).timePerIncr =
      clockAccuracy / maxRate := if_neg hrate.ne'
  have hworth : clockAccuracy / maxRate * maxRate = clockAccuracy := div_mul_cancel₀ _ hrate.ne'
  have hpos : 0 < clockAccuracy / maxRate := div_pos (by norm_num [clockAccuracy]) hrate
  -- the window and the buffer, in milliseconds
  have hspan : max 0 (t1 * clockAccuracy - max runningTime (t0 * clockAccuracy - rateBuffer * clockAccuracy)) ≤
      clockAccuracy / maxRate * (maxRate * ((t1 - t0) + rateBuffer)) := by
    have hstart := le_max_right runningTime (t0 * clockAccuracy - rateBuffer * clockAccuracy)
    have hc : (0 : ℚ) < clockAccuracy := by norm_num [clockAccuracy]
    rw [← mul_assoc, hworth]
    refine max_le (by nlinarith) (by nlinarith)
  rw [htpi] at key
  refine le_of_mul_le_mul_left ?_ hpos
  rw [mul_add]
  linarith

theorem sum_grantedIn_le_burst :
    (grantedIn 0 1 ((init 2 1 true 0).runCalls [(1, 1), (1, 1), (1, 1), (1, 1), (1, 1)])).sum ≤
      2 * ((1 - 0) + 1) +
        largest (grantedIn 0 1 ((init 2 1 true 0).runCalls [(1, 1), (1, 1), (1, 1), (1, 1), (1, 1)])) :=
  sum_grantedIn_le 2 1 true 0 (by norm_num) (by norm_num) _ (by decide) (by norm_num)

end Run

end RateLimit

end Swift
