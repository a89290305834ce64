/-!
# Virtual time

Time moves only from one due event to the next. A world says what it does at a time (`tick`) and
when it has something to do again (`wake?`); `Clock.run` lets it run to a deadline, or until it has
reached a state it is waited for.
-/

namespace Concord.Schedule.Clock

universe u

/-- A world that runs by the clock. -/
structure Ticking (ω : Type u) where
  /-- Do all that is due at a time. -/
  tick : Nat → ω → ω
  /-- The time at which something is due next. -/
  wake? : ω → Option Nat

/-- Run from a time to a deadline, or until the world has a property. -/
def run {ω : Type u} (t : Ticking ω) (done : ω → Bool) (deadline now : Nat) (w : ω) : Nat × ω :=
  let w := t.tick now w
  if done w then (now, w)
  else match t.wake? w with
    | some wake =>
      if _h : now < wake ∧ wake ≤ deadline then run t done deadline wake w else (deadline, w)
    | none => (deadline, w)
termination_by deadline - now
decreasing_by omega

/-- Run for some time. -/
def advance {ω : Type u} (t : Ticking ω) (duration now : Nat) (w : ω) : Nat × ω :=
  if duration = 0 then (now, w) else run t (fun _ => false) (now + duration) now w

/-- Let the world run until something can be taken from it, for some time at most. What can be taken
at once is taken without letting it run. -/
def waitFor {ω γ : Type u} (t : Ticking ω) (take? : ω → Option γ) (duration now : Nat) (w : ω) :
    Option γ × Nat × ω :=
  if (take? w).isSome || duration = 0 then (take? w, now, w)
  else
    let (now, w) := run t (fun w => (take? w).isSome) (now + duration) now w
    (take? w, now, w)

end Concord.Schedule.Clock
