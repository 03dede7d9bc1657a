/-! # Countdowns

A countdown is done once it has received a fixed number of signals.
Whoever waits for it goes on at that moment. -/
namespace ControlPlane

/-- A countdown with the number of signals still to come. -/
structure Countdown where
  remaining : Nat
deriving DecidableEq, Inhabited, Repr

namespace Countdown

/-- Receives one signal; a signal after the last one has no effect. -/
def countDown (c : Countdown) : Countdown := ⟨c.remaining - 1⟩

/-- Whether every signal has arrived. -/
def isDone (c : Countdown) : Bool := c.remaining = 0

theorem remaining_repeat_countDown (c : Countdown) (n : Nat) :
    (n.repeat countDown c).remaining = c.remaining - n := by
  induction n with
  | zero => rfl
  | succ n ih => simp only [Nat.repeat, countDown, ih]; omega

end Countdown

end ControlPlane
